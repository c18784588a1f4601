import PpDSCache.Net.Buffer

/-!
# The codec of protobuf messages

A message travels in a frame: its length, the tag, the serialized message and a
checksum.  The serialization of messages and the checksum come from libraries.
A function that fails an assertion, reads outside its buffer or does not end
has no result.
-/

namespace PpDSCache.Protobuf

open Cpp Net

inductive ErrorCode where
  | kNoError
  | kInvalidLength
  | kCheckSumError
  | kInvalidNameLen
  | kUnknownMessageType
  | kParseError
  deriving DecidableEq

structure ProtobufCodecLite (M : Type) where
  tag : Text
  /-- `SerializeWithCachedSizesToArray` -/
  serialize : M → Text
  /-- `ParseFromArray`, into a new message -/
  parseFromArray : Text → Option M
  adler32 : Text → ℕ
  rawCb : Option (Text → Bool)

namespace ProtobufCodecLite

abbrev kHeaderLen : ℕ := 4

abbrev kChecksumLen : ℕ := 4

abbrev kMaxMessageLen : ℕ := 64 * 1024 * 1024

variable {M : Type} (codec : ProtobufCodecLite M)

def kMinMessageLen : ℕ := codec.tag.length + kChecksumLen

def checksum (data : Text) : ℤ := (codec.adler32 data : ℤ).bmod (2 ^ 32)

/-! ## Sending -/

/-- With the number of bytes written. -/
def serializeToBuffer (message : M) (buf : Buffer) : Option (ℕ × Buffer) := do
  let data := codec.serialize message
  -- `byte_size` is an `int`
  guard (data.length < 2 ^ 31)
  let buf ← buf.ensureWritableBytes (data.length + kChecksumLen)
  let buf ← buf.fill data
  let buf ← buf.hasWritten data.length
  pure (data.length, buf)

def fillEmptyBuffer (message : M) (buf : Buffer) : Option Buffer := do
  guard (buf.readableBytes = 0)
  let buf ← buf.append codec.tag
  let (byteSize, buf) ← codec.serializeToBuffer message buf
  let summed ← readAt buf.bytes buf.readerIndex buf.readableBytes
  let buf ← buf.appendInt32 (codec.checksum summed)
  guard (buf.readableBytes = codec.tag.length + byteSize + kChecksumLen)
  buf.prepend (encodeInt 4 buf.readableBytes)

/-! ## Receiving -/

def asInt32 (data : Text) (pos : ℕ) : Option ℤ := do
  let be32 ← readAt data pos 4
  pure (decodeInt be32)

def validateChecksum (data : Text) : Option Bool := do
  let expectedCheckSum ← asInt32 data (data.length - kChecksumLen)
  let checkSum := codec.checksum (data.take (data.length - kChecksumLen))
  pure (decide (checkSum = expectedCheckSum))

/-- The error, and the message where there is none. -/
def parse (data : Text) : Option (ErrorCode × Option M) := do
  if (← codec.validateChecksum data) = true then
    let front ← readAt data 0 codec.tag.length
    if front = codec.tag then
      let dataLen := data.length - kChecksumLen - codec.tag.length
      let payload ← readAt data codec.tag.length dataLen
      match codec.parseFromArray payload with
      | some message => pure (.kNoError, some message)
      | none => pure (.kParseError, none)
    else pure (.kUnknownMessageType, none)
  else pure (.kCheckSumError, none)

/-- What a connection's buffer holds, and the calls of the two callbacks. -/
structure Receiver (M : Type) where
  buf : Buffer
  messages : List M
  errors : List ErrorCode

def Receiver.new : Receiver M := ⟨.new Buffer.kInitialSize, [], []⟩

/-- A round of the loop, and whether the loop goes on. -/
def onMessageRound (s : Receiver M) : Option (Bool × Receiver M) :=
  if codec.kMinMessageLen + kHeaderLen ≤ s.buf.readableBytes then do
    let len ← s.buf.peekInt32
    if (kMaxMessageLen : ℤ) < len ∨ len < codec.kMinMessageLen then
      pure (false, { s with errors := s.errors ++ [.kInvalidLength] })
    else if kHeaderLen + len.toNat ≤ s.buf.readableBytes then
      let frame ← readAt s.buf.bytes s.buf.readerIndex (kHeaderLen + len.toNat)
      if codec.rawCb.any (fun rawCb ↦ !rawCb frame) = true then
        let buf ← s.buf.retrieve (kHeaderLen + len.toNat)
        pure (true, { s with buf := buf })
      else
        match ← codec.parse (frame.drop kHeaderLen) with
        | (.kNoError, some message) =>
            let buf ← s.buf.retrieve (kHeaderLen + len.toNat)
            pure (true, { s with buf := buf, messages := s.messages ++ [message] })
        | (errorCode, _) => pure (false, { s with errors := s.errors ++ [errorCode] })
    else pure (false, s)
  else pure (false, s)

def onMessageLoop : ℕ → Receiver M → Option (Receiver M)
  | 0, _ => none
  | n + 1, s => do
      let (more, s) ← codec.onMessageRound s
      if more = true then onMessageLoop n s else pure s

/-- Each round but the last retrieves a frame. -/
def onMessage (s : Receiver M) : Option (Receiver M) :=
  codec.onMessageLoop (s.buf.readableBytes + 1) s

/-- Data arrives on the connection. -/
def exec (data : Text) (s : Receiver M) : Option (Receiver M) := do
  let (_, buf) ← s.buf.readFd (.received data)
  codec.onMessage { s with buf := buf }

end ProtobufCodecLite

end PpDSCache.Protobuf
