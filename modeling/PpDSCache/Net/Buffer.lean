import PpDSCache.Cpp.Bytes

/-!
# The buffer of a connection

An array of bytes with two indices: bytes in front of `readerIndex` can be
prepended to, those up to `writerIndex` are to be read, the rest is writable.
A function that fails an assertion or leaves the array has no result.
-/

namespace PpDSCache.Net

open Cpp

structure Buffer where
  bytes : Text
  readerIndex : ℕ
  writerIndex : ℕ
  deriving DecidableEq

/-- What `readv` did: an error number, or the bytes it stored. -/
inductive Readv where
  | failed (errno : ℤ)
  | received (data : Text)

inductive IntWidth where
  | int8
  | int16
  | int32
  | int64
  deriving DecidableEq

def IntWidth.size : IntWidth → ℕ
  | int8 => 1
  | int16 => 2
  | int32 => 4
  | int64 => 8

namespace Buffer

abbrev kCheapPrepend : ℕ := 8

abbrev kInitialSize : ℕ := 1024

def new (initialSize : ℕ) : Buffer :=
  ⟨List.replicate (sizeAdd kCheapPrepend initialSize) 0, kCheapPrepend, kCheapPrepend⟩

def readableBytes (b : Buffer) : ℕ := sizeSub b.writerIndex b.readerIndex

def writableBytes (b : Buffer) : ℕ := sizeSub b.bytes.length b.writerIndex

def prependableBytes (b : Buffer) : ℕ := b.readerIndex

/-! ## Taking bytes from the front -/

def retrieveAll (b : Buffer) : Buffer :=
  { b with readerIndex := kCheapPrepend, writerIndex := kCheapPrepend }

def retrieve (len : ℕ) (b : Buffer) : Option Buffer := do
  guard (len ≤ b.readableBytes)
  if len < b.readableBytes then
    pure { b with readerIndex := sizeAdd b.readerIndex len }
  else
    pure b.retrieveAll

/-- The argument is a pointer into the array, given by its position. -/
def retrieveUntil (last : ℕ) (b : Buffer) : Option Buffer := do
  guard (b.readerIndex ≤ last)
  guard (last ≤ b.writerIndex)
  b.retrieve (sizeSub last b.readerIndex)

def retrieveAsString (len : ℕ) (b : Buffer) : Option (Text × Buffer) := do
  guard (len ≤ b.readableBytes)
  let result ← readAt b.bytes b.readerIndex len
  let t ← b.retrieve len
  pure (result, t)

def retrieveAllAsString (b : Buffer) : Option (Text × Buffer) :=
  b.retrieveAsString b.readableBytes

/-! ## Adding bytes at the end -/

/-- `vector::resize`, which value-initialises new elements. -/
def resize (bytes : Text) (n : ℕ) : Text := bytes.take n ++ List.replicate (n - bytes.length) 0

def makeSpace (len : ℕ) (b : Buffer) : Option Buffer :=
  if sizeAdd b.writableBytes b.prependableBytes < sizeAdd len kCheapPrepend then
    some { b with bytes := resize b.bytes (sizeAdd b.writerIndex len) }
  else do
    guard (kCheapPrepend < b.readerIndex)
    let readable := b.readableBytes
    -- the destination lies in front of the source, so a forward copy is right
    let moved ← readAt b.bytes b.readerIndex (b.writerIndex - b.readerIndex)
    let bytes ← writeAt b.bytes kCheapPrepend moved
    let t : Buffer := ⟨bytes, kCheapPrepend, sizeAdd kCheapPrepend readable⟩
    guard (readable = t.readableBytes)
    pure t

def ensureWritableBytes (len : ℕ) (b : Buffer) : Option Buffer := do
  let t ← if b.writableBytes < len then b.makeSpace len else pure b
  guard (len ≤ t.writableBytes)
  pure t

def hasWritten (len : ℕ) (b : Buffer) : Option Buffer := do
  guard (len ≤ b.writableBytes)
  pure { b with writerIndex := sizeAdd b.writerIndex len }

/-- A caller copies bytes to `beginWrite()`. -/
def fill (data : Text) (b : Buffer) : Option Buffer := do
  let bytes ← writeAt b.bytes b.writerIndex data
  pure { b with bytes := bytes }

def append (data : Text) (b : Buffer) : Option Buffer := do
  let t ← b.ensureWritableBytes data.length
  let t ← t.fill data
  t.hasWritten data.length

def unwrite (len : ℕ) (b : Buffer) : Option Buffer := do
  guard (len ≤ b.readableBytes)
  pure { b with writerIndex := sizeSub b.writerIndex len }

def prepend (data : Text) (b : Buffer) : Option Buffer := do
  guard (data.length ≤ b.prependableBytes)
  let reader := sizeSub b.readerIndex data.length
  let bytes ← writeAt b.bytes reader data
  pure { b with bytes := bytes, readerIndex := reader }

/-! ## Integers in network order -/

def appendInt (w : IntWidth) (x : ℤ) (b : Buffer) : Option Buffer := b.append (encodeInt w.size x)

def prependInt (w : IntWidth) (x : ℤ) (b : Buffer) : Option Buffer :=
  b.prepend (encodeInt w.size x)

def peekInt (w : IntWidth) (b : Buffer) : Option ℤ := do
  guard (w.size ≤ b.readableBytes)
  let be ← readAt b.bytes b.readerIndex w.size
  pure (decodeInt be)

def retrieveInt (w : IntWidth) (b : Buffer) : Option Buffer := b.retrieve w.size

def readInt (w : IntWidth) (b : Buffer) : Option (ℤ × Buffer) := do
  let result ← b.peekInt w
  let t ← b.retrieveInt w
  pure (result, t)

def appendInt8 := appendInt .int8

def appendInt16 := appendInt .int16

def appendInt32 := appendInt .int32

def appendInt64 := appendInt .int64

def prependInt8 := prependInt .int8

def prependInt16 := prependInt .int16

def prependInt32 := prependInt .int32

def prependInt64 := prependInt .int64

def peekInt8 := peekInt .int8

def peekInt16 := peekInt .int16

def peekInt32 := peekInt .int32

def peekInt64 := peekInt .int64

def retrieveInt8 := retrieveInt .int8

def retrieveInt16 := retrieveInt .int16

def retrieveInt32 := retrieveInt .int32

def retrieveInt64 := retrieveInt .int64

def readInt8 := readInt .int8

def readInt16 := readInt .int16

def readInt32 := readInt .int32

def readInt64 := readInt .int64

/-! ## Whole buffers -/

/-- The length of the view is an `int`, which `append` takes back to an
unsigned length. -/
def toStringPiece (b : Buffer) : Option Text :=
  let len : ℤ := (b.readableBytes : ℤ).bmod (2 ^ 32)
  readAt b.bytes b.readerIndex (len % 2 ^ 64).toNat

/-- The new buffer takes the place of this one. -/
def shrink (reserve : ℕ) (b : Buffer) : Option Buffer := do
  let other ← (new kInitialSize).ensureWritableBytes (sizeAdd b.readableBytes reserve)
  other.append (← b.toStringPiece)

abbrev extrabufSize : ℕ := 65536

/-- How much `readv` may store: the writable bytes, and the local array behind
them when they are few. -/
def offered (b : Buffer) : ℕ :=
  if b.writableBytes < extrabufSize then b.writableBytes + extrabufSize else b.writableBytes

/-- The returned count, and the error number where the count is negative. -/
def readFd (r : Readv) (b : Buffer) : Option ((ℤ × Option ℤ) × Buffer) :=
  match r with
  | .failed errno => some ((-1, some errno), b)
  | .received data => do
      let writable := b.writableBytes
      let t ← b.fill (data.take writable)
      if data.length ≤ writable then
        pure ((data.length, none), { t with writerIndex := sizeAdd t.writerIndex data.length })
      else
        let t ← append (data.drop writable) { t with writerIndex := t.bytes.length }
        pure ((data.length, none), t)

end Buffer

end PpDSCache.Net
