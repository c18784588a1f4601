import PpDSCache.Net.Buffer

/-!
# A connection and its channel

The functions that run on the loop thread of a connection.  `write` and `readv`
are calls into the kernel whose results come from outside.  The socket keeps
what the kernel accepted, and `calls` what the connection handed on to its user
and its server.  A function that fails an assertion has no result.
-/

namespace PpDSCache.Net

open Cpp

/-- `events_` with its bits for reading and writing. -/
structure Channel where
  reading : Bool
  writing : Bool
  addedToLoop : Bool
  deriving DecidableEq

namespace Channel

def new : Channel := ⟨false, false, false⟩

def isNoneEvent (c : Channel) : Bool := !c.reading && !c.writing

def update (c : Channel) : Channel := { c with addedToLoop := true }

def enableReading (c : Channel) : Channel := { c with reading := true }.update

def disableReading (c : Channel) : Channel := { c with reading := false }.update

def enableWriting (c : Channel) : Channel := { c with writing := true }.update

def disableWriting (c : Channel) : Channel := { c with writing := false }.update

def disableAll (c : Channel) : Channel := { c with reading := false, writing := false }.update

def remove (c : Channel) : Option Channel :=
  if c.isNoneEvent = true then some { c with addedToLoop := false } else none

end Channel

inductive StateE where
  | kDisconnected
  | kConnecting
  | kConnected
  | kDisconnecting
  deriving DecidableEq

inductive Write where
  | accepted (n : ℕ)
  | failed (errno : ℤ)

abbrev EPIPE : ℤ := 32

abbrev ECONNRESET : ℤ := 104

abbrev EWOULDBLOCK : ℤ := 11

/-- `write` accepts no more than it is offered. -/
def Write.Possible (w : Write) (offered : Text) : Prop :=
  match w with
  | accepted n => n ≤ offered.length
  | failed _ => True

instance (w : Write) (offered : Text) : Decidable (w.Possible offered) :=
  match w with
  | .accepted n => inferInstanceAs (Decidable (n ≤ offered.length))
  | .failed _ => inferInstanceAs (Decidable True)

def Write.NoPeerReset (w : Write) : Prop :=
  match w with
  | accepted _ => True
  | failed errno => errno ≠ EPIPE ∧ errno ≠ ECONNRESET

structure Socket where
  accepted : Text
  writeShut : Bool
  deriving DecidableEq

/-- What a connection hands on: callbacks to its user, functors queued for
them, and the close callback of its server. -/
inductive Handed where
  | connection (connected : Bool)
  | message
  | writeComplete
  | highWaterMark (len : ℕ)
  | close
  deriving DecidableEq

structure TcpConnection where
  state : StateE
  reading : Bool
  socket : Socket
  channel : Channel
  inputBuffer : Text
  outputBuffer : Text
  highWaterMark : ℕ
  hasWriteComplete : Bool
  hasHighWaterMark : Bool
  calls : List Handed
  deriving DecidableEq

namespace TcpConnection

def new (highWaterMark : ℕ) (hasWriteComplete hasHighWaterMark : Bool) : TcpConnection where
  state := .kConnecting
  reading := true
  socket := ⟨[], false⟩
  channel := Channel.new
  inputBuffer := []
  outputBuffer := []
  highWaterMark := highWaterMark
  hasWriteComplete := hasWriteComplete
  hasHighWaterMark := hasHighWaterMark
  calls := []

def handOn (h : Handed) (c : TcpConnection) : TcpConnection := { c with calls := c.calls ++ [h] }

/-! ## Sending -/

/-- Bytes the kernel took. -/
def accept (data : Text) (c : TcpConnection) : TcpConnection :=
  { c with socket := { c.socket with accepted := c.socket.accepted ++ data } }

def notifyComplete (c : TcpConnection) : TcpConnection :=
  { c with calls := c.calls ++ if c.hasWriteComplete = true then [.writeComplete] else [] }

def notifyHighWaterMark (remaining : ℕ) (c : TcpConnection) : TcpConnection :=
  let oldLen := c.outputBuffer.length
  { c with
    calls := c.calls ++
      if c.highWaterMark ≤ oldLen + remaining ∧ oldLen < c.highWaterMark ∧
          c.hasHighWaterMark = true then [.highWaterMark (oldLen + remaining)]
      else [] }

def ensureWriting (c : TcpConnection) : TcpConnection :=
  if c.channel.writing = true then c else { c with channel := c.channel.enableWriting }

/-- The second half of `sendInLoop`: what is left goes to the output buffer. -/
def bufferRest (rest : Text) (c : TcpConnection) : TcpConnection :=
  if 0 < rest.length then
    ensureWriting { c.notifyHighWaterMark rest.length with outputBuffer := c.outputBuffer ++ rest }
  else c

def isFaultError (errno : ℤ) : Bool :=
  errno ≠ EWOULDBLOCK && (errno == EPIPE || errno == ECONNRESET)

def sendInLoop (w : Write) (data : Text) (c : TcpConnection) : TcpConnection :=
  if c.state = .kDisconnected then c
  else if c.channel.writing = false ∧ c.outputBuffer = [] then
    match w with
    | .accepted n =>
        let c := c.accept (data.take n)
        let c := if data.length - n = 0 then c.notifyComplete else c
        c.bufferRest (data.drop n)
    | .failed errno => if isFaultError errno = true then c else c.bufferRest data
  else c.bufferRest data

def shutdownInLoop (c : TcpConnection) : TcpConnection :=
  if c.channel.writing = true then c
  else { c with socket := { c.socket with writeShut := true } }

/-- The kernel takes the front of the output buffer. -/
def drain (n : ℕ) (c : TcpConnection) : TcpConnection :=
  { c.accept (c.outputBuffer.take n) with outputBuffer := c.outputBuffer.drop n }

def stopWriting (c : TcpConnection) : TcpConnection :=
  notifyComplete { c with channel := c.channel.disableWriting }

/-- The block of `handleWrite` for an output buffer that has become empty. -/
def finishWriting (c : TcpConnection) : TcpConnection :=
  if c.state = .kDisconnecting then c.stopWriting.shutdownInLoop else c.stopWriting

def handleWrite (w : Write) (c : TcpConnection) : TcpConnection :=
  if c.channel.writing = true then
    match w with
    | .accepted n =>
        if 0 < n then
          if (c.drain n).outputBuffer.length = 0 then (c.drain n).finishWriting else c.drain n
        else c
    | .failed _ => c
  else c

/-! ## Opening and closing -/

def establish (c : TcpConnection) : TcpConnection :=
  handOn (.connection true) { c with state := .kConnected, channel := c.channel.enableReading }

def connectEstablished (c : TcpConnection) : Option TcpConnection :=
  if c.state = .kConnecting then some c.establish else none

def disconnect (c : TcpConnection) : TcpConnection :=
  handOn (.connection false) { c with state := .kDisconnected, channel := c.channel.disableAll }

def handleClose (c : TcpConnection) : Option TcpConnection :=
  if c.state = .kConnected ∨ c.state = .kDisconnecting then some (c.disconnect.handOn .close)
  else none

def forceCloseInLoop (c : TcpConnection) : Option TcpConnection :=
  if c.state = .kConnected ∨ c.state = .kDisconnecting then c.handleClose else some c

def connectDestroyed (c : TcpConnection) : Option TcpConnection :=
  let c := if c.state = .kConnected then c.disconnect else c
  c.channel.remove.map fun channel ↦ { c with channel := channel }

/-! ## Reading -/

/-- An error is only logged. -/
def handleRead (r : Readv) (c : TcpConnection) : Option TcpConnection :=
  match r with
  | .failed _ => some c
  | .received data =>
      if 0 < data.length then
        some (handOn .message { c with inputBuffer := c.inputBuffer ++ data })
      else c.handleClose

def startReadInLoop (c : TcpConnection) : TcpConnection :=
  if c.reading = false ∨ c.channel.reading = false then
    { c with channel := c.channel.enableReading, reading := true }
  else c

def stopReadInLoop (c : TcpConnection) : TcpConnection :=
  if c.reading = true ∨ c.channel.reading = true then
    { c with channel := c.channel.disableReading, reading := false }
  else c

end TcpConnection

end PpDSCache.Net
