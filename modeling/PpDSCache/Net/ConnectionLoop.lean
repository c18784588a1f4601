import PpDSCache.Net.EPollPollerRuns
import PpDSCache.Net.TcpServerLifecycle

/-!
# A connection in its loop

One open connection with the functors queued for it, the calls of other threads
under way, and the index its channel has in the epoll poller of the loop.  An
index of `kAdded` means that the kernel watches the socket.  The run ends where
`connectDestroyed` would remove the channel.
-/

namespace PpDSCache.Net

open Cpp Abstract

inductive QueuedCall where
  | sendInLoop (data : Text)
  | shutdownInLoop
  | forceCloseInLoop
  | startReadInLoop
  | stopReadInLoop
  deriving DecidableEq

/-- A call from another thread that has found `state_` as it needs it, and
whether it has written `state_` yet. -/
structure OtherCall where
  call : UserCall
  stored : Bool
  deriving DecidableEq

structure ConnectionLoop where
  conn : TcpConnection
  index : ℤ
  queue : List QueuedCall
  calls : List OtherCall

inductive ConnAct where
  -- calls on the loop of the connection
  | send (data : Text) (w : Write)
  | shutdown
  | forceClose
  | startRead
  | stopRead
  -- calls on other threads
  | beginCall (call : UserCall)
  | storeState (k : OtherCall)
  | queueCall (k : OtherCall)
  | queueStartRead
  | queueStopRead
  | runFunctor (w : Write)
  | handleEvent (revents : Revents) (r : Readv) (w : Write)

namespace ConnectionLoop

open EPollPoller

/-- The connection right after `connectEstablished`. -/
def established (highWaterMark : ℕ) (hasWriteComplete hasHighWaterMark : Bool) :
    ConnectionLoop where
  conn := (TcpConnection.new highWaterMark hasWriteComplete hasHighWaterMark).establish
  index := kAdded
  queue := []
  calls := []

def push (f : QueuedCall) (s : ConnectionLoop) : ConnectionLoop :=
  { s with queue := s.queue ++ [f] }

/-- The connection after a function that has called `Channel::update` once. -/
def updated (c : TcpConnection) (s : ConnectionLoop) : ConnectionLoop :=
  { s with conn := c, index := indexAfter s.index c.channel }

/-- The connection after a function that calls `Channel::update` only where it
changes an event: sending turns writing on only if it is off, and `handleWrite`
turns it off only if it is on. -/
def withConn (c : TcpConnection) (s : ConnectionLoop) : ConnectionLoop :=
  if c.channel = s.conn.channel then { s with conn := c } else s.updated c

/-! ## Handlers -/

/-- `handleClose` disables all events, whether there are any or not. -/
def handleClose (s : ConnectionLoop) : Option ConnectionLoop :=
  s.conn.handleClose.map fun c ↦ s.updated c

def isOpen (c : TcpConnection) : Bool := c.state = .kConnected ∨ c.state = .kDisconnecting

def forceCloseInLoop (s : ConnectionLoop) : Option ConnectionLoop :=
  if isOpen s.conn = true then s.handleClose else some s

def startReadInLoop (s : ConnectionLoop) : ConnectionLoop :=
  if s.conn.reading = false ∨ s.conn.channel.reading = false then s.updated s.conn.startReadInLoop
  else s

def stopReadInLoop (s : ConnectionLoop) : ConnectionLoop :=
  if s.conn.reading = true ∨ s.conn.channel.reading = true then s.updated s.conn.stopReadInLoop
  else s

/-- At the end of the input it goes to `handleClose`. -/
def handleRead (r : Readv) (s : ConnectionLoop) : Option ConnectionLoop :=
  match r with
  | .received [] => s.handleClose
  | r => (s.conn.handleRead r).map fun c ↦ s.withConn c

def handleWrite (w : Write) (s : ConnectionLoop) : ConnectionLoop :=
  s.withConn (s.conn.handleWrite w)

/-- `handleEventWithGuard` -/
def handleEvent (e : Revents) (r : Readv) (w : Write) (s : ConnectionLoop) :
    Option ConnectionLoop :=
  (if e.hup = true ∧ e.pollin = false then s.handleClose else some s).bind fun s ↦
  (if e.pollin = true ∨ e.pri = true ∨ e.rdhup = true then s.handleRead r
    else some s).map fun s ↦
  if e.out = true then s.handleWrite w else s

def runFunctor (w : Write) (f : QueuedCall) (s : ConnectionLoop) : Option ConnectionLoop :=
  match f with
  | .sendInLoop data => some (s.withConn (s.conn.sendInLoop w data))
  | .shutdownInLoop => some (s.withConn s.conn.shutdownInLoop)
  | .forceCloseInLoop => s.forceCloseInLoop
  | .startReadInLoop => some s.startReadInLoop
  | .stopReadInLoop => some s.stopReadInLoop

def runNext (w : Write) (s : ConnectionLoop) : Option ConnectionLoop :=
  match s.queue with
  | [] => none
  | f :: fs => runFunctor w f { s with queue := fs }

/-- `Channel::remove`, with the assertion of the poller on the index. -/
def removeChannel (s : ConnectionLoop) : Option ConnectionLoop :=
  s.conn.channel.remove.bind fun channel ↦
    if s.index = kAdded ∨ s.index = kDeleted then
      some { s with conn := { s.conn with channel := channel }, index := kNew }
    else none

def connectDestroyed (s : ConnectionLoop) : Option ConnectionLoop :=
  (if s.conn.state = .kConnected then s.updated s.conn.disconnect else s).removeChannel

/-! ## Calls -/

def functorOf : UserCall → QueuedCall
  | .send data => .sendInLoop data
  | .shutdown => .shutdownInLoop
  | .forceClose => .forceCloseInLoop

def setDisconnecting (s : ConnectionLoop) : ConnectionLoop :=
  { s with conn := TcpServer.disconnecting s.conn }

/-- `send` writes no state, the others before they queue. -/
def writesState : UserCall → Bool
  | .send _ => false
  | .shutdown | .forceClose => true

def exec (a : ConnAct) (s : ConnectionLoop) : Option ConnectionLoop :=
  match a with
  | .send data w =>
      if s.conn.state = .kConnected then some (s.withConn (s.conn.sendInLoop w data)) else some s
  | .shutdown =>
      if s.conn.state = .kConnected then
        some (s.setDisconnecting.withConn s.setDisconnecting.conn.shutdownInLoop)
      else some s
  | .forceClose =>
      if isOpen s.conn = true then some (s.setDisconnecting.push .forceCloseInLoop) else some s
  | .startRead => some s.startReadInLoop
  | .stopRead => some s.stopReadInLoop
  | .beginCall call =>
      if TcpServer.admits call s.conn.state = true then
        some { s with calls := s.calls ++ [⟨call, false⟩] }
      else some s
  | .storeState k =>
      if k ∈ s.calls ∧ k.stored = false ∧ writesState k.call = true then
        some { s.setDisconnecting with calls := s.calls.erase k ++ [{ k with stored := true }] }
      else none
  | .queueCall k =>
      if k ∈ s.calls ∧ k.stored = writesState k.call then
        some (push (functorOf k.call) { s with calls := s.calls.erase k })
      else none
  | .queueStartRead => some (s.push .startReadInLoop)
  | .queueStopRead => some (s.push .stopReadInLoop)
  | .runFunctor w => s.runNext w
  | .handleEvent e r w => s.handleEvent e r w

end ConnectionLoop

/-! ## Which events the handlers change -/

namespace TcpConnection

variable (c : TcpConnection)

theorem channel_bufferRest (rest : Text) : (c.bufferRest rest).channel = c.channel ∨
    c.channel.writing = false ∧ (c.bufferRest rest).channel = c.channel.enableWriting := by
  rw [bufferRest]
  split_ifs
  · rw [ensureWriting]
    split_ifs with hwriting
    · exact .inl rfl
    · exact .inr ⟨Bool.eq_false_of_not_eq_true hwriting, rfl⟩
  · exact .inl rfl

/-- Sending turns writing on or leaves the channel alone. -/
theorem channel_sendInLoop (w : Write) (data : Text) :
    (c.sendInLoop w data).channel = c.channel ∨
      c.channel.writing = false ∧ (c.sendInLoop w data).channel = c.channel.enableWriting := by
  unfold sendInLoop
  split_ifs
  · exact .inl rfl
  · cases w with
    | accepted n =>
        have hchannel : (if data.length - n = 0 then (c.accept (data.take n)).notifyComplete
            else c.accept (data.take n)).channel = c.channel := by
          split_ifs <;> rfl
        have hrest := channel_bufferRest (if data.length - n = 0 then
          (c.accept (data.take n)).notifyComplete else c.accept (data.take n)) (data.drop n)
        rwa [hchannel] at hrest
    | failed errno =>
        dsimp only
        split_ifs
        · exact .inl rfl
        · exact channel_bufferRest c data
  · exact channel_bufferRest c data

/-- `handleWrite` turns writing off or leaves the channel alone. -/
theorem channel_handleWrite (w : Write) :
    (c.handleWrite w).channel = c.channel ∨
      c.channel.writing = true ∧ (c.handleWrite w).channel = c.channel.disableWriting := by
  unfold handleWrite
  split_ifs with hwriting
  · cases w with
    | accepted n =>
        dsimp only
        split_ifs
        · refine .inr ⟨hwriting, ?_⟩
          rw [finishWriting]
          split_ifs
          · rw [channel_shutdownInLoop]
            rfl
          · rfl
        · exact .inl rfl
        · exact .inl rfl
    | failed errno => exact .inl rfl
  · exact .inl rfl

end TcpConnection

end PpDSCache.Net
