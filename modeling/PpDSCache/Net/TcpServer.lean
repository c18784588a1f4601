import PpDSCache.Abstract.Runs
import PpDSCache.Master.PpMaster
import PpDSCache.Net.TcpConnection

/-!
# The server and its loops

Connections are accepted on the base loop, which is loop `0`, and handed to an
I/O loop.  A connection that closes is taken out of the server's map on the
base loop and destroyed on its own.  Each loop runs its handlers and its queued
functors one at a time; a call of `shutdown` or `forceClose` from another
thread tests `state_`, writes it, and queues its functor in three steps.
-/

namespace PpDSCache.Net

open Cpp Abstract Master

/-! ## Names -/

/-- `snprintf` into the 64 bytes of `buf`. -/
def nameBuf (ipPort : Text) (id : ℕ) : Text :=
  (ascii "-" ++ ipPort ++ ascii "#" ++ decimalText id).take 63

/-! ## Connections and functors -/

inductive ServerFunctor where
  | connectEstablished (i : ℕ)
  | removeConnectionInLoop (i : ℕ)
  | connectDestroyed (i : ℕ)
  | forceCloseInLoop (i : ℕ)
  | shutdownInLoop (i : ℕ)
  | sendInLoop (i : ℕ) (data : Text)
  deriving DecidableEq

/-- A connection with its name and loop, and what has happened to it: the loops
on which `connectEstablished` ran, the event handlers, the erasures from the
map, and the runs of `connectDestroyed`. -/
structure ServerConn where
  name : Text
  loop : ℕ
  conn : TcpConnection
  establishedOn : List ℕ
  handled : ℕ
  erased : ℕ
  destroyed : ℕ

inductive UserCall where
  | send (data : Text)
  | shutdown
  | forceClose
  deriving DecidableEq

/-- A call from another thread that has found `state_` as it needs it. -/
structure ForeignCall where
  conn : ℕ
  call : UserCall
  stored : Bool
  deriving DecidableEq

/-- `revents_` -/
structure Revents where
  hup : Bool
  pollin : Bool
  pri : Bool
  rdhup : Bool
  out : Bool

structure TcpServer where
  name : Text
  ipPort : Text
  /-- `loops_.size()` of the pool -/
  numLoops : ℕ
  /-- whether the user has set a write-complete callback -/
  hasWriteComplete : Bool
  next : ℕ
  nextConnId : ℕ
  connections : Text → Option ℕ
  /-- every accepted connection, in order -/
  conns : List ServerConn
  queue : ℕ → List ServerFunctor
  calls : List ForeignCall

inductive ServerAct where
  | newConnection
  | handleEvent (i : ℕ) (revents : Revents) (r : Readv) (w : Write)
  | runFunctor (l : ℕ) (w : Write)
  -- calls on the loop of the connection
  | send (i : ℕ) (data : Text) (w : Write)
  | shutdown (i : ℕ)
  | forceClose (i : ℕ)
  -- calls on other threads
  | beginCall (i : ℕ) (call : UserCall)
  | storeState (k : ForeignCall)
  | queueCall (k : ForeignCall)

namespace TcpServer

def new (name ipPort : Text) (numLoops : ℕ) (hasWriteComplete : Bool) : TcpServer :=
  ⟨name, ipPort, numLoops, hasWriteComplete, 0, 1, fun _ ↦ none, [], fun _ ↦ [], []⟩

def push (s : TcpServer) (l : ℕ) (f : ServerFunctor) : TcpServer :=
  { s with queue := Function.update s.queue l (s.queue l ++ [f]) }

def setConn (s : TcpServer) (i : ℕ) (c : ServerConn) : TcpServer :=
  { s with conns := s.conns.set i c }

/-- Applies what a handler does to a connection. -/
def onConn (s : TcpServer) (i : ℕ) (f : TcpConnection → TcpConnection) : Option TcpServer :=
  (s.conns[i]?).map fun c ↦ s.setConn i { c with conn := f c.conn }

/-- `getNextLoop`, as the index of the loop and the new `next_`. -/
def getNextLoop (s : TcpServer) : ℕ × ℕ :=
  if s.numLoops = 0 then (0, s.next)
  else (s.next + 1, if s.numLoops ≤ s.next + 1 then 0 else s.next + 1)

/-! ## The life of a connection -/

/-- `connectEstablished` on a loop, which must be that of the connection. -/
def connectEstablished (i l : ℕ) (s : TcpServer) : Option TcpServer :=
  (s.conns[i]?).bind fun c ↦
    if l = c.loop then
      c.conn.connectEstablished.map fun conn ↦
        s.setConn i { c with conn := conn, establishedOn := c.establishedOn ++ [l] }
    else none

def connName (s : TcpServer) : Text := s.name ++ nameBuf s.ipPort s.nextConnId

/-- A connection accepted now. -/
def nextConn (s : TcpServer) : ServerConn where
  name := s.connName
  loop := s.getNextLoop.1
  conn := .new (64 * 1024 * 1024) s.hasWriteComplete false
  establishedOn := []
  handled := 0
  erased := 0
  destroyed := 0

def accept (s : TcpServer) : TcpServer :=
  { s with
    next := s.getNextLoop.2
    nextConnId := s.nextConnId + 1
    connections := Function.update s.connections s.connName (some s.conns.length)
    conns := s.conns ++ [s.nextConn] }

/-- `runInLoop` calls at once on the base loop and queues for the others. -/
def newConnection (s : TcpServer) : Option TcpServer :=
  if s.getNextLoop.1 = 0 then s.accept.connectEstablished s.conns.length 0
  else some (s.accept.push s.getNextLoop.1 (.connectEstablished s.conns.length))

/-- The assertion is that the name was there. -/
def removeConnectionInLoop (i : ℕ) (s : TcpServer) : Option TcpServer :=
  (s.conns[i]?).bind fun c ↦
    if (s.connections c.name).isSome = true then
      some (push ({ s with connections := Function.update s.connections c.name none }.setConn i
        { c with erased := c.erased + 1 }) c.loop (.connectDestroyed i))
    else none

def removeConnection (i l : ℕ) (s : TcpServer) : Option TcpServer :=
  if l = 0 then s.removeConnectionInLoop i else some (s.push 0 (.removeConnectionInLoop i))

/-- `handleClose` with the close callback of the server. -/
def handleClose (i : ℕ) (s : TcpServer) : Option TcpServer :=
  (s.conns[i]?).bind fun c ↦
    c.conn.handleClose.bind fun conn ↦
      (s.setConn i { c with conn := conn }).removeConnection i c.loop

def forceCloseInLoop (i : ℕ) (s : TcpServer) : Option TcpServer :=
  (s.conns[i]?).bind fun c ↦
    if c.conn.state = .kConnected ∨ c.conn.state = .kDisconnecting then s.handleClose i else some s

def connectDestroyed (i : ℕ) (s : TcpServer) : Option TcpServer :=
  (s.conns[i]?).bind fun c ↦
    c.conn.connectDestroyed.map fun conn ↦
      s.setConn i { c with conn := conn, destroyed := c.destroyed + 1 }

/-! ## Events -/

/-- `handleRead`, which at the end of the input goes to `handleClose`. -/
def handleRead (i : ℕ) (r : Readv) (s : TcpServer) : Option TcpServer :=
  match r with
  | .received [] => s.handleClose i
  | r => (s.conns[i]?).bind fun c ↦
      (c.conn.handleRead r).map fun conn ↦ s.setConn i { c with conn := conn }

def countEvent (i : ℕ) (s : TcpServer) : Option TcpServer :=
  (s.conns[i]?).map fun c ↦ s.setConn i { c with handled := c.handled + 1 }

/-- `handleEventWithGuard`; errors are only logged. -/
def handleEvent (i : ℕ) (e : Revents) (r : Readv) (w : Write) (s : TcpServer) : Option TcpServer :=
  ((s.countEvent i).bind fun s ↦
    if e.hup = true ∧ e.pollin = false then s.handleClose i else some s).bind fun s ↦
  (if e.pollin = true ∨ e.pri = true ∨ e.rdhup = true then s.handleRead i r
    else some s).bind fun s ↦
  if e.out = true then s.onConn i (TcpConnection.handleWrite w) else some s

/-! ## Functors and calls -/

/-- The thread assertions of the functors: each runs on the loop it needs. -/
def runFunctor (l : ℕ) (w : Write) (f : ServerFunctor) (s : TcpServer) : Option TcpServer :=
  match f with
  | .connectEstablished i => s.connectEstablished i l
  | .removeConnectionInLoop i => if l = 0 then s.removeConnectionInLoop i else none
  | .connectDestroyed i => if (s.conns[i]?).map ServerConn.loop = some l then s.connectDestroyed i
      else none
  | .forceCloseInLoop i => if (s.conns[i]?).map ServerConn.loop = some l then s.forceCloseInLoop i
      else none
  | .shutdownInLoop i => if (s.conns[i]?).map ServerConn.loop = some l then
      s.onConn i TcpConnection.shutdownInLoop else none
  | .sendInLoop i data => if (s.conns[i]?).map ServerConn.loop = some l then
      s.onConn i (TcpConnection.sendInLoop w data) else none

def runNext (l : ℕ) (w : Write) (s : TcpServer) : Option TcpServer :=
  match s.queue l with
  | [] => none
  | f :: fs => runFunctor l w f { s with queue := Function.update s.queue l fs }

/-- The test at the start of a call. -/
def admits (call : UserCall) (state : StateE) : Bool :=
  match call with
  | .send _ | .shutdown => state = .kConnected
  | .forceClose => state = .kConnected ∨ state = .kDisconnecting

def disconnecting (c : TcpConnection) : TcpConnection := { c with state := .kDisconnecting }

def functorOf (i : ℕ) : UserCall → ServerFunctor
  | .send data => .sendInLoop i data
  | .shutdown => .shutdownInLoop i
  | .forceClose => .forceCloseInLoop i

def pushCall (k : ForeignCall) (s : TcpServer) : Option TcpServer :=
  (s.conns[k.conn]?).map fun c ↦
    push { s with calls := s.calls.erase k } c.loop (functorOf k.conn k.call)

end TcpServer

namespace ServerAct

open TcpServer

def exec (a : ServerAct) (s : TcpServer) : Option TcpServer :=
  match a with
  | newConnection => s.newConnection
  | handleEvent i e r w => s.handleEvent i e r w
  | runFunctor l w => s.runNext l w
  | send i data w => (s.conns[i]?).bind fun c ↦
      if c.conn.state = .kConnected then s.onConn i (TcpConnection.sendInLoop w data) else some s
  | shutdown i => (s.conns[i]?).bind fun c ↦
      if c.conn.state = .kConnected then
        s.onConn i fun c ↦ (disconnecting c).shutdownInLoop
      else some s
  | forceClose i => (s.conns[i]?).bind fun c ↦
      if c.conn.state = .kConnected ∨ c.conn.state = .kDisconnecting then
        (s.onConn i disconnecting).map fun s ↦ s.push c.loop (.forceCloseInLoop i)
      else some s
  | beginCall i call => (s.conns[i]?).map fun c ↦
      if admits call c.conn.state = true then { s with calls := s.calls ++ [⟨i, call, false⟩] }
      else s
  | storeState k => (s.onConn k.conn disconnecting).map fun s ↦
      { s with calls := s.calls.erase k ++ [{ k with stored := true }] }
  | queueCall k => s.pushCall k

end ServerAct

end PpDSCache.Net
