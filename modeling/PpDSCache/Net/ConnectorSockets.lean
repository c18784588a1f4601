import PpDSCache.Net.Connector

/-!
# The sockets of a connector

Every attempt creates a socket.  It ends up closed or handed to the user, and
in between the channel owns it.  The sockets are laid over the connector here:
each function is the connector's own with what it does to sockets, and a socket
is named by the number of its creation.
-/

namespace PpDSCache.Net

open Abstract

structure ConnectorSockets where
  conn : Connector
  /-- sockets created so far -/
  created : ℕ
  /-- the socket of the channel, if there is a channel -/
  channelFd : ℕ
  closed : List ℕ
  /-- the sockets given to `newConnectionCallback_`, with `connect_` at that
  moment -/
  passed : List (ℕ × Bool)

namespace ConnectorSockets

/-! ## The functions of the connector -/

def new : ConnectorSockets := ⟨.new, 0, 0, [], []⟩

def withConn (c : Connector) (s : ConnectorSockets) : ConnectorSockets := { s with conn := c }

/-- `createNonblockingOrDie`; the socket is number `s.created`. -/
def create (s : ConnectorSockets) : ConnectorSockets := { s with created := s.created + 1 }

def close (sockfd : ℕ) (s : ConnectorSockets) : ConnectorSockets :=
  { s with closed := s.closed ++ [sockfd] }

def retry (sockfd : ℕ) (s : ConnectorSockets) : ConnectorSockets :=
  (s.close sockfd).withConn s.conn.retry

def connecting (sockfd : ℕ) (s : ConnectorSockets) : Option ConnectorSockets :=
  s.conn.connecting.map fun c ↦ { s with conn := c, channelFd := sockfd }

def connect (errno : ℤ) (s : ConnectorSockets) : Option ConnectorSockets :=
  if Connector.goesOn errno = true then s.create.connecting s.created
  else if Connector.triesAgain errno = true then some (s.create.retry s.created)
  else some (s.create.close s.created)

def startInLoop (errno : ℤ) (s : ConnectorSockets) : Option ConnectorSockets :=
  if s.conn.state = .kDisconnected then
    if s.conn.wanted = true then s.connect errno else some s
  else none

/-- The channel's socket is returned. -/
def removeAndResetChannel (s : ConnectorSockets) : Option (ℕ × ConnectorSockets) :=
  s.conn.removeAndResetChannel.map fun c ↦ (s.channelFd, s.withConn c)

def stopInLoop (s : ConnectorSockets) : Option ConnectorSockets :=
  if s.conn.state = .kConnecting then
    (s.withConn { s.conn with state := .kDisconnected }).removeAndResetChannel.map fun x ↦
      x.2.retry x.1
  else some s

def restart (errno : ℤ) (s : ConnectorSockets) : Option ConnectorSockets :=
  (s.withConn { s.conn with
    state := .kDisconnected
    retryDelayMs := Connector.kInitRetryDelayMs
    wanted := true }).startInLoop errno

def handOver (sockfd : ℕ) (s : ConnectorSockets) : ConnectorSockets :=
  if s.conn.wanted = true then
    { s with conn := s.conn.handOver, passed := s.passed ++ [(sockfd, s.conn.wanted)] }
  else (s.close sockfd).withConn s.conn.handOver

def handleWrite (soError : ℤ) (selfConnect : Bool) (s : ConnectorSockets) :
    Option ConnectorSockets :=
  if s.conn.state = .kConnecting then
    s.removeAndResetChannel.map fun x ↦
      if soError ≠ 0 ∨ selfConnect = true then x.2.retry x.1 else x.2.handOver x.1
  else if s.conn.state = .kDisconnected then some s
  else none

def handleError (s : ConnectorSockets) : Option ConnectorSockets :=
  if s.conn.state = .kConnecting then s.removeAndResetChannel.map fun x ↦ x.2.retry x.1
  else some s

def handleEvent (error write : Bool) (soError : ℤ) (selfConnect : Bool) (s : ConnectorSockets) :
    Option ConnectorSockets :=
  (if error = true then s.handleError else some s).bind fun s ↦
    if write = true then s.handleWrite soError selfConnect else some s

def runFunctor (errno : ℤ) (f : ConnectorFunctor) (s : ConnectorSockets) :
    Option ConnectorSockets :=
  match f with
  | .startInLoop => s.startInLoop errno
  | .stopInLoop => s.stopInLoop
  | .resetChannel removed => some (s.withConn (s.conn.resetChannel removed))

def runNext (errno : ℤ) (s : ConnectorSockets) : Option ConnectorSockets :=
  match s.conn.queue with
  | [] => none
  | f :: fs => runFunctor errno f (s.withConn { s.conn with queue := fs })

/-- The other acts touch no socket. -/
def exec (a : ConnectorAct) (s : ConnectorSockets) : Option ConnectorSockets :=
  match a with
  | .startHere errno => s.startInLoop errno
  | .restart errno => s.restart errno
  | .runFunctor errno => s.runNext errno
  | .runTimer k errno =>
      (s.withConn { s.conn with timers := s.conn.timers.eraseIdx k }).startInLoop errno
  | .handleEvent error write soError selfConnect => s.handleEvent error write soError selfConnect
  | a => (a.exec s.conn).map fun c ↦ s.withConn c

/-! ## The connector underneath -/

variable {s t : ConnectorSockets} {errno : ℤ}

theorem connecting_conn (sockfd : ℕ) :
    (s.connecting sockfd).map conn = s.conn.connecting := by
  simp [connecting, Function.comp_def]

theorem connect_conn : (s.connect errno).map conn = s.conn.connect errno := by
  rw [connect, Connector.connect]
  split_ifs
  · exact connecting_conn ..
  · rfl
  · rfl

theorem startInLoop_conn : (s.startInLoop errno).map conn = s.conn.startInLoop errno := by
  rw [startInLoop, Connector.startInLoop]
  split_ifs
  · exact connect_conn
  · rfl
  · rfl

theorem removeAndResetChannel_conn (f : ℕ × ConnectorSockets → ConnectorSockets)
    (g : Connector → Connector) (hfg : ∀ x, (f x).conn = g x.2.conn) :
    (s.removeAndResetChannel.map f).map conn = s.conn.removeAndResetChannel.map g := by
  simp [removeAndResetChannel, Function.comp_def, hfg, withConn]

theorem handOver_conn (sockfd : ℕ) : (s.handOver sockfd).conn = s.conn.handOver := by
  rw [handOver]
  split_ifs <;> rfl

theorem stopInLoop_conn : s.stopInLoop.map conn = s.conn.stopInLoop := by
  rw [stopInLoop, Connector.stopInLoop]
  split_ifs
  · exact removeAndResetChannel_conn _ _ fun _ ↦ rfl
  · rfl

theorem handleError_conn : s.handleError.map conn = s.conn.handleError := by
  rw [handleError, Connector.handleError]
  split_ifs
  · exact removeAndResetChannel_conn _ _ fun _ ↦ rfl
  · rfl

theorem handleWrite_conn (soError : ℤ) (selfConnect : Bool) :
    (s.handleWrite soError selfConnect).map conn = s.conn.handleWrite soError selfConnect := by
  rw [handleWrite, Connector.handleWrite]
  split_ifs
  · exact removeAndResetChannel_conn _ _ fun _ ↦ rfl
  · exact removeAndResetChannel_conn _ _ fun x ↦ handOver_conn x.1
  · rfl
  · rfl

theorem handleEvent_conn (error write : Bool) (soError : ℤ) (selfConnect : Bool) :
    (s.handleEvent error write soError selfConnect).map conn =
      s.conn.handleEvent error write soError selfConnect := by
  have herror : (if error = true then s.handleError else some s).map conn =
      if error = true then s.conn.handleError else some s.conn := by
    split_ifs
    · exact handleError_conn
    · rfl
  rw [handleEvent, Connector.handleEvent, ← herror, Option.map_bind, Option.bind_map]
  congr 1
  funext s
  dsimp only [Function.comp]
  split_ifs
  · exact handleWrite_conn ..
  · rfl

theorem runNext_conn : (s.runNext errno).map conn = s.conn.runNext errno := by
  rw [runNext, Connector.runNext]
  cases s.conn.queue with
  | nil => rfl
  | cons f fs =>
      cases f with
      | startInLoop => exact startInLoop_conn
      | stopInLoop => exact stopInLoop_conn
      | resetChannel removed => rfl

theorem restart_conn : (s.restart errno).map conn = s.conn.restart errno := by
  rw [restart, Connector.restart]
  exact startInLoop_conn

/-- The sockets do not change what the connector does. -/
theorem exec_conn (a : ConnectorAct) : (s.exec a).map conn = a.exec s.conn := by
  cases a with
  | startHere errno => exact startInLoop_conn
  | restart errno => exact restart_conn
  | runFunctor errno => exact runNext_conn
  | runTimer k errno => exact startInLoop_conn
  | handleEvent error write soError selfConnect => exact handleEvent_conn ..
  | setConnect connect => rfl
  | startFromOther => rfl
  | stop => rfl
  | connectionClosed => rfl

end ConnectorSockets

end PpDSCache.Net
