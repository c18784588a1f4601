import PpDSCache.Abstract.Runs
import PpDSCache.Net.TcpConnection

/-!
# The connector

A connector tries to connect and tries again after a delay.  Calls, queued
functors, retry timers and the events of its channel all drive one state.  What
`connect`, `getSocketError` and `isSelfConnect` return comes from outside, and
closing a socket is left out.  A failed assertion has no result.
-/

namespace PpDSCache.Net

open Abstract

inductive ConnectorState where
  | kDisconnected
  | kConnecting
  | kConnected
  deriving DecidableEq

/-- A queued `resetChannel` with the channel that was removed when it was
queued. -/
inductive ConnectorFunctor where
  | startInLoop
  | stopInLoop
  | resetChannel (removed : ℕ)
  deriving DecidableEq

/-- The connection handed to the user last. -/
inductive HandedOver where
  | none
  | alive
  | closed
  deriving DecidableEq

structure Connector where
  /-- `connect_` -/
  wanted : Bool
  state : ConnectorState
  /-- the channel with its number -/
  channel : Option (ℕ × Channel)
  retryDelayMs : ℕ
  /-- channels made so far -/
  made : ℕ
  queue : List ConnectorFunctor
  /-- the delays of the retry timers that have not fired -/
  timers : List ℕ
  conn : HandedOver
  /-- for each `resetChannel` that has run, the channel it was queued for and
  the one it destroyed -/
  resets : List (ℕ × Option ℕ)

inductive ConnectorAct where
  /-- the first line of `start` or `stop` -/
  | setConnect (connect : Bool)
  -- the second line of `start`, on the loop thread and on another
  | startHere (errno : ℤ)
  | startFromOther
  -- the second line of `stop`
  | stop
  | restart (errno : ℤ)
  | runFunctor (errno : ℤ)
  | runTimer (k : ℕ) (errno : ℤ)
  | handleEvent (error write : Bool) (soError : ℤ) (selfConnect : Bool)
  | connectionClosed

namespace Connector

abbrev kMaxRetryDelayMs : ℕ := 30 * 1000

abbrev kInitRetryDelayMs : ℕ := 500

def new : Connector := ⟨false, .kDisconnected, none, kInitRetryDelayMs, 0, [], [], .none, []⟩

def push (f : ConnectorFunctor) (c : Connector) : Connector := { c with queue := c.queue ++ [f] }

def retry (c : Connector) : Connector :=
  if c.wanted = true then
    { c with
      state := .kDisconnected
      timers := c.timers ++ [c.retryDelayMs]
      retryDelayMs := min (c.retryDelayMs * 2) kMaxRetryDelayMs }
  else { c with state := .kDisconnected }

def connecting (c : Connector) : Option Connector :=
  if c.channel = none then
    some { c with
      state := .kConnecting
      channel := some (c.made, Channel.new.enableWriting)
      made := c.made + 1 }
  else none

/-- `0`, `EINPROGRESS`, `EINTR` and `EISCONN` -/
def goesOn (errno : ℤ) : Bool := errno = 0 ∨ errno = 115 ∨ errno = 4 ∨ errno = 106

/-- `EAGAIN`, `EADDRINUSE`, `EADDRNOTAVAIL`, `ECONNREFUSED` and `ENETUNREACH` -/
def triesAgain (errno : ℤ) : Bool :=
  errno = 11 ∨ errno = 98 ∨ errno = 99 ∨ errno = 111 ∨ errno = 101

/-- Other errors are only logged. -/
def connect (errno : ℤ) (c : Connector) : Option Connector :=
  if goesOn errno = true then c.connecting
  else if triesAgain errno = true then some c.retry
  else some c

def startInLoop (errno : ℤ) (c : Connector) : Option Connector :=
  if c.state = .kDisconnected then
    if c.wanted = true then c.connect errno else some c
  else none

def removeAndResetChannel (c : Connector) : Option Connector :=
  c.channel.bind fun ch ↦ ch.2.disableAll.remove.map fun channel ↦
    push (.resetChannel ch.1) { c with channel := some (ch.1, channel) }

def resetChannel (removed : ℕ) (c : Connector) : Connector :=
  { c with channel := none, resets := c.resets ++ [(removed, c.channel.map Prod.fst)] }

def stopInLoop (c : Connector) : Option Connector :=
  if c.state = .kConnecting then
    { c with state := .kDisconnected }.removeAndResetChannel.map retry
  else some c

def restart (errno : ℤ) (c : Connector) : Option Connector :=
  { c with state := .kDisconnected, retryDelayMs := kInitRetryDelayMs, wanted := true }.startInLoop
    errno

/-- The connection is there; a connector that has been stopped closes it. -/
def handOver (c : Connector) : Connector :=
  if c.wanted = true then { c with state := .kConnected, conn := .alive }
  else { c with state := .kConnected }

def handleWrite (soError : ℤ) (selfConnect : Bool) (c : Connector) : Option Connector :=
  if c.state = .kConnecting then
    c.removeAndResetChannel.map fun c ↦
      if soError ≠ 0 ∨ selfConnect = true then c.retry else c.handOver
  else if c.state = .kDisconnected then some c
  else none

def handleError (c : Connector) : Option Connector :=
  if c.state = .kConnecting then c.removeAndResetChannel.map retry else some c

/-- The callbacks of the channel in the order of `handleEventWithGuard`. -/
def handleEvent (error write : Bool) (soError : ℤ) (selfConnect : Bool) (c : Connector) :
    Option Connector :=
  (if error = true then c.handleError else some c).bind fun c ↦
    if write = true then c.handleWrite soError selfConnect else some c

def runFunctor (errno : ℤ) (f : ConnectorFunctor) (c : Connector) : Option Connector :=
  match f with
  | .startInLoop => c.startInLoop errno
  | .stopInLoop => c.stopInLoop
  | .resetChannel removed => some (c.resetChannel removed)

def runNext (errno : ℤ) (c : Connector) : Option Connector :=
  match c.queue with
  | [] => none
  | f :: fs => runFunctor errno f { c with queue := fs }

end Connector

namespace ConnectorAct

open Connector

def exec (a : ConnectorAct) (c : Connector) : Option Connector :=
  match a with
  | setConnect connect => some { c with wanted := connect }
  | startHere errno => c.startInLoop errno
  | startFromOther => some (c.push .startInLoop)
  | stop => some (c.push .stopInLoop)
  | restart errno => c.restart errno
  | runFunctor errno => c.runNext errno
  | runTimer k errno => { c with timers := c.timers.eraseIdx k }.startInLoop errno
  | handleEvent error write soError selfConnect => c.handleEvent error write soError selfConnect
  | connectionClosed => some { c with conn := .closed }

/-- What may happen next: no call of `start` while the connection handed over
is alive, and calls of `restart` after it has closed. -/
def Enabled (a : ConnectorAct) (c : Connector) : Prop :=
  match a with
  | startHere _ | startFromOther => c.conn ≠ .alive
  | restart _ => c.conn = .closed
  | runFunctor _ => c.queue ≠ []
  | runTimer k _ => k < c.timers.length
  | handleEvent _ _ _ _ => ∃ n ch, c.channel = some (n, ch) ∧ ch.isNoneEvent = false
  | connectionClosed => c.conn = .alive
  | _ => True

end ConnectorAct

end PpDSCache.Net
