import PpDSCache.Abstract.Runs
import PpDSCache.Net.TcpConnection

/-!
# The two pollers

A channel tells its poller each time its events change.  `EPollPoller` keeps
the interest list of an epoll descriptor, `PollPoller` an array for `poll` in
which a negative descriptor is passed over.  A failed assertion or a fatal
error has no result.
-/

namespace PpDSCache.Net

open Abstract

/-! ## Channels -/

namespace Channel

/-- `POLLIN | POLLPRI` -/
abbrev kReadEvent : ℕ := 3

/-- `POLLOUT` -/
abbrev kWriteEvent : ℕ := 4

def events (c : Channel) : ℕ :=
  (if c.reading = true then kReadEvent else 0) + if c.writing = true then kWriteEvent else 0

end Channel

inductive ChannelCall where
  | enableReading
  | disableReading
  | enableWriting
  | disableWriting
  | disableAll
  | remove
  deriving DecidableEq

/-- What the call does to the channel itself. -/
def ChannelCall.apply (call : ChannelCall) (c : Channel) : Channel :=
  match call with
  | enableReading => c.enableReading
  | disableReading => c.disableReading
  | enableWriting => c.enableWriting
  | disableWriting => c.disableWriting
  | disableAll => c.disableAll
  | remove => { c with addedToLoop := false }

/-- A set of channels with distinct descriptors. -/
structure Descriptors (ι : Type*) where
  fd : ι → ℤ
  nonneg : ∀ i, 0 ≤ fd i
  injective : Function.Injective fd

/-- A channel with its `index_`. -/
structure Polled where
  channel : Channel
  index : ℤ

def Polled.new : Polled := ⟨Channel.new, -1⟩

section Pollers

variable {ι : Type*} [DecidableEq ι] (D : Descriptors ι)

/-! ## epoll -/

inductive EpollOp where
  | add
  | mod
  | del
  deriving DecidableEq

/-- An entry has the events and the channel that `data.ptr` points to. -/
abbrev InterestList (ι : Type*) := ℤ → Option (ℕ × ι)

/-- `EEXIST` and `ENOENT` are the errors. -/
def epollCtl (op : EpollOp) (fd : ℤ) (event : ℕ × ι) (list : InterestList ι) :
    Option (InterestList ι) :=
  match op with
  | .add => if list fd = none then some (Function.update list fd (some event)) else none
  | .mod => if list fd = none then none else some (Function.update list fd (some event))
  | .del => if list fd = none then none else some (Function.update list fd none)

structure EPollPoller (ι : Type*) where
  chans : ι → Polled
  channels : ℤ → Option ι
  interest : InterestList ι

namespace EPollPoller

abbrev kNew : ℤ := -1

abbrev kAdded : ℤ := 1

abbrev kDeleted : ℤ := 2

def new : EPollPoller ι := ⟨fun _ ↦ .new, fun _ ↦ none, fun _ ↦ none⟩

def setChan (i : ι) (c : Polled) (e : EPollPoller ι) : EPollPoller ι :=
  { e with chans := Function.update e.chans i c }

def setIndex (i : ι) (index : ℤ) (e : EPollPoller ι) : EPollPoller ι :=
  e.setChan i { e.chans i with index := index }

/-- A failed removal is only logged. -/
def update (op : EpollOp) (i : ι) (e : EPollPoller ι) : Option (EPollPoller ι) :=
  match epollCtl op (D.fd i) ((e.chans i).channel.events, i) e.interest with
  | some list => some { e with interest := list }
  | none => if op = .del then some e else none

def updateChannel (i : ι) (e : EPollPoller ι) : Option (EPollPoller ι) :=
  if (e.chans i).index = kNew then
    if e.channels (D.fd i) = none then
      ({ e with channels := Function.update e.channels (D.fd i) (some i) }.setIndex i kAdded).update
        D .add i
    else none
  else if e.channels (D.fd i) = some i then
    if (e.chans i).index = kDeleted then (e.setIndex i kAdded).update D .add i
    else if (e.chans i).index = kAdded then
      if (e.chans i).channel.isNoneEvent = true then
        (e.update D .del i).map (setIndex i kDeleted)
      else e.update D .mod i
    else none
  else none

def removeChannel (i : ι) (e : EPollPoller ι) : Option (EPollPoller ι) :=
  if e.channels (D.fd i) = some i ∧ (e.chans i).channel.isNoneEvent = true then
    if (e.chans i).index = kAdded then
      ({ e with channels := Function.update e.channels (D.fd i) none }.update D .del i).map
        (setIndex i kNew)
    else if (e.chans i).index = kDeleted then
      some ({ e with channels := Function.update e.channels (D.fd i) none }.setIndex i kNew)
    else none
  else none

def exec (a : ι × ChannelCall) (e : EPollPoller ι) : Option (EPollPoller ι) :=
  let e' := e.setChan a.1 { e.chans a.1 with channel := a.2.apply (e.chans a.1).channel }
  if a.2 = .remove then e'.removeChannel D a.1 else e'.updateChannel D a.1

/-- What the kernel is asked to watch. -/
def watched (e : EPollPoller ι) : Set (ℤ × ℕ) := {x | ∃ i, e.interest x.1 = some (x.2, i)}

end EPollPoller

/-! ## poll -/

/-- `revents` is written by the kernel and left out. -/
structure PollFd where
  fd : ℤ
  events : ℕ
  deriving DecidableEq

structure PollPoller (ι : Type*) where
  chans : ι → Polled
  channels : ℤ → Option ι
  pollfds : List PollFd

namespace PollPoller

def new : PollPoller ι := ⟨fun _ ↦ .new, fun _ ↦ none, []⟩

def setChan (i : ι) (c : Polled) (p : PollPoller ι) : PollPoller ι :=
  { p with chans := Function.update p.chans i c }

def setIndex (i : ι) (index : ℤ) (p : PollPoller ι) : PollPoller ι :=
  p.setChan i { p.chans i with index := index }

/-- The entry of a channel that has been updated again. -/
def pollfdOf (i : ι) (c : Channel) : PollFd :=
  ⟨if c.isNoneEvent = true then -D.fd i - 1 else D.fd i, c.events⟩

def updateChannel (i : ι) (p : PollPoller ι) : Option (PollPoller ι) :=
  if (p.chans i).index < 0 then
    if p.channels (D.fd i) = none then
      some { p.setIndex i p.pollfds.length with
        channels := Function.update p.channels (D.fd i) (some i)
        pollfds := p.pollfds ++ [⟨D.fd i, (p.chans i).channel.events⟩] }
    else none
  else if p.channels (D.fd i) = some i then
    (p.pollfds[(p.chans i).index.toNat]?).bind fun pfd ↦
      if pfd.fd = D.fd i ∨ pfd.fd = -D.fd i - 1 then
        some { p with
          pollfds := p.pollfds.set (p.chans i).index.toNat (pollfdOf D i (p.chans i).channel) }
      else none
  else none

/-- The entry is swapped with the last one, whose channel gets its index. -/
def dropPollfd (idx : ℕ) (p : PollPoller ι) : Option (PollPoller ι) :=
  if idx = p.pollfds.length - 1 then some { p with pollfds := p.pollfds.dropLast }
  else (p.pollfds.getLast?).bind fun last ↦
    (p.channels (if last.fd < 0 then -last.fd - 1 else last.fd)).map fun j ↦
      { p.setIndex j idx with pollfds := (p.pollfds.set idx last).dropLast }

/-- The index of the channel stays as it is. -/
def removeChannel (i : ι) (p : PollPoller ι) : Option (PollPoller ι) :=
  if p.channels (D.fd i) = some i ∧ (p.chans i).channel.isNoneEvent = true ∧
      0 ≤ (p.chans i).index then
    (p.pollfds[(p.chans i).index.toNat]?).bind fun pfd ↦
      if pfd = ⟨-D.fd i - 1, (p.chans i).channel.events⟩ then
        dropPollfd (p.chans i).index.toNat
          { p with channels := Function.update p.channels (D.fd i) none }
      else none
  else none

def exec (a : ι × ChannelCall) (p : PollPoller ι) : Option (PollPoller ι) :=
  let p' := p.setChan a.1 { p.chans a.1 with channel := a.2.apply (p.chans a.1).channel }
  if a.2 = .remove then p'.removeChannel D a.1 else p'.updateChannel D a.1

def watched (p : PollPoller ι) : Set (ℤ × ℕ) := {x | 0 ≤ x.1 ∧ ⟨x.1, x.2⟩ ∈ p.pollfds}

end PollPoller

/-! ## Both under the same calls -/

inductive Watch where
  | unknown
  /-- registered by an update that left no events -/
  | fresh
  | active
  /-- registered, and the last update left no events -/
  | idle
  | removed
  deriving DecidableEq

/-- What the calls so far have been. -/
structure CallHistory (ι : Type*) where
  chan : ι → Channel
  watch : ι → Watch
  wasActive : ι → Bool

namespace CallHistory

def new : CallHistory ι := ⟨fun _ ↦ .new, fun _ ↦ .unknown, fun _ ↦ false⟩

/-- The channel after the call. -/
def next (h : CallHistory ι) (a : ι × ChannelCall) : Channel := a.2.apply (h.chan a.1)

def nextWatch (h : CallHistory ι) (a : ι × ChannelCall) : Watch :=
  if a.2 = .remove then .removed
  else if (h.next a).isNoneEvent = false then .active
  else if h.watch a.1 = .unknown ∨ h.watch a.1 = .removed then .fresh
  else .idle

def exec (a : ι × ChannelCall) (h : CallHistory ι) : CallHistory ι where
  chan := Function.update h.chan a.1 (h.next a)
  watch := Function.update h.watch a.1 (h.nextWatch a)
  wasActive := Function.update h.wasActive a.1 (h.wasActive a.1 || !(h.next a).isNoneEvent)

end CallHistory

structure Pollers (ι : Type*) where
  history : CallHistory ι
  epoll : EPollPoller ι
  poll : PollPoller ι

namespace Pollers

def new : Pollers ι := ⟨.new, .new, .new⟩

def exec (a : ι × ChannelCall) (s : Pollers ι) : Option (Pollers ι) :=
  (s.epoll.exec D a).bind fun e ↦ (s.poll.exec D a).map fun p ↦ ⟨s.history.exec a, e, p⟩

end Pollers

end Pollers

end PpDSCache.Net
