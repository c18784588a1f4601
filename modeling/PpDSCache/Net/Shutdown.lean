import PpDSCache.Net.TcpConnectionOutput

/-!
# Sending before a shutdown

The loop thread of a connection alternates between events and the functors it
takes over from `pendingFunctors_`; other threads queue functors.  A `send`
from another thread waits there, and a `shutdown` may overtake it.
-/

namespace PpDSCache.Net

open Cpp Abstract

inductive ConnFunctor where
  | sendInLoop (data : Text)
  | shutdownInLoop
  deriving DecidableEq

/-- A connection, its loop's functors and the history of what was sent. -/
structure SendLoop where
  conn : TcpConnection
  /-- `pendingFunctors_` -/
  pending : List ConnFunctor
  /-- the functors `doPendingFunctors` has still to run -/
  batch : List ConnFunctor
  doingFunctors : Bool
  /-- a thread in `shutdown` has set the state and not yet queued its functor -/
  queueing : Bool
  /-- payloads of `send` calls that found `kConnected` -/
  sent : List Text
  /-- payloads passed to `sendInLoop` before `kDisconnected` -/
  passed : List Text

inductive SendAct where
  | send (data : Text) (w : Write)
  | sendFrom (data : Text)
  | shutdown
  | shutdownFrom
  | queueShutdown
  | handleWrite (w : Write)
  | handleClose
  | beginFunctors
  | runFunctor (w : Write)
  | endFunctors

namespace SendLoop

def start (c : TcpConnection) : SendLoop := ⟨c.establish, [], [], false, false, [], []⟩

def setState (state : StateE) (s : SendLoop) : SendLoop :=
  { s with conn := { s.conn with state := state } }

/-- `sendInLoop`, with the payload recorded unless it is given up. -/
def pass (w : Write) (data : Text) (s : SendLoop) : SendLoop :=
  { s with
    conn := s.conn.sendInLoop w data
    passed := if s.conn.state = .kDisconnected then s.passed else s.passed ++ [data] }

def runFunctor (w : Write) (s : SendLoop) : Option SendLoop :=
  match s.batch with
  | [] => none
  | .sendInLoop data :: fs =>
      if w.Possible data then some (pass w data { s with batch := fs }) else none
  | .shutdownInLoop :: fs => some { s with batch := fs, conn := s.conn.shutdownInLoop }

end SendLoop

namespace SendAct

open SendLoop

/-- `send` and `shutdown` are calls on the loop thread, `sendFrom` and
`shutdownFrom` with `queueShutdown` calls from another one. -/
def exec (a : SendAct) (s : SendLoop) : Option SendLoop :=
  match a with
  | send data w =>
      if s.conn.state = .kConnected then
        if w.Possible data then some (pass w data { s with sent := s.sent ++ [data] }) else none
      else some s
  | sendFrom data =>
      if s.conn.state = .kConnected then
        some { s with pending := s.pending ++ [.sendInLoop data], sent := s.sent ++ [data] }
      else some s
  | shutdown =>
      if s.conn.state = .kConnected then
        some { s with conn := (s.setState .kDisconnecting).conn.shutdownInLoop }
      else some s
  | shutdownFrom =>
      if s.conn.state = .kConnected then
        some { s.setState .kDisconnecting with queueing := true }
      else some s
  | queueShutdown =>
      if s.queueing = true then
        some { s with pending := s.pending ++ [.shutdownInLoop], queueing := false }
      else none
  | handleWrite w =>
      if s.doingFunctors = false ∧ w.Possible s.conn.outputBuffer then
        some { s with conn := s.conn.handleWrite w }
      else none
  | handleClose =>
      if s.doingFunctors = false then s.conn.handleClose.map ({ s with conn := · }) else none
  | beginFunctors =>
      if s.doingFunctors = false then
        some { s with batch := s.pending, pending := [], doingFunctors := true }
      else none
  | runFunctor w => if s.doingFunctors = true then s.runFunctor w else none
  | endFunctors =>
      if s.doingFunctors = true ∧ s.batch = [] then some { s with doingFunctors := false }
      else none

end SendAct

/-! ## Functors that still carry bytes -/

/-- No send with a payload is among the functors. -/
def NoBytes (fs : List ConnFunctor) : Prop := ∀ data, .sendInLoop data ∈ fs → data = []

def payloads : List ConnFunctor → List Text
  | [] => []
  | .sendInLoop data :: fs => data :: payloads fs
  | .shutdownInLoop :: fs => payloads fs

/-- No payload is behind a shutdown. -/
def SendsFirst : List ConnFunctor → Prop
  | [] => True
  | .sendInLoop _ :: fs => SendsFirst fs
  | .shutdownInLoop :: fs => NoBytes fs ∧ SendsFirst fs

section Functors

variable {fs gs : List ConnFunctor} {data : Text}

theorem noBytes_nil : NoBytes [] := by
  intro data h
  simp at h

theorem noBytes_append : NoBytes (fs ++ gs) ↔ NoBytes fs ∧ NoBytes gs := by
  constructor
  · intro h
    exact ⟨fun data hd ↦ h data (List.mem_append_left gs hd),
      fun data hd ↦ h data (List.mem_append_right fs hd)⟩
  · rintro ⟨hfs, hgs⟩ data hd
    exact (List.mem_append.mp hd).elim (hfs data) (hgs data)

theorem noBytes_cons_send : NoBytes (.sendInLoop data :: fs) ↔ data = [] ∧ NoBytes fs := by
  simp [NoBytes]

theorem noBytes_cons_shutdown : NoBytes (.shutdownInLoop :: fs) ↔ NoBytes fs := by
  simp [NoBytes]

theorem payloads_append : payloads (fs ++ gs) = payloads fs ++ payloads gs := by
  induction fs with
  | nil => rfl
  | cons f fs ih => cases f <;> simp [payloads, ih]

theorem count_payloads_of_noBytes (h : NoBytes fs) {p : Text} (hp : p ≠ []) :
    (payloads fs).count p = 0 := by
  induction fs with
  | nil => rfl
  | cons f fs ih =>
      cases f with
      | sendInLoop data =>
          obtain ⟨rfl, hfs⟩ := noBytes_cons_send.mp h
          rw [payloads, List.count_cons_of_ne hp.symm, ih hfs]
      | shutdownInLoop => exact ih (noBytes_cons_shutdown.mp h)

theorem sendsFirst_of_notMem (h : .shutdownInLoop ∉ fs) : SendsFirst fs := by
  induction fs with
  | nil => trivial
  | cons f fs ih =>
      cases f with
      | sendInLoop data => exact ih fun hmem ↦ h (List.mem_cons_of_mem _ hmem)
      | shutdownInLoop => exact absurd List.mem_cons_self h

theorem SendsFirst.append_shutdown (h : SendsFirst fs) : SendsFirst (fs ++ [.shutdownInLoop]) := by
  induction fs with
  | nil => exact ⟨noBytes_nil, trivial⟩
  | cons f fs ih =>
      cases f with
      | sendInLoop data => exact ih h
      | shutdownInLoop =>
          exact ⟨noBytes_append.mpr ⟨h.1, noBytes_cons_shutdown.mpr noBytes_nil⟩, ih h.2⟩

end Functors

end PpDSCache.Net
