import PpDSCache.Abstract.Runs
import PpDSCache.Cpp.OrderedSet

/-!
# The timer queue

Times are microseconds in an `int64_t`, which wraps around.  A pointer to a
timer goes together with the sequence number of the object it was made for: a
use after that object's deletion is a fault, also when another timer has taken
its address.
-/

namespace PpDSCache.Net

open Cpp Abstract

/-- The result of `int64_t` arithmetic. -/
def wrapInt64 (v : ℤ) : ℤ := v.bmod (2 ^ 64)

def uintptrMax : ℕ := 2 ^ 64 - 1

/-- `delta` stands for the microseconds of `interval_`, which is positive if
the timer repeats. -/
structure Timer where
  expiration : ℤ
  repeats : Bool
  delta : ℕ
  sequence : ℕ
  deriving DecidableEq, Repr

/-- `addTime(now, interval_)`, or the invalid time. -/
def Timer.restart (now : ℤ) (t : Timer) : Timer :=
  if t.repeats = true then { t with expiration := wrapInt64 (now + t.delta) }
  else { t with expiration := 0 }

@[simp] theorem Timer.sequence_restart (now : ℤ) (t : Timer) :
    (t.restart now).sequence = t.sequence := by
  unfold restart
  split_ifs <;> rfl

structure Entry where
  time : ℤ
  timer : ℕ
  deriving DecidableEq, Repr

/-- A pointer and a sequence number, as in `ActiveTimer` and `TimerId`. -/
structure ActiveTimer where
  timer : ℕ
  sequence : ℕ
  deriving DecidableEq, Repr

namespace Entry

def key (e : Entry) : ℤ ×ₗ ℕ := toLex (e.time, e.timer)

theorem key_injective : Function.Injective key := by
  rintro ⟨a, b⟩ ⟨c, d⟩ h
  obtain ⟨rfl, rfl⟩ := Prod.mk.inj (toLex.injective h)
  rfl

instance : LinearOrder Entry := LinearOrder.lift' key key_injective

theorem lt_iff {e f : Entry} :
    e < f ↔ e.time < f.time ∨ e.time = f.time ∧ e.timer < f.timer := Prod.Lex.toLex_lt_toLex

theorem time_le_of_le {e f : Entry} (h : e ≤ f) : e.time ≤ f.time := by
  rcases h.lt_or_eq with hlt | rfl
  · rcases lt_iff.mp hlt with htime | ⟨htime, -⟩
    · exact htime.le
    · exact htime.le
  · exact le_rfl

end Entry

namespace ActiveTimer

def key (p : ActiveTimer) : ℕ ×ₗ ℕ := toLex (p.timer, p.sequence)

theorem key_injective : Function.Injective key := by
  rintro ⟨a, b⟩ ⟨c, d⟩ h
  obtain ⟨rfl, rfl⟩ := Prod.mk.inj (toLex.injective h)
  rfl

instance : LinearOrder ActiveTimer := LinearOrder.lift' key key_injective

end ActiveTimer

/-! ## The timer objects -/

/-- The timers by address.  Sequence numbers come from `s_numCreated_`, and
`deleted` lists those of the deleted timers. -/
structure TimerHeap where
  cell : ℕ → Option Timer
  numCreated : ℕ
  deleted : List ℕ
  cell_le : ∀ {a t}, cell a = some t → t.sequence ≤ numCreated
  cell_notMem : ∀ {a t}, cell a = some t → t.sequence ∉ deleted
  cell_inj : ∀ {a b t u}, cell a = some t → cell b = some u → t.sequence = u.sequence → a = b
  deleted_le : ∀ {n}, n ∈ deleted → n ≤ numCreated
  nodup : deleted.Nodup

namespace TimerHeap

def empty : TimerHeap := ⟨fun _ ↦ none, 0, [], nofun, nofun, nofun, nofun, List.nodup_nil⟩

/-- `new Timer(cb, when, interval)` at an address the allocator returns. -/
def new (h : TimerHeap) (a : ℕ) (time : ℤ) (repeats : Bool) (delta : ℕ) : TimerHeap where
  cell := Function.update h.cell a (some ⟨time, repeats, delta, h.numCreated + 1⟩)
  numCreated := h.numCreated + 1
  deleted := h.deleted
  cell_le := by
    intro b t hb
    by_cases heq : b = a
    · subst heq
      rw [Function.update_self] at hb
      obtain rfl := Option.some.inj hb
      exact le_rfl
    · rw [Function.update_of_ne heq] at hb
      exact (h.cell_le hb).trans (Nat.le_succ _)
  cell_notMem := by
    intro b t hb hmem
    by_cases heq : b = a
    · subst heq
      rw [Function.update_self] at hb
      obtain rfl := Option.some.inj hb
      exact absurd (h.deleted_le hmem) (Nat.not_succ_le_self _)
    · rw [Function.update_of_ne heq] at hb
      exact h.cell_notMem hb hmem
  cell_inj := by
    intro b c t u hb hc hseq
    by_cases hba : b = a <;> by_cases hca : c = a
    · exact hba.trans hca.symm
    · subst hba
      rw [Function.update_self] at hb
      rw [Function.update_of_ne hca] at hc
      obtain rfl := Option.some.inj hb
      exact absurd (hseq ▸ h.cell_le hc) (Nat.not_succ_le_self _)
    · subst hca
      rw [Function.update_self] at hc
      rw [Function.update_of_ne hba] at hb
      obtain rfl := Option.some.inj hc
      exact absurd (hseq ▸ h.cell_le hb) (Nat.not_succ_le_self _)
    · rw [Function.update_of_ne hba] at hb
      rw [Function.update_of_ne hca] at hc
      exact h.cell_inj hb hc hseq
  deleted_le := fun hn ↦ (h.deleted_le hn).trans (Nat.le_succ _)
  nodup := h.nodup

/-- The object the pointer was made for, if it still exists. -/
def deref (h : TimerHeap) (p : ActiveTimer) : Option Timer :=
  (h.cell p.timer).filter (·.sequence = p.sequence)

theorem deref_eq_some_iff {h : TimerHeap} {p : ActiveTimer} {t : Timer} :
    h.deref p = some t ↔ h.cell p.timer = some t ∧ t.sequence = p.sequence := by
  simp [deref, Option.filter_eq_some_iff]

theorem exists_of_update {h : TimerHeap} {p : ActiveTimer} {now : ℤ} {a : ℕ} {t : Timer} (ha :
    Function.update h.cell p.timer ((h.cell p.timer).map (Timer.restart now)) a = some t) :
    ∃ u, h.cell a = some u ∧ u.sequence = t.sequence := by
  by_cases heq : a = p.timer
  · subst heq
    rw [Function.update_self] at ha
    obtain ⟨u, hu, rfl⟩ := Option.map_eq_some_iff.mp ha
    exact ⟨u, hu, (u.sequence_restart now).symm⟩
  · rw [Function.update_of_ne heq] at ha
    exact ⟨t, ha, rfl⟩

/-- `restart(now)`, which writes `expiration_`. -/
def restart (h : TimerHeap) (p : ActiveTimer) (now : ℤ) : TimerHeap where
  cell := Function.update h.cell p.timer ((h.cell p.timer).map (Timer.restart now))
  numCreated := h.numCreated
  deleted := h.deleted
  cell_le := by
    intro a t ha
    obtain ⟨u, hu, hseq⟩ := exists_of_update ha
    exact hseq ▸ h.cell_le hu
  cell_notMem := by
    intro a t ha
    obtain ⟨u, hu, hseq⟩ := exists_of_update ha
    exact hseq ▸ h.cell_notMem hu
  cell_inj := by
    intro a b t u ha hb heq
    obtain ⟨v, hv, hseq⟩ := exists_of_update ha
    obtain ⟨w, hw, hseq'⟩ := exists_of_update hb
    exact h.cell_inj hv hw (hseq.trans (heq.trans hseq'.symm))
  deleted_le := h.deleted_le
  nodup := h.nodup

theorem cell_of_update_none {h : TimerHeap} {a b : ℕ} {t : Timer}
    (hb : Function.update h.cell a none b = some t) : b ≠ a ∧ h.cell b = some t := by
  by_cases heq : b = a
  · subst heq
    simp at hb
  · exact ⟨heq, by rwa [Function.update_of_ne heq] at hb⟩

theorem exists_of_isSome {h : TimerHeap} {p : ActiveTimer} (hp : (h.deref p).isSome = true) :
    ∃ t, h.cell p.timer = some t ∧ t.sequence = p.sequence := by
  obtain ⟨t, ht⟩ := Option.isSome_iff_exists.mp hp
  exact ⟨t, deref_eq_some_iff.mp ht⟩

/-- The heap without the object of the pointer. -/
def remove (h : TimerHeap) (p : ActiveTimer) (hp : (h.deref p).isSome = true) : TimerHeap where
  cell := Function.update h.cell p.timer none
  numCreated := h.numCreated
  deleted := h.deleted ++ [p.sequence]
  cell_le := fun ha ↦ h.cell_le (cell_of_update_none ha).2
  cell_notMem := by
    intro a t ha hmem
    obtain ⟨hne, hcell⟩ := cell_of_update_none ha
    rcases List.mem_append.mp hmem with hold | hnew
    · exact h.cell_notMem hcell hold
    · obtain ⟨u, hu, hseq⟩ := exists_of_isSome hp
      exact hne (h.cell_inj hcell hu ((List.mem_singleton.mp hnew).trans hseq.symm))
  cell_inj := fun ha hb ↦ h.cell_inj (cell_of_update_none ha).2 (cell_of_update_none hb).2
  deleted_le := by
    intro n hn
    rcases List.mem_append.mp hn with hold | hnew
    · exact h.deleted_le hold
    · obtain ⟨u, hu, hseq⟩ := exists_of_isSome hp
      rw [List.mem_singleton.mp hnew, ← hseq]
      exact h.cell_le hu
  nodup := by
    obtain ⟨u, hu, hseq⟩ := exists_of_isSome hp
    refine List.nodup_append.mpr ⟨h.nodup, List.nodup_singleton _, fun a ha b hb ↦ ?_⟩
    rw [List.mem_singleton.mp hb, ← hseq]
    rintro rfl
    exact h.cell_notMem hu ha

/-- `delete`, a fault when the object is gone. -/
def delete (h : TimerHeap) (p : ActiveTimer) : Option TimerHeap :=
  if hp : (h.deref p).isSome = true then some (h.remove p hp) else none

section Lemmas

variable {h h' : TimerHeap} {p r : ActiveTimer} {t : Timer} {a : ℕ} {time now : ℤ} {repeats : Bool}
  {delta : ℕ}

theorem deref_congr (heq : h'.cell p.timer = h.cell p.timer) : h'.deref p = h.deref p := by
  rw [deref, deref, heq]

theorem cell_new_self : (h.new a time repeats delta).cell a =
    some ⟨time, repeats, delta, h.numCreated + 1⟩ := Function.update_self _ _ _

theorem cell_new_of_ne {b : ℕ} (hne : b ≠ a) : (h.new a time repeats delta).cell b = h.cell b :=
  Function.update_of_ne hne _ _

theorem deref_new_of_ne (hne : p.timer ≠ a) : (h.new a time repeats delta).deref p = h.deref p :=
  deref_congr (cell_new_of_ne hne)

theorem deref_new_self : (h.new a time repeats delta).deref ⟨a, h.numCreated + 1⟩ =
    some ⟨time, repeats, delta, h.numCreated + 1⟩ :=
  deref_eq_some_iff.mpr ⟨cell_new_self, rfl⟩

theorem cell_restart_of_ne (hne : a ≠ p.timer) : (h.restart p now).cell a = h.cell a :=
  Function.update_of_ne hne _ _

theorem cell_restart_self : (h.restart p now).cell p.timer =
    (h.cell p.timer).map (Timer.restart now) := Function.update_self _ _ _

theorem deref_restart_self (ht : h.deref p = some t) :
    (h.restart p now).deref p = some (t.restart now) := by
  obtain ⟨hcell, hseq⟩ := deref_eq_some_iff.mp ht
  refine deref_eq_some_iff.mpr ⟨?_, (t.sequence_restart now).trans hseq⟩
  rw [cell_restart_self, hcell, Option.map_some]

/-- What `delete` leaves behind. -/
structure Deleted (p : ActiveTimer) (h h' : TimerHeap) : Prop where
  cell_self : h'.cell p.timer = none
  cell_of_ne : ∀ a, a ≠ p.timer → h'.cell a = h.cell a
  deleted : h'.deleted = h.deleted ++ [p.sequence]
  numCreated : h'.numCreated = h.numCreated

theorem exists_delete (ht : h.deref p = some t) : ∃ h', h.delete p = some h' ∧ Deleted p h h' := by
  have hsome : (h.deref p).isSome = true := by rw [ht]; rfl
  refine ⟨h.remove p hsome, dif_pos hsome, ?_, ?_, rfl, rfl⟩
  · exact Function.update_self _ _ _
  · exact fun a hne ↦ Function.update_of_ne hne _ _

end Lemmas

end TimerHeap

/-! ## The alarm -/

structure Timespec where
  sec : ℤ
  nsec : ℤ

/-- `wrapInt64` stands for the overflow of the difference. -/
def howMuchTimeFromNow (time now : ℤ) : Timespec :=
  if wrapInt64 (time - now) < 100 then ⟨(100 : ℤ).tdiv 1000000, (100 : ℤ).tmod 1000000 * 1000⟩
  else ⟨(wrapInt64 (time - now)).tdiv 1000000, (wrapInt64 (time - now)).tmod 1000000 * 1000⟩

def Timespec.microseconds (ts : Timespec) : ℤ := ts.sec * 1000000 + ts.nsec / 1000

/-- The descriptor `timerfd_`: the moment it is armed for, if any, and whether
an expiry waits to be read.  `lastArmed` is when it was armed last. -/
structure Timerfd where
  armed : Option ℤ
  readable : Bool
  lastArmed : ℤ

/-- A new setting replaces the old one and discards an expiry not yet read. -/
def Timerfd.reset (time now : ℤ) : Timerfd :=
  ⟨some (now + (howMuchTimeFromNow time now).microseconds), false, now⟩

/-! ## The queue -/

structure TimerQueue where
  heap : TimerHeap
  timers : OrderedSet Entry
  activeTimers : OrderedSet ActiveTimer
  callingExpiredTimers : Bool
  cancelingTimers : OrderedSet ActiveTimer
  timerfd : Timerfd

namespace TimerQueue

def new : TimerQueue := ⟨.empty, .empty, .empty, false, .empty, ⟨none, false, 0⟩⟩

def earliestChanged (q : TimerQueue) (time : ℤ) : Bool :=
  match q.timers.first? with
  | none => true
  | some e => time < e.time

def SameSize (q : TimerQueue) : Prop := q.timers.size = q.activeTimers.size

instance (q : TimerQueue) : Decidable q.SameSize := inferInstanceAs (Decidable (_ = _))

def put (q : TimerQueue) (e : Entry) (p : ActiveTimer) : TimerQueue :=
  { q with timers := q.timers.insert e, activeTimers := q.activeTimers.insert p }

/-- `insert`, where a failed assertion and a dangling pointer are faults. -/
def insert (p : ActiveTimer) (q : TimerQueue) : Option (Bool × TimerQueue) :=
  (q.heap.deref p).bind fun t ↦
    if q.SameSize ∧ ⟨t.expiration, p.timer⟩ ∉ q.timers ∧ p ∉ q.activeTimers ∧
        (q.put ⟨t.expiration, p.timer⟩ p).SameSize then
      some (q.earliestChanged t.expiration, q.put ⟨t.expiration, p.timer⟩ p)
    else none

def resetTimerfd (p : ActiveTimer) (now : ℤ) (q : TimerQueue) : Option TimerQueue :=
  (q.heap.deref p).map fun t ↦ { q with timerfd := .reset t.expiration now }

def addTimerInLoop (p : ActiveTimer) (now : ℤ) (q : TimerQueue) : Option TimerQueue :=
  (q.insert p).bind fun r ↦ if r.1 = true then r.2.resetTimerfd p now else some r.2

/-- The branch of `cancelInLoop` for a timer that is in the sets. -/
def eraseActive (p : ActiveTimer) (q : TimerQueue) : Option TimerQueue :=
  (q.heap.deref p).bind fun t ↦
    if ⟨t.expiration, p.timer⟩ ∈ q.timers then
      (q.heap.delete p).map fun heap ↦ { q with
        heap := heap
        timers := q.timers.erase ⟨t.expiration, p.timer⟩
        activeTimers := q.activeTimers.erase p }
    else none

def markCanceling (p : ActiveTimer) (q : TimerQueue) : TimerQueue :=
  if q.callingExpiredTimers = true then { q with cancelingTimers := q.cancelingTimers.insert p }
  else q

def checkSizes (q : TimerQueue) : Option TimerQueue := if q.SameSize then some q else none

def cancelInLoop (p : ActiveTimer) (q : TimerQueue) : Option TimerQueue :=
  if q.SameSize then
    (if p ∈ q.activeTimers then q.eraseActive p else some (q.markCanceling p)).bind checkSizes
  else none

/-- The second loop of `getExpired`, which also reads the sequence number of
each expired timer. -/
def eraseExpired : List Entry → TimerQueue → Option (List ActiveTimer × TimerQueue)
  | [], q => some ([], q)
  | e :: es, q =>
      (q.heap.cell e.timer).bind fun t ↦
        if ⟨e.timer, t.sequence⟩ ∈ q.activeTimers then
          (eraseExpired es { q with
            activeTimers := q.activeTimers.erase ⟨e.timer, t.sequence⟩ }).map fun r ↦
              (⟨e.timer, t.sequence⟩ :: r.1, r.2)
        else none

def sentry (now : ℤ) : Entry := ⟨now, uintptrMax⟩

/-- What `lower_bound(sentry)` finds is later than `now`, as asserted. -/
def LaterThan (now : ℤ) (q : TimerQueue) : Prop := ∀ e ∈ q.timers.first?, now < e.time

instance (now : ℤ) (q : TimerQueue) : Decidable (q.LaterThan now) :=
  inferInstanceAs (Decidable (∀ e ∈ q.timers.first?, now < e.time))

def dropExpired (now : ℤ) (q : TimerQueue) : TimerQueue :=
  { q with timers := q.timers.eraseBelow (sentry now) }

def getExpired (now : ℤ) (q : TimerQueue) : Option (List ActiveTimer × TimerQueue) :=
  if q.SameSize ∧ (q.dropExpired now).LaterThan now then
    (eraseExpired (q.timers.below (sentry now)) (q.dropExpired now)).bind fun r ↦
      if r.2.SameSize then some r else none
  else none

/-- `handleRead` up to the first callback. -/
def beginRead (now : ℤ) (q : TimerQueue) : Option (List ActiveTimer × TimerQueue) :=
  (getExpired now { q with timerfd := { q.timerfd with readable := false } }).map fun r ↦
    (r.1, { r.2 with callingExpiredTimers := true, cancelingTimers := .empty })

/-- One round of the loop in `reset`. -/
def resetOne (now : ℤ) (p : ActiveTimer) (q : TimerQueue) : Option TimerQueue :=
  (q.heap.deref p).bind fun t ↦
    if t.repeats = true ∧ p ∉ q.cancelingTimers then
      (insert p { q with heap := q.heap.restart p now }).map Prod.snd
    else (q.heap.delete p).map fun heap ↦ { q with heap := heap }

def resetAll (now : ℤ) : List ActiveTimer → TimerQueue → Option TimerQueue
  | [], q => some q
  | p :: ps, q => (q.resetOne now p).bind (resetAll now ps)

/-- The end of `reset`: the alarm for the first timer, if its time is valid. -/
def rearm (clock : ℤ) (q : TimerQueue) : Option TimerQueue :=
  match q.timers.first? with
  | none => some q
  | some e => (q.heap.cell e.timer).map fun t ↦
      if 0 < t.expiration then { q with timerfd := .reset t.expiration clock } else q

def reset (expired : List ActiveTimer) (now clock : ℤ) (q : TimerQueue) : Option TimerQueue :=
  (q.resetAll now expired).bind (rearm clock)

/-- `handleRead` after the last callback. -/
def endRead (expired : List ActiveTimer) (now clock : ℤ) (q : TimerQueue) : Option TimerQueue :=
  reset expired now clock { q with callingExpiredTimers := false }

end TimerQueue

end PpDSCache.Net
