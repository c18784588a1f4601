import PpDSCache.Abstract.Runs
import PpDSCache.Cpp.Sync

/-!
# The reader-writer lock

Threads take turns, one statement at a time.  A call that blocks is a
statement that cannot be taken yet.
-/

namespace PpDSCache.Master

open Cpp

/-- Where a thread is: outside the lock, inside one of the four calls, or
between a pair of calls as a holder.  A place inside a call names the last
statement done. -/
inductive Place where
  | idle
  | lockCalled | lockOwnsM | lockFlagged | lockNotified | lockAcquired
  | writing
  | unlockCalled | unlockOwnsM | unlockCleared | unlockNotified | unlockReleased
  | sharedCalled | sharedTests | sharedWaits | sharedWoken | sharedPassed | sharedAcquired
  | reading
  | unlockSharedCalled
  deriving DecidableEq, Repr

/-- What a thread does: it enters a call, takes a statement of the call it is
in, or returns from the wait on `cv_readers` without being notified. -/
inductive Act where
  | lock
  | unlock
  | lockShared
  | unlockShared
  | statement
  | spuriousWakeup
  deriving DecidableEq, Repr

/-- The members of the lock and the places of the threads.  The threads at
`sharedWaits` are those that `cv_readers` blocks; no call waits on
`cv_writers`. -/
structure RWLock (T : Type) where
  place : T → Place
  m : Mutex T
  hasWriter : Bool
  inner : SharedMutex T

namespace RWLock

variable {T : Type}

def initial : RWLock T := ⟨fun _ ↦ .idle, ⟨none⟩, false, .shared ∅⟩

def notifyReaders (s : RWLock T) : RWLock T :=
  { s with place := fun t ↦ if s.place t = .sharedWaits then .sharedWoken else s.place t }

@[simp] theorem notifyReaders_m (s : RWLock T) : s.notifyReaders.m = s.m := rfl

@[simp] theorem notifyReaders_hasWriter (s : RWLock T) :
    s.notifyReaders.hasWriter = s.hasWriter := rfl

@[simp] theorem notifyReaders_inner (s : RWLock T) : s.notifyReaders.inner = s.inner := rfl

theorem notifyReaders_place (s : RWLock T) (u : T) : s.notifyReaders.place u =
    if s.place u = .sharedWaits then .sharedWoken else s.place u := rfl

variable [DecidableEq T]

def goto (s : RWLock T) (t : T) (p : Place) : RWLock T :=
  { s with place := Function.update s.place t p }

@[simp] theorem goto_m (s : RWLock T) (t : T) (p : Place) : (s.goto t p).m = s.m := rfl

@[simp] theorem goto_hasWriter (s : RWLock T) (t : T) (p : Place) :
    (s.goto t p).hasWriter = s.hasWriter := rfl

@[simp] theorem goto_inner (s : RWLock T) (t : T) (p : Place) :
    (s.goto t p).inner = s.inner := rfl

@[simp] theorem goto_place_self (s : RWLock T) (t : T) (p : Place) :
    (s.goto t p).place t = p := by
  simp [goto]

theorem goto_place_of_ne (s : RWLock T) {t u : T} (p : Place) (hu : u ≠ t) :
    (s.goto t p).place u = s.place u := by
  simp [goto, hu]

def statement (s : RWLock T) (t : T) : Option (RWLock T) :=
  match s.place t with
  | .idle | .writing | .reading | .sharedWaits => none
  -- lock
  | .lockCalled => (s.m.lock t).map fun m ↦ { s with m := m }.goto t .lockOwnsM
  | .lockOwnsM => some ({ s with hasWriter := true }.goto t .lockFlagged)
  | .lockFlagged => some (s.goto t .lockNotified)
  | .lockNotified => (s.inner.lock t).map fun inner ↦
      { s with inner := inner }.goto t .lockAcquired
  | .lockAcquired => (s.m.unlock t).map fun m ↦ { s with m := m }.goto t .writing
  -- unlock
  | .unlockCalled => (s.m.lock t).map fun m ↦ { s with m := m }.goto t .unlockOwnsM
  | .unlockOwnsM => some ({ s with hasWriter := false }.goto t .unlockCleared)
  | .unlockCleared => some (s.notifyReaders.goto t .unlockNotified)
  | .unlockNotified => (s.inner.unlock t).map fun inner ↦
      { s with inner := inner }.goto t .unlockReleased
  | .unlockReleased => (s.m.unlock t).map fun m ↦ { s with m := m }.goto t .idle
  -- lock_shared: the wait releases the mutex and takes it again before each test
  | .sharedCalled => (s.m.lock t).map fun m ↦ { s with m := m }.goto t .sharedTests
  | .sharedTests =>
      if s.hasWriter then (s.m.unlock t).map fun m ↦ { s with m := m }.goto t .sharedWaits
      else some (s.goto t .sharedPassed)
  | .sharedWoken => (s.m.lock t).map fun m ↦ { s with m := m }.goto t .sharedTests
  | .sharedPassed => (s.inner.lockShared t).map fun inner ↦
      { s with inner := inner }.goto t .sharedAcquired
  | .sharedAcquired => (s.m.unlock t).map fun m ↦ { s with m := m }.goto t .reading
  -- unlock_shared
  | .unlockSharedCalled => (s.inner.unlockShared t).map fun inner ↦
      { s with inner := inner }.goto t .idle

/-- A call is entered where the calls of a thread match in pairs. -/
def exec : T × Act → RWLock T → Option (RWLock T)
  | (t, .lock), s => if s.place t = .idle then some (s.goto t .lockCalled) else none
  | (t, .unlock), s => if s.place t = .writing then some (s.goto t .unlockCalled) else none
  | (t, .lockShared), s => if s.place t = .idle then some (s.goto t .sharedCalled) else none
  | (t, .unlockShared), s =>
      if s.place t = .reading then some (s.goto t .unlockSharedCalled) else none
  | (t, .statement), s => s.statement t
  | (t, .spuriousWakeup), s =>
      if s.place t = .sharedWaits then some (s.goto t .sharedWoken) else none

/-! ## What one step can do -/

inductive Moves : Place → Place → Prop
  | lock : Moves .idle .lockCalled
  | unlock : Moves .writing .unlockCalled
  | lockShared : Moves .idle .sharedCalled
  | unlockShared : Moves .reading .unlockSharedCalled
  | notifyWriters : Moves .lockFlagged .lockNotified
  | spuriousWakeup : Moves .sharedWaits .sharedWoken

inductive LocksM : Place → Place → Prop
  | lock : LocksM .lockCalled .lockOwnsM
  | unlock : LocksM .unlockCalled .unlockOwnsM
  | lockShared : LocksM .sharedCalled .sharedTests
  | wait : LocksM .sharedWoken .sharedTests

inductive UnlocksM : Place → Place → Prop
  | lock : UnlocksM .lockAcquired .writing
  | unlock : UnlocksM .unlockReleased .idle
  | lockShared : UnlocksM .sharedAcquired .reading

inductive Step (s : RWLock T) (t : T) : RWLock T → Prop
  | move {p q : Place} (hp : s.place t = p) (hpq : Moves p q) : Step s t (s.goto t q)
  | lockM {p q : Place} (hp : s.place t = p) (hpq : LocksM p q) (hm : s.m.owner = none) :
      Step s t ({ s with m := ⟨some t⟩ }.goto t q)
  | unlockM {p q : Place} (hp : s.place t = p) (hpq : UnlocksM p q) (hm : s.m.owner = some t) :
      Step s t ({ s with m := ⟨none⟩ }.goto t q)
  | flag (hp : s.place t = .lockOwnsM) :
      Step s t ({ s with hasWriter := true }.goto t .lockFlagged)
  | clear (hp : s.place t = .unlockOwnsM) :
      Step s t ({ s with hasWriter := false }.goto t .unlockCleared)
  | notifyReaders (hp : s.place t = .unlockCleared) :
      Step s t (s.notifyReaders.goto t .unlockNotified)
  | wait (hp : s.place t = .sharedTests) (hm : s.m.owner = some t) (hflag : s.hasWriter = true) :
      Step s t ({ s with m := ⟨none⟩ }.goto t .sharedWaits)
  | pass (hp : s.place t = .sharedTests) (hflag : s.hasWriter = false) :
      Step s t (s.goto t .sharedPassed)
  | lockInner (hp : s.place t = .lockNotified) (hfree : s.inner = .shared ∅) :
      Step s t ({ s with inner := .exclusive t }.goto t .lockAcquired)
  | unlockInner (hp : s.place t = .unlockNotified) (hheld : s.inner = .exclusive t) :
      Step s t ({ s with inner := .shared ∅ }.goto t .unlockReleased)
  | lockShared {owners : Finset T} (hp : s.place t = .sharedPassed)
      (hfree : s.inner = .shared owners) :
      Step s t ({ s with inner := .shared (insert t owners) }.goto t .sharedAcquired)
  | unlockShared {owners : Finset T} (hp : s.place t = .unlockSharedCalled)
      (hheld : s.inner = .shared owners) (ht : t ∈ owners) :
      Step s t ({ s with inner := .shared (owners.erase t) }.goto t .idle)

variable {s s' : RWLock T} {t : T} {p q : Place}

theorem step_of_lockM (hp : s.place t = p) (hpq : LocksM p q)
    (h : (s.m.lock t).map (fun m ↦ { s with m := m }.goto t q) = some s') : Step s t s' := by
  obtain ⟨m, hm, rfl⟩ := Option.map_eq_some_iff.mp h
  obtain ⟨hfree, rfl⟩ := Mutex.lock_eq_some_iff.mp hm
  exact .lockM hp hpq hfree

theorem step_of_unlockM (hp : s.place t = p) (hpq : UnlocksM p q)
    (h : (s.m.unlock t).map (fun m ↦ { s with m := m }.goto t q) = some s') : Step s t s' := by
  obtain ⟨m, hm, rfl⟩ := Option.map_eq_some_iff.mp h
  obtain ⟨hown, rfl⟩ := Mutex.unlock_eq_some_iff.mp hm
  exact .unlockM hp hpq hown

theorem step_of_call (hpq : Moves p q)
    (h : (if s.place t = p then some (s.goto t q) else none) = some s') : Step s t s' := by
  obtain ⟨hp, hs⟩ := Option.ite_none_right_eq_some.mp h
  obtain rfl := Option.some.inj hs
  exact .move hp hpq

theorem step_of_statement (h : s.statement t = some s') : Step s t s' := by
  cases hp : s.place t <;> rw [statement, hp] at h
  case idle | writing | reading | sharedWaits => exact absurd h (by simp)
  case lockCalled => exact step_of_lockM hp .lock h
  case lockOwnsM => exact Option.some.inj h ▸ .flag hp
  case lockFlagged => exact Option.some.inj h ▸ .move hp .notifyWriters
  case lockNotified =>
    obtain ⟨inner, hinner, rfl⟩ := Option.map_eq_some_iff.mp h
    obtain ⟨hfree, rfl⟩ := SharedMutex.lock_eq_some_iff.mp hinner
    exact .lockInner hp hfree
  case lockAcquired => exact step_of_unlockM hp .lock h
  case unlockCalled => exact step_of_lockM hp .unlock h
  case unlockOwnsM => exact Option.some.inj h ▸ .clear hp
  case unlockCleared => exact Option.some.inj h ▸ .notifyReaders hp
  case unlockNotified =>
    obtain ⟨inner, hinner, rfl⟩ := Option.map_eq_some_iff.mp h
    obtain ⟨hheld, rfl⟩ := SharedMutex.unlock_eq_some_iff.mp hinner
    exact .unlockInner hp hheld
  case unlockReleased => exact step_of_unlockM hp .unlock h
  case sharedCalled => exact step_of_lockM hp .lockShared h
  case sharedTests =>
    by_cases hflag : s.hasWriter = true
    · rw [if_pos hflag] at h
      obtain ⟨m, hm, rfl⟩ := Option.map_eq_some_iff.mp h
      obtain ⟨hown, rfl⟩ := Mutex.unlock_eq_some_iff.mp hm
      exact .wait hp hown hflag
    · rw [if_neg hflag] at h
      exact Option.some.inj h ▸ .pass hp (Bool.eq_false_iff.mpr hflag)
  case sharedWoken => exact step_of_lockM hp .wait h
  case sharedPassed =>
    obtain ⟨inner, hinner, rfl⟩ := Option.map_eq_some_iff.mp h
    obtain ⟨owners, hfree, rfl⟩ := SharedMutex.lockShared_eq_some_iff.mp hinner
    exact .lockShared hp hfree
  case sharedAcquired => exact step_of_unlockM hp .lockShared h
  case unlockSharedCalled =>
    obtain ⟨inner, hinner, rfl⟩ := Option.map_eq_some_iff.mp h
    obtain ⟨owners, hheld, ht, rfl⟩ := SharedMutex.unlockShared_eq_some_iff.mp hinner
    exact .unlockShared hp hheld ht

theorem step_of_exec {a : Act} (h : exec (t, a) s = some s') : Step s t s' := by
  cases a with
  | lock => exact step_of_call .lock h
  | unlock => exact step_of_call .unlock h
  | lockShared => exact step_of_call .lockShared h
  | unlockShared => exact step_of_call .unlockShared h
  | statement => exact step_of_statement h
  | spuriousWakeup => exact step_of_call .spuriousWakeup h

end RWLock

end PpDSCache.Master
