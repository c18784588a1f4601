import Mathlib.Data.Finset.Basic
import Mathlib.Tactic

/-!
# Mutexes

An operation has a result when the thread can take it now.  It has none while
the thread would block, and where the standard forbids the call.
-/

namespace PpDSCache.Cpp

variable {T : Type}

structure Mutex (T : Type) where
  owner : Option T
  deriving DecidableEq

namespace Mutex

variable {m m' : Mutex T} {t : T}

def lock (m : Mutex T) (t : T) : Option (Mutex T) :=
  if m.owner = none then some ⟨some t⟩ else none

theorem lock_eq_some_iff : m.lock t = some m' ↔ m.owner = none ∧ m' = ⟨some t⟩ := by
  rw [lock, Option.ite_none_right_eq_some, Option.some_inj, eq_comm (a := m')]

variable [DecidableEq T]

def unlock (m : Mutex T) (t : T) : Option (Mutex T) :=
  if m.owner = some t then some ⟨none⟩ else none

theorem unlock_eq_some_iff : m.unlock t = some m' ↔ m.owner = some t ∧ m' = ⟨none⟩ := by
  rw [unlock, Option.ite_none_right_eq_some, Option.some_inj, eq_comm (a := m')]

end Mutex

/-- `std::shared_mutex`: one exclusive owner, or a set of shared owners. -/
inductive SharedMutex (T : Type) where
  | exclusive (owner : T)
  | shared (owners : Finset T)
  deriving DecidableEq

namespace SharedMutex

variable [DecidableEq T] {m m' : SharedMutex T} {t : T}

def lock (m : SharedMutex T) (t : T) : Option (SharedMutex T) :=
  if m = .shared ∅ then some (.exclusive t) else none

def unlock (m : SharedMutex T) (t : T) : Option (SharedMutex T) :=
  if m = .exclusive t then some (.shared ∅) else none

def lockShared (t : T) : SharedMutex T → Option (SharedMutex T)
  | .exclusive _ => none
  | .shared owners => some (.shared (insert t owners))

def unlockShared (t : T) : SharedMutex T → Option (SharedMutex T)
  | .exclusive _ => none
  | .shared owners => if t ∈ owners then some (.shared (owners.erase t)) else none

def Shares (t : T) : SharedMutex T → Prop
  | .exclusive _ => False
  | .shared owners => t ∈ owners

theorem lock_eq_some_iff : m.lock t = some m' ↔ m = .shared ∅ ∧ m' = .exclusive t := by
  rw [lock, Option.ite_none_right_eq_some, Option.some_inj, eq_comm (a := m')]

theorem unlock_eq_some_iff : m.unlock t = some m' ↔ m = .exclusive t ∧ m' = .shared ∅ := by
  rw [unlock, Option.ite_none_right_eq_some, Option.some_inj, eq_comm (a := m')]

theorem lockShared_eq_some_iff :
    m.lockShared t = some m' ↔ ∃ owners, m = .shared owners ∧ m' = .shared (insert t owners) := by
  cases m <;> simp [lockShared, eq_comm]

theorem unlockShared_eq_some_iff :
    m.unlockShared t = some m' ↔
      ∃ owners, m = .shared owners ∧ t ∈ owners ∧ m' = .shared (owners.erase t) := by
  cases m <;> simp [unlockShared, eq_comm]

end SharedMutex

end PpDSCache.Cpp
