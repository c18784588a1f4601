import PpDSCache.Abstract.Runs

/-!
# Monitors

The calls on an object take its mutex, wait while a condition on its data does
not hold, run a body and notify.  A critical section is one step.  Who is woken
by a notification comes from outside, and so do wakeups for no reason.
-/

namespace PpDSCache.Abstract

/-- How a call notifies when it leaves. -/
inductive Notify (κ : Type) where
  | nobody
  | one (w : κ)
  | all (w : κ)
  deriving DecidableEq

/-- A body without a result has failed an assertion. -/
structure Monitor (V C R κ : Type) where
  /-- the condition variable of the wait loop, if the call has one -/
  waitsFor : C → Option κ
  /-- the test at which the wait loops of a condition variable end -/
  holds : κ → V → Bool
  body : C → V → Option (R × V)
  /-- decided on the data that the body leaves -/
  notifies : C → V → Notify κ

/-- Where a call is. -/
inductive Stage (R : Type) where
  /-- before it takes the mutex -/
  | began
  | waiting
  | woken
  | done (result : R)

namespace Stage

variable {R : Type}

def isWaiting : Stage R → Bool
  | waiting => true
  | _ => false

def isWoken : Stage R → Bool
  | woken => true
  | _ => false

def isDone : Stage R → Bool
  | done _ => true
  | _ => false

def canEnter : Stage R → Bool
  | began | woken => true
  | _ => false

@[simp] theorem isWoken_waiting : (waiting : Stage R).isWoken = false := rfl

@[simp] theorem isWoken_woken : (woken : Stage R).isWoken = true := rfl

@[simp] theorem isWoken_done (r : R) : (done r).isWoken = false := rfl

@[simp] theorem isDone_began : (began : Stage R).isDone = false := rfl

@[simp] theorem isDone_waiting : (waiting : Stage R).isDone = false := rfl

@[simp] theorem isDone_woken : (woken : Stage R).isDone = false := rfl

@[simp] theorem isDone_done (r : R) : (done r).isDone = true := rfl

/-- What a call and the one that it wakes can still do. -/
def weight : Stage R → ℕ
  | began | woken => 2
  | waiting => 1
  | done _ => 0

theorem weight_of_canEnter {st : Stage R} (h : st.canEnter = true) : st.weight = 2 := by
  cases st with
  | began | woken => rfl
  | waiting | done r => cases h

theorem weight_le_two (st : Stage R) : st.weight ≤ 2 := by
  cases st <;> simp [weight]

theorem isDone_of_canEnter {st : Stage R} (h : st.canEnter = true) : st.isDone = false := by
  cases st with
  | began | woken => rfl
  | waiting | done r => cases h

end Stage

/-- An object with the calls on it. -/
structure Guarded (V C R : Type) where
  data : V
  calls : List (C × Stage R)
  /-- the calls that have left, in this order, each with its number -/
  served : List (ℕ × C × R)

inductive CallAct (C : Type) where
  | call (c : C)
  /-- the critical section of a call, and the call that it wakes -/
  | enter (k : ℕ) (wakes : Option ℕ)
  /-- a wakeup for no reason -/
  | wake (k : ℕ)

namespace Guarded

variable {V C R : Type}

def new (v : V) : Guarded V C R := ⟨v, [], []⟩

def setStage (k : ℕ) (st : Stage R) (calls : List (C × Stage R)) : List (C × Stage R) :=
  calls.modify k fun p ↦ (p.1, st)

/-- No call can take a step. -/
def Stuck (s : Guarded V C R) : Prop := ∀ p ∈ s.calls, p.2.canEnter = false

instance (s : Guarded V C R) : Decidable s.Stuck :=
  inferInstanceAs (Decidable (∀ p ∈ s.calls, p.2.canEnter = false))

theorem Stuck.eq_waiting {s : Guarded V C R} (h : s.Stuck) {p : C × Stage R} (hp : p ∈ s.calls)
    (hdone : p.2.isDone = false) : p.2 = .waiting := by
  have hno := h p hp
  obtain ⟨c, st⟩ := p
  cases st with
  | waiting => rfl
  | began | woken => cases hno
  | done r => cases hdone

end Guarded

namespace Monitor

open Guarded

variable {V C R κ : Type} [DecidableEq κ] (M : Monitor V C R κ)

def isReady (c : C) (v : V) : Bool :=
  match M.waitsFor c with
  | none => true
  | some w => M.holds w v

def waits (w : κ) (p : C × Stage R) : Bool := p.2.isWaiting && M.waitsFor p.1 = some w

def notify (wakes : Option ℕ) (calls : List (C × Stage R)) : Notify κ → List (C × Stage R)
  | .nobody => calls
  | .one _ =>
      match wakes with
      | none => calls
      | some k => setStage k .woken calls
  | .all w => calls.map fun p ↦ if M.waits w p = true then (p.1, .woken) else p

/-- A call leaves with a result and new data. -/
def leave (k : ℕ) (wakes : Option ℕ) (c : C) (q : R × V) (s : Guarded V C R) : Guarded V C R where
  data := q.2
  calls := M.notify wakes (setStage k (.done q.1) s.calls) (M.notifies c q.2)
  served := s.served ++ [(k, c, q.1)]

def enter (k : ℕ) (wakes : Option ℕ) (s : Guarded V C R) : Option (Guarded V C R) :=
  (s.calls[k]?).bind fun p ↦
    if M.isReady p.1 s.data = true then
      (M.body p.1 s.data).map fun q ↦ M.leave k wakes p.1 q s
    else some { s with calls := setStage k .waiting s.calls }

def exec (a : CallAct C) (s : Guarded V C R) : Option (Guarded V C R) :=
  match a with
  | .call c => some { s with calls := s.calls ++ [(c, .began)] }
  | .enter k wakes => M.enter k wakes s
  | .wake k => some { s with calls := setStage k .woken s.calls }

/-- `notify` wakes one that waits, if there is one. -/
def Picks (wakes : Option ℕ) (calls : List (C × Stage R)) : Notify κ → Prop
  | .one w =>
      match wakes with
      | none => ∀ p ∈ calls, M.waits w p = false
      | some k => ∃ p ∈ calls[k]?, M.waits w p = true
  | _ => wakes = none

def Enabled (a : CallAct C) (s : Guarded V C R) : Prop :=
  match a with
  | .call _ => True
  | .enter k wakes => ∃ p ∈ s.calls[k]?, p.2.canEnter = true ∧
      ∀ q ∈ M.body p.1 s.data, M.isReady p.1 s.data = true →
        M.Picks wakes s.calls (M.notifies p.1 q.2)
  | .wake k => ∃ p ∈ s.calls[k]?, p.2.isWaiting = true

instance (wakes : Option ℕ) (calls : List (C × Stage R)) (n : Notify κ) :
    Decidable (M.Picks wakes calls n) :=
  match n, wakes with
  | .nobody, wakes => inferInstanceAs (Decidable (wakes = none))
  | .all _, wakes => inferInstanceAs (Decidable (wakes = none))
  | .one w, none => inferInstanceAs (Decidable (∀ p ∈ calls, M.waits w p = false))
  | .one w, some k => inferInstanceAs (Decidable (∃ p ∈ calls[k]?, M.waits w p = true))

instance (a : CallAct C) (s : Guarded V C R) : Decidable (M.Enabled a s) :=
  match a with
  | .call _ => isTrue trivial
  | .enter k wakes => inferInstanceAs (Decidable (∃ p ∈ s.calls[k]?, p.2.canEnter = true ∧
      ∀ q ∈ M.body p.1 s.data, M.isReady p.1 s.data = true →
        M.Picks wakes s.calls (M.notifies p.1 q.2)))
  | .wake k => inferInstanceAs (Decidable (∃ p ∈ s.calls[k]?, p.2.isWaiting = true))

end Monitor

/-! ## Sums over the calls -/

section Total

variable {P : Type} (f : P → ℕ)

def total (ps : List P) : ℕ := (ps.map f).sum

variable {f} {ps : List P} {k : ℕ} {p : P}

theorem total_append (ps ps' : List P) : total f (ps ++ ps') = total f ps + total f ps' := by
  simp [total]

theorem total_modify (hk : ps[k]? = some p) (g : P → P) :
    total f (ps.modify k g) + f p = total f ps + f (g p) := by
  induction ps generalizing k with
  | nil => cases hk
  | cons p' ps ih =>
      cases k with
      | zero =>
          obtain rfl : p' = p := Option.some.inj hk
          simp only [total, List.modify_zero_cons, List.map_cons, List.sum_cons]
          omega
      | succ k =>
          have hrest := ih (k := k) hk
          simp only [total, List.modify_succ_cons, List.map_cons, List.sum_cons] at hrest ⊢
          omega

end Total

end PpDSCache.Abstract
