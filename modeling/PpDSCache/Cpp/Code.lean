import Mathlib.Logic.Function.Basic
import Mathlib.Tactic

/-!
# Stateful code with exceptions and undefined behaviour

A function body is a state transformer that returns, raises an exception, or
executes something the language standard leaves undefined.  The state reached
so far is kept in all three cases: an exception leaves its partial effects
behind, and the state of an undefined outcome is the last one that is known.
-/

namespace PpDSCache.Cpp

inductive Exn where
  | outOfRange
  | invalidArgument
  | overflowError
  deriving DecidableEq, Repr

inductive Undefined where
  | endDereference
  | danglingIterator
  | emptyContainer
  | vectorIndex
  | shiftRange
  | signedOverflow
  | missingReturn
  deriving DecidableEq, Repr

inductive Fault where
  | thrown (e : Exn)
  | undefined (u : Undefined)
  deriving DecidableEq, Repr

abbrev Code (σ α : Type) := EStateM Fault σ α

namespace Code

variable {σ τ α β : Type}

def raise (e : Exn) : Code σ α := throw (.thrown e)

def undefined (u : Undefined) : Code σ α := throw (.undefined u)

@[simp] theorem run_raise (e : Exn) (s : σ) :
    (raise e : Code σ α).run s = .error (.thrown e) s := rfl

@[simp] theorem run_undefined (u : Undefined) (s : σ) :
    (undefined u : Code σ α).run s = .error (.undefined u) s := rfl

@[simp] theorem run_map (f : α → β) (c : Code σ α) (s : σ) :
    (f <$> c).run s =
      match c.run s with
      | .ok a t => .ok (f a) t
      | .error e t => .error e t := by
  simp only [Functor.map, EStateM.map, EStateM.run]
  cases c s <;> rfl

/-- Run a member function on a part of the state.  The part is written back
whichever way the call ends. -/
def zoom (view : σ → τ) (put : τ → σ → σ) (c : Code τ α) : Code σ α := fun s ↦
  match c.run (view s) with
  | .ok a t => .ok a (put t s)
  | .error f t => .error f (put t s)

theorem run_zoom (view : σ → τ) (put : τ → σ → σ) (c : Code τ α) (s : σ) :
    (zoom view put c).run s =
      match c.run (view s) with
      | .ok a t => .ok a (put t s)
      | .error f t => .error f (put t s) := rfl

/-- A scope guard: the destructor runs on return and while an exception
unwinds the stack, and nothing is promised after undefined behaviour. -/
def guarded (acquire release : σ → σ) (body : Code σ α) : Code σ α := fun s ↦
  match body.run (acquire s) with
  | .ok a t => .ok a (release t)
  | .error (.thrown e) t => .error (.thrown e) (release t)
  | .error (.undefined u) t => .error (.undefined u) t

theorem run_guarded (acquire release : σ → σ) (body : Code σ α) (s : σ) :
    (guarded acquire release body).run s =
      match body.run (acquire s) with
      | .ok a t => .ok a (release t)
      | .error (.thrown e) t => .error (.thrown e) (release t)
      | .error (.undefined u) t => .error (.undefined u) t := rfl

def lastState : EStateM.Result Fault σ α → σ
  | .ok _ t => t
  | .error _ t => t

/-- The state after a run, if its outcome is defined. -/
def stateAfter : EStateM.Result Fault σ α → Option σ
  | .ok _ t => some t
  | .error (.thrown _) t => some t
  | .error (.undefined _) _ => none

/-! ## Code that raises nothing -/

def NoThrow (c : Code σ α) : Prop := ∀ s e t, c.run s ≠ .error (.thrown e) t

theorem noThrow_pure (a : α) : NoThrow (pure a : Code σ α) := by
  intro s e t h
  simp at h

theorem noThrow_get : NoThrow (get : Code σ σ) := by
  intro s e t h
  simp at h

theorem noThrow_modify (f : σ → σ) : NoThrow (modify f : Code σ Unit) := by
  intro s e t h
  simp at h

theorem noThrow_undefined (u : Undefined) : NoThrow (undefined u : Code σ α) := by
  intro s e t h
  simp at h

theorem NoThrow.bind {c : Code σ α} {f : α → Code σ β} (hc : NoThrow c)
    (hf : ∀ a, NoThrow (f a)) : NoThrow (c >>= f) := by
  intro s e t h
  rw [EStateM.run_bind] at h
  cases hr : c.run s with
  | ok a s' => exact hf a s' e t (by simpa [hr] using h)
  | error g s' =>
      have hg : g = .thrown e ∧ s' = t := by simpa [hr] using h
      exact hc s e t (by rw [hr, hg.1, hg.2])

end Code

end PpDSCache.Cpp
