import Mathlib.Tactic

/-!
# Readers of a stream

A reader takes items off the front of the data at hand, one per step, and waits
when the data does not hold a whole item.  What it takes does not depend on the
data behind the item, so it does not matter in which pieces the data arrives.
-/

namespace PpDSCache.Abstract

structure StreamReader (σ β : Type*) where
  step : σ → List β → Option (σ × List β)
  /-- how many steps may take no data -/
  rank : σ → ℕ
  shrinks : ∀ {s d t rest}, step s d = some (t, rest) →
    rank t + rest.length < rank s + d.length
  stable : ∀ {s d t rest} (more : List β), step s d = some (t, rest) →
    step s (d ++ more) = some (t, rest ++ more)

namespace StreamReader

variable {σ β : Type*} (R : StreamReader σ β)

def drainFor : ℕ → σ → List β → σ × List β
  | 0, s, d => (s, d)
  | n + 1, s, d =>
      match R.step s d with
      | none => (s, d)
      | some (t, rest) => drainFor n t rest

/-- Steps are made as long as they are possible. -/
def drain (s : σ) (d : List β) : σ × List β := R.drainFor (R.rank s + d.length) s d

variable {R} {s t : σ} {d rest : List β}

theorem drainFor_of_none (h : R.step s d = none) (n : ℕ) : R.drainFor n s d = (s, d) := by
  cases n with
  | zero => rfl
  | succ n => rw [drainFor, h]

theorem drain_of_none (h : R.step s d = none) : R.drain s d = (s, d) := drainFor_of_none h _

/-- Fuel beyond what rank and data allow changes nothing. -/
theorem drainFor_congr {n m : ℕ} (hn : R.rank s + d.length ≤ n) (hm : R.rank s + d.length ≤ m) :
    R.drainFor n s d = R.drainFor m s d := by
  induction n generalizing s d m with
  | zero =>
      have hstep : R.step s d = none := by
        by_contra hne
        obtain ⟨⟨t, rest⟩, hstep⟩ := Option.ne_none_iff_exists'.mp hne
        have hlt := R.shrinks hstep
        omega
      rw [drainFor_of_none hstep, drainFor_of_none hstep]
  | succ n ih =>
      cases hstep : R.step s d with
      | none => rw [drainFor_of_none hstep, drainFor_of_none hstep]
      | some p =>
          have hlt := R.shrinks hstep
          cases m with
          | zero => omega
          | succ m =>
              rw [drainFor, drainFor, hstep]
              apply ih <;> omega

theorem drain_of_step (h : R.step s d = some (t, rest)) : R.drain s d = R.drain t rest := by
  have hlt := R.shrinks h
  calc
    R.drain s d = R.drainFor (R.rank s + d.length + 1) s d := drainFor_congr le_rfl (by omega)
    _ = R.drainFor (R.rank s + d.length) t rest := by rw [drainFor, h]
    _ = R.drain t rest := drainFor_congr (by omega) le_rfl

/-- Induction along the steps that are made. -/
theorem drain_induction {P : σ → List β → Prop} (hnone : ∀ s d, R.step s d = none → P s d)
    (hstep : ∀ s d t rest, R.step s d = some (t, rest) → P t rest → P s d) (s : σ) (d : List β) :
    P s d := by
  induction hn : R.rank s + d.length using Nat.strong_induction_on generalizing s d with
  | _ n ih =>
      cases h : R.step s d with
      | none => exact hnone s d h
      | some p =>
          have hlt := R.shrinks h
          exact hstep s d p.1 p.2 h (ih _ (hn ▸ hlt) p.1 p.2 rfl)

/-! ## Some of the steps -/

variable (R) in
/-- A reader that stops before it has to. -/
def Reaches : σ × List β → σ × List β → Prop :=
  Relation.ReflTransGen fun p q ↦ R.step p.1 p.2 = some q

variable {p q : σ × List β}

theorem Reaches.drain_eq (h : R.Reaches p q) : R.drain p.1 p.2 = R.drain q.1 q.2 := by
  induction h with
  | refl => rfl
  | tail _ hstep ih => rw [ih, drain_of_step hstep]

theorem Reaches.append (h : R.Reaches p q) (more : List β) :
    R.Reaches (p.1, p.2 ++ more) (q.1, q.2 ++ more) := by
  induction h with
  | refl => exact .refl
  | tail _ hstep ih => exact ih.tail (R.stable more hstep)

end StreamReader

end PpDSCache.Abstract
