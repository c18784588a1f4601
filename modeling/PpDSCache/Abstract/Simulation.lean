import PpDSCache.Abstract.Runs

/-!
# Partial implementations of a total specification

A specification answers every operation; an implementation may fail to.  It
tracks the specification along a list of operations when no operation fails,
every answer agrees, and a given relation links the two states throughout.
-/

namespace PpDSCache.Abstract

section Simulation

variable {σ M O R : Type*}

/-- The implementation `exec` tracks the specification `step` from the given
pair of states, with `rel` holding before and after every operation. -/
def Tracks (exec : O → σ → Option (R × σ)) (step : O → M → R × M) (rel : σ → M → Prop) :
    σ → M → List O → Prop
  | s, m, [] => rel s m
  | s, m, c :: cs => rel s m ∧ ∃ t, exec c s = some ((step c m).1, t) ∧
      Tracks exec step rel t (step c m).2 cs

def EachMeets (step : O → M → R × M) (ok : O → M → Prop) : M → List O → Prop
  | _, [] => True
  | m, c :: cs => ok c m ∧ EachMeets step ok (step c m).2 cs

/-- The answers to a list of operations, if none fails. -/
def answers (exec : O → σ → Option (R × σ)) : σ → List O → Option (List R)
  | _, [] => some []
  | s, c :: cs => (exec c s).bind fun p ↦ (answers exec p.2 cs).map (p.1 :: ·)

section Specification

variable {exec : O → σ → Option (R × σ)} {step : O → M → R × M} {rel : σ → M → Prop}
  {ok : O → M → Prop} {s : σ} {m : M}

theorem Tracks.rel_start {cs : List O} (h : Tracks exec step rel s m cs) : rel s m := by
  cases cs with
  | nil => exact h
  | cons c cs => exact h.1

/-- Two implementations that track one specification give the same answers. -/
theorem Tracks.answers_eq {σ' : Type*} {exec' : O → σ' → Option (R × σ')}
    {rel' : σ' → M → Prop} {s' : σ'} {cs : List O} (h : Tracks exec step rel s m cs)
    (h' : Tracks exec' step rel' s' m cs) : answers exec s cs = answers exec' s' cs := by
  induction cs generalizing s s' m with
  | nil => rfl
  | cons c cs ih =>
      obtain ⟨-, t, ht, hrest⟩ := h
      obtain ⟨-, t', ht', hrest'⟩ := h'
      simp [answers, ht, ht', ih hrest hrest']

/-- Operations that meet a condition on either state and are answered correctly
from related states are tracked. -/
theorem tracks_of_eachStep {okImpl : O → σ → Prop}
    (hok : ∀ c s m, rel s m → okImpl c s → ok c m →
      ∃ t, exec c s = some ((step c m).1, t) ∧ rel t (step c m).2)
    (h : rel s m) {cs : List O} (hs : EachStep (fun c s ↦ (exec c s).map Prod.snd) okImpl cs s)
    (hm : EachMeets step ok m cs) : Tracks exec step rel s m cs := by
  induction cs generalizing s m with
  | nil => exact h
  | cons c cs ih =>
      obtain ⟨t, ht, hrel⟩ := hok c s m h hs.1 hm.1
      exact ⟨h, t, ht, ih hrel (hs.2 t (by simp [ht])) hm.2⟩

theorem tracks_of_eachMeets
    (hok : ∀ c s m, rel s m → ok c m →
      ∃ t, exec c s = some ((step c m).1, t) ∧ rel t (step c m).2)
    (h : rel s m) {cs : List O} (hcs : EachMeets step ok m cs) :
    Tracks exec step rel s m cs :=
  tracks_of_eachStep (fun c s m hrel _ hc ↦ hok c s m hrel hc) h (eachStep_true cs s) hcs

/-- If moreover no other operation ends in related states again, then tracking
means meeting `ok` at every operation. -/
theorem tracks_iff_eachMeets
    (hok : ∀ c s m, rel s m → ok c m →
      ∃ t, exec c s = some ((step c m).1, t) ∧ rel t (step c m).2)
    (hfail : ∀ c s m t, rel s m → ¬ ok c m → exec c s = some ((step c m).1, t) →
      ¬ rel t (step c m).2)
    (h : rel s m) (cs : List O) :
    Tracks exec step rel s m cs ↔ EachMeets step ok m cs := by
  refine ⟨fun htracks ↦ ?_, tracks_of_eachMeets hok h⟩
  clear h
  induction cs generalizing s m with
  | nil => trivial
  | cons c cs ih =>
      obtain ⟨hrel, t, ht, hrest⟩ := htracks
      refine ⟨?_, ih hrest⟩
      by_contra hc
      exact hfail c s m t hrel hc ht hrest.rel_start

theorem eachMeets_iff_forall {ok : O → Prop} (cs : List O) :
    EachMeets step (fun c _ ↦ ok c) m cs ↔ ∀ c ∈ cs, ok c := by
  induction cs generalizing m with
  | nil => simp [EachMeets]
  | cons c cs ih => simp [EachMeets, ih]

end Specification

end Simulation

end PpDSCache.Abstract
