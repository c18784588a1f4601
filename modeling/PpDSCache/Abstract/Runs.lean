import Mathlib.Tactic

/-!
# Runs of a partial step function

A step either leads to one state or is impossible.  A run is a list of labels
whose steps are possible one after another.
-/

namespace PpDSCache.Abstract

section Runs

variable {σ L : Type*} (exec : L → σ → Option σ)

def runAll (ls : List L) (s : σ) : Option σ := ls.foldlM (fun s l ↦ exec l s) s

variable {exec} {l : L} {ls ls' : List L} {s t : σ}

theorem runAll_cons_iff :
    runAll exec (l :: ls) s = some t ↔ ∃ r, exec l s = some r ∧ runAll exec ls r = some t := by
  simp [runAll, Option.bind_eq_some_iff]

theorem runAll_append_iff :
    runAll exec (ls ++ ls') s = some t ↔
      ∃ r, runAll exec ls s = some r ∧ runAll exec ls' r = some t := by
  simp [runAll, List.foldlM_append, Option.bind_eq_some_iff]

/-- Every step of the run meets a condition on its label and the state before
it. -/
def EachStep (exec : L → σ → Option σ) (ok : L → σ → Prop) : List L → σ → Prop
  | [], _ => True
  | l :: ls, s => ok l s ∧ ∀ t, exec l s = some t → EachStep exec ok ls t

instance decidableEachStep (ok : L → σ → Prop) [∀ l s, Decidable (ok l s)] :
    (ls : List L) → (s : σ) → Decidable (EachStep exec ok ls s)
  | [], _ => isTrue trivial
  | l :: ls, s =>
      have : Decidable (∀ t, exec l s = some t → EachStep exec ok ls t) :=
        match h : exec l s with
        | none => isTrue nofun
        | some r =>
            have := decidableEachStep ok ls r
            decidable_of_iff (EachStep exec ok ls r) (by simp)
      inferInstanceAs (Decidable (_ ∧ _))

theorem eachStep_cons {ok : L → σ → Prop} {r : σ} (hok : ok l s) (hr : exec l s = some r)
    (hrest : EachStep exec ok ls r) : EachStep exec ok (l :: ls) s := by
  refine ⟨hok, fun t ht ↦ ?_⟩
  obtain rfl : r = t := Option.some.inj (hr.symm.trans ht)
  exact hrest

/-- What the initial state has and every admitted step keeps, every state of
an admitted run has. -/
theorem runAll_invariant {ok : L → σ → Prop} {I : σ → Prop}
    (hstep : ∀ l s t, I s → ok l s → exec l s = some t → I t)
    (hs : I s) (hok : EachStep exec ok ls s) (hrun : runAll exec ls s = some t) : I t := by
  induction ls generalizing s with
  | nil =>
      obtain rfl : s = t := Option.some.inj hrun
      exact hs
  | cons l ls ih =>
      obtain ⟨r, hr, hrest⟩ := runAll_cons_iff.mp hrun
      exact ih (hstep l s r hs hok.1 hr) (hok.2 r hr) hrest

/-- Where every admitted step is possible, an admitted run is. -/
theorem exists_runAll {ok : L → σ → Prop} {I : σ → Prop}
    (hstep : ∀ l s, I s → ok l s → ∃ t, exec l s = some t ∧ I t)
    (hs : I s) (hok : EachStep exec ok ls s) : ∃ t, runAll exec ls s = some t ∧ I t := by
  induction ls generalizing s with
  | nil => exact ⟨s, rfl, hs⟩
  | cons l ls ih =>
      obtain ⟨r, hr, hI⟩ := hstep l s hs hok.1
      obtain ⟨t, ht, hIt⟩ := ih hI (hok.2 r hr)
      exact ⟨t, runAll_cons_iff.mpr ⟨r, hr, ht⟩, hIt⟩

/-- The invariant may speak of the steps made so far. -/
theorem exists_runAll_history {ok : L → σ → Prop} {I : List L → σ → Prop}
    (hstep : ∀ ls l s, I ls s → ok l s → ∃ t, exec l s = some t ∧ I (ls ++ [l]) t)
    (hs : I [] s) (hok : EachStep exec ok ls s) : ∃ t, runAll exec ls s = some t ∧ I ls t := by
  suffices h : ∀ done s, I done s → EachStep exec ok ls s →
      ∃ t, runAll exec ls s = some t ∧ I (done ++ ls) t from h [] s hs hok
  clear hs hok
  induction ls with
  | nil => exact fun done s hs _ ↦ ⟨s, rfl, by rwa [List.append_nil]⟩
  | cons l ls ih =>
      intro done s hs hok
      obtain ⟨r, hr, hI⟩ := hstep done l s hs hok.1
      obtain ⟨t, ht, hIt⟩ := ih (done ++ [l]) r hI (hok.2 r hr)
      exact ⟨t, runAll_cons_iff.mpr ⟨r, hr, ht⟩, by rwa [← List.append_cons] at hIt⟩

theorem EachStep.of_invariant {ok ok' : L → σ → Prop} {I : σ → Prop}
    (hstep : ∀ l s t, I s → ok l s → exec l s = some t → I t) (himp : ∀ l s, I s → ok' l s)
    (hs : I s) (hok : EachStep exec ok ls s) : EachStep exec ok' ls s := by
  induction ls generalizing s with
  | nil => trivial
  | cons l ls ih => exact ⟨himp l s hs, fun t ht ↦ ih (hstep l s t hs hok.1 ht) (hok.2 t ht)⟩

/-- Where a step goes well exactly under a condition, every state of a run is
good if and only if every step meets the condition. -/
theorem forall_prefix_iff_eachStep {may ok : L → σ → Prop} {I Q : σ → Prop}
    (hgood : ∀ s, I s → Q s)
    (hstep : ∀ l s, I s → may l s → ok l s → ∃ t, exec l s = some t ∧ I t)
    (hbad : ∀ l s, I s → may l s → ¬ ok l s → ∀ t, exec l s = some t → ¬ Q t)
    (hs : I s) (hmay : EachStep exec may ls s) :
    (∀ pre, pre <+: ls → ∃ t, runAll exec pre s = some t ∧ Q t) ↔ EachStep exec ok ls s := by
  induction ls generalizing s with
  | nil =>
      refine ⟨fun _ ↦ trivial, fun _ pre hpre ↦ ?_⟩
      rw [List.prefix_nil.mp hpre]
      exact ⟨s, rfl, hgood s hs⟩
  | cons l ls ih =>
      by_cases hok : ok l s
      · obtain ⟨r, hr, hI⟩ := hstep l s hs hmay.1 hok
        rw [show EachStep exec ok (l :: ls) s ↔ EachStep exec ok ls r from
          ⟨fun h ↦ h.2 r hr, eachStep_cons hok hr⟩, ← ih hI (hmay.2 r hr)]
        constructor
        · intro hall pre hpre
          obtain ⟨t, ht, hQ⟩ := hall (l :: pre) (List.cons_prefix_cons.mpr ⟨rfl, hpre⟩)
          obtain ⟨r', hr', hrest⟩ := runAll_cons_iff.mp ht
          obtain rfl := Option.some.inj (hr.symm.trans hr')
          exact ⟨t, hrest, hQ⟩
        · intro hall pre hpre
          cases pre with
          | nil => exact ⟨s, rfl, hgood s hs⟩
          | cons l' pre =>
              obtain ⟨rfl, htail⟩ := List.cons_prefix_cons.mp hpre
              obtain ⟨t, ht, hQ⟩ := hall pre htail
              exact ⟨t, runAll_cons_iff.mpr ⟨r, hr, ht⟩, hQ⟩
      · refine ⟨fun hall ↦ ?_, fun h ↦ absurd h.1 hok⟩
        obtain ⟨t, ht, hQ⟩ := hall [l] (List.cons_prefix_cons.mpr ⟨rfl, List.nil_prefix⟩)
        obtain ⟨r, hr, hrest⟩ := runAll_cons_iff.mp ht
        obtain rfl : r = t := Option.some.inj hrest
        exact absurd hQ (hbad l s hs hmay.1 hok r hr)

theorem eachStep_of_forall {ok : L → Prop} (h : ∀ l ∈ ls, ok l) :
    EachStep exec (fun l _ ↦ ok l) ls s := by
  induction ls generalizing s with
  | nil => trivial
  | cons l ls ih =>
      exact ⟨h l List.mem_cons_self, fun t _ ↦ ih fun l' hl' ↦ h l' (List.mem_cons_of_mem l hl')⟩

theorem eachStep_true (ls : List L) (s : σ) : EachStep exec (fun _ _ ↦ True) ls s :=
  eachStep_of_forall fun _ _ ↦ trivial

end Runs

end PpDSCache.Abstract
