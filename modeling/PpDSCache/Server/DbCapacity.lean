import PpDSCache.Abstract.Runs
import PpDSCache.Server.DbRefinesLru

/-!
# The capacity of a store

`setKV` makes room before it adds a key: where the list already has `maxSize`
keys it drops the last one.  The comparison is unsigned, so a negative capacity
is a huge one, and with capacity zero an empty list counts as full.
-/

namespace PpDSCache.Server.Db

open Cpp Abstract

def heldKeys (d : Db) : Set Text := { key | (d.map key).isSome }

/-- `setKV` takes nothing from an empty list, and where it stops the store is
within its capacity or as it was. -/
structure SetsWithin (d : Db) (key value : Text) (slot : ℤ) : Prop where
  nonempty : ∀ t, (setKV key value slot).run d ≠ .error (.undefined .emptyContainer) t
  bounded : ∀ t, Code.lastState ((setKV key value slot).run d) = t →
    t.heldKeys.encard ≤ (max d.maxSize 0).toNat ∨ t = d

namespace Call

def Within (c : Call) (d : Db) : Prop :=
  match c with
  | setKV key value slot => d.SetsWithin key value slot
  | _ => True

/-- The store after a call that completes. -/
def after (c : Call) (d : Db) : Option Db := (c.exec d).map Prod.snd

end Call

section Empty

variable {maxSize : ℤ}

theorem isOverSize_empty (h : maxSize.natAbs ≤ 2 ^ 31) :
    (empty maxSize).isOverSize = true ↔ maxSize = 0 := by
  have hsize : (empty maxSize).lruList.size = 0 := rfl
  rw [isOverSize, decide_eq_true_eq, hsize, show (empty maxSize).maxSize = maxSize from rfl]
  omega

/-- A store that counts as full without a key has nothing to drop, and the
other one reads the key through the past-the-end iterator. -/
theorem setKV_empty (h : maxSize.natAbs ≤ 2 ^ 31) (key value : Text) (slot : ℤ) :
    (setKV key value slot).run (empty maxSize) =
      .error (.undefined (if maxSize = 0 then .emptyContainer else .endDereference))
        (empty maxSize) := by
  have hfind : (empty maxSize).find key = none := rfl
  have hover := isOverSize_empty h
  by_cases hzero : maxSize = 0
  · have hfull := hover.mpr hzero
    subst hzero
    have hback : (empty 0).lruList.back = none := rfl
    simp [setKV, hfind, hfull, evictBack, lruBack, Nodes.callBack_run_none hback]
  · have hroom : (empty maxSize).isOverSize = false := by simpa [hzero] using hover
    simp [setKV, hfind, hroom, keyOf, hzero]

theorem setsWithin_empty_iff (h : maxSize.natAbs ≤ 2 ^ 31) (key value : Text) (slot : ℤ) :
    (empty maxSize).SetsWithin key value slot ↔ maxSize ≠ 0 := by
  have hrun := setKV_empty h key value slot
  constructor
  · intro hset hzero
    apply hset.nonempty (empty maxSize)
    rw [hrun, if_pos hzero]
  · intro hne
    rw [if_neg hne] at hrun
    refine ⟨fun t ht ↦ ?_, fun t ht ↦ ?_⟩
    · rw [hrun] at ht
      cases ht
    · rw [hrun] at ht
      exact .inr ht.symm

/-- No call leaves the empty store: a read or a deletion finds nothing, and a
`setKV` does not complete. -/
theorem after_empty (h : maxSize.natAbs ≤ 2 ^ 31) {c : Call} {t : Db}
    (ht : c.after (empty maxSize) = some t) : t = empty maxSize ∧ c.isSetKV = false := by
  have hmiss (key : Text) : (empty maxSize).map key = none := rfl
  cases c with
  | contain key =>
      simp only [Call.after, Call.exec, contain_run, Call.exec.completed] at ht
      exact ⟨(Option.some.inj ht).symm, by simp [Call.isSetKV]⟩
  | getKV key =>
      simp only [Call.after, Call.exec, getKV_miss (hmiss key), Call.exec.completed] at ht
      exact ⟨(Option.some.inj ht).symm, by simp [Call.isSetKV]⟩
  | delKV key =>
      simp only [Call.after, Call.exec, delKV_miss (hmiss key), Call.exec.completed] at ht
      exact ⟨(Option.some.inj ht).symm, by simp [Call.isSetKV]⟩
  | setKV key value slot =>
      simp [Call.after, Call.exec, setKV_empty h, Call.exec.completed] at ht

theorem exists_after_empty {c : Call} (hc : c.isSetKV = false) :
    ∃ t, c.after (empty maxSize) = some t := by
  have hmiss (key : Text) : (empty maxSize).map key = none := rfl
  cases c with
  | contain key => simp [Call.after, Call.exec, contain_run, Call.exec.completed]
  | getKV key => simp [Call.after, Call.exec, getKV_miss (hmiss key), Call.exec.completed]
  | delKV key => simp [Call.after, Call.exec, delKV_miss (hmiss key), Call.exec.completed]
  | setKV key value slot => simp [Call.isSetKV] at hc

theorem within_empty_iff (h : maxSize.natAbs ≤ 2 ^ 31) (c : Call) :
    c.Within (empty maxSize) ↔ maxSize ≠ 0 ∨ c.isSetKV = false := by
  cases c with
  | setKV key value slot => simp [Call.Within, setsWithin_empty_iff h, Call.isSetKV]
  | contain key => simp [Call.Within, Call.isSetKV]
  | getKV key => simp [Call.Within, Call.isSetKV]
  | delKV key => simp [Call.Within, Call.isSetKV]

end Empty

/-- From an empty store every call of a sequence stays within the capacity
exactly when the capacity is not zero or the sequence adds nothing. -/
theorem within_capacity_iff {maxSize : ℤ} (h : maxSize.natAbs ≤ 2 ^ 31) (calls : List Call) :
    EachStep Call.after Call.Within calls (empty maxSize) ↔
      maxSize ≠ 0 ∨ ∀ c ∈ calls, c.isSetKV = false := by
  induction calls with
  | nil => simp [EachStep]
  | cons c calls ih =>
      rw [EachStep, within_empty_iff h, List.forall_mem_cons, or_and_left]
      apply and_congr_right
      intro hfirst
      rw [← ih]
      constructor
      · intro hrest
        by_cases hc : c.isSetKV = false
        · obtain ⟨t, ht⟩ := exists_after_empty hc
          rw [← (after_empty h ht).1]
          exact hrest t ht
        · exact ih.mpr (.inl (hfirst.resolve_right hc))
      · intro hrest t ht
        rwa [(after_empty h ht).1]

theorem within_capacity_negative :
    EachStep Call.after Call.Within [.setKV (ascii "key00000") (ascii "val00000") 0]
      (empty (-1)) :=
  (within_capacity_iff (by norm_num) _).mpr (.inl (by norm_num))

/-- The store `idToDb` creates for a new id drops from an empty list on its
first `setKV`. -/
theorem not_within_capacity_zero :
    (setKV (ascii "key00000") (ascii "val00000") 0).run (empty 0) =
        .error (.undefined .emptyContainer) (empty 0) ∧
      ¬ EachStep Call.after Call.Within [.setKV (ascii "key00000") (ascii "val00000") 0]
        (empty 0) := by
  have hrun : (setKV (ascii "key00000") (ascii "val00000") 0).run (empty 0) =
      .error (.undefined .emptyContainer) (empty 0) := setKV_empty (by norm_num) _ _ _
  refine ⟨hrun, ?_⟩
  rintro ⟨hset, -⟩
  exact SetsWithin.nonempty hset _ hrun

end PpDSCache.Server.Db
