import PpDSCache.Master.SlotTables

/-!
# Ranges of slots

What the two calls that change a slot set are for, and where they do it.
`rangeSetSlots` works on an `int` and is right below slot 31 only;
`resetSlots` shifts a word by its width as soon as it has a slot to reset.
-/

namespace PpDSCache.Master.PpMaster

open Cpp

variable {m t : PpMaster} {id start stop n : ℤ}

/-! ## Resetting slots -/

/-- The lowest `n` slots of the server are taken from it and returned, or all
of them if there are fewer. -/
structure Resets (m : PpMaster) (id n : ℤ) (ret : SlotSet) (t : PpMaster) : Prop where
  subset : slotsIn ret ⊆ slotsIn (m.slotsOf id)
  card : ((slotsIn ret).card : ℤ) = min (max n 0) (slotsIn (m.slotsOf id)).card
  lowest : ∀ slot ∈ slotsIn ret, ∀ other ∈ slotsIn (m.slotsOf id), other ∉ slotsIn ret →
    slot < other
  left : slotsIn (t.slotsOf id) = slotsIn (m.slotsOf id) \ slotsIn ret
  others : ∀ other, other ≠ id → t.slotsOf other = m.slotsOf other

theorem resets_zero (m : PpMaster) (id : ℤ) (hn : n ≤ 0) : Resets m id n 0 m := by
  have hzero : slotsIn 0 = ∅ := slotsIn_eq_empty.mpr rfl
  refine ⟨?_, ?_, ?_, ?_, fun _ _ ↦ rfl⟩
  · rw [hzero]
    exact Finset.empty_subset _
  · rw [hzero, Finset.card_empty, max_eq_right hn]
    exact (min_eq_left (Int.natCast_nonneg _)).symm
  · rw [hzero]
    intro slot hslot
    exact absurd hslot (Finset.notMem_empty slot)
  · rw [hzero, Finset.sdiff_empty]

theorem resetSlots_ne_ok (hn : 0 < n) (ret : SlotSet) :
    (resetSlots id n).run m ≠ .ok ret t := by
  intro hok
  by_cases hwide : ∃ slot, 64 ≤ slot ∧ (m.slotsOf id).getLsbD slot = true
  · obtain ⟨slot, hslot, hbit⟩ := hwide
    obtain ⟨r, hr, -⟩ := resetSlots_of_wide hn hslot hbit
    rw [hr] at hok
    cases hok
  · have hnone := resetSlots_undefined hn hwide
    rw [hok] at hnone
    cases hnone

/-- The call resets the slots it is asked for only when that is none. -/
theorem resets_iff_nonpos (m : PpMaster) (id n : ℤ) :
    (∃ ret t, (resetSlots id n).run m = .ok ret t ∧ Resets m id n ret t) ↔ n ≤ 0 := by
  constructor
  · rintro ⟨ret, t, hok, -⟩
    by_contra hn
    exact resetSlots_ne_ok (not_le.mp hn) ret hok
  · intro hn
    exact ⟨0, m, resetSlots_of_nonpos hn m id, resets_zero m id hn⟩

/-- A server with slot 0 only. -/
def slotZeroOfOne : PpMaster where
  idToAddr := fun _ ↦ none
  idToSlots := fun id ↦ if id = 1 then some 1 else none
  slotsToId := List.replicate SLOTS_NUM 1
  readers := 0

theorem not_resets_slotZeroOfOne :
    ¬ ∃ ret t, (resetSlots 1 1).run slotZeroOfOne = .ok ret t ∧ Resets slotZeroOfOne 1 1 ret t := by
  rintro ⟨ret, t, hok, -⟩
  exact resetSlots_ne_ok Int.one_pos ret hok

/-! ## Setting a range -/

/-- The slots from `start` to `stop` are added to the server. -/
structure SetsRange (m : PpMaster) (id start stop : ℤ) (t : PpMaster) : Prop where
  slots : ∀ slot : ℕ, (t.slotsOf id).getLsbD slot = true ↔
    (m.slotsOf id).getLsbD slot = true ∨ (start ≤ slot ∧ (slot : ℤ) < stop)
  others : ∀ other, other ≠ id → t.slotsOf other = m.slotsOf other

/-- The mask fits an `int`, or the slots that its sign bit adds are there. -/
def RangeFits (m : PpMaster) (id start stop : ℤ) : Prop :=
  stop ≤ 31 ∧ stop - start ≤ 30 ∨
    stop = 32 ∧ 2 ≤ start ∧ start < 32 ∧
      ∀ slot : ℕ, 32 ≤ slot → slot < 64 → (m.slotsOf id).getLsbD slot = true

theorem maskDefined_of_ok (hok : (rangeSetSlots id start stop).run m = .ok () t) :
    MaskDefined start stop := by
  by_contra hundefined
  have hnone := rangeSetSlots_undefined hundefined m id
  rw [hok] at hnone
  cases hnone

/-- The call sets the slots from `start` to `stop` exactly when the range
fits. -/
theorem setsRange_iff_fits (hstart : 0 ≤ start) (hle : start ≤ stop) (m : PpMaster) (id : ℤ) :
    (∃ t, (rangeSetSlots id start stop).run m = .ok () t ∧ SetsRange m id start stop t) ↔
      m.RangeFits id start stop := by
  constructor
  · rintro ⟨t, hok, hsets⟩
    have hdefined := maskDefined_of_ok hok
    obtain ⟨r, hr, -, -, hbits⟩ := rangeSetSlots_run hdefined m id
    obtain rfl : r = t := by
      rw [hok] at hr
      cases hr
      rfl
    obtain ⟨-, hstart, -, hstop, hwidth⟩ := hdefined
    by_cases hsign : stop = 32
    · refine .inr ⟨hsign, by omega, hstart, fun slot hlow hhigh ↦ ?_⟩
      -- the sign bit sets slots 32 to 63 as well
      have hbit := (hbits slot).mpr (.inr (by rw [maskEnd, if_pos hsign]; omega))
      rcases (hsets.slots slot).mp hbit with hold | hrange
      · exact hold
      · omega
    · exact .inl ⟨by omega, hwidth⟩
  · intro hfits
    have hdefined : MaskDefined start stop := by
      rw [MaskDefined]
      rcases hfits with hfits | hfits <;> omega
    obtain ⟨t, ht, -, hothers, hbits⟩ := rangeSetSlots_run hdefined m id
    refine ⟨t, ht, fun slot ↦ ?_, hothers⟩
    rw [hbits slot, maskEnd]
    rcases hfits with ⟨hshort, -⟩ | ⟨hsign, -, -, hheld⟩
    · rw [if_neg (by omega)]
    · rw [if_pos hsign]
      refine ⟨fun hbit ↦ ?_, fun hbit ↦ hbit.imp_right fun hrange ↦ by omega⟩
      rcases hbit with hold | ⟨hlow, hhigh⟩
      · exact .inl hold
      · by_cases hslot : slot < 32
        · exact .inr ⟨hlow, by omega⟩
        · exact .inl (hheld slot (by omega) (by omega))

/-- Eight slots of a server that has slot 0. -/
theorem setsRange_iff_fits_eight : ∃ t, (rangeSetSlots 1 8 16).run slotZeroOfOne = .ok () t ∧
    SetsRange slotZeroOfOne 1 8 16 t := by
  apply (setsRange_iff_fits _ _ slotZeroOfOne 1).mpr
  · exact .inl (by norm_num)
  · norm_num
  · norm_num

/-- A range of 32 slots shifts by the width of an `int`, and one that ends at
slot 31 sets the slots up to 63. -/
theorem not_setsRange_slotZeroOfOne :
    (¬ ∃ t, (rangeSetSlots 1 0 32).run slotZeroOfOne = .ok () t ∧
      SetsRange slotZeroOfOne 1 0 32 t) ∧
    ∃ t, (rangeSetSlots 1 16 32).run slotZeroOfOne = .ok () t ∧
      (t.slotsOf 1).getLsbD 63 = true ∧ ¬ SetsRange slotZeroOfOne 1 16 32 t := by
  constructor
  · rintro ⟨t, hok, -⟩
    have hdefined := maskDefined_of_ok hok
    rw [MaskDefined] at hdefined
    omega
  · have hdefined : MaskDefined 16 32 := by
      rw [MaskDefined]
      omega
    obtain ⟨t, ht, -, -, hbits⟩ := rangeSetSlots_run hdefined slotZeroOfOne 1
    have hbit : (t.slotsOf 1).getLsbD 63 = true := (hbits 63).mpr (.inr (by norm_num [maskEnd]))
    refine ⟨t, ht, hbit, fun hsets ↦ ?_⟩
    rcases (hsets.slots 63).mp hbit with hold | hrange
    · have hslots : slotZeroOfOne.slotsOf 1 = BitVec.ofNat SLOTS_NUM 1 := rfl
      rw [hslots, BitVec.getLsbD_one] at hold
      norm_num at hold
    · norm_num at hrange

end PpDSCache.Master.PpMaster
