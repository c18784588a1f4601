import Mathlib.Data.BitVec
import Mathlib.Data.Finset.SymmDiff
import Mathlib.Tactic

/-!
# Sets of slots

The keys of a cluster are spread over hash slots.  A set of slots is a bitset,
at the master and at each server.
-/

namespace PpDSCache

abbrev SLOTS_NUM : ℕ := 16384

abbrev SlotSet := BitVec SLOTS_NUM

def slotsIn (slots : SlotSet) : Finset ℕ :=
  (Finset.range SLOTS_NUM).filter fun slot ↦ slots.getLsbD slot = true

theorem mem_slotsIn {slots : SlotSet} {slot : ℕ} :
    slot ∈ slotsIn slots ↔ slots.getLsbD slot = true := by
  rw [slotsIn, Finset.mem_filter, Finset.mem_range]
  exact and_iff_right_of_imp BitVec.lt_of_getLsbD

@[simp] theorem slotsIn_xor (a b : SlotSet) :
    slotsIn (a ^^^ b) = symmDiff (slotsIn a) (slotsIn b) := by
  ext slot
  simp only [mem_slotsIn, Finset.mem_symmDiff, BitVec.getLsbD_xor]
  cases a.getLsbD slot <;> cases b.getLsbD slot <;> simp

@[simp] theorem slotsIn_or (a b : SlotSet) : slotsIn (a ||| b) = slotsIn a ∪ slotsIn b := by
  ext slot
  simp [mem_slotsIn]

theorem slotsIn_eq_empty {slots : SlotSet} : slotsIn slots = ∅ ↔ slots = 0 := by
  constructor
  · intro h
    apply BitVec.eq_of_getLsbD_eq
    intro slot _
    have hnot : slot ∉ slotsIn slots := by simp [h]
    simpa [mem_slotsIn] using hnot
  · rintro rfl
    ext slot
    simp [mem_slotsIn]

end PpDSCache
