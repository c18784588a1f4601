import PpDSCache.Abstract.Runs
import PpDSCache.Server.Db

/-!
# Handing slots over

When a cluster grows a store gives slots away: `delSlots` installs the smaller
set and leaves in its argument what has to move to another server, which takes
it in with `addSlots`.  The argument comes back as an exclusive or, so it is
right exactly when the store gains nothing.
-/

namespace PpDSCache.Server.Db

open Abstract

/-! ## Moving slots from one store to another -/

/-- The sender gets a new set, and the receiver takes in what comes back in
the argument. -/
def handOver (newSlots : SlotSet) (p : Db × Db) : Db × Db :=
  ((delSlots newSlots p.1).2, addSlots (p.2.slots ||| (delSlots newSlots p.1).1) p.2)

/-- The sender keeps the new set and hands over what it held outside of it. -/
structure HandsOver (newSlots : SlotSet) (p : Db × Db) : Prop where
  kept : (delSlots newSlots p.1).2.slots = newSlots
  handed : slotsIn (delSlots newSlots p.1).1 = slotsIn p.1.slots \ slotsIn newSlots
  owned : slotsIn (delSlots newSlots p.1).1 ⊆ slotsIn p.1.slots
  conserved : slotsIn p.1.slots ∪ slotsIn p.2.slots ⊆
    slotsIn (handOver newSlots p).1.slots ∪ slotsIn (handOver newSlots p).2.slots

theorem slotsIn_delSlots (newSlots : SlotSet) (d : Db) :
    slotsIn (delSlots newSlots d).1 = symmDiff (slotsIn d.slots) (slotsIn newSlots) :=
  slotsIn_xor ..

/-- Whatever the new set is, no slot is lost. -/
theorem conserved_handOver (newSlots : SlotSet) (p : Db × Db) :
    slotsIn p.1.slots ∪ slotsIn p.2.slots ⊆
      slotsIn (handOver newSlots p).1.slots ∪ slotsIn (handOver newSlots p).2.slots := by
  intro slot hslot
  have hsender : (handOver newSlots p).1.slots = newSlots := rfl
  have hreceiver : slotsIn (handOver newSlots p).2.slots =
      slotsIn p.2.slots ∪ symmDiff (slotsIn p.1.slots) (slotsIn newSlots) := by
    rw [← slotsIn_delSlots, ← slotsIn_or]
    rfl
  rw [hsender, hreceiver]
  by_cases hnew : slot ∈ slotsIn newSlots
  · exact Finset.mem_union_left _ hnew
  · apply Finset.mem_union_right
    rw [Finset.mem_union, Finset.mem_symmDiff]
    rcases Finset.mem_union.mp hslot with hold | hother
    · exact .inr (.inl ⟨hold, hnew⟩)
    · exact .inl hother

theorem symmDiff_eq_sdiff_iff {α : Type*} [DecidableEq α] {s t : Finset α} :
    symmDiff s t = s \ t ↔ t ⊆ s := by
  refine ⟨fun h a ha ↦ ?_, symmDiff_of_ge⟩
  by_contra hs
  have hmem : a ∈ s \ t := h ▸ Finset.mem_symmDiff.mpr (.inr ⟨ha, hs⟩)
  exact hs (Finset.mem_sdiff.mp hmem).1

theorem handsOver_iff (newSlots : SlotSet) (p : Db × Db) :
    HandsOver newSlots p ↔ slotsIn newSlots ⊆ slotsIn p.1.slots := by
  rw [← symmDiff_eq_sdiff_iff, ← slotsIn_delSlots]
  constructor
  · intro h
    exact h.handed
  · intro h
    refine ⟨rfl, h, ?_, conserved_handOver newSlots p⟩
    rw [h]
    exact Finset.sdiff_subset

/-- The two stores after a sequence of hand-overs. -/
def handOverAll (news : List SlotSet) (p : Db × Db) : Db × Db :=
  news.foldl (fun p newSlots ↦ handOver newSlots p) p

theorem conserved_handOverAll (news : List SlotSet) (p : Db × Db) :
    slotsIn p.1.slots ∪ slotsIn p.2.slots ⊆
      slotsIn (handOverAll news p).1.slots ∪ slotsIn (handOverAll news p).2.slots := by
  induction news generalizing p with
  | nil => exact subset_rfl
  | cons newSlots news ih => exact (conserved_handOver newSlots p).trans (ih _)

/-- Every call of the sequence hands over what it should, and in the end no
slot is lost. -/
structure HandsOverAll (news : List SlotSet) (p : Db × Db) : Prop where
  each : EachStep (fun newSlots p ↦ some (handOver newSlots p)) HandsOver news p
  conserved : slotsIn p.1.slots ∪ slotsIn p.2.slots ⊆
    slotsIn (handOverAll news p).1.slots ∪ slotsIn (handOverAll news p).2.slots

/-- A sequence of hand-overs moves what it should exactly when every new set
is part of what the sender holds at that moment. -/
theorem handsOverAll_iff_subset (news : List SlotSet) (sender receiver : Db) :
    HandsOverAll news (sender, receiver) ↔
      EachStep (fun newSlots p ↦ some (handOver newSlots p))
        (fun newSlots p ↦ slotsIn newSlots ⊆ slotsIn p.1.slots) news (sender, receiver) := by
  have hcall : HandsOver = fun newSlots p ↦ slotsIn newSlots ⊆ slotsIn p.1.slots := by
    funext newSlots p
    exact propext (handsOver_iff newSlots p)
  rw [← hcall]
  exact ⟨fun h ↦ h.each, fun h ↦ ⟨h, conserved_handOverAll news _⟩⟩

/-- A sender with slot 0 that is given slot 1 instead hands over slot 1 too. -/
theorem not_handsOverAll_gain :
    1 ∈ slotsIn (delSlots 2 (addSlots 1 (empty 0))).1 ∧
      1 ∉ slotsIn (addSlots 1 (empty 0)).slots ∧
      ¬ HandsOverAll [2] (addSlots 1 (empty 0), empty 0) := by
  have hhanded : 1 ∈ slotsIn (delSlots 2 (addSlots 1 (empty 0))).1 :=
    mem_slotsIn.mpr (by decide +kernel)
  have hheld : 1 ∉ slotsIn (addSlots 1 (empty 0)).slots :=
    fun h ↦ absurd (mem_slotsIn.mp h) (by decide +kernel)
  refine ⟨hhanded, hheld, fun h ↦ ?_⟩
  exact hheld (h.each.1.owned hhanded)

/-! ## The number of slots -/

/-- `slotsNum` is the number of slots the store holds. -/
def CountsSlots (d : Db) : Prop := d.getSlotsNum = (slotsIn d.slots).card

/-- `setSlotNum` takes the width of the bitset, so it is right of a store with
every slot only. -/
theorem countsSlots_setSlotNum_iff (d : Db) :
    (setSlotNum d).CountsSlots ↔ slotsIn d.slots = Finset.range SLOTS_NUM := by
  rw [show (setSlotNum d).CountsSlots ↔ (SLOTS_NUM : ℤ) = (slotsIn d.slots).card from .rfl,
    Nat.cast_inj, eq_comm]
  constructor
  · intro h
    apply Finset.eq_of_subset_of_card_le (Finset.filter_subset _ _)
    rw [Finset.card_range]
    exact h.ge
  · intro h
    rw [h, Finset.card_range]

inductive SlotCall where
  | addSlots (newSlots : SlotSet)
  | delSlots (newSlots : SlotSet)

namespace SlotCall

def newSlots : SlotCall → SlotSet
  | addSlots newSlots => newSlots
  | delSlots newSlots => newSlots

def exec (d : Db) : SlotCall → Db
  | addSlots newSlots => Db.addSlots newSlots d
  | delSlots newSlots => (Db.delSlots newSlots d).2

theorem slots_exec (c : SlotCall) (d : Db) : (c.exec d).slots = c.newSlots := by
  cases c <;> rfl

theorem slotsNum_exec (c : SlotCall) (d : Db) : (c.exec d).slotsNum = d.slotsNum := by
  cases c <;> rfl

theorem slotsNum_foldl (calls : List SlotCall) (d : Db) :
    (calls.foldl exec d).slotsNum = d.slotsNum := by
  induction calls generalizing d with
  | nil => rfl
  | cons c calls ih => rw [List.foldl_cons, ih, slotsNum_exec]

end SlotCall

/-- No call touches the count, so it stays right exactly while every set
passed is empty. -/
theorem countsSlots_iff_all_empty (maxSize : ℤ) (calls : List SlotCall) :
    (∀ pre, pre <+: calls → (pre.foldl SlotCall.exec (empty maxSize)).CountsSlots) ↔
      ∀ c ∈ calls, c.newSlots = 0 := by
  have hcounts (pre : List SlotCall) :
      (pre.foldl SlotCall.exec (empty maxSize)).CountsSlots ↔
        (pre.foldl SlotCall.exec (empty maxSize)).slots = 0 := by
    rw [CountsSlots, getSlotsNum, SlotCall.slotsNum_foldl, ← slotsIn_eq_empty, eq_comm,
      show (empty maxSize).slotsNum = 0 from rfl, Nat.cast_eq_zero, Finset.card_eq_zero]
  simp only [hcounts]
  constructor
  · intro hall c hc
    obtain ⟨before, rest, rfl⟩ := List.append_of_mem hc
    have hpre := hall (before ++ [c]) ⟨rest, by simp⟩
    rwa [List.foldl_append, List.foldl_cons, List.foldl_nil, SlotCall.slots_exec] at hpre
  · intro hempty pre hpre
    rcases List.eq_nil_or_concat pre with rfl | ⟨before, c, rfl⟩
    · rfl
    · rw [List.concat_eq_append, List.foldl_append, List.foldl_cons, List.foldl_nil,
        SlotCall.slots_exec]
      exact hempty c (hpre.subset (by simp))

theorem not_countsSlots_addSlots :
    ([SlotCall.addSlots 1].foldl SlotCall.exec (empty 0)).getSlotsNum = 0 ∧
      0 ∈ slotsIn ([SlotCall.addSlots 1].foldl SlotCall.exec (empty 0)).slots ∧
      ¬ ([SlotCall.addSlots 1].foldl SlotCall.exec (empty 0)).CountsSlots := by
  have hheld : 0 ∈ slotsIn ([SlotCall.addSlots 1].foldl SlotCall.exec (empty 0)).slots :=
    mem_slotsIn.mpr (by decide +kernel)
  refine ⟨rfl, hheld, fun h ↦ ?_⟩
  have hzero : (0 : ℤ) = _ := h
  rw [eq_comm, Nat.cast_eq_zero, Finset.card_eq_zero] at hzero
  rw [hzero] at hheld
  exact Finset.notMem_empty 0 hheld

end PpDSCache.Server.Db
