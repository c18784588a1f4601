import PpDSCache.Abstract.Runs
import PpDSCache.Server.DbRefinesLru

/-!
# Slots and the keys held under them

A store owns a set of hash slots and lists every key under its slot.  It is
slot-consistent when it is well linked and owns the slot of every key it
holds.  The operations on keys keep that; handing the store a new set of slots
keeps it only when the new set still has the slot of every held key.
-/

namespace PpDSCache.Server.Db

open Cpp Abstract

/-- A slot number whose bit is set. -/
def Contains (slots : SlotSet) (slot : ℤ) : Prop :=
  0 ≤ slot ∧ slots.getLsbD slot.toNat = true

instance (slots : SlotSet) (slot : ℤ) : Decidable (Contains slots slot) :=
  inferInstanceAs (Decidable (_ ∧ _))

/-- For every `int` this is what `testSlot` reports as held. -/
theorem contains_iff_testSlot {d : Db} {slot : ℤ} (h : slot.natAbs ≤ 2 ^ 31) :
    Contains d.slots slot ↔ (testSlot slot).run d = .ok true d := by
  rw [testSlot_run d h]
  by_cases hrange : 0 ≤ slot ∧ slot < SLOTS_NUM
  · rw [if_pos hrange]
    simp [Contains, hrange.1]
  · have hnot : ¬ Contains d.slots slot := by
      rintro ⟨hpos, hbit⟩
      exact hrange ⟨hpos, by have := BitVec.lt_of_getLsbD hbit; omega⟩
    rw [if_neg hrange]
    simp [hnot]

/-- The set has the slot of every key the store lists. -/
def CoversHeld (d : Db) (slots : SlotSet) : Prop :=
  ∀ p ∈ d.slotToKey.values, Contains slots p.1

structure SlotConsistent (d : Db) : Prop where
  linked : d.Linked
  covers : d.CoversHeld d.slots

inductive SlotOp where
  | call (c : Call)
  | addSlots (newSlots : SlotSet)
  | delSlots (newSlots : SlotSet)

namespace SlotOp

def exec (op : SlotOp) (d : Db) : Option Db :=
  match op with
  | call c => (c.exec d).map Prod.snd
  | addSlots newSlots => some (Db.addSlots newSlots d)
  | delSlots newSlots => some (Db.delSlots newSlots d).2

/-- A `setKV` overwrites a held key and comes with a slot the store owns. -/
def Admitted (op : SlotOp) (d : Db) : Prop :=
  match op with
  | call (.setKV key _ slot) => (d.map key).isSome ∧ Contains d.slots slot
  | _ => True

/-- The slot set handed over, if any, still has the slot of every held key. -/
def KeepsHeld (op : SlotOp) (d : Db) : Prop :=
  match op with
  | call _ => True
  | addSlots newSlots => d.CoversHeld newSlots
  | delSlots newSlots => d.CoversHeld newSlots

/-- The operation completes in a slot-consistent store. -/
def KeepsConsistent (op : SlotOp) (d : Db) : Prop :=
  ∃ t, op.exec d = some t ∧ t.SlotConsistent

end SlotOp

theorem slotConsistent_empty (maxSize : ℤ) : (empty maxSize).SlotConsistent :=
  ⟨linked_empty maxSize, by simp [CoversHeld, empty]⟩

section Single

variable {maxSize : ℤ} {slots slots' : SlotSet} {key value : Text} {slot : ℤ}

theorem coversHeld_single :
    (single maxSize slots key value slot).CoversHeld slots' ↔ Contains slots' slot := by
  simp [CoversHeld, single, Nodes.insertUpper, Nodes.upperBound, Nodes.empty, Nodes.values]

theorem slotConsistent_single :
    (single maxSize slots key value slot).SlotConsistent ↔ Contains slots slot :=
  ⟨fun h ↦ coversHeld_single.mp h.covers, fun h ↦ ⟨linked_single .., coversHeld_single.mpr h⟩⟩

end Single

/-- The key is held under slot 0, the only slot the store owns. -/
def oneKey : Db := single 4 1 (ascii "key") (ascii "value") 0

theorem slotConsistent_oneKey : oneKey.SlotConsistent :=
  slotConsistent_single.mpr (by simp [Contains])

/-- Replacing the slots touches no container. -/
theorem Linked.addSlots {d : Db} (hd : d.Linked) (newSlots : SlotSet) :
    (addSlots newSlots d).Linked :=
  ⟨hd.nodup, hd.mem_lruList, hd.listItor, hd.slotItor, hd.slot_nodup, hd.mem_slotToKey⟩

theorem slotConsistent_addSlots {d : Db} (hd : d.Linked) (newSlots : SlotSet) :
    (addSlots newSlots d).SlotConsistent ↔ d.CoversHeld newSlots :=
  ⟨fun h ↦ h.covers, fun h ↦ ⟨hd.addSlots newSlots, h⟩⟩

namespace SlotConsistent

variable {d : Db} {key : Text} {e : MapValue}

theorem moveToFront (hd : d.SlotConsistent) (h : d.map key = some e) (value : Text) :
    (d.moveToFront key { e with value := value }).SlotConsistent :=
  ⟨hd.linked.moveToFront h value, hd.covers⟩

theorem remove (hd : d.SlotConsistent) (h : d.map key = some e) :
    (d.remove key e).SlotConsistent := by
  refine ⟨hd.linked.remove h, ?_⟩
  intro p hp
  apply hd.covers p
  obtain ⟨c, hc, rfl⟩ := List.mem_map.mp hp
  exact List.mem_map_of_mem (List.mem_of_mem_filter hc)

theorem call (hd : d.SlotConsistent) (c : Call) (hc : (SlotOp.call c).Admitted d) :
    (SlotOp.call c).KeepsConsistent d := by
  cases c with
  | contain key =>
      exact ⟨d, by simp [SlotOp.exec, Call.exec, Call.exec.completed, contain_run], hd⟩
  | getKV key =>
      cases h : d.map key with
      | none =>
          exact ⟨d, by simp [SlotOp.exec, Call.exec, Call.exec.completed, getKV_miss h], hd⟩
      | some e =>
          refine ⟨d.moveToFront key e, ?_, hd.moveToFront h e.value⟩
          simp [SlotOp.exec, Call.exec, Call.exec.completed, getKV_hit hd.linked h]
  | setKV key value slot =>
      obtain ⟨e, h⟩ := Option.isSome_iff_exists.mp hc.1
      refine ⟨d.moveToFront key { e with value := value }, ?_, hd.moveToFront h value⟩
      simp [SlotOp.exec, Call.exec, Call.exec.completed, setKV_hit hd.linked h]
  | delKV key =>
      cases h : d.map key with
      | none =>
          exact ⟨d, by simp [SlotOp.exec, Call.exec, Call.exec.completed, delKV_miss h], hd⟩
      | some e =>
          refine ⟨d.remove key e, ?_, hd.remove h⟩
          simp [SlotOp.exec, Call.exec, Call.exec.completed, delKV_hit hd.linked h]

theorem replaced_iff (hd : d.SlotConsistent) (newSlots : SlotSet) :
    (∃ t, some (addSlots newSlots d) = some t ∧ t.SlotConsistent) ↔ d.CoversHeld newSlots := by
  rw [← slotConsistent_addSlots hd.linked]
  simp

theorem keepsConsistent_iff (hd : d.SlotConsistent) {op : SlotOp} (hop : op.Admitted d) :
    op.KeepsConsistent d ↔ op.KeepsHeld d := by
  cases op with
  | call c => exact iff_of_true (hd.call c hop) trivial
  | addSlots newSlots => exact hd.replaced_iff newSlots
  | delSlots newSlots => exact hd.replaced_iff newSlots

end SlotConsistent

/-- An operation on a slot-consistent store leaves it slot-consistent exactly
when it hands over no slot set that misses the slot of a held key, and so does
every run of such operations. -/
theorem keepsConsistent_iff_keepsHeld {d : Db} (hd : d.SlotConsistent) :
    (∀ op : SlotOp, op.Admitted d → (op.KeepsConsistent d ↔ op.KeepsHeld d)) ∧
      ∀ ops : List SlotOp,
        EachStep SlotOp.exec (fun op d ↦ op.Admitted d ∧ op.KeepsHeld d) ops d →
          ∃ t, runAll SlotOp.exec ops d = some t ∧ t.SlotConsistent := by
  refine ⟨fun op hop ↦ hd.keepsConsistent_iff hop, fun ops hops ↦ ?_⟩
  apply exists_runAll _ hd hops
  intro op d hd hop
  exact (hd.keepsConsistent_iff hop.1).mpr hop.2

theorem keepsConsistent_iff_keepsHeld_oneKey :
    oneKey.SlotConsistent ∧
      ∃ t, runAll SlotOp.exec ([.addSlots 3, .call (.getKV (ascii "key"))] : List SlotOp) oneKey =
        some t ∧ t.SlotConsistent := by
  have hcovers : oneKey.CoversHeld 3 := coversHeld_single.mpr (by decide +kernel)
  exact ⟨slotConsistent_oneKey, (keepsConsistent_iff_keepsHeld slotConsistent_oneKey).2 _
    ⟨⟨trivial, hcovers⟩, fun _ _ ↦ ⟨⟨trivial, trivial⟩, fun _ _ ↦ trivial⟩⟩⟩

/-- A store that gives its only slot away keeps the key, and serves the old
value when the slot comes back. -/
theorem not_slotConsistent_delSlots :
    oneKey.SlotConsistent ∧ ¬ (Db.delSlots 0 oneKey).2.SlotConsistent ∧
      ∃ t, (getKV (ascii "key")).run (addSlots 1 (Db.delSlots 0 oneKey).2) =
        .ok (some (ascii "value")) t := by
  refine ⟨slotConsistent_oneKey, ?_, ?_⟩
  · intro h
    exact absurd (coversHeld_single.mp h.covers) (by simp [Contains, delSlots])
  · have hlinked := (slotConsistent_oneKey.linked.addSlots 0).addSlots 1
    exact ⟨_, getKV_hit (e := ⟨.node 0, .node 0, ascii "value"⟩) hlinked
      (by simp [addSlots, delSlots, oneKey, single])⟩

end PpDSCache.Server.Db
