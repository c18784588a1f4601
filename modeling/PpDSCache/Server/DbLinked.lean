import PpDSCache.Cpp.IndexedNodes
import PpDSCache.Server.Db

/-!
# Well-linked stores

The three containers of a store hold the same keys, and the iterators of an
entry designate the cells of its own key.  On a well-linked store reading,
deleting and overwriting run to completion and keep it well linked.
-/

namespace PpDSCache.Server.Db

open Cpp

structure Linked (d : Db) : Prop where
  nodup : d.lruList.values.Nodup
  mem_lruList : ∀ k, k ∈ d.lruList.values ↔ (d.map k).isSome
  listItor : ∀ k e, d.map k = some e → d.lruList.deref e.listItor = some k
  slotItor : ∀ k e, d.map k = some e → ∃ slot, d.slotToKey.deref e.slotItor = some (slot, k)
  slot_nodup : (d.slotToKey.values.map Prod.snd).Nodup
  mem_slotToKey : ∀ k, k ∈ d.slotToKey.values.map Prod.snd ↔ (d.map k).isSome

theorem linked_empty (maxSize : ℤ) : (empty maxSize).Linked where
  nodup := List.nodup_nil
  mem_lruList := by simp [empty]
  listItor := by simp [empty]
  slotItor := by simp [empty]
  slot_nodup := by simp [empty]
  mem_slotToKey := by simp [empty]

/-- The key's entry after a hit: a fresh front cell of `lruList`. -/
def moveToFront (d : Db) (key : Text) (e : MapValue) : Db :=
  { d with
    lruList := (d.lruList.unlink e.listItor).pushFront key
    map := Function.update d.map key (some { e with
      listItor := ((d.lruList.unlink e.listItor).pushFront key).begin }) }

def remove (d : Db) (key : Text) (e : MapValue) : Db :=
  { d with
    lruList := d.lruList.unlink e.listItor
    map := Function.update d.map key none
    slotToKey := d.slotToKey.unlink e.slotItor }

/-! ## No operation raises an exception -/

theorem noThrow_mapPut (key : Text) (e : MapValue) : (mapPut key e).NoThrow :=
  Code.noThrow_modify _

theorem noThrow_mapIndex (key : Text) : (mapIndex key).NoThrow := by
  refine Code.noThrow_get.bind fun d ↦ ?_
  cases d.map key with
  | none => exact (Code.noThrow_modify _).bind fun _ ↦ Code.noThrow_pure _
  | some e => exact Code.noThrow_pure _

theorem noThrow_evictBack : evictBack.NoThrow :=
  (Nodes.noThrow_callBack _).bind fun _ ↦ (noThrow_mapIndex _).bind fun _ ↦
    (Nodes.noThrow_callBack _).bind fun _ ↦ (Code.noThrow_modify _).bind fun _ ↦
    (Nodes.noThrow_callErase _ _ _).bind fun _ ↦ Nodes.noThrow_callPopBack _ _

theorem noThrow_getKV (key : Text) : (getKV key).NoThrow := by
  refine Code.noThrow_get.bind fun d ↦ ?_
  cases d.find key with
  | none => exact Code.noThrow_pure _
  | some p =>
      exact (Nodes.noThrow_callErase _ _ _).bind fun _ ↦
        (Nodes.noThrow_callPushFront _ _ _).bind fun _ ↦
        (Code.noThrow_modify _).bind fun _ ↦ Code.noThrow_pure _

theorem noThrow_delKV (key : Text) : (delKV key).NoThrow := by
  refine Code.noThrow_get.bind fun d ↦ ?_
  cases d.find key with
  | none => exact Code.noThrow_pure _
  | some p =>
      exact (Code.noThrow_modify _).bind fun _ ↦ (Nodes.noThrow_callErase _ _ _).bind fun _ ↦
        (Nodes.noThrow_callErase _ _ _).bind fun _ ↦ Code.noThrow_pure _

/-! ## What each operation does -/

section Runs

variable {d : Db} {key : Text} {e : MapValue}

theorem contain_run (d : Db) (key : Text) :
    (contain key).run d = .ok (d.map key).isSome d := by
  cases h : d.map key <;> simp [contain, find, h]

theorem getKV_miss (h : d.map key = none) : (getKV key).run d = .ok none d := by
  simp [getKV, find, h]

theorem delKV_miss (h : d.map key = none) : (delKV key).run d = .ok false d := by
  simp [delKV, find, h]

/-- A hit either completes or trips over a stale list iterator. -/
theorem getKV_found (h : d.map key = some e) :
    (getKV key).run d = .ok (some e.value) (d.moveToFront key e) ∨
      ¬ d.Linked ∧ ∃ u t, (getKV key).run d = .error (.undefined u) t := by
  cases hlist : d.lruList.deref e.listItor with
  | none =>
      refine .inr ⟨fun hd ↦ by simp [hd.listItor key e h] at hlist, .danglingIterator, d, ?_⟩
      simp [getKV, find, h, lruErase, Nodes.callErase_run_none putLruList hlist]
  | some a =>
      left
      simp [getKV, find, h, lruErase, Nodes.callErase_run putLruList hlist, lruPushFront,
        putLruList, mapPut, moveToFront]

theorem setKV_found (h : d.map key = some e) (value : Text) (slot : ℤ) :
    (setKV key value slot).run d = .ok true (d.moveToFront key { e with value := value }) ∨
      ¬ d.Linked ∧ ∃ u t, (setKV key value slot).run d = .error (.undefined u) t := by
  cases hlist : d.lruList.deref e.listItor with
  | none =>
      refine .inr ⟨fun hd ↦ by simp [hd.listItor key e h] at hlist, .danglingIterator,
        { d with map := Function.update d.map key (some { e with value := value }) }, ?_⟩
      simp [setKV, find, h, mapPut, lruErase, Nodes.callErase, Nodes.erase_of_deref_none hlist]
  | some a =>
      left
      simp [setKV, find, h, mapPut, lruErase, Nodes.callErase, Nodes.erase_of_deref hlist,
        lruPushFront, putLruList, moveToFront]

theorem delKV_found (h : d.map key = some e) :
    (delKV key).run d = .ok true (d.remove key e) ∨
      ¬ d.Linked ∧ ∃ u t, (delKV key).run d = .error (.undefined u) t := by
  cases hlist : d.lruList.deref e.listItor with
  | none =>
      refine .inr ⟨fun hd ↦ by simp [hd.listItor key e h] at hlist, .danglingIterator,
        { d with map := Function.update d.map key none }, ?_⟩
      simp [delKV, find, h, mapErase, lruErase, Nodes.callErase, Nodes.erase_of_deref_none hlist]
  | some a =>
      cases hslot : d.slotToKey.deref e.slotItor with
      | none =>
          refine .inr ⟨fun hd ↦ ?_, .danglingIterator,
            { d with
              lruList := d.lruList.unlink e.listItor
              map := Function.update d.map key none }, ?_⟩
          · obtain ⟨slot, hs⟩ := hd.slotItor key e h
            simp [hs] at hslot
          · simp [delKV, find, h, mapErase, lruErase, putLruList, slotErase, Nodes.callErase,
              Nodes.erase_of_deref hlist, Nodes.erase_of_deref_none hslot]
      | some p =>
          left
          simp [delKV, find, h, mapErase, lruErase, putLruList, slotErase, Nodes.callErase,
            Nodes.erase_of_deref hlist, Nodes.erase_of_deref hslot, remove]

theorem getKV_hit (hd : d.Linked) (h : d.map key = some e) :
    (getKV key).run d = .ok (some e.value) (d.moveToFront key e) :=
  (getKV_found h).resolve_right fun hno ↦ hno.1 hd

theorem setKV_hit (hd : d.Linked) (h : d.map key = some e) (value : Text) (slot : ℤ) :
    (setKV key value slot).run d = .ok true (d.moveToFront key { e with value := value }) :=
  (setKV_found h value slot).resolve_right fun hno ↦ hno.1 hd

theorem delKV_hit (hd : d.Linked) (h : d.map key = some e) :
    (delKV key).run d = .ok true (d.remove key e) :=
  (delKV_found h).resolve_right fun hno ↦ hno.1 hd

/-- Adding a key never completes: the insert branch reads through the
past-the-end iterator of the failed `find`. -/
theorem setKV_miss (h : d.map key = none) (value : Text) (slot : ℤ) :
    ∃ u t, (setKV key value slot).run d = .error (.undefined u) t := by
  by_cases hsize : d.isOverSize = true
  · cases hevict : evictBack.run d with
    | ok a t => exact ⟨.endDereference, t, by simp [setKV, find, h, hsize, hevict, keyOf]⟩
    | error f t =>
        cases f with
        | thrown e => exact absurd hevict (noThrow_evictBack d e t)
        | undefined u => exact ⟨u, t, by simp [setKV, find, h, hsize, hevict]⟩
  · exact ⟨.endDereference, d, by simp [setKV, find, h, hsize, keyOf]⟩

theorem noThrow_setKV (key value : Text) (slot : ℤ) : (setKV key value slot).NoThrow := by
  intro d f t hrun
  cases hkey : d.map key with
  | none =>
      obtain ⟨u, t', hmiss⟩ := setKV_miss hkey value slot
      simp [hmiss] at hrun
  | some e =>
      have hhit : (setKV key value slot).run d = (do
          mapPut key { e with value := value }
          lruErase e.listItor
          let front ← lruPushFront key
          mapPut key { e with listItor := front, value := value }
          pure true : Code Db Bool).run d := by
        simp [setKV, find, hkey]
      have hno := (noThrow_mapPut key { e with value := value }).bind fun _ ↦
        (Nodes.noThrow_callErase lruList putLruList e.listItor).bind fun _ ↦
          (Nodes.noThrow_callPushFront lruList putLruList key).bind fun front ↦
          (noThrow_mapPut key { e with listItor := front, value := value }).bind fun _ ↦
            Code.noThrow_pure true
      exact hno d f t (hhit.symm.trans hrun)

/-- Every `int` outside the range becomes a position the bit set refuses. -/
theorem testSlot_run (d : Db) {slot : ℤ} (h : slot.natAbs ≤ 2 ^ 31) :
    (testSlot slot).run d =
      if 0 ≤ slot ∧ slot < SLOTS_NUM then .ok (d.slots.getLsbD slot.toNat) d
      else .error (.thrown .outOfRange) d := by
  by_cases hrange : 0 ≤ slot ∧ slot < SLOTS_NUM
  · have hpos : slot % 2 ^ 64 = slot := Int.emod_eq_of_lt hrange.1 (by omega)
    have hlt : slot.toNat < SLOTS_NUM := by omega
    simp only [testSlot, hpos, if_pos hlt, if_pos hrange]
    rfl
  · have hge : ¬ (slot % 2 ^ 64).toNat < SLOTS_NUM := by
      simp only [SLOTS_NUM] at hrange ⊢
      omega
    simp only [testSlot, if_neg hge, if_neg hrange, Code.run_raise]

end Runs

/-! ## The links survive -/

namespace Linked

variable {d : Db} {key : Text} {e : MapValue}

theorem indexed_lruList (hd : d.Linked) : Indexed id d.lruList d.map MapValue.listItor where
  nodup := by simpa using hd.nodup
  mem := by simpa using hd.mem_lruList
  deref := fun k e h ↦ ⟨k, hd.listItor k e h, rfl⟩

theorem indexed_slotToKey (hd : d.Linked) :
    Indexed Prod.snd d.slotToKey d.map MapValue.slotItor where
  nodup := hd.slot_nodup
  mem := hd.mem_slotToKey
  deref := by
    intro k e h
    obtain ⟨slot, hslot⟩ := hd.slotItor k e h
    exact ⟨(slot, k), hslot, rfl⟩

theorem of_indexed (hlist : Indexed id d.lruList d.map MapValue.listItor)
    (hslot : Indexed Prod.snd d.slotToKey d.map MapValue.slotItor) : d.Linked where
  nodup := by simpa using hlist.nodup
  mem_lruList := by simpa using hlist.mem
  listItor := by
    intro k e h
    obtain ⟨a, ha, rfl⟩ := hlist.deref k e h
    exact ha
  slotItor := by
    intro k e h
    obtain ⟨⟨slot, a⟩, ha, rfl⟩ := hslot.deref k e h
    exact ⟨slot, ha⟩
  slot_nodup := hslot.nodup
  mem_slotToKey := hslot.mem

theorem values_lruList_unlink (hd : d.Linked) (h : d.map key = some e) :
    (d.lruList.unlink e.listItor).values = d.lruList.values.filter (· ≠ key) := by
  simpa using hd.indexed_lruList.values_unlink h

theorem moveToFront (hd : d.Linked) (h : d.map key = some e) (value : Text) :
    (d.moveToFront key { e with value := value }).Linked :=
  of_indexed (hd.indexed_lruList.moveToFront h rfl rfl) (hd.indexed_slotToKey.replace h rfl)

theorem remove (hd : d.Linked) (h : d.map key = some e) : (d.remove key e).Linked :=
  of_indexed (hd.indexed_lruList.remove h) (hd.indexed_slotToKey.remove h)

end Linked

/-! ## What a read leaves alone -/

/-- Two stores that differ in recency at most. -/
structure SameButOrder (d t : Db) : Prop where
  slotsNum : t.slotsNum = d.slotsNum
  slots : t.slots = d.slots
  maxSize : t.maxSize = d.maxSize
  slotToKey : t.slotToKey = d.slotToKey
  entry : ∀ k, (t.map k).map (fun e ↦ (e.slotItor, e.value)) =
    (d.map k).map fun e ↦ (e.slotItor, e.value)
  order : d.Linked → t.Linked ∧ t.lruList.values.Perm d.lruList.values

theorem sameButOrder_moveToFront {d : Db} {key : Text} {e : MapValue}
    (h : d.map key = some e) : d.SameButOrder (d.moveToFront key e) where
  slotsNum := rfl
  slots := rfl
  maxSize := rfl
  slotToKey := rfl
  entry := by
    intro k
    by_cases hk : k = key
    · simp [moveToFront, hk, h]
    · simp [moveToFront, hk]
  order := by
    intro hd
    have hlinked : (d.moveToFront key e).Linked := hd.moveToFront h e.value
    refine ⟨hlinked, (List.perm_ext_iff_of_nodup hlinked.nodup hd.nodup).mpr fun k ↦ ?_⟩
    rw [hlinked.mem_lruList, hd.mem_lruList]
    by_cases hk : k = key
    · simp [moveToFront, hk, h]
    · simp [moveToFront, hk]

/-! ## Stores with few keys -/

/-- A further key in front of the others, as an insertion is meant to leave
it. -/
def add (d : Db) (key value : Text) (slot : ℤ) : Db :=
  { d with
    lruList := d.lruList.pushFront key
    map := Function.update d.map key
      (some ⟨.node d.lruList.fresh, .node d.slotToKey.fresh, value⟩)
    slotToKey := d.slotToKey.insertUpper Prod.fst (slot, key) }

theorem Linked.add {d : Db} {key : Text} (hd : d.Linked) (h : d.map key = none) (value : Text)
    (slot : ℤ) : (d.add key value slot).Linked :=
  of_indexed (hd.indexed_lruList.insert h (List.Perm.refl _) rfl)
    (hd.indexed_slotToKey.insert h (Nodes.cells_insertUpper ..) rfl)

def single (maxSize : ℤ) (slots : SlotSet) (key value : Text) (slot : ℤ) : Db where
  slotsNum := 0
  slots := slots
  maxSize := maxSize
  lruList := Nodes.empty.pushFront key
  map := Function.update (fun _ ↦ none) key (some ⟨.node 0, .node 0, value⟩)
  slotToKey := Nodes.empty.insertUpper Prod.fst (slot, key)

theorem linked_single (maxSize : ℤ) (slots : SlotSet) (key value : Text) (slot : ℤ) :
    (single maxSize slots key value slot).Linked := by
  have hempty : { empty maxSize with slots := slots }.Linked := { linked_empty maxSize with }
  exact hempty.add rfl value slot

end PpDSCache.Server.Db
