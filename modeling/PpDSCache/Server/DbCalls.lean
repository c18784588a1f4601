import PpDSCache.Server.DbLinked

/-!
# One call on a well-linked store

A call on a held key touches that key only: a read or an overwrite brings it
to the front, a deletion takes it out of all three containers.  An overwrite
leaves the key under the slot it was added with, whatever slot comes with the
call.
-/

namespace PpDSCache.Server.Db

open Cpp

variable {d t : Db} {key value : Text} {slot : ℤ} {e : MapValue}

/-! ## The slot of a key -/

theorem Linked.exists_slot (hd : d.Linked) (h : d.map key = some e) :
    ∃ s, (s, key) ∈ d.slotToKey.values := by
  obtain ⟨s, hs⟩ := hd.slotItor key e h
  exact ⟨s, Nodes.mem_values_of_deref hs⟩

/-- The key is listed under `slot` alone, every other key that is still held
where it was before. -/
structure ListsUnder (d : Db) (key : Text) (slot : ℤ) (t : Db) : Prop where
  own : ∀ s, (s, key) ∈ t.slotToKey.values ↔ s = slot
  others : ∀ k, k ≠ key → (t.map k).isSome →
    ∀ s, (s, k) ∈ t.slotToKey.values ↔ (s, k) ∈ d.slotToKey.values

theorem listsUnder_iff_of_eq (hd : d.Linked) (h : d.map key = some e)
    (ht : t.slotToKey = d.slotToKey) :
    ListsUnder d key slot t ↔ ∀ s, (s, key) ∈ d.slotToKey.values → s = slot := by
  constructor
  · intro hlists s hs
    rw [← ht] at hs
    exact (hlists.own s).mp hs
  · intro hslot
    refine ⟨fun s ↦ ?_, fun k _ _ s ↦ by rw [ht]⟩
    rw [ht]
    refine ⟨hslot s, ?_⟩
    rintro rfl
    obtain ⟨s', hs'⟩ := hd.exists_slot h
    rwa [← hslot s' hs']

/-- A `setKV` that completes lists its key under the slot of the call exactly
when the key was under no other slot before. -/
theorem setKV_listsUnder_iff (hd : d.Linked) (key value : Text) (slot : ℤ) :
    (∀ b t, (setKV key value slot).run d = .ok b t → ListsUnder d key slot t) ↔
      ∀ s, (s, key) ∈ d.slotToKey.values → s = slot := by
  cases h : d.map key with
  | none =>
      obtain ⟨u, r, hmiss⟩ := setKV_miss h value slot
      have hnot : ∀ s, (s, key) ∉ d.slotToKey.values := by
        intro s hs
        have hsome := (hd.mem_slotToKey key).mp (List.mem_map.mpr ⟨(s, key), hs, rfl⟩)
        rw [h] at hsome
        cases hsome
      refine iff_of_true (fun b t hok ↦ ?_) fun s hs ↦ absurd hs (hnot s)
      rw [hmiss] at hok
      cases hok
  | some e =>
      have hrun := setKV_hit hd h value slot
      rw [← listsUnder_iff_of_eq (t := d.moveToFront key { e with value := value }) hd h rfl]
      constructor
      · intro hall
        exact hall true _ hrun
      · intro hlists b t hok
        rw [hrun] at hok
        cases hok
        exact hlists

/-- The store of `SET key value` for slot 7. -/
def underSeven : Db := single 4 0 (ascii "key") (ascii "value") 7

theorem linked_underSeven : underSeven.Linked := linked_single ..

theorem map_underSeven :
    underSeven.map (ascii "key") = some ⟨.node 0, .node 0, ascii "value"⟩ := by
  simp [underSeven, single]

theorem values_underSeven : underSeven.slotToKey.values = [(7, ascii "key")] := rfl

theorem setKV_listsUnder_underSeven :
    ∃ t, (setKV (ascii "key") (ascii "other") 7).run underSeven = .ok true t ∧
      ListsUnder underSeven (ascii "key") 7 t := by
  have hrun := setKV_hit linked_underSeven map_underSeven (ascii "other") 7
  have hslot : ∀ s, (s, ascii "key") ∈ underSeven.slotToKey.values → s = 7 := by
    intro s hs
    rw [values_underSeven, List.mem_singleton] at hs
    exact congrArg Prod.fst hs
  refine ⟨_, hrun, ?_⟩
  apply (setKV_listsUnder_iff linked_underSeven (ascii "key") (ascii "other") 7).mpr hslot
  exact hrun

/-- Overwriting with slot 8 leaves the key under slot 7. -/
theorem not_listsUnder_underSeven : underSeven.Linked ∧
    ∃ t, (setKV (ascii "key") (ascii "other") 8).run underSeven = .ok true t ∧
      t.slotToKey.values = [(7, ascii "key")] ∧ ¬ ListsUnder underSeven (ascii "key") 8 t := by
  refine ⟨linked_underSeven, _, setKV_hit linked_underSeven map_underSeven (ascii "other") 8,
    values_underSeven, fun hlists ↦ ?_⟩
  have hseven : (7, ascii "key") ∈ underSeven.slotToKey.values := by
    rw [values_underSeven]
    exact List.mem_singleton_self _
  have hslot : (7 : ℤ) = 8 := (hlists.own 7).mp hseven
  norm_num at hslot

/-! ## What a call changes -/

/-- The slots and the capacity, which no call on a key changes. -/
structure SameSettings (d t : Db) : Prop where
  slotsNum : t.slotsNum = d.slotsNum
  slots : t.slots = d.slots
  maxSize : t.maxSize = d.maxSize

structure MovedToFront (d : Db) (key : Text) (e : MapValue) (t : Db) : Prop where
  linked : t.Linked
  lruList : t.lruList.values = key :: d.lruList.values.filter (· ≠ key)
  entry : ∃ front, t.map key = some { e with listItor := front }
  others : ∀ k, k ≠ key → t.map k = d.map k
  slotToKey : t.slotToKey = d.slotToKey
  settings : d.SameSettings t

structure Removed (d : Db) (key : Text) (t : Db) : Prop where
  linked : t.Linked
  lruList : t.lruList.values = d.lruList.values.filter (· ≠ key)
  entry : t.map key = none
  others : ∀ k, k ≠ key → t.map k = d.map k
  slotToKey : t.slotToKey.values = d.slotToKey.values.filter (·.2 ≠ key)
  settings : d.SameSettings t

theorem movedToFront (hd : d.Linked) (h : d.map key = some e) (value : Text) :
    MovedToFront d key { e with value := value }
      (d.moveToFront key { e with value := value }) where
  linked := hd.moveToFront h value
  lruList := by
    rw [moveToFront, Nodes.values_pushFront, ← hd.values_lruList_unlink h]
  entry := ⟨_, Function.update_self ..⟩
  others := fun _ hk ↦ Function.update_of_ne hk ..
  slotToKey := rfl
  settings := ⟨rfl, rfl, rfl⟩

theorem removed (hd : d.Linked) (h : d.map key = some e) :
    Removed d key (d.remove key e) where
  linked := hd.remove h
  lruList := hd.values_lruList_unlink h
  entry := Function.update_self ..
  others := fun _ hk ↦ Function.update_of_ne hk ..
  slotToKey := by
    obtain ⟨s, hs⟩ := hd.slotItor key e h
    exact Nodes.values_unlink Prod.snd hd.slot_nodup hs
  settings := ⟨rfl, rfl, rfl⟩

/-- Every call on a well-linked store other than adding a key completes, keeps
the links and changes its own key only. -/
theorem calls_on_linked (hd : d.Linked) (key value : Text) (slot : ℤ) :
    (contain key).run d = .ok (d.map key).isSome d ∧
    (d.map key = none → (getKV key).run d = .ok none d ∧ (delKV key).run d = .ok false d) ∧
    ∀ e, d.map key = some e →
      (∃ t, (getKV key).run d = .ok (some e.value) t ∧ MovedToFront d key e t) ∧
      (∃ t, (setKV key value slot).run d = .ok true t ∧
        MovedToFront d key { e with value := value } t) ∧
      ∃ t, (delKV key).run d = .ok true t ∧ Removed d key t := by
  refine ⟨contain_run d key, fun h ↦ ⟨getKV_miss h, delKV_miss h⟩, fun e h ↦ ⟨?_, ?_, ?_⟩⟩
  · exact ⟨_, getKV_hit hd h, movedToFront hd h e.value⟩
  · exact ⟨_, setKV_hit hd h value slot, movedToFront hd h value⟩
  · exact ⟨_, delKV_hit hd h, removed hd h⟩

/-- Another key, used after the first one. -/
def twoKeys : Db := underSeven.add (ascii "new") (ascii "text") 3

theorem linked_twoKeys : twoKeys.Linked := by
  have hne : ascii "new" ≠ ascii "key" := by decide
  have hnew : underSeven.map (ascii "new") = none := by simp [underSeven, single, hne]
  exact linked_underSeven.add hnew (ascii "text") 3

theorem map_twoKeys : twoKeys.map (ascii "key") = some ⟨.node 0, .node 0, ascii "value"⟩ := by
  have hne : ascii "key" ≠ ascii "new" := by decide
  simp [twoKeys, add, map_underSeven, hne]

/-- A read brings the older key to the front, a deletion leaves the newer one
alone. -/
theorem calls_on_twoKeys :
    ∃ t u, (getKV (ascii "key")).run twoKeys = .ok (some (ascii "value")) t ∧
      t.lruList.values = [ascii "key", ascii "new"] ∧
      t.map (ascii "new") = twoKeys.map (ascii "new") ∧
      (delKV (ascii "key")).run twoKeys = .ok true u ∧
      u.lruList.values = [ascii "new"] ∧ u.slotToKey.values = [(3, ascii "new")] ∧
      u.map (ascii "new") = twoKeys.map (ascii "new") := by
  obtain ⟨⟨t, hget, ht⟩, -, u, hdel, hu⟩ :=
    (calls_on_linked linked_twoKeys (ascii "key") (ascii "other") 8).2.2 _ map_twoKeys
  refine ⟨t, u, hget, ?_, ht.others _ (by decide), hdel, ?_, ?_, hu.others _ (by decide)⟩
  · rw [ht.lruList]
    decide
  · rw [hu.lruList]
    decide
  · rw [hu.slotToKey]
    decide

end PpDSCache.Server.Db
