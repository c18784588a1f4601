import PpDSCache.Server.DbRefinesLru
import PpDSCache.Server.LruMap

/-!
# The map against a bounded LRU map

Looking up, reading and deleting follow the LRU map step by step.  Setting a
key never does: an absent key is undefined at once, and a held key is listed a
second time.
-/

namespace PpDSCache.Server.LruMap

open Cpp Abstract
open Abstract.LruMap (Op Answer)

def Linked (l : LruMap) : Prop := Indexed id l.lruList l.map LruEntry.listItor

theorem linked_empty (maxSize : ℤ) : (empty maxSize).Linked :=
  ⟨by simp [empty], by simp [empty], by simp [empty]⟩

/-! ## What each operation does -/

section Runs

variable {l t : LruMap} {key value : Text} {e : LruEntry} {b : Bool}

theorem contain_run (l : LruMap) (key : Text) :
    (contain key).run l = .ok (l.map key).isSome l := by
  cases h : l.map key <;> simp [contain, find, h]

theorem get_miss (h : l.map key = none) : (LruMap.get key).run l = .ok none l := by
  simp [LruMap.get, find, h]

theorem del_miss (h : l.map key = none) : (del key).run l = .ok false l := by
  simp [del, find, h]

theorem get_hit (hl : l.Linked) (h : l.map key = some e) :
    (LruMap.get key).run l = .ok (some e.value)
      { l with
        lruList := (l.lruList.unlink e.listItor).pushFront key
        map := Function.update l.map key (some
          ⟨((l.lruList.unlink e.listItor).pushFront key).begin, e.value⟩) } := by
  obtain ⟨a, ha, -⟩ := hl.deref key e h
  simp [LruMap.get, find, h, entry, lruErase, Nodes.callErase_run putLruList ha, lruPushFront,
    putLruList, mapPut]

theorem del_hit (hl : l.Linked) (h : l.map key = some e) :
    (del key).run l = .ok true
      { l with
        lruList := l.lruList.unlink e.listItor
        map := Function.update l.map key none } := by
  obtain ⟨a, ha, -⟩ := hl.deref key e h
  simp [del, find, h, entry, mapErase, lruErase, Nodes.callErase, Nodes.erase_of_deref ha,
    putLruList]

theorem set_absent (h : l.map key = none) :
    (LruMap.set key value).run l = .error (.undefined .endDereference) l := by
  simp [LruMap.set, find, h, setInPlace, entry]

/-- Where setting a held key completes, the key is in the list twice: either
the list was not full, or another key was dropped from its back. -/
theorem set_held (hl : l.Linked) (h : l.map key = some e)
    (hrun : (LruMap.set key value).run l = .ok b t) :
    ∃ vs, t.lruList.values = key :: vs ∧ key ∈ vs := by
  have hmem : key ∈ l.lruList.values := by simpa [h] using hl.mem key
  by_cases hsize : l.isOverSize = true
  · cases hback : l.lruList.back with
    | none =>
        simp [LruMap.set, find, h, setNew, hsize, lruBack, Nodes.callBack_run_none hback] at hrun
    | some victim =>
        obtain ⟨n, hn, hkeep⟩ := Nodes.exists_popBack hback
        by_cases hkey : victim = key
        · simp [LruMap.set, find, h, setNew, hsize, lruBack, Nodes.callBack_run hback, mapErase,
            lruPopBack, Nodes.callPopBack, hn, putLruList, entry, hkey] at hrun
        · have hne : key ≠ victim := fun heq ↦ hkey heq.symm
          simp [LruMap.set, find, h, setNew, hsize, lruBack, Nodes.callBack_run hback, mapErase,
            lruPopBack, Nodes.callPopBack, hn, entry, hne, lruPushFront, putLruList,
            mapPut] at hrun
          exact ⟨n.values, by simp [← hrun.2], hkeep key hmem hne⟩
  · simp [LruMap.set, find, h, setNew, hsize, entry, lruPushFront, putLruList, mapPut] at hrun
    exact ⟨l.lruList.values, by simp [← hrun.2], hmem⟩

end Runs

/-! ## Tracking the LRU map -/

def exec (op : Op Text Text) (l : LruMap) : Option (Answer Text × LruMap) :=
  match op with
  | .contain key => completed Answer.done ((contain key).run l)
  | .get key => completed Answer.found ((LruMap.get key).run l)
  | .set key value => completed Answer.done ((LruMap.set key value).run l)
  | .del key => completed Answer.done ((del key).run l)
where
  completed {α : Type} (answer : α → Answer Text) :
      EStateM.Result Fault LruMap α → Option (Answer Text × LruMap)
    | .ok a t => some (answer a, t)
    | .error _ _ => none

structure Shows (l : LruMap) (m : Abstract.LruMap Text Text) : Prop where
  linked : l.Linked
  capacity : m.capacity = l.maxSize.toNat
  room : m.order.length ≤ m.capacity
  order : l.lruList.values = m.order
  value : ∀ k, (l.map k).map LruEntry.value = m.value k

def isSet : Op Text Text → Bool
  | .set _ _ => true
  | _ => false

/-- The call of the store that does the same; the store is also told the slot
of the key. -/
def toDbCall (slotOf : Text → ℤ) : Op Text Text → Db.Call
  | .contain key => .contain key
  | .get key => .getKV key
  | .set key value => .setKV key value (slotOf key)
  | .del key => .delKV key

/-- The map answers the calls as the LRU map `m` does, without an undefined
step, shows it before and after each call, and agrees with the store `d`. -/
def Simulates (l : LruMap) (d : Db) (m : Abstract.LruMap Text Text) (slotOf : Text → ℤ)
    (calls : List (Op Text Text)) : Prop :=
  Tracks exec Abstract.LruMap.step Shows l m calls ∧
    answers exec l calls = answers (fun op d ↦ (toDbCall slotOf op).exec d) d calls

theorem shows_empty (maxSize : ℤ) :
    (empty maxSize).Shows (Abstract.LruMap.empty maxSize.toNat) :=
  ⟨linked_empty maxSize, rfl, Nat.zero_le _, rfl, fun _ ↦ rfl⟩

namespace Shows

variable {l : LruMap} {m : Abstract.LruMap Text Text} {key : Text} {e : LruEntry}

theorem moveToFront (hl : l.Shows m) (h : l.map key = some e) (value : Text) :
    Shows { l with
      lruList := (l.lruList.unlink e.listItor).pushFront key
      map := Function.update l.map key (some
        ⟨((l.lruList.unlink e.listItor).pushFront key).begin, value⟩) } (m.put key value) where
  linked := hl.linked.moveToFront h rfl rfl
  capacity := hl.capacity
  room := by
    have hmem : key ∈ m.order := by
      rw [m.mem_order, ← hl.value key, h]
      rfl
    exact (m.length_put_order hmem value).trans_le hl.room
  order := by
    have hvalues := hl.linked.values_unlink h
    simp only [List.map_id, hl.order] at hvalues
    simp [hvalues, Abstract.LruMap.put]
  value := by
    intro k
    by_cases hk : k = key
    · simp [Abstract.LruMap.put, hk]
    · simp [Abstract.LruMap.put, hk, hl.value]

theorem remove (hl : l.Shows m) (h : l.map key = some e) :
    Shows { l with
      lruList := l.lruList.unlink e.listItor
      map := Function.update l.map key none } (m.del key) where
  linked := hl.linked.remove h
  capacity := hl.capacity
  room := (List.length_filter_le _ _).trans hl.room
  order := by
    have hvalues := hl.linked.values_unlink h
    simp only [List.map_id, hl.order] at hvalues
    simp [hvalues, Abstract.LruMap.del]
  value := by
    intro k
    by_cases hk : k = key
    · simp [Abstract.LruMap.del, hk]
    · simp [Abstract.LruMap.del, hk, hl.value]

theorem exec (hl : l.Shows m) (op : Op Text Text) (hop : isSet op = false) :
    ∃ t, LruMap.exec op l = some ((Abstract.LruMap.step op m).1, t) ∧
      t.Shows (Abstract.LruMap.step op m).2 := by
  cases op with
  | contain key =>
      refine ⟨l, ?_, hl⟩
      simp only [LruMap.exec, contain_run, exec.completed, Abstract.LruMap.step, ← hl.value,
        Option.isSome_map]
  | get key =>
      have hvalue := hl.value key
      cases h : l.map key with
      | none =>
          simp only [h, Option.map_none] at hvalue
          exact ⟨l, by simp [LruMap.exec, exec.completed, get_miss h, Abstract.LruMap.step,
            ← hvalue], by simpa [Abstract.LruMap.step, ← hvalue] using hl⟩
      | some e =>
          simp only [h, Option.map_some] at hvalue
          refine ⟨_, ?_, by simpa [Abstract.LruMap.step, ← hvalue] using hl.moveToFront h e.value⟩
          simp [LruMap.exec, exec.completed, get_hit hl.linked h, Abstract.LruMap.step, ← hvalue]
  | set key value => simp [isSet] at hop
  | del key =>
      have hvalue := hl.value key
      cases h : l.map key with
      | none =>
          simp only [h, Option.map_none] at hvalue
          exact ⟨l, by simp [LruMap.exec, exec.completed, del_miss h, Abstract.LruMap.step,
            ← hvalue], by simpa [Abstract.LruMap.step, ← hvalue] using hl⟩
      | some e =>
          simp only [h, Option.map_some] at hvalue
          refine ⟨_, ?_, by simpa [Abstract.LruMap.step, ← hvalue] using hl.remove h⟩
          simp [LruMap.exec, exec.completed, del_hit hl.linked h, Abstract.LruMap.step, ← hvalue]

/-- Setting a key either fails or leaves the map showing nothing. -/
theorem not_shows_set (hl : l.Shows m) {op : Op Text Text} (hop : isSet op ≠ false)
    {a : Answer Text} {t : LruMap} (ht : LruMap.exec op l = some (a, t))
    (m' : Abstract.LruMap Text Text) : ¬ t.Shows m' := by
  cases op with
  | contain key => exact absurd rfl hop
  | get key => exact absurd rfl hop
  | del key => exact absurd rfl hop
  | set key value =>
      intro hshows
      cases h : l.map key with
      | none => simp [LruMap.exec, exec.completed, set_absent h] at ht
      | some e =>
          cases hrun : (LruMap.set key value).run l with
          | error f s => simp [LruMap.exec, exec.completed, hrun] at ht
          | ok b s =>
              obtain ⟨vs, hvs, hmem⟩ := set_held hl.linked h hrun
              obtain rfl : s = t := by
                simp only [LruMap.exec, exec.completed, hrun, Option.some.injEq,
                  Prod.mk.injEq] at ht
                exact ht.2
              have hnodup := hshows.linked.nodup
              rw [List.map_id, hvs, List.nodup_cons] at hnodup
              exact hnodup.1 hmem

theorem tracks_iff (hl : l.Shows m) (calls : List (Op Text Text)) :
    Tracks LruMap.exec Abstract.LruMap.step Shows l m calls ↔
      ∀ c ∈ calls, isSet c = false :=
  calc
    Tracks LruMap.exec Abstract.LruMap.step Shows l m calls ↔
        EachMeets Abstract.LruMap.step (fun c _ ↦ isSet c = false) m calls :=
      tracks_iff_eachMeets (fun c _ _ h hc ↦ h.exec c hc)
        (fun _ _ _ _ h hc ht ↦ h.not_shows_set hc ht _) hl calls
    _ ↔ ∀ c ∈ calls, isSet c = false := eachMeets_iff_forall calls

end Shows

theorem toDbCall_op (slotOf : Text → ℤ) (op : Op Text Text) : (toDbCall slotOf op).op = op := by
  cases op <;> rfl

/-- Without a set, the store follows the same LRU map. -/
theorem tracks_toDbCall {d : Db} {m : Abstract.LruMap Text Text} (hd : d.Shows m)
    (slotOf : Text → ℤ) {calls : List (Op Text Text)} (hcalls : ∀ c ∈ calls, isSet c = false) :
    Tracks (fun op d ↦ (toDbCall slotOf op).exec d) Abstract.LruMap.step Db.Shows d m calls := by
  refine tracks_of_eachMeets ?_ hd ((eachMeets_iff_forall calls).mpr hcalls)
  intro c d m hd hc
  have hover : (toDbCall slotOf c).Overwrites m := by
    cases c with
    | set key value => simp [isSet] at hc
    | contain key => trivial
    | get key => trivial
    | del key => trivial
  have hstep := hd.exec (toDbCall slotOf c) hover
  rwa [toDbCall_op] at hstep

/-- A map that shows an LRU map, and so the empty one, follows it and agrees
with a store that shows the same along exactly the call sequences that never
set a key. -/
theorem simulates_iff_no_set (slotOf : Text → ℤ) (calls : List (Op Text Text)) :
    (∀ maxSize : ℤ, Simulates (empty maxSize) (Db.empty maxSize)
        (Abstract.LruMap.empty maxSize.toNat) slotOf calls ↔ ∀ c ∈ calls, isSet c = false) ∧
      ∀ l d m, Shows l m → d.Shows m →
        (Simulates l d m slotOf calls ↔ ∀ c ∈ calls, isSet c = false) := by
  have hshows : ∀ l d m, Shows l m → d.Shows m →
      (Simulates l d m slotOf calls ↔ ∀ c ∈ calls, isSet c = false) := by
    intro l d m hl hd
    rw [Simulates, hl.tracks_iff]
    refine and_iff_left_of_imp fun hcalls ↦ ?_
    exact ((hl.tracks_iff calls).mpr hcalls).answers_eq (tracks_toDbCall hd slotOf hcalls)
  exact ⟨fun maxSize ↦ hshows _ _ _ (shows_empty maxSize) (Db.shows_empty maxSize), hshows⟩

/-- A map with one key. -/
def single (maxSize : ℤ) (key value : Text) : LruMap :=
  ⟨maxSize, Nodes.empty.pushFront key, Function.update (fun _ ↦ none) key (some ⟨.node 0, value⟩)⟩

theorem linked_single (maxSize : ℤ) (key value : Text) : (single maxSize key value).Linked :=
  (linked_empty maxSize).insert rfl (List.Perm.refl _) rfl

theorem simulates_iff_no_set_single :
    ∃ m, Simulates (single 4 (ascii "key") (ascii "value"))
      (Db.single 4 0 (ascii "key") (ascii "value") 0) m (fun _ ↦ 0)
      [.contain (ascii "key"), .get (ascii "key"), .del (ascii "key")] := by
  let d : Db.LinkedDb := ⟨_, Db.linked_single 4 0 (ascii "key") (ascii "value") 0⟩
  have hl : (single 4 (ascii "key") (ascii "value")).Shows (Db.toLru d) := by
    refine ⟨linked_single _ _ _, rfl, by decide, rfl, ?_⟩
    intro k
    by_cases hk : k = ascii "key" <;> simp [d, Db.toLru, Db.single, single, hk]
  exact ⟨Db.toLru d,
    ((simulates_iff_no_set _ _).2 _ _ _ hl (Db.shows_toLru d)).mpr (by simp [isSet])⟩

/-- The first set on an empty map reads through the past-the-end iterator. -/
theorem not_simulates_first_set :
    ¬ Simulates (empty 1) (Db.empty 1) (Abstract.LruMap.empty 1) (fun _ ↦ 0)
      [.set (ascii "key") (ascii "value")] := by
  rintro ⟨htracks, -⟩
  exact absurd (((shows_empty 1).tracks_iff _).mp htracks) (by simp [isSet])

end PpDSCache.Server.LruMap
