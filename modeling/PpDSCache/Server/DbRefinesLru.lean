import PpDSCache.Abstract.LruMap
import PpDSCache.Abstract.Simulation
import PpDSCache.Server.DbLinked

/-!
# The store against a bounded LRU map

A well-linked store shows an LRU map: `lruList` is the recency order and
`map` holds the values.  Calls that hit, and calls that miss without adding a
key, follow the LRU map step by step; adding a key is undefined.
-/

namespace PpDSCache.Server.Db

open Cpp Abstract
open Abstract.LruMap (Op Answer)

namespace Call

/-- The LRU operation a call stands for; the slot plays no part in it. -/
def op : Call → Op Text Text
  | contain key => .contain key
  | getKV key => .get key
  | setKV key value _ => .set key value
  | delKV key => .del key

def exec (c : Call) (d : Db) : Option (Answer Text × Db) :=
  match c with
  | contain key => completed Answer.done ((Db.contain key).run d)
  | getKV key => completed Answer.found ((Db.getKV key).run d)
  | setKV key value slot => completed Answer.done ((Db.setKV key value slot).run d)
  | delKV key => completed Answer.done ((Db.delKV key).run d)
where
  completed {α : Type} (answer : α → Answer Text) :
      EStateM.Result Fault Db α → Option (Answer Text × Db)
    | .ok a t => some (answer a, t)
    | .error _ _ => none

def isSetKV : Call → Bool
  | setKV _ _ _ => true
  | _ => false

def Overwrites (c : Call) (m : Abstract.LruMap Text Text) : Prop :=
  match c with
  | setKV key _ _ => key ∈ m.order
  | _ => True

end Call

structure Shows (d : Db) (m : Abstract.LruMap Text Text) : Prop where
  linked : d.Linked
  capacity : m.capacity = d.maxSize.toNat
  order : d.lruList.values = m.order
  value : ∀ k, (d.map k).map MapValue.value = m.value k

/-- The store answers every call of the list as the LRU map does, without an
undefined step, and shows it before and after each call. -/
def TracksLru (d : Db) (m : Abstract.LruMap Text Text) (calls : List Call) : Prop :=
  Tracks Call.exec (fun c ↦ Abstract.LruMap.step c.op) Shows d m calls

abbrev LinkedDb := { d : Db // d.Linked }

def toLru (d : LinkedDb) : Abstract.LruMap Text Text where
  capacity := d.1.maxSize.toNat
  order := d.1.lruList.values
  value := fun k ↦ (d.1.map k).map MapValue.value
  nodup := d.2.nodup
  mem_order := by simpa using d.2.mem_lruList

theorem shows_toLru (d : LinkedDb) : d.1.Shows (toLru d) := ⟨d.2, rfl, rfl, fun _ ↦ rfl⟩

theorem shows_empty (maxSize : ℤ) : (empty maxSize).Shows (Abstract.LruMap.empty maxSize.toNat) :=
  ⟨linked_empty maxSize, rfl, rfl, fun _ ↦ rfl⟩

namespace Shows

variable {d : Db} {m : Abstract.LruMap Text Text} {key : Text}

theorem value_none (hd : d.Shows m) (h : d.map key = none) : m.value key = none := by
  rw [← hd.value key, h]
  rfl

theorem value_some (hd : d.Shows m) {e : MapValue} (h : d.map key = some e) :
    m.value key = some e.value := by
  rw [← hd.value key, h]
  rfl

theorem map_eq_none (hd : d.Shows m) (h : key ∉ m.order) : d.map key = none := by
  have hkey : ¬ (d.map key).isSome := by rwa [← hd.linked.mem_lruList, hd.order]
  simpa using hkey

theorem exists_entry (hd : d.Shows m) (h : key ∈ m.order) : ∃ e, d.map key = some e := by
  have hkey : (d.map key).isSome := by rwa [← hd.linked.mem_lruList, hd.order]
  exact Option.isSome_iff_exists.mp hkey

theorem moveToFront (hd : d.Shows m) {e : MapValue} (h : d.map key = some e) (value : Text) :
    (d.moveToFront key { e with value := value }).Shows (m.put key value) where
  linked := hd.linked.moveToFront h value
  capacity := hd.capacity
  order := by
    rw [Db.moveToFront, Nodes.values_pushFront, hd.linked.values_lruList_unlink h, hd.order]
    rfl
  value := by
    intro k
    by_cases hk : k = key
    · simp [Db.moveToFront, Abstract.LruMap.put, hk]
    · simp [Db.moveToFront, Abstract.LruMap.put, hk, hd.value]

theorem remove (hd : d.Shows m) {e : MapValue} (h : d.map key = some e) :
    (d.remove key e).Shows (m.del key) where
  linked := hd.linked.remove h
  capacity := hd.capacity
  order := by
    rw [Db.remove, hd.linked.values_lruList_unlink h, hd.order]
    rfl
  value := by
    intro k
    by_cases hk : k = key
    · simp [Db.remove, Abstract.LruMap.del, hk]
    · simp [Db.remove, Abstract.LruMap.del, hk, hd.value]

theorem exec (hd : d.Shows m) (c : Call) (hc : c.Overwrites m) :
    ∃ t, c.exec d = some ((Abstract.LruMap.step c.op m).1, t) ∧
      t.Shows (Abstract.LruMap.step c.op m).2 := by
  cases c with
  | contain key =>
      refine ⟨d, ?_, hd⟩
      simp only [Call.exec, contain_run, Call.exec.completed, Call.op, Abstract.LruMap.step,
        ← hd.value, Option.isSome_map]
  | getKV key =>
      cases h : d.map key with
      | none =>
          refine ⟨d, ?_, ?_⟩
          · simp [Call.exec, Call.exec.completed, getKV_miss h, Call.op, Abstract.LruMap.step,
              hd.value_none h]
          · simpa [Call.op, Abstract.LruMap.step, hd.value_none h] using hd
      | some e =>
          refine ⟨d.moveToFront key e, ?_, ?_⟩
          · simp [Call.exec, Call.exec.completed, getKV_hit hd.linked h, Call.op,
              Abstract.LruMap.step, hd.value_some h]
          · simpa [Call.op, Abstract.LruMap.step, hd.value_some h] using hd.moveToFront h e.value
  | setKV key value slot =>
      obtain ⟨e, h⟩ := hd.exists_entry hc
      refine ⟨d.moveToFront key { e with value := value }, ?_, ?_⟩
      · simp [Call.exec, Call.exec.completed, setKV_hit hd.linked h, Call.op, Abstract.LruMap.step,
          hd.value_some h]
      · simpa [Call.op, Abstract.LruMap.step, hd.value_some h] using hd.moveToFront h value
  | delKV key =>
      cases h : d.map key with
      | none =>
          refine ⟨d, ?_, ?_⟩
          · simp [Call.exec, Call.exec.completed, delKV_miss h, Call.op, Abstract.LruMap.step,
              hd.value_none h]
          · simpa [Call.op, Abstract.LruMap.step, hd.value_none h] using hd
      | some e =>
          refine ⟨d.remove key e, ?_, ?_⟩
          · simp [Call.exec, Call.exec.completed, delKV_hit hd.linked h, Call.op,
              Abstract.LruMap.step, hd.value_some h]
          · simpa [Call.op, Abstract.LruMap.step, hd.value_some h] using hd.remove h

theorem exec_eq_none (hd : d.Shows m) (c : Call) (hc : ¬ c.Overwrites m) : c.exec d = none := by
  cases c with
  | setKV key value slot =>
      obtain ⟨u, t, hrun⟩ := setKV_miss (hd.map_eq_none hc) value slot
      simp [Call.exec, Call.exec.completed, hrun]
  | contain key => exact absurd trivial hc
  | getKV key => exact absurd trivial hc
  | delKV key => exact absurd trivial hc

theorem tracksLru_iff (hd : d.Shows m) (calls : List Call) :
    TracksLru d m calls ↔ EachMeets (fun c ↦ Abstract.LruMap.step c.op) Call.Overwrites m calls :=
  tracks_iff_eachMeets (fun c _ _ h hc ↦ h.exec c hc)
    (fun c _ _ _ h hc ht ↦ absurd ht (by simp [h.exec_eq_none c hc])) hd calls

end Shows

/-- From the empty map, meeting a held key at every `setKV` means never
calling it: without a `setKV` the map stays empty. -/
theorem eachMeets_overwrites_empty_iff (capacity : ℕ) (calls : List Call) :
    EachMeets (fun c ↦ Abstract.LruMap.step c.op) Call.Overwrites
        (Abstract.LruMap.empty capacity) calls ↔
      ∀ c ∈ calls, c.isSetKV = false := by
  induction calls with
  | nil => simp [EachMeets]
  | cons c calls ih =>
      have hstep : c.isSetKV = false →
          (Abstract.LruMap.step c.op (Abstract.LruMap.empty capacity)).2 =
            Abstract.LruMap.empty capacity := by
        intro hc
        cases c with
        | setKV key value slot => simp [Call.isSetKV] at hc
        | contain key => rfl
        | getKV key => rfl
        | delKV key => rfl
      have hfirst : c.Overwrites (Abstract.LruMap.empty capacity) ↔ c.isSetKV = false := by
        cases c <;> simp [Call.Overwrites, Call.isSetKV, Abstract.LruMap.empty]
      rw [EachMeets, hfirst, List.forall_mem_cons]
      refine and_congr_right fun hc ↦ ?_
      rw [hstep hc, ih]

/-- An initially empty store behaves as a bounded LRU map along exactly the
call sequences that never call `setKV`; a well-linked store does so along
exactly those whose every `setKV` addresses a key held at that moment. -/
theorem tracksLru_iff_overwrites (maxSize : ℤ) (calls : List Call) :
    (TracksLru (empty maxSize) (Abstract.LruMap.empty maxSize.toNat) calls ↔
        ∀ c ∈ calls, c.isSetKV = false) ∧
      ∀ d : LinkedDb, TracksLru d.1 (toLru d) calls ↔
        EachMeets (fun c ↦ Abstract.LruMap.step c.op) Call.Overwrites (toLru d) calls := by
  refine ⟨?_, fun d ↦ (shows_toLru d).tracksLru_iff calls⟩
  rw [(shows_empty maxSize).tracksLru_iff, eachMeets_overwrites_empty_iff]

/-- The first `setKV` on an empty store is already undefined. -/
theorem not_tracksLru_first_setKV :
    ¬ TracksLru (empty 1) (Abstract.LruMap.empty 1)
      [.setKV (ascii "key00000") (ascii "val00000") 0] := by
  rintro ⟨-, t, ht, -⟩
  rw [(shows_empty 1).exec_eq_none _ (by simp [Call.Overwrites, Abstract.LruMap.empty])] at ht
  exact absurd ht (by simp)

end PpDSCache.Server.Db
