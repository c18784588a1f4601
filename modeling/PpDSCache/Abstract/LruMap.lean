import Mathlib.Data.List.Nodup
import Mathlib.Tactic

/-!
# Bounded maps with least-recently-used eviction

`order` lists the held keys, most recently used first.  Reading or writing a
held key moves it to the front; writing an absent key into a full map first
drops the key at the back.
-/

namespace PpDSCache.Abstract

structure LruMap (K V : Type) where
  capacity : ℕ
  order : List K
  value : K → Option V
  nodup : order.Nodup
  mem_order : ∀ k, k ∈ order ↔ (value k).isSome

namespace LruMap

variable {K V : Type} [DecidableEq K]

def empty (capacity : ℕ) : LruMap K V := ⟨capacity, [], fun _ ↦ none, by simp, by simp⟩

def del (m : LruMap K V) (k : K) : LruMap K V where
  capacity := m.capacity
  order := m.order.filter (· ≠ k)
  value := Function.update m.value k none
  nodup := m.nodup.filter _
  mem_order := by
    intro j
    by_cases hj : j = k
    · simp [hj]
    · simp [hj, m.mem_order]

def put (m : LruMap K V) (k : K) (v : V) : LruMap K V where
  capacity := m.capacity
  order := k :: m.order.filter (· ≠ k)
  value := Function.update m.value k (some v)
  nodup := List.nodup_cons.mpr ⟨by simp, m.nodup.filter _⟩
  mem_order := by
    intro j
    by_cases hj : j = k
    · simp [hj]
    · simp [hj, m.mem_order]

theorem length_put_order (m : LruMap K V) {k : K} (h : k ∈ m.order) (v : V) :
    (m.put k v).order.length = m.order.length := by
  have hperm : (m.put k v).order.Perm m.order := by
    refine (List.perm_ext_iff_of_nodup (m.put k v).nodup m.nodup).mpr fun j ↦ ?_
    by_cases hj : j = k
    · simp [put, hj, h]
    · simp [put, hj]
  exact hperm.length_eq

/-- Make room: a full map gives up its least recently used key. -/
def evict (m : LruMap K V) : LruMap K V :=
  match m.order.getLast? with
  | some k => if m.capacity ≤ m.order.length then m.del k else m
  | none => m

inductive Op (K V : Type) where
  | contain (k : K)
  | get (k : K)
  | set (k : K) (v : V)
  | del (k : K)

inductive Answer (V : Type) where
  | done (b : Bool)
  | found (v : Option V)
  deriving DecidableEq

def step (op : Op K V) (m : LruMap K V) : Answer V × LruMap K V :=
  match op with
  | .contain k => (.done (m.value k).isSome, m)
  | .get k =>
      match m.value k with
      | none => (.found none, m)
      | some v => (.found (some v), m.put k v)
  | .set k v =>
      match m.value k with
      | none => (.done true, m.evict.put k v)
      | some _ => (.done true, m.put k v)
  | .del k =>
      match m.value k with
      | none => (.done false, m)
      | some _ => (.done true, m.del k)

end LruMap

end PpDSCache.Abstract
