import Mathlib.Data.List.Nodup
import Mathlib.Data.List.Perm.Basic
import Mathlib.Data.List.TakeWhile
import PpDSCache.Cpp.Code

/-!
# Node-based containers and their iterators

The cells of a `std::list` or a `std::multimap` keep their identity while
others come and go, and an iterator names a cell by that identity.  A fresh
cell never reuses the name of an erased one, so a stale iterator designates
nothing.
-/

namespace PpDSCache.Cpp

inductive Itor where
  | singular
  | node (id : ℕ)
  deriving DecidableEq, Repr

structure Nodes (α : Type) where
  cells : List (ℕ × α)
  fresh : ℕ
  nodup : (cells.map Prod.fst).Nodup
  lt_fresh : ∀ c ∈ cells, c.1 < fresh

namespace Nodes

variable {α : Type}

def empty : Nodes α := ⟨[], 0, by simp, by simp⟩

def values (n : Nodes α) : List α := n.cells.map Prod.snd

def size (n : Nodes α) : ℕ := n.cells.length

def deref (n : Nodes α) : Itor → Option α
  | .singular => none
  | .node i => n.cells.lookup i

theorem fresh_notMem (n : Nodes α) : n.fresh ∉ n.cells.map Prod.fst := by
  intro h
  obtain ⟨c, hc, heq⟩ := List.mem_map.mp h
  exact absurd (n.lt_fresh c hc) (by omega)

def pushFront (n : Nodes α) (a : α) : Nodes α where
  cells := (n.fresh, a) :: n.cells
  fresh := n.fresh + 1
  nodup := List.nodup_cons.mpr ⟨n.fresh_notMem, n.nodup⟩
  lt_fresh := by
    intro c hc
    rcases List.mem_cons.mp hc with rfl | hc
    · exact Nat.lt_succ_self _
    · exact (n.lt_fresh c hc).trans (Nat.lt_succ_self _)

def begin (n : Nodes α) : Itor :=
  match n.cells with
  | [] => .singular
  | c :: _ => .node c.1

/-- Where a sorted container puts a new cell: behind those with equal keys. -/
def upperBound (n : Nodes α) (key : α → ℤ) (a : α) : List (ℕ × α) × List (ℕ × α) :=
  n.cells.span fun c ↦ key c.2 ≤ key a

theorem upperBound_append (n : Nodes α) (key : α → ℤ) (a : α) :
    (n.upperBound key a).1 ++ (n.upperBound key a).2 = n.cells := by
  simp [upperBound]

def insertUpper (n : Nodes α) (key : α → ℤ) (a : α) : Nodes α where
  cells := (n.upperBound key a).1 ++ (n.fresh, a) :: (n.upperBound key a).2
  fresh := n.fresh + 1
  nodup := by
    rw [(List.perm_middle.map Prod.fst).nodup_iff, upperBound_append]
    exact (n.pushFront a).nodup
  lt_fresh := by
    intro c hc
    rw [List.perm_middle.mem_iff, upperBound_append] at hc
    exact (n.pushFront a).lt_fresh c hc

theorem cells_insertUpper (n : Nodes α) (key : α → ℤ) (a : α) :
    (n.insertUpper key a).cells.Perm ((n.fresh, a) :: n.cells) := by
  rw [← n.upperBound_append key a]
  exact List.perm_middle

def unlink (n : Nodes α) (it : Itor) : Nodes α where
  cells := n.cells.filter fun c ↦ Itor.node c.1 ≠ it
  fresh := n.fresh
  nodup := n.nodup.sublist (List.filter_sublist.map Prod.fst)
  lt_fresh := fun c hc ↦ n.lt_fresh c (List.mem_of_mem_filter hc)

/-- Erasing through an iterator that designates no cell is an error. -/
def erase (n : Nodes α) (it : Itor) : Option (Nodes α) :=
  if (n.deref it).isSome then some (n.unlink it) else none

def back (n : Nodes α) : Option α := n.cells.getLast?.map Prod.snd

def popBack (n : Nodes α) : Option (Nodes α) :=
  n.cells.getLast?.map fun c ↦ n.unlink (.node c.1)

/-! ## Reading through iterators -/

theorem deref_node (n : Nodes α) (i : ℕ) (a : α) :
    n.deref (.node i) = some a ↔ (i, a) ∈ n.cells := by
  obtain ⟨cells, fresh, nodup, lt_fresh⟩ := n
  change cells.lookup i = some a ↔ (i, a) ∈ cells
  clear lt_fresh
  induction cells with
  | nil => simp
  | cons c cells ih =>
      obtain ⟨j, b⟩ := c
      rw [List.map_cons, List.nodup_cons] at nodup
      by_cases hij : i = j
      · subst hij
        have hnot : (i, a) ∉ cells := fun h ↦ nodup.1 (List.mem_map.mpr ⟨_, h, rfl⟩)
        simp [hnot, eq_comm]
      · have hbeq : (i == j) = false := by simpa using hij
        rw [List.lookup_cons, hbeq]
        simp [hij, ih nodup.2]

theorem exists_cell_of_deref {n : Nodes α} {it : Itor} {a : α} (h : n.deref it = some a) :
    ∃ i, it = .node i ∧ (i, a) ∈ n.cells := by
  cases it with
  | singular => simp [deref] at h
  | node i => exact ⟨i, rfl, (n.deref_node i a).mp h⟩

theorem mem_values_of_deref {n : Nodes α} {it : Itor} {a : α} (h : n.deref it = some a) :
    a ∈ n.values := by
  obtain ⟨i, -, hi⟩ := exists_cell_of_deref h
  exact List.mem_map.mpr ⟨(i, a), hi, rfl⟩

@[simp] theorem values_empty : (empty : Nodes α).values = [] := rfl

@[simp] theorem values_pushFront (n : Nodes α) (a : α) :
    (n.pushFront a).values = a :: n.values := rfl

theorem deref_unlink {n : Nodes α} {it jt : Itor} (hne : jt ≠ it) :
    (n.unlink it).deref jt = n.deref jt := by
  cases jt with
  | singular => rfl
  | node j =>
      ext a
      simp [deref_node, unlink, hne]

theorem erase_of_deref {n : Nodes α} {it : Itor} {a : α} (h : n.deref it = some a) :
    n.erase it = some (n.unlink it) := by
  simp [erase, h]

theorem erase_of_deref_none {n : Nodes α} {it : Itor} (h : n.deref it = none) :
    n.erase it = none := by
  simp [erase, h]

/-- Where no two cells share a key, unlinking removes exactly the cell and keeps
the order of the rest. -/
theorem values_unlink {β : Type} [DecidableEq β] (f : α → β) {n : Nodes α} {it : Itor}
    {a : α} (hn : (n.values.map f).Nodup) (h : n.deref it = some a) :
    (n.unlink it).values = n.values.filter fun b ↦ f b ≠ f a := by
  obtain ⟨i, rfl, hi⟩ := exists_cell_of_deref h
  have hn' : (n.cells.map fun c ↦ f c.2).Nodup := by
    simpa [values, List.map_map, Function.comp_def] using hn
  have hcells : ∀ c ∈ n.cells, (c.1 = i ↔ f c.2 = f a) := by
    intro c hc
    constructor
    · intro heq
      have hci : c = (i, a) := List.inj_on_of_nodup_map n.nodup hc hi heq
      rw [hci]
    · intro heq
      have hci : c = (i, a) := List.inj_on_of_nodup_map hn' hc hi heq
      rw [hci]
  rw [values, values, List.filter_map]
  refine congrArg (List.map _) (List.filter_congr fun c hc ↦ ?_)
  simpa using hcells c hc

theorem map_values_unlink {β : Type} [DecidableEq β] (f : α → β) {n : Nodes α} {it : Itor}
    {a : α} (hn : (n.values.map f).Nodup) (h : n.deref it = some a) :
    (n.unlink it).values.map f = (n.values.map f).filter (· ≠ f a) := by
  rw [values_unlink f hn h, List.filter_map]
  rfl

/-- Popping the back keeps every other value. -/
theorem exists_popBack {n : Nodes α} {b : α} (h : n.back = some b) :
    ∃ n', n.popBack = some n' ∧ ∀ a ∈ n.values, a ≠ b → a ∈ n'.values := by
  obtain ⟨c, hlast, rfl⟩ := Option.map_eq_some_iff.mp h
  refine ⟨n.unlink (.node c.1), by simp [popBack, hlast], ?_⟩
  intro a ha hne
  obtain ⟨d, hd, rfl⟩ := List.mem_map.mp ha
  have hid : d.1 ≠ c.1 := by
    intro heq
    have hdc : d = c := List.inj_on_of_nodup_map n.nodup hd (List.mem_of_getLast? hlast) heq
    exact hne (congrArg Prod.snd hdc)
  apply List.mem_map_of_mem
  exact List.mem_filter.mpr ⟨hd, by simpa using hid⟩

/-! ## Calls on a member of an object -/

section Member

variable {σ : Type} (view : σ → Nodes α) (put : Nodes α → σ → σ)

def callErase (it : Itor) : Code σ Unit := do
  match (view (← get)).erase it with
  | none => Code.undefined .danglingIterator
  | some n => modify (put n)

/-- With the iterator of the new cell. -/
def callPushFront (a : α) : Code σ Itor := do
  let n := (view (← get)).pushFront a
  modify (put n)
  pure n.begin

def callBack : Code σ α := do
  match (view (← get)).back with
  | none => Code.undefined .emptyContainer
  | some a => pure a

def callPopBack : Code σ Unit := do
  match (view (← get)).popBack with
  | none => Code.undefined .emptyContainer
  | some n => modify (put n)

variable {view} {s : σ} {it : Itor} {a : α}

theorem callErase_run (h : (view s).deref it = some a) :
    (callErase view put it).run s = .ok () (put ((view s).unlink it) s) := by
  simp [callErase, erase_of_deref h]

theorem callErase_run_none (h : (view s).deref it = none) :
    (callErase view put it).run s = .error (.undefined .danglingIterator) s := by
  simp [callErase, erase_of_deref_none h]

variable (view) in
@[simp] theorem callPushFront_run (s : σ) (a : α) :
    (callPushFront view put a).run s =
      .ok ((view s).pushFront a).begin (put ((view s).pushFront a) s) := rfl

theorem callBack_run (h : (view s).back = some a) : (callBack view).run s = .ok a s := by
  simp [callBack, h]

theorem callBack_run_none (h : (view s).back = none) :
    (callBack view).run s = .error (.undefined .emptyContainer) s := by
  simp [callBack, h]

variable (view)

theorem noThrow_callErase (it : Itor) : (callErase view put it).NoThrow := by
  refine Code.noThrow_get.bind fun s ↦ ?_
  cases (view s).erase it with
  | none => exact Code.noThrow_undefined _
  | some n => exact Code.noThrow_modify _

theorem noThrow_callPushFront (a : α) : (callPushFront view put a).NoThrow :=
  Code.noThrow_get.bind fun _ ↦ (Code.noThrow_modify _).bind fun _ ↦ Code.noThrow_pure _

theorem noThrow_callBack : (callBack view).NoThrow := by
  refine Code.noThrow_get.bind fun s ↦ ?_
  cases (view s).back with
  | none => exact Code.noThrow_undefined _
  | some a => exact Code.noThrow_pure _

theorem noThrow_callPopBack : (callPopBack view put).NoThrow := by
  refine Code.noThrow_get.bind fun s ↦ ?_
  cases (view s).popBack with
  | none => exact Code.noThrow_undefined _
  | some n => exact Code.noThrow_modify _

end Member

end Nodes

end PpDSCache.Cpp
