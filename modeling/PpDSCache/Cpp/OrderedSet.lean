import Mathlib.Tactic

/-!
# Ordered sets

`std::set` as the list of its elements in ascending order.
-/

namespace PpDSCache.Cpp

section Insert

variable {α : Type} [LinearOrder α]

def insertSorted (a : α) : List α → List α
  | [] => [a]
  | b :: bs => if a < b then a :: b :: bs else if a = b then b :: bs else b :: insertSorted a bs

theorem mem_insertSorted {a c : α} {bs : List α} : c ∈ insertSorted a bs ↔ c = a ∨ c ∈ bs := by
  induction bs with
  | nil => simp [insertSorted]
  | cons b bs ih =>
      unfold insertSorted
      split_ifs with hlt heq
      · simp
      · subst heq
        simp
      · simp only [List.mem_cons, ih]
        tauto

theorem pairwise_insertSorted {a : α} {bs : List α} (h : bs.Pairwise (· < ·)) :
    (insertSorted a bs).Pairwise (· < ·) := by
  induction bs with
  | nil => simp [insertSorted]
  | cons b bs ih =>
      obtain ⟨hb, hbs⟩ := List.pairwise_cons.mp h
      unfold insertSorted
      split_ifs with hlt heq
      · refine List.pairwise_cons.mpr ⟨fun c hc ↦ ?_, h⟩
        rcases List.mem_cons.mp hc with rfl | hc
        · exact hlt
        · exact hlt.trans (hb c hc)
      · exact h
      · refine List.pairwise_cons.mpr ⟨fun c hc ↦ ?_, ih hbs⟩
        rcases mem_insertSorted.mp hc with rfl | hc
        · exact lt_of_le_of_ne (not_lt.mp hlt) (Ne.symm heq)
        · exact hb c hc

theorem perm_insertSorted {a : α} {bs : List α} (h : a ∉ bs) :
    (insertSorted a bs).Perm (a :: bs) := by
  induction bs with
  | nil => exact List.Perm.refl _
  | cons b bs ih =>
      rw [List.mem_cons, not_or] at h
      unfold insertSorted
      split_ifs with hlt heq
      · exact List.Perm.refl _
      · exact absurd heq h.1
      · exact ((ih h.2).cons b).trans (List.Perm.swap a b bs)

end Insert

structure OrderedSet (α : Type) [LinearOrder α] where
  elems : List α
  sorted : elems.Pairwise (· < ·)

namespace OrderedSet

variable {α : Type} [LinearOrder α]

instance : Membership α (OrderedSet α) := ⟨fun s a ↦ a ∈ s.elems⟩

theorem mem_def {s : OrderedSet α} {a : α} : a ∈ s ↔ a ∈ s.elems := Iff.rfl

instance (s : OrderedSet α) (a : α) : Decidable (a ∈ s) := inferInstanceAs (Decidable (a ∈ s.elems))

def empty : OrderedSet α := ⟨[], List.Pairwise.nil⟩

def size (s : OrderedSet α) : ℕ := s.elems.length

/-- `*begin()` -/
def first? (s : OrderedSet α) : Option α := s.elems.head?

/-- `insert`, which leaves the set when the element is there. -/
def insert (s : OrderedSet α) (a : α) : OrderedSet α :=
  ⟨insertSorted a s.elems, pairwise_insertSorted s.sorted⟩

def erase (s : OrderedSet α) (a : α) : OrderedSet α :=
  ⟨s.elems.erase a, s.sorted.sublist List.erase_sublist⟩

/-- The elements before `lower_bound(x)`. -/
def below (s : OrderedSet α) (x : α) : List α := s.elems.takeWhile (· < x)

/-- The elements from `lower_bound(x)` on. -/
def eraseBelow (s : OrderedSet α) (x : α) : OrderedSet α :=
  ⟨s.elems.dropWhile (· < x), s.sorted.sublist (List.dropWhile_sublist _)⟩

variable {s : OrderedSet α} {a b x : α}

theorem nodup (s : OrderedSet α) : s.elems.Nodup := s.sorted.imp fun h ↦ h.ne

@[simp] theorem notMem_empty : a ∉ (empty : OrderedSet α) := List.not_mem_nil

@[simp] theorem mem_insert : b ∈ s.insert a ↔ b = a ∨ b ∈ s := mem_insertSorted

@[simp] theorem mem_erase : b ∈ s.erase a ↔ b ≠ a ∧ b ∈ s := s.nodup.mem_erase_iff

theorem perm_insert (h : a ∉ s) : (s.insert a).elems.Perm (a :: s.elems) := perm_insertSorted h

theorem perm_erase (h : a ∈ s) : s.elems.Perm (a :: (s.erase a).elems) := List.perm_cons_erase h

theorem size_insert (h : a ∉ s) : (s.insert a).size = s.size + 1 := (perm_insert h).length_eq

theorem size_erase (h : a ∈ s) : s.size = (s.erase a).size + 1 := (perm_erase h).length_eq

theorem mem_below : b ∈ s.below x ↔ b ∈ s ∧ b < x := by
  obtain ⟨bs, hbs⟩ := s
  induction bs with
  | nil => simp [below, mem_def]
  | cons c bs ih =>
      obtain ⟨hc, hsorted⟩ := List.pairwise_cons.mp hbs
      have hrest := ih hsorted
      simp only [below, mem_def] at hrest ⊢
      by_cases hlt : c < x
      · rw [List.takeWhile_cons_of_pos (by simpa using hlt), List.mem_cons, List.mem_cons, hrest]
        constructor
        · rintro (rfl | h)
          · exact ⟨.inl rfl, hlt⟩
          · exact ⟨.inr h.1, h.2⟩
        · rintro ⟨rfl | h, hb⟩
          · exact .inl rfl
          · exact .inr ⟨h, hb⟩
      · rw [List.takeWhile_cons_of_neg (by simpa using hlt)]
        simp only [List.not_mem_nil, List.mem_cons, false_iff, not_and, not_lt]
        rintro (rfl | h)
        · exact not_lt.mp hlt
        · exact (not_lt.mp hlt).trans (hc b h).le

theorem below_append (s : OrderedSet α) (x : α) : s.below x ++ (s.eraseBelow x).elems = s.elems :=
  List.takeWhile_append_dropWhile

theorem nodup_below (s : OrderedSet α) (x : α) : (s.below x).Nodup :=
  s.nodup.sublist (List.takeWhile_sublist _)

theorem mem_eraseBelow : b ∈ s.eraseBelow x ↔ b ∈ s ∧ x ≤ b := by
  have happend := s.below_append x
  have hnodup := s.nodup
  rw [← happend] at hnodup
  have hsplit : b ∈ s ↔ b ∈ s.below x ∨ b ∈ s.eraseBelow x := by
    rw [mem_def, ← happend, List.mem_append, mem_def]
  constructor
  · intro h
    refine ⟨hsplit.mpr (.inr h), not_lt.mp fun hlt ↦ ?_⟩
    have hbelow : b ∈ s.below x := mem_below.mpr ⟨hsplit.mpr (.inr h), hlt⟩
    exact (List.disjoint_of_nodup_append hnodup) hbelow h
  · rintro ⟨hb, hle⟩
    rcases hsplit.mp hb with h | h
    · exact absurd (mem_below.mp h).2 (not_lt.mpr hle)
    · exact h

theorem size_eraseBelow (s : OrderedSet α) (x : α) :
    (s.eraseBelow x).size + (s.below x).length = s.size := by
  have hlen := congrArg List.length (s.below_append x)
  rw [List.length_append] at hlen
  rw [Nat.add_comm]
  exact hlen

theorem first?_eq_none : s.first? = none ↔ ∀ a, a ∉ s := by
  rw [first?, List.head?_eq_none_iff, List.eq_nil_iff_forall_not_mem]
  rfl

theorem mem_of_first? (h : s.first? = some a) : a ∈ s := List.mem_of_head? h

theorem first?_le (h : s.first? = some a) (hb : b ∈ s) : a ≤ b := by
  obtain ⟨bs, hbs⟩ := s
  cases bs with
  | nil => cases h
  | cons c bs =>
      obtain rfl : c = a := Option.some.inj h
      rcases List.mem_cons.mp hb with rfl | hb
      · exact le_rfl
      · exact (List.rel_of_pairwise_cons hbs hb).le

theorem exists_first? (h : a ∈ s) : ∃ b, s.first? = some b := by
  rw [← Option.ne_none_iff_exists', Ne, first?_eq_none]
  exact fun hnone ↦ hnone a h

end OrderedSet

end PpDSCache.Cpp
