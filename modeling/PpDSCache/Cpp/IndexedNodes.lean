import PpDSCache.Cpp.Nodes

/-!
# Containers indexed by a map

A map finds for each key an entry, and the entry holds an iterator of the cell
of that key in a container.  Container and map hold the same keys, once each.
-/

namespace PpDSCache.Cpp

/-- The cells of `n` are those the entries of `map` designate; `key` reads the
key off a cell. -/
structure Indexed {α K E : Type} (key : α → K) (n : Nodes α) (map : K → Option E)
    (itor : E → Itor) : Prop where
  nodup : (n.values.map key).Nodup
  mem : ∀ k, k ∈ n.values.map key ↔ (map k).isSome
  deref : ∀ k e, map k = some e → ∃ a, n.deref (itor e) = some a ∧ key a = k

namespace Indexed

variable {α K E : Type} {key : α → K} {n : Nodes α} {map : K → Option E}
  {itor : E → Itor} {k : K} {e e' : E}

theorem deref_unlink (h : Indexed key n map itor) (hk : map k = some e) {j : K} {g : E}
    (hj : map j = some g) (hne : j ≠ k) :
    ∃ a, (n.unlink (itor e)).deref (itor g) = some a ∧ key a = j := by
  obtain ⟨a, ha, hkey⟩ := h.deref k e hk
  obtain ⟨b, hb, hkeyb⟩ := h.deref j g hj
  have hitor : itor g ≠ itor e := by
    intro heq
    rw [heq, ha] at hb
    obtain rfl := Option.some.inj hb
    exact hne (hkeyb.symm.trans hkey)
  exact ⟨b, by rw [Nodes.deref_unlink hitor, hb], hkeyb⟩

variable [DecidableEq K]

theorem values_unlink (h : Indexed key n map itor) (hk : map k = some e) :
    (n.unlink (itor e)).values.map key = (n.values.map key).filter (· ≠ k) := by
  obtain ⟨a, ha, rfl⟩ := h.deref k e hk
  exact Nodes.map_values_unlink key h.nodup ha

theorem remove (h : Indexed key n map itor) (hk : map k = some e) :
    Indexed key (n.unlink (itor e)) (Function.update map k none) itor where
  nodup := by
    rw [h.values_unlink hk]
    exact h.nodup.filter _
  mem := by
    intro j
    rw [h.values_unlink hk]
    by_cases hj : j = k
    · simp [hj]
    · rw [Function.update_of_ne hj, ← h.mem j]
      simp [hj]
  deref := by
    intro j g hg
    by_cases hj : j = k
    · simp [hj] at hg
    · exact h.deref_unlink hk (by simpa [hj] using hg) hj

/-- The entry of a key is replaced by one with the same iterator. -/
theorem replace (h : Indexed key n map itor) (hk : map k = some e) (he : itor e' = itor e) :
    Indexed key n (Function.update map k (some e')) itor where
  nodup := h.nodup
  mem := by
    intro j
    by_cases hj : j = k
    · rw [h.mem, hj, Function.update_self, hk]
      rfl
    · rw [Function.update_of_ne hj, h.mem]
  deref := by
    intro j g hg
    by_cases hj : j = k
    · subst hj
      rw [Function.update_self, Option.some.injEq] at hg
      rw [← hg, he]
      exact h.deref j e hk
    · exact h.deref j g (by simpa [hj] using hg)

/-- A new key comes with a new cell, wherever the container puts it. -/
theorem insert (h : Indexed key n map itor) {a : α} (hk : map (key a) = none) {n' : Nodes α}
    (hcells : n'.cells.Perm ((n.fresh, a) :: n.cells)) (he : itor e' = .node n.fresh) :
    Indexed key n' (Function.update map (key a) (some e')) itor := by
  have hkeys : (n'.values.map key).Perm (key a :: n.values.map key) :=
    (hcells.map Prod.snd).map key
  have hnew : key a ∉ n.values.map key := by
    rw [h.mem, hk]
    exact Bool.false_ne_true
  refine ⟨hkeys.nodup_iff.mpr (List.nodup_cons.mpr ⟨hnew, h.nodup⟩), fun j ↦ ?_, fun j g hg ↦ ?_⟩
  · rw [hkeys.mem_iff, List.mem_cons, h.mem]
    by_cases hj : j = key a <;> simp [hj]
  · by_cases hj : j = key a
    · rw [hj, Function.update_self, Option.some.injEq] at hg
      refine ⟨a, ?_, hj.symm⟩
      rw [← hg, he, Nodes.deref_node, hcells.mem_iff]
      exact List.mem_cons_self
    · obtain ⟨b, hb, hkey⟩ := h.deref j g (by simpa [hj] using hg)
      obtain ⟨i, hi, hmem⟩ := Nodes.exists_cell_of_deref hb
      refine ⟨b, ?_, hkey⟩
      rw [hi, Nodes.deref_node, hcells.mem_iff]
      exact List.mem_cons_of_mem _ hmem

/-- The cell of a key is replaced by a new one in front of all others. -/
theorem moveToFront (h : Indexed key n map itor) (hk : map k = some e) {a : α} (ha : key a = k)
    (he : itor e' = ((n.unlink (itor e)).pushFront a).begin) :
    Indexed key ((n.unlink (itor e)).pushFront a) (Function.update map k (some e')) itor := by
  subst ha
  have hmap : Function.update map (key a) (some e') =
      Function.update (Function.update map (key a) none) (key a) (some e') := by
    rw [Function.update_idem]
  rw [hmap]
  exact (h.remove hk).insert (Function.update_self ..) (List.Perm.refl _) he

end Indexed

end PpDSCache.Cpp
