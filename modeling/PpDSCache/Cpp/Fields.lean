import PpDSCache.Cpp.Bytes

/-!
# Reading fields

Fields are read from the front of the bytes that are left.  A field that is
not there in full has no result.
-/

namespace PpDSCache.Cpp

section Fields

variable {α : Type}

/-- The first `n` bytes and what is left. -/
def readBytes (n : ℕ) (f : Text) : Option (Text × Text) :=
  if n ≤ f.length then some (f.take n, f.drop n) else none

/-- As many fields as there are, up to `n`, and what is left if there are so
many. -/
def readMany (read : Text → Option (α × Text)) : ℕ → Text → List α × Option Text
  | 0, f => ([], some f)
  | n + 1, f =>
      match read f with
      | none => ([], none)
      | some (x, rest) => (x :: (readMany read n rest).1, (readMany read n rest).2)

/-- The field takes up `k` bytes. -/
def Takes (k : ℕ) (read : Text → Option (α × Text)) : Prop :=
  ∀ f x rest, read f = some (x, rest) → f.length = k + rest.length

theorem readBytes_append {text : Text} {n : ℕ} (h : text.length = n) (rest : Text) :
    readBytes n (text ++ rest) = some (text, rest) := by
  subst h
  rw [readBytes, if_pos (by simp), List.take_left, List.drop_left]

theorem takes_readBytes (n : ℕ) : Takes n (readBytes n) := by
  intro f x rest h
  rw [readBytes] at h
  split_ifs at h with hle
  obtain ⟨rfl, rfl⟩ := Prod.mk.inj (Option.some.inj h)
  rw [List.length_drop]
  omega

variable {read : Text → Option (α × Text)} {enc : α → Text} {k : ℕ}

theorem Takes.eq_none (h : Takes k read) {f : Text} (hf : f.length < k) : read f = none := by
  cases hread : read f with
  | none => rfl
  | some p =>
      have hlen := h f p.1 p.2 hread
      omega

theorem Takes.map {β : Type} (h : Takes k read) (g : α → β) :
    Takes k fun f ↦ (read f).map fun p ↦ (g p.1, p.2) := by
  intro f y rest hy
  obtain ⟨p, hp, heq⟩ := Option.map_eq_some_iff.mp hy
  obtain ⟨-, rfl⟩ := Prod.mk.inj heq
  exact h f p.1 p.2 hp

/-- Bytes that end within one of two parts. -/
theorem take_append_cases {a b : Text} {n : ℕ} (h : n < (a ++ b).length) :
    (n < a.length ∧ (a ++ b).take n = a.take n) ∨
      ∃ m < b.length, n = a.length + m ∧ (a ++ b).take n = a ++ b.take m := by
  rw [List.length_append] at h
  rcases Nat.lt_or_ge n a.length with hlt | hge
  · exact .inl ⟨hlt, List.take_append_of_le_length hlt.le⟩
  · refine .inr ⟨n - a.length, by omega, by omega, ?_⟩
    rw [List.take_append, List.take_of_length_le hge]

theorem readMany_append {xs : List α}
    (h : ∀ x ∈ xs, ∀ rest, read (enc x ++ rest) = some (x, rest)) (rest : Text) :
    readMany read xs.length ((xs.map enc).flatten ++ rest) = (xs, some rest) := by
  induction xs with
  | nil => rfl
  | cons x xs ih =>
      rw [List.map_cons, List.flatten_cons, List.append_assoc, List.length_cons, readMany,
        h x List.mem_cons_self]
      simp only
      rw [ih fun y hy ↦ h y (List.mem_cons_of_mem x hy)]

/-- Of fields that are cut off, those before the cut are read. -/
theorem readMany_take {xs : List α}
    (h : ∀ x ∈ xs, ∀ rest, read (enc x ++ rest) = some (x, rest)) (hread : Takes k read)
    (hk : 0 < k) (henc : ∀ x, (enc x).length = k) {n : ℕ}
    (hn : n < (xs.map enc).flatten.length) :
    readMany read xs.length ((xs.map enc).flatten.take n) = (xs.take (n / k), none) := by
  induction xs generalizing n with
  | nil => exact absurd hn (by simp)
  | cons x xs ih =>
      rw [List.map_cons, List.flatten_cons] at hn ⊢
      rw [List.length_cons, readMany]
      rcases take_append_cases hn with ⟨hlt, hcut⟩ | ⟨m, hm, rfl, hcut⟩
      · have hshort : ((enc x).take n).length < k := by
          rw [List.length_take, ← henc x]
          omega
        rw [hcut, hread.eq_none hshort, Nat.div_eq_of_lt (henc x ▸ hlt), List.take_zero]
      · have hdiv : ((enc x).length + m) / k = m / k + 1 := by
          rw [henc x, Nat.add_div_left m hk]
        rw [hcut, h x List.mem_cons_self, hdiv, List.take_succ_cons]
        simp only
        rw [ih (fun y hy ↦ h y (List.mem_cons_of_mem x hy)) hm]

/-! ## Integers -/

def readInt32 (f : Text) : Option (ℤ × Text) := (readBytes 4 f).map fun p ↦ (decodeInt p.1, p.2)

def readUInt8 (f : Text) : Option (ℕ × Text) := (readBytes 1 f).map fun p ↦ (ofBytes p.1, p.2)

theorem takes_readInt32 : Takes 4 readInt32 := (takes_readBytes 4).map decodeInt

theorem takes_readUInt8 : Takes 1 readUInt8 := (takes_readBytes 1).map ofBytes

theorem readInt32_encodeInt {v : ℤ} (h : InRange 4 v) (rest : Text) :
    readInt32 (encodeInt 4 v ++ rest) = some (v, rest) := by
  rw [readInt32, readBytes_append (length_encodeInt 4 v), Option.map_some,
    decodeInt_encodeInt (by norm_num) h]

theorem readUInt8_ofNat {n : ℕ} (h : n < 256) (rest : Text) :
    readUInt8 ([UInt8.ofNat n] ++ rest) = some (n, rest) := by
  have hone : [UInt8.ofNat n].length = 1 := rfl
  rw [readUInt8, readBytes_append hone, Option.map_some]
  simp [ofBytes, Nat.mod_eq_of_lt h]

end Fields

end PpDSCache.Cpp
