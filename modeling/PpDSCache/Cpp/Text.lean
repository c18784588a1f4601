import Mathlib.Data.List.Induction
import Mathlib.Data.List.TakeWhile
import PpDSCache.Cpp.Code

/-!
# Byte strings

A `std::string` is a list of bytes.  `substr` clamps its length and rejects
a start beyond the end; `stoi` follows `strtol` in base ten, which skips
white space, takes one sign and stops at the first byte that is no digit.
-/

namespace PpDSCache.Cpp

abbrev Text := List UInt8

def ascii (s : String) : Text := s.toList.map fun c ↦ UInt8.ofNat c.toNat

/-! ## Printed numbers -/

/-- `%d` of a number that is not negative. -/
def decimalText (n : ℕ) : Text := (Nat.toDigits 10 n).map fun c ↦ UInt8.ofNat c.toNat

theorem length_decimalText_le {n k : ℕ} (hk : 0 < k) (h : n < 10 ^ k) :
    (decimalText n).length ≤ k := by
  rw [decimalText, List.length_map]
  exact (Nat.length_toDigits_le_iff (by norm_num) hk).mpr h

theorem decimalText_injective : Function.Injective decimalText := by
  -- a digit can be read back from its byte
  have hback : ∀ n, (decimalText n).map (fun b ↦ Char.ofNat b.toNat) = Nat.toDigits 10 n := by
    intro n
    rw [decimalText, List.map_map]
    refine (List.map_congr_left fun c hc ↦ ?_).trans (List.map_id' _)
    have hdigit := Nat.isDigit_of_mem_toDigits (by norm_num) (by norm_num) hc
    have hle : c.toNat ≤ 57 := by
      simp only [Char.isDigit, Bool.and_eq_true, decide_eq_true_eq, ge_iff_le] at hdigit
      exact hdigit.2
    have hbyte : (UInt8.ofNat c.toNat).toNat = c.toNat := by
      rw [UInt8.toNat_ofNat']
      omega
    simp only [Function.comp_apply, hbyte, Char.ofNat_toNat]
  intro m n h
  have htext : Nat.toDigits 10 m = Nat.toDigits 10 n := by
    rw [← hback m, ← hback n, h]
  rw [← Nat.ofDigitChars_ten_toDigits (n := m), htext, Nat.ofDigitChars_ten_toDigits]

/-! ## Parts and parsed numbers -/

namespace Text

variable {σ : Type}

def substr (s : Text) (pos n : ℕ) : Code σ Text :=
  if s.length < pos then Code.raise .outOfRange else pure ((s.drop pos).take n)

/-- `isspace` in the C locale. -/
def isSpace (b : UInt8) : Bool := b == 32 || (9 ≤ b && b ≤ 13)

def isDigit (b : UInt8) : Bool := 48 ≤ b && b ≤ 57

def decimal (ds : Text) : ℕ := ds.foldl (fun n b ↦ 10 * n + (b.toNat - 48)) 0

def splitSign : Text → Bool × Text
  | [] => (false, [])
  | b :: s => if b = 45 then (true, s) else if b = 43 then (false, s) else (false, b :: s)

/-- The number at the front of the text, if there is one. -/
def number (s : Text) : Option ℤ :=
  let (negative, rest) := splitSign (s.dropWhile isSpace)
  match rest.takeWhile isDigit with
  | [] => none
  | d :: ds => some (if negative then -(decimal (d :: ds) : ℤ) else decimal (d :: ds))

/-- As a `long`, where a number out of range becomes the end of the range. -/
def strtol (s : Text) : Option ℤ := (number s).map fun v ↦ max (-2 ^ 63) (min v (2 ^ 63 - 1))

def stoi (s : Text) : Code σ ℤ :=
  match strtol s with
  | none => Code.raise .invalidArgument
  | some v => if -2 ^ 31 ≤ v ∧ v < 2 ^ 31 then pure v else Code.raise .outOfRange

def IsNumeral (n : ℕ) (s : Text) : Prop := s.length = n ∧ ∀ b ∈ s, isDigit b = true

instance (n : ℕ) (s : Text) : Decidable (IsNumeral n s) :=
  decidable_of_iff (s.length = n ∧ s.all isDigit = true) (by rw [List.all_eq_true]; rfl)

theorem isSpace_eq_false_of_isDigit {b : UInt8} (h : isDigit b = true) : isSpace b = false := by
  simp only [isDigit, isSpace, Bool.and_eq_true, decide_eq_true_eq, UInt8.le_iff_toNat_le,
    Bool.or_eq_false_iff, beq_eq_false_iff_ne, Bool.and_eq_false_iff, decide_eq_false_iff_not,
    ne_eq, ← UInt8.toNat_inj] at h ⊢
  change 48 ≤ b.toNat ∧ b.toNat ≤ 57 at h
  change ¬ b.toNat = 32 ∧ (¬ 9 ≤ b.toNat ∨ ¬ b.toNat ≤ 13)
  omega

theorem splitSign_of_isDigit {b : UInt8} (h : isDigit b = true) (s : Text) :
    splitSign (b :: s) = (false, b :: s) := by
  have h₁ : b ≠ 45 := by rintro rfl; exact absurd h (by decide)
  have h₂ : b ≠ 43 := by rintro rfl; exact absurd h (by decide)
  simp [splitSign, h₁, h₂]

theorem number_of_digits {s : Text} (hne : s ≠ []) (h : ∀ b ∈ s, isDigit b = true) :
    number s = some (decimal s : ℤ) := by
  cases s with
  | nil => exact absurd rfl hne
  | cons b s =>
      have hb : isDigit b = true := h b List.mem_cons_self
      have hdrop : (b :: s).dropWhile isSpace = b :: s := by
        simp [isSpace_eq_false_of_isDigit hb]
      have htake : (b :: s).takeWhile isDigit = b :: s := List.takeWhile_eq_self_iff.mpr h
      simp [number, hdrop, splitSign_of_isDigit hb, htake]

theorem decimal_append_singleton (s : Text) (b : UInt8) :
    decimal (s ++ [b]) = 10 * decimal s + (b.toNat - 48) := by
  simp [decimal]

theorem decimal_lt_pow {s : Text} (h : ∀ b ∈ s, isDigit b = true) :
    decimal s < 10 ^ s.length := by
  induction s using List.reverseRecOn with
  | nil => simp [decimal]
  | append_singleton s b ih =>
      have hs : decimal s < 10 ^ s.length := ih fun c hc ↦ h c (by simp [hc])
      have hb : b.toNat ≤ 57 := by
        have hd := h b (by simp)
        simp only [isDigit, Bool.and_eq_true, decide_eq_true_eq, UInt8.le_iff_toNat_le] at hd
        exact hd.2
      rw [decimal_append_singleton, List.length_append, List.length_singleton, pow_succ]
      omega

theorem splitSign_length_le (s : Text) : (splitSign s).2.length ≤ s.length := by
  cases s with
  | nil => simp [splitSign]
  | cons b s =>
      simp only [splitSign]
      split_ifs <;> simp

theorem number_natAbs_lt {s : Text} {v : ℤ} (h : number s = some v) :
    v.natAbs < 10 ^ s.length := by
  set p := splitSign (s.dropWhile isSpace) with hp
  have hlen : (p.2.takeWhile isDigit).length ≤ s.length := by
    calc
      (p.2.takeWhile isDigit).length ≤ p.2.length := (List.takeWhile_sublist _).length_le
      _ ≤ (s.dropWhile isSpace).length := splitSign_length_le _
      _ ≤ s.length := List.length_dropWhile_le _ _
  have hdec : decimal (p.2.takeWhile isDigit) < 10 ^ s.length := by
    calc
      decimal (p.2.takeWhile isDigit) < 10 ^ (p.2.takeWhile isDigit).length :=
        decimal_lt_pow fun b hb ↦ List.mem_takeWhile_imp hb
      _ ≤ 10 ^ s.length := Nat.pow_le_pow_right (by norm_num) hlen
  cases hds : p.2.takeWhile isDigit with
  | nil => simp [number, ← hp, hds] at h
  | cons d ds =>
      simp only [number, ← hp, hds, Option.some.injEq] at h
      rw [hds] at hdec
      subst h
      split_ifs <;> simpa using hdec

theorem strtol_of_number {s : Text} {v : ℤ} (h : number s = some v) (hv : -2 ^ 63 ≤ v)
    (hv' : v < 2 ^ 63) : strtol s = some v := by
  rw [strtol, h, Option.map_some, min_eq_left (by omega), max_eq_right hv]

theorem strtol_natAbs_lt {s : Text} {v : ℤ} (h : strtol s = some v) :
    v.natAbs < 10 ^ s.length := by
  obtain ⟨w, hw, rfl⟩ := Option.map_eq_some_iff.mp h
  have hlt := number_natAbs_lt hw
  omega

theorem stoi_of_length_le {s : Text} (h : s.length ≤ 9) :
    (stoi s : Code σ ℤ) =
      match strtol s with
      | none => Code.raise .invalidArgument
      | some v => pure v := by
  cases hv : strtol s with
  | none => simp [stoi, hv]
  | some v =>
      have hlt : v.natAbs < 10 ^ 9 :=
        (strtol_natAbs_lt hv).trans_le (Nat.pow_le_pow_right (by norm_num) h)
      have hrange : (-2 ^ 31 : ℤ) ≤ v ∧ v < 2 ^ 31 := by
        constructor <;> omega
      simp only [stoi, hv, if_pos hrange]

theorem strtol_numeral {n : ℕ} {s : Text} (hn : 0 < n) (hle : n ≤ 18) (h : IsNumeral n s) :
    strtol s = some (decimal s : ℤ) := by
  have hne : s ≠ [] := by
    rintro rfl
    exact hn.ne (by simpa using h.1)
  have hlt : decimal s < 10 ^ 18 :=
    (decimal_lt_pow h.2).trans_le (Nat.pow_le_pow_right (by norm_num) (h.1 ▸ hle))
  exact strtol_of_number (number_of_digits hne h.2) (by omega) (by omega)

end Text

end PpDSCache.Cpp
