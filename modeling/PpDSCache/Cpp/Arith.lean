import PpDSCache.Cpp.Code

/-!
# Machine integers and bitsets

`int` arithmetic that leaves its range is undefined, and so is a shift by a
negative count or by the width and more.  Shifting a nonnegative `int` left is
defined while the result fits the unsigned type, and is then converted back.
-/

namespace PpDSCache.Cpp

variable {σ : Type}

def subInt (a b : ℤ) : Code σ ℤ :=
  if -2 ^ 31 ≤ a - b ∧ a - b < 2 ^ 31 then pure (a - b) else Code.undefined .signedOverflow

def shlInt (a k : ℤ) : Code σ ℤ :=
  if 0 ≤ k ∧ k < 32 then
    if 0 ≤ a ∧ a * 2 ^ k.toNat < 2 ^ 32 then pure ((a * 2 ^ k.toNat).bmod (2 ^ 32))
    else Code.undefined .signedOverflow
  else Code.undefined .shiftRange

def shlUllong (a : BitVec 64) (k : ℕ) : Code σ (BitVec 64) :=
  if k < 64 then pure (a <<< k) else Code.undefined .shiftRange

def shrUllong (a : BitVec 64) (k : ℕ) : Code σ (BitVec 64) :=
  if k < 64 then pure (a >>> k) else Code.undefined .shiftRange

/-- `__builtin_ctzll`: the lowest set bit of a nonzero word. -/
def ctzll (a : BitVec 64) : ℕ := ((List.range 64).find? fun i ↦ a.getLsbD i).getD 64

def toUllong (v : ℤ) : BitVec 64 := BitVec.ofInt 64 v

namespace Bitset

variable {n : ℕ}

def ofUllong (n : ℕ) (v : BitVec 64) : BitVec n := v.setWidth n

/-- `to_ullong`, which needs the value to fit. -/
def toUllong (b : BitVec n) : Code σ (BitVec 64) :=
  if b.toNat < 2 ^ 64 then pure (b.setWidth 64) else Code.raise .overflowError

def set (b : BitVec n) (pos : ℕ) : Code σ (BitVec n) :=
  if pos < n then pure (b ||| 1#n <<< pos) else Code.raise .outOfRange

end Bitset

/-! ## Shifting an `int` left -/

theorem bmod_eq_self {v : ℕ} (h : v < 2 ^ 31) : (v : ℤ).bmod (2 ^ 32) = v := by
  rw [Int.bmod_def]
  norm_num
  omega

theorem bmod_eq_sub {v : ℕ} (h : 2 ^ 31 ≤ v) (h' : v < 2 ^ 32) :
    (v : ℤ).bmod (2 ^ 32) = v - 2 ^ 32 := by
  rw [Int.bmod_def]
  norm_num
  omega

theorem shlInt_natCast {a k : ℕ} (hk : k < 32) (h : a * 2 ^ k < 2 ^ 32) :
    (shlInt a k : Code σ ℤ) = pure (((a * 2 ^ k : ℕ) : ℤ).bmod (2 ^ 32)) := by
  have hfit : (0 : ℤ) ≤ a ∧ (a : ℤ) * 2 ^ (k : ℤ).toNat < 2 ^ 32 := by
    rw [Int.toNat_natCast]
    exact ⟨Int.natCast_nonneg a, by exact_mod_cast h⟩
  have hcount : (0 : ℤ) ≤ k ∧ (k : ℤ) < 32 := by omega
  rw [shlInt, if_pos hcount, if_pos hfit, Int.toNat_natCast]
  push_cast
  rfl

theorem shlInt_one {w : ℕ} (hw : w ≤ 30) :
    (shlInt 1 (w : ℤ) : Code σ ℤ) = pure ((2 ^ w : ℕ) : ℤ) := by
  have hpow : 2 ^ w ≤ 2 ^ 30 := Nat.pow_le_pow_right (by norm_num) hw
  have h := shlInt_natCast (σ := σ) (a := 1) (k := w) (by omega) (by omega)
  rw [Nat.one_mul, bmod_eq_self (by omega)] at h
  exact_mod_cast h

/-- `1 << 31` is the least `int`. -/
theorem shlInt_one_thirtyOne : (shlInt 1 31 : Code σ ℤ) = pure (-2 ^ 31) := by
  have h := shlInt_natCast (σ := σ) (a := 1) (k := 31) (by norm_num) (by norm_num)
  rw [Nat.one_mul, bmod_eq_sub le_rfl (by norm_num)] at h
  have hmin : ((2 ^ 31 : ℕ) : ℤ) - 2 ^ 32 = -2 ^ 31 := by norm_num
  rw [hmin] at h
  exact_mod_cast h

theorem shlInt_overflow {a k : ℕ} (hk : k < 32) (h : 2 ^ 32 ≤ a * 2 ^ k) :
    (shlInt a k : Code σ ℤ) = Code.undefined .signedOverflow := by
  have hfit : ¬ ((0 : ℤ) ≤ a ∧ (a : ℤ) * 2 ^ (k : ℤ).toNat < 2 ^ 32) := by
    rw [Int.toNat_natCast]
    rintro ⟨-, hlt⟩
    exact absurd (by exact_mod_cast hlt : a * 2 ^ k < 2 ^ 32) (by omega)
  have hcount : (0 : ℤ) ≤ k ∧ (k : ℤ) < 32 := by omega
  rw [shlInt, if_pos hcount, if_neg hfit]

theorem shlInt_shiftRange {a k : ℤ} (hk : ¬ (0 ≤ k ∧ k < 32)) :
    (shlInt a k : Code σ ℤ) = Code.undefined .shiftRange := by
  rw [shlInt, if_neg hk]

theorem subInt_of_range {a b : ℤ} (h : -2 ^ 31 ≤ a - b ∧ a - b < 2 ^ 31) :
    (subInt a b : Code σ ℤ) = pure (a - b) := by
  rw [subInt, if_pos h]

theorem subInt_overflow {a b : ℤ} (h : ¬ (-2 ^ 31 ≤ a - b ∧ a - b < 2 ^ 31)) :
    (subInt a b : Code σ ℤ) = Code.undefined .signedOverflow := by
  rw [subInt, if_neg h]

/-! ## Masks of adjacent bits -/

theorem testBit_ones_shifted (w k i : ℕ) :
    ((2 ^ w - 1) * 2 ^ k).testBit i = (decide (k ≤ i) && decide (i < k + w)) := by
  rw [Nat.testBit_mul_two_pow, Nat.testBit_two_pow_sub_one]
  by_cases hk : k ≤ i
  · simp only [hk, decide_true, Bool.true_and]
    congr 1
    exact propext ⟨fun h ↦ by omega, fun h ↦ by omega⟩
  · simp [hk]

theorem ones_shifted_lt (w k : ℕ) : (2 ^ w - 1) * 2 ^ k < 2 ^ (k + w) := by
  have hpos : 0 < 2 ^ w := Nat.two_pow_pos w
  have hk : 0 < 2 ^ k := Nat.two_pow_pos k
  calc
    (2 ^ w - 1) * 2 ^ k < 2 ^ w * 2 ^ k := Nat.mul_lt_mul_of_pos_right (by omega) hk
    _ = 2 ^ (k + w) := by rw [pow_add, Nat.mul_comm]

theorem ones_shifted_ge {k w : ℕ} (hkw : 33 ≤ k + w) (hk : k < 32) :
    2 ^ 32 ≤ (2 ^ w - 1) * 2 ^ k := by
  have hhalf : 2 ^ (w - 1) ≤ 2 ^ w - 1 := by
    have hsplit : 2 ^ w = 2 * 2 ^ (w - 1) := by
      rw [← pow_succ', Nat.sub_add_cancel (by omega)]
    have := Nat.two_pow_pos (w - 1)
    omega
  calc
    2 ^ 32 ≤ 2 ^ (w - 1 + k) := Nat.pow_le_pow_right (by norm_num) (by omega)
    _ = 2 ^ (w - 1) * 2 ^ k := pow_add 2 (w - 1) k
    _ ≤ (2 ^ w - 1) * 2 ^ k := Nat.mul_le_mul_right _ hhalf

theorem getLsbD_toUllong (v : ℤ) (i : ℕ) :
    (toUllong v).getLsbD i = (v % 2 ^ 64).toNat.testBit i := by
  rw [BitVec.getLsbD, toUllong, BitVec.toNat_ofInt]
  rfl

theorem getLsbD_toUllong_natCast (v i : ℕ) (hv : v < 2 ^ 64) :
    (toUllong (v : ℤ)).getLsbD i = v.testBit i := by
  have hmod : ((v : ℤ) % 2 ^ 64).toNat = v := by omega
  rw [getLsbD_toUllong, hmod]

/-- A negative power of two sign-extends to all bits from its own on. -/
theorem getLsbD_toUllong_neg_two_pow (k i : ℕ) (hk : k < 64) :
    (toUllong (-((2 ^ k : ℕ) : ℤ))).getLsbD i = (decide (k ≤ i) && decide (i < 64)) := by
  have hpow : 2 ^ k * 2 ^ (64 - k) = 2 ^ 64 := by rw [← pow_add, Nat.add_sub_cancel' hk.le]
  have hlt : 2 ^ k < 2 ^ 64 := Nat.pow_lt_pow_right (by norm_num) hk
  have hpos : 0 < 2 ^ k := Nat.two_pow_pos k
  have hval : (-((2 ^ k : ℕ) : ℤ) % 2 ^ 64).toNat = (2 ^ (64 - k) - 1) * 2 ^ k := by
    rw [Nat.sub_mul, Nat.one_mul, Nat.mul_comm, hpow]
    generalize 2 ^ k = p at hlt hpos
    omega
  rw [getLsbD_toUllong, hval, testBit_ones_shifted, Nat.add_sub_cancel' hk.le]

theorem Bitset.toNat_lt_iff {n : ℕ} (b : BitVec n) :
    b.toNat < 2 ^ 64 ↔ ∀ i, 64 ≤ i → b.getLsbD i = false := by
  constructor
  · intro h i hi
    exact Nat.testBit_lt_two_pow (h.trans_le (Nat.pow_le_pow_right (by norm_num) hi))
  · intro h
    exact Nat.lt_pow_two_of_testBit _ h

/-! ## Checked results -/

/-- The result of an `int` operation, if it has one. -/
def checkInt (v : ℤ) : Option ℤ := if -2 ^ 31 ≤ v ∧ v < 2 ^ 31 then some v else none

theorem checkInt_eq {v : ℤ} (h : -2 ^ 31 ≤ v ∧ v < 2 ^ 31) : checkInt v = some v := if_pos h

theorem checkInt_bind {β : Type} {v : ℤ} {f : ℤ → Option β} (h : -2 ^ 31 ≤ v ∧ v < 2 ^ 31) :
    (checkInt v >>= f) = f v := by
  rw [checkInt_eq h]
  rfl

/-- Division of `int`s, which rounds towards zero. -/
def divInt (a b : ℤ) : Option ℤ := if b = 0 then none else checkInt (a.tdiv b)

theorem divInt_bind {β : Type} {a b : ℤ} {f : ℤ → Option β} (ha : 0 ≤ a ∧ a < 2 ^ 31)
    (hb : 0 < b) : (divInt a b >>= f) = f (a / b) := by
  have hrange : -2 ^ 31 ≤ a.tdiv b ∧ a.tdiv b < 2 ^ 31 := by
    have hle := Int.ediv_le_self b ha.1
    have hpos := Int.ediv_nonneg ha.1 hb.le
    rw [Int.tdiv_eq_ediv_of_nonneg ha.1]
    omega
  rw [divInt, if_neg hb.ne', checkInt_bind hrange, Int.tdiv_eq_ediv_of_nonneg ha.1]

end PpDSCache.Cpp
