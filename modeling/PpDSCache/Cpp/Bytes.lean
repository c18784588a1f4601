import PpDSCache.Cpp.Text

/-!
# Bytes in memory

`size_t` arithmetic wraps at 64 bits.  Copying a block of bytes into an array
is an error where the block does not fit.  A signed integer of `n` bytes in
network order is stored with its most significant byte first.
-/

namespace PpDSCache.Cpp

def sizeAdd (a b : ℕ) : ℕ := (a + b) % 2 ^ 64

-- with the modulus in front, unfolding stops at the variable `a`
def sizeSub (a b : ℕ) : ℕ := (2 ^ 64 + a - b) % 2 ^ 64

theorem sizeAdd_eq {a b : ℕ} (h : a + b < 2 ^ 64) : sizeAdd a b = a + b :=
  Nat.mod_eq_of_lt h

theorem sizeSub_eq {a b : ℕ} (ha : a < 2 ^ 64) (h : b ≤ a) : sizeSub a b = a - b := by
  rw [sizeSub]
  omega

/-! ## Blocks -/

def readAt (mem : Text) (pos len : ℕ) : Option Text :=
  if pos + len ≤ mem.length then some ((mem.drop pos).take len) else none

def writeAt (mem : Text) (pos : ℕ) (data : Text) : Option Text :=
  if pos + data.length ≤ mem.length then
    some (mem.take pos ++ data ++ mem.drop (pos + data.length))
  else none

theorem readAt_append (front data rest : Text) :
    readAt (front ++ data ++ rest) front.length data.length = some data := by
  have hlen : front.length + data.length ≤ (front ++ data ++ rest).length := by
    simp
  rw [readAt, if_pos hlen]
  simp [List.append_assoc]

theorem writeAt_append {front old data rest : Text} (h : old.length = data.length) :
    writeAt (front ++ old ++ rest) front.length data = some (front ++ data ++ rest) := by
  have hlen : front.length + data.length ≤ (front ++ old ++ rest).length := by
    simp only [List.length_append]
    omega
  rw [writeAt, if_pos hlen, ← h]
  simp [List.append_assoc, List.drop_append]

/-! ## Integers in network order -/

/-- The lowest `n` bytes of a number, most significant first. -/
def toBytes : ℕ → ℕ → Text
  | 0, _ => []
  | n + 1, v => toBytes n (v / 256) ++ [UInt8.ofNat v]

def ofBytes (bs : Text) : ℕ := bs.foldl (fun v b ↦ 256 * v + b.toNat) 0

@[simp] theorem length_toBytes (n v : ℕ) : (toBytes n v).length = n := by
  induction n generalizing v with
  | zero => rfl
  | succ n ih => simp [toBytes, ih]

theorem ofBytes_toBytes (n v : ℕ) : ofBytes (toBytes n v) = v % 256 ^ n := by
  induction n generalizing v with
  | zero => simp [toBytes, ofBytes, Nat.mod_one]
  | succ n ih =>
      have hlast : ofBytes (toBytes n (v / 256) ++ [UInt8.ofNat v]) =
          256 * ofBytes (toBytes n (v / 256)) + v % 256 := by
        simp [ofBytes, List.foldl_append]
      rw [toBytes, hlast, ih, Nat.pow_succ', Nat.mod_mul, add_comm]

theorem ofBytes_append_singleton (bs : Text) (b : UInt8) :
    ofBytes (bs ++ [b]) = 256 * ofBytes bs + b.toNat := by
  simp [ofBytes]

theorem ofBytes_lt (bs : Text) : ofBytes bs < 256 ^ bs.length := by
  induction bs using List.reverseRecOn with
  | nil => simp [ofBytes]
  | append_singleton bs b ih =>
      have hb := b.toNat_lt
      rw [ofBytes_append_singleton, List.length_append, List.length_singleton, pow_succ]
      omega

theorem toBytes_ofBytes (bs : Text) : toBytes bs.length (ofBytes bs) = bs := by
  induction bs using List.reverseRecOn with
  | nil => rfl
  | append_singleton bs b ih =>
      have hb := b.toNat_lt
      have hdiv : (256 * ofBytes bs + b.toNat) / 256 = ofBytes bs := by omega
      have hlast : UInt8.ofNat (256 * ofBytes bs + b.toNat) = b := by
        apply UInt8.toNat_inj.mp
        rw [UInt8.toNat_ofNat']
        omega
      rw [ofBytes_append_singleton, List.length_append, List.length_singleton, toBytes, hdiv,
        hlast, ih]

/-- The integers of `n` bytes. -/
def InRange (n : ℕ) (v : ℤ) : Prop := -2 ^ (8 * n - 1) ≤ v ∧ v < 2 ^ (8 * n - 1)

instance (n : ℕ) (v : ℤ) : Decidable (InRange n v) := inferInstanceAs (Decidable (_ ∧ _))

theorem inRange_bmod (x : ℤ) : InRange 4 (x.bmod (2 ^ 32)) := by
  have hpos : 0 < 2 ^ 32 := by norm_num
  have hlow := Int.le_bmod (x := x) hpos
  have hhigh := Int.bmod_lt (x := x) hpos
  generalize x.bmod (2 ^ 32) = y at hlow hhigh ⊢
  norm_num at hlow hhigh
  exact ⟨by norm_num; exact hlow, by norm_num; exact hhigh⟩

/-- Two's complement in network order. -/
def encodeInt (n : ℕ) (v : ℤ) : Text := toBytes n (v % 256 ^ n).toNat

def decodeInt (bs : Text) : ℤ := (ofBytes bs : ℤ).bmod (256 ^ bs.length)

@[simp] theorem length_encodeInt (n : ℕ) (v : ℤ) : (encodeInt n v).length = n :=
  length_toBytes _ _

theorem decodeInt_encodeInt {n : ℕ} {v : ℤ} (hn : 0 < n) (h : InRange n v) :
    decodeInt (encodeInt n v) = v := by
  have hpos : (0 : ℤ) < 256 ^ n := by positivity
  have hlt : (v % 256 ^ n).toNat < 256 ^ n := by
    have := Int.emod_lt_of_pos v hpos
    have := Int.emod_nonneg v hpos.ne'
    zify
    omega
  have hhalf : (256 : ℤ) ^ n = 2 * 2 ^ (8 * n - 1) := by
    rw [← pow_succ', show 8 * n - 1 + 1 = 8 * n by omega, pow_mul]
    norm_num
  have hbytes : (ofBytes (encodeInt n v) : ℤ) = v % (256 ^ n : ℕ) := by
    rw [encodeInt, ofBytes_toBytes, Nat.mod_eq_of_lt hlt]
    push_cast
    exact Int.toNat_of_nonneg (Int.emod_nonneg v hpos.ne')
  rw [decodeInt, hbytes, length_encodeInt, Int.emod_bmod]
  obtain ⟨hlow, hhigh⟩ := h
  apply Int.bmod_eq_of_le
  · push_cast
    omega
  · push_cast
    omega

theorem encodeInt_decodeInt (bs : Text) : encodeInt bs.length (decodeInt bs) = bs := by
  have hmod : decodeInt bs % 256 ^ bs.length = ofBytes bs := by
    have hlt := ofBytes_lt bs
    have hbmod := Int.bmod_emod (x := (ofBytes bs : ℤ)) (m := 256 ^ bs.length)
    push_cast at hbmod
    rw [decodeInt, hbmod]
    exact_mod_cast Nat.mod_eq_of_lt hlt
  rw [encodeInt, hmod, Int.toNat_natCast, toBytes_ofBytes]

end PpDSCache.Cpp
