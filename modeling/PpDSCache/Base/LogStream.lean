import PpDSCache.Abstract.Runs
import PpDSCache.Cpp.Text

/-!
# Formatting log lines

Numbers are printed into a buffer of fixed size digit by digit from the right,
with division towards zero, and then turned round.  A piece that does not fit is
left out.  A write outside the buffer has no result.
-/

namespace PpDSCache.Base

open Cpp Abstract

/-! ## The buffer -/

/-- `FixedBuffer<SIZE>`: the array, and where `cur_` points to in it. -/
structure FixedBuffer where
  bytes : Text
  cur : ℕ
  deriving DecidableEq

namespace FixedBuffer

def new (size : ℕ) : FixedBuffer := ⟨List.replicate size 0, 0⟩

/-- `toString` -/
def data (b : FixedBuffer) : Text := b.bytes.take b.cur

def avail (b : FixedBuffer) : ℕ := b.bytes.length - b.cur

/-- Writes from `cur_` on. -/
def store (text : Text) (b : FixedBuffer) : Option FixedBuffer :=
  if b.cur + text.length ≤ b.bytes.length then
    some { b with bytes := b.bytes.take b.cur ++ text ++ b.bytes.drop (b.cur + text.length) }
  else none

def add (len : ℕ) (b : FixedBuffer) : FixedBuffer := { b with cur := b.cur + len }

def append (buf : Text) (b : FixedBuffer) : Option FixedBuffer :=
  if buf.length < b.avail then (b.store buf).map (add buf.length) else some b

end FixedBuffer

/-! ## Numbers -/

def digits : Text := ascii "9876543210123456789"

/-- `zero[lsd]`, where `zero` points into the middle of `digits`. -/
def zeroAt (lsd : ℤ) : Option UInt8 := if 0 ≤ 9 + lsd then digits[(9 + lsd).toNat]? else none

/-- The loop of `convert`, for at most `n` rounds. -/
def convertLoop : ℕ → ℤ → Option Text
  | 0, _ => none
  | n + 1, i => (zeroAt (i.tmod 10)).bind fun c ↦
      if i.tdiv 10 = 0 then some [c] else (convertLoop n (i.tdiv 10)).map (c :: ·)

def convert (value : ℤ) : Option Text := do
  let p ← convertLoop (value.natAbs + 1) value
  return (if value < 0 then p ++ [45] else p).reverse

def digitsHex : Text := ascii "0123456789ABCDEF"

def convertHexLoop : ℕ → ℕ → Option Text
  | 0, _ => none
  | n + 1, i => (digitsHex[i % 16]?).bind fun c ↦
      if i / 16 = 0 then some [c] else (convertHexLoop n (i / 16)).map (c :: ·)

def convertHex (value : ℕ) : Option Text := do
  return (← convertHexLoop (value + 1) value).reverse

/-! ## The stream -/

/-- What `operator<<` is given.  The integer types print alike. -/
inductive Piece where
  | boolean (v : Bool)
  | integer (v : ℤ)
  | pointer (p : ℕ)
  | char (v : UInt8)
  | cstring (str : Option Text)
  | string (v : Text)
  deriving DecidableEq

namespace LogStream

def kSmallBuffer : ℕ := 4000

def kMaxNumericSize : ℕ := 32

/-- A number and the byte that ends it, of which `cur_` skips the number. -/
def storeNumber (text : Text) (b : FixedBuffer) : Option FixedBuffer :=
  (b.store (text ++ [0])).map (FixedBuffer.add text.length)

def formatInteger (v : ℤ) (b : FixedBuffer) : Option FixedBuffer :=
  if kMaxNumericSize ≤ b.avail then (convert v).bind fun text ↦ storeNumber text b else some b

def formatPointer (p : ℕ) (b : FixedBuffer) : Option FixedBuffer :=
  if kMaxNumericSize ≤ b.avail then
    (convertHex p).bind fun text ↦ storeNumber (ascii "0x" ++ text) b
  else some b

/-- `operator<<` -/
def shift (x : Piece) (b : FixedBuffer) : Option FixedBuffer :=
  match x with
  | .boolean v => b.append (ascii (if v = true then "1" else "0"))
  | .integer v => formatInteger v b
  | .pointer p => formatPointer p b
  | .char v => b.append [v]
  | .cstring (some str) => b.append str
  | .cstring none => b.append (ascii "(null)")
  | .string v => b.append v

end LogStream

/-! ## Reading numbers back -/

theorem zeroAt_eq {lsd : ℤ} (h : -9 ≤ lsd ∧ lsd ≤ 9) :
    zeroAt lsd = some (UInt8.ofNat (48 + lsd.natAbs)) := by
  obtain ⟨hlo, hhi⟩ := h
  interval_cases lsd <;> rfl

theorem digit_of_natAbs {n : ℕ} (h : n ≤ 9) :
    Text.isDigit (UInt8.ofNat (48 + n)) = true ∧ (UInt8.ofNat (48 + n)).toNat - 48 = n := by
  interval_cases n <;> decide

/-- The digits of a number, from the right. -/
theorem convertLoop_spec {n : ℕ} {i : ℤ} (hn : i.natAbs < n) :
    ∃ p, convertLoop n i = some p ∧ p ≠ [] ∧ (∀ b ∈ p, Text.isDigit b = true) ∧
      Text.decimal p.reverse = i.natAbs ∧ ∀ k, 0 < k → i.natAbs < 10 ^ k → p.length ≤ k := by
  induction n generalizing i with
  | zero => omega
  | succ n ih =>
      have hmod : (i.tmod 10).natAbs = i.natAbs % 10 := Int.natAbs_tmod i 10
      have hdiv : (i.tdiv 10).natAbs = i.natAbs / 10 := Int.natAbs_tdiv i 10
      obtain ⟨hdigit, hvalue⟩ := digit_of_natAbs (show (i.tmod 10).natAbs ≤ 9 by omega)
      rw [convertLoop, zeroAt_eq (by omega), Option.bind_some]
      set c := UInt8.ofNat (48 + (i.tmod 10).natAbs)
      by_cases hlast : i.tdiv 10 = 0
      · refine ⟨[c], if_pos hlast, List.cons_ne_nil _ _, ?_, ?_, fun k hk _ ↦ hk⟩
        · simpa using hdigit
        · rw [hlast, Int.natAbs_zero] at hdiv
          rw [List.reverse_singleton, ← List.nil_append [c], Text.decimal_append_singleton, hvalue]
          simp only [Text.decimal, List.foldl_nil]
          omega
      · obtain ⟨p, hp, -, hdigits, hdecimal, hlength⟩ := ih (i := i.tdiv 10) (by omega)
        refine ⟨c :: p, ?_, List.cons_ne_nil _ _, ?_, ?_, fun k hk hlt ↦ ?_⟩
        · rw [if_neg hlast, hp, Option.map_some]
        · simpa using ⟨hdigit, hdigits⟩
        · rw [List.reverse_cons, Text.decimal_append_singleton, hdecimal, hvalue]
          omega
        · obtain ⟨k, rfl⟩ := Nat.exists_eq_succ_of_ne_zero hk.ne'
          rw [Nat.succ_eq_add_one, pow_succ] at hlt
          have hpos : 0 < k := by
            rcases Nat.eq_zero_or_pos k with rfl | hpos
            · omega
            · exact hpos
          exact Nat.succ_le_succ (hlength k hpos (by omega))

theorem number_negative {ds : Text} (hne : ds ≠ []) (h : ∀ b ∈ ds, Text.isDigit b = true) :
    Text.number (45 :: ds) = some (-(Text.decimal ds : ℤ)) := by
  have htake : ds.takeWhile Text.isDigit = ds := List.takeWhile_eq_self_iff.mpr h
  obtain ⟨d, ds', rfl⟩ := List.exists_cons_of_ne_nil hne
  have hspace : Text.isSpace 45 = false := by decide
  simp [Text.number, hspace, Text.splitSign, htake]

theorem convert_spec (v : ℤ) :
    ∃ text, convert v = some text ∧ Text.number text = some v ∧
      ∀ k, 0 < k → v.natAbs < 10 ^ k → text.length ≤ k + if v < 0 then 1 else 0 := by
  obtain ⟨p, hp, hne, hdigits, hdecimal, hlength⟩ := convertLoop_spec (Nat.lt_succ_self v.natAbs)
  have hdigits' : ∀ b ∈ p.reverse, Text.isDigit b = true := fun b hb ↦
    hdigits b (List.mem_reverse.mp hb)
  have hne' : p.reverse ≠ [] := List.reverse_ne_nil_iff.mpr hne
  by_cases hneg : v < 0
  · refine ⟨45 :: p.reverse, ?_, ?_, fun k hk hlt ↦ ?_⟩
    · rw [convert, hp]
      simp [hneg]
    · rw [number_negative hne' hdigits', hdecimal]
      congr 1
      omega
    · rw [if_pos hneg, List.length_cons, List.length_reverse]
      exact Nat.succ_le_succ (hlength k hk hlt)
  · refine ⟨p.reverse, ?_, ?_, fun k hk hlt ↦ ?_⟩
    · rw [convert, hp]
      simp [hneg]
    · rw [Text.number_of_digits hne' hdigits', hdecimal]
      congr 1
      omega
    · rw [if_neg hneg, List.length_reverse]
      exact hlength k hk hlt

def hexDigit (b : UInt8) : ℕ := if b ≤ 57 then b.toNat - 48 else b.toNat - 55

def hexValue (text : Text) : ℕ := text.foldl (fun n b ↦ 16 * n + hexDigit b) 0

theorem hexValue_append_singleton (text : Text) (b : UInt8) :
    hexValue (text ++ [b]) = 16 * hexValue text + hexDigit b := by
  simp [hexValue]

theorem exists_digitHex {n : ℕ} (h : n < 16) : ∃ c, digitsHex[n]? = some c ∧ hexDigit c = n := by
  interval_cases n <;> exact ⟨_, rfl, by decide⟩

theorem convertHexLoop_spec {n i : ℕ} (hn : i < n) :
    ∃ p, convertHexLoop n i = some p ∧ hexValue p.reverse = i ∧
      ∀ k, 0 < k → i < 16 ^ k → p.length ≤ k := by
  induction n generalizing i with
  | zero => omega
  | succ n ih =>
      obtain ⟨c, hc, hvalue⟩ := exists_digitHex (Nat.mod_lt i (by norm_num : 16 > 0))
      rw [convertHexLoop, hc, Option.bind_some]
      by_cases hlast : i / 16 = 0
      · refine ⟨[c], if_pos hlast, ?_, fun k hk _ ↦ hk⟩
        rw [List.reverse_singleton, ← List.nil_append [c], hexValue_append_singleton, hvalue]
        simp only [hexValue, List.foldl_nil]
        omega
      · obtain ⟨p, hp, hhex, hlength⟩ := ih (i := i / 16) (by omega)
        refine ⟨c :: p, ?_, ?_, fun k hk hlt ↦ ?_⟩
        · rw [if_neg hlast, hp, Option.map_some]
        · rw [List.reverse_cons, hexValue_append_singleton, hhex, hvalue]
          omega
        · obtain ⟨k, rfl⟩ := Nat.exists_eq_succ_of_ne_zero hk.ne'
          rw [Nat.succ_eq_add_one, pow_succ] at hlt
          have hpos : 0 < k := by
            rcases Nat.eq_zero_or_pos k with rfl | hpos
            · omega
            · exact hpos
          exact Nat.succ_le_succ (hlength k hpos (by omega))

theorem convertHex_spec (v : ℕ) :
    ∃ text, convertHex v = some text ∧ hexValue text = v ∧
      ∀ k, 0 < k → v < 16 ^ k → text.length ≤ k := by
  obtain ⟨p, hp, hvalue, hlength⟩ := convertHexLoop_spec (Nat.lt_succ_self v)
  refine ⟨p.reverse, by rw [convertHex, hp]; rfl, hvalue, fun k hk hlt ↦ ?_⟩
  rw [List.length_reverse]
  exact hlength k hk hlt

/-- Every number is printed, without fail, as a text of the same number, which is
read back if it is in the range of `long`, and that has no more digits than it
needs. -/
theorem convert_roundTrip (v : ℤ) (p : ℕ) :
    (∃ text, convert v = some text ∧ Text.number text = some v ∧
      (-2 ^ 63 ≤ v → v < 2 ^ 63 → Text.strtol text = some v) ∧
      ∀ k, 0 < k → v.natAbs < 10 ^ k → text.length ≤ k + if v < 0 then 1 else 0) ∧
    ∃ text, convertHex p = some text ∧ hexValue text = p ∧
      ∀ k, 0 < k → p < 16 ^ k → text.length ≤ k := by
  obtain ⟨text, hconvert, hnumber, hlength⟩ := convert_spec v
  exact ⟨⟨text, hconvert, hnumber, fun hv hv' ↦ Text.strtol_of_number hnumber hv hv', hlength⟩,
    convertHex_spec p⟩

/-! ## Pieces are kept whole -/

namespace Piece

/-- What a piece looks like. -/
def text : Piece → Text
  | boolean v => ascii (if v = true then "1" else "0")
  | integer v => (convert v).getD []
  | pointer p => ascii "0x" ++ (convertHex p).getD []
  | char v => [v]
  | cstring str => str.getD (ascii "(null)")
  | string v => v

/-- The numbers are those of the integer types. -/
def Valid : Piece → Prop
  | integer v => -2 ^ 63 ≤ v ∧ v < 2 ^ 64
  | pointer p => p < 2 ^ 64
  | _ => True

instance (x : Piece) : Decidable x.Valid :=
  match x with
  | integer v => inferInstanceAs (Decidable (-2 ^ 63 ≤ v ∧ v < 2 ^ 64))
  | pointer p => inferInstanceAs (Decidable (p < 2 ^ 64))
  | boolean _ | char _ | cstring _ | string _ => isTrue trivial

/-- The room that a piece is given only if it is there. -/
def need (x : Piece) : ℕ :=
  match x with
  | integer _ | pointer _ => LogStream.kMaxNumericSize
  | _ => x.text.length + 1

theorem need_le (x : Piece) : x.need ≤ x.text.length + LogStream.kMaxNumericSize := by
  cases x with
  | integer v => exact Nat.le_add_left _ _
  | pointer p => exact Nat.le_add_left _ _
  | _ => exact Nat.add_le_add_left (by decide) _

end Piece

/-- The buffer has this much before `cur_`, and room for one byte more. -/
structure FixedBuffer.Holds (size : ℕ) (text : Text) (b : FixedBuffer) : Prop where
  bytes_length : b.bytes.length = size
  cur_lt : b.cur < size
  data_eq : b.data = text

namespace FixedBuffer

variable {size : ℕ} {text more : Text} {b : FixedBuffer}

theorem holds_new (h : 0 < size) : (new size).Holds size [] :=
  ⟨List.length_replicate, h, rfl⟩

theorem Holds.length (h : b.Holds size text) : text.length = b.cur := by
  rw [← h.data_eq, data, List.length_take_of_le (h.bytes_length.symm ▸ h.cur_lt.le)]

theorem Holds.avail (h : b.Holds size text) : b.avail = size - text.length := by
  rw [FixedBuffer.avail, h.bytes_length, h.length]

theorem Holds.store_add (h : b.Holds size text) {tail : Text}
    (hfits : text.length + (more ++ tail).length ≤ size)
    (hroom : text.length + more.length < size) :
    ∃ t, (b.store (more ++ tail)).map (add more.length) = some t ∧ t.Holds size (text ++ more) := by
  have hcur := h.length
  have hsize := h.bytes_length
  have hle : b.cur + (more ++ tail).length ≤ b.bytes.length := by omega
  refine ⟨_, by rw [store, if_pos hle, Option.map_some], ?_, ?_, ?_⟩
  · simp only [add, List.length_append, List.length_take, List.length_drop] at hle ⊢
    omega
  · simp only [add]
    omega
  · have htake : (b.bytes.take b.cur ++ more).length = b.cur + more.length := by
      rw [List.length_append, List.length_take_of_le (by omega)]
    simp only [data, add, List.append_assoc]
    rw [← List.append_assoc (b.bytes.take b.cur), ← htake, List.take_left, ← h.data_eq, data]

end FixedBuffer

namespace LogStream

variable {size : ℕ} {text : Text} {b : FixedBuffer}

theorem append_spec (h : b.Holds size text) (buf : Text) :
    ∃ t, b.append buf = some t ∧
      t.Holds size (if text.length + (buf.length + 1) ≤ size then text ++ buf else text) := by
  have hlt := h.length ▸ h.cur_lt
  rw [FixedBuffer.append, h.avail]
  by_cases hfits : buf.length < size - text.length
  · rw [if_pos hfits, if_pos (by omega)]
    obtain ⟨t, ht, hholds⟩ : ∃ t, (b.store (buf ++ [])).map (FixedBuffer.add buf.length) = some t ∧
        t.Holds size (text ++ buf) :=
      h.store_add (by rw [List.append_nil]; omega) (by omega)
    rw [List.append_nil] at ht
    exact ⟨t, ht, hholds⟩
  · rw [if_neg hfits, if_neg (by omega)]
    exact ⟨b, rfl, h⟩

theorem storeNumber_spec (h : b.Holds size text) {number : Text}
    (hlen : number.length < kMaxNumericSize) :
    ∃ t, (if kMaxNumericSize ≤ b.avail then storeNumber number b else some b) = some t ∧
      t.Holds size (if text.length + kMaxNumericSize ≤ size then text ++ number else text) := by
  have hlt := h.length ▸ h.cur_lt
  rw [h.avail]
  by_cases hroom : text.length + kMaxNumericSize ≤ size
  · rw [if_pos (by omega), if_pos hroom]
    exact h.store_add (by rw [List.length_append, List.length_singleton]; omega) (by omega)
  · rw [if_neg (by omega), if_neg hroom]
    exact ⟨b, rfl, h⟩

theorem shift_spec (h : b.Holds size text) {x : Piece} (hx : x.Valid) :
    ∃ t, shift x b = some t ∧
      t.Holds size (if text.length + x.need ≤ size then text ++ x.text else text) := by
  cases x with
  | boolean v => exact append_spec h _
  | char v => exact append_spec h _
  | string v => exact append_spec h _
  | cstring str =>
      cases str with
      | none => exact append_spec h _
      | some str => exact append_spec h _
  | integer v =>
      obtain ⟨number, hnumber, -, hlength⟩ := convert_spec v
      have hlen := hlength 20 (by norm_num) (by simp only [Piece.Valid] at hx; omega)
      rw [shift, formatInteger, Piece.need, Piece.text, hnumber, Option.getD_some,
        Option.bind_some]
      refine storeNumber_spec h ?_
      rw [kMaxNumericSize]
      split_ifs at hlen <;> omega
  | pointer p =>
      obtain ⟨number, hnumber, -, hlength⟩ := convertHex_spec p
      have hlen := hlength 16 (by norm_num) (by simp only [Piece.Valid] at hx; omega)
      rw [shift, formatPointer, Piece.need, Piece.text, hnumber, Option.getD_some,
        Option.bind_some]
      refine storeNumber_spec h ?_
      have htwo : (ascii "0x").length = 2 := rfl
      rw [List.length_append, htwo, kMaxNumericSize]
      omega

/-- A line of pieces from a state of the buffer on. -/
theorem exists_runAll_shift (h : b.Holds size text) {xs : List Piece} (hxs : ∀ x ∈ xs, x.Valid) :
    ∃ t kept, runAll shift xs b = some t ∧ kept.Sublist xs ∧
      t.Holds size (text ++ (kept.map Piece.text).flatten) ∧
      (text.length + (xs.map Piece.text).flatten.length + kMaxNumericSize ≤ size → kept = xs) := by
  induction xs generalizing b text with
  | nil => exact ⟨b, [], rfl, List.Sublist.refl _, by simpa using h, fun _ ↦ rfl⟩
  | cons x xs ih =>
      obtain ⟨r, hr, hholds⟩ := shift_spec h (hxs x List.mem_cons_self)
      have hrest := fun y hy ↦ hxs y (List.mem_cons_of_mem x hy)
      by_cases hfits : text.length + x.need ≤ size
      · rw [if_pos hfits] at hholds
        obtain ⟨t, kept, ht, hsub, hholds', hall⟩ := ih hholds hrest
        refine ⟨t, x :: kept, runAll_cons_iff.mpr ⟨r, hr, ht⟩, hsub.cons_cons x, ?_, fun hle ↦ ?_⟩
        · simpa [List.append_assoc] using hholds'
        · rw [hall]
          simp only [List.map_cons, List.flatten_cons, List.length_append] at hle ⊢
          omega
      · rw [if_neg hfits] at hholds
        obtain ⟨t, kept, ht, hsub, hholds', -⟩ := ih hholds hrest
        refine ⟨t, kept, runAll_cons_iff.mpr ⟨r, hr, ht⟩, hsub.cons x, hholds', fun hle ↦ ?_⟩
        have hneed := x.need_le
        simp only [List.map_cons, List.flatten_cons, List.length_append] at hle
        omega

/-- Nothing is written outside the buffer of a line, each piece is in the line
whole or not at all, and all are in it when they leave room for a number. -/
theorem logStream_keeps_whole_pieces {xs : List Piece} (hxs : ∀ x ∈ xs, x.Valid) :
    ∃ b kept, runAll shift xs (.new kSmallBuffer) = some b ∧ kept.Sublist xs ∧
      b.data = (kept.map Piece.text).flatten ∧ b.cur < b.bytes.length ∧
      ((xs.map Piece.text).flatten.length + kMaxNumericSize ≤ kSmallBuffer → kept = xs) := by
  have hnew : (FixedBuffer.new kSmallBuffer).Holds kSmallBuffer [] :=
    FixedBuffer.holds_new (by decide)
  obtain ⟨b, kept, hb, hsub, hholds, hall⟩ := exists_runAll_shift hnew hxs
  refine ⟨b, kept, hb, hsub, hholds.data_eq, hholds.bytes_length.symm ▸ hholds.cur_lt, fun hle ↦ ?_⟩
  exact hall (by simpa using hle)

theorem logStream_keeps_whole_pieces_example :
    ∃ b kept, runAll shift [.cstring none, .integer (-2 ^ 63), .pointer 255] (.new kSmallBuffer) =
        some b ∧
      kept.Sublist [.cstring none, .integer (-2 ^ 63), .pointer 255] ∧
      b.data = (kept.map Piece.text).flatten ∧ b.cur < b.bytes.length ∧
      (([Piece.cstring none, .integer (-2 ^ 63), .pointer 255].map Piece.text).flatten.length +
        kMaxNumericSize ≤ kSmallBuffer →
          kept = [.cstring none, .integer (-2 ^ 63), .pointer 255]) :=
  logStream_keeps_whole_pieces (by decide)

end LogStream

end PpDSCache.Base
