import PpDSCache.Master.PpMaster

/-!
# Marking the reset slots in a vector

The source has two definitions of `set_vector_bits`.  Both go through the
bitset in blocks of 64: the first collects the positions of a block's set bits
and then writes them, the second shifts the block along with the entries.
Both cut a block out of one machine word, so neither gets past the first one.
-/

namespace PpDSCache.Master

open Cpp

/-! ## The two definitions -/

/-- The two arguments `set_vector_bits` may write to. -/
structure VectorBits where
  bits : SlotSet
  vec : List ℤ

namespace VectorBits

/-- `vec[pos] = 2`. -/
def mark (pos : ℕ) : Code VectorBits Unit := do
  if pos < (← get).vec.length then
    modify fun s ↦ { s with vec := s.vec.set pos 2 }
  else Code.undefined .vectorIndex

/-- The inner `while` loop of the first definition, whose count stops it after
64 rounds. -/
def positions (base : ℕ) : ℕ → BitVec 64 → List ℕ
  | 0, _ => []
  | fuel + 1, block =>
      if block = 0 then []
      else (base + ctzll block) :: positions base fuel (block &&& (block - 1))

def markAll : List ℕ → Code VectorBits Unit
  | [] => pure ()
  | pos :: rest => do
      mark pos
      markAll rest

/-- `to_ulong` of the second definition gives a word of 64 bits too. -/
def cutBlock (resetBits : SlotSet) (i : ℕ) : Code VectorBits (BitVec 64) := do
  shrUllong (← Bitset.toUllong resetBits) (i * 64)

def forBlocks (resetBits : SlotSet) (body : ℕ → BitVec 64 → Code VectorBits Unit) :
    List ℕ → Code VectorBits Unit
  | [] => pure ()
  | i :: rest => do
      let block ← cutBlock resetBits i
      body i block
      forBlocks resetBits body rest

/-- The first definition. -/
def setVectorBits (resetBits : SlotSet) : Code VectorBits Unit :=
  forBlocks resetBits (fun i block ↦ markAll (positions (i * 64) 64 block)) (List.range 256)

/-- The body of the lambda: `value` refers to the entry at `pos`. -/
def shiftEntry (pos : ℕ) (block : BitVec 64) : Code VectorBits Unit := do
  if (← get).vec.length ≤ pos then Code.undefined .vectorIndex
  if block &&& 1 ≠ 0 then mark pos

/-- The `for_each` of the second definition over the entries of one block. -/
def shiftBlock : List ℕ → BitVec 64 → Code VectorBits Unit
  | [], _ => pure ()
  | pos :: rest, block => do
      shiftEntry pos block
      shiftBlock rest (block >>> 1)

/-- The bitset of a string that ends at the first zero, here of `int`s: every
character is `'0'` or `'1'`, the highest bit first. -/
def bitsetOfString (data : List ℤ) : Code VectorBits SlotSet := do
  let str := data.takeWhile (· ≠ 0)
  if str.length = data.length then Code.undefined .vectorIndex
  if (str.take SLOTS_NUM).all fun c ↦ c = 48 ∨ c = 49 then
    pure (BitVec.ofNat SLOTS_NUM ((str.take SLOTS_NUM).foldl (fun v c ↦ 2 * v + (c.toNat - 48)) 0))
  else Code.raise .invalidArgument

/-- The second definition. -/
def setVectorBits' (resetBits : SlotSet) : Code VectorBits Unit := do
  forBlocks resetBits (fun i block ↦ shiftBlock (List.range' (i * 64) 64) block) (List.range 256)
  let bits ← bitsetOfString (← get).vec
  modify fun s ↦ { s with bits := bits }

/-! ## The bits of a word -/

theorem ctzll_spec {block : BitVec 64} (h : block ≠ 0) :
    ctzll block < 64 ∧ block.getLsbD (ctzll block) = true ∧
      ∀ i, i < ctzll block → block.getLsbD i = false := by
  cases hfind : (List.range 64).find? fun i ↦ block.getLsbD i with
  | none =>
      refine absurd (BitVec.eq_of_getLsbD_eq fun i hi ↦ ?_) h
      have hnot := List.find?_eq_none.mp hfind i (List.mem_range.mpr hi)
      simpa using hnot
  | some k =>
      have hk : ctzll block = k := by rw [ctzll, hfind, Option.getD_some]
      obtain ⟨hbit, hmem, hlow⟩ := List.find?_range_eq_some.mp hfind
      rw [hk]
      exact ⟨List.mem_range.mp hmem, hbit, fun i hi ↦ by simpa using hlow i hi⟩

/-- `x & (x - 1)` clears the lowest set bit of `x`. -/
theorem testBit_and_pred {n k : ℕ} (hk : n.testBit k = true)
    (hlow : ∀ i, i < k → n.testBit i = false) (i : ℕ) :
    (n &&& (n - 1)).testBit i = (n.testBit i && decide (i ≠ k)) := by
  have hdvd : n % 2 ^ k = 0 := by
    apply Nat.eq_of_testBit_eq
    intro j
    by_cases hj : j < k <;> simp [Nat.testBit_mod_two_pow, hj, hlow]
  obtain ⟨q, rfl⟩ := Nat.dvd_of_mod_eq_zero hdvd
  have hodd : q % 2 = 1 := by simpa [Nat.testBit_two_pow_mul, Nat.testBit_zero] using hk
  obtain ⟨m, rfl⟩ : ∃ m, q = 2 * m + 1 := ⟨q / 2, by omega⟩
  have hpred : 2 ^ k * (2 * m + 1) - 1 = 2 ^ k * (2 * m) + (2 ^ k - 1) := by
    have := Nat.two_pow_pos k
    rw [Nat.mul_add, Nat.mul_one]
    omega
  have hlt : 2 ^ k - 1 < 2 ^ k := Nat.sub_lt (Nat.two_pow_pos k) Nat.one_pos
  rw [Nat.testBit_and, hpred, Nat.testBit_two_pow_mul_add _ hlt, Nat.testBit_two_pow_mul]
  rcases lt_trichotomy i k with hi | rfl | hi
  · simp [hi, hi.ne, Nat.not_le.mpr hi]
  · simp [Nat.testBit_zero]
  · obtain ⟨j, rfl⟩ := Nat.exists_eq_add_of_lt hi
    have hsub : k + j + 1 - k = j + 1 := by omega
    have hhalf : (2 * m + 1) / 2 = 2 * m / 2 := by omega
    have hnlt : ¬ k + j + 1 < k := by omega
    have hne : k + j + 1 ≠ k := by omega
    simp [hsub, Nat.testBit_succ, hhalf, hnlt, hne]

theorem getLsbD_and_pred {block : BitVec 64} (h : block ≠ 0) (i : ℕ) :
    (block &&& (block - 1)).getLsbD i = (block.getLsbD i && decide (i ≠ ctzll block)) := by
  obtain ⟨-, hbit, hlow⟩ := ctzll_spec h
  have hpos : 1 ≤ block.toNat := Nat.one_le_iff_ne_zero.mpr fun hzero ↦
    h (BitVec.eq_of_toNat_eq hzero)
  have hpred : (block - 1).toNat = block.toNat - 1 := BitVec.toNat_sub_of_le hpos
  rw [BitVec.getLsbD, BitVec.toNat_and, hpred]
  exact testBit_and_pred hbit hlow i

/-! ## What a block writes -/

/-- The entries at the given positions are 2, the others as before. -/
structure Marked (marked : ℕ → Bool) (s t : VectorBits) : Prop where
  bits : t.bits = s.bits
  length : t.vec.length = s.vec.length
  vec : ∀ p : ℕ, t.vec[p]? = if marked p then s.vec[p]?.map fun _ ↦ 2 else s.vec[p]?

namespace Marked

variable {marked marked' : ℕ → Bool} {s t u : VectorBits}

theorem refl (h : ∀ p, marked p = false) : Marked marked s s :=
  ⟨rfl, rfl, fun p ↦ by simp [h p]⟩

theorem trans (h : Marked marked s t) (h' : Marked marked' t u) :
    Marked (fun p ↦ marked p || marked' p) s u := by
  refine ⟨h'.bits.trans h.bits, h'.length.trans h.length, fun p ↦ ?_⟩
  rw [h'.vec, h.vec]
  cases marked p <;> cases marked' p <;> simp [Function.comp_def]

theorem congr (h : Marked marked s t) (heq : ∀ p, marked p = marked' p) : Marked marked' s t := by
  obtain rfl : marked = marked' := funext heq
  exact h

theorem unique (h : Marked marked s t) (h' : Marked marked s u) : t = u := by
  obtain ⟨bits, vec⟩ := t
  obtain ⟨bits', vec'⟩ := u
  obtain rfl : bits = bits' := h.bits.trans h'.bits.symm
  obtain rfl : vec = vec' := List.ext_getElem? fun p ↦ (h.vec p).trans (h'.vec p).symm
  rfl

end Marked

variable {s : VectorBits}

theorem mark_run {pos : ℕ} (h : pos < s.vec.length) :
    ∃ t, (mark pos).run s = .ok () t ∧ Marked (fun p ↦ decide (p = pos)) s t := by
  refine ⟨{ s with vec := s.vec.set pos 2 }, by simp [mark, h], rfl, List.length_set, fun p ↦ ?_⟩
  by_cases hp : p = pos
  · subst hp
    simp [h]
  · simp [hp, Ne.symm hp]

theorem markAll_run (ps : List ℕ) (h : ∀ p ∈ ps, p < s.vec.length) :
    ∃ t, (markAll ps).run s = .ok () t ∧ Marked (fun p ↦ decide (p ∈ ps)) s t := by
  induction ps generalizing s with
  | nil => exact ⟨s, rfl, .refl (by simp)⟩
  | cons pos rest ih =>
      obtain ⟨hpos, hrest⟩ := List.forall_mem_cons.mp h
      obtain ⟨t, ht, hmark⟩ := mark_run hpos
      obtain ⟨u, hu, hmarks⟩ := ih (s := t) (by simpa only [hmark.length] using hrest)
      refine ⟨u, by simp [markAll, EStateM.run_bind, ht, hu], ?_⟩
      exact (hmark.trans hmarks).congr (by simp)

/-- With as much fuel as bits that may be set, the loop collects them all. -/
theorem mem_positions {base fuel : ℕ} {block : BitVec 64}
    (hlow : ∀ i, i + fuel < 64 → block.getLsbD i = false) (p : ℕ) :
    p ∈ positions base fuel block ↔ base ≤ p ∧ block.getLsbD (p - base) = true := by
  induction fuel generalizing block with
  | zero =>
      have hzero : ∀ i, block.getLsbD i = false := by
        intro i
        by_cases hi : i < 64
        · exact hlow i hi
        · exact BitVec.getLsbD_of_ge block i (by omega)
      simp [positions, hzero]
  | succ fuel ih =>
      by_cases hblock : block = 0
      · subst hblock
        simp [positions]
      · obtain ⟨hlt, hbit, hbelow⟩ := ctzll_spec hblock
        rw [positions, if_neg hblock, List.mem_cons, ih ?_]
        · rw [getLsbD_and_pred hblock]
          by_cases hp : p = base + ctzll block
          · subst hp
            simp [hbit]
          · have hne : base ≤ p → p - base ≠ ctzll block := by omega
            simp only [hp, false_or, Bool.and_eq_true, decide_eq_true_eq]
            exact ⟨fun h ↦ ⟨h.1, h.2.1⟩, fun h ↦ ⟨h.1, h.2, hne h.1⟩⟩
        · intro i hi
          rw [getLsbD_and_pred hblock]
          have hge : 64 ≤ ctzll block + (fuel + 1) := by
            by_contra hcon
            rw [hlow _ (by omega)] at hbit
            cases hbit
          by_cases hik : i = ctzll block
          · simp [hik]
          · rw [hbelow i (by omega), Bool.false_and]

theorem and_one_ne_zero_iff (block : BitVec 64) :
    block &&& 1 ≠ 0 ↔ block.getLsbD 0 = true := by
  rw [show block &&& 1 = (BitVec.ofBool (block.getLsbD 0)).setWidth 64 from
    BitVec.and_one_eq_setWidth_ofBool_getLsbD]
  cases block.getLsbD 0 <;> decide

theorem shiftEntry_run (pos : ℕ) (block : BitVec 64) (h : pos < s.vec.length) :
    ∃ t, (shiftEntry pos block).run s = .ok () t ∧
      Marked (fun p ↦ decide (p = pos) && block.getLsbD 0) s t := by
  have hodd := and_one_ne_zero_iff block
  have hin : ¬ s.vec.length ≤ pos := by omega
  by_cases hbit : block.getLsbD 0 = true
  · obtain ⟨t, ht, hmark⟩ := mark_run h
    refine ⟨t, ?_, hmark.congr fun p ↦ by rw [hbit, Bool.and_true]⟩
    rw [shiftEntry, if_pos (hodd.mpr hbit)]
    simpa [hin] using ht
  · refine ⟨s, ?_, .refl fun p ↦ by rw [Bool.eq_false_of_not_eq_true hbit, Bool.and_false]⟩
    rw [shiftEntry, if_neg (hodd.not.mpr hbit)]
    simp [hin]

theorem shiftBlock_run (n base : ℕ) (block : BitVec 64) (h : base + n ≤ s.vec.length) :
    ∃ t, (shiftBlock (List.range' base n) block).run s = .ok () t ∧
      Marked (fun p ↦ decide (base ≤ p ∧ p < base + n) && block.getLsbD (p - base)) s t := by
  induction n generalizing base block s with
  | zero => exact ⟨s, rfl, .refl (by simp)⟩
  | succ n ih =>
      obtain ⟨r, hr, hfirst⟩ := shiftEntry_run (s := s) base block (by omega)
      obtain ⟨t, ht, hrest⟩ := ih (base + 1) (block >>> 1) (s := r)
        (by rw [hfirst.length]; omega)
      refine ⟨t, ?_, (hfirst.trans hrest).congr fun p ↦ ?_⟩
      · rw [List.range'_succ, shiftBlock]
        simp [EStateM.run_bind, hr, ht]
      · rcases lt_trichotomy p base with hp | rfl | hp
        · simp [hp.ne, Nat.not_le.mpr hp, show ¬ base + 1 ≤ p by omega]
        · simp
        · have hsub : 1 + (p - (base + 1)) = p - base := by omega
          have hrange : decide (base + 1 ≤ p ∧ p < base + 1 + n) =
              decide (base ≤ p ∧ p < base + (n + 1)) := decide_eq_decide.mpr (by omega)
          rw [BitVec.getLsbD_ushiftRight, hsub, hrange, decide_eq_false hp.ne', Bool.false_and,
            Bool.false_or]

/-! ## Neither definition completes -/

/-- The vector is marked at the reset slots and otherwise as before. -/
def SetsVector (code : Code VectorBits Unit) (resetBits : SlotSet) (s : VectorBits) : Prop :=
  ∃ t, code.run s = .ok () t ∧
    ∀ p : ℕ, t.vec[p]? = if resetBits.getLsbD p then s.vec[p]?.map fun _ ↦ 2 else s.vec[p]?

/-- How both definitions end: the word cannot hold the bitset, or the second
block is cut out with a shift by the whole width. -/
def blockFault (resetBits : SlotSet) : Fault :=
  if resetBits.toNat < 2 ^ 64 then .undefined .shiftRange else .thrown .overflowError

theorem forBlocks_overflow {resetBits : SlotSet} (h : ¬ resetBits.toNat < 2 ^ 64)
    (body : ℕ → BitVec 64 → Code VectorBits Unit) (i : ℕ) (rest : List ℕ) :
    (forBlocks resetBits body (i :: rest)).run s = .error (blockFault resetBits) s := by
  rw [blockFault, if_neg h, forBlocks, cutBlock, Bitset.toUllong, if_neg h]
  simp [EStateM.run_bind]

/-- The loop stops after the first block. -/
theorem forBlocks_shift {resetBits : SlotSet} (h : resetBits.toNat < 2 ^ 64)
    {body : ℕ → BitVec 64 → Code VectorBits Unit} {t : VectorBits}
    (hbody : (body 0 (resetBits.setWidth 64)).run s = .ok () t) (rest : List ℕ) :
    (forBlocks resetBits body (0 :: 1 :: rest)).run s = .error (blockFault resetBits) t := by
  have hword : (Bitset.toUllong resetBits : Code VectorBits (BitVec 64)) =
      pure (resetBits.setWidth 64) := by rw [Bitset.toUllong, if_pos h]
  rw [blockFault, if_pos h, forBlocks, forBlocks]
  simp [EStateM.run_bind, cutBlock, hword, shrUllong, hbody]

theorem range_blocks : List.range 256 = 0 :: 1 :: List.range' 2 254 := by
  rw [List.range_eq_range', List.range'_succ, List.range'_succ]

section FirstBlock

variable {resetBits : SlotSet} (hfits : resetBits.toNat < 2 ^ 64)
  (hlen : s.vec.length = SLOTS_NUM)

include hfits

theorem getLsbD_word (p : ℕ) : (resetBits.setWidth 64).getLsbD p = resetBits.getLsbD p := by
  by_cases hp : p < 64
  · rw [BitVec.getLsbD_setWidth, decide_eq_true hp, Bool.true_and]
  · rw [(Bitset.toNat_lt_iff resetBits).mp hfits p (by omega)]
    exact BitVec.getLsbD_of_ge _ _ (by omega)

include hlen

theorem markAll_firstBlock :
    ∃ t, (markAll (positions (0 * 64) 64 (resetBits.setWidth 64))).run s = .ok () t ∧
      Marked resetBits.getLsbD s t := by
  have hmem (p : ℕ) : p ∈ positions (0 * 64) 64 (resetBits.setWidth 64) ↔
      resetBits.getLsbD p = true := by
    rw [mem_positions fun i hi ↦ absurd hi (by omega), getLsbD_word hfits]
    simp
  obtain ⟨t, ht, hmark⟩ := markAll_run (s := s) (positions (0 * 64) 64 (resetBits.setWidth 64))
    fun p hp ↦ hlen ▸ BitVec.lt_of_getLsbD ((hmem p).mp hp)
  refine ⟨t, ht, hmark.congr fun p ↦ ?_⟩
  rw [Bool.eq_iff_iff, decide_eq_true_iff, hmem]

theorem shiftBlock_firstBlock :
    ∃ t, (shiftBlock (List.range' (0 * 64) 64) (resetBits.setWidth 64)).run s = .ok () t ∧
      Marked resetBits.getLsbD s t := by
  obtain ⟨t, ht, hmark⟩ := shiftBlock_run (s := s) 64 (0 * 64) (resetBits.setWidth 64)
    (by rw [hlen]; norm_num)
  refine ⟨t, ht, hmark.congr fun p ↦ ?_⟩
  rw [getLsbD_word hfits, Nat.zero_mul, Nat.sub_zero]
  by_cases hp : p < 64
  · simp [hp]
  · simp [hp, (Bitset.toNat_lt_iff resetBits).mp hfits p (by omega)]

end FirstBlock

/-- Both definitions stop with the same vector, in which the slots of the
first block are marked. -/
theorem exists_run_setVectorBits (resetBits : SlotSet) (hlen : s.vec.length = SLOTS_NUM) :
    ∃ t, (setVectorBits resetBits).run s = .error (blockFault resetBits) t ∧
      (setVectorBits' resetBits).run s = .error (blockFault resetBits) t := by
  rw [setVectorBits, setVectorBits', range_blocks, EStateM.run_bind]
  by_cases hfits : resetBits.toNat < 2 ^ 64
  · obtain ⟨t, ht, hmark⟩ := markAll_firstBlock hfits hlen
    obtain ⟨u, hu, hmark'⟩ := shiftBlock_firstBlock hfits hlen
    obtain rfl : t = u := hmark.unique hmark'
    refine ⟨t, forBlocks_shift hfits ht _, ?_⟩
    rw [forBlocks_shift hfits hu]
  · refine ⟨s, forBlocks_overflow hfits _ _ _, ?_⟩
    rw [forBlocks_overflow hfits]

/-- Neither definition completes for any bitset: the word cannot hold it, or
the second block shifts by the whole width of the word. -/
theorem setVectorBits_never (resetBits : SlotSet) (s : VectorBits)
    (hlen : s.vec.length = SLOTS_NUM) :
    (∃ t, (setVectorBits resetBits).run s = .error (blockFault resetBits) t ∧
      (setVectorBits' resetBits).run s = .error (blockFault resetBits) t) ∧
    ¬ SetsVector (setVectorBits resetBits) resetBits s ∧
    ¬ SetsVector (setVectorBits' resetBits) resetBits s := by
  obtain ⟨t, hfirst, hsecond⟩ := exists_run_setVectorBits resetBits hlen
  refine ⟨⟨t, hfirst, hsecond⟩, ?_, ?_⟩
  · rintro ⟨u, hu, -⟩
    rw [hfirst] at hu
    cases hu
  · rintro ⟨u, hu, -⟩
    rw [hsecond] at hu
    cases hu

/-- Every entry zero, as a new vector is. -/
def zeroVector : VectorBits := ⟨0, List.replicate SLOTS_NUM 0⟩

theorem setVectorBits_never_high :
    ∃ t, (setVectorBits (BitVec.allOnes SLOTS_NUM)).run zeroVector =
      .error (blockFault (BitVec.allOnes SLOTS_NUM)) t := by
  obtain ⟨⟨t, ht, -⟩, -⟩ := setVectorBits_never (BitVec.allOnes SLOTS_NUM) zeroVector
    List.length_replicate
  exact ⟨t, ht⟩

/-- Already for slot 0 alone both definitions execute a shift by 64. -/
theorem not_setsVector_one :
    (∃ t, (setVectorBits 1).run zeroVector = .error (.undefined .shiftRange) t ∧
      (setVectorBits' 1).run zeroVector = .error (.undefined .shiftRange) t) ∧
    ¬ (SetsVector (setVectorBits 1) 1 zeroVector ∧
      SetsVector (setVectorBits' 1) 1 zeroVector) := by
  have hfault : blockFault 1 = .undefined .shiftRange := if_pos (by decide +kernel)
  obtain ⟨t, hfirst, hsecond⟩ := exists_run_setVectorBits (s := zeroVector) 1
    List.length_replicate
  rw [hfault] at hfirst hsecond
  refine ⟨⟨t, hfirst, hsecond⟩, ?_⟩
  rintro ⟨⟨u, hu, -⟩, -⟩
  rw [hfirst] at hu
  cases hu

end VectorBits

end PpDSCache.Master
