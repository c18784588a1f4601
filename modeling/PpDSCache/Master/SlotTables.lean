import PpDSCache.Abstract.Runs
import PpDSCache.Master.PpMaster

/-!
# The two routing tables

The assignment of slots is stored twice, as a set for each server and as a
server for each slot.  The two calls that change the sets leave the vector
alone, so the tables stay in agreement exactly while no set changes.
-/

namespace PpDSCache.Master.PpMaster

open Cpp Abstract

def slotsOf (m : PpMaster) (id : ℤ) : SlotSet := (m.idToSlots id).getD 0

structure Agree (m : PpMaster) : Prop where
  length : m.slotsToId.length = SLOTS_NUM
  routed_iff : ∀ id slot, slot < SLOTS_NUM →
    (m.slotsToId[slot]? = some id ↔ (m.slotsOf id).getLsbD slot = true)

def RoutesToHolder (m : PpMaster) : Prop :=
  ∀ slot id, m.slotsToId[slot]? = some id → (m.slotsOf id).getLsbD slot = true

structure SameSlots (m t : PpMaster) : Prop where
  slotsToId : t.slotsToId = m.slotsToId
  slotsOf : ∀ id, t.slotsOf id = m.slotsOf id

variable {m t : PpMaster}

theorem Agree.routesToHolder (h : m.Agree) : m.RoutesToHolder := by
  intro slot id hslot
  have hlt : slot < SLOTS_NUM := h.length ▸ (List.getElem?_eq_some_iff.mp hslot).1
  exact (h.routed_iff id slot hlt).mp hslot

theorem SameSlots.agree (hs : SameSlots m t) (h : m.Agree) : t.Agree where
  length := by rw [hs.slotsToId, h.length]
  routed_iff := by
    intro id slot hslot
    rw [hs.slotsToId, hs.slotsOf, h.routed_iff id slot hslot]

theorem idToSlotsAt_run (m : PpMaster) (id : ℤ) :
    ∃ t, (idToSlotsAt id).run m = .ok (m.slotsOf id) t ∧ SameSlots m t := by
  cases h : m.idToSlots id with
  | some slots => exact ⟨m, by simp [idToSlotsAt, slotsOf, h], rfl, fun _ ↦ rfl⟩
  | none =>
      refine ⟨{ m with idToSlots := Function.update m.idToSlots id (some 0) }, ?_, rfl, ?_⟩
      · simp [idToSlotsAt, slotsOf, h]
      · intro j
        by_cases hj : j = id
        · simp [slotsOf, hj, h]
        · simp [slotsOf, hj]

/-! ## The mask of `rangeSetSlots` -/

def MaskDefined (start stop : ℤ) : Prop :=
  0 ≤ start ∧ start < 32 ∧ start ≤ stop ∧ stop ≤ 32 ∧ stop - start ≤ 30

/-- Where the bits of the mask end: bit 31 is the sign of an `int`, which the
conversion to 64 bits extends. -/
def maskEnd (stop : ℤ) : ℤ := if stop = 32 then 64 else stop

theorem rangeMask_eq {start stop : ℤ} {w : ℕ} (hwidth : stop - start = w) (hw : w ≤ 30) :
    rangeMask start stop = (do
      let mask ← shlInt ((2 ^ w - 1 : ℕ) : ℤ) start
      pure (Bitset.ofUllong SLOTS_NUM (toUllong mask))) := by
  have hpow : 2 ^ w ≤ 2 ^ 30 := Nat.pow_le_pow_right (by norm_num) hw
  have hpos : 0 < 2 ^ w := Nat.two_pow_pos w
  have hones : (subInt ((2 ^ w : ℕ) : ℤ) 1 : Code PpMaster ℤ) = pure ((2 ^ w - 1 : ℕ) : ℤ) := by
    rw [subInt_of_range (by omega)]
    congr 1
    omega
  rw [rangeMask, subInt_of_range (by omega), pure_bind, hwidth, shlInt_one hw, pure_bind, hones,
    pure_bind]

theorem rangeMask_natCast {k w : ℕ} (hk : k < 32) (hw : w ≤ 30) (hkw : k + w ≤ 32) :
    rangeMask k (k + w : ℕ) = pure (Bitset.ofUllong SLOTS_NUM
      (toUllong ((((2 ^ w - 1) * 2 ^ k : ℕ) : ℤ).bmod (2 ^ 32)))) := by
  have hfit : (2 ^ w - 1) * 2 ^ k < 2 ^ 32 :=
    (ones_shifted_lt w k).trans_le (Nat.pow_le_pow_right (by norm_num) hkw)
  rw [rangeMask_eq (w := w) (by push_cast; omega) hw, shlInt_natCast hk hfit, pure_bind]

theorem getLsbD_rangeMask {k w : ℕ} (hk : k < 32) (hkw : k + w ≤ 32) (slot : ℕ) :
    (Bitset.ofUllong SLOTS_NUM
      (toUllong ((((2 ^ w - 1) * 2 ^ k : ℕ) : ℤ).bmod (2 ^ 32)))).getLsbD slot = true ↔
        (k : ℤ) ≤ slot ∧ (slot : ℤ) < maskEnd (k + w : ℕ) := by
  have hlt := ones_shifted_lt w k
  rw [Bitset.ofUllong, BitVec.getLsbD_setWidth]
  by_cases hend : k + w = 32
  · -- the sign bit is set: the value is minus a power of two
    have hpow : 2 ^ k * 2 ^ w = 2 ^ 32 := by rw [← pow_add, hend]
    have hval : (2 ^ w - 1) * 2 ^ k = 2 ^ 32 - 2 ^ k := by
      rw [Nat.sub_mul, Nat.one_mul, Nat.mul_comm, hpow]
    have hle : 2 ^ k ≤ 2 ^ 31 := Nat.pow_le_pow_right (by norm_num) (by omega)
    have hneg : (((2 ^ w - 1) * 2 ^ k : ℕ) : ℤ).bmod (2 ^ 32) = -((2 ^ k : ℕ) : ℤ) := by
      rw [hval, bmod_eq_sub (by omega) (by have := Nat.two_pow_pos k; omega)]
      omega
    have hmask : maskEnd (k + w : ℕ) = 64 := by simp [maskEnd, hend]
    rw [hneg, getLsbD_toUllong_neg_two_pow k slot (by omega), hmask]
    simp only [SLOTS_NUM, Bool.and_eq_true, decide_eq_true_eq]
    omega
  · have hle : 2 ^ (k + w) ≤ 2 ^ 31 := Nat.pow_le_pow_right (by norm_num) (by omega)
    have hmask : maskEnd (k + w : ℕ) = (k + w : ℕ) := by
      rw [maskEnd, if_neg (by omega)]
    rw [bmod_eq_self (by omega), getLsbD_toUllong_natCast _ slot (by omega),
      testBit_ones_shifted, hmask]
    simp only [SLOTS_NUM, Bool.and_eq_true, decide_eq_true_eq]
    omega

theorem rangeMask_run {start stop : ℤ} (h : MaskDefined start stop) (m : PpMaster) :
    ∃ mask, (rangeMask start stop).run m = .ok mask m ∧
      ∀ slot : ℕ, mask.getLsbD slot = true ↔ start ≤ slot ∧ (slot : ℤ) < maskEnd stop := by
  obtain ⟨h0, h32, hle, hstop, hwidth⟩ := h
  obtain ⟨k, rfl⟩ := Int.eq_ofNat_of_zero_le h0
  obtain ⟨w, hw⟩ := Int.eq_ofNat_of_zero_le (Int.sub_nonneg.mpr hle)
  obtain rfl : stop = (k + w : ℕ) := by omega
  have hrun := rangeMask_natCast (k := k) (w := w) (by omega) (by omega) (by omega)
  refine ⟨_, by rw [hrun, EStateM.run_pure], fun slot ↦ ?_⟩
  exact getLsbD_rangeMask (by omega) (by omega) slot

theorem rangeMask_undefined {start stop : ℤ} (h : ¬ MaskDefined start stop) (m : PpMaster) :
    ∃ u, (rangeMask start stop).run m = .error (.undefined u) m := by
  by_cases hsub : -2 ^ 31 ≤ stop - start ∧ stop - start < 2 ^ 31
  swap
  · exact ⟨.signedOverflow, by simp [rangeMask, subInt_overflow hsub]⟩
  by_cases hcount : 0 ≤ stop - start ∧ stop - start < 32
  swap
  · exact ⟨.shiftRange, by simp [rangeMask, subInt_of_range hsub, shlInt_shiftRange hcount]⟩
  obtain ⟨w, hw⟩ := Int.eq_ofNat_of_zero_le hcount.1
  by_cases hw31 : stop - start = 31
  · refine ⟨.signedOverflow, ?_⟩
    rw [rangeMask, subInt_of_range hsub, pure_bind, hw31, shlInt_one_thirtyOne, pure_bind,
      subInt_overflow (by norm_num)]
    rfl
  have hmask := rangeMask_eq hw (by omega)
  by_cases hstart : 0 ≤ start ∧ start < 32
  swap
  · exact ⟨.shiftRange, by simp [hmask, shlInt_shiftRange hstart]⟩
  obtain ⟨k, rfl⟩ := Int.eq_ofNat_of_zero_le hstart.1
  have hend : 33 ≤ k + w := by
    by_contra hend
    exact h ⟨hstart.1, hstart.2, by omega, by omega, by omega⟩
  refine ⟨.signedOverflow, ?_⟩
  rw [hmask, shlInt_overflow (by omega) (ones_shifted_ge hend (by omega))]
  rfl

/-! ## What one call does to the slot sets -/

theorem rangeSetSlots_run {start stop : ℤ} (h : MaskDefined start stop) (m : PpMaster) (id : ℤ) :
    ∃ t, (rangeSetSlots id start stop).run m = .ok () t ∧ t.slotsToId = m.slotsToId ∧
      (∀ j, j ≠ id → t.slotsOf j = m.slotsOf j) ∧
      ∀ slot : ℕ, (t.slotsOf id).getLsbD slot = true ↔
        (m.slotsOf id).getLsbD slot = true ∨ (start ≤ slot ∧ (slot : ℤ) < maskEnd stop) := by
  obtain ⟨mask, hmask, hbits⟩ := rangeMask_run h m
  obtain ⟨t, ht, hsame⟩ := idToSlotsAt_run m id
  refine ⟨{ t with idToSlots := Function.update t.idToSlots id (some (m.slotsOf id ||| mask)) },
    ?_, hsame.slotsToId, ?_, ?_⟩
  · simp [rangeSetSlots, hmask, ht, setSlots]
  · intro j hj
    have hsets := hsame.slotsOf j
    simpa [slotsOf, hj] using hsets
  · intro slot
    rw [← hbits slot]
    simp [slotsOf]

theorem rangeSetSlots_undefined {start stop : ℤ} (h : ¬ MaskDefined start stop) (m : PpMaster)
    (id : ℤ) : Code.stateAfter ((rangeSetSlots id start stop).run m) = none := by
  obtain ⟨u, hu⟩ := rangeMask_undefined h m
  simp [rangeSetSlots, hu, Code.stateAfter]

theorem resetSlots_of_nonpos {n : ℤ} (hn : n ≤ 0) (m : PpMaster) (id : ℤ) :
    (resetSlots id n).run m = .ok 0 m := by
  have hcount : ¬ 0 < n := not_lt.mpr hn
  rw [resetSlots, List.range_succ_eq_map, resetBlocks, if_neg hcount, EStateM.run_pure]

/-- The first block reads the whole set as one word, and a set that reaches
beyond 64 slots does not fit. -/
theorem resetSlots_of_wide {n : ℤ} (hn : 0 < n) {id : ℤ} {slot : ℕ} (hslot : 64 ≤ slot)
    (hbit : (m.slotsOf id).getLsbD slot = true) :
    ∃ t, (resetSlots id n).run m = .error (.thrown .overflowError) t ∧ SameSlots m t := by
  obtain ⟨t, ht, hsame⟩ := idToSlotsAt_run m id
  have hwide : ¬ (m.slotsOf id).toNat < 2 ^ 64 := by
    rw [Bitset.toNat_lt_iff]
    intro hall
    simp [hall slot hslot] at hbit
  have hword : (Bitset.toUllong (m.slotsOf id) : Code PpMaster _) = Code.raise .overflowError :=
    if_neg hwide
  refine ⟨t, ?_, hsame⟩
  rw [resetSlots, List.range_succ_eq_map, resetBlocks, if_pos hn]
  simp [ht, hword]

/-- A set that fits is never reset: the mask of the first block is `1ULL << 64`
less one. -/
theorem resetSlots_undefined {n : ℤ} (hn : 0 < n) {id : ℤ}
    (hwide : ¬ ∃ slot, 64 ≤ slot ∧ (m.slotsOf id).getLsbD slot = true) :
    Code.stateAfter ((resetSlots id n).run m) = none := by
  obtain ⟨t, ht, -⟩ := idToSlotsAt_run m id
  have hfits : ∀ slot, 64 ≤ slot → (m.slotsOf id).getLsbD slot = false := by
    intro slot hslot
    apply Bool.eq_false_iff.mpr
    intro hbit
    exact hwide ⟨slot, hslot, hbit⟩
  have hword : (Bitset.toUllong (m.slotsOf id) : Code PpMaster _) =
      pure ((m.slotsOf id).setWidth 64) := if_pos ((Bitset.toNat_lt_iff _).mpr hfits)
  rw [resetSlots, List.range_succ_eq_map, resetBlocks, if_pos hn]
  simp [ht, hword, shrUllong, shlUllong, Code.stateAfter]

/-! ## Sequences of calls -/

inductive SlotOp where
  | rangeSetSlots (serverId start stop : ℤ)
  | resetSlots (serverId n : ℤ)

def SlotOp.after : SlotOp → PpMaster → Option PpMaster
  | .rangeSetSlots serverId start stop, m =>
      Code.stateAfter ((PpMaster.rangeSetSlots serverId start stop).run m)
  | .resetSlots serverId n, m => Code.stateAfter ((PpMaster.resetSlots serverId n).run m)

def afterAll (ops : List SlotOp) (m : PpMaster) : Option PpMaster := runAll SlotOp.after ops m

/-- The call is defined and its server has every slot that the call sets. -/
def KeepsSets (m : PpMaster) : SlotOp → Prop
  | .rangeSetSlots id start stop => MaskDefined start stop ∧
      ∀ slot : ℕ, start ≤ slot → (slot : ℤ) < maskEnd stop → (m.slotsOf id).getLsbD slot = true
  | .resetSlots id n => n ≤ 0 ∨ ∃ slot, 64 ≤ slot ∧ (m.slotsOf id).getLsbD slot = true

theorem SameSlots.keepsSets_iff (hs : SameSlots m t) (op : SlotOp) :
    t.KeepsSets op ↔ m.KeepsSets op := by
  cases op <;> simp only [KeepsSets, hs.slotsOf]

structure Grows (m t : PpMaster) : Prop where
  slotsToId : t.slotsToId = m.slotsToId
  slotsOf : ∀ id slot, (m.slotsOf id).getLsbD slot = true → (t.slotsOf id).getLsbD slot = true

theorem Grows.refl (m : PpMaster) : Grows m m := ⟨rfl, fun _ _ hbit ↦ hbit⟩

theorem Grows.trans {r : PpMaster} (h : Grows m t) (h' : Grows t r) : Grows m r :=
  ⟨h'.slotsToId.trans h.slotsToId, fun id slot hbit ↦ h'.slotsOf id slot (h.slotsOf id slot hbit)⟩

theorem SameSlots.grows (hs : SameSlots m t) : Grows m t :=
  ⟨hs.slotsToId, fun id slot hbit ↦ by rwa [hs.slotsOf]⟩

/-- A slot that a set gained would have two servers. -/
theorem Grows.sameSlots (hg : Grows m t) (hm : m.Agree) (ht : t.Agree) : SameSlots m t := by
  refine ⟨hg.slotsToId, fun id ↦ BitVec.eq_of_getLsbD_eq fun slot hslot ↦ ?_⟩
  have hiff := ht.routed_iff id slot hslot
  rw [hg.slotsToId, hm.routed_iff id slot hslot] at hiff
  exact (Bool.eq_iff_iff.mpr hiff).symm

theorem SlotOp.grows {op : SlotOp} (h : op.after m = some t) : Grows m t := by
  cases op with
  | rangeSetSlots id start stop =>
      by_cases hdef : MaskDefined start stop
      · obtain ⟨t', ht', hvec, hother, hbits⟩ := rangeSetSlots_run hdef m id
        obtain rfl : t' = t := by simpa [SlotOp.after, ht', Code.stateAfter] using h
        refine ⟨hvec, fun j slot hbit ↦ ?_⟩
        by_cases hj : j = id
        · subst hj
          exact (hbits slot).mpr (.inl hbit)
        · rwa [hother j hj]
      · simp [SlotOp.after, rangeSetSlots_undefined hdef] at h
  | resetSlots id n =>
      by_cases hn : 0 < n
      swap
      · have hrun := resetSlots_of_nonpos (not_lt.mp hn) m id
        obtain rfl : m = t := by simpa [SlotOp.after, hrun, Code.stateAfter] using h
        exact Grows.refl m
      by_cases hwide : ∃ slot, 64 ≤ slot ∧ (m.slotsOf id).getLsbD slot = true
      · obtain ⟨slot, hslot, hbit⟩ := hwide
        obtain ⟨t', ht', hsame⟩ := resetSlots_of_wide hn hslot hbit
        obtain rfl : t' = t := by simpa [SlotOp.after, ht', Code.stateAfter] using h
        exact hsame.grows
      · simp [SlotOp.after, resetSlots_undefined hn hwide] at h

theorem afterAll_grows {ops : List SlotOp} (h : afterAll ops m = some t) : Grows m t :=
  runAll_invariant (fun _ _ _ hg _ hop ↦ hg.trans (SlotOp.grows hop)) (Grows.refl m)
    (eachStep_true ops m) h

theorem SlotOp.after_of_keepsSets {op : SlotOp} (h : m.KeepsSets op) :
    ∃ t, op.after m = some t ∧ SameSlots m t := by
  cases op with
  | rangeSetSlots id start stop =>
      obtain ⟨hdef, hheld⟩ := h
      obtain ⟨t, ht, hvec, hother, hbits⟩ := rangeSetSlots_run hdef m id
      refine ⟨t, by rw [SlotOp.after, ht]; rfl, hvec, fun j ↦ ?_⟩
      by_cases hj : j = id
      · subst hj
        refine BitVec.eq_of_getLsbD_eq fun slot _ ↦ Bool.eq_iff_iff.mpr ?_
        rw [hbits slot]
        exact or_iff_left_of_imp fun hrange ↦ hheld slot hrange.1 hrange.2
      · exact hother j hj
  | resetSlots id n =>
      by_cases hn : n ≤ 0
      · have hrun := resetSlots_of_nonpos hn m id
        exact ⟨m, by rw [SlotOp.after, hrun]; rfl, rfl, fun _ ↦ rfl⟩
      · obtain ⟨slot, hslot, hbit⟩ := h.resolve_left hn
        obtain ⟨t, ht, hsame⟩ := resetSlots_of_wide (not_le.mp hn) hslot hbit
        exact ⟨t, by rw [SlotOp.after, ht]; rfl, hsame⟩

theorem SlotOp.keepsSets_of_after {op : SlotOp} (h : op.after m = some t)
    (hs : SameSlots m t) : m.KeepsSets op := by
  cases op with
  | rangeSetSlots id start stop =>
      by_cases hdef : MaskDefined start stop
      · obtain ⟨t', ht', -, -, hbits⟩ := rangeSetSlots_run hdef m id
        obtain rfl : t' = t := by simpa [SlotOp.after, ht', Code.stateAfter] using h
        refine ⟨hdef, fun slot hstart hstop ↦ ?_⟩
        rw [← hs.slotsOf]
        exact (hbits slot).mpr (.inr ⟨hstart, hstop⟩)
      · simp [SlotOp.after, rangeSetSlots_undefined hdef] at h
  | resetSlots id n =>
      by_contra hkeep
      obtain ⟨hn, hwide⟩ := not_or.mp hkeep
      simp [SlotOp.after, resetSlots_undefined (not_le.mp hn) hwide] at h

/-- A sequence of calls leaves the tables in agreement exactly when each of
its calls keeps the slot sets as they are at its start. -/
theorem agree_afterAll_iff_keepsSets (hm : m.Agree) (ops : List SlotOp) :
    (∃ t, afterAll ops m = some t ∧ t.Agree ∧ t.RoutesToHolder) ↔ ∀ op ∈ ops, m.KeepsSets op := by
  induction ops generalizing m with
  | nil => exact iff_of_true ⟨m, rfl, hm, hm.routesToHolder⟩ (by simp)
  | cons op ops ih =>
      rw [List.forall_mem_cons]
      constructor
      · rintro ⟨t, ht, hagree, hroutes⟩
        obtain ⟨r, hr, hrest⟩ := runAll_cons_iff.mp ht
        -- the sets after the first call lie between equal ones
        have hmr := SlotOp.grows hr
        have hrt := afterAll_grows hrest
        have hmt := (hmr.trans hrt).sameSlots hm hagree
        have hsame : SameSlots m r := by
          refine ⟨hmr.slotsToId, fun id ↦ BitVec.eq_of_getLsbD_eq fun slot _ ↦ ?_⟩
          refine Bool.eq_iff_iff.mpr ⟨fun hbit ↦ ?_, hmr.slotsOf id slot⟩
          rw [← hmt.slotsOf]
          exact hrt.slotsOf id slot hbit
        refine ⟨SlotOp.keepsSets_of_after hr hsame, fun op' hop' ↦ ?_⟩
        rw [← hsame.keepsSets_iff]
        exact (ih (hsame.agree hm)).mp ⟨t, hrest, hagree, hroutes⟩ op' hop'
      · rintro ⟨hop, hops⟩
        obtain ⟨r, hr, hsame⟩ := SlotOp.after_of_keepsSets hop
        have hkeeps : ∀ op' ∈ ops, r.KeepsSets op' := by
          intro op' hop'
          rw [hsame.keepsSets_iff]
          exact hops op' hop'
        obtain ⟨t, ht, hagree⟩ := (ih (hsame.agree hm)).mpr hkeeps
        exact ⟨t, runAll_cons_iff.mpr ⟨r, hr, ht⟩, hagree⟩

def allSlotsOfOne : PpMaster where
  idToAddr := fun _ ↦ none
  idToSlots := fun id ↦ if id = 1 then some (BitVec.allOnes SLOTS_NUM) else none
  slotsToId := List.replicate SLOTS_NUM 1
  readers := 0

theorem slotsOf_allSlotsOfOne (id : ℤ) (slot : ℕ) :
    (allSlotsOfOne.slotsOf id).getLsbD slot = true ↔ id = 1 ∧ slot < SLOTS_NUM := by
  by_cases hid : id = 1
  · have hset : allSlotsOfOne.slotsOf id = BitVec.allOnes SLOTS_NUM := by
      simp [slotsOf, allSlotsOfOne, hid]
    rw [hset, BitVec.getLsbD_allOnes, decide_eq_true_eq, and_iff_right hid]
  · simp [slotsOf, allSlotsOfOne, hid]

theorem agree_allSlotsOfOne : allSlotsOfOne.Agree where
  length := List.length_replicate
  routed_iff := by
    intro id slot hslot
    have hget : allSlotsOfOne.slotsToId[slot]? = some 1 := List.getElem?_replicate_of_lt hslot
    rw [hget, slotsOf_allSlotsOfOne, Option.some_inj]
    exact ⟨fun h ↦ ⟨h.symm, hslot⟩, fun h ↦ h.1.symm⟩

theorem agree_afterAll_allSlotsOfOne :
    ∃ t, afterAll [.rangeSetSlots 1 0 8, .resetSlots 1 5] allSlotsOfOne = some t ∧ t.Agree ∧
      t.RoutesToHolder := by
  refine (agree_afterAll_iff_keepsSets agree_allSlotsOfOne _).mpr ?_
  have hset : allSlotsOfOne.KeepsSets (.rangeSetSlots 1 0 8) := by
    refine ⟨by unfold MaskDefined; omega, fun slot _ hstop ↦ ?_⟩
    rw [maskEnd, if_neg (by norm_num)] at hstop
    exact (slotsOf_allSlotsOfOne 1 slot).mpr ⟨rfl, by rw [SLOTS_NUM]; omega⟩
  have hreset : allSlotsOfOne.KeepsSets (.resetSlots 1 5) :=
    .inr ⟨64, le_rfl, (slotsOf_allSlotsOfOne 1 64).mpr ⟨rfl, by norm_num⟩⟩
  simp [hset, hreset]

/-- Slot 0 given to server 2 as well: the vector still names server 1. -/
theorem not_agree_afterAll_allSlotsOfOne :
    allSlotsOfOne.Agree ∧ ∃ t, afterAll [.rangeSetSlots 2 0 1] allSlotsOfOne = some t ∧
      t.slotsToId[0]? = some 1 ∧ (t.slotsOf 2).getLsbD 0 = true ∧ ¬ t.Agree := by
  refine ⟨agree_allSlotsOfOne, ?_⟩
  obtain ⟨t, ht, hvec, -, hbits⟩ :=
    rangeSetSlots_run (by unfold MaskDefined; omega : MaskDefined 0 1) allSlotsOfOne 2
  have hone : t.slotsToId[0]? = some 1 := by
    rw [hvec]
    exact List.getElem?_replicate_of_lt (by norm_num)
  have hbit : (t.slotsOf 2).getLsbD 0 = true := (hbits 0).mpr (.inr (by norm_num [maskEnd]))
  have hafter : SlotOp.after (.rangeSetSlots 2 0 1) allSlotsOfOne = some t := by
    rw [SlotOp.after, ht]
    rfl
  refine ⟨t, runAll_cons_iff.mpr ⟨t, hafter, rfl⟩, hone, hbit, fun hagree ↦ ?_⟩
  have htwo := (hagree.routed_iff 2 0 (by norm_num)).mpr hbit
  rw [hone] at htwo
  norm_num at htwo

end PpDSCache.Master.PpMaster
