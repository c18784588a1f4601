import PpDSCache.Master.PpMaster

/-!
# Looking up the server of a slot

The slot of a client message is five unchecked bytes.  The lookup is defined
and leaves the tables alone exactly when the slot is a valid index and its
server has an address.
-/

namespace PpDSCache.Master.PpMaster

open Cpp

variable (inetNtop6 : (Fin 16 → UInt8) → Text) {m : PpMaster} {mes : Text}

def Routed (m : PpMaster) (slot : ℤ) : Prop :=
  0 ≤ slot ∧ slot < SLOTS_NUM ∧
    ∃ id addr, m.slotsToId[slot.toNat]? = some id ∧ m.idToAddr id = some addr

/-- The request is answered without an index out of bounds, no table changes,
and a reply is the address of the server the slot is routed to. -/
def ReadOnly (m : PpMaster) (mes : Text) : Prop :=
  ∃ t, Code.stateAfter ((handleClientRequest inetNtop6 mes).run m) = some t ∧
    t.idToAddr = m.idToAddr ∧ t.idToSlots = m.idToSlots ∧ t.slotsToId = m.slotsToId ∧
    ∀ text, (handleClientRequest inetNtop6 mes).run m = .ok text t →
      ∃ slot id, Text.strtol (mes.take 5) = some slot ∧ 0 ≤ slot ∧
        m.slotsToId[slot.toNat]? = some id ∧
        ∀ addr, m.idToAddr id = some addr → text = addr.toIpPort inetNtop6

theorem run_of_not_numeric (h : Text.strtol (mes.take 5) = none) :
    (handleClientRequest inetNtop6 mes).run m = .error (.thrown .invalidArgument) m := by
  have hstoi : (Text.stoi (mes.take 5) : Code PpMaster ℤ) = Code.raise .invalidArgument := by
    rw [Text.stoi_of_length_le ((List.length_take_le 5 mes).trans (by norm_num)), h]
  simp [handleClientRequest, Text.substr, hstoi]

variable {slot : ℤ}

theorem stoi_slot (h : Text.strtol (mes.take 5) = some slot) :
    (Text.stoi (mes.take 5) : Code PpMaster ℤ) = pure slot := by
  rw [Text.stoi_of_length_le ((List.length_take_le 5 mes).trans (by norm_num)), h]

theorem slot_natAbs_lt (h : Text.strtol (mes.take 5) = some slot) : slot.natAbs < 10 ^ 5 := by
  calc
    slot.natAbs < 10 ^ (mes.take 5).length := Text.strtol_natAbs_lt h
    _ ≤ 10 ^ 5 := Nat.pow_le_pow_right (by norm_num) (List.length_take_le 5 mes)

theorem run_of_out_of_bounds (hlen : m.slotsToId.length = SLOTS_NUM)
    (h : Text.strtol (mes.take 5) = some slot) (hrange : ¬ (0 ≤ slot ∧ slot < SLOTS_NUM)) :
    (handleClientRequest inetNtop6 mes).run m =
      .error (.undefined .vectorIndex) { m with readers := m.readers + 1 } := by
  have hlt := slot_natAbs_lt h
  have hnone : m.slotsToId[(slot % 2 ^ 64).toNat]? = none := by
    rw [List.getElem?_eq_none_iff, hlen]
    simp only [SLOTS_NUM] at hrange ⊢
    omega
  simp only [handleClientRequest, Text.substr, Nat.not_lt_zero, if_false, List.drop_zero,
    pure_bind, stoi_slot h, slotsToIdAt, EStateM.run_bind, EStateM.run_modify, EStateM.run_get,
    hnone, Code.run_undefined]

theorem run_of_in_bounds (h : Text.strtol (mes.take 5) = some slot) (h0 : 0 ≤ slot) {id : ℤ}
    (hid : m.slotsToId[slot.toNat]? = some id) :
    (handleClientRequest inetNtop6 mes).run m =
      match m.idToAddr id with
      | some addr => .ok (addr.toIpPort inetNtop6) m
      | none => .ok ((default : InetAddress).toIpPort inetNtop6)
          { m with idToAddr := Function.update m.idToAddr id (some default) } := by
  have hlt := slot_natAbs_lt h
  have hmod : slot % 2 ^ 64 = slot := Int.emod_eq_of_lt h0 (by omega)
  have hsome : m.slotsToId[(slot % 2 ^ 64).toNat]? = some id := by rw [hmod, hid]
  cases haddr : m.idToAddr id with
  | none =>
      simp only [handleClientRequest, Text.substr, Nat.not_lt_zero, if_false, List.drop_zero,
        pure_bind, stoi_slot h, slotsToIdAt, idToAddrAt, EStateM.run_bind, EStateM.run_modify,
        EStateM.run_get, EStateM.run_pure, hsome, haddr]
      rfl
  | some addr =>
      simp only [handleClientRequest, Text.substr, Nat.not_lt_zero, if_false, List.drop_zero,
        pure_bind, stoi_slot h, slotsToIdAt, idToAddrAt, EStateM.run_bind, EStateM.run_modify,
        EStateM.run_get, EStateM.run_pure, hsome, haddr]
      rfl

theorem readOnly_of_not_numeric (h : Text.strtol (mes.take 5) = none) :
    m.ReadOnly inetNtop6 mes := by
  have hrun := run_of_not_numeric inetNtop6 (m := m) h
  refine ⟨m, by rw [hrun]; rfl, rfl, rfl, rfl, fun text htext ↦ ?_⟩
  simp [hrun] at htext

theorem readOnly_of_routed (h : Text.strtol (mes.take 5) = some slot) (hm : m.Routed slot) :
    m.ReadOnly inetNtop6 mes := by
  obtain ⟨h0, -, id, addr, hid, haddr⟩ := hm
  have hrun := run_of_in_bounds inetNtop6 h h0 hid
  rw [haddr] at hrun
  refine ⟨m, by rw [hrun]; rfl, rfl, rfl, rfl, fun text htext ↦ ⟨slot, id, h, h0, hid, ?_⟩⟩
  intro addr' haddr'
  obtain rfl : addr = addr' := Option.some.inj (haddr.symm.trans haddr')
  rw [hrun] at htext
  exact (EStateM.Result.ok.inj htext).1.symm

/-- The subscript inserts a default address under a shared lock. -/
theorem not_readOnly_of_no_address (h : Text.strtol (mes.take 5) = some slot) (h0 : 0 ≤ slot)
    {id : ℤ} (hid : m.slotsToId[slot.toNat]? = some id) (haddr : m.idToAddr id = none) :
    ¬ m.ReadOnly inetNtop6 mes := by
  have hrun := run_of_in_bounds inetNtop6 h h0 hid
  rw [haddr] at hrun
  rintro ⟨t, ht, htaddr, -⟩
  rw [hrun] at ht
  have hnew : t.idToAddr id = some default := by
    rw [← Option.some.inj ht]
    simp
  rw [htaddr, haddr] at hnew
  simp at hnew

theorem not_readOnly_of_out_of_bounds (hlen : m.slotsToId.length = SLOTS_NUM)
    (h : Text.strtol (mes.take 5) = some slot) (hrange : ¬ (0 ≤ slot ∧ slot < SLOTS_NUM)) :
    ¬ m.ReadOnly inetNtop6 mes := by
  rintro ⟨t, ht, -⟩
  rw [run_of_out_of_bounds inetNtop6 hlen h hrange] at ht
  simp [Code.stateAfter] at ht

/-- A lookup is read-only exactly when its text is no number or the number is
a slot routed to a server with an address. -/
theorem readOnly_iff_routed (hlen : m.slotsToId.length = SLOTS_NUM) (mes : Text) :
    m.ReadOnly inetNtop6 mes ↔ ∀ slot, Text.strtol (mes.take 5) = some slot → m.Routed slot := by
  cases hslot : Text.strtol (mes.take 5) with
  | none => exact iff_of_true (readOnly_of_not_numeric inetNtop6 hslot) (by simp)
  | some slot =>
      simp only [Option.some.injEq, forall_eq']
      refine ⟨fun hread ↦ ?_, readOnly_of_routed inetNtop6 hslot⟩
      by_cases hrange : 0 ≤ slot ∧ slot < SLOTS_NUM
      · have hid : m.slotsToId[slot.toNat]? = some m.slotsToId[slot.toNat] :=
          List.getElem?_eq_getElem (by omega)
        cases haddr : m.idToAddr m.slotsToId[slot.toNat] with
        | some addr => exact ⟨hrange.1, hrange.2, _, addr, hid, haddr⟩
        | none =>
            exact absurd hread (not_readOnly_of_no_address inetNtop6 hslot hrange.1 hid haddr)
      · exact absurd hread (not_readOnly_of_out_of_bounds inetNtop6 hlen hslot hrange)

def routeAllToOne (addr : Option InetAddress) : PpMaster where
  idToAddr := Function.update (fun _ ↦ none) 1 addr
  idToSlots := fun _ ↦ none
  slotsToId := List.replicate SLOTS_NUM 1
  readers := 0

theorem slotsToId_routeAllToOne (addr : Option InetAddress) :
    (routeAllToOne addr).slotsToId[(7 : ℤ).toNat]? = some 1 :=
  List.getElem?_replicate_of_lt (by decide)

theorem readOnly_routeAllToOne :
    (routeAllToOne (some default)).ReadOnly (fun _ ↦ ascii "::") (ascii "00007GETkey00000") := by
  refine (readOnly_iff_routed (fun _ ↦ ascii "::") (by simp [routeAllToOne]) _).mpr ?_
  intro slot hslot
  obtain rfl : (7 : ℤ) = slot := Option.some.inj ((by decide : _ = some (7 : ℤ)).symm.trans hslot)
  exact ⟨by decide, by decide, 1, default, slotsToId_routeAllToOne _, by simp [routeAllToOne]⟩

theorem not_readOnly_routeAllToOne :
    ¬ (routeAllToOne none).ReadOnly (fun _ ↦ ascii "::") (ascii "99999GETkey00000") ∧
      ¬ (routeAllToOne none).ReadOnly (fun _ ↦ ascii "::") (ascii "00007GETkey00000") := by
  have h₁ : Text.strtol ((ascii "99999GETkey00000").take 5) = some 99999 := by decide
  have h₂ : Text.strtol ((ascii "00007GETkey00000").take 5) = some 7 := by decide
  constructor
  · exact not_readOnly_of_out_of_bounds _ (by simp [routeAllToOne]) h₁ (by decide)
  · exact not_readOnly_of_no_address _ h₂ (by decide) (slotsToId_routeAllToOne none)
      (by simp [routeAllToOne] : (routeAllToOne none).idToAddr 1 = none)

end PpDSCache.Master.PpMaster
