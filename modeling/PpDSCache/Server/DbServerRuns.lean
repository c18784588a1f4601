import PpDSCache.Server.DbLinked
import PpDSCache.Server.DbServer

/-!
# What one request can do

The handler first decodes the header without touching the server.  A decoded
request passes the slot check or not, and only behind it does a command act
on a store.  The lemmas here give the outcome of each stage.
-/

namespace PpDSCache.Server

open Cpp

/-! ## Fields of a message -/

def cmdField (mes : Text) : Text := (mes.drop 7).take 3

def keyField (mes : Text) : Text := (mes.drop 10).take 8

def valueField (mes : Text) : Text := (mes.drop 18).take 8

namespace DbServer

structure Decodes (s : DbServer) (mes : Text) (id slot : ℤ) : Prop where
  id_field : Text.strtol (mes.take 2) = some id
  mem_ids : id ∈ s.ids
  length : 10 ≤ mes.length
  slot_field : Text.strtol ((mes.drop 2).take 5) = some slot

def Owns (s : DbServer) (id slot : ℤ) : Prop :=
  ∃ d, s.idToDb id = some d ∧ 0 ≤ slot ∧ slot < SLOTS_NUM ∧ d.slots.getLsbD slot.toNat = true

theorem isRightId_iff (s : DbServer) (id : ℤ) : s.isRightId id = true ↔ id ∈ s.ids := by
  simp [isRightId]

variable {s : DbServer} {mes : Text} {id slot : ℤ}

theorem Decodes.slot_natAbs_lt (h : s.Decodes mes id slot) : slot.natAbs < 10 ^ 5 := by
  calc
    slot.natAbs < 10 ^ ((mes.drop 2).take 5).length := Text.strtol_natAbs_lt h.slot_field
    _ ≤ 10 ^ 5 := Nat.pow_le_pow_right (by norm_num) (List.length_take_le _ _)

def finish : EStateM.Result Fault DbServer (Option Reply) → EStateM.Result Fault DbServer Reply
  | .ok (some reply) t => .ok reply t
  | .ok none t => .error (.undefined .missingReturn) t
  | .error f t => .error f t

def locked (mes : Text) (id slot : ℤ) : Code DbServer (Option Reply) :=
  lockGuard (lockedBlock mes id slot (cmdField mes) (keyField mes))

theorem run_of_decodes (h : s.Decodes mes id slot) :
    (handleClientRequest mes).run s = finish ((locked mes id slot).run s) := by
  have hid : s.isRightId id = true := (s.isRightId_iff id).mpr h.mem_ids
  have h2 : ¬ mes.length < 2 := by have := h.length; omega
  have h7 : ¬ mes.length < 7 := by have := h.length; omega
  have h10 : ¬ mes.length < 10 := by have := h.length; omega
  have hstoi : (Text.stoi (mes.take 2) : Code DbServer ℤ) = pure id := by
    rw [Text.stoi_of_length_le (by simp), h.id_field]
  have hstoi' : (Text.stoi ((mes.drop 2).take 5) : Code DbServer ℤ) = pure slot := by
    rw [Text.stoi_of_length_le (by simp), h.slot_field]
  simp only [handleClientRequest, Text.substr, not_lt_zero, ↓reduceIte, List.drop_zero,
    Bool.not_eq_eq_eq_not, Bool.not_true, h2, h7, h10, pure_bind, hstoi', hstoi,
    EStateM.run_bind, EStateM.run_get, hid, Bool.true_eq_false]
  rw [locked, cmdField, keyField]
  generalize (lockGuard _).run s = r
  cases r with
  | ok r t => cases r <;> rfl
  | error f t => rfl

theorem run_of_unknownId (hid : Text.strtol (mes.take 2) = some id) (hmem : id ∉ s.ids) :
    (handleClientRequest mes).run s = .ok .wrongServerId s := by
  have hright : s.isRightId id = false := by
    rw [← Bool.not_eq_true, isRightId_iff]
    exact hmem
  have hstoi : (Text.stoi (mes.take 2) : Code DbServer ℤ) = pure id := by
    rw [Text.stoi_of_length_le (by simp), hid]
  simp [handleClientRequest, Text.substr, hstoi, hright]

/-- A message whose header is not decoded leaves the server as it is: it
raises an exception or names an unknown server. -/
theorem run_of_not_decodes (h : ∀ id slot, ¬ s.Decodes mes id slot) :
    (∃ e, (handleClientRequest mes).run s = .error (.thrown e) s) ∨
      ∃ id, Text.strtol (mes.take 2) = some id ∧ id ∉ s.ids ∧
        (handleClientRequest mes).run s = .ok .wrongServerId s := by
  have hstoi := Text.stoi_of_length_le (σ := DbServer) (s := mes.take 2) (by simp)
  have hstoi' := Text.stoi_of_length_le (σ := DbServer) (s := (mes.drop 2).take 5) (by simp)
  cases hid : Text.strtol (mes.take 2) with
  | none => exact .inl ⟨.invalidArgument, by simp [handleClientRequest, Text.substr, hstoi, hid]⟩
  | some id =>
      by_cases hmem : id ∈ s.ids
      · have hright : s.isRightId id = true := (s.isRightId_iff id).mpr hmem
        -- the three `substr` calls raise the same exception, so only the shortest matters
        by_cases hlen : mes.length < 10
        · refine .inl ⟨.outOfRange, ?_⟩
          by_cases h2 : mes.length < 2
          · simp [handleClientRequest, Text.substr, hstoi, hid, hright, h2]
          · by_cases h7 : mes.length < 7
            · simp [handleClientRequest, Text.substr, hstoi, hid, hright, h2, h7]
            · simp [handleClientRequest, Text.substr, hstoi, hid, hright, h2, h7, hlen]
        · cases hslot : Text.strtol ((mes.drop 2).take 5) with
          | some slot => exact absurd ⟨hid, hmem, by omega, hslot⟩ (h id slot)
          | none =>
              have h2 : ¬ mes.length < 2 := by omega
              have h7 : ¬ mes.length < 7 := by omega
              exact .inl ⟨.invalidArgument, by
                simp [handleClientRequest, Text.substr, hstoi, hstoi', hid, hslot, hright, h2, h7,
                  hlen]⟩
      · exact .inr ⟨id, rfl, hmem, run_of_unknownId hid hmem⟩

/-! ## The slot check -/

/-- The server after `idToDb_[id]`. -/
def opened (s : DbServer) (id : ℤ) : DbServer :=
  { s with idToDb := Function.update s.idToDb id (some ((s.idToDb id).getD default)) }

def released (s : DbServer) : DbServer := { s with dbmtx := false }

theorem opened_eq_self {d : Db} (h : s.idToDb id = some d) : s.opened id = s := by
  have hupdate : Function.update s.idToDb id (some d) = s.idToDb := by
    rw [← h, Function.update_eq_self]
  simp [opened, h, hupdate]

theorem Owns.opened_eq_self (h : s.Owns id slot) : s.opened id = s := by
  obtain ⟨d, hd, -⟩ := h
  exact DbServer.opened_eq_self hd

theorem isRightSlot_run (h : slot.natAbs < 10 ^ 5) (s : DbServer) :
    (isRightSlot id slot).run s =
      if 0 ≤ slot ∧ slot < SLOTS_NUM then
        .ok (((s.idToDb id).getD default).slots.getLsbD slot.toNat) (s.opened id)
      else .error (.thrown .outOfRange) (s.opened id) := by
  rw [isRightSlot, onDb, Code.run_zoom, Db.testSlot_run _ (by omega)]
  by_cases hrange : 0 ≤ slot ∧ slot < SLOTS_NUM
  · simp only [if_pos hrange]
    rfl
  · simp only [if_neg hrange]
    rfl

theorem owns_iff (hrange : 0 ≤ slot ∧ slot < SLOTS_NUM) :
    s.Owns id slot ↔ ((s.idToDb id).getD default).slots.getLsbD slot.toNat = true := by
  cases hd : s.idToDb id with
  | none => simp [Owns, hd, default, Db.empty]
  | some d =>
      simp only [Owns, hd, Option.some.injEq, exists_eq_left', Option.getD_some]
      exact ⟨fun h ↦ h.2.2, fun h ↦ ⟨hrange.1, hrange.2, h⟩⟩

theorem run_of_out_of_range (h : s.Decodes mes id slot)
    (hrange : ¬ (0 ≤ slot ∧ slot < SLOTS_NUM)) :
    (handleClientRequest mes).run s = .error (.thrown .outOfRange) (s.opened id).released := by
  rw [run_of_decodes h, locked, lockGuard, Code.run_guarded, lockedBlock, EStateM.run_bind,
    isRightSlot_run h.slot_natAbs_lt, if_neg hrange]
  rfl

theorem run_of_not_owns (h : s.Decodes mes id slot) (hrange : 0 ≤ slot ∧ slot < SLOTS_NUM)
    (ho : ¬ s.Owns id slot) :
    (handleClientRequest mes).run s = .ok .wrongSlot (s.opened id).released := by
  have hbit : ((s.idToDb id).getD default).slots.getLsbD slot.toNat = false := by
    simpa using (owns_iff hrange).not.mp ho
  rw [run_of_decodes h, locked, lockGuard, Code.run_guarded, lockedBlock, EStateM.run_bind,
    isRightSlot_run h.slot_natAbs_lt, if_pos hrange]
  simp only [hbit]
  rfl

theorem run_of_owns (h : s.Decodes mes id slot) (ho : s.Owns id slot) :
    (handleClientRequest mes).run s =
      finish ((lockGuard (command mes id slot (cmdField mes) (keyField mes))).run s) := by
  have hrange : 0 ≤ slot ∧ slot < SLOTS_NUM := by
    obtain ⟨d, -, h0, hlt, -⟩ := ho
    exact ⟨h0, hlt⟩
  have hbit := (owns_iff hrange).mp ho
  have hlocked : (isRightSlot id slot).run { s with dbmtx := true } =
      .ok true { s with dbmtx := true } := by
    rw [isRightSlot_run h.slot_natAbs_lt, if_pos hrange]
    have hopened : ({ s with dbmtx := true } : DbServer).opened id = { s with dbmtx := true } := by
      obtain ⟨d, hd, -⟩ := ho
      exact DbServer.opened_eq_self hd
    rw [hopened]
    exact congrArg (EStateM.Result.ok · _) hbit
  rw [run_of_decodes h, locked, lockGuard, Code.run_guarded, lockedBlock, EStateM.run_bind,
    hlocked]
  rfl

/-! ## The commands -/

def after (s : DbServer) (id : ℤ) (d : Db) (call : Db.Call) : DbServer :=
  { s with
    idToDb := Function.update s.idToDb id (some d)
    dbmtx := true
    trace := s.trace ++ [(id, call)] }

theorem run_get (h : s.Decodes mes id slot) (ho : s.Owns id slot)
    (hcmd : cmdField mes = ascii "GET") {d : Db} (hd : s.idToDb id = some d) :
    (handleClientRequest mes).run s =
      match (Db.getKV (keyField mes)).run d with
      | .ok (some v) t => .ok (.value v) (s.after id t (.getKV (keyField mes))).released
      | .ok none t => .ok .getKeyNotFound (s.after id t (.getKV (keyField mes))).released
      | .error f t => .error f (s.after id t (.getKV (keyField mes))) := by
  rw [run_of_owns h ho, lockGuard, Code.run_guarded]
  cases hrun : (Db.getKV (keyField mes)).run d with
  | ok r t =>
      cases r <;> simp [command, hcmd, record, onDb, Code.run_zoom, hd, hrun, finish, after,
        released]
  | error f t =>
      cases f with
      | thrown e => exact absurd hrun (Db.noThrow_getKV _ d e t)
      | undefined u =>
          simp [command, hcmd, record, onDb, Code.run_zoom, hd, hrun, finish, after]

theorem run_del (h : s.Decodes mes id slot) (ho : s.Owns id slot)
    (hcmd : cmdField mes = ascii "DEL") {d : Db} (hd : s.idToDb id = some d) :
    (handleClientRequest mes).run s =
      match (Db.delKV (keyField mes)).run d with
      | .ok true t => .ok .delDown (s.after id t (.delKV (keyField mes))).released
      | .ok false t => .ok .delKeyNotFound (s.after id t (.delKV (keyField mes))).released
      | .error f t => .error f (s.after id t (.delKV (keyField mes))) := by
  have hget : ascii "DEL" ≠ ascii "GET" := by decide
  rw [run_of_owns h ho, lockGuard, Code.run_guarded]
  cases hrun : (Db.delKV (keyField mes)).run d with
  | ok r t =>
      cases r <;> simp [command, hcmd, hget, record, onDb, Code.run_zoom, hd, hrun, finish,
        after, released]
  | error f t =>
      cases f with
      | thrown e => exact absurd hrun (Db.noThrow_delKV _ d e t)
      | undefined u =>
          simp [command, hcmd, hget, record, onDb, Code.run_zoom, hd, hrun, finish, after]

/-- A write is refused unless the slot equals the number of the server. -/
theorem run_set_moved (h : s.Decodes mes id slot) (ho : s.Owns id slot)
    (hcmd : cmdField mes = ascii "SET") (hslot : slot ≠ s.serverId) :
    (handleClientRequest mes).run s = .ok .moved s.released := by
  have hget : ascii "SET" ≠ ascii "GET" := by decide
  have hdel : ascii "SET" ≠ ascii "DEL" := by decide
  rw [run_of_owns h ho, lockGuard, Code.run_guarded]
  simp [command, hcmd, hget, hdel, isThisServer, hslot, finish, released]

theorem run_set_short (h : s.Decodes mes id slot) (ho : s.Owns id slot)
    (hcmd : cmdField mes = ascii "SET") (hslot : slot = s.serverId) (hlen : mes.length < 18) :
    (handleClientRequest mes).run s = .error (.thrown .outOfRange) s.released := by
  have hget : ascii "SET" ≠ ascii "GET" := by decide
  have hdel : ascii "SET" ≠ ascii "DEL" := by decide
  rw [run_of_owns h ho, lockGuard, Code.run_guarded]
  simp [command, hcmd, hget, hdel, isThisServer, hslot, Text.substr, hlen, finish, released]

theorem run_set (h : s.Decodes mes id slot) (ho : s.Owns id slot)
    (hcmd : cmdField mes = ascii "SET") (hslot : slot = s.serverId) (hlen : 18 ≤ mes.length) :
    (handleClientRequest mes).run s =
      match (Db.setKV (keyField mes) (valueField mes) slot).run
        ((s.idToDb s.serverId).getD default) with
      | .ok _ t => .ok .setDone
          (s.after s.serverId t (.setKV (keyField mes) (valueField mes) slot)).released
      | .error f t => .error f
          (s.after s.serverId t (.setKV (keyField mes) (valueField mes) slot)) := by
  have hget : ascii "SET" ≠ ascii "GET" := by decide
  have hdel : ascii "SET" ≠ ascii "DEL" := by decide
  have hvalue : (Text.substr mes 18 8 : Code DbServer Text) = pure (valueField mes) := by
    rw [Text.substr, if_neg (by omega)]
    rfl
  rw [run_of_owns h ho, lockGuard, Code.run_guarded]
  subst hslot
  cases hrun : (Db.setKV (keyField mes) (valueField mes) s.serverId).run
      ((s.idToDb s.serverId).getD default) with
  | ok r t =>
      simp [command, hcmd, hget, hdel, isThisServer, hvalue, record, onDb, Code.run_zoom,
        hrun, finish, after, released]
  | error f t =>
      cases f with
      | thrown e => exact absurd hrun (Db.noThrow_setKV _ _ _ _ e t)
      | undefined u =>
          simp [command, hcmd, hget, hdel, isThisServer, hvalue, record, onDb,
            Code.run_zoom, hrun, finish, after]

/-- Any other command field leads past the last return statement. -/
theorem run_unknown_command (h : s.Decodes mes id slot) (ho : s.Owns id slot)
    (hget : cmdField mes ≠ ascii "GET") (hdel : cmdField mes ≠ ascii "DEL")
    (hset : cmdField mes ≠ ascii "SET") :
    (handleClientRequest mes).run s = .error (.undefined .missingReturn) s.released := by
  rw [run_of_owns h ho, lockGuard, Code.run_guarded]
  simp [command, hget, hdel, hset, finish, released]

/-! ## All outcomes -/

/-- Everything a request can lead to, with the condition for each. -/
inductive Outcome (s : DbServer) (mes : Text) : EStateM.Result Fault DbServer Reply → Prop
  | malformed (e : Exn) (h : ∀ id slot, ¬ s.Decodes mes id slot) :
      Outcome s mes (.error (.thrown e) s)
  | unknownId (id : ℤ) (hid : Text.strtol (mes.take 2) = some id) (hmem : id ∉ s.ids) :
      Outcome s mes (.ok .wrongServerId s)
  | badSlot (id slot : ℤ) (h : s.Decodes mes id slot)
      (hrange : ¬ (0 ≤ slot ∧ slot < SLOTS_NUM)) :
      Outcome s mes (.error (.thrown .outOfRange) (s.opened id).released)
  | wrongSlot (id slot : ℤ) (h : s.Decodes mes id slot)
      (hrange : 0 ≤ slot ∧ slot < SLOTS_NUM) (ho : ¬ s.Owns id slot) :
      Outcome s mes (.ok .wrongSlot (s.opened id).released)
  | getHit (id slot : ℤ) (h : s.Decodes mes id slot) (ho : s.Owns id slot)
      (hcmd : cmdField mes = ascii "GET") (d : Db) (hd : s.idToDb id = some d) (e : MapValue)
      (hkey : d.map (keyField mes) = some e) :
      Outcome s mes (.ok (.value e.value)
        (s.after id (d.moveToFront (keyField mes) e) (.getKV (keyField mes))).released)
  | getMiss (id slot : ℤ) (h : s.Decodes mes id slot) (ho : s.Owns id slot)
      (hcmd : cmdField mes = ascii "GET") (d : Db) (hd : s.idToDb id = some d)
      (hkey : d.map (keyField mes) = none) :
      Outcome s mes (.ok .getKeyNotFound (s.after id d (.getKV (keyField mes))).released)
  | getStale (id slot : ℤ) (h : s.Decodes mes id slot) (ho : s.Owns id slot)
      (hcmd : cmdField mes = ascii "GET") (d : Db) (hd : s.idToDb id = some d)
      (hlink : ¬ d.Linked) (u : Undefined) (t : Db) :
      Outcome s mes (.error (.undefined u) (s.after id t (.getKV (keyField mes))))
  | delHit (id slot : ℤ) (h : s.Decodes mes id slot) (ho : s.Owns id slot)
      (hcmd : cmdField mes = ascii "DEL") (d : Db) (hd : s.idToDb id = some d) (e : MapValue)
      (hkey : d.map (keyField mes) = some e) :
      Outcome s mes (.ok .delDown
        (s.after id (d.remove (keyField mes) e) (.delKV (keyField mes))).released)
  | delMiss (id slot : ℤ) (h : s.Decodes mes id slot) (ho : s.Owns id slot)
      (hcmd : cmdField mes = ascii "DEL") (d : Db) (hd : s.idToDb id = some d)
      (hkey : d.map (keyField mes) = none) :
      Outcome s mes (.ok .delKeyNotFound (s.after id d (.delKV (keyField mes))).released)
  | delStale (id slot : ℤ) (h : s.Decodes mes id slot) (ho : s.Owns id slot)
      (hcmd : cmdField mes = ascii "DEL") (d : Db) (hd : s.idToDb id = some d)
      (hlink : ¬ d.Linked) (u : Undefined) (t : Db) :
      Outcome s mes (.error (.undefined u) (s.after id t (.delKV (keyField mes))))
  | moved (id slot : ℤ) (h : s.Decodes mes id slot) (ho : s.Owns id slot)
      (hcmd : cmdField mes = ascii "SET") (hslot : slot ≠ s.serverId) :
      Outcome s mes (.ok .moved s.released)
  | setShort (id slot : ℤ) (h : s.Decodes mes id slot) (ho : s.Owns id slot)
      (hcmd : cmdField mes = ascii "SET") (hslot : slot = s.serverId) (hlen : mes.length < 18) :
      Outcome s mes (.error (.thrown .outOfRange) s.released)
  | setHit (id slot : ℤ) (h : s.Decodes mes id slot) (ho : s.Owns id slot)
      (hcmd : cmdField mes = ascii "SET") (hslot : slot = s.serverId) (hlen : 18 ≤ mes.length)
      (d : Db) (hd : s.idToDb s.serverId = some d) (e : MapValue)
      (hkey : d.map (keyField mes) = some e) :
      Outcome s mes (.ok .setDone
        (s.after s.serverId (d.moveToFront (keyField mes) { e with value := valueField mes })
          (.setKV (keyField mes) (valueField mes) slot)).released)
  | setMiss (id slot : ℤ) (h : s.Decodes mes id slot) (ho : s.Owns id slot)
      (hcmd : cmdField mes = ascii "SET") (hslot : slot = s.serverId) (hlen : 18 ≤ mes.length)
      (hkey : ((s.idToDb s.serverId).getD default).map (keyField mes) = none)
      (u : Undefined) (t : Db) :
      Outcome s mes (.error (.undefined u)
        (s.after s.serverId t (.setKV (keyField mes) (valueField mes) slot)))
  | setStale (id slot : ℤ) (h : s.Decodes mes id slot) (ho : s.Owns id slot)
      (hcmd : cmdField mes = ascii "SET") (hslot : slot = s.serverId) (hlen : 18 ≤ mes.length)
      (d : Db) (hd : s.idToDb s.serverId = some d) (hlink : ¬ d.Linked) (u : Undefined) (t : Db) :
      Outcome s mes (.error (.undefined u)
        (s.after s.serverId t (.setKV (keyField mes) (valueField mes) slot)))
  | unknownCommand (id slot : ℤ) (h : s.Decodes mes id slot) (ho : s.Owns id slot)
      (hget : cmdField mes ≠ ascii "GET") (hdel : cmdField mes ≠ ascii "DEL")
      (hset : cmdField mes ≠ ascii "SET") :
      Outcome s mes (.error (.undefined .missingReturn) s.released)

theorem outcome_get (h : s.Decodes mes id slot) (ho : s.Owns id slot)
    (hcmd : cmdField mes = ascii "GET") : Outcome s mes ((handleClientRequest mes).run s) := by
  have ⟨d, hd, _⟩ := ho
  rw [run_get h ho hcmd hd]
  cases hkey : d.map (keyField mes) with
  | none =>
      rw [Db.getKV_miss hkey]
      exact .getMiss id slot h ho hcmd d hd hkey
  | some e =>
      rcases Db.getKV_found hkey with hrun | ⟨hlink, u, t, hrun⟩
      · rw [hrun]
        exact .getHit id slot h ho hcmd d hd e hkey
      · rw [hrun]
        exact .getStale id slot h ho hcmd d hd hlink u t

theorem outcome_del (h : s.Decodes mes id slot) (ho : s.Owns id slot)
    (hcmd : cmdField mes = ascii "DEL") : Outcome s mes ((handleClientRequest mes).run s) := by
  have ⟨d, hd, _⟩ := ho
  rw [run_del h ho hcmd hd]
  cases hkey : d.map (keyField mes) with
  | none =>
      rw [Db.delKV_miss hkey]
      exact .delMiss id slot h ho hcmd d hd hkey
  | some e =>
      rcases Db.delKV_found hkey with hrun | ⟨hlink, u, t, hrun⟩
      · rw [hrun]
        exact .delHit id slot h ho hcmd d hd e hkey
      · rw [hrun]
        exact .delStale id slot h ho hcmd d hd hlink u t

theorem outcome_set (h : s.Decodes mes id slot) (ho : s.Owns id slot)
    (hcmd : cmdField mes = ascii "SET") : Outcome s mes ((handleClientRequest mes).run s) := by
  by_cases hslot : slot = s.serverId
  · by_cases hlen : mes.length < 18
    · rw [run_set_short h ho hcmd hslot hlen]
      exact .setShort id slot h ho hcmd hslot hlen
    · have hlen' : 18 ≤ mes.length := by omega
      rw [run_set h ho hcmd hslot hlen']
      cases hkey : ((s.idToDb s.serverId).getD default).map (keyField mes) with
      | none =>
          obtain ⟨u, t, hrun⟩ := Db.setKV_miss hkey (valueField mes) slot
          rw [hrun]
          exact .setMiss id slot h ho hcmd hslot hlen' hkey u t
      | some e =>
          cases hd : s.idToDb s.serverId with
          | none => simp [hd, default, Db.empty] at hkey
          | some d =>
              rw [hd, Option.getD_some] at hkey
              rw [Option.getD_some]
              rcases Db.setKV_found hkey (valueField mes) slot with hrun | ⟨hlink, u, t, hrun⟩
              · rw [hrun]
                exact .setHit id slot h ho hcmd hslot hlen' d hd e hkey
              · rw [hrun]
                exact .setStale id slot h ho hcmd hslot hlen' d hd hlink u t
  · rw [run_set_moved h ho hcmd hslot]
    exact .moved id slot h ho hcmd hslot

theorem outcome (s : DbServer) (mes : Text) :
    Outcome s mes ((handleClientRequest mes).run s) := by
  by_cases hdec : ∃ id slot, s.Decodes mes id slot
  · obtain ⟨id, slot, h⟩ := hdec
    by_cases hrange : 0 ≤ slot ∧ slot < SLOTS_NUM
    · by_cases ho : s.Owns id slot
      · by_cases hget : cmdField mes = ascii "GET"
        · exact outcome_get h ho hget
        · by_cases hdel : cmdField mes = ascii "DEL"
          · exact outcome_del h ho hdel
          · by_cases hset : cmdField mes = ascii "SET"
            · exact outcome_set h ho hset
            · rw [run_unknown_command h ho hget hdel hset]
              exact .unknownCommand id slot h ho hget hdel hset
      · rw [run_of_not_owns h hrange ho]
        exact .wrongSlot id slot h hrange ho
    · rw [run_of_out_of_range h hrange]
      exact .badSlot id slot h hrange
  · have hnot : ∀ id slot, ¬ s.Decodes mes id slot := fun id slot h ↦ hdec ⟨id, slot, h⟩
    rcases run_of_not_decodes hnot with ⟨e, hrun⟩ | ⟨id, hid, hmem, hrun⟩
    · rw [hrun]
      exact .malformed e hnot
    · rw [hrun]
      exact .unknownId id hid hmem

end DbServer

end PpDSCache.Server
