import PpDSCache.Server.DbRefinesLru
import PpDSCache.Server.RequestOutcomes

/-!
# A server against its caches

A server with its stores behaves as one bounded LRU map for each of its
numbers: a request is refused, or read off and acted out on the map it names.
The numbers of a server and the slots of its stores stay as they are.
-/

namespace PpDSCache.Server

open Cpp Abstract

/-- What the requests do not change. -/
structure Settings where
  serverId : ℤ
  ids : List ℤ
  slots : ℤ → SlotSet

abbrev Caches := ℤ → Abstract.LruMap Text Text

namespace Settings

variable (c : Settings)

/-- A request that has passed all checks.  No reply stands for an exception. -/
def command (mes : Text) (id slot : ℤ) (m : Caches) : Option Reply × Caches :=
  if cmdField mes = ascii "GET" then
    match (m id).value (keyField mes) with
    | some v => (some (.value v), Function.update m id ((m id).put (keyField mes) v))
    | none => (some .getKeyNotFound, m)
  else if cmdField mes = ascii "DEL" then
    match (m id).value (keyField mes) with
    | some _ => (some .delDown, Function.update m id ((m id).del (keyField mes)))
    | none => (some .delKeyNotFound, m)
  else if cmdField mes = ascii "SET" then
    if slot ≠ c.serverId then (some .moved, m)
    else if mes.length < 18 then (none, m)
    else
      (some .setDone, Function.update m c.serverId
        (Abstract.LruMap.step (.set (keyField mes) (valueField mes)) (m c.serverId)).2)
  else (none, m)

def step (mes : Text) (m : Caches) : Option Reply × Caches :=
  match Text.strtol (mes.take 2) with
  | none => (none, m)
  | some id =>
      if id ∉ c.ids then (some .wrongServerId, m)
      else
        match Text.strtol ((mes.drop 2).take 5) with
        | none => (none, m)
        | some slot =>
            if mes.length < 10 ∨ ¬ (0 ≤ slot ∧ slot < SLOTS_NUM) then (none, m)
            else if (c.slots id).getLsbD slot.toNat = false then (some .wrongSlot, m)
            else c.command mes id slot m

/-- The request passes all checks. -/
structure Admits (mes : Text) (id slot : ℤ) : Prop where
  id_field : Text.strtol (mes.take 2) = some id
  mem_ids : id ∈ c.ids
  length : 10 ≤ mes.length
  slot_field : Text.strtol ((mes.drop 2).take 5) = some slot
  range : 0 ≤ slot ∧ slot < SLOTS_NUM
  owned : (c.slots id).getLsbD slot.toNat = true

/-- A request that passes all checks has one of the three commands, and a write
for the server itself finds its key. -/
def Supports (mes : Text) (m : Caches) : Prop :=
  ∀ id slot, c.Admits mes id slot → cmdField mes = ascii "GET" ∨ cmdField mes = ascii "DEL" ∨
    cmdField mes = ascii "SET" ∧
      (slot = c.serverId → 18 ≤ mes.length → keyField mes ∈ (m c.serverId).order)

variable {c} {mes : Text} {id slot : ℤ}

theorem step_of_admits (h : c.Admits mes id slot) (m : Caches) :
    c.step mes m = c.command mes id slot m := by
  have hlen := h.length
  have hnot : ¬ (mes.length < 10 ∨ ¬ (0 ≤ slot ∧ slot < SLOTS_NUM)) := by
    have hrange := h.range
    omega
  simp only [step, h.id_field, h.slot_field, h.mem_ids, not_true_eq_false, if_false, if_neg hnot,
    h.owned, Bool.true_eq_false]

end Settings

namespace DbServer

def answer : EStateM.Result Fault DbServer Reply → Option (Option Reply × DbServer)
  | .ok reply t => some (some reply, t)
  | .error (.thrown _) t => some (none, t)
  | .error (.undefined _) _ => none

def exec (mes : Text) (s : DbServer) : Option (Option Reply × DbServer) :=
  answer ((handleClientRequest mes).run s)

structure Shows (c : Settings) (s : DbServer) (m : Caches) : Prop where
  serverId : s.serverId = c.serverId
  ids : s.ids = c.ids
  stores : ∀ id ∈ c.serverId :: c.ids, ∃ d, s.idToDb id = some d ∧ d.slots = c.slots id ∧
    d.Shows (m id)

namespace Shows

variable {c : Settings} {s : DbServer} {m : Caches} {mes : Text} {id slot : ℤ}

theorem released (h : s.Shows c m) : s.released.Shows c m := ⟨h.serverId, h.ids, h.stores⟩

theorem opened (h : s.Shows c m) (hid : id ∈ c.ids) : s.opened id = s := by
  obtain ⟨d, hd, -⟩ := h.stores id (List.mem_cons_of_mem _ hid)
  exact opened_eq_self hd

/-- One of the stores and its cache have changed. -/
theorem after (h : s.Shows c m) {d : Db} (call : Db.Call) {n : Abstract.LruMap Text Text}
    (hd : d.Shows n) (hslots : d.slots = c.slots id) :
    (s.after id d call).released.Shows c (Function.update m id n) := by
  refine ⟨h.serverId, h.ids, fun id' hid' ↦ ?_⟩
  by_cases heq : id' = id
  · subst heq
    exact ⟨d, by simp [DbServer.released, DbServer.after], hslots, by simpa using hd⟩
  · obtain ⟨d', hd', hslots', hshows⟩ := h.stores id' hid'
    exact ⟨d', by simp [DbServer.released, DbServer.after, heq, hd'], hslots', by simpa [heq]⟩

theorem after_same (h : s.Shows c m) {d : Db} (call : Db.Call) (hid : id ∈ c.ids)
    (hd : s.idToDb id = some d) : (s.after id d call).released.Shows c m := by
  obtain ⟨d', hd', hslots, hshows⟩ := h.stores id (List.mem_cons_of_mem _ hid)
  cases hd.symm.trans hd'
  have hafter := h.after call hshows hslots
  rwa [Function.update_eq_self] at hafter

theorem decodes_iff (h : s.Shows c m) (hrange : 0 ≤ slot ∧ slot < SLOTS_NUM) :
    s.Decodes mes id slot ∧ s.Owns id slot ↔ c.Admits mes id slot := by
  constructor
  · rintro ⟨hdec, d, hd, -, -, hbit⟩
    have hmem : id ∈ c.ids := h.ids ▸ hdec.mem_ids
    obtain ⟨d', hd', hslots, -⟩ := h.stores id (List.mem_cons_of_mem _ hmem)
    cases hd.symm.trans hd'
    exact ⟨hdec.id_field, hmem, hdec.length, hdec.slot_field, hrange, hslots ▸ hbit⟩
  · intro ha
    obtain ⟨d, hd, hslots, -⟩ := h.stores id (List.mem_cons_of_mem _ ha.mem_ids)
    exact ⟨⟨ha.id_field, h.ids ▸ ha.mem_ids, ha.length, ha.slot_field⟩, d, hd, hrange.1, hrange.2,
      hslots ▸ ha.owned⟩

theorem exec_of_not_decodes (h : ∀ id slot, ¬ s.Decodes mes id slot)
    (hid : ∀ id, Text.strtol (mes.take 2) = some id → id ∈ s.ids) :
    exec mes s = some (none, s) := by
  rcases run_of_not_decodes h with ⟨e, hrun⟩ | ⟨id, hfield, hmem, -⟩
  · rw [exec, hrun]
    rfl
  · exact absurd (hid id hfield) hmem

/-- A request that is not admitted is refused in the same way. -/
theorem exec_of_not_admits (h : s.Shows c m) (hnot : ∀ id slot, ¬ c.Admits mes id slot) :
    ∃ t, exec mes s = some ((c.step mes m).1, t) ∧ t.Shows c (c.step mes m).2 := by
  unfold Settings.step
  cases hid : Text.strtol (mes.take 2) with
  | none =>
      refine ⟨s, exec_of_not_decodes (fun id slot hdec ↦ ?_) (fun id hsome ↦ ?_), h⟩
      · cases hid.symm.trans hdec.id_field
      · cases hid.symm.trans hsome
  | some id =>
      by_cases hmem : id ∈ c.ids
      swap
      · refine ⟨s, ?_, by simpa [hmem] using h⟩
        rw [exec, run_of_unknownId hid (h.ids ▸ hmem)]
        simp [answer, hmem]
      have hfield : ∀ id', Text.strtol (mes.take 2) = some id' → id' ∈ s.ids := by
        intro id' hsome
        cases hid.symm.trans hsome
        rwa [h.ids]
      cases hslot : Text.strtol ((mes.drop 2).take 5) with
      | none =>
          refine ⟨s, ?_, by simpa [hmem, hslot] using h⟩
          rw [exec_of_not_decodes (fun id slot hdec ↦ ?_) hfield]
          · simp [hmem]
          · cases hslot.symm.trans hdec.slot_field
      | some slot =>
          by_cases hlen : mes.length < 10
          · refine ⟨s, ?_, by simpa [hmem, hlen] using h⟩
            rw [exec_of_not_decodes (fun id slot hdec ↦ ?_) hfield]
            · simp [hmem, hlen]
            · have hten := hdec.length
              omega
          have hdec : s.Decodes mes id slot := ⟨hid, h.ids ▸ hmem, by omega, hslot⟩
          by_cases hrange : 0 ≤ slot ∧ slot < SLOTS_NUM
          · have hbit : (c.slots id).getLsbD slot.toNat = false := by
              by_contra hne
              exact hnot id slot ⟨hid, hmem, by omega, hslot, hrange, by simpa using hne⟩
            have howns : ¬ s.Owns id slot := fun ho ↦
              hnot id slot ((h.decodes_iff hrange).mp ⟨hdec, ho⟩)
            have hin : ¬ (mes.length < 10 ∨ ¬ (0 ≤ slot ∧ slot < SLOTS_NUM)) := by omega
            dsimp only
            rw [if_neg (not_not.mpr hmem), if_neg hin, if_pos hbit, exec,
              run_of_not_owns hdec hrange howns, h.opened hmem]
            exact ⟨s.released, rfl, h.released⟩
          · have hout : mes.length < 10 ∨ ¬ (0 ≤ slot ∧ slot < SLOTS_NUM) := .inr hrange
            dsimp only
            rw [if_neg (not_not.mpr hmem), if_pos hout, exec, run_of_out_of_range hdec hrange,
              h.opened hmem]
            exact ⟨s.released, rfl, h.released⟩

/-- An admitted request with a command is acted out in the same way. -/
theorem exec_of_admits (h : s.Shows c m) (ha : c.Admits mes id slot) (hok : c.Supports mes m) :
    ∃ t, exec mes s = some ((c.step mes m).1, t) ∧ t.Shows c (c.step mes m).2 := by
  obtain ⟨hdec, ho⟩ := (h.decodes_iff ha.range).mpr ha
  obtain ⟨d, hd, hslots, hshows⟩ := h.stores id (List.mem_cons_of_mem _ ha.mem_ids)
  rw [Settings.step_of_admits ha]
  unfold Settings.command
  rcases hok id slot ha with hget | hdel | ⟨hset, hholds⟩
  · rw [if_pos hget, exec, run_get hdec ho hget hd]
    cases hkey : d.map (keyField mes) with
    | none =>
        rw [Db.getKV_miss hkey, hshows.value_none hkey]
        exact ⟨_, rfl, h.after_same _ ha.mem_ids hd⟩
    | some e =>
        rw [Db.getKV_hit hshows.linked hkey, hshows.value_some hkey]
        exact ⟨_, rfl, h.after _ (hshows.moveToFront hkey e.value) hslots⟩
  · have hne : ascii "DEL" ≠ ascii "GET" := by decide
    rw [if_neg (hdel ▸ hne), if_pos hdel, exec, run_del hdec ho hdel hd]
    cases hkey : d.map (keyField mes) with
    | none =>
        rw [Db.delKV_miss hkey, hshows.value_none hkey]
        exact ⟨_, rfl, h.after_same _ ha.mem_ids hd⟩
    | some e =>
        rw [Db.delKV_hit hshows.linked hkey, hshows.value_some hkey]
        exact ⟨_, rfl, h.after _ (hshows.remove hkey) hslots⟩
  · have hget : ascii "SET" ≠ ascii "GET" := by decide
    have hdel : ascii "SET" ≠ ascii "DEL" := by decide
    rw [if_neg (hset ▸ hget), if_neg (hset ▸ hdel), if_pos hset, exec]
    by_cases hslot : slot = c.serverId
    swap
    · rw [if_pos hslot, run_set_moved hdec ho hset (h.serverId ▸ hslot)]
      exact ⟨_, rfl, h.released⟩
    rw [if_neg (not_not.mpr hslot)]
    have hself : slot = s.serverId := hslot.trans h.serverId.symm
    by_cases hlen : mes.length < 18
    · rw [if_pos hlen, run_set_short hdec ho hset hself hlen]
      exact ⟨_, rfl, h.released⟩
    · obtain ⟨d', hd', hslots', hshows'⟩ := h.stores c.serverId List.mem_cons_self
      obtain ⟨e, hkey⟩ := hshows'.exists_entry (hholds hslot (by omega))
      rw [if_neg hlen, run_set hdec ho hset hself (by omega), h.serverId, hd', Option.getD_some,
        Db.setKV_hit hshows'.linked hkey]
      have hvalue := hshows'.value_some hkey
      refine ⟨_, rfl, ?_⟩
      simp only [Abstract.LruMap.step, hvalue]
      exact h.after _ (hshows'.moveToFront hkey (valueField mes)) hslots'

/-- Any other admitted request has an undefined outcome. -/
theorem exec_of_not_supports (h : s.Shows c m) (hok : ¬ c.Supports mes m) : exec mes s = none := by
  simp only [Settings.Supports, not_forall, not_or] at hok
  obtain ⟨id, slot, ha, hget, hdel, hset⟩ := hok
  obtain ⟨hdec, ho⟩ := (h.decodes_iff ha.range).mpr ha
  by_cases hcmd : cmdField mes = ascii "SET"
  · simp only [hcmd, true_and, Classical.not_imp] at hset
    obtain ⟨hslot, hlen, hkey⟩ := hset
    obtain ⟨d, hd, -, hshows⟩ := h.stores c.serverId List.mem_cons_self
    have hmiss : d.map (keyField mes) = none := hshows.map_eq_none hkey
    obtain ⟨u, t, hrun⟩ := Db.setKV_miss hmiss (valueField mes) slot
    rw [exec, run_set hdec ho hcmd (hslot.trans h.serverId.symm) hlen, h.serverId, hd,
      Option.getD_some, hrun]
    rfl
  · rw [exec, run_unknown_command hdec ho hget hdel hcmd]
    rfl

theorem exec (h : s.Shows c m) (hok : c.Supports mes m) :
    ∃ t, DbServer.exec mes s = some ((c.step mes m).1, t) ∧ t.Shows c (c.step mes m).2 := by
  by_cases ha : ∃ id slot, c.Admits mes id slot
  · obtain ⟨id, slot, ha⟩ := ha
    exact h.exec_of_admits ha hok
  · exact h.exec_of_not_admits fun id slot h' ↦ ha ⟨id, slot, h'⟩

end Shows

/-- Along a list of requests the server replies as its caches do, and its stores
show them, if and only if each request finds what it needs. -/
theorem tracks_caches_iff {c : Settings} {s : DbServer} {m : Caches} (h : s.Shows c m)
    (messages : List Text) :
    Tracks DbServer.exec c.step (Shows c) s m messages ↔
      EachMeets c.step c.Supports m messages :=
  tracks_iff_eachMeets (fun _ _ _ h hok ↦ h.exec hok)
    (fun _ _ _ _ h hok ht ↦ absurd ht (by simp [h.exec_of_not_supports hok])) h messages

/-- Server 1 with one key in slot 1. -/
def oneKeyDb : Db.LinkedDb :=
  ⟨Db.single 1 2 (ascii "key00000") (ascii "val00000") 1, Db.linked_single ..⟩

theorem tracks_caches_oneKeyDb :
    Tracks DbServer.exec (Settings.mk 1 [1] fun _ ↦ 2).step (Shows ⟨1, [1], fun _ ↦ 2⟩)
      (sole 1 oneKeyDb.1) (fun _ ↦ Db.toLru oneKeyDb)
      [ascii "0100001GETkey00000", ascii "0100001DELkey00000", ascii "0100001GETkey00000"] := by
  have hshows : (sole 1 oneKeyDb.1).Shows ⟨1, [1], fun _ ↦ 2⟩ (fun _ ↦ Db.toLru oneKeyDb) := by
    refine ⟨rfl, rfl, fun id hid ↦ ⟨oneKeyDb.1, ?_, rfl, Db.shows_toLru oneKeyDb⟩⟩
    obtain rfl : id = 1 := by simpa using hid
    rfl
  refine (tracks_caches_iff hshows _).mpr ⟨?_, ?_, ?_, trivial⟩
  · exact fun _ _ _ ↦ .inl (by decide)
  · exact fun _ _ _ ↦ .inr (.inl (by decide))
  · exact fun _ _ _ ↦ .inl (by decide)

end DbServer

end PpDSCache.Server
