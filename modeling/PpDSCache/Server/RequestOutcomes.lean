import PpDSCache.Server.Wire

/-!
# Refusals, answers and writes

Consequences of the list of outcomes: what a refused request leaves alone,
when a request is answered at all, and when a write does what it should.
-/

namespace PpDSCache.Server

open Cpp

def Reply.isRefusal : Reply → Bool
  | wrongServerId | wrongSlot | moved | getKeyNotFound | delKeyNotFound => true
  | value _ | delDown | setDone => false

namespace DbServer

def Linked (s : DbServer) : Prop := ∀ id d, s.idToDb id = some d → d.Linked

def Holds (s : DbServer) (id : ℤ) (key : Text) : Prop :=
  ∃ d, s.idToDb id = some d ∧ (d.map key).isSome

def sole (serverId : ℤ) (d : Db) : DbServer where
  serverId := serverId
  ids := [serverId]
  idToDb := Function.update (fun _ ↦ none) serverId (some d)
  dbmtx := false
  trace := []

theorem linked_sole (serverId : ℤ) {d : Db} (hd : d.Linked) : (sole serverId d).Linked := by
  intro id t ht
  by_cases hid : id = serverId
  · subst hid
    have heq : d = t := by simpa [sole] using ht
    exact heq ▸ hd
  · simp [sole, hid] at ht

/-! ## Two servers -/

/-- Server 1 owning slot 0, with no key. -/
def slotZeroServer : DbServer := sole 1 { Db.empty 1 with slots := 1 }

theorem linked_slotZeroServer : slotZeroServer.Linked :=
  linked_sole 1
    { nodup := List.nodup_nil
      mem_lruList := by simp [Db.empty]
      listItor := by simp [Db.empty]
      slotItor := by simp [Db.empty]
      slot_nodup := by simp [Db.empty]
      mem_slotToKey := by simp [Db.empty] }

theorem owns_slotZeroServer : slotZeroServer.Owns 1 0 :=
  ⟨{ Db.empty 1 with slots := 1 }, by simp [slotZeroServer, sole], by decide, by decide, by simp⟩

/-- Server 1 owning slot 1, with one key in it. -/
def oneKeyServer : DbServer := sole 1 (Db.single 1 2 (ascii "key00000") (ascii "val00000") 1)

theorem linked_oneKeyServer : oneKeyServer.Linked := linked_sole 1 (Db.linked_single ..)

theorem owns_oneKeyServer : oneKeyServer.Owns 1 1 := by
  have hbit : Nat.testBit 2 1 = true := by decide
  exact ⟨_, rfl, by decide, by decide, by simpa [Db.single, BitVec.getLsbD] using hbit⟩

theorem holds_oneKeyServer : oneKeyServer.Holds 1 (ascii "key00000") := ⟨_, rfl, rfl⟩

variable {s : DbServer} {mes : Text}

/-! ## The links survive every request -/

theorem Linked.update (hs : s.Linked) (id : ℤ) {d : Db} (hd : d.Linked) {t : DbServer}
    (ht : t.idToDb = Function.update s.idToDb id (some d)) : t.Linked := by
  intro j g hg
  rw [ht] at hg
  by_cases hj : j = id
  · subst hj
    have heq : d = g := by simpa using hg
    exact heq ▸ hd
  · exact hs j g (by simpa [hj] using hg)

theorem Linked.opened (hs : s.Linked) (id : ℤ) : (s.opened id).Linked := by
  refine hs.update id ?_ rfl
  cases hd : s.idToDb id with
  | none => exact Db.linked_empty 0
  | some d => exact hs id d hd

/-- A request that returns or raises leaves well-linked stores behind. -/
theorem Linked.run (hs : s.Linked) {t : DbServer}
    (ht : Code.stateAfter ((handleClientRequest mes).run s) = some t) : t.Linked := by
  have hout := outcome s mes
  generalize (handleClientRequest mes).run s = r at hout ht
  cases hout with
  | malformed e _ => exact Option.some.inj ht ▸ hs
  | unknownId id _ _ => exact Option.some.inj ht ▸ hs
  | badSlot id slot _ _ => exact Option.some.inj ht ▸ hs.opened id
  | wrongSlot id slot _ _ _ => exact Option.some.inj ht ▸ hs.opened id
  | getHit id slot _ _ _ d hd e hkey =>
      exact Option.some.inj ht ▸ hs.update id ((hs id d hd).moveToFront hkey e.value) rfl
  | getMiss id slot _ _ _ d hd _ => exact Option.some.inj ht ▸ hs.update id (hs id d hd) rfl
  | delHit id slot _ _ _ d hd e hkey =>
      exact Option.some.inj ht ▸ hs.update id ((hs id d hd).remove hkey) rfl
  | delMiss id slot _ _ _ d hd _ => exact Option.some.inj ht ▸ hs.update id (hs id d hd) rfl
  | moved id slot _ _ _ _ => exact Option.some.inj ht ▸ hs
  | setShort id slot _ _ _ _ _ => exact Option.some.inj ht ▸ hs
  | setHit id slot _ _ _ _ _ d hd e hkey =>
      exact Option.some.inj ht ▸
        hs.update s.serverId ((hs s.serverId d hd).moveToFront hkey _) rfl
  | getStale | delStale | setMiss | setStale | unknownCommand => simp [Code.stateAfter] at ht

/-! ## Refusals -/

theorem opened_of_mem (hids : ∀ id ∈ s.serverId :: s.ids, (s.idToDb id).isSome) {id : ℤ}
    (hmem : id ∈ s.ids) : s.opened id = s := by
  obtain ⟨d, hd⟩ := Option.isSome_iff_exists.mp (hids id (List.mem_cons_of_mem _ hmem))
  exact opened_eq_self hd

theorem after_idToDb_self {id : ℤ} {d : Db} (hd : s.idToDb id = some d) (call : Db.Call) :
    (s.after id d call).released.idToDb = s.idToDb := by
  change Function.update s.idToDb id (some d) = s.idToDb
  rw [← hd, Function.update_eq_self]

theorem keeps_of_thrown (hids : ∀ id ∈ s.serverId :: s.ids, (s.idToDb id).isSome)
    {e : Exn} {t : DbServer} (hrun : (handleClientRequest mes).run s = .error (.thrown e) t) :
    t.idToDb = s.idToDb ∧ (s.dbmtx = false → t.dbmtx = false) := by
  have hout := outcome s mes
  rw [hrun] at hout
  cases hout with
  | malformed _ _ => exact ⟨rfl, id⟩
  | badSlot id slot h _ =>
      rw [opened_of_mem hids h.mem_ids]
      exact ⟨rfl, fun _ ↦ rfl⟩
  | setShort id slot _ _ _ _ _ => exact ⟨rfl, fun _ ↦ rfl⟩

theorem keeps_of_refusal (hids : ∀ id ∈ s.serverId :: s.ids, (s.idToDb id).isSome)
    {reply : Reply} {t : DbServer} (hrun : (handleClientRequest mes).run s = .ok reply t)
    (href : reply.isRefusal = true) :
    t.idToDb = s.idToDb ∧ (s.dbmtx = false → t.dbmtx = false) := by
  have hout := outcome s mes
  rw [hrun] at hout
  cases hout with
  | unknownId id _ _ => exact ⟨rfl, fun h ↦ h⟩
  | wrongSlot id slot h _ _ =>
      rw [opened_of_mem hids h.mem_ids]
      exact ⟨rfl, fun _ ↦ rfl⟩
  | getMiss id slot _ _ _ d hd _ => exact ⟨after_idToDb_self hd _, fun _ ↦ rfl⟩
  | delMiss id slot _ _ _ d hd _ => exact ⟨after_idToDb_self hd _, fun _ ↦ rfl⟩
  | moved id slot _ _ _ _ => exact ⟨rfl, fun _ ↦ rfl⟩
  | getHit | delHit | setHit => simp [Reply.isRefusal] at href

theorem sameButOrder_of_value {v : Text} {t : DbServer}
    (hrun : (handleClientRequest mes).run s = .ok (.value v) t) :
    ∃ id d d', Text.strtol (mes.take 2) = some id ∧ s.idToDb id = some d ∧
      t.idToDb = Function.update s.idToDb id (some d') ∧ d.SameButOrder d' := by
  have hout := outcome s mes
  rw [hrun] at hout
  cases hout with
  | getHit id slot h _ _ d hd e hkey =>
      exact ⟨id, d, _, h.id_field, hd, rfl, Db.sameButOrder_moveToFront hkey⟩

theorem update_of_delDown {t : DbServer}
    (hrun : (handleClientRequest mes).run s = .ok .delDown t) :
    ∃ id d', Text.strtol (mes.take 2) = some id ∧
      t.idToDb = Function.update s.idToDb id (some d') := by
  have hout := outcome s mes
  rw [hrun] at hout
  cases hout with
  | delHit id slot h _ _ d _ e _ => exact ⟨id, d.remove (keyField mes) e, h.id_field, rfl⟩

/-- A request that raises an exception or is refused changes no store and
does not keep the mutex; a successful read changes the recency order of one
store only, and a successful deletion one store only. -/
theorem refusal_keeps_stores (hids : ∀ id ∈ s.serverId :: s.ids, (s.idToDb id).isSome)
    (mes : Text) :
    (∀ e t, (handleClientRequest mes).run s = .error (.thrown e) t →
      t.idToDb = s.idToDb ∧ (s.dbmtx = false → t.dbmtx = false)) ∧
    (∀ reply t, (handleClientRequest mes).run s = .ok reply t → reply.isRefusal = true →
      t.idToDb = s.idToDb ∧ (s.dbmtx = false → t.dbmtx = false)) ∧
    (∀ v t, (handleClientRequest mes).run s = .ok (.value v) t →
      ∃ id d d', Text.strtol (mes.take 2) = some id ∧ s.idToDb id = some d ∧
        t.idToDb = Function.update s.idToDb id (some d') ∧ d.SameButOrder d') ∧
    ∀ t, (handleClientRequest mes).run s = .ok .delDown t →
      ∃ id d', Text.strtol (mes.take 2) = some id ∧
        t.idToDb = Function.update s.idToDb id (some d') :=
  ⟨fun _ _ ↦ keeps_of_thrown hids, fun _ _ ↦ keeps_of_refusal hids,
    fun _ _ ↦ sameButOrder_of_value, fun _ ↦ update_of_delDown⟩

/-- The slot check raises an exception with the mutex held, and a key is not
found. -/
theorem refusal_keeps_stores_oneKeyServer :
    (∃ t, (handleClientRequest (ascii "0199999GETkey00000")).run oneKeyServer =
        .error (.thrown .outOfRange) t ∧
      t.idToDb = oneKeyServer.idToDb ∧ t.dbmtx = false) ∧
    ∃ t, (handleClientRequest (ascii "0100001GETkey00001")).run oneKeyServer =
        .ok .getKeyNotFound t ∧
      t.idToDb = oneKeyServer.idToDb ∧ t.dbmtx = false := by
  have hids : ∀ id ∈ oneKeyServer.serverId :: oneKeyServer.ids,
      (oneKeyServer.idToDb id).isSome := by simp [oneKeyServer, sole]
  constructor
  · have hdec : oneKeyServer.Decodes (ascii "0199999GETkey00000") 1 99999 :=
      ⟨by decide, by decide, by decide, by decide⟩
    have hrun := run_of_out_of_range hdec (by decide)
    obtain ⟨hstores, hmutex⟩ := (refusal_keeps_stores hids _).1 _ _ hrun
    exact ⟨_, hrun, hstores, hmutex rfl⟩
  · have hdec : oneKeyServer.Decodes (ascii "0100001GETkey00001") 1 1 :=
      ⟨by decide, by decide, by decide, by decide⟩
    have hrun := run_get hdec owns_oneKeyServer (by decide) rfl
    rw [Db.getKV_miss (by decide)] at hrun
    obtain ⟨hstores, hmutex⟩ := (refusal_keeps_stores hids _).2.1 _ _ hrun rfl
    exact ⟨_, hrun, hstores, hmutex rfl⟩

/-! ## Requests without an answer -/

/-- The command leads to a return statement: it is one of the three, and a
write that gets as far as its store finds the key there. -/
def Dispatched (s : DbServer) (mes : Text) (slot : ℤ) : Prop :=
  cmdField mes = ascii "GET" ∨ cmdField mes = ascii "DEL" ∨
    (cmdField mes = ascii "SET" ∧
      (slot = s.serverId → 18 ≤ mes.length → s.Holds s.serverId (keyField mes)))

/-- A request is answered, by a reply or an exception, exactly when every
command that passes the server and slot checks leads to a return statement. -/
theorem answered_iff_dispatched (hs : s.Linked) (mes : Text) :
    (Code.stateAfter ((handleClientRequest mes).run s)).isSome ↔
      ∀ id slot, s.Decodes mes id slot → s.Owns id slot → s.Dispatched mes slot := by
  have hout := outcome s mes
  generalize (handleClientRequest mes).run s = r at hout
  cases hout with
  | malformed e h => exact iff_of_true rfl fun id slot hdec _ ↦ absurd hdec (h id slot)
  | unknownId id hid hmem =>
      refine iff_of_true rfl fun id' slot hdec _ ↦ ?_
      have heq : id = id' := Option.some.inj (hid.symm.trans hdec.id_field)
      exact absurd (heq ▸ hdec.mem_ids) hmem
  | badSlot id slot h hrange =>
      refine iff_of_true rfl fun id' slot' h' ho ↦ ?_
      obtain ⟨d, -, h0, hlt, -⟩ := ho
      obtain ⟨-, rfl⟩ := h.unique h'
      exact absurd ⟨h0, hlt⟩ hrange
  | wrongSlot id slot h _ hno =>
      refine iff_of_true rfl fun id' slot' h' ho ↦ ?_
      obtain ⟨rfl, rfl⟩ := h.unique h'
      exact absurd ho hno
  | getHit id slot _ _ hcmd => exact iff_of_true rfl fun _ _ _ _ ↦ .inl hcmd
  | getMiss id slot _ _ hcmd => exact iff_of_true rfl fun _ _ _ _ ↦ .inl hcmd
  | delHit id slot _ _ hcmd => exact iff_of_true rfl fun _ _ _ _ ↦ .inr (.inl hcmd)
  | delMiss id slot _ _ hcmd => exact iff_of_true rfl fun _ _ _ _ ↦ .inr (.inl hcmd)
  | getStale id slot _ _ _ d hd hlink => exact absurd (hs id d hd) hlink
  | delStale id slot _ _ _ d hd hlink => exact absurd (hs id d hd) hlink
  | setStale id slot _ _ _ _ _ d hd hlink => exact absurd (hs s.serverId d hd) hlink
  | moved id slot h _ hcmd hne =>
      refine iff_of_true rfl fun id' slot' h' _ ↦ .inr (.inr ⟨hcmd, fun heq ↦ ?_⟩)
      obtain ⟨-, rfl⟩ := h.unique h'
      exact absurd heq hne
  | setShort id slot _ _ hcmd _ hlen =>
      exact iff_of_true rfl fun _ _ _ _ ↦ .inr (.inr ⟨hcmd, fun _ hlong ↦ by omega⟩)
  | setHit id slot _ _ hcmd _ _ d hd e hkey =>
      exact iff_of_true rfl fun _ _ _ _ ↦
        .inr (.inr ⟨hcmd, fun _ _ ↦ ⟨d, hd, by simp [hkey]⟩⟩)
  | setMiss id slot h ho hcmd hslot hlen hkey u t =>
      refine iff_of_false (by simp [Code.stateAfter]) fun hall ↦ ?_
      have hget : ascii "SET" ≠ ascii "GET" := by decide
      have hdel : ascii "SET" ≠ ascii "DEL" := by decide
      rcases hall id slot h ho with hc | hc | ⟨-, hholds⟩
      · exact hget (hcmd.symm.trans hc)
      · exact hdel (hcmd.symm.trans hc)
      · obtain ⟨d, hd, hsome⟩ := hholds hslot hlen
        simp [hd] at hkey
        simp [hkey] at hsome
  | unknownCommand id slot h ho hget hdel hset =>
      refine iff_of_false (by simp [Code.stateAfter]) fun hall ↦ ?_
      rcases hall id slot h ho with hc | hc | ⟨hc, -⟩
      · exact hget hc
      · exact hdel hc
      · exact hset hc

/-- A read of an absent key and a write of a held one. -/
theorem answered_iff_dispatched_read_write :
    slotZeroServer.Decodes (ascii "0100000GETkey00000") 1 0 ∧ slotZeroServer.Owns 1 0 ∧
      (Code.stateAfter
        ((handleClientRequest (ascii "0100000GETkey00000")).run slotZeroServer)).isSome ∧
    oneKeyServer.Decodes (ascii "0100001SETkey00000val00001") 1 1 ∧ oneKeyServer.Owns 1 1 ∧
      (Code.stateAfter
        ((handleClientRequest (ascii "0100001SETkey00000val00001")).run oneKeyServer)).isSome := by
  have hread : slotZeroServer.Decodes (ascii "0100000GETkey00000") 1 0 :=
    ⟨by decide, by decide, by decide, by decide⟩
  have hwrite : oneKeyServer.Decodes (ascii "0100001SETkey00000val00001") 1 1 :=
    ⟨by decide, by decide, by decide, by decide⟩
  refine ⟨hread, owns_slotZeroServer, ?_, hwrite, owns_oneKeyServer, ?_⟩
  · exact (answered_iff_dispatched linked_slotZeroServer _).mpr fun _ _ _ _ ↦ .inl (by decide)
  · refine (answered_iff_dispatched linked_oneKeyServer _).mpr fun id slot _ _ ↦ ?_
    exact .inr (.inr ⟨by decide, fun _ _ ↦ holds_oneKeyServer⟩)

/-- An unknown three-byte command for a right server and an owned slot runs
off the end of the handler. -/
theorem unanswered_unknown_command :
    slotZeroServer.Linked ∧
      (handleClientRequest (ascii "0100000FOOkey00000")).run slotZeroServer =
        .error (.undefined .missingReturn) slotZeroServer := by
  have h : slotZeroServer.Decodes (ascii "0100000FOOkey00000") 1 0 :=
    ⟨by decide, by simp [slotZeroServer, sole], by decide, by decide⟩
  refine ⟨linked_slotZeroServer, ?_⟩
  rw [run_unknown_command h owns_slotZeroServer (by decide) (by decide) (by decide)]
  rfl

/-! ## Writes -/

def valueAt (s : DbServer) (id : ℤ) (key : Text) : Option Text :=
  (s.idToDb id).bind fun d ↦ (d.map key).map MapValue.value

theorem run_set_holds (hs : s.Linked) {id slot : ℤ} (h : s.Decodes mes id slot)
    (ho : s.Owns id slot) (hcmd : cmdField mes = ascii "SET") (hslot : slot = s.serverId)
    (hlen : 18 ≤ mes.length) (hkey : s.Holds s.serverId (keyField mes)) :
    ∃ t, (handleClientRequest mes).run s = .ok .setDone t ∧
      t.valueAt s.serverId (keyField mes) = some (valueField mes) := by
  obtain ⟨d, hd, hsome⟩ := hkey
  obtain ⟨e, he⟩ := Option.isSome_iff_exists.mp hsome
  have hrun := run_set h ho hcmd hslot hlen
  rw [hd, Option.getD_some, Db.setKV_hit (hs s.serverId d hd) he] at hrun
  exact ⟨_, hrun, by simp [valueAt, released, after, Db.moveToFront]⟩

theorem run_set_not_holds {id slot : ℤ} (h : s.Decodes mes id slot) (ho : s.Owns id slot)
    (hcmd : cmdField mes = ascii "SET") (hslot : slot = s.serverId) (hlen : 18 ≤ mes.length)
    (hkey : ¬ s.Holds s.serverId (keyField mes)) :
    ∃ u t, (handleClientRequest mes).run s = .error (.undefined u) t := by
  have hnone : ((s.idToDb s.serverId).getD default).map (keyField mes) = none := by
    cases hd : s.idToDb s.serverId with
    | none => rfl
    | some d =>
        by_contra hne
        exact hkey ⟨d, hd, Option.isSome_iff_ne_none.mpr hne⟩
  obtain ⟨u, t, hrun⟩ := Db.setKV_miss hnone (valueField mes) slot
  exact ⟨u, _, by rw [run_set h ho hcmd hslot hlen, hrun]⟩

/-- What a write for a server number and a slot of that server's store should
do: the server itself stores the value, any other number is redirected. -/
def WriteCorrect (s : DbServer) (h : Header) (value : Text) : Prop :=
  (h.id = s.serverId → ∃ t, (handleClientRequest (h.text ++ value)).run s = .ok .setDone t ∧
    t.valueAt s.serverId h.key = some value) ∧
  (h.id ≠ s.serverId → ∃ t, (handleClientRequest (h.text ++ value)).run s = .ok .moved t ∧
    t.idToDb = s.idToDb)

/-- A write does what it should exactly when its slot and its server number
agree on being this server's number, and the key to be stored is held. -/
theorem writeCorrect_iff (hs : s.Linked) (h : Header) (hcmd : h.cmd = ascii "SET")
    (value : Text) (hvalue : value.length = 8) (hmem : h.id ∈ s.ids)
    (ho : s.Owns h.id h.slot) :
    s.WriteCorrect h value ↔
      (h.id = s.serverId → h.slot = s.serverId ∧ s.Holds s.serverId h.key) ∧
        (h.id ≠ s.serverId → h.slot ≠ s.serverId) := by
  have hdec := h.decodes value hmem
  have hcmd' : cmdField (h.text ++ value) = ascii "SET" := by rw [h.cmdField_text, hcmd]
  have hlen : 18 ≤ (h.text ++ value).length := by
    rw [List.length_append, h.length_text]
    omega
  have htake : value.take 8 = value := List.take_of_length_le (by omega)
  by_cases hslot : h.slot = s.serverId
  · by_cases hkey : s.Holds s.serverId h.key
    · obtain ⟨t, hrun, hval⟩ := run_set_holds hs hdec ho hcmd' hslot hlen
        (by rwa [h.keyField_text])
      rw [h.keyField_text, h.valueField_text, htake] at hval
      simp [WriteCorrect, hrun, hslot, hkey, hval]
    · obtain ⟨u, t, hrun⟩ := run_set_not_holds hdec ho hcmd' hslot hlen
        (by rwa [h.keyField_text])
      simp [WriteCorrect, hrun, hslot, hkey]
  · have hrun := run_set_moved hdec ho hcmd' hslot
    simp [WriteCorrect, hrun, hslot, released]

def ownSlotHeader : Header :=
  ⟨ascii "01", ascii "00001", ascii "SET", ascii "key00000", by decide, by decide, by decide,
    by decide, by decide⟩

theorem writeCorrect_ownSlot :
    oneKeyServer.WriteCorrect ownSlotHeader (ascii "val00001") := by
  have ho : oneKeyServer.Owns ownSlotHeader.id ownSlotHeader.slot := owns_oneKeyServer
  exact (writeCorrect_iff linked_oneKeyServer ownSlotHeader rfl (ascii "val00001") (by decide)
    (by decide) ho).mpr ⟨fun _ ↦ ⟨by decide, holds_oneKeyServer⟩, fun h ↦ absurd (by decide) h⟩

def slotZeroHeader : Header :=
  ⟨ascii "01", ascii "00000", ascii "SET", ascii "key00000", by decide, by decide, by decide,
    by decide, by decide⟩

/-- Server 1 redirects a write for a slot it owns, because the slot is not
its own number. -/
theorem not_writeCorrect_slotZero :
    slotZeroServer.Linked ∧ slotZeroHeader.id ∈ slotZeroServer.ids ∧
      slotZeroServer.Owns slotZeroHeader.id slotZeroHeader.slot ∧
      ¬ slotZeroServer.WriteCorrect slotZeroHeader (ascii "val00000") := by
  have hmem : slotZeroHeader.id ∈ slotZeroServer.ids := by decide
  have hslot : slotZeroHeader.slot ≠ slotZeroServer.serverId := by decide
  have ho : slotZeroServer.Owns slotZeroHeader.id slotZeroHeader.slot := owns_slotZeroServer
  have hrun := run_set_moved (slotZeroHeader.decodes (ascii "val00000") hmem) ho
    (slotZeroHeader.cmdField_text _) hslot
  refine ⟨linked_slotZeroServer, hmem, ho, fun hwrite ↦ ?_⟩
  obtain ⟨t, ht, -⟩ := hwrite.1 (by decide)
  simp [hrun] at ht

end DbServer

end PpDSCache.Server
