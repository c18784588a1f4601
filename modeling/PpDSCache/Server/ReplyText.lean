import PpDSCache.Server.RequestOutcomes

/-!
# Telling values from status texts

Values and status texts share the reply.  A stored value has at most eight
bytes, since it was cut from a message, and the texts a read can be refused
with are longer; so a client can tell them apart after any number of
requests.
-/

namespace PpDSCache.Server.DbServer

open Cpp

def Vacant (s : DbServer) : Prop := ∀ id d, s.idToDb id = some d → ∀ k, d.map k = none

def ShortValues (s : DbServer) : Prop :=
  ∀ id d k e, s.idToDb id = some d → d.map k = some e → e.value.length ≤ 8

/-- A sequence of requests, each of which returns. -/
inductive Serves : DbServer → List Text → DbServer → Prop
  | nil (s : DbServer) : Serves s [] s
  | cons {s u t : DbServer} {mes : Text} {rest : List Text} {reply : Reply}
      (hrun : (handleClientRequest mes).run s = .ok reply u) (hrest : Serves u rest t) :
      Serves s (mes :: rest) t

variable {s t : DbServer} {mes : Text}

theorem Vacant.shortValues (hs : s.Vacant) : s.ShortValues := by
  intro id d k e hd he
  simp [hs id d hd k] at he

theorem ShortValues.update (hs : s.ShortValues) (id : ℤ) {d : Db}
    (hd : ∀ k e, d.map k = some e → e.value.length ≤ 8)
    (ht : t.idToDb = Function.update s.idToDb id (some d)) : t.ShortValues := by
  intro j g k e hg he
  rw [ht] at hg
  by_cases hj : j = id
  · subst hj
    have heq : d = g := by simpa using hg
    exact hd k e (heq ▸ he)
  · exact hs j g k e (by simpa [hj] using hg) he

theorem ShortValues.opened (hs : s.ShortValues) (id : ℤ) : (s.opened id).ShortValues := by
  refine hs.update id (fun k e he ↦ ?_) rfl
  cases hd : s.idToDb id with
  | none => simp [hd, default, Db.empty] at he
  | some d => exact hs id d k e hd (by simpa [hd] using he)

theorem value_length_moveToFront {d : Db} {key : Text} {e : MapValue}
    (hd : ∀ k g, d.map k = some g → g.value.length ≤ 8) (he : e.value.length ≤ 8) (k : Text)
    (g : MapValue) (hg : (d.moveToFront key e).map k = some g) : g.value.length ≤ 8 := by
  by_cases hk : k = key
  · simp only [Db.moveToFront, hk, Function.update_self, Option.some.injEq] at hg
    simpa [← hg] using he
  · exact hd k g (by simpa [Db.moveToFront, hk] using hg)

theorem length_valueField_le (mes : Text) : (valueField mes).length ≤ 8 := List.length_take_le _ _

theorem ShortValues.run (hs : s.ShortValues) {reply : Reply}
    (hrun : (handleClientRequest mes).run s = .ok reply t) : t.ShortValues := by
  have hout := outcome s mes
  rw [hrun] at hout
  cases hout with
  | unknownId id _ _ => exact hs
  | wrongSlot id slot _ _ _ => exact hs.opened id
  | getHit id slot _ _ _ d hd e hkey =>
      exact hs.update id (value_length_moveToFront (fun k g ↦ hs id d k g hd)
        (hs id d _ e hd hkey)) rfl
  | getMiss id slot _ _ _ d hd _ => exact hs.update id (fun k g ↦ hs id d k g hd) rfl
  | delHit id slot _ _ _ d hd e _ =>
      refine hs.update id (fun k g hg ↦ ?_) rfl
      by_cases hk : k = keyField mes
      · simp [Db.remove, hk] at hg
      · exact hs id d k g hd (by simpa [Db.remove, hk] using hg)
  | delMiss id slot _ _ _ d hd _ => exact hs.update id (fun k g ↦ hs id d k g hd) rfl
  | moved id slot _ _ _ _ => exact hs
  | setHit id slot _ _ _ _ _ d hd e _ =>
      exact hs.update s.serverId (value_length_moveToFront (fun k g ↦ hs _ d k g hd)
        (length_valueField_le mes)) rfl

theorem Serves.preserves {msgs : List Text} (h : Serves s msgs t)
    (hs : s.Linked ∧ s.ShortValues) : t.Linked ∧ t.ShortValues := by
  induction h with
  | nil s => exact hs
  | cons hrun _ ih => exact ih ⟨hs.1.run (by rw [hrun]; rfl), hs.2.run hrun⟩

/-! ## Replies to a read -/

/-- The reply to a read says what it means: each status text appears in its
own case only, and otherwise the reply is the stored value. -/
def GetReplies (s : DbServer) (h : Header) (rest : Text) : Prop :=
  ∃ reply t, (handleClientRequest (h.text ++ rest)).run s = .ok reply t ∧
    (reply.text = ascii "WrongServerId" ↔ h.id ∉ s.ids) ∧
    (reply.text = ascii "WrongSlot" ↔ h.id ∈ s.ids ∧ ¬ s.Owns h.id h.slot) ∧
    (reply.text = ascii "GETKeyNotFound" ↔
      h.id ∈ s.ids ∧ s.Owns h.id h.slot ∧ ¬ s.Holds h.id h.key) ∧
    (h.id ∈ s.ids → s.Owns h.id h.slot → s.Holds h.id h.key →
      s.valueAt h.id h.key = some reply.text)

theorem ne_status_of_length_le {v : Text} (hv : v.length ≤ 8) :
    v ≠ ascii "WrongServerId" ∧ v ≠ ascii "WrongSlot" ∧ v ≠ ascii "GETKeyNotFound" := by
  have h₁ : (ascii "WrongServerId").length = 13 := by decide
  have h₂ : (ascii "WrongSlot").length = 9 := by decide
  have h₃ : (ascii "GETKeyNotFound").length = 14 := by decide
  refine ⟨?_, ?_, ?_⟩ <;> rintro rfl <;> omega

theorem getReplies (hs : s.Linked) (hshort : s.ShortValues) (h : Header)
    (hcmd : h.cmd = ascii "GET") (rest : Text) : s.GetReplies h rest := by
  have hcmd' : cmdField (h.text ++ rest) = ascii "GET" := by rw [h.cmdField_text, hcmd]
  have hidSlot : ascii "WrongServerId" ≠ ascii "WrongSlot" := by decide
  have hidKey : ascii "WrongServerId" ≠ ascii "GETKeyNotFound" := by decide
  have hslotKey : ascii "WrongSlot" ≠ ascii "GETKeyNotFound" := by decide
  by_cases hmem : h.id ∈ s.ids
  · have hdec := h.decodes rest hmem
    by_cases ho : s.Owns h.id h.slot
    · have ⟨d, hd, _⟩ := ho
      have hrun := run_get hdec ho hcmd' hd
      rw [h.keyField_text] at hrun
      cases hkey : d.map h.key with
      | none =>
          rw [Db.getKV_miss hkey] at hrun
          have hno : ¬ s.Holds h.id h.key := by
            rintro ⟨d', hd', hsome⟩
            obtain rfl : d = d' := Option.some.inj (hd.symm.trans hd')
            simp [hkey] at hsome
          refine ⟨_, _, hrun, ?_, ?_, ?_, fun _ _ hk ↦ absurd hk hno⟩
          · simp [Reply.text, hmem, hidKey.symm]
          · simp [Reply.text, ho, hslotKey.symm]
          · simp [Reply.text, hmem, ho, hno]
      | some e =>
          rw [Db.getKV_hit (hs h.id d hd) hkey] at hrun
          have hholds : s.Holds h.id h.key := ⟨d, hd, by simp [hkey]⟩
          obtain ⟨h₁, h₂, h₃⟩ := ne_status_of_length_le (hshort h.id d h.key e hd hkey)
          refine ⟨_, _, hrun, ?_, ?_, ?_, fun _ _ _ ↦ ?_⟩
          · simp [Reply.text, hmem, h₁]
          · simp [Reply.text, ho, h₂]
          · simp [Reply.text, hholds, h₃]
          · simp [valueAt, hd, hkey, Reply.text]
    · refine ⟨_, _, run_of_not_owns hdec h.slot_range ho, ?_, ?_, ?_, fun _ h' ↦ absurd h' ho⟩
      · simp [Reply.text, hmem, hidSlot.symm]
      · simp [Reply.text, hmem, ho]
      · simp [Reply.text, ho, hslotKey]
  · refine ⟨_, _, run_of_unknownId (h.strtol_idField rest) hmem, ?_, ?_, ?_,
      fun h' ↦ absurd h' hmem⟩
    · simp [Reply.text, hmem]
    · simp [Reply.text, hmem, hidSlot]
    · simp [Reply.text, hmem, hidKey]

/-- Short values hold of vacant stores and survive every request that
returns; so after any sequence of requests the reply to a read is the status
text of its case or the stored value, and never ambiguous. -/
theorem get_reply_unambiguous :
    (∀ s : DbServer, s.Vacant → s.ShortValues) ∧
    (∀ (s t : DbServer) (mes : Text) (reply : Reply), s.ShortValues →
      (handleClientRequest mes).run s = .ok reply t → t.ShortValues) ∧
    ∀ (s t : DbServer) (msgs : List Text) (h : Header) (rest : Text), s.Linked →
      s.ShortValues → Serves s msgs t → h.cmd = ascii "GET" → t.GetReplies h rest := by
  refine ⟨fun _ hs ↦ hs.shortValues, fun _ _ _ _ hs hrun ↦ hs.run hrun, ?_⟩
  intro s t msgs h rest hs hshort hserves hcmd
  obtain ⟨ht, htshort⟩ := hserves.preserves ⟨hs, hshort⟩
  exact getReplies ht htshort h hcmd rest

def readHeader : Header := { ownSlotHeader with cmd := ascii "GET", cmd_length := rfl }

theorem vacant_slotZeroServer : slotZeroServer.Vacant := by
  intro id d hd k
  by_cases hid : id = 1
  · obtain rfl : { Db.empty 1 with slots := 1 } = d := by
      simpa [slotZeroServer, sole, hid] using hd
    rfl
  · simp [slotZeroServer, sole, hid] at hd

theorem shortValues_oneKeyServer : oneKeyServer.ShortValues := by
  intro id d k e hd he
  by_cases hid : id = 1
  · subst hid
    obtain rfl := Option.some.inj hd
    by_cases hk : k = ascii "key00000"
    · subst hk
      obtain rfl := Option.some.inj he
      exact (by decide : (ascii "val00000").length ≤ 8)
    · simp [Db.single, hk] at he
  · simp [oneKeyServer, sole, hid] at hd

/-- A value is written and read. -/
theorem get_reply_unambiguous_oneKeyServer :
    slotZeroServer.ShortValues ∧ ∃ t u reply,
      Serves oneKeyServer [ascii "0100001SETkey00000val00001"] t ∧ t.ShortValues ∧
        (handleClientRequest (readHeader.text ++ [])).run t = .ok reply u ∧
        reply.text = ascii "val00001" := by
  have hdec : oneKeyServer.Decodes (ascii "0100001SETkey00000val00001") 1 1 :=
    ⟨by decide, by decide, by decide, by decide⟩
  have hrun := run_set hdec owns_oneKeyServer (by decide) rfl (by decide)
  have hheld : (Db.single 1 2 (ascii "key00000") (ascii "val00000") 1).map
      (keyField (ascii "0100001SETkey00000val00001")) =
        some ⟨.node 0, .node 0, ascii "val00000"⟩ := rfl
  have hd : oneKeyServer.idToDb oneKeyServer.serverId =
      some (Db.single 1 2 (ascii "key00000") (ascii "val00000") 1) := rfl
  rw [hd, Option.getD_some, Db.setKV_hit (Db.linked_single ..) hheld] at hrun
  have hserves := Serves.cons hrun (.nil _)
  have hshort := get_reply_unambiguous.2.1 _ _ _ _ shortValues_oneKeyServer hrun
  obtain ⟨reply, u, hread, -, -, -, hvalue⟩ := get_reply_unambiguous.2.2 _ _ _ readHeader []
    linked_oneKeyServer shortValues_oneKeyServer hserves rfl
  refine ⟨get_reply_unambiguous.1 _ vacant_slotZeroServer, _, u, reply, hserves, hshort, hread, ?_⟩
  obtain ⟨d, hd', hslot⟩ := owns_oneKeyServer
  obtain rfl := Option.some.inj (hd.symm.trans hd')
  exact (Option.some.inj (hvalue (by decide) ⟨_, rfl, hslot⟩ ⟨_, rfl, rfl⟩)).symm

end PpDSCache.Server.DbServer
