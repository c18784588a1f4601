import PpDSCache.Server.RequestOutcomes

/-!
# The messages that reach a store

The handler does not check the shape of a message: the number fields are
whatever `stoi` makes of two and five bytes, and the key and the value end
where the message ends.
-/

namespace PpDSCache.Server.DbServer

open Cpp

/-- A call on a store carries the fields of the message it answers. -/
def CallMatches (s : DbServer) (mes : Text) (id slot : ℤ) : ℤ × Db.Call → Prop
  | (store, .getKV key) => store = id ∧ cmdField mes = ascii "GET" ∧ key = keyField mes
  | (store, .delKV key) => store = id ∧ cmdField mes = ascii "DEL" ∧ key = keyField mes
  | (store, .setKV key value slot') => store = s.serverId ∧ cmdField mes = ascii "SET" ∧
      18 ≤ mes.length ∧ key = keyField mes ∧ value = valueField mes ∧ slot' = slot
  | (_, .contain _) => False

variable {s : DbServer} {mes : Text}

theorem callMatches_getKV (hcmd : cmdField mes = ascii "GET") (id slot : ℤ) :
    s.CallMatches mes id slot (id, .getKV (keyField mes)) := ⟨rfl, hcmd, rfl⟩

theorem callMatches_delKV (hcmd : cmdField mes = ascii "DEL") (id slot : ℤ) :
    s.CallMatches mes id slot (id, .delKV (keyField mes)) := ⟨rfl, hcmd, rfl⟩

theorem callMatches_setKV (hcmd : cmdField mes = ascii "SET") (hlen : 18 ≤ mes.length)
    (id slot : ℤ) :
    s.CallMatches mes id slot (s.serverId, .setKV (keyField mes) (valueField mes) slot) :=
  ⟨rfl, hcmd, hlen, rfl, rfl, rfl⟩

theorem opened_of_some {id j : ℤ} {d : Db} (hd : s.idToDb j = some d) :
    (s.opened id).released.idToDb j = some d := by
  change Function.update s.idToDb id (some ((s.idToDb id).getD default)) j = some d
  by_cases hj : j = id
  · subst hj
    simp [hd]
  · simp [hj, hd]

/-- A request makes at most one call on a store.  If it makes one, the header
decodes to a known server and a slot of its store, and the call carries the
fields of the message; if it makes none, every store stays as it is. -/
theorem call_matches_or_stores_kept (s : DbServer) (mes : Text) :
    (∃ id slot call, s.Decodes mes id slot ∧ s.Owns id slot ∧ s.CallMatches mes id slot call ∧
      (Code.lastState ((handleClientRequest mes).run s)).trace = s.trace ++ [call]) ∨
    (Code.lastState ((handleClientRequest mes).run s)).trace = s.trace ∧
      ∀ id d, s.idToDb id = some d →
        (Code.lastState ((handleClientRequest mes).run s)).idToDb id = some d := by
  have hout := outcome s mes
  generalize (handleClientRequest mes).run s = r at hout
  cases hout with
  | malformed e _ => exact .inr ⟨rfl, fun _ _ hd ↦ hd⟩
  | unknownId id _ _ => exact .inr ⟨rfl, fun _ _ hd ↦ hd⟩
  | badSlot id slot _ _ => exact .inr ⟨rfl, fun _ _ hd ↦ opened_of_some hd⟩
  | wrongSlot id slot _ _ _ => exact .inr ⟨rfl, fun _ _ hd ↦ opened_of_some hd⟩
  | moved id slot _ _ _ _ => exact .inr ⟨rfl, fun _ _ hd ↦ hd⟩
  | setShort id slot _ _ _ _ _ => exact .inr ⟨rfl, fun _ _ hd ↦ hd⟩
  | unknownCommand id slot _ _ _ _ _ => exact .inr ⟨rfl, fun _ _ hd ↦ hd⟩
  | getHit id slot h ho hcmd =>
      exact .inl ⟨id, slot, _, h, ho, callMatches_getKV hcmd id slot, rfl⟩
  | getMiss id slot h ho hcmd =>
      exact .inl ⟨id, slot, _, h, ho, callMatches_getKV hcmd id slot, rfl⟩
  | getStale id slot h ho hcmd =>
      exact .inl ⟨id, slot, _, h, ho, callMatches_getKV hcmd id slot, rfl⟩
  | delHit id slot h ho hcmd =>
      exact .inl ⟨id, slot, _, h, ho, callMatches_delKV hcmd id slot, rfl⟩
  | delMiss id slot h ho hcmd =>
      exact .inl ⟨id, slot, _, h, ho, callMatches_delKV hcmd id slot, rfl⟩
  | delStale id slot h ho hcmd =>
      exact .inl ⟨id, slot, _, h, ho, callMatches_delKV hcmd id slot, rfl⟩
  | setHit id slot h ho hcmd _ hlen =>
      exact .inl ⟨id, slot, _, h, ho, callMatches_setKV hcmd hlen id slot, rfl⟩
  | setMiss id slot h ho hcmd _ hlen =>
      exact .inl ⟨id, slot, _, h, ho, callMatches_setKV hcmd hlen id slot, rfl⟩
  | setStale id slot h ho hcmd _ hlen =>
      exact .inl ⟨id, slot, _, h, ho, callMatches_setKV hcmd hlen id slot, rfl⟩

/-- Server number and slot padded and signed, the key cut short: the store is
read all the same. -/
theorem getKV_of_malformed_message :
    (Code.lastState ((handleClientRequest (ascii " 1+0000GETk")).run slotZeroServer)).trace =
        [(1, .getKV (ascii "k"))] ∧
      ∀ (h : Header) (rest : Text), ascii " 1+0000GETk" ≠ h.text ++ rest := by
  constructor
  · have hdec : slotZeroServer.Decodes (ascii " 1+0000GETk") 1 0 :=
      ⟨by decide, by simp [slotZeroServer, sole], by decide, by decide⟩
    have hd : slotZeroServer.idToDb 1 = some { Db.empty 1 with slots := 1 } := by
      simp [slotZeroServer, sole]
    rw [run_get hdec owns_slotZeroServer (by decide) hd, Db.getKV_miss rfl]
    rfl
  · intro h rest heq
    have hid : h.idStr = (ascii " 1+0000GETk").take 2 := by rw [heq, h.take_two]
    have hnum := h.id_numeral
    rw [hid] at hnum
    exact absurd hnum (by decide)

end PpDSCache.Server.DbServer
