import PpDSCache.Server.DbServerRuns

/-!
# The fixed-width message format

The header of a message has two digits for the server, five for a slot below
`SLOTS_NUM`, a command and a key.  The handler reads back exactly these
fields, whatever follows them.
-/

namespace PpDSCache.Server

open Cpp

structure Header where
  idStr : Text
  slotStr : Text
  cmd : Text
  key : Text
  id_numeral : Text.IsNumeral 2 idStr
  slot_numeral : Text.IsNumeral 5 slotStr
  slot_lt : Text.decimal slotStr < SLOTS_NUM
  cmd_length : cmd.length = 3
  key_length : key.length = 8

namespace Header

def text (h : Header) : Text := h.idStr ++ h.slotStr ++ h.cmd ++ h.key

def id (h : Header) : ℤ := Text.decimal h.idStr

def slot (h : Header) : ℤ := Text.decimal h.slotStr

theorem slot_range (h : Header) : 0 ≤ h.slot ∧ h.slot < SLOTS_NUM := by
  have hlt := h.slot_lt
  simp only [slot, SLOTS_NUM] at hlt ⊢
  omega

@[simp] theorem length_text (h : Header) : h.text.length = 18 := by
  simp [text, h.id_numeral.1, h.slot_numeral.1, h.cmd_length, h.key_length]

theorem take_two (h : Header) (rest : Text) : (h.text ++ rest).take 2 = h.idStr := by
  rw [text, List.append_assoc, List.append_assoc, List.append_assoc, ← h.id_numeral.1,
    List.take_left]

theorem drop_two (h : Header) (rest : Text) :
    (h.text ++ rest).drop 2 = h.slotStr ++ (h.cmd ++ (h.key ++ rest)) := by
  rw [text, List.append_assoc, List.append_assoc, List.append_assoc, ← h.id_numeral.1,
    List.drop_left]

theorem drop_seven (h : Header) (rest : Text) :
    (h.text ++ rest).drop 7 = h.cmd ++ (h.key ++ rest) := by
  rw [show 7 = 2 + 5 from rfl, ← List.drop_drop, h.drop_two, ← h.slot_numeral.1, List.drop_left]

theorem drop_ten (h : Header) (rest : Text) : (h.text ++ rest).drop 10 = h.key ++ rest := by
  rw [show 10 = 7 + 3 from rfl, ← List.drop_drop, h.drop_seven, ← h.cmd_length, List.drop_left]

theorem slotField (h : Header) (rest : Text) :
    ((h.text ++ rest).drop 2).take 5 = h.slotStr := by
  rw [h.drop_two, ← h.slot_numeral.1, List.take_left]

@[simp] theorem cmdField_text (h : Header) (rest : Text) :
    cmdField (h.text ++ rest) = h.cmd := by
  rw [cmdField, h.drop_seven, ← h.cmd_length, List.take_left]

@[simp] theorem keyField_text (h : Header) (rest : Text) :
    keyField (h.text ++ rest) = h.key := by
  rw [keyField, h.drop_ten, ← h.key_length, List.take_left]

@[simp] theorem valueField_text (h : Header) (rest : Text) :
    valueField (h.text ++ rest) = rest.take 8 := by
  rw [valueField, ← h.length_text, List.drop_left]

theorem strtol_idField (h : Header) (rest : Text) :
    Text.strtol ((h.text ++ rest).take 2) = some h.id := by
  rw [h.take_two]
  exact Text.strtol_numeral (by norm_num) (by norm_num) h.id_numeral

/-- The handler decodes a well-formed header to the numbers it spells. -/
theorem decodes (h : Header) (rest : Text) {s : DbServer} (hmem : h.id ∈ s.ids) :
    s.Decodes (h.text ++ rest) h.id h.slot where
  id_field := h.strtol_idField rest
  mem_ids := hmem
  length := by
    rw [List.length_append, h.length_text]
    omega
  slot_field := by
    rw [h.slotField]
    exact Text.strtol_numeral (by norm_num) (by norm_num) h.slot_numeral

end Header

theorem DbServer.Decodes.unique {s : DbServer} {mes : Text} {id slot id' slot' : ℤ}
    (h : s.Decodes mes id slot) (h' : s.Decodes mes id' slot') : id = id' ∧ slot = slot' :=
  ⟨Option.some.inj (h.id_field.symm.trans h'.id_field),
    Option.some.inj (h.slot_field.symm.trans h'.slot_field)⟩

end PpDSCache.Server
