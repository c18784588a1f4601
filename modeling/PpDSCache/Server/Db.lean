import PpDSCache.Cpp.Nodes
import PpDSCache.Cpp.Text
import PpDSCache.Slots

/-!
# The key-value store of one server

`lruList` holds the keys in recency order, `map` finds a key's value together
with the iterators of its cells in the two other containers, and `slotToKey`
lists the keys under their hash slot.
-/

namespace PpDSCache.Server

open Cpp

structure MapValue where
  listItor : Itor
  slotItor : Itor
  value : Text
  deriving DecidableEq

structure Db where
  slotsNum : ℤ
  slots : SlotSet
  maxSize : ℤ
  lruList : Nodes Text
  map : Text → Option MapValue
  slotToKey : Nodes (ℤ × Text)

namespace Db

/-- A store without keys or slots.  `map::operator[]` value-initialises a new
one with `maxSize` zero. -/
def empty (maxSize : ℤ) : Db := ⟨0, 0, maxSize, .empty, fun _ ↦ none, .empty⟩

instance : Inhabited Db := ⟨empty 0⟩

/-- `maxSize` is converted to the unsigned type of `size()`. -/
def isOverSize (d : Db) : Bool := d.maxSize % 2 ^ 64 ≤ (d.lruList.size : ℤ)

/-! ## Steps on the containers -/

def putLruList (l : Nodes Text) (d : Db) : Db := { d with lruList := l }

def lruErase (it : Itor) : Code Db Unit := Nodes.callErase lruList putLruList it

def lruPushFront (key : Text) : Code Db Itor := Nodes.callPushFront lruList putLruList key

def lruBack : Code Db Text := Nodes.callBack lruList

def lruPopBack : Code Db Unit := Nodes.callPopBack lruList putLruList

def slotErase (it : Itor) : Code Db Unit :=
  Nodes.callErase slotToKey (fun n d ↦ { d with slotToKey := n }) it

/-- The new cell has the largest name handed out so far. -/
def slotInsert (slot : ℤ) (key : Text) : Code Db Itor := do
  let id := (← get).slotToKey.fresh
  modify fun d ↦ { d with slotToKey := d.slotToKey.insertUpper Prod.fst (slot, key) }
  pure (.node id)

def mapPut (key : Text) (e : MapValue) : Code Db Unit :=
  modify fun d ↦ { d with map := Function.update d.map key (some e) }

def mapErase (key : Text) : Code Db Unit :=
  modify fun d ↦ { d with map := Function.update d.map key none }

/-- `map_[key]`, which creates an entry with singular iterators if there is
none. -/
def mapIndex (key : Text) : Code Db MapValue := do
  match (← get).map key with
  | some e => pure e
  | none =>
      mapPut key ⟨.singular, .singular, []⟩
      pure ⟨.singular, .singular, []⟩

/-- `itor->first` for the result of `find`: the past-the-end iterator must
not be dereferenced. -/
def keyOf (mapItor : Option (Text × MapValue)) : Code Db Text :=
  match mapItor with
  | none => Code.undefined .endDereference
  | some (key, _) => pure key

def find (d : Db) (key : Text) : Option (Text × MapValue) := (d.map key).map (key, ·)

/-! ## The operations on keys -/

def contain (key : Text) : Code Db Bool := do
  match (← get).find key with
  | none => pure false
  | some _ => pure true

/-- The value is the out-parameter of a call that returns true. -/
def getKV (key : Text) : Code Db (Option Text) := do
  match (← get).find key with
  | none => pure none
  | some (k, e) =>
      lruErase e.listItor
      let front ← lruPushFront k
      mapPut k { e with listItor := front }
      pure (some e.value)

def delKV (key : Text) : Code Db Bool := do
  match (← get).find key with
  | none => pure false
  | some (k, e) =>
      mapErase k
      lruErase e.listItor
      slotErase e.slotItor
      pure true

/-- The block of `setKV` that drops the key at the back of `lruList`. -/
def evictBack : Code Db Unit := do
  let victim ← mapIndex (← lruBack)
  mapErase (← lruBack)
  slotErase victim.slotItor
  lruPopBack

def setKV (key value : Text) (slot : ℤ) : Code Db Bool := do
  let mapItor := (← get).find key
  match mapItor with
  | some (k, e) =>
      mapPut k { e with value := value }
      lruErase e.listItor
      let front ← lruPushFront k
      mapPut k { e with listItor := front, value := value }
      pure true
  | none =>
      if (← get).isOverSize then
        evictBack
      -- the failed `find` left `mapItor` past the end
      let front ← lruPushFront (← keyOf mapItor)
      let itor ← slotInsert slot key
      mapPut key ⟨front, itor, value⟩
      pure true

inductive Call where
  | contain (key : Text)
  | getKV (key : Text)
  | setKV (key value : Text) (slot : ℤ)
  | delKV (key : Text)
  deriving DecidableEq

/-! ## The operations on slots -/

def getSlotsNum (d : Db) : ℤ := d.slotsNum

def setSlotNum (d : Db) : Db := { d with slotsNum := SLOTS_NUM }

def addSlots (newSlots : SlotSet) (d : Db) : Db := { d with slots := newSlots }

/-- The argument comes back as the exclusive or of old and new slots. -/
def delSlots (newSlots : SlotSet) (d : Db) : SlotSet × Db :=
  (d.slots ^^^ newSlots, { d with slots := newSlots })

/-- `bitset::test`, whose argument is converted to an unsigned position. -/
def testSlot (slot : ℤ) : Code Db Bool := do
  let pos := (slot % 2 ^ 64).toNat
  if pos < SLOTS_NUM then pure ((← get).slots.getLsbD pos) else Code.raise .outOfRange

end Db

end PpDSCache.Server
