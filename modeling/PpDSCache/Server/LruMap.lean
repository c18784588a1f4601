import PpDSCache.Cpp.IndexedNodes
import PpDSCache.Cpp.Text

/-!
# The map with recency order that the store grew out of

`lruList` holds the keys in recency order and `map` finds a key's value
together with the iterator of its cell.
-/

namespace PpDSCache.Server

open Cpp

structure LruEntry where
  listItor : Itor
  value : Text

structure LruMap where
  maxSize : ℤ
  lruList : Nodes Text
  map : Text → Option LruEntry

namespace LruMap

def empty (maxSize : ℤ) : LruMap := ⟨maxSize, .empty, fun _ ↦ none⟩

/-- `maxSize` is converted to the unsigned type of `size()`. -/
def isOverSize (l : LruMap) : Bool := l.maxSize % 2 ^ 64 ≤ (l.lruList.size : ℤ)

/-! ## Steps on the containers -/

/-- `map_.find`: the key of the entry, or the past-the-end iterator. -/
def find (key : Text) : Code LruMap (Option Text) := do
  pure ((← get).map key |>.map fun _ ↦ key)

/-- The entry an iterator of `map` designates.  The past-the-end iterator has
none, and erasing an entry leaves its iterators dangling. -/
def entry (mapItor : Option Text) : Code LruMap (Text × LruEntry) := do
  match mapItor with
  | none => Code.undefined .endDereference
  | some k =>
      match (← get).map k with
      | none => Code.undefined .danglingIterator
      | some e => pure (k, e)

def putLruList (l : Nodes Text) (m : LruMap) : LruMap := { m with lruList := l }

def lruErase (it : Itor) : Code LruMap Unit := Nodes.callErase lruList putLruList it

def lruPushFront (key : Text) : Code LruMap Itor := Nodes.callPushFront lruList putLruList key

def lruBack : Code LruMap Text := Nodes.callBack lruList

def lruPopBack : Code LruMap Unit := Nodes.callPopBack lruList putLruList

def mapPut (key : Text) (e : LruEntry) : Code LruMap Unit :=
  modify fun m ↦ { m with map := Function.update m.map key (some e) }

def mapErase (key : Text) : Code LruMap Unit :=
  modify fun m ↦ { m with map := Function.update m.map key none }

/-! ## The operations -/

/-- The block for a key that is to be modified in place. -/
def setInPlace (mapItor : Option Text) (value : Text) : Code LruMap Unit := do
  let (k, e) ← entry mapItor
  mapPut k { e with value := value }
  lruErase e.listItor
  let front ← lruPushFront k
  mapPut k { e with listItor := front, value := value }

/-- The block for a key that is to be added, with eviction at the back. -/
def setNew (mapItor : Option Text) (key value : Text) : Code LruMap Unit := do
  if (← get).isOverSize then
    mapErase (← lruBack)
    lruPopBack
  let (k, _) ← entry mapItor
  let front ← lruPushFront k
  mapPut key ⟨front, value⟩

def contain (key : Text) : Code LruMap Bool := do
  match ← find key with
  | none => pure false
  | some _ => pure true

/-- The value is the out-parameter of a call that returns true. -/
def get (key : Text) : Code LruMap (Option Text) := do
  match ← find key with
  | none => pure none
  | some k =>
      let (k, e) ← entry (some k)
      lruErase e.listItor
      let front ← lruPushFront k
      mapPut k { e with listItor := front }
      pure (some e.value)

def del (key : Text) : Code LruMap Bool := do
  match ← find key with
  | none => pure false
  | some k =>
      let (k, e) ← entry (some k)
      mapErase k
      lruErase e.listItor
      pure true

def set (key value : Text) : Code LruMap Bool := do
  let mapItor ← find key
  -- the comparison selects the first block when the key is absent
  if mapItor = none then
    setInPlace mapItor value
  else
    setNew mapItor key value
  pure true

end LruMap

end PpDSCache.Server
