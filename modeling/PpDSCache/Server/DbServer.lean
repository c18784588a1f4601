import PpDSCache.Server.Db

/-!
# The request handler of a server

A message carries the server number in two bytes, the slot in five, the
command in three, the key in eight and, for a write, the value in eight.
Everything after the header is decoded runs under `dbmtx`.
-/

namespace PpDSCache.Server

open Cpp

/-- `trace` is a history variable: the calls made on the stores, with the
server number whose store received them. -/
structure DbServer where
  serverId : ℤ
  ids : List ℤ
  idToDb : ℤ → Option Db
  dbmtx : Bool
  trace : List (ℤ × Db.Call)

/-- One constructor for each return statement of the handler. -/
inductive Reply where
  | wrongServerId
  | wrongSlot
  | value (v : Text)
  | getKeyNotFound
  | delDown
  | delKeyNotFound
  | moved
  | setDone
  deriving DecidableEq

def Reply.text : Reply → Text
  | wrongServerId => ascii "WrongServerId"
  | wrongSlot => ascii "WrongSlot"
  | value v => v
  | getKeyNotFound => ascii "GETKeyNotFound"
  | delDown => ascii "DELDown"
  | delKeyNotFound => ascii "DELKeyNotFound"
  | moved => ascii "Moved"
  | setDone => ascii "SETDONE"

namespace DbServer

/-- `idToDb_[id].f()`: the subscript creates a missing store. -/
def onDb {α : Type} (id : ℤ) (c : Code Db α) : Code DbServer α :=
  Code.zoom (fun s ↦ (s.idToDb id).getD default)
    (fun d s ↦ { s with idToDb := Function.update s.idToDb id (some d) }) c

def record (id : ℤ) (call : Db.Call) : Code DbServer Unit :=
  modify fun s ↦ { s with trace := s.trace ++ [(id, call)] }

/-- `lock_guard`: `lock()` returns once the mutex is free, and the destructor
releases it. -/
def lockGuard {α : Type} (body : Code DbServer α) : Code DbServer α :=
  Code.guarded (fun s ↦ { s with dbmtx := true }) (fun s ↦ { s with dbmtx := false }) body

def isRightId (s : DbServer) (id : ℤ) : Bool := s.ids.any fun itor ↦ id == itor

def isRightSlot (id slot : ℤ) : Code DbServer Bool := onDb id (Db.testSlot slot)

def isThisServer (s : DbServer) (id : ℤ) : Bool := id == s.serverId

/-- The command dispatch behind the slot check.  No reply means that control
leaves the locked block without a return statement. -/
def command (mes : Text) (id slot : ℤ) (cmd key : Text) : Code DbServer (Option Reply) := do
  if cmd = ascii "GET" then
    record id (.getKV key)
    match ← onDb id (Db.getKV key) with
    | some value => pure (some (.value value))
    | none => pure (some .getKeyNotFound)
  else if cmd = ascii "DEL" then
    record id (.delKV key)
    if ← onDb id (Db.delKV key) then
      pure (some .delDown)
    else
      pure (some .delKeyNotFound)
  else if cmd = ascii "SET" then
    -- the argument is the slot, not the server number
    if !(← get).isThisServer slot then
      pure (some .moved)
    else
      let value ← Text.substr mes 18 8
      let serverId := (← get).serverId
      record serverId (.setKV key value slot)
      let _ ← onDb serverId (Db.setKV key value slot)
      pure (some .setDone)
  else
    pure none

def lockedBlock (mes : Text) (id slot : ℤ) (cmd key : Text) : Code DbServer (Option Reply) := do
  if !(← isRightSlot id slot) then
    pure (some .wrongSlot)
  else
    command mes id slot cmd key

def handleClientRequest (mes : Text) : Code DbServer Reply := do
  let idStr ← Text.substr mes 0 2
  let id ← Text.stoi idStr
  if !(← get).isRightId id then
    pure .wrongServerId
  else
    let slotStr ← Text.substr mes 2 5
    let cmd ← Text.substr mes 7 3
    let key ← Text.substr mes 10 8
    let slot ← Text.stoi slotStr
    match ← lockGuard (lockedBlock mes id slot cmd key) with
    | some reply => pure reply
    | none => Code.undefined .missingReturn

end DbServer

end PpDSCache.Server
