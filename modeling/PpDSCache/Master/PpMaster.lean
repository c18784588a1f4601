import PpDSCache.Cpp.Arith
import PpDSCache.Cpp.Text
import PpDSCache.Slots

/-!
# The master: addresses, slot sets and routing

The master keeps the address and the slot set of each server, and for each
slot the number of the server it routes to.
-/

namespace PpDSCache.Master

open Cpp

/-! ## Socket addresses -/

/-- The overlay of `sockaddr_in` and `sockaddr_in6`, with the port in host
order and the addresses as the bytes in memory. -/
structure InetAddress where
  sinFamily : ℕ
  sinPort : UInt16
  sinAddr : Fin 4 → UInt8
  sin6Addr : Fin 16 → UInt8

namespace InetAddress

def AF_INET : ℕ := 2

def AF_INET6 : ℕ := 10

instance : Inhabited InetAddress := ⟨⟨AF_INET, 0, fun _ ↦ 0, fun _ ↦ 0⟩⟩

variable (inetNtop6 : (Fin 16 → UInt8) → Text)

/-- The library prints an IPv4 address with dots; how it prints an IPv6
address is left open. -/
def toIp (a : InetAddress) : Text :=
  if a.sinFamily = AF_INET then
    decimalText (a.sinAddr 0).toNat ++ ascii "." ++ decimalText (a.sinAddr 1).toNat ++
      ascii "." ++ decimalText (a.sinAddr 2).toNat ++ ascii "." ++
      decimalText (a.sinAddr 3).toNat
  else if a.sinFamily = AF_INET6 then
    inetNtop6 a.sin6Addr
  else []

/-- `snprintf` cuts the port at the end of the 64-byte buffer. -/
def toIpPort (a : InetAddress) : Text :=
  let ip := a.toIp inetNtop6
  ip ++ (ascii ":" ++ decimalText a.sinPort.toNat).take (63 - ip.length)

end InetAddress

/-! ## The master -/

/-- `readers` counts the shared holders of `RWmutex_`. -/
structure PpMaster where
  idToAddr : ℤ → Option InetAddress
  idToSlots : ℤ → Option SlotSet
  slotsToId : List ℤ
  readers : ℕ

namespace PpMaster

/-- `slotsToId_[slot]`; the index is converted to an unsigned type. -/
def slotsToIdAt (slot : ℤ) : Code PpMaster ℤ := do
  match (← get).slotsToId[(slot % 2 ^ 64).toNat]? with
  | none => Code.undefined .vectorIndex
  | some id => pure id

/-- `idToAddr_[id]`, which creates a missing entry. -/
def idToAddrAt (id : ℤ) : Code PpMaster InetAddress := do
  match (← get).idToAddr id with
  | some addr => pure addr
  | none =>
      modify fun m ↦ { m with idToAddr := Function.update m.idToAddr id (some default) }
      pure default

def idToSlotsAt (id : ℤ) : Code PpMaster SlotSet := do
  match (← get).idToSlots id with
  | some slots => pure slots
  | none =>
      modify fun m ↦ { m with idToSlots := Function.update m.idToSlots id (some 0) }
      pure 0

def setSlots (id : ℤ) (slots : SlotSet) : Code PpMaster Unit :=
  modify fun m ↦ { m with idToSlots := Function.update m.idToSlots id (some slots) }

def handleClientRequest (inetNtop6 : (Fin 16 → UInt8) → Text) (mes : Text) :
    Code PpMaster Text := do
  let slotStr ← Text.substr mes 0 5
  let slot ← Text.stoi slotStr
  modify fun m ↦ { m with readers := m.readers + 1 }
  let id ← slotsToIdAt slot
  let ipPort := (← idToAddrAt id).toIpPort inetNtop6
  modify fun m ↦ { m with readers := m.readers - 1 }
  pure ipPort

/-- `((1 << (end - start)) - 1) << start` as a bitset. -/
def rangeMask (start stop : ℤ) : Code PpMaster SlotSet := do
  let ones ← subInt (← shlInt 1 (← subInt stop start)) 1
  let mask ← shlInt ones start
  pure (Bitset.ofUllong SLOTS_NUM (toUllong mask))

def rangeSetSlots (serverId start stop : ℤ) : Code PpMaster Unit := do
  let mask ← rangeMask start stop
  let slots ← idToSlotsAt serverId
  setSlots serverId (slots ||| mask)

/-- The inner loop of `resetSlots`: the positions of the set bits of a block,
until `n` slots are counted.  A block has at most 64 of them. -/
def collect (base : ℕ) (n : ℤ) : ℕ → BitVec 64 → ℤ → List ℕ × ℤ
  | 0, _, count => ([], count)
  | fuel + 1, block, count =>
      if block = 0 then ([], count)
      else
        let pos := base + ctzll block
        if count + 1 = n then ([pos], count + 1)
        else
          let (rest, total) := collect base n fuel (block &&& (block - 1)) (count + 1)
          (pos :: rest, total)

def markPositions : List ℕ → SlotSet → BitVec 64 → Code PpMaster (SlotSet × BitVec 64)
  | [], ret, mask => pure (ret, mask)
  | pos :: rest, ret, mask => do
      let ret ← Bitset.set ret pos
      let bit ← shlUllong 1 pos
      markPositions rest ret (mask &&& ~~~bit)

def resetBlocks (serverId n : ℤ) : List ℕ → SlotSet → ℤ → Code PpMaster SlotSet
  | [], ret, _ => pure ret
  | i :: rest, ret, count =>
      if count < n then do
        let word ← Bitset.toUllong (← idToSlotsAt serverId)
        let block ← shrUllong word (i * 64)
        let mask := (← shlUllong 1 64) - 1
        let (positions, total) := collect (i * 64) n 64 block count
        let (ret, mask) ← markPositions positions ret mask
        let shifted ← shlUllong mask (i * 64)
        let slots ← idToSlotsAt serverId
        setSlots serverId (slots &&& Bitset.ofUllong SLOTS_NUM (~~~shifted))
        resetBlocks serverId n rest ret total
      else pure ret

def resetSlots (serverId n : ℤ) : Code PpMaster SlotSet :=
  resetBlocks serverId n (List.range 256) 0 0

end PpMaster

end PpDSCache.Master
