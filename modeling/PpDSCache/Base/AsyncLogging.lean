import PpDSCache.Abstract.Runs
import PpDSCache.Cpp.Text

/-!
# Asynchronous logging

Producers append lines to a buffer; a back-end thread takes the full buffers
and writes them.  A critical section is one step, and so is each part of the
back end's cycle between two accesses to what others see.  A failed assertion
or a null pointer has no result.
-/

namespace PpDSCache.Base

open Cpp Abstract

/-- `FixedBuffer<kLargeBuffer>` with the pieces that were appended to it. -/
structure LogBuffer where
  pieces : List Text

namespace LogBuffer

abbrev kLargeBuffer : ℕ := 4000 * 1000

def new : LogBuffer := ⟨[]⟩

def data (b : LogBuffer) : Text := b.pieces.flatten

def length (b : LogBuffer) : ℕ := b.data.length

def avail (b : LogBuffer) : ℕ := kLargeBuffer - b.length

def append (buf : Text) (b : LogBuffer) : LogBuffer :=
  if buf.length < b.avail then ⟨b.pieces ++ [buf]⟩ else b

end LogBuffer

/-- What is passed to `LogFile::append`: a notice with the number it gives, or
the data of a buffer. -/
inductive Logged where
  | notice (larger : ℕ)
  | buffer (b : LogBuffer)

/-- Where the back end is. -/
inductive BackEnd where
  | notStarted
  | created
  /-- at the test of `running_` -/
  | loopTest
  | beforeLock
  | waiting
  /-- past its critical section -/
  | swapped
  /-- with this many buffers of the batch written -/
  | writing (k : ℕ)
  | exited
  deriving DecidableEq

structure AsyncLogging where
  running : Bool
  currentBuffer : Option LogBuffer
  nextBuffer : Option LogBuffer
  buffers : List LogBuffer
  -- of the back end
  newBuffer1 : Option LogBuffer
  newBuffer2 : Option LogBuffer
  buffersToWrite : List LogBuffer
  place : BackEnd
  output : List Logged
  /-- every batch that the back end began to write, as it was taken -/
  taken : List (List LogBuffer)

inductive LogAct where
  | append (logline : Text)
  | start
  | stop
  -- the back end
  | enter
  | test
  | lock
  /-- notified, timed out or woken for no reason -/
  | wake
  | trim
  | write
  | refill

namespace AsyncLogging

def new : AsyncLogging where
  running := false
  currentBuffer := some .new
  nextBuffer := some .new
  buffers := []
  newBuffer1 := none
  newBuffer2 := none
  buffersToWrite := []
  place := .notStarted
  output := []
  taken := []

/-! ## Producers -/

def append (logline : Text) (s : AsyncLogging) : Option AsyncLogging :=
  s.currentBuffer.map fun current ↦
    if logline.length < current.avail then
      { s with currentBuffer := some (current.append logline) }
    else
      { s with
        buffers := s.buffers ++ [current]
        currentBuffer := some ((s.nextBuffer.getD .new).append logline)
        nextBuffer := none }

/-! ## The back end -/

def enter (s : AsyncLogging) : Option AsyncLogging :=
  if s.running = true then
    some { s with newBuffer1 := some .new, newBuffer2 := some .new, place := .loopTest }
  else none

/-- A spare buffer that is there and empty. -/
def spare (b : Option LogBuffer) : Bool := b.any fun b ↦ b.length = 0

def test (s : AsyncLogging) : Option AsyncLogging :=
  if s.running = true then
    if spare s.newBuffer1 = true ∧ spare s.newBuffer2 = true ∧ s.buffersToWrite = [] then
      some { s with place := .beforeLock }
    else none
  else some { s with place := .exited }

/-- The rest of the critical section. -/
def swap (s : AsyncLogging) : Option AsyncLogging :=
  s.currentBuffer.map fun current ↦
    { s with
      buffers := s.buffersToWrite
      buffersToWrite := s.buffers ++ [current]
      currentBuffer := s.newBuffer1
      newBuffer1 := none
      nextBuffer := if s.nextBuffer.isSome = true then s.nextBuffer else s.newBuffer2
      newBuffer2 := if s.nextBuffer.isSome = true then s.newBuffer2 else none
      place := .swapped }

def lock (s : AsyncLogging) : Option AsyncLogging :=
  if s.buffers = [] then some { s with place := .waiting } else s.swap

def trim (s : AsyncLogging) : Option AsyncLogging :=
  if s.buffersToWrite = [] then none
  else some { s with
    output := s.output ++
      if 25 < s.buffersToWrite.length then [.notice (s.buffersToWrite.length - 2)] else []
    buffersToWrite :=
      if 25 < s.buffersToWrite.length then s.buffersToWrite.take 2 else s.buffersToWrite
    place := .writing 0 }

def write (k : ℕ) (s : AsyncLogging) : Option AsyncLogging :=
  (s.buffersToWrite[k]?).map fun b ↦
    { s with output := s.output ++ [.buffer b], place := .writing (k + 1) }

/-- A spare buffer is the last one of the batch, reset. -/
def refill1 (s : AsyncLogging) : Option AsyncLogging :=
  if s.newBuffer1.isSome = true then some s
  else if s.buffersToWrite = [] then none
  else some { s with newBuffer1 := some .new, buffersToWrite := s.buffersToWrite.dropLast }

def refill2 (s : AsyncLogging) : Option AsyncLogging :=
  if s.newBuffer2.isSome = true then some s
  else if s.buffersToWrite = [] then none
  else some { s with newBuffer2 := some .new, buffersToWrite := s.buffersToWrite.dropLast }

def refill (s : AsyncLogging) : Option AsyncLogging :=
  (refill1 { s with buffersToWrite := s.buffersToWrite.take 2 }).bind fun s ↦
    (refill2 s).map fun s ↦ { s with buffersToWrite := [], place := .loopTest }

/-! ## What others see -/

/-- The batch while it has not been trimmed. -/
def batch (s : AsyncLogging) : List LogBuffer :=
  if s.place = .swapped then s.buffersToWrite else []

/-- The buffers still to be written of a batch that has been. -/
def rest (s : AsyncLogging) : List LogBuffer :=
  match s.place with
  | .writing k => s.buffersToWrite.drop k
  | _ => []

/-- The buffers passed to `LogFile::append`. -/
def written (s : AsyncLogging) : List LogBuffer :=
  s.output.filterMap fun l ↦ match l with
    | .notice _ => none
    | .buffer b => some b

end AsyncLogging

/-- The lines in the buffers, in order. -/
def lines (buffers : List LogBuffer) : List Text := (buffers.map LogBuffer.pieces).flatten

namespace LogAct

open AsyncLogging

def exec (a : LogAct) (s : AsyncLogging) : Option AsyncLogging :=
  match a with
  | append logline => s.append logline
  | start => some { s with running := true, place := .created }
  | stop => some { s with running := false }
  | enter => s.enter
  | test => s.test
  | lock => s.lock
  | wake => s.swap
  | trim => s.trim.map fun t ↦ { t with taken := s.taken ++ [s.buffersToWrite] }
  | write => match s.place with
      | .writing k => s.write k
      | _ => none
  | refill => s.refill

/-- What may happen next; `start` returns after the back end has entered its
function, and `stop` comes after that. -/
def Enabled (a : LogAct) (s : AsyncLogging) : Prop :=
  match a with
  | append logline => logline.length < LogBuffer.kLargeBuffer
  | start => s.place = .notStarted
  | stop => s.running = true ∧ s.place ≠ .notStarted ∧ s.place ≠ .created
  | enter => s.place = .created
  | test => s.place = .loopTest
  | lock => s.place = .beforeLock
  | wake => s.place = .waiting
  | trim => s.place = .swapped
  | write => ∃ k < s.buffersToWrite.length, s.place = .writing k
  | refill => s.place = .writing s.buffersToWrite.length

/-- The line that a call of `append` passes. -/
def logged : LogAct → List Text
  | append logline => [logline]
  | _ => []

end LogAct

/-- The lines appended in a run, in the order in which the calls took the
mutex. -/
def appended (acts : List LogAct) : List Text := acts.flatMap LogAct.logged

end PpDSCache.Base
