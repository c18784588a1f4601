import PpDSCache.Net.TimerQueue

/-!
# The timer queue in its loop

Calls on the loop's thread take effect at once, also from inside a callback;
calls from other threads wait as functors, which the loop runs in order when
it handles no event.
-/

namespace PpDSCache.Net

open Cpp Abstract

inductive TimerFunctor where
  | addTimerInLoop (timer : ActiveTimer)
  | cancelInLoop (timerId : ActiveTimer)
  deriving DecidableEq, Repr

/-- The locals of `handleRead`, with the callbacks it has still to start. -/
structure Batch where
  now : ℤ
  expired : List ActiveTimer
  remaining : List ActiveTimer

/-- The queue, the functors of the loop, the clock, and a history: the ids
that `addTimer` returned, the sequence numbers of the started callbacks, and
each executed `cancelInLoop` with the number of starts before it. -/
structure TimerLoop where
  queue : TimerQueue
  functors : List TimerFunctor
  batch : Option Batch
  clock : ℤ
  issued : List ActiveTimer
  started : List ℕ
  cancelled : List (ActiveTimer × ℕ)

inductive TimerAct where
  -- on the loop's thread
  | addTimer (a : ℕ) (time : ℤ) (repeats : Bool) (delta : ℕ)
  | cancel (timerId : ActiveTimer)
  | runFunctor
  | handleRead
  | runCallback
  | endRead
  -- on other threads
  | addTimerFrom (a : ℕ) (time : ℤ) (repeats : Bool) (delta : ℕ)
  | cancelFrom (timerId : ActiveTimer)
  -- the kernel
  | tick (d : ℕ)
  | expire

namespace TimerLoop

def start (clock : ℤ) : TimerLoop := ⟨.new, [], none, clock, [], [], []⟩

/-- The pointer and sequence number of a timer created now. -/
def nextTimer (s : TimerLoop) (a : ℕ) : ActiveTimer := ⟨a, s.queue.heap.numCreated + 1⟩

def create (s : TimerLoop) (a : ℕ) (time : ℤ) (repeats : Bool) (delta : ℕ) : TimerLoop :=
  { s with
    queue := { s.queue with heap := s.queue.heap.new a time repeats delta }
    issued := s.issued ++ [s.nextTimer a] }

def addTimerInLoop (p : ActiveTimer) (s : TimerLoop) : Option TimerLoop :=
  (s.queue.addTimerInLoop p s.clock).map fun q ↦ { s with queue := q }

def cancelInLoop (p : ActiveTimer) (s : TimerLoop) : Option TimerLoop :=
  (s.queue.cancelInLoop p).map fun q ↦
    { s with queue := q, cancelled := s.cancelled ++ [(p, s.started.count p.sequence)] }

def runFunctor (s : TimerLoop) : Option TimerLoop :=
  match s.functors with
  | [] => none
  | .addTimerInLoop p :: fs => addTimerInLoop p { s with functors := fs }
  | .cancelInLoop p :: fs => cancelInLoop p { s with functors := fs }

def runCallback (s : TimerLoop) (b : Batch) : Option TimerLoop :=
  match b.remaining with
  | [] => none
  | p :: ps => (s.queue.heap.deref p).map fun _ ↦ { s with
      batch := some { b with remaining := ps }
      started := s.started ++ [p.sequence] }

def endRead (s : TimerLoop) (b : Batch) : Option TimerLoop :=
  if b.remaining.isEmpty = true then
    (s.queue.endRead b.expired b.now s.clock).map fun q ↦ { s with queue := q, batch := none }
  else none

def setTimerfd (s : TimerLoop) (fd : Timerfd) : TimerLoop :=
  { s with queue := { s.queue with timerfd := fd } }

end TimerLoop

namespace TimerAct

open TimerLoop

def exec (a : TimerAct) (s : TimerLoop) : Option TimerLoop :=
  match a with
  | addTimer a time repeats delta => (s.create a time repeats delta).addTimerInLoop (s.nextTimer a)
  | cancel p => s.cancelInLoop p
  | runFunctor => if s.batch.isNone = true then s.runFunctor else none
  | handleRead =>
      if s.batch.isNone = true then
        (s.queue.beginRead s.clock).map fun r ↦
          { s with queue := r.2, batch := some ⟨s.clock, r.1, r.1⟩ }
      else none
  | runCallback => s.batch.bind s.runCallback
  | endRead => s.batch.bind s.endRead
  | addTimerFrom a time repeats delta =>
      some { s.create a time repeats delta with
        functors := s.functors ++ [.addTimerInLoop (s.nextTimer a)] }
  | cancelFrom p => some { s with functors := s.functors ++ [.cancelInLoop p] }
  | tick d => some { s with clock := s.clock + d }
  | expire => some (s.setTimerfd { s.queue.timerfd with armed := none, readable := true })

/-- What can happen now: the allocator returns a free address, times and
intervals are `int64_t`, and the parts of `handleRead` follow one another. -/
def Enabled (a : TimerAct) (s : TimerLoop) : Prop :=
  match a with
  | addTimer a time _ delta | addTimerFrom a time _ delta =>
      s.queue.heap.cell a = none ∧ a < uintptrMax ∧ -2 ^ 63 ≤ time ∧ time < 2 ^ 63 ∧
        (delta : ℤ) < 2 ^ 63
  | cancel _ | cancelFrom _ => True
  | runFunctor => s.batch = none ∧ s.functors ≠ []
  | handleRead => s.batch = none
  | runCallback => ∃ b, s.batch = some b ∧ b.remaining ≠ []
  | endRead => ∃ b, s.batch = some b ∧ b.remaining = []
  | tick d => s.clock + d < 2 ^ 63
  | expire => ∃ m, s.queue.timerfd.armed = some m ∧ m ≤ s.clock

end TimerAct

end PpDSCache.Net
