import PpDSCache.Abstract.Runs

/-!
# The thread pool

Calls of `run` put tasks into a queue that may be bounded; workers take them
out.  A critical section is one step, between which a thread may wait on one of
the two condition variables.  Who is woken by a notification comes from
outside, and so do wakeups for no reason.
-/

namespace PpDSCache.Base

open Abstract

/-- Where a call of `run` is. -/
inductive CallPlace where
  /-- before it takes the mutex -/
  | began
  /-- blocked on `notFull_` -/
  | waiting
  | woken
  | done
  deriving DecidableEq

/-- Where a worker is. -/
inductive WorkerPlace where
  /-- before the test of `running_` -/
  | loopTest
  /-- in `take`, before it takes the mutex -/
  | taking
  /-- blocked on `notEmpty_` -/
  | waiting
  | executing (task : ℕ)
  | exited
  deriving DecidableEq

/-- A task is known by the number of the call that brought it. -/
structure ThreadPool where
  maxQueueSize : ℕ
  running : Bool
  queue : List ℕ
  calls : List CallPlace
  workers : List WorkerPlace

inductive PoolAct where
  | beginRun
  /-- the critical section of `run`, and the worker that it wakes -/
  | run (k : ℕ) (wakes : Option ℕ)
  | wakeCall (k : ℕ)
  | testRunning (w : ℕ)
  /-- the critical section of `take`, and the call that it wakes -/
  | take (w : ℕ) (wakes : Option ℕ)
  | wakeWorker (w : ℕ)
  | finish (w : ℕ)
  | stop

namespace ThreadPool

/-- After `start`. -/
def new (maxQueueSize numThreads : ℕ) : ThreadPool :=
  ⟨maxQueueSize, true, [], [], List.replicate numThreads .loopTest⟩

def isFull (s : ThreadPool) : Bool := 0 < s.maxQueueSize ∧ s.maxQueueSize ≤ s.queue.length

def setCall (k : ℕ) (p : CallPlace) (s : ThreadPool) : ThreadPool :=
  { s with calls := s.calls.set k p }

def setWorker (w : ℕ) (p : WorkerPlace) (s : ThreadPool) : ThreadPool :=
  { s with workers := s.workers.set w p }

/-- `notEmpty_.notify()` -/
def notifyWorker (wakes : Option ℕ) (s : ThreadPool) : ThreadPool :=
  match wakes with
  | none => s
  | some w => s.setWorker w .taking

/-- `notFull_.notify()` -/
def notifyCall (wakes : Option ℕ) (s : ThreadPool) : ThreadPool :=
  match wakes with
  | none => s
  | some k => s.setCall k .woken

def run (k : ℕ) (wakes : Option ℕ) (s : ThreadPool) : ThreadPool :=
  if s.isFull = true then s.setCall k .waiting
  else notifyWorker wakes ({ s with queue := s.queue ++ [k] }.setCall k .done)

/-- The task taken is run; without one the worker goes round again. -/
def take (w : ℕ) (wakes : Option ℕ) (s : ThreadPool) : ThreadPool :=
  match s.queue with
  | [] => if s.running = true then s.setWorker w .waiting else s.setWorker w .loopTest
  | task :: queue =>
      if 0 < s.maxQueueSize then
        notifyCall wakes ({ s with queue := queue }.setWorker w (.executing task))
      else { s with queue := queue }.setWorker w (.executing task)

def wakeAll (p : WorkerPlace) : WorkerPlace := if p = .waiting then .taking else p

def stop (s : ThreadPool) : ThreadPool :=
  { s with running := false, workers := s.workers.map wakeAll }

end ThreadPool

namespace PoolAct

open ThreadPool

def exec (a : PoolAct) (s : ThreadPool) : Option ThreadPool :=
  match a with
  | beginRun => some { s with calls := s.calls ++ [.began] }
  | run k wakes => some (s.run k wakes)
  | wakeCall k => some (s.setCall k .woken)
  | testRunning w => some (s.setWorker w (if s.running = true then .taking else .exited))
  | take w wakes => some (s.take w wakes)
  | wakeWorker w => some (s.setWorker w .taking)
  | finish w => some (s.setWorker w .loopTest)
  | stop => some s.stop

/-- A notification wakes one that waits, if there is one. -/
def Wakes {P : Type} (waiting : P) (places : List P) (wakes : Option ℕ) : Prop :=
  match wakes with
  | none => waiting ∉ places
  | some k => places[k]? = some waiting

def Enabled (a : PoolAct) (s : ThreadPool) : Prop :=
  match a with
  | beginRun => s.workers ≠ []
  | run k wakes => (s.calls[k]? = some .began ∨ s.calls[k]? = some .woken) ∧
      Wakes .waiting s.workers wakes
  | wakeCall k => s.calls[k]? = some .waiting
  | testRunning w => s.workers[w]? = some .loopTest
  | take w wakes => s.workers[w]? = some .taking ∧ Wakes .waiting s.calls wakes
  | wakeWorker w => s.workers[w]? = some .waiting
  | finish w => ∃ task, s.workers[w]? = some (.executing task)
  | stop => s.running = true

end PoolAct

end PpDSCache.Base
