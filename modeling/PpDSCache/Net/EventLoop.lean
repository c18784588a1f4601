import PpDSCache.Abstract.Runs

/-!
# The event loop and its functors

The thread that owns the loop polls, handles events and runs the functors that
any thread has pushed.  Threads take turns, one statement at a time; what
`mutex_` guards is one statement.
-/

namespace PpDSCache.Net

open Abstract

/-- Where `loop()` is.  In `events` the flag tells that the wakeup channel is
active and not yet handled; in `swap` the flag of `doPendingFunctors` is set
and the functors are not yet taken over. -/
inductive Phase where
  | outside
  | entered
  | test
  | poll
  | events (woken : Bool)
  | swap
  | functors
  deriving DecidableEq, Repr

/-- The places where code of the user runs on the thread of the loop. -/
def Phase.inCallback : Phase → Bool
  | .events _ | .functors => true
  | _ => false

/-- Where a thread is in `queueInLoop` or in `quit`. -/
inductive Call where
  | none
  | pushed
  | waking
  | quitting
  deriving DecidableEq, Repr

inductive LoopAct (F : Type) where
  -- the statements of `loop` and `doPendingFunctors`
  | loop
  | resetQuit
  | testQuit
  | pollReturn (woken : Bool)
  | handleRead
  | callPending
  | swapPending
  | runFunctor
  | endPending
  -- the calls of any thread
  | runInLoop (cb : F)
  | queueInLoop (cb : F)
  | testThread
  | wakeup
  | quit
  | quitWakeup

def LoopAct.isLoop {F : Type} : LoopAct F → Bool
  | .loop => true
  | _ => false

/-- The members of the loop, the place of each thread, and the history of the
functors. -/
structure EventLoop (T F : Type) where
  threadId : T
  looping : Bool
  quit : Bool
  callingPendingFunctors : Bool
  /-- the counter of the eventfd, readable when positive -/
  wakeupFd : ℕ
  pendingFunctors : List F
  /-- the local `functors` of `doPendingFunctors` -/
  functors : List F
  phase : Phase
  /-- the thread in `loop()` -/
  looper : Option T
  call : T → Call
  pushed : List F
  /-- functors from the queue, with the thread that ran them -/
  ran : List (T × F)
  /-- functors that `runInLoop` called itself -/
  called : List (T × F)

namespace EventLoop

variable {T F : Type}

/-- A constructed loop that nobody uses yet. -/
def new (threadId : T) : EventLoop T F :=
  ⟨threadId, false, false, false, 0, [], [], .outside, none, fun _ ↦ .none, [], [], []⟩

def Readable (s : EventLoop T F) : Prop := 0 < s.wakeupFd

/-- A write that would overflow the counter fails and leaves it. -/
def wakeup (s : EventLoop T F) : EventLoop T F :=
  { s with wakeupFd := if s.wakeupFd < 2 ^ 64 - 2 then s.wakeupFd + 1 else s.wakeupFd }

def handleRead (s : EventLoop T F) : EventLoop T F := { s with wakeupFd := 0 }

/-- The thread is in `loop()` at this place and in no call. -/
def At (s : EventLoop T F) (t : T) (p : Phase) : Prop :=
  s.looper = some t ∧ s.phase = p ∧ s.call t = .none

/-- A thread calls from outside any other call, the loop's own thread from an
event handler or a functor. -/
def MayCall (s : EventLoop T F) (t : T) : Prop :=
  s.call t = .none ∧ (t = s.threadId → s.phase.inCallback = true)

def takeFunctor (s : EventLoop T F) (t : T) : Option (EventLoop T F) :=
  match s.functors with
  | [] => none
  | f :: fs => some { s with functors := fs, ran := s.ran ++ [(t, f)] }

theorem takeFunctor_quit {s r : EventLoop T F} {t : T} (h : s.takeFunctor t = some r) :
    r.quit = s.quit ∧ r.phase = s.phase := by
  unfold takeFunctor at h
  split at h
  · cases h
  · obtain rfl := Option.some.inj h
    exact ⟨rfl, rfl⟩

variable [DecidableEq T]

instance (s : EventLoop T F) (t : T) (p : Phase) : Decidable (s.At t p) :=
  inferInstanceAs (Decidable (_ ∧ _ ∧ _))

instance (s : EventLoop T F) (t : T) : Decidable (s.MayCall t) :=
  inferInstanceAs (Decidable (_ ∧ (_ → _)))

def setCall (s : EventLoop T F) (t : T) (c : Call) : EventLoop T F :=
  { s with call := Function.update s.call t c }

/-- The guarded part of `queueInLoop`. -/
def push (s : EventLoop T F) (t : T) (cb : F) : EventLoop T F :=
  { s.setCall t .pushed with
    pendingFunctors := s.pendingFunctors ++ [cb]
    pushed := s.pushed ++ [cb] }

/-- `loop` aborts on a foreign thread and asserts that the loop is not looping. -/
def exec (l : T × LoopAct F) (s : EventLoop T F) : Option (EventLoop T F) :=
  match l.2 with
  | .loop =>
      if s.looping = false ∧ l.1 = s.threadId ∧ s.call l.1 = .none then
        some { s with looping := true, phase := .entered, looper := some l.1 }
      else none
  | .resetQuit =>
      if s.At l.1 .entered then some { s with quit := false, phase := .test } else none
  | .testQuit =>
      if s.At l.1 .test then
        if s.quit = true then
          some { s with looping := false, phase := .outside, looper := none }
        else some { s with phase := .poll }
      else none
  | .pollReturn woken =>
      if s.At l.1 .poll ∧ (woken = true → 0 < s.wakeupFd) then
        some { s with phase := .events woken }
      else none
  | .handleRead =>
      if s.At l.1 (.events true) then some { s.handleRead with phase := .events false } else none
  | .callPending =>
      if s.At l.1 (.events false) then
        some { s with callingPendingFunctors := true, phase := .swap }
      else none
  | .swapPending =>
      if s.At l.1 .swap then
        some { s with functors := s.pendingFunctors, pendingFunctors := [], phase := .functors }
      else none
  | .runFunctor => if s.At l.1 .functors then s.takeFunctor l.1 else none
  | .endPending =>
      if s.At l.1 .functors ∧ s.functors.isEmpty = true then
        some { s with callingPendingFunctors := false, phase := .test }
      else none
  | .runInLoop cb =>
      if s.MayCall l.1 then
        if l.1 = s.threadId then some { s with called := s.called ++ [(l.1, cb)] }
        else some (s.push l.1 cb)
      else none
  | .queueInLoop cb => if s.MayCall l.1 then some (s.push l.1 cb) else none
  | .testThread =>
      if s.call l.1 = .pushed then
        if l.1 ≠ s.threadId ∨ s.callingPendingFunctors = true then some (s.setCall l.1 .waking)
        else some (s.setCall l.1 .none)
      else none
  | .wakeup => if s.call l.1 = .waking then some (s.wakeup.setCall l.1 .none) else none
  | .quit =>
      if s.MayCall l.1 then
        if l.1 ≠ s.threadId then some { s.setCall l.1 .quitting with quit := true }
        else some { s with quit := true }
      else none
  | .quitWakeup => if s.call l.1 = .quitting then some (s.wakeup.setCall l.1 .none) else none

/-! ## The flag that ends the loop -/

/-- Once `loop()` has reset `quit_`, nothing that follows resets it. -/
theorem quit_of_exec {s r : EventLoop T F} {l : T × LoopAct F} (hr : exec l s = some r)
    (hloop : l.2.isLoop = false) (hphase : s.phase ≠ .entered) :
    r.phase ≠ .entered ∧ (s.quit = true → r.quit = true) := by
  obtain ⟨t, a⟩ := l
  cases a with
  | loop => cases hloop
  | resetQuit =>
      simp only [exec] at hr
      split_ifs at hr with hat
      exact absurd hat.2.1 hphase
  | runFunctor =>
      simp only [exec] at hr
      split_ifs at hr
      obtain ⟨hquit, hkeep⟩ := takeFunctor_quit hr
      rw [hquit, hkeep]
      exact ⟨hphase, id⟩
  | _ =>
      simp only [exec] at hr
      split_ifs at hr <;> obtain rfl := Option.some.inj hr <;>
        simp [push, setCall, wakeup, handleRead, hphase]

end EventLoop

end PpDSCache.Net
