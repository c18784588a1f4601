import PpDSCache.Net.EventLoop

/-!
# A thread that runs an event loop

`startLoop` returns once the new thread has published its loop, which is
before that thread calls `loop()`.  A `quit` from the destructor that comes in
between is undone when `loop()` resets `quit_`.
-/

namespace PpDSCache.Net

open Abstract

/-- Where the owner is in `startLoop` and in the destructor. -/
inductive OwnerAt where
  | outside
  | starting
  | waits
  | returned
  | exits
  | quits
  | wakes
  | joins
  | done
  deriving DecidableEq, Repr

/-- Where the new thread is in `threadFunc`.  At `left` it has set `loop_` to
null and its loop is gone. -/
inductive WorkerAt where
  | notStarted
  | started
  | constructed
  | published
  | looping
  | left
  deriving DecidableEq, Repr

inductive ThreadAct (T F : Type) where
  -- the owner
  | startLoop
  | testLoop
  | spuriousWakeup
  | destruct
  | testPointer
  | quit
  | wakeup
  | join
  -- the new thread
  | construct
  | publish
  | callLoop
  | unpublish
  /-- a statement of the new thread in `loop()`, or a call on the loop by any
  other thread -/
  | onLoop (l : T × LoopAct F)

structure EventLoopThread (T F : Type) where
  /-- the local of `threadFunc` -/
  loop : EventLoop T F
  /-- `loop_` is not null -/
  published : Bool
  exiting : Bool
  owner : OwnerAt
  worker : WorkerAt

namespace EventLoopThread

variable {T F : Type}

def new (worker : T) : EventLoopThread T F := ⟨.new worker, false, false, .outside, .notStarted⟩

/-- The thread of the loop is inside `loop()`; anyone else has the pointer that
`startLoop` returned, and the loop still exists. -/
def MayUse (owner t : T) (s : EventLoopThread T F) : Prop :=
  (t = s.loop.threadId → s.worker = .looping) ∧ (s.worker = .published ∨ s.worker = .looping) ∧
    (t = owner → s.owner = .returned)

variable [DecidableEq T]

instance (owner t : T) (s : EventLoopThread T F) : Decidable (s.MayUse owner t) :=
  inferInstanceAs (Decidable ((_ → _) ∧ _ ∧ (_ → _)))

/-- A call on a loop that is gone has no step. -/
def exec (owner : T) (a : ThreadAct T F) (s : EventLoopThread T F) :
    Option (EventLoopThread T F) :=
  match a with
  | .startLoop =>
      if s.owner = .outside then some { s with owner := .starting, worker := .started } else none
  | .testLoop =>
      if s.owner = .starting then
        if s.published = true then some { s with owner := .returned }
        else some { s with owner := .waits }
      else none
  | .spuriousWakeup => if s.owner = .waits then some { s with owner := .starting } else none
  | .destruct =>
      if s.owner = .returned ∧ s.loop.call owner = .none then
        some { s with exiting := true, owner := .exits }
      else none
  | .testPointer =>
      if s.owner = .exits then
        if s.published = true then some { s with owner := .quits }
        else some { s with owner := .done }
      else none
  | .quit =>
      if s.owner = .quits ∧ s.worker ≠ .left then
        (s.loop.exec (owner, .quit)).map fun loop ↦ { s with loop := loop, owner := .wakes }
      else none
  | .wakeup =>
      if s.owner = .wakes ∧ s.worker ≠ .left then
        (s.loop.exec (owner, .quitWakeup)).map fun loop ↦ { s with loop := loop, owner := .joins }
      else none
  | .join =>
      if s.owner = .joins ∧ s.worker = .left then some { s with owner := .done } else none
  | .construct => if s.worker = .started then some { s with worker := .constructed } else none
  | .publish =>
      if s.worker = .constructed then
        some { s with
          published := true
          owner := if s.owner = .waits then .starting else s.owner
          worker := .published }
      else none
  | .callLoop =>
      if s.worker = .published then
        (s.loop.exec (s.loop.threadId, .loop)).map fun loop ↦
          { s with loop := loop, worker := .looping }
      else none
  | .unpublish =>
      if s.worker = .looping ∧ s.loop.phase = .outside then
        some { s with published := false, worker := .left }
      else none
  | .onLoop l =>
      if s.MayUse owner l.1 ∧ l.2.isLoop = false then
        (s.loop.exec l).map fun loop ↦ { s with loop := loop }
      else none

/-! ## A quit that is not undone -/

/-- The owner joins after its `quit`, and the thread it waits for is in the
iterations of its loop with `quit_` cleared. -/
def QuitLost (s : EventLoopThread T F) : Prop :=
  s.owner = .joins ∧ s.worker = .looping ∧ s.loop.quit = false ∧
    s.loop.phase ≠ .entered ∧ s.loop.phase ≠ .outside

/-- The condition on a step: the owner sets `quit_` after `loop()` has reset
it. -/
def AfterReset (a : ThreadAct T F) (s : EventLoopThread T F) : Prop :=
  match a with
  | .quit => s.worker = .looping ∧ s.loop.phase ≠ .entered
  | _ => True

/-- The owner's `quit` stands. -/
def Inv (s : EventLoopThread T F) : Prop :=
  s.owner = .wakes ∨ s.owner = .joins →
    s.worker = .left ∨ s.worker = .looping ∧ s.loop.phase ≠ .entered ∧ s.loop.quit = true

variable {s r : EventLoopThread T F} {owner : T}

omit [DecidableEq T] in
theorem Inv.not_quitLost (h : s.Inv) : ¬ s.QuitLost := by
  rintro ⟨hjoins, hlooping, hquit, -⟩
  rcases h (.inr hjoins) with hleft | ⟨-, -, hset⟩
  · simp [hlooping] at hleft
  · simp [hquit] at hset

omit [DecidableEq T] in
theorem inv_of_owner (hwakes : s.owner ≠ .wakes) (hjoins : s.owner ≠ .joins) : s.Inv := by
  rintro (howner | howner)
  · exact absurd howner hwakes
  · exact absurd howner hjoins

omit [DecidableEq T] in
/-- The owner has not called `quit` before the thread is in its loop. -/
theorem Inv.inv_of_worker (h : s.Inv) (hlooping : s.worker ≠ .looping) (hleft : s.worker ≠ .left)
    (howner : r.owner = s.owner) : r.Inv := by
  intro hquit
  rw [howner] at hquit
  rcases h hquit with hworker | hworker
  · exact absurd hworker hleft
  · exact absurd hworker.1 hlooping

theorem Inv.onLoop {loop : EventLoop T F} {l : T × LoopAct F} (h : s.Inv)
    (hl : l.2.isLoop = false) (hr : s.loop.exec l = some loop) : Inv { s with loop := loop } := by
  intro howner
  rcases h howner with hleft | ⟨hlooping, hphase, hquit⟩
  · exact .inl hleft
  · obtain ⟨hphase', hquit'⟩ := EventLoop.quit_of_exec hr hl hphase
    exact .inr ⟨hlooping, hphase', hquit' hquit⟩

theorem quit_of_quit {loop : EventLoop T F} (hr : s.loop.exec (owner, .quit) = some loop) :
    loop.quit = true := by
  simp only [EventLoop.exec] at hr
  split_ifs at hr <;> obtain rfl := Option.some.inj hr <;> rfl

theorem Inv.exec {a : ThreadAct T F} (h : s.Inv) (ha : AfterReset a s)
    (hr : exec owner a s = some r) : r.Inv := by
  cases a with
  | startLoop =>
      simp only [EventLoopThread.exec] at hr
      split_ifs at hr with howner
      obtain rfl := Option.some.inj hr
      exact inv_of_owner (by simp) (by simp)
  | testLoop =>
      simp only [EventLoopThread.exec] at hr
      split_ifs at hr with howner hpublished
      · obtain rfl := Option.some.inj hr
        exact inv_of_owner (by simp) (by simp)
      · obtain rfl := Option.some.inj hr
        exact inv_of_owner (by simp) (by simp)
  | spuriousWakeup =>
      simp only [EventLoopThread.exec] at hr
      split_ifs at hr
      obtain rfl := Option.some.inj hr
      exact inv_of_owner (by simp) (by simp)
  | destruct =>
      simp only [EventLoopThread.exec] at hr
      split_ifs at hr
      obtain rfl := Option.some.inj hr
      exact inv_of_owner (by simp) (by simp)
  | testPointer =>
      simp only [EventLoopThread.exec] at hr
      split_ifs at hr with howner hpublished
      · obtain rfl := Option.some.inj hr
        exact inv_of_owner (by simp) (by simp)
      · obtain rfl := Option.some.inj hr
        exact inv_of_owner (by simp) (by simp)
  | quit =>
      simp only [EventLoopThread.exec] at hr
      split_ifs at hr
      obtain ⟨loop, hloop, rfl⟩ := Option.map_eq_some_iff.mp hr
      intro _
      exact .inr ⟨ha.1, (EventLoop.quit_of_exec hloop rfl ha.2).1, quit_of_quit hloop⟩
  | wakeup =>
      simp only [EventLoopThread.exec] at hr
      split_ifs at hr with howner
      obtain ⟨loop, hloop, rfl⟩ := Option.map_eq_some_iff.mp hr
      intro _
      exact h.onLoop rfl hloop (.inl howner.1)
  | join =>
      simp only [EventLoopThread.exec] at hr
      split_ifs at hr
      obtain rfl := Option.some.inj hr
      exact inv_of_owner (by simp) (by simp)
  | construct =>
      simp only [EventLoopThread.exec] at hr
      split_ifs at hr with hworker
      obtain rfl := Option.some.inj hr
      exact h.inv_of_worker (by simp [hworker]) (by simp [hworker]) rfl
  | publish =>
      simp only [EventLoopThread.exec] at hr
      split_ifs at hr with hworker hwaits
      · obtain rfl := Option.some.inj hr
        exact inv_of_owner (by simp) (by simp)
      · obtain rfl := Option.some.inj hr
        exact h.inv_of_worker (by simp [hworker]) (by simp [hworker]) rfl
  | callLoop =>
      simp only [EventLoopThread.exec] at hr
      split_ifs at hr with hworker
      obtain ⟨loop, hloop, rfl⟩ := Option.map_eq_some_iff.mp hr
      exact h.inv_of_worker (by simp [hworker]) (by simp [hworker]) rfl
  | unpublish =>
      simp only [EventLoopThread.exec] at hr
      split_ifs at hr
      obtain rfl := Option.some.inj hr
      exact fun _ ↦ .inl rfl
  | onLoop l =>
      simp only [EventLoopThread.exec] at hr
      split_ifs at hr with hcond
      obtain ⟨loop, hloop, rfl⟩ := Option.map_eq_some_iff.mp hr
      exact h.onLoop hcond.2 hloop

/-- In every run in which the owner's `quit` comes after `loop()` has reset
`quit_`, that `quit` is not lost. -/
theorem not_quitLost_of_afterReset {worker : T} {acts : List (ThreadAct T F)}
    (hok : EachStep (exec owner) AfterReset acts (new worker))
    (hrun : runAll (exec owner) acts (new worker) = some s) : ¬ s.QuitLost := by
  have hstart : (new worker : EventLoopThread T F).Inv :=
    inv_of_owner (by simp [new]) (by simp [new])
  have hinv : s.Inv := runAll_invariant (fun a s r hs ha hr ↦ hs.exec ha hr) hstart hok hrun
  exact hinv.not_quitLost

/-- The destructor finds the loop polling. -/
theorem not_quitLost_of_afterReset_polling :
    ∃ s : EventLoopThread Bool ℕ, runAll (exec true) ([.startLoop, .testLoop, .construct, .publish,
        .testLoop, .callLoop, .onLoop (false, .resetQuit), .onLoop (false, .testQuit), .destruct,
        .testPointer, .quit, .wakeup] : List (ThreadAct Bool ℕ)) (new false) = some s ∧
      s.owner = .joins ∧ s.loop.phase = .poll ∧ ¬ s.QuitLost := by
  have hrun : ∃ s : EventLoopThread Bool ℕ, runAll (exec true) ([.startLoop, .testLoop, .construct,
      .publish, .testLoop, .callLoop, .onLoop (false, .resetQuit), .onLoop (false, .testQuit),
      .destruct, .testPointer, .quit, .wakeup] : List (ThreadAct Bool ℕ)) (new false) = some s ∧
      s.owner = .joins ∧ s.loop.phase = .poll := ⟨_, rfl, rfl, rfl⟩
  obtain ⟨s, hrun, hjoins, hpoll⟩ := hrun
  refine ⟨s, hrun, hjoins, hpoll, not_quitLost_of_afterReset ?_ hrun⟩
  refine eachStep_cons trivial rfl (eachStep_cons trivial rfl (eachStep_cons trivial rfl ?_))
  refine eachStep_cons trivial rfl (eachStep_cons trivial rfl (eachStep_cons trivial rfl ?_))
  refine eachStep_cons trivial rfl (eachStep_cons trivial rfl (eachStep_cons trivial rfl ?_))
  refine eachStep_cons trivial rfl (eachStep_cons ⟨rfl, nofun⟩ rfl ?_)
  exact eachStep_cons trivial rfl trivial

/-- The destructor runs before the new thread calls `loop()`: the thread polls
with `quit_` cleared and an eventfd that it has drained, and the owner joins. -/
theorem quitLost_before_loop :
    ∃ s : EventLoopThread Bool ℕ, runAll (exec true) ([.startLoop, .testLoop, .construct, .publish,
        .testLoop, .destruct, .testPointer, .quit, .wakeup, .callLoop, .onLoop (false, .resetQuit),
        .onLoop (false, .testQuit), .onLoop (false, .pollReturn true),
        .onLoop (false, .handleRead), .onLoop (false, .callPending),
        .onLoop (false, .swapPending), .onLoop (false, .endPending),
        .onLoop (false, .testQuit)] : List (ThreadAct Bool ℕ)) (new false) = some s ∧
      s.QuitLost ∧ s.loop.phase = .poll ∧ ¬ s.loop.Readable :=
  ⟨_, rfl, ⟨rfl, rfl, rfl, nofun, nofun⟩, rfl, Nat.lt_irrefl 0⟩

end EventLoopThread

end PpDSCache.Net
