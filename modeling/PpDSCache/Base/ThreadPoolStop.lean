import PpDSCache.Base.ThreadPool

/-!
# Stopping the pool

`stop` wakes the workers but not the calls that wait for room, and a worker
leaves without looking at the queue.  No call is left waiting when the queue
and the workers still in `take` have room for every call under way.
-/

namespace PpDSCache.Base

open Abstract

/-! ## Counting places -/

section Count

variable {P : Type} {q : P → Bool} {places : List P} {k : ℕ} {p : P}

theorem countP_set_add (hk : places[k]? = some p) (p' : P) :
    (places.set k p').countP q + (if q p = true then 1 else 0) =
      places.countP q + if q p' = true then 1 else 0 := by
  obtain ⟨hlt, rfl⟩ := List.getElem?_eq_some_iff.mp hk
  have hcount : q places[k] = true → 0 < places.countP q := fun hq ↦
    List.countP_pos_iff.mpr ⟨_, List.getElem_mem hlt, hq⟩
  rw [List.countP_set hlt]
  by_cases hq : q places[k] = true
  · have hpos := hcount hq
    rw [if_pos hq]
    omega
  · rw [if_neg hq]
    omega

end Count

namespace CallPlace

def pending : CallPlace → Bool
  | done => false
  | _ => true

end CallPlace

namespace WorkerPlace

/-- In `take`, past the test of `running_`. -/
def inTake : WorkerPlace → Bool
  | taking | waiting => true
  | _ => false

end WorkerPlace

namespace ThreadPool

variable {s t : ThreadPool}

/-- The calls under way. -/
def underWay (s : ThreadPool) : ℕ := s.calls.countP CallPlace.pending

def waiters (s : ThreadPool) : ℕ := s.calls.countP (· = .waiting)

def woken (s : ThreadPool) : ℕ := s.calls.countP (· = .woken)

def takers (s : ThreadPool) : ℕ := s.workers.countP WorkerPlace.inTake

/-- The queue has room for `n` calls, with what the workers in `take` are still
to take. -/
def Room (n : ℕ) (s : ThreadPool) : Prop :=
  s.maxQueueSize = 0 ∨ s.queue.length + n ≤ s.maxQueueSize + min s.takers s.queue.length

/-- A call waits on `notFull_` and every worker has left, so that nothing will
notify it. -/
def Stuck (s : ThreadPool) : Prop :=
  (∀ w ∈ s.workers, w = .exited) ∧ CallPlace.waiting ∈ s.calls

structure Inv (s : ThreadPool) : Prop where
  waiters : 0 < s.waiters → 0 < s.maxQueueSize ∧ s.maxQueueSize ≤ s.queue.length + s.woken
  room : s.running = false → s.Room s.underWay
  running : s.running = true → ∀ w ∈ s.workers, w ≠ .exited

end ThreadPool

namespace PoolAct

open ThreadPool

/-- At `stop`, and at each call that begins later, there is room for every call
under way. -/
def HasRoom (a : PoolAct) (s : ThreadPool) : Prop :=
  match a with
  | stop => s.Room s.underWay
  | beginRun => s.running = false → s.Room (s.underWay + 1)
  | _ => True

end PoolAct

namespace ThreadPool

variable {s t : ThreadPool}

theorem woken_add_waiters_le (s : ThreadPool) : s.woken + s.waiters ≤ s.underWay := by
  rw [woken, waiters, underWay]
  induction s.calls with
  | nil => exact le_rfl
  | cons p calls ih => cases p <;> simp [List.countP_cons, CallPlace.pending] at ih ⊢ <;> omega

theorem Inv.not_stuck (h : s.Inv) (hworkers : s.workers ≠ []) : ¬ s.Stuck := by
  rintro ⟨hexited, hmem⟩
  have hrunning : s.running = false := by
    by_contra hrunning
    obtain ⟨w, ws, hw⟩ := List.exists_cons_of_ne_nil hworkers
    have hmem : w ∈ s.workers := hw ▸ List.mem_cons_self
    exact h.running (by simpa using hrunning) w hmem (hexited w hmem)
  have htakers : s.takers = 0 := by
    rw [takers, List.countP_eq_zero]
    intro w hw
    rw [hexited w hw]
    decide
  have hpos : 0 < s.waiters := List.countP_pos_iff.mpr ⟨_, hmem, by simp⟩
  obtain ⟨hmax, hfull⟩ := h.waiters hpos
  have hle := s.woken_add_waiters_le
  rcases h.room hrunning with hzero | hroom
  · omega
  · rw [htakers] at hroom
    omega

/-! ## Steps -/

section Steps

variable {k w : ℕ} {p p' : CallPlace} {v v' : WorkerPlace}

theorem waiters_setCall (hk : s.calls[k]? = some p) (p' : CallPlace) :
    (s.setCall k p').waiters + (if p = .waiting then 1 else 0) =
      s.waiters + if p' = .waiting then 1 else 0 := by
  have hcount := countP_set_add (q := (· = .waiting)) hk p'
  simp only [decide_eq_true_eq] at hcount
  exact hcount

theorem woken_setCall (hk : s.calls[k]? = some p) (p' : CallPlace) :
    (s.setCall k p').woken + (if p = .woken then 1 else 0) =
      s.woken + if p' = .woken then 1 else 0 := by
  have hcount := countP_set_add (q := (· = .woken)) hk p'
  simp only [decide_eq_true_eq] at hcount
  exact hcount

theorem underWay_setCall (hk : s.calls[k]? = some p) (p' : CallPlace) :
    (s.setCall k p').underWay + (if p.pending = true then 1 else 0) =
      s.underWay + if p'.pending = true then 1 else 0 := countP_set_add hk p'

theorem takers_setWorker (hw : s.workers[w]? = some v) (v' : WorkerPlace) :
    (s.setWorker w v').takers + (if v.inTake = true then 1 else 0) =
      s.takers + if v'.inTake = true then 1 else 0 := countP_set_add hw v'

theorem Inv.running_set (h : s.Inv) (hv : s.running = true → v' ≠ .exited) (w : ℕ) :
    s.running = true → ∀ u ∈ s.workers.set w v', u ≠ .exited := by
  intro hrun u hu
  rcases List.mem_or_eq_of_mem_set hu with hu | rfl
  · exact h.running hrun u hu
  · exact hv hrun

/-- A worker that moves without taking part in the counts. -/
theorem Inv.setWorker (h : s.Inv) (hw : s.workers[w]? = some v) (htake : v'.inTake = v.inTake)
    (hrunning : s.running = true → v' ≠ .exited) : (s.setWorker w v').Inv := by
  have htakers := takers_setWorker hw v'
  rw [htake, Nat.add_right_cancel_iff] at htakers
  refine ⟨h.waiters, fun hstopped ↦ ?_, h.running_set hrunning w⟩
  have hroom := h.room hstopped
  rw [Room] at hroom ⊢
  rw [htakers]
  exact hroom

theorem Inv.notifyWorker (h : s.Inv) {wakes : Option ℕ}
    (hwakes : PoolAct.Wakes .waiting s.workers wakes) : (s.notifyWorker wakes).Inv := by
  cases wakes with
  | none => exact h
  | some w => exact h.setWorker hwakes rfl fun _ ↦ by simp

/-- A call that begins to wait, or is woken, is under way as before. -/
theorem Inv.setCall (h : s.Inv) (hk : s.calls[k]? = some p) (hpending : p.pending = true)
    (hpending' : p'.pending = true)
    (hwaiters : 0 < (s.setCall k p').waiters →
      0 < s.maxQueueSize ∧ s.maxQueueSize ≤ s.queue.length + (s.setCall k p').woken) :
    (s.setCall k p').Inv := by
  have hunder := underWay_setCall hk p'
  rw [hpending, hpending', Nat.add_right_cancel_iff] at hunder
  refine ⟨hwaiters, fun hstopped ↦ ?_, h.running⟩
  rw [hunder]
  exact h.room hstopped

theorem Inv.run (h : s.Inv) (hk : s.calls[k]? = some .began ∨ s.calls[k]? = some .woken)
    {wakes : Option ℕ} (hwakes : PoolAct.Wakes .waiting s.workers wakes) :
    (s.run k wakes).Inv := by
  obtain ⟨p, hp, hpending, hwaiting⟩ :
      ∃ p, s.calls[k]? = some p ∧ p.pending = true ∧ p ≠ .waiting := by
    rcases hk with hk | hk
    · exact ⟨_, hk, rfl, by decide⟩
    · exact ⟨_, hk, rfl, by decide⟩
  rw [ThreadPool.run]
  split_ifs with hfull
  · apply h.setCall hp hpending rfl
    intro _
    rw [isFull, decide_eq_true_iff] at hfull
    omega
  · refine Inv.notifyWorker (s := { s with queue := s.queue ++ [k] }.setCall k .done) ?_ hwakes
    have hwaiters := waiters_setCall hp .done
    have hwoken := woken_setCall hp .done
    have hunder := underWay_setCall hp .done
    rw [if_neg hwaiting] at hwaiters
    rw [if_pos hpending] at hunder
    simp only [reduceCtorEq, if_false, CallPlace.pending, Bool.false_eq_true]
      at hwaiters hwoken hunder
    refine ⟨fun hpos ↦ ?_, fun hstopped ↦ ?_, h.running⟩
    · change 0 < (s.setCall k .done).waiters at hpos
      obtain ⟨hmax, hle⟩ := h.waiters (by omega)
      refine ⟨hmax, ?_⟩
      change s.maxQueueSize ≤ (s.queue ++ [k]).length + (s.setCall k .done).woken
      rw [List.length_append, List.length_singleton]
      split_ifs at hwoken <;> omega
    · rcases h.room hstopped with hzero | hroom
      · exact .inl hzero
      · refine .inr ?_
        change (s.queue ++ [k]).length + (s.setCall k .done).underWay ≤
          s.maxQueueSize + min s.takers (s.queue ++ [k]).length
        rw [List.length_append, List.length_singleton]
        omega

theorem Inv.take (h : s.Inv) (hw : s.workers[w]? = some .taking) {wakes : Option ℕ}
    (hwakes : PoolAct.Wakes .waiting s.calls wakes) : (s.take w wakes).Inv := by
  rw [ThreadPool.take]
  cases hq : s.queue with
  | nil =>
      dsimp only
      split_ifs with hrunning
      · exact h.setWorker hw rfl fun _ ↦ by simp
      · -- without a task it leaves `take`, which had nothing to take
        have htakers := takers_setWorker hw .loopTest
        refine ⟨h.waiters, fun hstopped ↦ ?_, fun hrun ↦ absurd hrun hrunning⟩
        have hroom := h.room hstopped
        rw [Room, hq] at hroom
        rw [Room]
        change s.maxQueueSize = 0 ∨
          s.queue.length + s.underWay ≤ s.maxQueueSize + min _ s.queue.length
        rw [hq]
        simpa using hroom
  | cons task queue =>
      have htakers := takers_setWorker hw (.executing task)
      simp only [WorkerPlace.inTake, if_true, Bool.false_eq_true, if_false] at htakers
      have hrun : s.running = true → ∀ u ∈ s.workers.set w (.executing task), u ≠ .exited :=
        h.running_set (fun _ ↦ by simp) w
      have hroom : s.running = false → s.maxQueueSize = 0 ∨
          queue.length + s.underWay ≤
            s.maxQueueSize + min (s.setWorker w (.executing task)).takers queue.length := by
        intro hstopped
        rcases h.room hstopped with hzero | hroom
        · exact .inl hzero
        · rw [hq, List.length_cons] at hroom
          exact .inr (by omega)
      dsimp only
      split_ifs with hmax
      · cases wakes with
        | none =>
            refine ⟨fun hpos ↦ ?_, hroom, hrun⟩
            obtain ⟨p, hp, hwaiting⟩ := List.countP_pos_iff.mp hpos
            exact absurd (of_decide_eq_true hwaiting ▸ hp) hwakes
        | some k =>
            have hwaiters := waiters_setCall hwakes .woken
            have hwoken := woken_setCall hwakes .woken
            have hunder := underWay_setCall hwakes .woken
            simp only [reduceCtorEq, if_true, if_false, CallPlace.pending] at hwaiters hwoken hunder
            refine ⟨fun _ ↦ ⟨hmax, ?_⟩, fun hstopped ↦ ?_, hrun⟩
            · obtain ⟨-, hle⟩ := h.waiters (by omega)
              rw [hq, List.length_cons] at hle
              change s.maxQueueSize ≤ queue.length + (s.setCall k .woken).woken
              omega
            · have hroom := hroom hstopped
              change s.maxQueueSize = 0 ∨ queue.length + (s.setCall k .woken).underWay ≤ _
              rw [Nat.add_right_cancel_iff] at hunder
              rw [hunder]
              exact hroom
      · refine ⟨fun hpos ↦ absurd (h.waiters hpos).1 hmax, hroom, hrun⟩

theorem takers_stop (s : ThreadPool) : s.stop.takers = s.takers := by
  rw [takers, ThreadPool.stop, List.countP_map]
  apply List.countP_congr
  intro v _
  cases v <;> simp [wakeAll, WorkerPlace.inTake]

theorem length_workers_exec {a : PoolAct} (ht : a.exec s = some t) :
    t.workers.length = s.workers.length := by
  cases a with
  | beginRun | wakeCall k | testRunning w | wakeWorker w | finish w | stop =>
      obtain rfl := Option.some.inj ht
      simp [ThreadPool.setCall, ThreadPool.setWorker, ThreadPool.stop]
  | run k wakes =>
      obtain rfl := Option.some.inj ht
      cases wakes <;> simp only [ThreadPool.run, ThreadPool.notifyWorker] <;> split_ifs <;>
        simp [ThreadPool.setCall, ThreadPool.setWorker]
  | take w wakes =>
      obtain rfl := Option.some.inj ht
      rw [ThreadPool.take]
      cases s.queue with
      | nil =>
          dsimp only
          split_ifs <;> simp [ThreadPool.setWorker]
      | cons task queue =>
          cases wakes <;> simp only [ThreadPool.notifyCall] <;> split_ifs <;>
            simp [ThreadPool.setCall, ThreadPool.setWorker]

theorem Inv.exec (h : s.Inv) {a : PoolAct} (hen : a.Enabled s) (hroom : a.HasRoom s)
    (ht : a.exec s = some t) : t.Inv := by
  cases a with
  | beginRun =>
      obtain rfl := Option.some.inj ht
      have hcount : ∀ q : CallPlace → Bool, (s.calls ++ [CallPlace.began]).countP q =
          s.calls.countP q + if q CallPlace.began = true then 1 else 0 := fun q ↦ by
        rw [List.countP_append, List.countP_singleton]
      have hwaiters : ThreadPool.waiters { s with calls := s.calls ++ [.began] } = s.waiters :=
        hcount _
      have hwoken : ThreadPool.woken { s with calls := s.calls ++ [.began] } = s.woken := hcount _
      have hunder : ThreadPool.underWay { s with calls := s.calls ++ [.began] } =
          s.underWay + 1 := hcount _
      refine ⟨fun hpos ↦ ?_, fun hstopped ↦ ?_, h.running⟩
      · rw [hwaiters] at hpos
        rw [hwoken]
        exact h.waiters hpos
      · rw [hunder]
        exact hroom hstopped
  | run k wakes =>
      obtain rfl := Option.some.inj ht
      exact h.run hen.1 hen.2
  | wakeCall k =>
      obtain rfl := Option.some.inj ht
      have hwaiters := waiters_setCall hen .woken
      have hwoken := woken_setCall hen .woken
      simp only [reduceCtorEq, if_true, if_false] at hwaiters hwoken
      apply h.setCall hen rfl rfl
      intro hpos
      obtain ⟨hmax, hle⟩ := h.waiters (by omega)
      exact ⟨hmax, by omega⟩
  | testRunning w =>
      obtain rfl := Option.some.inj ht
      split_ifs with hrunning
      · refine ⟨h.waiters, fun hstopped ↦ ?_, h.running_set (fun _ ↦ by simp) w⟩
        exact absurd (hrunning.symm.trans hstopped) (by simp)
      · exact h.setWorker hen rfl fun hrun ↦ absurd hrun hrunning
  | take w wakes =>
      obtain rfl := Option.some.inj ht
      exact h.take hen.1 hen.2
  | wakeWorker w =>
      obtain rfl := Option.some.inj ht
      exact h.setWorker hen rfl fun _ ↦ by simp
  | finish w =>
      obtain rfl := Option.some.inj ht
      obtain ⟨task, htask⟩ := hen
      exact h.setWorker htask rfl fun _ ↦ by simp
  | stop =>
      obtain rfl := Option.some.inj ht
      refine ⟨h.waiters, fun _ ↦ ?_, fun hrun ↦ by cases hrun⟩
      have hroom : s.Room s.underWay := hroom
      rw [Room] at hroom ⊢
      rw [takers_stop]
      exact hroom

end Steps

theorem inv_new (maxQueueSize numThreads : ℕ) : (new maxQueueSize numThreads).Inv where
  waiters := fun hpos ↦ absurd hpos (Nat.lt_irrefl 0)
  room := fun hstopped ↦ by cases hstopped
  running := fun _ w hw ↦ by
    rw [List.eq_of_mem_replicate hw]
    decide

/-- Where `stop` and every later call find room for the calls under way, no
call is left waiting when the workers have gone. -/
theorem not_stuck_of_hasRoom {maxQueueSize numThreads : ℕ} (hthreads : 0 < numThreads)
    {acts : List PoolAct}
    (hok : EachStep PoolAct.exec (fun a s ↦ a.Enabled s ∧ a.HasRoom s) acts
      (new maxQueueSize numThreads))
    (hs : runAll PoolAct.exec acts (new maxQueueSize numThreads) = some s) : ¬ s.Stuck := by
  have hinv : s.Inv ∧ s.workers.length = numThreads := by
    refine runAll_invariant (I := fun s ↦ s.Inv ∧ s.workers.length = numThreads)
      (fun a s t h hok ht ↦ ?_) ⟨inv_new _ _, List.length_replicate⟩ hok hs
    exact ⟨h.1.exec hok.1 hok.2 ht, (length_workers_exec ht).trans h.2⟩
  apply hinv.1.not_stuck
  rw [← List.length_pos_iff, hinv.2]
  exact hthreads

/-- One worker and a queue of two: `stop` finds room for the call under way. -/
theorem not_stuck_of_hasRoom_two :
    ∃ s, runAll PoolAct.exec [.beginRun, .run 0 none, .testRunning 0, .take 0 none, .beginRun,
        .run 1 none, .beginRun, .stop, .run 2 none, .finish 0, .testRunning 0] (new 2 1) = some s ∧
      s.workers = [.exited] ∧ ¬ s.Stuck := by
  have hrun : ∃ s, runAll PoolAct.exec [.beginRun, .run 0 none, .testRunning 0, .take 0 none,
      .beginRun, .run 1 none, .beginRun, .stop, .run 2 none, .finish 0, .testRunning 0] (new 2 1) =
        some s ∧ s.workers = [.exited] := ⟨_, rfl, rfl⟩
  obtain ⟨s, hs, hexited⟩ := hrun
  refine ⟨s, hs, hexited, not_stuck_of_hasRoom Nat.zero_lt_one ?_ hs⟩
  have hidle : WorkerPlace.waiting ∉ [WorkerPlace.executing 0] := by decide
  refine eachStep_cons ⟨List.cons_ne_nil _ _, fun h ↦ by cases h⟩ rfl ?_
  refine eachStep_cons ⟨⟨.inl rfl, (by decide : WorkerPlace.waiting ∉ [.loopTest])⟩, trivial⟩ rfl ?_
  refine eachStep_cons ⟨rfl, trivial⟩ rfl ?_
  refine eachStep_cons ⟨⟨rfl, (by decide : CallPlace.waiting ∉ [.done])⟩, trivial⟩ rfl ?_
  refine eachStep_cons ⟨List.cons_ne_nil _ _, fun h ↦ by cases h⟩ rfl ?_
  refine eachStep_cons ⟨⟨.inl rfl, hidle⟩, trivial⟩ rfl ?_
  refine eachStep_cons ⟨List.cons_ne_nil _ _, fun h ↦ by cases h⟩ rfl ?_
  refine eachStep_cons ⟨rfl, .inr (by decide : 1 + 1 ≤ 2 + min 0 1)⟩ rfl ?_
  refine eachStep_cons ⟨⟨.inl rfl, hidle⟩, trivial⟩ rfl ?_
  exact eachStep_cons ⟨⟨0, rfl⟩, trivial⟩ rfl (eachStep_cons ⟨rfl, trivial⟩ rfl trivial)

/-- A call that waits for room in a queue of one is left behind by the only
worker, which is busy when `stop` comes. -/
theorem stuck_of_stop :
    ∃ before after r s, EachStep PoolAct.exec PoolAct.Enabled before (new 1 1) ∧
      runAll PoolAct.exec before (new 1 1) = some r ∧ r.calls[2]? = some .waiting ∧
      EachStep PoolAct.exec PoolAct.Enabled (.stop :: after) r ∧
      runAll PoolAct.exec (.stop :: after) r = some s ∧ s.calls[2]? = some .waiting ∧ s.Stuck := by
  refine ⟨[.beginRun, .run 0 none, .testRunning 0, .take 0 none, .beginRun, .run 1 none, .beginRun,
    .run 2 none], [.finish 0, .testRunning 0], _, _, ?_, rfl, rfl, ?_, rfl, rfl, ?_⟩
  · have hidle : WorkerPlace.waiting ∉ [WorkerPlace.executing 0] := by decide
    refine eachStep_cons (List.cons_ne_nil _ _) rfl ?_
    refine eachStep_cons ⟨.inl rfl, (by decide : WorkerPlace.waiting ∉ [.loopTest])⟩ rfl ?_
    refine eachStep_cons rfl rfl ?_
    refine eachStep_cons ⟨rfl, (by decide : CallPlace.waiting ∉ [.done])⟩ rfl ?_
    refine eachStep_cons (List.cons_ne_nil _ _) rfl (eachStep_cons ⟨.inl rfl, hidle⟩ rfl ?_)
    exact eachStep_cons (List.cons_ne_nil _ _) rfl (eachStep_cons ⟨.inl rfl, hidle⟩ rfl trivial)
  · exact eachStep_cons rfl rfl (eachStep_cons ⟨0, rfl⟩ rfl (eachStep_cons rfl rfl trivial))
  · refine ⟨fun w hw ↦ List.mem_singleton.mp hw, ?_⟩
    exact List.mem_cons_of_mem _ (List.mem_cons_of_mem _ (List.mem_singleton_self _))

end ThreadPool

end PpDSCache.Base
