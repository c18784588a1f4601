import PpDSCache.Abstract.MonitorRuns

/-!
# Blocking queues

Calls of `put` and `take` from any threads share a queue, which may be bounded.
The values come out in the order in which they went in, each of them once, and
no call waits while it could go on.
-/

namespace PpDSCache.Base

open Abstract

inductive QueueCall (T : Type) where
  | put (x : T)
  | take
  deriving DecidableEq

namespace QueueCall

variable {T : Type}

def isPut : QueueCall T → Bool
  | put _ => true
  | take => false

def isTake : QueueCall T → Bool
  | put _ => false
  | take => true

end QueueCall

variable {T : Type}

/-- `take` behind its wait loop. -/
def takeFront (queue : List T) : Option (Option T × List T) :=
  match queue with
  | [] => none
  | front :: queue => some (some front, queue)

/-- `BlockingQueue<T>`, whose only condition variable is `notEmpty_`. -/
def BlockingQueue (T : Type) : Monitor (List T) (QueueCall T) (Option T) Unit where
  waitsFor
    | .put _ => none
    | .take => some ()
  holds _ queue := !queue.isEmpty
  body c queue :=
    match c with
    | .put x => some (none, queue ++ [x])
    | .take => takeFront queue
  notifies c _ :=
    match c with
    | .put _ => .one ()
    | .take => .nobody

/-- The condition variables of the bounded queue. -/
inductive QueueCondition where
  | notEmpty
  | notFull
  deriving DecidableEq

/-- `BoundedBlockingQueue<T>` -/
def BoundedBlockingQueue (T : Type) (maxSize : ℕ) :
    Monitor (List T) (QueueCall T) (Option T) QueueCondition where
  waitsFor
    | .put _ => some .notFull
    | .take => some .notEmpty
  holds w queue :=
    match w with
    | .notEmpty => !queue.isEmpty
    | .notFull => queue.length ≠ maxSize
  body c queue :=
    match c with
    | .put x => if queue.length < maxSize then some (none, queue ++ [x]) else none
    | .take => takeFront queue
  notifies c _ :=
    match c with
    | .put _ => .one .notEmpty
    | .take => .one .notFull

/-! ## The order of the values -/

/-- The values put in, in this order. -/
def putsOf (served : List (ℕ × QueueCall T × Option T)) : List T :=
  served.filterMap fun x ↦
    match x.2.1 with
    | .put y => some y
    | .take => none

/-- The values taken out, in this order. -/
def takesOf (served : List (ℕ × QueueCall T × Option T)) : List T :=
  served.filterMap fun x ↦
    match x.2.1 with
    | .put _ => none
    | .take => x.2.2

section Order

variable {κ : Type} {M : Monitor (List T) (QueueCall T) (Option T) κ} {queue queue' : List T}
  {served : List (ℕ × QueueCall T × Option T)}

/-- A `put` adds at the back, a `take` removes at the front. -/
def IsQueue (M : Monitor (List T) (QueueCall T) (Option T) κ) : Prop :=
  ∀ c queue r queue', M.body c queue = some (r, queue') →
    (∃ x, c = .put x ∧ r = none ∧ queue' = queue ++ [x]) ∨
      ∃ x, c = .take ∧ r = some x ∧ queue = x :: queue'

theorem takeFront_eq_some {r : Option T} (h : takeFront queue = some (r, queue')) :
    ∃ x, r = some x ∧ queue = x :: queue' := by
  cases queue with
  | nil => cases h
  | cons x queue =>
      cases h
      exact ⟨x, rfl, rfl⟩

theorem isQueue_blockingQueue : IsQueue (BlockingQueue T) := by
  intro c queue r queue' h
  cases c with
  | put x =>
      cases h
      exact .inl ⟨x, rfl, rfl, rfl⟩
  | take =>
      obtain ⟨x, rfl, rfl⟩ := takeFront_eq_some h
      exact .inr ⟨x, rfl, rfl, rfl⟩

theorem isQueue_boundedBlockingQueue (maxSize : ℕ) : IsQueue (BoundedBlockingQueue T maxSize) := by
  intro c queue r queue' h
  cases c with
  | put x =>
      obtain ⟨-, heq⟩ := Option.ite_none_right_eq_some.mp h
      cases heq
      exact .inl ⟨x, rfl, rfl, rfl⟩
  | take =>
      obtain ⟨x, rfl, rfl⟩ := takeFront_eq_some h
      exact .inr ⟨x, rfl, rfl, rfl⟩

/-- First in, first out. -/
theorem takesOf_append (hM : IsQueue M) (h : M.Serial queue served queue') :
    takesOf served ++ queue' = queue ++ putsOf served := by
  induction served generalizing queue with
  | nil =>
      obtain rfl : queue = queue' := h
      simp [takesOf, putsOf]
  | cons a served ih =>
      obtain ⟨k, c, r⟩ := a
      obtain ⟨-, q, hq, hrest⟩ := h
      have hih := ih hrest
      rcases hM c queue r q hq with ⟨x, rfl, rfl, rfl⟩ | ⟨x, rfl, rfl, rfl⟩
      · simpa [takesOf, putsOf] using hih
      · simpa [takesOf, putsOf] using hih

theorem length_takesOf (hM : IsQueue M) (h : M.Serial queue served queue') :
    (takesOf served).length = served.countP fun x ↦ x.2.1.isTake := by
  induction served generalizing queue with
  | nil => rfl
  | cons a served ih =>
      obtain ⟨k, c, r⟩ := a
      obtain ⟨-, q, hq, hrest⟩ := h
      have hih := ih hrest
      rcases hM c queue r q hq with ⟨x, rfl, rfl, rfl⟩ | ⟨x, rfl, rfl, rfl⟩
      · simpa [takesOf, QueueCall.isTake] using hih
      · simpa [takesOf, QueueCall.isTake] using hih

theorem length_putsOf (served : List (ℕ × QueueCall T × Option T)) :
    (putsOf served).length = served.countP fun x ↦ x.2.1.isPut := by
  induction served with
  | nil => rfl
  | cons a served ih =>
      obtain ⟨k, c, r⟩ := a
      cases c with
      | put x => simpa [putsOf, QueueCall.isPut] using ih
      | take => simpa [putsOf, QueueCall.isPut] using ih

end Order

/-! ## No wakeup is lost -/

/-- The values that a `take` may wait for. -/
def BlockingQueue.units (_ : Unit) (queue : List T) : ℕ := queue.length

/-- The values that a `take` may wait for, and the room that a `put` may. -/
def BoundedBlockingQueue.units (maxSize : ℕ) (w : QueueCondition) (queue : List T) : ℕ :=
  match w with
  | .notEmpty => queue.length
  | .notFull => maxSize - queue.length

theorem counting_blockingQueue :
    (BlockingQueue T).Counting BlockingQueue.units fun _ ↦ True where
  holds_iff w queue _ := by cases queue <;> simp [BlockingQueue, BlockingQueue.units]
  body c queue _ hready := by
    cases c with
    | put x =>
        refine ⟨(none, queue ++ [x]), rfl, trivial, nofun, fun w ↦ ?_⟩
        simp [BlockingQueue, BlockingQueue.units]
    | take =>
        cases queue with
        | nil => cases hready
        | cons x queue =>
            refine ⟨(some x, queue), rfl, trivial, nofun, fun w ↦ ?_⟩
            simp [BlockingQueue, BlockingQueue.units]

theorem counting_boundedBlockingQueue (maxSize : ℕ) :
    (BoundedBlockingQueue T maxSize).Counting (BoundedBlockingQueue.units maxSize)
      fun queue ↦ queue.length ≤ maxSize where
  holds_iff w queue h := by
    cases w with
    | notEmpty => cases queue <;> simp [BoundedBlockingQueue, BoundedBlockingQueue.units]
    | notFull =>
        simp only [BoundedBlockingQueue, BoundedBlockingQueue.units, decide_eq_true_eq]
        omega
  body c queue h hready := by
    cases c with
    | put x =>
        have hne : queue.length ≠ maxSize := of_decide_eq_true hready
        have hlt : queue.length < maxSize := by omega
        refine ⟨(none, queue ++ [x]), if_pos hlt, ?_, nofun, fun w ↦ ?_⟩
        · simpa using hlt
        · cases w with
          | notEmpty => simp [BoundedBlockingQueue, BoundedBlockingQueue.units]
          | notFull =>
              simp only [BoundedBlockingQueue, BoundedBlockingQueue.units, List.length_append,
                List.length_singleton, if_true, reduceCtorEq, Notify.one.injEq, if_false]
              omega
    | take =>
        cases queue with
        | nil => cases hready
        | cons x queue =>
            rw [List.length_cons] at h
            refine ⟨(some x, queue), rfl, Nat.le_of_succ_le h, nofun, fun w ↦ ?_⟩
            cases w with
            | notEmpty => simp [BoundedBlockingQueue, BoundedBlockingQueue.units]
            | notFull =>
                simp only [BoundedBlockingQueue, BoundedBlockingQueue.units, List.length_cons,
                  if_true, reduceCtorEq, Option.some.injEq, if_false]
                omega

/-! ## Whole runs -/

section Runs

variable {κ : Type} [DecidableEq κ] {M : Monitor (List T) (QueueCall T) (Option T) κ}
  {units : κ → List T → ℕ} {I : List T → Prop} {s t : Guarded (List T) (QueueCall T) (Option T)}
  {acts : List (CallAct (QueueCall T))}

theorem exists_run (hM : M.Counting units I) (hI : I [])
    (hen : EachStep M.exec M.Enabled acts (.new [])) :
    ∃ s, runAll M.exec acts (.new []) = some s ∧ M.Ordered [] s ∧ M.Wakeful units I s := by
  refine exists_runAll (I := fun s ↦ M.Ordered [] s ∧ M.Wakeful units I s) ?_
    ⟨Monitor.ordered_new [], Monitor.wakeful_new hI⟩ hen
  rintro a s ⟨hordered, hwakeful⟩ ha
  obtain ⟨t, ht, hwakeful'⟩ := hwakeful.exists_exec hM ha
  exact ⟨t, ht, hordered.exec ha ht, hwakeful'⟩

/-- A run that goes on with critical sections only comes to an end. -/
theorem exists_end (hM : M.Counting units I) (hI : I [])
    (hen : EachStep M.exec M.Enabled acts (.new []))
    (hrun : runAll M.exec acts (.new []) = some s) {enters : List (CallAct (QueueCall T))}
    (henters : ∀ a ∈ enters, Monitor.IsEnter a) (hen' : EachStep M.exec M.Enabled enters s)
    (hrun' : runAll M.exec enters s = some t) (hend : ∀ k wakes, ¬ M.Enabled (.enter k wakes) t) :
    enters.length ≤ 2 * s.calls.length ∧ M.Ordered [] t ∧ M.Wakeful units I t ∧ t.Stuck := by
  obtain ⟨s', hs', hordered, hwakeful⟩ := exists_run hM hI hen
  obtain rfl := Option.some.inj (hrun.symm.trans hs')
  have hstep : ∀ a s t, M.Ordered [] s ∧ M.Wakeful units I s → M.Enabled a s →
      M.exec a s = some t → M.Ordered [] t ∧ M.Wakeful units I t := by
    rintro a s t ⟨hordered, hwakeful⟩ ha ht
    obtain ⟨t', ht', hwakeful'⟩ := hwakeful.exists_exec hM ha
    obtain rfl := Option.some.inj (ht.symm.trans ht')
    exact ⟨hordered.exec ha ht, hwakeful'⟩
  obtain ⟨hordered', hwakeful'⟩ := runAll_invariant hstep ⟨hordered, hwakeful⟩ hen' hrun'
  exact ⟨(hwakeful.length_le hM henters hen' hrun').trans (Monitor.weight_le _), hordered',
    hwakeful', Monitor.stuck_iff.mpr hend⟩

omit [DecidableEq κ] in
theorem length_data (hq : IsQueue M) (h : M.Ordered [] s) :
    s.served.countP (fun x ↦ x.2.1.isTake) + s.data.length =
      s.served.countP fun x ↦ x.2.1.isPut := by
  have horder := congrArg List.length (takesOf_append hq h.serial)
  rw [List.length_append, List.nil_append, length_takesOf hq h.serial, length_putsOf] at horder
  exact horder

/-- A call that has not returned when none can move waits for what does not
hold. -/
theorem exists_blocked (hM : M.Counting units I) (h : M.Wakeful units I s) (hstuck : s.Stuck)
    {f : QueueCall T → Bool} (hne : (s.calls.countP fun p ↦ f p.1 && !p.2.isDone) ≠ 0) :
    ∃ c, f c = true ∧ M.isReady c s.data = false := by
  obtain ⟨p, hp, hand⟩ := List.countP_pos_iff.mp (Nat.pos_of_ne_zero hne)
  rw [Bool.and_eq_true, Bool.not_eq_true'] at hand
  exact ⟨p.1, hand.1, h.not_ready hM hstuck hp hand.2⟩

theorem length_of_not_ready {queue : List T} (h : (!queue.isEmpty) = false) :
    queue.length = 0 := by
  rw [Bool.not_eq_false', List.isEmpty_iff] at h
  rw [h, List.length_nil]

theorem countP_eq_zero_of_done {f : QueueCall T → Bool}
    (h : ∀ p ∈ s.calls, f p.1 = true → p.2.isDone = true) :
    (s.calls.countP fun p ↦ f p.1 && !p.2.isDone) = 0 := by
  rw [List.countP_eq_zero]
  intro p hp hand
  rw [Bool.and_eq_true] at hand
  simp [h p hp hand.1] at hand

theorem done_of_countP_eq_zero (hput : (s.calls.countP fun p ↦ p.1.isPut && !p.2.isDone) = 0)
    (htake : (s.calls.countP fun p ↦ p.1.isTake && !p.2.isDone) = 0) :
    ∀ p ∈ s.calls, p.2.isDone = true := by
  rw [List.countP_eq_zero] at hput htake
  intro p hp
  have hput := hput p hp
  have htake := htake p hp
  cases hc : p.1 with
  | put x => simpa [hc, QueueCall.isPut] using hput
  | take => simpa [hc, QueueCall.isTake] using htake

end Runs

section Bounded

variable {maxSize : ℕ} {acts enters : List (CallAct (QueueCall T))}
  {s t : Guarded (List T) (QueueCall T) (Option T)}

/-- In every run of calls on the bounded queue no assertion fails, the queue
keeps its bound, the values taken out followed by those left are the values put
in, and the calls that have returned are those that took effect, once each. -/
theorem boundedBlockingQueue_fifo
    (hen : EachStep (BoundedBlockingQueue T maxSize).exec
      (BoundedBlockingQueue T maxSize).Enabled acts (.new [])) :
    ∃ s, runAll (BoundedBlockingQueue T maxSize).exec acts (.new []) = some s ∧
      s.data.length ≤ maxSize ∧ takesOf s.served ++ s.data = putsOf s.served ∧
      (s.served.map Prod.fst).Nodup ∧
      ∀ k c r, (k, c, r) ∈ s.served ↔ s.calls[k]? = some (c, .done r) := by
  obtain ⟨s, hrun, hordered, hwakeful⟩ :=
    exists_run (counting_boundedBlockingQueue maxSize) (Nat.zero_le _) hen
  exact ⟨s, hrun, hwakeful.data,
    takesOf_append (isQueue_boundedBlockingQueue maxSize) hordered.serial,
    hordered.once, hordered.served_iff⟩

/-- Two calls of `put` and one of `take` on a queue with room for one value. -/
def exampleCalls : List (CallAct (QueueCall ℕ)) :=
  [.call (.put 5), .call (.put 7), .call .take, .enter 0 none, .enter 1 none]

theorem boundedBlockingQueue_fifo_exampleCalls :
    ∃ s, runAll (BoundedBlockingQueue ℕ 1).exec (exampleCalls ++ [.enter 2 (some 1)]) (.new []) =
        some s ∧
      s.data.length ≤ 1 ∧ takesOf s.served ++ s.data = putsOf s.served ∧
      (s.served.map Prod.fst).Nodup ∧
      ∀ k c r, (k, c, r) ∈ s.served ↔ s.calls[k]? = some (c, .done r) :=
  boundedBlockingQueue_fifo (by decide)

/-- Let a run of calls go on, without new calls, until none can move.  This
happens, and every call has returned if and only if the numbers of calls of
`put` and `take` allow it. -/
theorem boundedBlockingQueue_returns_iff (hpos : 0 < maxSize)
    (hen : EachStep (BoundedBlockingQueue T maxSize).exec
      (BoundedBlockingQueue T maxSize).Enabled acts (.new []))
    (hrun : runAll (BoundedBlockingQueue T maxSize).exec acts (.new []) = some s)
    (henters : ∀ a ∈ enters, Monitor.IsEnter a)
    (hen' : EachStep (BoundedBlockingQueue T maxSize).exec
      (BoundedBlockingQueue T maxSize).Enabled enters s)
    (hrun' : runAll (BoundedBlockingQueue T maxSize).exec enters s = some t)
    (hend : ∀ k wakes, ¬ (BoundedBlockingQueue T maxSize).Enabled (.enter k wakes) t) :
    enters.length ≤ 2 * s.calls.length ∧
      ((∀ p ∈ t.calls, p.2.isDone = true) ↔
        t.calls.countP (fun p ↦ p.1.isTake) ≤ t.calls.countP (fun p ↦ p.1.isPut) ∧
          t.calls.countP (fun p ↦ p.1.isPut) ≤ t.calls.countP (fun p ↦ p.1.isTake) + maxSize) := by
  have hM := counting_boundedBlockingQueue (T := T) maxSize
  obtain ⟨hlength, hordered, hwakeful, hstuck⟩ :=
    exists_end hM (Nat.zero_le _) hen hrun henters hen' hrun' hend
  have hbound := hwakeful.data
  have hdata := length_data (isQueue_boundedBlockingQueue maxSize) hordered
  have hputs := hordered.countP_calls QueueCall.isPut
  have htakes := hordered.countP_calls QueueCall.isTake
  refine ⟨hlength, fun hdone ↦ ?_, fun hcounts ↦ ?_⟩
  · have hput := countP_eq_zero_of_done (f := QueueCall.isPut) fun p hp _ ↦ hdone p hp
    have htake := countP_eq_zero_of_done (f := QueueCall.isTake) fun p hp _ ↦ hdone p hp
    omega
  have hput : (t.calls.countP fun p ↦ p.1.isPut && !p.2.isDone) ≠ 0 → t.data.length = maxSize := by
    intro hne
    obtain ⟨c, hc, hno⟩ := exists_blocked hM hwakeful hstuck hne
    cases c with
    | take => cases hc
    | put x => exact not_not.mp (of_decide_eq_false hno)
  have htake : (t.calls.countP fun p ↦ p.1.isTake && !p.2.isDone) ≠ 0 → t.data.length = 0 := by
    intro hne
    obtain ⟨c, hc, hno⟩ := exists_blocked hM hwakeful hstuck hne
    cases c with
    | put x => cases hc
    | take => exact length_of_not_ready hno
  exact done_of_countP_eq_zero (by omega) (by omega)

theorem boundedBlockingQueue_returns_exampleCalls :
    ∃ s t, runAll (BoundedBlockingQueue ℕ 1).exec exampleCalls (.new []) = some s ∧
      runAll (BoundedBlockingQueue ℕ 1).exec [.enter 2 (some 1), .enter 1 none] s = some t ∧
      t.data = [7] ∧ ∀ p ∈ t.calls, p.2.isDone = true := by
  refine ⟨⟨[5], [(.put 5, .done none), (.put 7, .waiting), (.take, .began)], [(0, .put 5, none)]⟩,
    ⟨[7], [(.put 5, .done none), (.put 7, .done none), (.take, .done (some 5))],
      [(0, .put 5, none), (2, .take, some 5), (1, .put 7, none)]⟩, rfl, rfl, rfl, ?_⟩
  have hen : EachStep (BoundedBlockingQueue ℕ 1).exec (BoundedBlockingQueue ℕ 1).Enabled
      exampleCalls (.new []) := by decide
  have henters : ∀ a ∈ ([.enter 2 (some 1), .enter 1 none] : List (CallAct (QueueCall ℕ))),
      Monitor.IsEnter a := by simp [Monitor.IsEnter]
  exact (boundedBlockingQueue_returns_iff Nat.one_pos hen rfl henters (by decide) rfl
    (Monitor.stuck_iff.mp (by decide))).2.mpr (by decide)

end Bounded

section Unbounded

variable {acts enters : List (CallAct (QueueCall T))}
  {s t : Guarded (List T) (QueueCall T) (Option T)}

/-- The same of the queue without a bound, on which a call of `put` never
waits. -/
theorem blockingQueue_returns_iff
    (hen : EachStep (BlockingQueue T).exec (BlockingQueue T).Enabled acts (.new []))
    (hrun : runAll (BlockingQueue T).exec acts (.new []) = some s)
    (henters : ∀ a ∈ enters, Monitor.IsEnter a)
    (hen' : EachStep (BlockingQueue T).exec (BlockingQueue T).Enabled enters s)
    (hrun' : runAll (BlockingQueue T).exec enters s = some t)
    (hend : ∀ k wakes, ¬ (BlockingQueue T).Enabled (.enter k wakes) t) :
    enters.length ≤ 2 * s.calls.length ∧ takesOf t.served ++ t.data = putsOf t.served ∧
      (∀ p ∈ t.calls, p.1.isPut = true → p.2.isDone = true) ∧
      ((∀ p ∈ t.calls, p.2.isDone = true) ↔
        t.calls.countP (fun p ↦ p.1.isTake) ≤ t.calls.countP fun p ↦ p.1.isPut) := by
  have hM := counting_blockingQueue (T := T)
  obtain ⟨hlength, hordered, hwakeful, hstuck⟩ :=
    exists_end hM trivial hen hrun henters hen' hrun' hend
  have hdata := length_data isQueue_blockingQueue hordered
  have hputs := hordered.countP_calls QueueCall.isPut
  have htakes := hordered.countP_calls QueueCall.isTake
  have hput : (t.calls.countP fun p ↦ p.1.isPut && !p.2.isDone) = 0 := by
    by_contra hne
    obtain ⟨c, hc, hno⟩ := exists_blocked hM hwakeful hstuck hne
    cases c with
    | take => cases hc
    | put x => cases hno
  have htake : (t.calls.countP fun p ↦ p.1.isTake && !p.2.isDone) ≠ 0 → t.data.length = 0 := by
    intro hne
    obtain ⟨c, hc, hno⟩ := exists_blocked hM hwakeful hstuck hne
    cases c with
    | put x => cases hc
    | take => exact length_of_not_ready hno
  refine ⟨hlength, takesOf_append isQueue_blockingQueue hordered.serial, fun p hp hc ↦ ?_,
    fun hdone ↦ ?_, fun hcounts ↦ done_of_countP_eq_zero hput (by omega)⟩
  · have hno := List.countP_eq_zero.mp hput p hp
    simpa [hc] using hno
  · have htake' := countP_eq_zero_of_done (f := QueueCall.isTake) fun p hp _ ↦ hdone p hp
    omega

theorem blockingQueue_returns_two_takes :
    ∃ s t, runAll (BlockingQueue ℕ).exec
        [.call .take, .call .take, .enter 0 none, .enter 1 none, .call (.put 5)] (.new []) =
          some s ∧
      runAll (BlockingQueue ℕ).exec [.enter 2 (some 1), .enter 1 none] s = some t ∧
      ¬ ∀ p ∈ t.calls, p.2.isDone = true := by
  refine ⟨⟨[], [(.take, .waiting), (.take, .waiting), (.put 5, .began)], []⟩,
    ⟨[], [(.take, .waiting), (.take, .done (some 5)), (.put 5, .done none)],
      [(2, .put 5, none), (1, .take, some 5)]⟩, rfl, rfl, fun hdone ↦ ?_⟩
  have hen : EachStep (BlockingQueue ℕ).exec (BlockingQueue ℕ).Enabled
      [.call .take, .call .take, .enter 0 none, .enter 1 none, .call (.put 5)] (.new []) := by
    decide
  have henters : ∀ a ∈ ([.enter 2 (some 1), .enter 1 none] : List (CallAct (QueueCall ℕ))),
      Monitor.IsEnter a := by simp [Monitor.IsEnter]
  have hcounts := (blockingQueue_returns_iff hen rfl henters (by decide) rfl
    (Monitor.stuck_iff.mp (by decide))).2.2.2.mp hdone
  exact absurd hcounts (by decide)

end Unbounded

end PpDSCache.Base
