import PpDSCache.Net.TimerInvariant

/-!
# Runs of the timer queue

In every run the two sets stand for the same live timers and no operation
fails; what `reset` does to each timer of a batch depends on that timer alone.
-/

namespace PpDSCache.Net

open Cpp Abstract

namespace TimerQueue

/-! ## What becomes of an expired timer -/

/-- Nothing changes but at one address. -/
structure Frame (a : ℕ) (q r : TimerQueue) : Prop where
  cell : ∀ b, b ≠ a → r.heap.cell b = q.heap.cell b
  timers : ∀ e : Entry, e.timer ≠ a → (e ∈ r.timers ↔ e ∈ q.timers)
  active : ∀ p : ActiveTimer, p.timer ≠ a → (p ∈ r.activeTimers ↔ p ∈ q.activeTimers)
  deleted : ∀ n ∈ q.heap.deleted, n ∈ r.heap.deleted
  canceling : r.cancelingTimers = q.cancelingTimers

/-- A timer that repeats and was not cancelled is back in both sets, once; any
other is in neither and deleted. -/
def Settled (now : ℤ) (cancelled : List ActiveTimer) (q r : TimerQueue) (p : ActiveTimer) : Prop :=
  ∃ t, q.heap.deref p = some t ∧
    if t.repeats = true ∧ p ∉ cancelled then
      r.heap.deref p = some (t.restart now) ∧ p ∈ r.activeTimers ∧
        ∀ e, e ∈ r.timers ∧ e.timer = p.timer ↔ e = ⟨(t.restart now).expiration, p.timer⟩
    else
      r.heap.cell p.timer = none ∧ p.sequence ∈ r.heap.deleted ∧ p ∉ r.activeTimers ∧
        ∀ e ∈ r.timers, e.timer ≠ p.timer

/-- The sets stand for the same timers, all of them live. -/
structure Agree (q : TimerQueue) : Prop where
  same : ∀ e, e ∈ q.timers ↔ ∃ p ∈ q.activeTimers, q.Stands p e
  live : ∀ p ∈ q.activeTimers, ∃ t, q.heap.deref p = some t
  distinct : (q.activeTimers.elems.map ActiveTimer.timer).Nodup

variable {q r r' : TimerQueue} {cancelled cancelled' extra : List ActiveTimer} {p : ActiveTimer}
  {now : ℤ} {a : ℕ}

theorem Inv.agree (h : Inv [] extra q) : q.Agree where
  same := fun _ ↦ h.mem_timers
  live := fun _ hp ↦ h.live hp
  distinct := by
    have hnodup := h.pointers.nodup
    rw [List.map_append] at hnodup
    exact hnodup.of_append_left

theorem Settled.congr (h : Settled now cancelled q r p) (hp : p ∈ cancelled' ↔ p ∈ cancelled) :
    Settled now cancelled' q r p := by
  obtain ⟨t, ht, h⟩ := h
  exact ⟨t, ht, by simpa only [hp] using h⟩

theorem Settled.frame (h : Settled now cancelled q r p) (hframe : Frame a r r')
    (hne : p.timer ≠ a) : Settled now cancelled q r' p := by
  obtain ⟨t, ht, h⟩ := h
  refine ⟨t, ht, ?_⟩
  split_ifs at h ⊢ with hagain
  · obtain ⟨hderef, hactive, hentry⟩ := h
    refine ⟨?_, (hframe.active p hne).mpr hactive, fun e ↦ ?_⟩
    · rw [TimerHeap.deref_congr (hframe.cell p.timer hne), hderef]
    · rw [← hentry e]
      refine and_congr_left fun he ↦ hframe.timers e ?_
      rwa [he]
  · obtain ⟨hcell, hdeleted, hactive, hentry⟩ := h
    refine ⟨?_, hframe.deleted _ hdeleted, mt (hframe.active p hne).mp hactive, fun e he heq ↦ ?_⟩
    · rw [hframe.cell p.timer hne, hcell]
    · refine hentry e ?_ heq
      exact (hframe.timers e (heq ▸ hne)).mp he

theorem Inv.settled_resetOne (h : Inv [] (p :: extra) q) (hr : q.resetOne now p = some r) :
    Settled now q.cancelingTimers.elems q r p ∧ Frame p.timer q r := by
  obtain ⟨t, q', ht, hq', -, hcase⟩ := h.resetOne now
  obtain rfl : q' = r := Option.some.inj (hq'.symm.trans hr)
  rcases hcase with ⟨hrepeats, hcancel, rfl⟩ | ⟨hnot, heap, hdel, rfl⟩
  · constructor
    · refine ⟨t, ht, ?_⟩
      have hagain : t.repeats = true ∧ p ∉ q.cancelingTimers.elems := ⟨hrepeats, hcancel⟩
      rw [if_pos hagain]
      refine ⟨TimerHeap.deref_restart_self ht, OrderedSet.mem_insert.mpr (.inl rfl), fun e ↦ ?_⟩
      constructor
      · rintro ⟨he, htimer⟩
        rcases OrderedSet.mem_insert.mp he with rfl | hold
        · rfl
        · exact absurd hold (h.notMem_timers_head htimer)
      · rintro rfl
        exact ⟨OrderedSet.mem_insert.mpr (.inl rfl), rfl⟩
    · refine ⟨fun b hb ↦ TimerHeap.cell_restart_of_ne hb, fun e he ↦ ?_, fun p' hp' ↦ ?_,
        fun n hn ↦ hn, rfl⟩
      · refine OrderedSet.mem_insert.trans (or_iff_right ?_)
        rintro rfl
        exact he rfl
      · refine OrderedSet.mem_insert.trans (or_iff_right ?_)
        rintro rfl
        exact hp' rfl
  · constructor
    · refine ⟨t, ht, ?_⟩
      have hgone : ¬ (t.repeats = true ∧ p ∉ q.cancelingTimers.elems) := hnot
      rw [if_neg hgone]
      refine ⟨hdel.cell_self, ?_, h.notMem_head, fun e he htimer ↦ ?_⟩
      · rw [hdel.deleted]
        exact List.mem_append_right _ (List.mem_singleton_self _)
      · exact h.notMem_timers_head htimer he
    · refine ⟨hdel.cell_of_ne, fun e _ ↦ Iff.rfl, fun p' _ ↦ Iff.rfl, fun n hn ↦ ?_, rfl⟩
      rw [hdel.deleted]
      exact List.mem_append_left _ hn

theorem Inv.settled_resetAll {ps : List ActiveTimer} (h : Inv [] (ps ++ extra) q)
    (hr : q.resetAll now ps = some r) :
    (∀ p ∈ ps, Settled now q.cancelingTimers.elems q r p) ∧
      ∀ p, (∀ p' ∈ ps, p.timer ≠ p'.timer) → ∀ cancelled q₀,
        Settled now cancelled q₀ q p → Settled now cancelled q₀ r p := by
  induction ps generalizing q with
  | nil =>
      obtain rfl : q = r := Option.some.inj hr
      exact ⟨nofun, fun p _ cancelled q₀ hp ↦ hp⟩
  | cons p ps ih =>
      rw [TimerQueue.resetAll, Option.bind_eq_some_iff] at hr
      obtain ⟨q₁, hq₁, hr⟩ := hr
      obtain ⟨hp, hframe⟩ := h.settled_resetOne hq₁
      obtain ⟨t, q₂, -, hq₂, hinv, -⟩ := h.resetOne now
      obtain rfl : q₂ = q₁ := Option.some.inj (hq₂.symm.trans hq₁)
      obtain ⟨hps, hkeep⟩ := ih hinv hr
      have hne : ∀ p' ∈ ps, p'.timer ≠ p.timer := fun p' hp' ↦
        h.ne_head (List.mem_append_right _ (List.mem_append_left _ hp'))
      constructor
      · intro p' hp'
        rcases List.mem_cons.mp hp' with rfl | hp'
        · exact hkeep p' (fun p'' hp'' ↦ (hne p'' hp'').symm) _ q hp
        · -- the rounds before that of `p'` do not touch it
          obtain ⟨u, hu, hsettled⟩ := hps p' hp'
          rw [hframe.canceling] at hsettled
          rw [TimerHeap.deref_congr (hframe.cell _ (hne p' hp'))] at hu
          exact ⟨u, hu, hsettled⟩
      · intro p' hp' cancelled q₀ hsettled
        have hhead : p'.timer ≠ p.timer := hp' p List.mem_cons_self
        exact hkeep p' (fun p'' hp'' ↦ hp' p'' (List.mem_cons_of_mem p hp''))
          cancelled q₀ (hsettled.frame hframe hhead)

end TimerQueue

/-! ## The invariant of the loop -/

/-- The timers that wait to be inserted. -/
def waiting : List TimerFunctor → List ActiveTimer
  | [] => []
  | .addTimerInLoop p :: fs => p :: waiting fs
  | .cancelInLoop _ :: fs => waiting fs

theorem waiting_append (fs gs : List TimerFunctor) :
    waiting (fs ++ gs) = waiting fs ++ waiting gs := by
  induction fs with
  | nil => rfl
  | cons f fs ih => cases f <;> simp [waiting, ih]

/-! ## The cancellations of a run -/

/-- What a step does to the cancellations made since a batch began; a batch
runs on the loop's thread, so that only calls on this thread are made in it. -/
def TimerAct.mark (a : TimerAct) (cancelled : List ActiveTimer) : List ActiveTimer :=
  match a with
  | handleRead => []
  | cancel p => cancelled ++ [p]
  | _ => cancelled

/-- The ids cancelled since the last batch of a run began. -/
def cancelledInBatch (acts : List TimerAct) : List ActiveTimer :=
  acts.foldl (fun cancelled a ↦ a.mark cancelled) []

theorem cancelledInBatch_concat (acts : List TimerAct) (a : TimerAct) :
    cancelledInBatch (acts ++ [a]) = a.mark (cancelledInBatch acts) := by
  rw [cancelledInBatch, List.foldl_append]
  rfl

namespace TimerLoop

def expired (s : TimerLoop) : List ActiveTimer := (s.batch.map Batch.expired).getD []

/-- The timers that are in neither set. -/
def elsewhere (s : TimerLoop) : List ActiveTimer := waiting s.functors ++ s.expired

structure Inv (s : TimerLoop) : Prop where
  queue : s.queue.Inv [] s.elsewhere
  suffix : ∀ b, s.batch = some b → b.remaining <:+ b.expired

variable {s r : TimerLoop} {p : ActiveTimer} {b : Batch}

theorem inv_start (clock : ℤ) : (start clock).Inv := ⟨TimerQueue.inv_new, nofun⟩

theorem expired_of_batch (hb : s.batch = some b) : s.expired = b.expired := by
  rw [expired, hb]
  rfl

namespace Inv

theorem create (h : s.Inv) {a : ℕ} (hfree : s.queue.heap.cell a = none) (hbound : a < uintptrMax)
    (time : ℤ) (repeats : Bool) (delta : ℕ) :
    (s.create a time repeats delta).queue.Inv [] (s.nextTimer a :: s.elsewhere) :=
  h.queue.create hfree hbound time repeats delta

/-- `addTimerInLoop` of a timer that is elsewhere. -/
theorem addTimerInLoop (h : s.queue.Inv [] (p :: s.elsewhere))
    (hsuffix : ∀ b, s.batch = some b → b.remaining <:+ b.expired) :
    ∃ r, s.addTimerInLoop p = some r ∧ r.Inv := by
  obtain ⟨t, fd, -, heq, -, hinv⟩ := h.addTimerInLoop s.clock
  have hmap := congrArg (Option.map fun q ↦ { s with queue := q }) heq
  exact ⟨_, hmap, hinv, hsuffix⟩

theorem cancelInLoop (h : s.Inv) (p : ActiveTimer) : ∃ r, s.cancelInLoop p = some r ∧ r.Inv := by
  obtain ⟨q, hq, hinv⟩ := h.queue.cancelInLoop p
  have heq := congrArg (Option.map fun q ↦
    { s with queue := q, cancelled := s.cancelled ++ [(p, s.started.count p.sequence)] }) hq
  exact ⟨_, heq, hinv, h.suffix⟩

theorem runFunctor (h : s.Inv) (hne : s.functors ≠ []) : ∃ r, s.runFunctor = some r ∧ r.Inv := by
  unfold TimerLoop.runFunctor
  split
  next hnil => exact absurd hnil hne
  next p fs hfs =>
    have hqueue := h.queue
    rw [elsewhere, hfs] at hqueue
    exact addTimerInLoop hqueue h.suffix
  next p fs hfs =>
    have hqueue := h.queue
    rw [elsewhere, hfs] at hqueue
    have hrest : Inv { s with functors := fs } := ⟨hqueue, h.suffix⟩
    exact hrest.cancelInLoop p

theorem addTimerFrom (h : s.Inv) {a : ℕ} (hfree : s.queue.heap.cell a = none)
    (hbound : a < uintptrMax) (time : ℤ) (repeats : Bool) (delta : ℕ) :
    Inv { s.create a time repeats delta with
      functors := s.functors ++ [.addTimerInLoop (s.nextTimer a)] } := by
  refine ⟨(h.create hfree hbound time repeats delta).perm ?_, h.suffix⟩
  change (s.nextTimer a :: (waiting s.functors ++ s.expired)).Perm
    (waiting (s.functors ++ [.addTimerInLoop (s.nextTimer a)]) ++ s.expired)
  rw [waiting_append, List.append_assoc]
  exact List.perm_middle.symm

theorem handleRead (h : s.Inv) (hidle : s.batch = none) :
    ∃ r, TimerAct.handleRead.exec s = some r ∧ r.Inv := by
  obtain ⟨ps, active, heq, hinv, -⟩ := h.queue.beginRead s.clock
  refine ⟨{ s with queue := _, batch := some ⟨s.clock, ps, ps⟩ }, ?_, hinv.perm ?_, ?_⟩
  · rw [TimerAct.exec, if_pos (by rw [hidle]; rfl), heq]
    rfl
  · change (ps ++ (waiting s.functors ++ s.expired)).Perm (waiting s.functors ++ ps)
    rw [expired, hidle]
    simpa using List.perm_append_comm
  · rintro b hb
    obtain rfl := Option.some.inj hb
    exact List.suffix_rfl

theorem mem_elsewhere (hb : s.batch = some b) (hp : p ∈ b.expired) : p ∈ s.elsewhere :=
  List.mem_append_right _ (expired_of_batch hb ▸ hp)

theorem runCallback (h : s.Inv) (hb : s.batch = some b) (hne : b.remaining ≠ []) :
    ∃ r, s.runCallback b = some r ∧ r.Inv := by
  unfold TimerLoop.runCallback
  split
  next hnil => exact absurd hnil hne
  next p ps hps =>
    have hsuffix := h.suffix b hb
    rw [hps] at hsuffix
    have hp : p ∈ b.expired := hsuffix.mem List.mem_cons_self
    obtain ⟨t, ht⟩ := h.queue.pointers.live p (List.mem_append_right _ (mem_elsewhere hb hp))
    rw [ht]
    refine ⟨_, rfl, ?_, ?_⟩
    · have hqueue := h.queue
      rw [elsewhere, expired_of_batch hb] at hqueue
      exact hqueue
    · rintro b' hb'
      obtain rfl := Option.some.inj hb'
      exact (List.suffix_cons p ps).trans hsuffix

theorem queue_of_batch (h : s.Inv) (hb : s.batch = some b) :
    s.queue.Inv [] (b.expired ++ waiting s.functors) := by
  refine h.queue.perm ?_
  rw [elsewhere, expired_of_batch hb]
  exact List.perm_append_comm

theorem endRead (h : s.Inv) (hb : s.batch = some b) (hdone : b.remaining = []) :
    ∃ r, s.endRead b = some r ∧ r.Inv ∧
      ∀ p ∈ b.expired,
        TimerQueue.Settled b.now s.queue.cancelingTimers.elems s.queue r.queue p := by
  obtain ⟨q, fd, hq, heq, hinv⟩ := (h.queue_of_batch hb).endRead b.now s.clock
  have hidle : TimerQueue.Inv [] (b.expired ++ waiting s.functors)
      { s.queue with callingExpiredTimers := false } := { h.queue_of_batch hb with }
  refine ⟨{ s with queue := { q with timerfd := fd }, batch := none }, ?_, ⟨?_, ?_⟩,
    (hidle.settled_resetAll hq).1⟩
  · rw [TimerLoop.endRead, if_pos (by rw [hdone]; rfl), heq]
    rfl
  · refine hinv.perm ?_
    change (waiting s.functors).Perm (waiting s.functors ++ [])
    rw [List.append_nil]
  · nofun

theorem exec (h : s.Inv) {a : TimerAct} (ha : a.Enabled s) : ∃ r, a.exec s = some r ∧ r.Inv := by
  cases a with
  | addTimer a time repeats delta =>
      exact addTimerInLoop (h.create ha.1 ha.2.1 time repeats delta) h.suffix
  | cancel p => exact h.cancelInLoop p
  | runFunctor =>
      rw [TimerAct.exec, if_pos (by rw [ha.1]; rfl)]
      exact h.runFunctor ha.2
  | handleRead => exact h.handleRead ha
  | runCallback =>
      obtain ⟨b, hb, hne⟩ := ha
      rw [TimerAct.exec, hb, Option.bind_some]
      exact h.runCallback hb hne
  | endRead =>
      obtain ⟨b, hb, hdone⟩ := ha
      rw [TimerAct.exec, hb, Option.bind_some]
      obtain ⟨r, hr, hinv, -⟩ := h.endRead hb hdone
      exact ⟨r, hr, hinv⟩
  | addTimerFrom a time repeats delta =>
      exact ⟨_, rfl, h.addTimerFrom ha.1 ha.2.1 time repeats delta⟩
  | cancelFrom p =>
      refine ⟨_, rfl, ?_, h.suffix⟩
      have hqueue := h.queue
      rw [elsewhere] at hqueue ⊢
      rwa [waiting_append, waiting, waiting, List.append_nil]
  | tick d => exact ⟨_, rfl, h.queue, h.suffix⟩
  | expire => exact ⟨_, rfl, h.queue.setTimerfd _, h.suffix⟩

end Inv

/-! ## Cancellations in a batch -/

/-- While a batch runs, `cancelingTimers_` has those of its timers that were
cancelled since it began. -/
def Marked (acts : List TimerAct) (s : TimerLoop) : Prop :=
  ∀ b, s.batch = some b → s.queue.callingExpiredTimers = true ∧
    ∀ p ∈ b.expired, p ∈ s.queue.cancelingTimers ↔ p ∈ cancelledInBatch acts

variable {acts acts' : List TimerAct}

theorem Marked.congr (h : Marked acts s) (hacts : cancelledInBatch acts' = cancelledInBatch acts)
    (hbatch : r.batch = s.batch)
    (hcalling : r.queue.callingExpiredTimers = s.queue.callingExpiredTimers)
    (hcanceling : r.queue.cancelingTimers = s.queue.cancelingTimers) : Marked acts' r := by
  intro b hb
  rw [hcalling, hcanceling, hacts]
  exact h b (hbatch ▸ hb)

theorem Inv.notMem_expired (h : s.Inv) (hb : s.batch = some b) (hp : p ∈ s.queue.activeTimers) :
    p ∉ b.expired := by
  intro hexpired
  have hdistinct := h.queue.pointers.nodup
  rw [List.map_append] at hdistinct
  exact absurd rfl ((List.nodup_append.mp hdistinct).2.2 _ (List.mem_map_of_mem hp) _
    (List.mem_map_of_mem (Inv.mem_elsewhere hb hexpired)))

theorem batch_runFunctor (hr : s.runFunctor = some r) : r.batch = s.batch := by
  unfold TimerLoop.runFunctor at hr
  split at hr
  · cases hr
  · obtain ⟨q, -, rfl⟩ := Option.map_eq_some_iff.mp hr
    rfl
  · obtain ⟨q, -, rfl⟩ := Option.map_eq_some_iff.mp hr
    rfl

theorem eq_of_runCallback (hr : s.runCallback b = some r) :
    ∃ ps, r.batch = some { b with remaining := ps } ∧ r.queue = s.queue := by
  unfold TimerLoop.runCallback at hr
  split at hr
  · cases hr
  · obtain ⟨t, -, rfl⟩ := Option.map_eq_some_iff.mp hr
    exact ⟨_, rfl, rfl⟩

/-- `cancelInLoop` marks a timer of the batch, none of which is in the sets. -/
theorem Marked.cancel (hs : s.Inv) (h : Marked acts s)
    (hr : s.cancelInLoop p = some r) : Marked (acts ++ [.cancel p]) r := by
  obtain ⟨q, hq, rfl⟩ := Option.map_eq_some_iff.mp hr
  intro b hb
  obtain ⟨hcalling, hmarks⟩ := h b hb
  rw [cancelledInBatch_concat]
  by_cases hp : p ∈ s.queue.activeTimers
  · obtain ⟨t, heap, -, -, heq, -⟩ := hs.queue.cancelInLoop_of_mem hp
    obtain rfl := Option.some.inj (heq.symm.trans hq)
    refine ⟨hcalling, fun p' hp' ↦ (hmarks p' hp').trans ?_⟩
    have hne : p' ≠ p := by
      rintro rfl
      exact hs.notMem_expired hb hp hp'
    simp [TimerAct.mark, hne]
  · rw [hs.queue.cancelInLoop_of_notMem hp, TimerQueue.markCanceling, if_pos hcalling] at hq
    obtain rfl := Option.some.inj hq
    refine ⟨hcalling, fun p' hp' ↦ OrderedSet.mem_insert.trans ?_⟩
    rw [hmarks p' hp', TimerAct.mark, List.mem_append, List.mem_singleton]
    exact or_comm

theorem Marked.exec (hs : s.Inv) (h : Marked acts s) {a : TimerAct} (ha : a.Enabled s)
    (hr : a.exec s = some r) : Marked (acts ++ [a]) r := by
  have hsame : (∀ ps, a.mark ps = ps) →
      cancelledInBatch (acts ++ [a]) = cancelledInBatch acts := fun hmark ↦ by
    rw [cancelledInBatch_concat, hmark]
  cases a with
  | addTimer a time repeats delta =>
      obtain ⟨t, fd, -, heq, -, -⟩ :=
        (hs.create ha.1 ha.2.1 time repeats delta).addTimerInLoop s.clock
      have hmap := congrArg (Option.map fun q ↦
        { s.create a time repeats delta with queue := q }) heq
      obtain rfl := Option.some.inj (hmap.symm.trans hr)
      exact h.congr (hsame fun _ ↦ rfl) rfl rfl rfl
  | cancel p => exact h.cancel hs hr
  | runFunctor =>
      -- the loop runs no functor inside a batch
      rw [TimerAct.exec, if_pos (by rw [ha.1]; rfl)] at hr
      intro b hb
      rw [batch_runFunctor hr, ha.1] at hb
      cases hb
  | handleRead =>
      obtain ⟨ps, active, heq, -, -⟩ := hs.queue.beginRead s.clock
      have hidle : s.batch = none := ha
      rw [TimerAct.exec, if_pos (by rw [hidle]; rfl), heq] at hr
      obtain rfl := Option.some.inj hr
      rintro b -
      rw [cancelledInBatch_concat]
      exact ⟨rfl, fun p _ ↦ Iff.rfl⟩
  | runCallback =>
      obtain ⟨b, hb, hne⟩ := ha
      rw [TimerAct.exec, hb, Option.bind_some] at hr
      obtain ⟨ps, hbatch, hqueue⟩ := eq_of_runCallback hr
      intro b' hb'
      obtain rfl := Option.some.inj (hbatch.symm.trans hb')
      rw [hqueue, hsame fun _ ↦ rfl]
      exact h b hb
  | endRead =>
      obtain ⟨b, hb, hdone⟩ := ha
      rw [TimerAct.exec, hb, Option.bind_some, TimerLoop.endRead, if_pos (by rw [hdone]; rfl)] at hr
      obtain ⟨q, -, rfl⟩ := Option.map_eq_some_iff.mp hr
      exact nofun
  | addTimerFrom a time repeats delta =>
      obtain rfl := Option.some.inj hr
      exact h.congr (hsame fun _ ↦ rfl) rfl rfl rfl
  | cancelFrom p =>
      obtain rfl := Option.some.inj hr
      exact h.congr (hsame fun _ ↦ rfl) rfl rfl rfl
  | tick d =>
      obtain rfl := Option.some.inj hr
      exact h.congr (hsame fun _ ↦ rfl) rfl rfl rfl
  | expire =>
      obtain rfl := Option.some.inj hr
      exact h.congr (hsame fun _ ↦ rfl) rfl rfl rfl

/-- What can be said between two operations of the queue, also inside a batch
and between the rounds of `reset`. -/
structure Consistent (acts : List TimerAct) (s : TimerLoop) : Prop where
  agree : s.queue.Agree
  deletedOnce : s.queue.heap.deleted.Nodup
  rounds : ∀ b ps qs, s.batch = some b → b.expired = ps ++ qs →
    ∃ q, s.queue.resetAll b.now ps = some q ∧ q.Agree
  settles : ∀ b, s.batch = some b → b.remaining = [] →
    ∃ r, TimerAct.endRead.exec s = some r ∧
      ∀ p ∈ b.expired, TimerQueue.Settled b.now (cancelledInBatch acts) s.queue r.queue p

theorem Inv.consistent (h : s.Inv) (hmarked : Marked acts s) : s.Consistent acts where
  agree := h.queue.agree
  deletedOnce := s.queue.heap.nodup
  rounds := by
    intro b ps qs hb hsplit
    have hqueue := h.queue_of_batch hb
    rw [hsplit, List.append_assoc] at hqueue
    obtain ⟨q, hq, hinv⟩ := hqueue.resetAll b.now
    exact ⟨q, hq, hinv.agree⟩
  settles := by
    intro b hb hdone
    obtain ⟨r, hr, -, hsettled⟩ := h.endRead hb hdone
    refine ⟨r, ?_, fun p hp ↦ (hsettled p hp).congr ((hmarked b hb).2 p hp).symm⟩
    rw [TimerAct.exec, hb, Option.bind_some, hr]

/-- Every sequence of operations that can happen runs without a failed
assertion or a dangling pointer, and leaves the queue consistent. -/
theorem exists_run_consistent {clock : ℤ} {acts : List TimerAct}
    (hok : EachStep TimerAct.exec TimerAct.Enabled acts (start clock)) :
    ∃ s, runAll TimerAct.exec acts (start clock) = some s ∧ s.Consistent acts := by
  have hstep : ∀ acts a s, s.Inv ∧ Marked acts s → a.Enabled s →
      ∃ r, a.exec s = some r ∧ r.Inv ∧ Marked (acts ++ [a]) r := by
    rintro acts a s ⟨hinv, hmarked⟩ ha
    obtain ⟨r, hr, hinv'⟩ := hinv.exec ha
    exact ⟨r, hr, hinv', hmarked.exec hinv ha hr⟩
  obtain ⟨s, hs, hinv, hmarked⟩ :=
    exists_runAll_history hstep ⟨inv_start clock, nofun⟩ hok
  exact ⟨s, hs, hinv.consistent hmarked⟩

def batchActs : List TimerAct :=
  [.addTimer 16 150 true 1000, .addTimer 32 150 true 500, .tick 100, .expire, .handleRead,
    .runCallback, .cancel ⟨16, 1⟩, .addTimer 48 170 false 0, .runCallback]

/-- Of two timers that expire together and repeat, the first cancels itself in
its callback and adds a third. -/
theorem exists_run_consistent_batch :
    ∃ s r, runAll TimerAct.exec batchActs (start 100) = some s ∧ s.Consistent batchActs ∧
      TimerAct.endRead.exec s = some r ∧ ⟨16, 1⟩ ∉ r.queue.activeTimers ∧
      ⟨32, 2⟩ ∈ r.queue.activeTimers := by
  have hok : EachStep TimerAct.exec TimerAct.Enabled batchActs (start 100) := by
    refine eachStep_cons ⟨rfl, by decide, by decide, by decide, by decide⟩ rfl ?_
    refine eachStep_cons ⟨rfl, by decide, by decide, by decide, by decide⟩ rfl ?_
    refine eachStep_cons (by decide : (100 : ℤ) + (100 : ℕ) < 2 ^ 63) rfl ?_
    refine eachStep_cons ⟨200, rfl, by decide⟩ rfl ?_
    refine eachStep_cons rfl rfl (eachStep_cons ⟨_, rfl, nofun⟩ rfl ?_)
    refine eachStep_cons trivial rfl ?_
    refine eachStep_cons ⟨rfl, by decide, by decide, by decide, by decide⟩ rfl ?_
    exact eachStep_cons ⟨_, rfl, nofun⟩ rfl trivial
  have hrun : ∃ s, runAll TimerAct.exec batchActs (start 100) = some s ∧
      s.batch = some ⟨200, [⟨16, 1⟩, ⟨32, 2⟩], []⟩ ∧
      s.queue.heap.deref ⟨32, 2⟩ = some ⟨150, true, 500, 2⟩ := ⟨_, rfl, rfl, rfl⟩
  obtain ⟨s, hs, hbatch, hrepeats⟩ := hrun
  obtain ⟨s', hs', hconsistent⟩ := exists_run_consistent hok
  obtain rfl := Option.some.inj (hs.symm.trans hs')
  obtain ⟨r, hr, hsettled⟩ := hconsistent.settles _ hbatch rfl
  refine ⟨s, r, hs, hconsistent, hr, ?_, ?_⟩
  · obtain ⟨t, -, h⟩ := hsettled ⟨16, 1⟩ (by decide)
    rw [if_neg fun hagain ↦ hagain.2 (by decide)] at h
    exact h.2.2.1
  · obtain ⟨t, ht, h⟩ := hsettled ⟨32, 2⟩ (by decide)
    obtain rfl := Option.some.inj (hrepeats.symm.trans ht)
    rw [if_pos ⟨rfl, by decide⟩] at h
    exact h.2.1

end TimerLoop

end PpDSCache.Net
