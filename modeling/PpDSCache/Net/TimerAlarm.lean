import PpDSCache.Net.TimerConsistent

/-!
# No timer without an alarm

Outside `handleRead` the descriptor is readable or armed early enough for the
first timer.  Inside a batch only the timers with an invalid time need that:
the end of the batch sets the alarm for the others.
-/

namespace PpDSCache.Net

open Cpp Abstract

/-! ## Arming the descriptor -/

theorem wrapInt64_of_range {v : ℤ} (h : -2 ^ 63 ≤ v) (h' : v < 2 ^ 63) : wrapInt64 v = v := by
  rw [wrapInt64, Int.bmod_def]
  norm_num at h h' ⊢
  omega

theorem wrapInt64_lt (v : ℤ) : wrapInt64 v < 2 ^ 63 := by
  rw [wrapInt64, Int.bmod_def]
  norm_num
  omega

theorem microseconds_split (v : ℤ) (h : 0 ≤ v) :
    (Timespec.mk (v.tdiv 1000000) (v.tmod 1000000 * 1000)).microseconds = v := by
  rw [Timespec.microseconds, Int.tdiv_eq_ediv_of_nonneg h, Int.tmod_eq_emod_of_nonneg h]
  simp only
  omega

theorem howMuchTimeFromNow_eq {time now : ℤ} (h : -2 ^ 63 ≤ time - now)
    (h' : time - now < 2 ^ 63) :
    (howMuchTimeFromNow time now).microseconds = max 100 (time - now) := by
  rw [howMuchTimeFromNow, wrapInt64_of_range h h']
  split_ifs with hshort
  · rw [microseconds_split 100 (by norm_num)]
    omega
  · rw [microseconds_split _ (by omega)]
    omega

namespace Timerfd

variable {fd : Timerfd} {time time' now : ℤ}

/-- The alarm comes no later than `time`, or than the shortest delay allows. -/
def AlarmedFor (fd : Timerfd) (time : ℤ) : Prop :=
  fd.readable = true ∨ ∃ m, fd.armed = some m ∧ m ≤ max time (fd.lastArmed + 100)

theorem AlarmedFor.mono (h : fd.AlarmedFor time) (hle : time ≤ time') : fd.AlarmedFor time' := by
  rcases h with hread | ⟨m, hm, hbound⟩
  · exact .inl hread
  · exact .inr ⟨m, hm, hbound.trans (max_le_max_right _ hle)⟩

theorem alarmedFor_reset (h : -2 ^ 63 ≤ time - now) (h' : time < 2 ^ 63) (hnow : 0 < now) :
    (reset time now).AlarmedFor time := by
  refine .inr ⟨_, rfl, ?_⟩
  rw [howMuchTimeFromNow_eq h (by omega)]
  change now + max 100 (time - now) ≤ max time (now + 100)
  omega

end Timerfd

namespace TimerQueue

variable {q r : TimerQueue} {extra : List ActiveTimer} {p : ActiveTimer} {t : Timer} {now clock : ℤ}

/-- Every timer up to some time has its alarm. -/
def Guarded (upTo : Option ℤ) (q : TimerQueue) : Prop :=
  ∀ e ∈ q.timers, (∀ u ∈ upTo, e.time ≤ u) → q.timerfd.AlarmedFor e.time

/-- The times of the live timers are `int64_t`. -/
def TimesFit (q : TimerQueue) : Prop := ∀ a t, q.heap.cell a = some t → t.expiration < 2 ^ 63

theorem TimesFit.of_deref (h : q.TimesFit) (ht : q.heap.deref p = some t) :
    t.expiration < 2 ^ 63 := h _ t (TimerHeap.deref_eq_some_iff.mp ht).1

theorem TimesFit.new (h : q.TimesFit) {time : ℤ} (htime : time < 2 ^ 63) (a : ℕ) (repeats : Bool)
    (delta : ℕ) : TimesFit { q with heap := q.heap.new a time repeats delta } := by
  intro b t hb
  by_cases heq : b = a
  · subst heq
    obtain rfl := Option.some.inj (TimerHeap.cell_new_self.symm.trans hb)
    exact htime
  · exact h b t ((TimerHeap.cell_new_of_ne heq).symm.trans hb)

theorem TimesFit.deleted {heap : TimerHeap} (h : q.TimesFit)
    (hdel : TimerHeap.Deleted p q.heap heap) : TimesFit { q with heap := heap } := by
  intro a t ha
  by_cases heq : a = p.timer
  · subst heq
    exact absurd (hdel.cell_self.symm.trans ha) (by simp)
  · exact h a t ((hdel.cell_of_ne a heq).symm.trans ha)

theorem TimesFit.restart (h : q.TimesFit) (p : ActiveTimer) (now : ℤ) :
    TimesFit { q with heap := q.heap.restart p now } := by
  intro a t ha
  by_cases heq : a = p.timer
  · subst heq
    obtain ⟨u, hu, rfl⟩ := Option.map_eq_some_iff.mp (TimerHeap.cell_restart_self.symm.trans ha)
    unfold Timer.restart
    split_ifs
    · exact wrapInt64_lt _
    · norm_num
  · exact h a t ((TimerHeap.cell_restart_of_ne heq).symm.trans ha)

/-! ## The operations -/

theorem Guarded.subset {upTo : Option ℤ} (h : q.Guarded upTo)
    (hsub : ∀ e ∈ r.timers, e ∈ q.timers) (hfd : r.timerfd = q.timerfd) : r.Guarded upTo := by
  intro e he hup
  rw [hfd]
  exact h e (hsub e he) hup

theorem earliestChanged_eq_false {time : ℤ} (h : q.earliestChanged time = false) :
    ∃ e ∈ q.timers, e.time ≤ time := by
  unfold earliestChanged at h
  split at h
  · cases h
  next e he =>
    refine ⟨e, OrderedSet.mem_of_first? he, ?_⟩
    simpa using h

theorem le_of_earliestChanged {time : ℤ} (h : q.earliestChanged time = true) {e : Entry}
    (he : e ∈ q.timers) : time ≤ e.time := by
  unfold earliestChanged at h
  split at h
  next hnone => exact absurd he (OrderedSet.first?_eq_none.mp hnone e)
  next f hf =>
    have hlt : time < f.time := by simpa using h
    exact hlt.le.trans (Entry.time_le_of_le (OrderedSet.first?_le hf he))

/-- A new timer sets the alarm if it is the earliest; if not, the alarm of an
earlier one serves it. -/
theorem Guarded.put {upTo : Option ℤ} (h : q.Guarded upTo) (p : ActiveTimer) {time : ℤ}
    (hreset : q.earliestChanged time = true → (Timerfd.reset time now).AlarmedFor time)
    {fd : Timerfd}
    (hfd : fd = if q.earliestChanged time = true then .reset time now else q.timerfd) :
    Guarded upTo { q.put ⟨time, p.timer⟩ p with timerfd := fd } := by
  intro e he hup
  have hcase : e.time = time ∨ e ∈ q.timers :=
    (OrderedSet.mem_insert.mp he).imp_left fun heq ↦ by rw [heq]
  change fd.AlarmedFor e.time
  rw [hfd]
  split_ifs with hearly
  · refine (hreset hearly).mono ?_
    rcases hcase with htime | hold
    · exact htime.ge
    · exact le_of_earliestChanged hearly hold
  · rcases hcase with htime | hold
    · obtain ⟨f, hf, hle⟩ := earliestChanged_eq_false (Bool.eq_false_iff.mpr hearly)
      rw [← htime] at hle
      exact (h f hf fun u hu ↦ hle.trans (hup u hu)).mono hle
    · exact h e hold hup

/-- `reset` puts back timers with valid times only. -/
theorem Inv.timers_resetAll {ps : List ActiveTimer} (h : Inv [] (ps ++ extra) q)
    (hvalid : ∀ p ∈ ps, ∀ t, q.heap.deref p = some t → t.repeats = true →
      p ∉ q.cancelingTimers → 0 < (t.restart now).expiration)
    (hfit : q.TimesFit) (hr : q.resetAll now ps = some r) :
    (∀ e ∈ r.timers, e ∈ q.timers ∨ 0 < e.time) ∧ r.timerfd = q.timerfd ∧ r.TimesFit := by
  induction ps generalizing q with
  | nil =>
      obtain rfl : q = r := Option.some.inj hr
      exact ⟨fun e he ↦ .inl he, rfl, hfit⟩
  | cons p ps ih =>
      rw [TimerQueue.resetAll, Option.bind_eq_some_iff] at hr
      obtain ⟨q₁, hq₁, hr⟩ := hr
      have hframe := (h.settled_resetOne hq₁).2
      obtain ⟨t, q₂, ht, hq₂, hinv, hcase⟩ := h.resetOne now
      obtain rfl : q₂ = q₁ := Option.some.inj (hq₂.symm.trans hq₁)
      have hone : (∀ e ∈ q₂.timers, e ∈ q.timers ∨ 0 < e.time) ∧ q₂.timerfd = q.timerfd ∧
          q₂.TimesFit := by
        rcases hcase with ⟨hrepeats, hcancel, rfl⟩ | ⟨-, heap, hdel, rfl⟩
        · refine ⟨fun e he ↦ ?_, rfl, hfit.restart p now⟩
          rcases OrderedSet.mem_insert.mp he with rfl | hold
          · exact .inr (hvalid p List.mem_cons_self t ht hrepeats hcancel)
          · exact .inl hold
        · exact ⟨fun e he ↦ .inl he, rfl, hfit.deleted hdel⟩
      have hrest := ih hinv (fun p' hp' u hu hrepeats hcancel ↦ ?_) hone.2.2 hr
      · refine ⟨fun e he ↦ ?_, hrest.2.1.trans hone.2.1, hrest.2.2⟩
        rcases hrest.1 e he with hold | hpos
        · exact hone.1 e hold
        · exact .inr hpos
      · have hne : p'.timer ≠ p.timer :=
          h.ne_head (List.mem_append_right _ (List.mem_append_left _ hp'))
        rw [TimerHeap.deref_congr (hframe.cell _ hne)] at hu
        rw [hframe.canceling] at hcancel
        exact hvalid p' (List.mem_cons_of_mem p hp') u hu hrepeats hcancel

/-- The end of `reset` sees to every timer, if those with invalid times have
their alarm. -/
theorem Inv.guarded_rearm (h : Inv [] extra q) (hguarded : q.Guarded (some 0)) (hfit : q.TimesFit)
    (hclock : 0 < clock) (hfits : clock < 2 ^ 63) (hr : q.rearm clock = some r) :
    r.Guarded none ∧ r.timers = q.timers ∧ r.heap = q.heap := by
  unfold TimerQueue.rearm at hr
  split at hr
  next hnone =>
    obtain rfl := Option.some.inj hr
    exact ⟨fun e he ↦ absurd he (OrderedSet.first?_eq_none.mp hnone e), rfl, rfl⟩
  next e he =>
    obtain ⟨p, hp, t, ht, rfl⟩ := h.mem_timers.mp (OrderedSet.mem_of_first? he)
    rw [(TimerHeap.deref_eq_some_iff.mp ht).1, Option.map_some] at hr
    obtain rfl := Option.some.inj hr
    have hlt := hfit.of_deref ht
    have hmin : ∀ f ∈ q.timers, t.expiration ≤ f.time :=
      fun f hf ↦ Entry.time_le_of_le (OrderedSet.first?_le he hf)
    split_ifs with hpos
    · refine ⟨fun f hf _ ↦ ?_, rfl, rfl⟩
      have hover : -2 ^ 63 ≤ t.expiration - clock := by omega
      exact (Timerfd.alarmedFor_reset hover hlt hclock).mono (hmin f hf)
    · refine ⟨fun f hf _ ↦ ?_, rfl, rfl⟩
      have hfirst : q.timerfd.AlarmedFor t.expiration := by
        refine hguarded _ (OrderedSet.mem_of_first? he) fun u hu ↦ ?_
        rw [← Option.some.inj hu]
        exact not_lt.mp hpos
      exact hfirst.mono (hmin f hf)

end TimerQueue

/-! ## Runs -/

/-- The condition on a step: the difference between the time of a new earliest
timer and the clock is an `int64_t`, and so is the next time of a timer that
repeats. -/
def TimerAct.NoOverflow (a : TimerAct) (s : TimerLoop) : Prop :=
  match a with
  | addTimer _ time _ _ => s.queue.earliestChanged time = true → -2 ^ 63 ≤ time - s.clock
  | runFunctor => ∀ p fs t, s.functors = .addTimerInLoop p :: fs → s.queue.heap.deref p = some t →
      s.queue.earliestChanged t.expiration = true → -2 ^ 63 ≤ t.expiration - s.clock
  | endRead => ∀ b p t, s.batch = some b → p ∈ b.expired → s.queue.heap.deref p = some t →
      t.repeats = true → p ∉ s.queue.cancelingTimers → b.now + t.delta < 2 ^ 63
  | _ => True

namespace TimerLoop

/-- The timers that must have their alarm now: all of them, or inside a batch
those that its end will pass over. -/
def guardedUpTo (s : TimerLoop) : Option ℤ := s.batch.map fun _ ↦ 0

structure AlarmInv (s : TimerLoop) : Prop where
  inv : s.Inv
  clock : 0 < s.clock ∧ s.clock < 2 ^ 63
  started : ∀ b, s.batch = some b → 0 < b.now ∧ b.now < 2 ^ 63
  fit : s.queue.TimesFit
  guarded : s.queue.Guarded s.guardedUpTo

variable {s r : TimerLoop} {p : ActiveTimer} {b : Batch}

namespace AlarmInv

theorem addTimerInLoop (h : s.queue.Inv [] (p :: s.elsewhere))
    (hclock : 0 < s.clock) (hfit : s.queue.TimesFit) (hguarded : s.queue.Guarded s.guardedUpTo)
    (hover : ∀ t, s.queue.heap.deref p = some t →
      s.queue.earliestChanged t.expiration = true → -2 ^ 63 ≤ t.expiration - s.clock)
    (hr : s.addTimerInLoop p = some r) :
    r.clock = s.clock ∧ r.batch = s.batch ∧ r.queue.TimesFit ∧ r.queue.Guarded r.guardedUpTo := by
  obtain ⟨t, fd, ht, heq, hfd, -⟩ := h.addTimerInLoop s.clock
  have hmap := congrArg (Option.map fun q ↦ { s with queue := q }) heq
  obtain rfl := Option.some.inj (hmap.symm.trans hr)
  refine ⟨rfl, rfl, hfit, hguarded.put p (fun hearly ↦ ?_) hfd⟩
  exact Timerfd.alarmedFor_reset (hover t ht hearly) (hfit.of_deref ht) hclock

theorem cancelInLoop (h : s.AlarmInv) (hr : s.cancelInLoop p = some r) :
    r.clock = s.clock ∧ r.batch = s.batch ∧ r.queue.TimesFit ∧ r.queue.Guarded r.guardedUpTo := by
  obtain ⟨q, hq, rfl⟩ := Option.map_eq_some_iff.mp hr
  refine ⟨rfl, rfl, ?_⟩
  by_cases hp : p ∈ s.queue.activeTimers
  · obtain ⟨t, heap, -, hdel, heq, -⟩ := h.inv.queue.cancelInLoop_of_mem hp
    obtain rfl := Option.some.inj (heq.symm.trans hq)
    have hsub : ∀ e ∈ s.queue.timers.erase ⟨t.expiration, p.timer⟩, e ∈ s.queue.timers :=
      fun e he ↦ (OrderedSet.mem_erase.mp he).2
    exact ⟨h.fit.deleted hdel, h.guarded.subset hsub rfl⟩
  · rw [h.inv.queue.cancelInLoop_of_notMem hp] at hq
    obtain rfl := Option.some.inj hq
    unfold TimerQueue.markCanceling
    split_ifs
    · exact ⟨h.fit, h.guarded⟩
    · exact ⟨h.fit, h.guarded⟩

theorem handleRead (h : s.AlarmInv) (hidle : s.batch = none)
    (hr : TimerAct.handleRead.exec s = some r) :
    r.clock = s.clock ∧ (∀ b, r.batch = some b → b.now = s.clock) ∧ r.queue.TimesFit ∧
      r.queue.Guarded r.guardedUpTo := by
  obtain ⟨ps, active, heq, -⟩ := h.inv.queue.beginRead s.clock
  rw [TimerAct.exec, if_pos (by rw [hidle]; rfl), heq] at hr
  obtain rfl := Option.some.inj hr
  refine ⟨rfl, ?_, h.fit, ?_⟩
  · rintro b hb
    obtain rfl := Option.some.inj hb
    rfl
  · intro e he hup
    -- what is left expires after `now`, which is positive
    have hlater : s.clock < e.time := by
      obtain ⟨f, hf⟩ := OrderedSet.exists_first? he
      have hfirst := h.inv.queue.laterThan_dropExpired s.clock f hf
      exact hfirst.trans_le (Entry.time_le_of_le (OrderedSet.first?_le hf he))
    have hle := hup 0 rfl
    have hpos := h.clock.1
    omega

theorem endRead (h : s.AlarmInv) (hb : s.batch = some b) (hdone : b.remaining = [])
    (hover : TimerAct.endRead.NoOverflow s) (hr : s.endRead b = some r) :
    r.clock = s.clock ∧ r.batch = none ∧ r.queue.TimesFit ∧ r.queue.Guarded none := by
  have hqueue : TimerQueue.Inv [] (b.expired ++ waiting s.functors)
      { s.queue with callingExpiredTimers := false } := { h.inv.queue_of_batch hb with }
  rw [TimerLoop.endRead, if_pos (by rw [hdone]; rfl)] at hr
  obtain ⟨q, hq, rfl⟩ := Option.map_eq_some_iff.mp hr
  rw [TimerQueue.endRead, TimerQueue.reset, Option.bind_eq_some_iff] at hq
  obtain ⟨q', hreset, hrearm⟩ := hq
  obtain ⟨hpos, hlt⟩ := h.started b hb
  have hvalid : ∀ p ∈ b.expired, ∀ t, s.queue.heap.deref p = some t → t.repeats = true →
      p ∉ s.queue.cancelingTimers → 0 < (t.restart b.now).expiration := by
    intro p hp t ht hrepeats hcancel
    have hfits := hover b p t hb hp ht hrepeats hcancel
    have heq : (t.restart b.now).expiration = b.now + t.delta := by
      rw [Timer.restart, if_pos hrepeats]
      exact wrapInt64_of_range (by omega) hfits
    omega
  obtain ⟨htimers, hfd, hfit⟩ := hqueue.timers_resetAll hvalid h.fit hreset
  obtain ⟨q'', hreset', hinv⟩ := hqueue.resetAll b.now
  obtain rfl : q'' = q' := Option.some.inj (hreset'.symm.trans hreset)
  have hguarded : q''.Guarded (some 0) := by
    intro e he hup
    rw [hfd]
    rcases htimers e he with hold | hvalid
    · refine h.guarded e hold ?_
      rw [guardedUpTo, hb]
      exact hup
    · exact absurd (hup 0 rfl) (not_le.mpr hvalid)
  obtain ⟨hall, htimes, hheap⟩ := hinv.guarded_rearm hguarded hfit h.clock.1 h.clock.2 hrearm
  refine ⟨rfl, rfl, ?_, hall⟩
  intro a t ha
  change q.heap.cell a = some t at ha
  rw [hheap] at ha
  exact hfit a t ha

/-- What a step leaves alone of the clock and the batch. -/
theorem of_kept (h : s.AlarmInv) (hinv : r.Inv) (hkept : r.clock = s.clock ∧ r.batch = s.batch ∧
    r.queue.TimesFit ∧ r.queue.Guarded r.guardedUpTo) : r.AlarmInv := by
  obtain ⟨hclock, hbatch, hfit, hguarded⟩ := hkept
  exact ⟨hinv, hclock ▸ h.clock, hbatch ▸ h.started, hfit, hguarded⟩

theorem exec (h : s.AlarmInv) {a : TimerAct} (ha : a.Enabled s) (hover : a.NoOverflow s)
    (hr : a.exec s = some r) : r.AlarmInv := by
  obtain ⟨r', hr', hinv⟩ := h.inv.exec ha
  obtain rfl : r' = r := Option.some.inj (hr'.symm.trans hr)
  cases a with
  | addTimer a time repeats delta =>
      obtain ⟨hfree, hbound, -, htime, -⟩ := ha
      refine h.of_kept hinv (addTimerInLoop (s := s.create a time repeats delta)
        (h.inv.create hfree hbound time repeats delta) h.clock.1 (h.fit.new htime a repeats delta)
        h.guarded (fun t ht ↦ ?_) hr)
      obtain rfl := Option.some.inj (TimerHeap.deref_new_self.symm.trans ht)
      exact hover
  | cancel p => exact h.of_kept hinv (h.cancelInLoop hr)
  | runFunctor =>
      rw [TimerAct.exec, if_pos (by rw [ha.1]; rfl)] at hr
      unfold TimerLoop.runFunctor at hr
      split at hr
      · cases hr
      next p fs hfs =>
        have hqueue := h.inv.queue
        rw [elsewhere, hfs] at hqueue
        have hkept := addTimerInLoop (s := { s with functors := fs }) hqueue h.clock.1 h.fit
          h.guarded (fun t ht ↦ hover p fs t hfs ht) hr
        exact h.of_kept hinv hkept
      next p fs hfs =>
        have hqueue := h.inv.queue
        rw [elsewhere, hfs] at hqueue
        have hrest : AlarmInv { s with functors := fs } :=
          ⟨⟨hqueue, h.inv.suffix⟩, h.clock, h.started, h.fit, h.guarded⟩
        exact h.of_kept hinv (hrest.cancelInLoop hr)
  | handleRead =>
      obtain ⟨hclock, hbatch, hfit, hguarded⟩ := h.handleRead ha hr
      refine ⟨hinv, hclock ▸ h.clock, fun b hb ↦ ?_, hfit, hguarded⟩
      rw [hbatch b hb]
      exact h.clock
  | runCallback =>
      obtain ⟨b, hb, hne⟩ := ha
      rw [TimerAct.exec, hb, Option.bind_some] at hr
      unfold TimerLoop.runCallback at hr
      split at hr
      · cases hr
      next p ps hps =>
        obtain ⟨t, -, rfl⟩ := Option.map_eq_some_iff.mp hr
        refine ⟨hinv, h.clock, ?_, h.fit, ?_⟩
        · rintro b' hb'
          obtain rfl := Option.some.inj hb'
          exact h.started b hb
        · have hguarded := h.guarded
          rw [guardedUpTo, hb] at hguarded
          exact hguarded
  | endRead =>
      obtain ⟨b, hb, hdone⟩ := ha
      rw [TimerAct.exec, hb, Option.bind_some] at hr
      obtain ⟨hclock, hbatch, hfit, hguarded⟩ := h.endRead hb hdone hover hr
      refine ⟨hinv, hclock ▸ h.clock, fun b' hb' ↦ ?_, hfit, ?_⟩
      · exact absurd (hbatch.symm.trans hb') (by simp)
      · rw [guardedUpTo, hbatch]
        exact hguarded
  | addTimerFrom a time repeats delta =>
      obtain rfl := Option.some.inj hr
      exact ⟨hinv, h.clock, h.started, h.fit.new ha.2.2.2.1 a repeats delta, h.guarded⟩
  | cancelFrom p =>
      obtain rfl := Option.some.inj hr
      exact ⟨hinv, h.clock, h.started, h.fit, h.guarded⟩
  | tick d =>
      obtain rfl := Option.some.inj hr
      have hpos := h.clock.1
      have hlt : s.clock + d < 2 ^ 63 := ha
      exact ⟨hinv, ⟨by change 0 < s.clock + d; omega, hlt⟩, h.started, h.fit, h.guarded⟩
  | expire =>
      obtain rfl := Option.some.inj hr
      exact ⟨hinv, h.clock, h.started, h.fit, fun e _ _ ↦ .inl rfl⟩

end AlarmInv

/-- In every run without an overflow, whenever the queue is not in
`handleRead` the first timer has its alarm. -/
theorem alarmed_of_noOverflow {clock : ℤ} (hclock : 0 < clock ∧ clock < 2 ^ 63)
    {acts : List TimerAct}
    (hok : EachStep TimerAct.exec (fun a s ↦ a.Enabled s ∧ a.NoOverflow s) acts (start clock))
    (hrun : runAll TimerAct.exec acts (start clock) = some s) (hidle : s.batch = none) {e : Entry}
    (he : s.queue.timers.first? = some e) : s.queue.timerfd.AlarmedFor e.time := by
  have hstart : (start clock).AlarmInv :=
    ⟨inv_start clock, hclock, nofun, nofun, fun e he ↦ absurd he OrderedSet.notMem_empty⟩
  have h : s.AlarmInv :=
    runAll_invariant (fun a s r hs ha hr ↦ hs.exec ha.1 ha.2 hr) hstart hok hrun
  have hguarded := h.guarded
  rw [guardedUpTo, hidle] at hguarded
  exact hguarded e (OrderedSet.mem_of_first? he) nofun

/-- A callback adds a timer in the past, which the end of the batch passes
over. -/
theorem alarmed_of_noOverflow_invalid :
    ∃ s, runAll TimerAct.exec ([.addTimer 16 150 true 1000, .tick 100, .expire, .handleRead,
        .runCallback, .addTimer 32 (-5) false 0, .endRead] : List TimerAct) (start 100) = some s ∧
      s.queue.timers.first? = some ⟨-5, 32⟩ ∧ s.queue.timerfd.AlarmedFor (-5) := by
  have hrun : ∃ s, runAll TimerAct.exec ([.addTimer 16 150 true 1000, .tick 100, .expire,
      .handleRead, .runCallback, .addTimer 32 (-5) false 0, .endRead] : List TimerAct)
      (start 100) = some s ∧ s.queue.timers.first? = some ⟨-5, 32⟩ ∧ s.batch = none :=
    ⟨_, rfl, rfl, rfl⟩
  obtain ⟨s, hrun, hfirst, hidle⟩ := hrun
  refine ⟨s, hrun, hfirst, alarmed_of_noOverflow (by norm_num) ?_ hrun hidle hfirst⟩
  refine eachStep_cons ⟨⟨rfl, by decide, by decide, by decide, by decide⟩, fun _ ↦ by decide⟩ rfl ?_
  refine eachStep_cons ⟨(by decide : (100 : ℤ) + (100 : ℕ) < 2 ^ 63), trivial⟩ rfl ?_
  refine eachStep_cons ⟨⟨200, rfl, by decide⟩, trivial⟩ rfl ?_
  refine eachStep_cons ⟨rfl, trivial⟩ rfl (eachStep_cons ⟨⟨_, rfl, nofun⟩, trivial⟩ rfl ?_)
  refine eachStep_cons ⟨⟨rfl, by decide, by decide, by decide, by decide⟩, fun _ ↦ by decide⟩ rfl ?_
  refine eachStep_cons ⟨⟨_, rfl, rfl⟩, ?_⟩ rfl trivial
  intro b p t hb hp ht _ _
  obtain rfl := Option.some.inj hb
  obtain rfl := List.mem_singleton.mp hp
  obtain rfl := Option.some.inj ht
  decide

/-- The least time there is: the difference to the clock wraps around, and the
alarm is set for a moment long after. -/
theorem not_alarmed_overflow :
    ∃ s, runAll TimerAct.exec ([.addTimer 16 (-2 ^ 63) false 0] : List TimerAct)
        (start 100) = some s ∧
      EachStep TimerAct.exec TimerAct.Enabled ([.addTimer 16 (-2 ^ 63) false 0] : List TimerAct)
        (start 100) ∧
      s.batch = none ∧ s.queue.timers.first? = some ⟨-2 ^ 63, 16⟩ ∧
      ¬ s.queue.timerfd.AlarmedFor (-2 ^ 63) := by
  refine ⟨_, rfl, ?_, rfl, rfl, ?_⟩
  · exact eachStep_cons ⟨rfl, by decide, by decide, by decide, by decide⟩ rfl trivial
  · rintro (hread | ⟨m, hm, hle⟩)
    · cases hread
    · obtain rfl := Option.some.inj hm
      exact absurd hle (by decide)

end TimerLoop

end PpDSCache.Net
