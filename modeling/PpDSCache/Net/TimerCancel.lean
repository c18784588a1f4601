import PpDSCache.Net.TimerConsistent

/-!
# Cancelled timers

`cancelInLoop` removes a timer that is in the sets, and keeps one whose
callback has been started in the batch from being put back.  It does not reach
a timer whose callback the batch has still to start, nor one that waits to be
inserted.
-/

namespace PpDSCache.Net

open Cpp Abstract

/-- No object is new: a cell holds what it held, up to the time. -/
structure TimerHeap.Shrinks (h h' : TimerHeap) : Prop where
  numCreated : h'.numCreated = h.numCreated
  cell : ∀ a t, h'.cell a = some t → ∃ u, h.cell a = some u ∧ u.sequence = t.sequence

namespace TimerHeap

variable {h h' h'' : TimerHeap} {p : ActiveTimer}

theorem Shrinks.refl (h : TimerHeap) : Shrinks h h := ⟨rfl, fun _ t ht ↦ ⟨t, ht, rfl⟩⟩

theorem Shrinks.trans (h₁ : Shrinks h h') (h₂ : Shrinks h' h'') : Shrinks h h'' := by
  refine ⟨h₂.numCreated.trans h₁.numCreated, fun a t ht ↦ ?_⟩
  obtain ⟨u, hu, hut⟩ := h₂.cell a t ht
  obtain ⟨v, hv, hvu⟩ := h₁.cell a u hu
  exact ⟨v, hv, hvu.trans hut⟩

theorem shrinks_restart (h : TimerHeap) (p : ActiveTimer) (now : ℤ) :
    Shrinks h (h.restart p now) := ⟨rfl, fun _ _ ha ↦ exists_of_update ha⟩

theorem Deleted.shrinks (hdel : Deleted p h h') : Shrinks h h' := by
  refine ⟨hdel.numCreated, fun a t ha ↦ ?_⟩
  by_cases heq : a = p.timer
  · subst heq
    exact absurd (hdel.cell_self.symm.trans ha) (by simp)
  · exact ⟨t, (hdel.cell_of_ne a heq).symm.trans ha, rfl⟩

end TimerHeap

namespace TimerQueue

variable {q r : TimerQueue} {extra : List ActiveTimer} {p : ActiveTimer} {now clock : ℤ}

theorem Inv.shrinks_resetAll {ps : List ActiveTimer} (h : Inv [] (ps ++ extra) q)
    (hr : q.resetAll now ps = some r) :
    q.heap.Shrinks r.heap ∧ r.callingExpiredTimers = q.callingExpiredTimers := by
  induction ps generalizing q with
  | nil =>
      obtain rfl : q = r := Option.some.inj hr
      exact ⟨.refl _, rfl⟩
  | cons p ps ih =>
      rw [TimerQueue.resetAll, Option.bind_eq_some_iff] at hr
      obtain ⟨q₁, hq₁, hr⟩ := hr
      obtain ⟨t, q₂, -, hq₂, hinv, hcase⟩ := h.resetOne now
      obtain rfl : q₂ = q₁ := Option.some.inj (hq₂.symm.trans hq₁)
      obtain ⟨hshrinks, hcalling⟩ := ih hinv hr
      rcases hcase with ⟨-, -, rfl⟩ | ⟨-, heap, hdel, rfl⟩
      · exact ⟨(q.heap.shrinks_restart p now).trans hshrinks, hcalling⟩
      · exact ⟨hdel.shrinks.trans hshrinks, hcalling⟩

theorem Inv.active_resetAll {ps : List ActiveTimer} (h : Inv [] (ps ++ extra) q)
    (hr : q.resetAll now ps = some r) (hp : p ∈ r.activeTimers) :
    p ∈ q.activeTimers ∨ p ∈ ps := by
  induction ps generalizing q with
  | nil =>
      obtain rfl : q = r := Option.some.inj hr
      exact .inl hp
  | cons p' ps ih =>
      rw [TimerQueue.resetAll, Option.bind_eq_some_iff] at hr
      obtain ⟨q₁, hq₁, hr⟩ := hr
      obtain ⟨t, q₂, -, hq₂, hinv, hcase⟩ := h.resetOne now
      obtain rfl : q₂ = q₁ := Option.some.inj (hq₂.symm.trans hq₁)
      rcases ih hinv hr with hold | hps
      · rcases hcase with ⟨-, -, rfl⟩ | ⟨-, heap, -, rfl⟩
        · rcases OrderedSet.mem_insert.mp hold with rfl | hold
          · exact .inr List.mem_cons_self
          · exact .inl hold
        · exact .inl hold
      · exact .inr (List.mem_cons_of_mem p' hps)

/-- `reset` does not put back a timer that was cancelled in the batch. -/
theorem Inv.notMem_resetAll {ps : List ActiveTimer} (h : Inv [] (ps ++ extra) q)
    (hr : q.resetAll now ps = some r) (hp : p ∉ q.activeTimers)
    (hcancel : p ∈ ps → p ∈ q.cancelingTimers) : p ∉ r.activeTimers := by
  intro hmem
  rcases h.active_resetAll hr hmem with hold | hps
  · exact hp hold
  · obtain ⟨t, -, hsettled⟩ := (h.settled_resetAll hr).1 p hps
    rw [if_neg fun hagain ↦ hagain.2 (hcancel hps)] at hsettled
    exact hsettled.2.2.1 hmem

end TimerQueue

namespace TimerLoop

/-- `cancelInLoop` has an effect on the timer: it does not wait to be inserted,
and its callback is not one that the batch has still to start. -/
def Reached (s : TimerLoop) (p : ActiveTimer) : Prop :=
  p ∉ waiting s.functors ∧ ∀ b, s.batch = some b → p ∉ b.remaining

/-- Nothing that can happen starts the callback of the timer. -/
structure Inert (s : TimerLoop) (p : ActiveTimer) : Prop where
  active : p ∉ s.queue.activeTimers
  waiting : p ∉ waiting s.functors
  remaining : ∀ b, s.batch = some b → p ∉ b.remaining
  canceling : ∀ b, s.batch = some b → p ∈ b.expired → p ∈ s.queue.cancelingTimers

/-- No callback was started after the `cancelInLoop` for its timer. -/
def NotStartedAgain (s : TimerLoop) : Prop :=
  ∀ c ∈ s.cancelled, s.started.count c.1.sequence = c.2

end TimerLoop

namespace TimerAct

open TimerLoop

/-- Ids come from `addTimer`. -/
def UsesIssued (a : TimerAct) (s : TimerLoop) : Prop :=
  match a with
  | cancel p | cancelFrom p => p ∈ s.issued
  | _ => True

/-- The condition on a step that executes `cancelInLoop`. -/
def CancelReaches (a : TimerAct) (s : TimerLoop) : Prop :=
  match a with
  | cancel p => s.Reached p
  | runFunctor => ∀ p fs, s.functors = .cancelInLoop p :: fs → s.Reached p
  | _ => True

end TimerAct

namespace TimerLoop

structure CancelInv (s : TimerLoop) : Prop where
  inv : s.Inv
  calling : s.queue.callingExpiredTimers = s.batch.isSome
  issued_le : ∀ p ∈ s.issued, p.sequence ≤ s.queue.heap.numCreated
  issued_timer : ∀ p ∈ s.issued, ∀ a t, s.queue.heap.cell a = some t → t.sequence = p.sequence →
    p.timer = a
  functors : ∀ p, .cancelInLoop p ∈ s.functors → p ∈ s.issued
  cancelled : ∀ c ∈ s.cancelled, c.1 ∈ s.issued ∧ s.Inert c.1
  quiet : s.NotStartedAgain

variable {s r : TimerLoop} {p p' : ActiveTimer} {b : Batch} {a : ℕ} {time : ℤ} {repeats : Bool}
  {delta : ℕ}

theorem cancelInv_start (clock : ℤ) : (start clock).CancelInv where
  inv := inv_start clock
  calling := rfl
  issued_le := nofun
  issued_timer := nofun
  functors := nofun
  cancelled := nofun
  quiet := nofun

namespace CancelInv

/-- A pointer in use with the sequence number of an issued id is that id. -/
theorem eq_of_sequence (h : s.CancelInv) (hp : p ∈ s.issued)
    (hp' : p' ∈ s.queue.activeTimers.elems ++ s.elsewhere) (hseq : p'.sequence = p.sequence) :
    p = p' := by
  obtain ⟨t, ht⟩ := h.inv.queue.pointers.live p' hp'
  obtain ⟨hcell, ht'⟩ := TimerHeap.deref_eq_some_iff.mp ht
  have htimer := h.issued_timer p hp _ t hcell (ht'.trans hseq)
  obtain ⟨a, n⟩ := p
  obtain ⟨a', n'⟩ := p'
  simp only at hseq htimer
  rw [hseq, htimer]

theorem ne_nextTimer (h : s.CancelInv) (hp : p ∈ s.issued) (a : ℕ) : p ≠ s.nextTimer a := by
  rintro rfl
  exact absurd (h.issued_le _ hp) (Nat.not_succ_le_self _)

/-- The invariant after a timer was created, with its id issued. -/
theorem create (h : s.CancelInv) (time : ℤ) (repeats : Bool) (delta : ℕ) :
    (∀ p ∈ (s.create a time repeats delta).issued,
        p.sequence ≤ (s.create a time repeats delta).queue.heap.numCreated) ∧
      ∀ p ∈ (s.create a time repeats delta).issued, ∀ b t,
        (s.create a time repeats delta).queue.heap.cell b = some t → t.sequence = p.sequence →
        p.timer = b := by
  constructor
  · intro p hp
    rcases List.mem_append.mp hp with hold | hnew
    · exact (h.issued_le p hold).trans (Nat.le_succ _)
    · rw [List.mem_singleton.mp hnew]
      exact le_rfl
  · intro p hp b t hb hseq
    by_cases hba : b = a
    · subst hba
      obtain rfl := Option.some.inj (TimerHeap.cell_new_self.symm.trans hb)
      rcases List.mem_append.mp hp with hold | hnew
      · have hle := h.issued_le p hold
        rw [← hseq] at hle
        exact absurd hle (Nat.not_succ_le_self _)
      · rw [List.mem_singleton.mp hnew]
        rfl
    · have hcell := (TimerHeap.cell_new_of_ne hba).symm.trans hb
      rcases List.mem_append.mp hp with hold | hnew
      · exact h.issued_timer p hold b t hcell hseq
      · rw [List.mem_singleton.mp hnew] at hseq
        have hle := s.queue.heap.cell_le hcell
        rw [hseq] at hle
        exact absurd hle (Nat.not_succ_le_self _)

theorem addTimer (h : s.CancelInv) (hfree : s.queue.heap.cell a = none) (hbound : a < uintptrMax)
    (hinv : r.Inv)
    (hr : (s.create a time repeats delta).addTimerInLoop (s.nextTimer a) = some r) :
    r.CancelInv := by
  obtain ⟨t, fd, -, heq, -, -⟩ :=
    (h.inv.create hfree hbound time repeats delta).addTimerInLoop s.clock
  have hmap := congrArg (Option.map fun q ↦
    { s.create a time repeats delta with queue := q }) heq
  obtain rfl := Option.some.inj (hmap.symm.trans hr)
  obtain ⟨hle, htimer⟩ := h.create (a := a) time repeats delta
  refine ⟨hinv, h.calling, hle, htimer, fun p hp ↦ List.mem_append_left _ (h.functors p hp),
    fun c hc ↦ ?_, h.quiet⟩
  obtain ⟨hissued, hinert⟩ := h.cancelled c hc
  refine ⟨List.mem_append_left _ hissued, ?_, hinert.waiting, hinert.remaining, hinert.canceling⟩
  intro hmem
  rcases OrderedSet.mem_insert.mp hmem with hnew | hold
  · exact h.ne_nextTimer hissued a hnew
  · exact hinert.active hold

theorem addTimerFrom (h : s.CancelInv) (hinv : Inv { s.create a time repeats delta with
      functors := s.functors ++ [.addTimerInLoop (s.nextTimer a)] }) :
    CancelInv { s.create a time repeats delta with
      functors := s.functors ++ [.addTimerInLoop (s.nextTimer a)] } := by
  obtain ⟨hle, htimer⟩ := h.create (a := a) time repeats delta
  refine ⟨hinv, h.calling, hle, htimer, fun p hp ↦ ?_, fun c hc ↦ ?_, h.quiet⟩
  · rcases List.mem_append.mp hp with hold | hnew
    · exact List.mem_append_left _ (h.functors p hold)
    · simp at hnew
  · obtain ⟨hissued, hinert⟩ := h.cancelled c hc
    refine ⟨List.mem_append_left _ hissued, hinert.active, fun hmem ↦ ?_, hinert.remaining,
      hinert.canceling⟩
    change c.1 ∈ waiting (s.functors ++ [.addTimerInLoop (s.nextTimer a)]) at hmem
    rw [waiting_append, List.mem_append] at hmem
    rcases hmem with hold | hnew
    · exact hinert.waiting hold
    · exact h.ne_nextTimer hissued a (List.mem_singleton.mp hnew)

/-- The functor inserts a timer that was not cancelled, since it has waited. -/
theorem runAdd (h : s.CancelInv) {fs : List TimerFunctor}
    (hfs : s.functors = .addTimerInLoop p :: fs) (hinv : r.Inv)
    (hr : TimerLoop.addTimerInLoop p { s with functors := fs } = some r) : r.CancelInv := by
  have hqueue := h.inv.queue
  rw [elsewhere, hfs] at hqueue
  obtain ⟨t, fd, -, heq, -, -⟩ := hqueue.addTimerInLoop s.clock
  have hmap := congrArg (Option.map fun q ↦ { s with functors := fs, queue := q }) heq
  obtain rfl := Option.some.inj (hmap.symm.trans hr)
  refine ⟨hinv, h.calling, h.issued_le, h.issued_timer, fun p' hp' ↦ ?_, fun c hc ↦ ?_, h.quiet⟩
  · refine h.functors p' ?_
    rw [hfs]
    exact List.mem_cons_of_mem _ hp'
  · obtain ⟨hissued, hinert⟩ := h.cancelled c hc
    have hwaiting := hinert.waiting
    rw [hfs, waiting, List.mem_cons, not_or] at hwaiting
    refine ⟨hissued, fun hmem ↦ ?_, hwaiting.2, hinert.remaining, hinert.canceling⟩
    rcases OrderedSet.mem_insert.mp hmem with hnew | hold
    · exact hwaiting.1 hnew
    · exact hinert.active hold

/-- After `cancelInLoop` the timer is inert, and the others still are. -/
theorem inert_cancelInLoop (h : s.CancelInv) {q : TimerQueue}
    (hq : s.queue.cancelInLoop p = some q) :
    (s.Reached p → Inert { s with queue := q } p) ∧
      (∀ p', s.Inert p' → Inert { s with queue := q } p') ∧
      q.callingExpiredTimers = s.queue.callingExpiredTimers ∧ s.queue.heap.Shrinks q.heap := by
  by_cases hp : p ∈ s.queue.activeTimers
  · obtain ⟨t, heap, -, hdel, heq, -⟩ := h.inv.queue.cancelInLoop_of_mem hp
    obtain rfl := Option.some.inj (heq.symm.trans hq)
    refine ⟨fun hreached ↦ ?_, fun p' hp' ↦ ?_, rfl, hdel.shrinks⟩
    · refine ⟨fun hmem ↦ (OrderedSet.mem_erase.mp hmem).1 rfl, hreached.1, hreached.2, ?_⟩
      -- a timer in the sets is not in the batch
      intro b hb hexpired
      exact absurd hexpired (h.inv.notMem_expired hb hp)
    · exact ⟨fun hmem ↦ hp'.active (OrderedSet.mem_erase.mp hmem).2, hp'.waiting, hp'.remaining,
        hp'.canceling⟩
  · rw [h.inv.queue.cancelInLoop_of_notMem hp] at hq
    obtain rfl := Option.some.inj hq
    unfold TimerQueue.markCanceling
    split_ifs with hcalling
    · refine ⟨fun hreached ↦ ⟨hp, hreached.1, hreached.2, ?_⟩, fun p' hp' ↦ ?_, rfl, .refl _⟩
      · exact fun _ _ _ ↦ OrderedSet.mem_insert.mpr (.inl rfl)
      · exact ⟨hp'.active, hp'.waiting, hp'.remaining,
          fun b hb he ↦ OrderedSet.mem_insert.mpr (.inr (hp'.canceling b hb he))⟩
    · refine ⟨fun hreached ↦ ⟨hp, hreached.1, hreached.2, fun b hb ↦ ?_⟩, fun p' hp' ↦ hp', rfl,
        .refl _⟩
      rw [h.calling, hb] at hcalling
      exact absurd rfl hcalling

theorem cancelInLoop (h : s.CancelInv) (hissued : p ∈ s.issued) (hreached : s.Reached p)
    (hinv : r.Inv) (hr : s.cancelInLoop p = some r) : r.CancelInv := by
  obtain ⟨q, hq, rfl⟩ := Option.map_eq_some_iff.mp hr
  obtain ⟨hself, hothers, hcalling, hshrinks⟩ := h.inert_cancelInLoop hq
  refine ⟨hinv, hcalling.trans h.calling, ?_, ?_, h.functors, fun c hc ↦ ?_, fun c hc ↦ ?_⟩
  · intro p' hp'
    change p'.sequence ≤ q.heap.numCreated
    rw [hshrinks.numCreated]
    exact h.issued_le p' hp'
  · intro p' hp' a t ha hseq
    obtain ⟨u, hu, hut⟩ := hshrinks.cell a t ha
    exact h.issued_timer p' hp' a u hu (hut.trans hseq)
  · rcases List.mem_append.mp hc with hold | hnew
    · exact ⟨(h.cancelled c hold).1, { hothers c.1 (h.cancelled c hold).2 with }⟩
    · rw [List.mem_singleton.mp hnew]
      exact ⟨hissued, { hself hreached with }⟩
  · rcases List.mem_append.mp hc with hold | hnew
    · exact h.quiet c hold
    · rw [List.mem_singleton.mp hnew]

theorem handleRead (h : s.CancelInv) (hidle : s.batch = none) (hinv : r.Inv)
    (hr : TimerAct.handleRead.exec s = some r) : r.CancelInv := by
  obtain ⟨ps, active, heq, -, hsub⟩ := h.inv.queue.beginRead s.clock
  rw [TimerAct.exec, if_pos (by rw [hidle]; rfl), heq] at hr
  obtain rfl := Option.some.inj hr
  refine ⟨hinv, rfl, h.issued_le, h.issued_timer, h.functors, fun c hc ↦ ?_, h.quiet⟩
  obtain ⟨hissued, hinert⟩ := h.cancelled c hc
  have hps : c.1 ∉ ps := fun hmem ↦ hinert.active (hsub c.1 (.inl hmem))
  refine ⟨hissued, fun hmem ↦ hinert.active (hsub c.1 (.inr hmem)), hinert.waiting, ?_, ?_⟩
  · rintro b hb
    obtain rfl := Option.some.inj hb
    exact hps
  · rintro b hb hmem
    obtain rfl := Option.some.inj hb
    exact absurd hmem hps

theorem runCallback (h : s.CancelInv) (hb : s.batch = some b) (hinv : r.Inv)
    (hr : s.runCallback b = some r) : r.CancelInv := by
  unfold TimerLoop.runCallback at hr
  split at hr
  · cases hr
  next p ps hps =>
    obtain ⟨t, -, rfl⟩ := Option.map_eq_some_iff.mp hr
    have hsuffix := h.inv.suffix b hb
    rw [hps] at hsuffix
    have hpointer : p ∈ s.queue.activeTimers.elems ++ s.elsewhere :=
      List.mem_append_right _ (Inv.mem_elsewhere hb (hsuffix.mem List.mem_cons_self))
    refine ⟨hinv, ?_, h.issued_le, h.issued_timer, h.functors, fun c hc ↦ ?_, fun c hc ↦ ?_⟩
    · have hcalling := h.calling
      rwa [hb] at hcalling
    · obtain ⟨hissued, hinert⟩ := h.cancelled c hc
      have hremaining := hinert.remaining b hb
      rw [hps, List.mem_cons, not_or] at hremaining
      refine ⟨hissued, hinert.active, hinert.waiting, ?_, ?_⟩
      · rintro b' hb'
        obtain rfl := Option.some.inj hb'
        exact hremaining.2
      · rintro b' hb' hmem
        obtain rfl := Option.some.inj hb'
        exact hinert.canceling b hb hmem
    · -- the callback that starts is of another timer
      obtain ⟨hissued, hinert⟩ := h.cancelled c hc
      have hremaining := hinert.remaining b hb
      rw [hps, List.mem_cons, not_or] at hremaining
      have hne : p.sequence ≠ c.1.sequence :=
        fun hseq ↦ hremaining.1 (h.eq_of_sequence hissued hpointer hseq)
      change (s.started ++ [p.sequence]).count c.1.sequence = c.2
      rw [List.count_append, h.quiet c hc, List.count_eq_zero.mpr, Nat.add_zero]
      exact fun hmem ↦ hne (List.mem_singleton.mp hmem).symm

theorem endRead (h : s.CancelInv) (hb : s.batch = some b) (hdone : b.remaining = []) (hinv : r.Inv)
    (hr : s.endRead b = some r) : r.CancelInv := by
  have hqueue : TimerQueue.Inv [] (b.expired ++ waiting s.functors)
      { s.queue with callingExpiredTimers := false } := { h.inv.queue_of_batch hb with }
  obtain ⟨q, fd, hreset, heq, -⟩ := (h.inv.queue_of_batch hb).endRead b.now s.clock
  rw [TimerLoop.endRead, if_pos (by rw [hdone]; rfl), heq] at hr
  obtain rfl := Option.some.inj hr
  obtain ⟨hshrinks, hcalling⟩ := hqueue.shrinks_resetAll hreset
  refine ⟨hinv, hcalling, ?_, ?_, h.functors, fun c hc ↦ ?_, h.quiet⟩
  · intro p' hp'
    change p'.sequence ≤ q.heap.numCreated
    rw [hshrinks.numCreated]
    exact h.issued_le p' hp'
  · intro p' hp' a t ha hseq
    obtain ⟨u, hu, hut⟩ := hshrinks.cell a t ha
    exact h.issued_timer p' hp' a u hu (hut.trans hseq)
  · obtain ⟨hissued, hinert⟩ := h.cancelled c hc
    have hactive : c.1 ∉ q.activeTimers :=
      hqueue.notMem_resetAll hreset hinert.active (hinert.canceling b hb)
    have hidle : ∀ b', (none : Option Batch) ≠ some b' := fun b' hb' ↦ by cases hb'
    exact ⟨hissued, hactive, hinert.waiting, fun b' hb' ↦ absurd hb' (hidle b'),
      fun b' hb' ↦ absurd hb' (hidle b')⟩

theorem exec (h : s.CancelInv) {a : TimerAct} (ha : a.Enabled s) (hissued : a.UsesIssued s)
    (hreached : a.CancelReaches s) (hr : a.exec s = some r) : r.CancelInv := by
  obtain ⟨r', hr', hinv⟩ := h.inv.exec ha
  obtain rfl : r' = r := Option.some.inj (hr'.symm.trans hr)
  cases a with
  | addTimer a time repeats delta => exact h.addTimer ha.1 ha.2.1 hinv hr
  | cancel p => exact h.cancelInLoop hissued hreached hinv hr
  | runFunctor =>
      rw [TimerAct.exec, if_pos (by rw [ha.1]; rfl)] at hr
      unfold TimerLoop.runFunctor at hr
      split at hr
      · cases hr
      next p fs hfs => exact h.runAdd hfs hinv hr
      next p fs hfs =>
        have hreach := hreached p fs hfs
        rw [Reached, hfs] at hreach
        have hqueue := h.inv.queue
        rw [elsewhere, hfs] at hqueue
        have hmem : ∀ f ∈ fs, f ∈ s.functors := by
          rw [hfs]
          exact fun f hf ↦ List.mem_cons_of_mem _ hf
        have hrest : CancelInv { s with functors := fs } := by
          refine ⟨⟨hqueue, h.inv.suffix⟩, h.calling, h.issued_le, h.issued_timer,
            fun p' hp' ↦ h.functors p' (hmem _ hp'), fun c hc ↦ ?_, h.quiet⟩
          obtain ⟨hc', hinert⟩ := h.cancelled c hc
          have hwaiting := hinert.waiting
          rw [hfs] at hwaiting
          exact ⟨hc', hinert.active, hwaiting, hinert.remaining, hinert.canceling⟩
        refine hrest.cancelInLoop (h.functors p ?_) hreach hinv hr
        rw [hfs]
        exact List.mem_cons_self
  | handleRead => exact h.handleRead ha hinv hr
  | runCallback =>
      obtain ⟨b, hb, -⟩ := ha
      rw [TimerAct.exec, hb, Option.bind_some] at hr
      exact h.runCallback hb hinv hr
  | endRead =>
      obtain ⟨b, hb, hdone⟩ := ha
      rw [TimerAct.exec, hb, Option.bind_some] at hr
      exact h.endRead hb hdone hinv hr
  | addTimerFrom a time repeats delta =>
      obtain rfl := Option.some.inj hr
      exact h.addTimerFrom hinv
  | cancelFrom p =>
      obtain rfl := Option.some.inj hr
      refine ⟨hinv, h.calling, h.issued_le, h.issued_timer, fun p' hp' ↦ ?_, fun c hc ↦ ?_, h.quiet⟩
      · rcases List.mem_append.mp hp' with hold | hnew
        · exact h.functors p' hold
        · obtain rfl : p' = p := by simpa using hnew
          exact hissued
      · obtain ⟨hc', hinert⟩ := h.cancelled c hc
        refine ⟨hc', hinert.active, ?_, hinert.remaining, hinert.canceling⟩
        change c.1 ∉ waiting (s.functors ++ [.cancelInLoop p])
        rw [waiting_append, waiting, waiting, List.append_nil]
        exact hinert.waiting
  | tick d =>
      obtain rfl := Option.some.inj hr
      exact ⟨hinv, h.calling, h.issued_le, h.issued_timer, h.functors,
        fun c hc ↦ ⟨(h.cancelled c hc).1, { (h.cancelled c hc).2 with }⟩, h.quiet⟩
  | expire =>
      obtain rfl := Option.some.inj hr
      exact ⟨hinv, h.calling, h.issued_le, h.issued_timer, h.functors,
        fun c hc ↦ ⟨(h.cancelled c hc).1, { (h.cancelled c hc).2 with }⟩, h.quiet⟩

end CancelInv

/-- In every run in which each `cancelInLoop` reaches its timer, no callback
starts after the cancellation. -/
theorem notStartedAgain_of_cancelReaches {clock : ℤ} {acts : List TimerAct}
    (hok : EachStep TimerAct.exec
      (fun a s ↦ a.Enabled s ∧ a.UsesIssued s ∧ a.CancelReaches s) acts (start clock))
    (hrun : runAll TimerAct.exec acts (start clock) = some s) : s.NotStartedAgain := by
  have h : s.CancelInv := runAll_invariant
    (fun a s r hs ha hr ↦ hs.exec ha.1 ha.2.1 ha.2.2 hr) (cancelInv_start clock) hok hrun
  exact h.quiet

/-- A timer that repeats cancels itself in its callback. -/
theorem notStartedAgain_of_cancelReaches_self :
    ∃ s, runAll TimerAct.exec ([.addTimer 16 150 true 1000, .tick 100, .expire, .handleRead,
        .runCallback, .cancel ⟨16, 1⟩, .endRead, .tick 5000, .handleRead] : List TimerAct)
        (start 100) = some s ∧
      s.cancelled = [(⟨16, 1⟩, 1)] ∧ s.started = [1] ∧ s.NotStartedAgain := by
  have hrun : ∃ s, runAll TimerAct.exec ([.addTimer 16 150 true 1000, .tick 100, .expire,
      .handleRead, .runCallback, .cancel ⟨16, 1⟩, .endRead, .tick 5000,
      .handleRead] : List TimerAct) (start 100) = some s ∧
      s.cancelled = [(⟨16, 1⟩, 1)] ∧ s.started = [1] := ⟨_, rfl, rfl, rfl⟩
  obtain ⟨s, hrun, hcancelled, hstarted⟩ := hrun
  refine ⟨s, hrun, hcancelled, hstarted, notStartedAgain_of_cancelReaches ?_ hrun⟩
  refine eachStep_cons ⟨⟨rfl, by decide, by decide, by decide, by decide⟩, trivial, trivial⟩ rfl ?_
  refine eachStep_cons ⟨(by decide : (100 : ℤ) + (100 : ℕ) < 2 ^ 63), trivial, trivial⟩ rfl ?_
  refine eachStep_cons ⟨⟨200, rfl, by decide⟩, trivial, trivial⟩ rfl ?_
  refine eachStep_cons ⟨rfl, trivial, trivial⟩ rfl ?_
  refine eachStep_cons ⟨⟨_, rfl, nofun⟩, trivial, trivial⟩ rfl ?_
  refine eachStep_cons ⟨trivial, List.mem_singleton_self _, nofun, ?_⟩ rfl ?_
  · rintro b hb
    obtain rfl := Option.some.inj hb
    exact List.not_mem_nil
  refine eachStep_cons ⟨⟨_, rfl, rfl⟩, trivial, trivial⟩ rfl ?_
  refine eachStep_cons ⟨(by decide : (200 : ℤ) + (5000 : ℕ) < 2 ^ 63), trivial, trivial⟩ rfl ?_
  exact eachStep_cons ⟨rfl, trivial, trivial⟩ rfl trivial

/-- Of two timers that expire together, the first cancels the second, whose
callback starts all the same. -/
theorem not_notStartedAgain_batch :
    ∃ s, runAll TimerAct.exec ([.addTimer 16 150 false 0, .addTimer 32 150 false 0, .tick 100,
        .expire, .handleRead, .runCallback, .cancel ⟨32, 2⟩, .runCallback] : List TimerAct)
        (start 100) = some s ∧
      EachStep TimerAct.exec (fun a s ↦ a.Enabled s ∧ a.UsesIssued s) ([.addTimer 16 150 false 0,
        .addTimer 32 150 false 0, .tick 100, .expire, .handleRead, .runCallback,
        .cancel ⟨32, 2⟩, .runCallback] : List TimerAct) (start 100) ∧
      ¬ s.NotStartedAgain := by
  refine ⟨_, rfl, ?_, fun h ↦ ?_⟩
  · refine eachStep_cons ⟨⟨rfl, by decide, by decide, by decide, by decide⟩, trivial⟩ rfl ?_
    refine eachStep_cons ⟨⟨rfl, by decide, by decide, by decide, by decide⟩, trivial⟩ rfl ?_
    refine eachStep_cons ⟨(by decide : (100 : ℤ) + (100 : ℕ) < 2 ^ 63), trivial⟩ rfl ?_
    refine eachStep_cons ⟨⟨200, rfl, by decide⟩, trivial⟩ rfl ?_
    refine eachStep_cons ⟨rfl, trivial⟩ rfl (eachStep_cons ⟨⟨_, rfl, nofun⟩, trivial⟩ rfl ?_)
    refine eachStep_cons ⟨trivial, List.mem_cons_of_mem _ (List.mem_singleton_self _)⟩ rfl ?_
    exact eachStep_cons ⟨⟨_, rfl, nofun⟩, trivial⟩ rfl trivial
  · have hcount := h (⟨32, 2⟩, 0) (List.mem_singleton_self _)
    exact absurd hcount (by decide)

end TimerLoop

end PpDSCache.Net
