import PpDSCache.Net.EventLoop

/-!
# No functor is reordered and no wakeup is lost

The eventfd is drained while events are handled and the queue is taken over
afterwards.  From then on until the next events, whoever has pushed a functor
has made the eventfd readable or is about to.
-/

namespace PpDSCache.Net

open Abstract

/-- The places between draining the eventfd and taking over the queue. -/
def Phase.drains : Phase → Bool
  | .events _ | .swap => true
  | _ => false

namespace EventLoop

variable {T F : Type} {s r : EventLoop T F} {t u me : T} {cb : F} {c : Call}

theorem readable_wakeup (s : EventLoop T F) : s.wakeup.Readable := by
  unfold Readable wakeup
  dsimp only
  split_ifs <;> omega

/-- The thread is in `queueInLoop` on its way from the push to `wakeup`. -/
def WillWake (s : EventLoop T F) (t : T) : Prop :=
  s.call t = .waking ∨ s.call t = .pushed ∧ (t ≠ s.threadId ∨ s.callingPendingFunctors = true)

def Awake (s : EventLoop T F) : Prop :=
  s.pendingFunctors ≠ [] → s.Readable ∨ ∃ t, s.WillWake t

theorem WillWake.call_ne_none (h : s.WillWake t) : s.call t ≠ .none := by
  rcases h with h | ⟨h, -⟩ <;> simp [h]

/-- What holds between any two statements, for the loop of the thread `me`. -/
structure Inv (me : T) (s : EventLoop T F) : Prop where
  threadId : s.threadId = me
  looper : ∀ t, s.looper = some t → t = me
  looping : s.looping = true ↔ s.phase ≠ .outside
  onThread : ∀ r ∈ s.ran ++ s.called, r.1 = me
  order : s.ran.map Prod.snd ++ s.functors ++ s.pendingFunctors = s.pushed
  taken : s.phase ≠ .functors → s.functors = []
  calling : s.callingPendingFunctors = true ↔ s.phase = .swap ∨ s.phase = .functors
  inCall : s.call me ≠ .none → s.phase.inCallback = true
  awake : s.phase.drains = false → s.Awake

theorem inv_new (me : T) : (new me : EventLoop T F).Inv me where
  threadId := rfl
  looper := fun t h ↦ by cases h
  looping := by simp [new]
  onThread := by simp [new]
  order := rfl
  taken := fun _ ↦ rfl
  calling := by simp [new]
  inCall := fun h ↦ absurd rfl h
  awake := fun _ h ↦ absurd rfl h

namespace Inv

theorem idle_of_at {p : Phase} (h : s.Inv me) (hat : s.At t p) : s.call me = .none := by
  rw [← h.looper t hat.1]
  exact hat.2.2

theorem loop (h : s.Inv me) (hlooping : s.looping = false) (hidle : s.call me = .none) :
    Inv me { s with looping := true, phase := .entered, looper := some me } := by
  have hphase : s.phase = .outside := by
    by_contra hne
    exact absurd (h.looping.mpr hne) (by simp [hlooping])
  exact { h with
    looper := fun u hu ↦ (Option.some.inj hu).symm
    looping := by simp
    taken := fun _ ↦ h.taken (by simp [hphase])
    calling := by simpa [hphase] using h.calling
    inCall := fun hme ↦ absurd hidle hme
    awake := fun _ ↦ h.awake (by rw [hphase]; rfl) }

/-- The loop goes on where the functors are not concerned. -/
theorem goto {p q : Phase} (h : s.Inv me) (hat : s.At t p)
    (hp : p ≠ .outside ∧ p ≠ .swap ∧ p ≠ .functors) (hq : q ≠ .outside ∧ q ≠ .swap ∧ q ≠ .functors)
    (hdrains : q.drains = false → p.drains = false) (quit : Bool) :
    Inv me { s with quit := quit, phase := q } :=
  { h with
    looping := by simpa [hat.2.1, hp, hq] using h.looping
    taken := fun _ ↦ h.taken (by simp [hat.2.1, hp])
    calling := by simpa [hat.2.1, hp, hq] using h.calling
    inCall := fun hme ↦ absurd (h.idle_of_at hat) hme
    awake := fun hphase ↦ h.awake (by rw [hat.2.1]; exact hdrains hphase) }

theorem leave (h : s.Inv me) (hat : s.At t .test) :
    Inv me { s with looping := false, phase := .outside, looper := none } :=
  { h with
    looper := fun u hu ↦ by cases hu
    looping := by simp
    taken := fun _ ↦ h.taken (by simp [hat.2.1])
    calling := by simpa [hat.2.1] using h.calling
    inCall := fun hme ↦ absurd (h.idle_of_at hat) hme
    awake := fun _ ↦ h.awake (by rw [hat.2.1]; rfl) }

theorem handleRead (h : s.Inv me) (hdrains : s.phase.drains = true) : s.handleRead.Inv me :=
  { h with awake := fun hphase ↦ absurd (hdrains.symm.trans hphase) (by simp) }

theorem callPending (h : s.Inv me) (hat : s.At t (.events false)) :
    Inv me { s with callingPendingFunctors := true, phase := .swap } :=
  { h with
    looping := by simpa [hat.2.1] using h.looping
    taken := fun _ ↦ h.taken (by simp [hat.2.1])
    calling := by simp
    inCall := fun hme ↦ absurd (h.idle_of_at hat) hme
    awake := fun hphase ↦ by cases hphase }

theorem swapPending (h : s.Inv me) (hat : s.At t .swap) : Inv me { s with
    functors := s.pendingFunctors, pendingFunctors := [], phase := .functors } :=
  { h with
    looping := by simpa [hat.2.1] using h.looping
    order := by
      have horder := h.order
      rw [h.taken (by simp [hat.2.1])] at horder
      simpa using horder
    taken := fun hne ↦ absurd rfl hne
    calling := by simpa [hat.2.1] using h.calling
    inCall := fun _ ↦ rfl
    awake := fun _ hne ↦ absurd rfl hne }

theorem runFunctor (h : s.Inv me) (hat : s.At t .functors) (hr : s.takeFunctor t = some r) :
    r.Inv me := by
  unfold takeFunctor at hr
  split at hr
  · cases hr
  next f fs hfs =>
    obtain rfl := Option.some.inj hr
    exact { h with
      onThread := by
        intro x hx
        simp only [List.mem_append, List.mem_singleton] at hx
        rcases hx with (hx | rfl) | hx
        · exact h.onThread x (List.mem_append_left _ hx)
        · exact h.looper t hat.1
        · exact h.onThread x (List.mem_append_right _ hx)
      order := by
        rw [← h.order, hfs]
        simp
      taken := fun hne ↦ absurd hat.2.1 hne }

theorem endPending (h : s.Inv me) (hat : s.At t .functors) (hnil : s.functors = []) :
    Inv me { s with callingPendingFunctors := false, phase := .test } :=
  { h with
    looping := by simpa [hat.2.1] using h.looping
    taken := fun _ ↦ hnil
    calling := by simp
    inCall := fun hme ↦ absurd (h.idle_of_at hat) hme
    awake := by
      intro _ hne
      rcases h.awake (by rw [hat.2.1]; rfl) hne with hread | ⟨u, hu⟩
      · exact .inl hread
      · -- the flag is off now, so the thread must not be the loop's own
        refine .inr ⟨u, hu.imp_right fun hpushed ↦ ⟨hpushed.1, .inl ?_⟩⟩
        rintro rfl
        exact hu.call_ne_none (h.threadId ▸ h.idle_of_at hat) }

theorem called (h : s.Inv me) (ht : t = me) (cb : F) :
    Inv me { s with called := s.called ++ [(t, cb)] } :=
  { h with
    onThread := by
      intro x hx
      simp only [List.mem_append, List.mem_singleton] at hx
      rcases hx with hx | hx | rfl
      · exact h.onThread x (List.mem_append_left _ hx)
      · exact h.onThread x (List.mem_append_right _ hx)
      · exact ht }

theorem quit (h : s.Inv me) : Inv me { s with quit := true } := { h with }

end Inv

variable [DecidableEq T]

theorem willWake_setCall_of_ne (h : u ≠ t) :
    (s.setCall t c).WillWake u ↔ s.WillWake u := by
  simp [WillWake, setCall, h]

theorem willWake_push (h : t ≠ s.threadId ∨ s.callingPendingFunctors = true) (cb : F) :
    (s.push t cb).WillWake t := .inr ⟨by simp [push, setCall], h⟩

/-- A thread that was not about to wake the loop up may go anywhere. -/
theorem Awake.setCall (h : s.Awake) (ht : ¬ s.WillWake t) (c : Call) : (s.setCall t c).Awake := by
  intro hne
  rcases h hne with hread | ⟨u, hu⟩
  · exact .inl hread
  · have hut : u ≠ t := fun heq ↦ ht (heq ▸ hu)
    exact .inr ⟨u, (willWake_setCall_of_ne hut).mpr hu⟩

theorem awake_wakeup (s : EventLoop T F) (t : T) : (s.wakeup.setCall t .none).Awake :=
  fun _ ↦ .inl (readable_wakeup s)

namespace Inv

theorem inCall_setCall (h : s.Inv me) (hc : c ≠ .none → t = me → s.phase.inCallback = true) :
    (s.setCall t c).call me ≠ .none → s.phase.inCallback = true := by
  intro hme
  by_cases heq : t = me
  · subst heq
    exact hc (by simpa [EventLoop.setCall] using hme) rfl
  · refine h.inCall fun hnone ↦ hme ?_
    simpa [EventLoop.setCall, Ne.symm heq] using hnone

theorem push (h : s.Inv me) (hcall : s.MayCall t) (cb : F) : (s.push t cb).Inv me where
  threadId := h.threadId
  looper := h.looper
  looping := h.looping
  onThread := h.onThread
  order := by
    simp only [EventLoop.push, EventLoop.setCall]
    rw [← h.order, List.append_assoc _ s.pendingFunctors]
  taken := h.taken
  calling := h.calling
  inCall := h.inCall_setCall fun _ heq ↦ hcall.2 (heq.trans h.threadId.symm)
  awake := by
    intro hphase _
    refine .inr ⟨t, willWake_push ?_ cb⟩
    by_cases heq : t = s.threadId
    · -- the loop's own thread pushes without a wakeup only while it handles events
      have hback := hcall.2 heq
      change s.phase.drains = false at hphase
      refine .inr (h.calling.mpr ?_)
      cases hcase : s.phase <;> simp_all [Phase.inCallback, Phase.drains]
    · exact .inl heq

/-- A thread that does not owe a wakeup comes back from a call or goes on. -/
theorem setCall (h : s.Inv me) (ht : ¬ s.WillWake t)
    (hc : c ≠ .none → t = me → s.phase.inCallback = true) : (s.setCall t c).Inv me :=
  { h with
    inCall := h.inCall_setCall hc
    awake := fun hphase ↦ (h.awake hphase).setCall ht c }

theorem willWake (h : s.Inv me) (hpushed : s.call t = .pushed) : (s.setCall t .waking).Inv me :=
  { h with
    inCall := h.inCall_setCall fun _ heq ↦ h.inCall (by simp [← heq, hpushed])
    awake := fun _ _ ↦ .inr ⟨t, .inl (by simp [EventLoop.setCall])⟩ }

theorem wakeup (h : s.Inv me) (t : T) : (s.wakeup.setCall t .none).Inv me :=
  { h with
    inCall := h.inCall_setCall fun hne ↦ absurd rfl hne
    awake := fun _ ↦ awake_wakeup s t }

theorem exec (h : s.Inv me) {l : T × LoopAct F} (hr : EventLoop.exec l s = some r) :
    r.Inv me := by
  obtain ⟨t, a⟩ := l
  cases a with
  | loop =>
      simp only [EventLoop.exec] at hr
      split_ifs at hr with hcond
      obtain rfl := Option.some.inj hr
      obtain rfl : t = me := hcond.2.1.trans h.threadId
      exact h.loop hcond.1 hcond.2.2
  | resetQuit =>
      simp only [EventLoop.exec] at hr
      split_ifs at hr with hat
      obtain rfl := Option.some.inj hr
      exact h.goto hat (by simp) (by simp) (fun _ ↦ rfl) false
  | testQuit =>
      simp only [EventLoop.exec] at hr
      split_ifs at hr with hat hquit
      · obtain rfl := Option.some.inj hr
        exact h.leave hat
      · obtain rfl := Option.some.inj hr
        exact h.goto hat (by simp) (by simp) (fun _ ↦ rfl) s.quit
  | pollReturn woken =>
      simp only [EventLoop.exec] at hr
      split_ifs at hr with hcond
      obtain rfl := Option.some.inj hr
      exact h.goto hcond.1 (by simp) (by simp) (fun hq ↦ by cases hq) s.quit
  | handleRead =>
      simp only [EventLoop.exec] at hr
      split_ifs at hr with hat
      obtain rfl := Option.some.inj hr
      have hdrained := h.handleRead (by rw [hat.2.1]; rfl)
      exact hdrained.goto hat (by simp) (by simp) (fun hq ↦ by cases hq) s.quit
  | callPending =>
      simp only [EventLoop.exec] at hr
      split_ifs at hr with hat
      obtain rfl := Option.some.inj hr
      exact h.callPending hat
  | swapPending =>
      simp only [EventLoop.exec] at hr
      split_ifs at hr with hat
      obtain rfl := Option.some.inj hr
      exact h.swapPending hat
  | runFunctor =>
      simp only [EventLoop.exec] at hr
      split_ifs at hr with hat
      exact h.runFunctor hat hr
  | endPending =>
      simp only [EventLoop.exec] at hr
      split_ifs at hr with hcond
      obtain rfl := Option.some.inj hr
      exact h.endPending hcond.1 (List.isEmpty_iff.mp hcond.2)
  | runInLoop cb =>
      simp only [EventLoop.exec] at hr
      split_ifs at hr with hcall heq
      · obtain rfl := Option.some.inj hr
        exact h.called (heq.trans h.threadId) cb
      · obtain rfl := Option.some.inj hr
        exact h.push hcall cb
  | queueInLoop cb =>
      simp only [EventLoop.exec] at hr
      split_ifs at hr with hcall
      obtain rfl := Option.some.inj hr
      exact h.push hcall cb
  | testThread =>
      simp only [EventLoop.exec] at hr
      split_ifs at hr with hpushed htest
      · obtain rfl := Option.some.inj hr
        exact h.willWake hpushed
      · obtain rfl := Option.some.inj hr
        refine h.setCall ?_ fun hne ↦ absurd rfl hne
        rintro (hwaking | ⟨-, hwill⟩)
        · simp [hpushed] at hwaking
        · exact htest hwill
  | wakeup =>
      simp only [EventLoop.exec] at hr
      split_ifs at hr with hwaking
      obtain rfl := Option.some.inj hr
      exact h.wakeup t
  | quit =>
      simp only [EventLoop.exec] at hr
      split_ifs at hr with hcall heq
      · obtain rfl := Option.some.inj hr
        refine (h.setCall (fun hwill ↦ hwill.call_ne_none hcall.1) fun _ hme ↦ ?_).quit
        exact absurd (hme.trans h.threadId.symm) heq
      · obtain rfl := Option.some.inj hr
        exact h.quit
  | quitWakeup =>
      simp only [EventLoop.exec] at hr
      split_ifs at hr with hquitting
      obtain rfl := Option.some.inj hr
      exact h.wakeup t

end Inv

/-- In every interleaving the functors run on the loop's thread only, in the
order in which they were pushed and none twice; and a loop that polls with
functors pending is woken up or about to be. -/
theorem runs_in_order_and_awake {acts : List (T × LoopAct F)}
    (hrun : runAll exec acts (new me) = some s) :
    (∀ r ∈ s.ran ++ s.called, r.1 = me) ∧
      s.ran.map Prod.snd ++ s.functors ++ s.pendingFunctors = s.pushed ∧
      (s.phase = .poll → s.pendingFunctors ≠ [] →
        s.Readable ∨ ∃ t, s.call t = .pushed ∨ s.call t = .waking) := by
  have h : s.Inv me := runAll_invariant (fun l s r hs _ hr ↦ hs.exec hr) (inv_new me)
    (eachStep_true acts _) hrun
  refine ⟨h.onThread, h.order, fun hpoll hne ↦ ?_⟩
  rcases h.awake (by rw [hpoll]; rfl) hne with hread | ⟨t, hwaking | hpushed⟩
  · exact .inl hread
  · exact .inr ⟨t, .inr hwaking⟩
  · exact .inr ⟨t, .inl hpushed.1⟩

/-- Another thread pushes a functor while the loop polls, and that functor
pushes one more. -/
theorem runs_in_order_and_awake_twice :
    ∃ s : EventLoop Bool ℕ, runAll exec ([(false, .loop), (false, .resetQuit), (false, .testQuit),
        (true, .queueInLoop 7), (true, .testThread), (true, .wakeup), (false, .pollReturn true),
        (false, .handleRead), (false, .callPending), (false, .swapPending), (false, .runFunctor),
        (false, .queueInLoop 8), (false, .testThread), (false, .wakeup), (false, .endPending),
        (false, .testQuit)] : List (Bool × LoopAct ℕ)) (new false) = some s ∧
      s.phase = .poll ∧ s.pendingFunctors = [8] ∧ (∀ r ∈ s.ran ++ s.called, r.1 = false) ∧
      s.ran.map Prod.snd ++ s.functors ++ s.pendingFunctors = s.pushed ∧
      (s.Readable ∨ ∃ t, s.call t = .pushed ∨ s.call t = .waking) := by
  have hrun : ∃ s : EventLoop Bool ℕ, runAll exec ([(false, .loop), (false, .resetQuit),
      (false, .testQuit), (true, .queueInLoop 7), (true, .testThread), (true, .wakeup),
      (false, .pollReturn true), (false, .handleRead), (false, .callPending),
      (false, .swapPending), (false, .runFunctor), (false, .queueInLoop 8), (false, .testThread),
      (false, .wakeup), (false, .endPending), (false, .testQuit)] : List (Bool × LoopAct ℕ))
      (new false) = some s ∧ s.phase = .poll ∧ s.pendingFunctors = [8] := ⟨_, rfl, rfl, rfl⟩
  obtain ⟨s, hrun, hpoll, hpending⟩ := hrun
  obtain ⟨hthread, horder, hawake⟩ := runs_in_order_and_awake hrun
  exact ⟨s, hrun, hpoll, hpending, hthread, horder, hawake hpoll (by simp [hpending])⟩

end EventLoop

end PpDSCache.Net
