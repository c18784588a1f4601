import PpDSCache.Abstract.MonitorRuns

/-!
# The latch

Calls of `wait` return once `countDown` has been called as often as the latch
says, and not before.
-/

namespace PpDSCache.Base

open Abstract

inductive LatchCall where
  | wait
  | countDown
  deriving DecidableEq

/-- The data is `count_`; to decrement the least `int` is undefined. -/
def CountDownLatch : Monitor ℤ LatchCall Unit Unit where
  waitsFor
    | .wait => some ()
    | .countDown => none
  holds _ count := ¬ 0 < count
  body c count :=
    match c with
    | .wait => some ((), count)
    | .countDown => if -2 ^ 31 < count then some ((), count - 1) else none
  notifies c count :=
    match c with
    | .wait => .nobody
    | .countDown => if count = 0 then .all () else .nobody

namespace CountDownLatch

variable {count count' : ℤ} {served : List (ℕ × LatchCall × Unit)}
  {s : Guarded ℤ LatchCall Unit} {acts : List (CallAct LatchCall)}

theorem body_countDown {q : Unit × ℤ} (h : CountDownLatch.body .countDown count = some q) :
    q = ((), count - 1) := (Option.some.inj (Option.ite_none_right_eq_some.mp h).2).symm

theorem broadcast : CountDownLatch.Broadcast := by
  intro c count q w hbody hbefore hafter
  have hpos : 0 < count := not_not.mp (of_decide_eq_false hbefore)
  have hnonpos : ¬ 0 < q.2 := of_decide_eq_true hafter
  cases c with
  | wait =>
      obtain rfl : ((), count) = q := Option.some.inj hbody
      exact absurd hpos hnonpos
  | countDown =>
      obtain rfl := body_countDown hbody
      have hzero : count - 1 = 0 := by
        simp only at hnonpos
        omega
      exact if_pos hzero

/-- The count has gone down once for each call. -/
theorem count_of_serial (h : CountDownLatch.Serial count served count') :
    count' = count - served.countP fun x ↦ x.2.1 = .countDown := by
  induction served generalizing count with
  | nil =>
      obtain rfl : count = count' := h
      simp
  | cons x served ih =>
      obtain ⟨k, c, r⟩ := x
      obtain ⟨-, u, hu, hrest⟩ := h
      rw [ih hrest]
      cases c with
      | wait =>
          obtain rfl : count = u := congrArg Prod.snd (Option.some.inj hu)
          simp
      | countDown =>
          obtain rfl : u = count - 1 := congrArg Prod.snd (body_countDown hu)
          simp only [decide_true, List.countP_cons_of_pos]
          push_cast
          ring

/-- A call of `wait` is served after enough calls of `countDown`. -/
theorem le_countP_of_serial {pre post : List (ℕ × LatchCall × Unit)} {k : ℕ}
    (h : CountDownLatch.Serial count (pre ++ (k, .wait, ()) :: post) count') :
    count ≤ pre.countP fun x ↦ x.2.1 = .countDown := by
  obtain ⟨u, hu, hready⟩ := h.exists_split
  have hle : ¬ 0 < u := of_decide_eq_true hready
  rw [count_of_serial hu] at hle
  omega

/-- Only calls of `wait` can be left, and only above zero. -/
theorem eq_wait_of_stuck (hinformed : CountDownLatch.Informed s) (hstuck : s.Stuck)
    {p : LatchCall × Stage Unit} (hp : p ∈ s.calls) (hdone : p.2.isDone = false) :
    p.1 = .wait ∧ 0 < s.data := by
  have hno := hinformed p hp (hstuck.eq_waiting hp hdone)
  obtain ⟨c, st⟩ := p
  cases c with
  | countDown => cases hno
  | wait => exact ⟨rfl, not_not.mp (of_decide_eq_false hno)⟩

/-- A call of `wait` returns only after as many calls of `countDown` as the
latch was made for, and when no call can move, all of them have returned if and
only if there were so many, or no call of `wait`. -/
theorem countDownLatch_releases_iff
    (hen : EachStep CountDownLatch.exec CountDownLatch.Enabled acts (.new count))
    (hrun : runAll CountDownLatch.exec acts (.new count) = some s) :
    (∀ pre k post, s.served = pre ++ (k, .wait, ()) :: post →
        count ≤ pre.countP fun x ↦ x.2.1 = .countDown) ∧
      (s.Stuck → ((∀ p ∈ s.calls, p.2.isDone = true) ↔
        (∀ p ∈ s.calls, p.1 ≠ .wait) ∨ count ≤ s.calls.countP fun p ↦ p.1 = .countDown)) := by
  have hstep : ∀ a s t, CountDownLatch.Ordered count s ∧ CountDownLatch.Informed s →
      CountDownLatch.Enabled a s → CountDownLatch.exec a s = some t →
      CountDownLatch.Ordered count t ∧ CountDownLatch.Informed t := by
    rintro a s t ⟨hordered, hinformed⟩ ha ht
    exact ⟨hordered.exec ha ht, hinformed.exec broadcast ha ht⟩
  obtain ⟨hordered, hinformed⟩ := runAll_invariant hstep
    ⟨Monitor.ordered_new count, fun p hp ↦ by cases hp⟩ hen hrun
  have hlate : ∀ pre k post, s.served = pre ++ (k, .wait, ()) :: post →
      count ≤ pre.countP fun x ↦ x.2.1 = .countDown := fun pre k post hserved ↦
    le_countP_of_serial (hserved ▸ hordered.serial)
  refine ⟨hlate, fun hstuck ↦ ?_⟩
  have hcount := count_of_serial hordered.serial
  have hmade := hordered.countP_calls fun c ↦ c = .countDown
  have hnone : (s.calls.countP fun p ↦ decide (p.1 = .countDown) && !p.2.isDone) = 0 := by
    rw [List.countP_eq_zero]
    intro p hp hand
    rw [Bool.and_eq_true, decide_eq_true_eq, Bool.not_eq_true'] at hand
    cases hand.1.symm.trans (eq_wait_of_stuck hinformed hstuck hp hand.2).1
  constructor
  · intro hdone
    by_cases hwait : ∀ p ∈ s.calls, p.1 ≠ .wait
    · exact .inl hwait
    push Not at hwait
    obtain ⟨⟨c, st⟩, hp, rfl⟩ := hwait
    obtain ⟨k, hk⟩ := List.mem_iff_getElem?.mp hp
    have hreturned := hdone _ hp
    cases st with
    | began | waiting | woken => cases hreturned
    | done r =>
        obtain ⟨pre, post, hserved⟩ :=
          List.append_of_mem ((hordered.served_iff k .wait r).mpr hk)
        have hle := hlate pre k post hserved
        have hpre : pre.countP (fun x ↦ x.2.1 = .countDown) ≤
            s.served.countP fun x ↦ x.2.1 = .countDown := by
          rw [hserved, List.countP_append]
          exact Nat.le_add_right _ _
        right
        omega
  · rintro (hwait | hle) p hp
    · by_contra hdone
      exact hwait p hp (eq_wait_of_stuck hinformed hstuck hp (eq_false_of_ne_true hdone)).1
    · by_contra hdone
      have hpos := (eq_wait_of_stuck hinformed hstuck hp (eq_false_of_ne_true hdone)).2
      omega

theorem countDownLatch_releases_two :
    ∃ s, runAll CountDownLatch.exec [.call .wait, .call .countDown, .call .wait, .enter 0 none,
        .enter 2 none, .wake 0, .enter 0 none, .enter 1 none, .enter 2 none, .enter 0 none]
          (.new 1) = some s ∧
      s.Stuck ∧ ∀ p ∈ s.calls, p.2.isDone = true := by
  refine ⟨⟨0, [(.wait, .done ()), (.countDown, .done ()), (.wait, .done ())],
    [(1, .countDown, ()), (2, .wait, ()), (0, .wait, ())]⟩, rfl, by decide, ?_⟩
  have hen : EachStep CountDownLatch.exec CountDownLatch.Enabled [.call .wait, .call .countDown,
      .call .wait, .enter 0 none, .enter 2 none, .wake 0, .enter 0 none, .enter 1 none,
      .enter 2 none, .enter 0 none] (.new 1) := by decide
  exact ((countDownLatch_releases_iff hen rfl).2 (by decide)).mpr (.inr (by decide))

end CountDownLatch

end PpDSCache.Base
