import PpDSCache.Master.RWLockInvariant

/-!
# Deadlock of two writers

`lock` waits for the inner lock with `m` in its hands, and `unlock` needs `m`
to release the inner lock.  A second writer that gets `m` while the first one
holds the lock therefore blocks both.  Nothing else deadlocks.
-/

namespace PpDSCache.Master

open Cpp Abstract

def Place.locking : Place → Bool
  | .lockOwnsM | .lockFlagged | .lockNotified => true
  | _ => false

theorem Place.ownsM_of_locking {p : Place} (h : p.locking = true) : p.ownsM = true := by
  cases p <;> simp_all [locking, ownsM]

namespace RWLock

variable {T : Type} [DecidableEq T] {s s' : RWLock T} {t : T}

def Active (s : RWLock T) (t : T) : Prop := s.place t ≠ .idle

/-- Neither a spurious wakeup nor what it leads to: a return to the test of a
flag that is still set. -/
def Productive (l : T × Act) (s : RWLock T) : Prop :=
  l.2 ≠ .spuriousWakeup ∧ ¬ (s.place l.1 = .sharedWoken ∧ s.hasWriter = true)

def Deadlocked (s : RWLock T) : Prop :=
  (∃ t, s.Active t) ∧ ∀ t a, s.Active t → Productive (t, a) s → exec (t, a) s = none

/-- No thread at the start of `lock` goes on while the lock is held
exclusively. -/
def Unhurried (l : T × Act) (s : RWLock T) : Prop :=
  s.place l.1 = .lockCalled → ∀ w, s.inner ≠ .exclusive w

instance [Fintype T] (l : T × Act) (s : RWLock T) : Decidable (Unhurried l s) :=
  inferInstanceAs (Decidable (_ → ∀ _, _))

/-! ## Runs in which no writer hurries -/

def Alone (s : RWLock T) : Prop :=
  ∀ u, (s.place u).locking = true → ∀ w, s.inner ≠ .exclusive w

theorem Step.exclusive_new (h : Step s t s') {w : T} (hw : s'.inner = .exclusive w) :
    s.inner = .exclusive w ∨ s.place t = .lockNotified ∧ s'.place t = .lockAcquired := by
  cases h with
  | lockInner hp => exact .inr ⟨hp, goto_place_self _ _ _⟩
  | unlockInner | lockShared | unlockShared => simp at hw
  | _ => exact .inl hw

theorem Step.locking_self (h : Step s t s') (hq : (s'.place t).locking = true) :
    (s.place t).locking = true ∨ s.place t = .lockCalled := by
  cases h with
  | move hp hpq => cases hpq <;> simp_all [Place.locking]
  | lockM hp hpq => cases hpq <;> simp_all [Place.locking]
  | unlockM hp hpq => cases hpq <;> simp_all [Place.locking]
  | _ => simp_all [Place.locking]

theorem Step.alone (h : Step s t s') (hs : s.Consistent) (ha : s.Alone)
    (ht : s.place t = .lockCalled → ∀ w, s.inner ≠ .exclusive w) : s'.Alone := by
  intro u hu w hw
  by_cases hut : u = t
  · subst hut
    rcases h.exclusive_new hw with hold | ⟨-, hq⟩
    · rcases h.locking_self hu with hlocking | hcalled
      · exact ha u hlocking w hold
      · exact ht hcalled w hold
    · simp [hq, Place.locking] at hu
  · rw [h.table_of_ne hut Place.locking rfl] at hu
    rcases h.exclusive_new hw with hold | ⟨hp, -⟩
    · exact ha u hu w hold
    · exact hut (hs.eq_of_ownsM (Place.ownsM_of_locking hu) (by rw [hp]; rfl))

theorem alone_of_run {ls : List (T × Act)} (hok : EachStep exec Unhurried ls initial)
    (h : runAll exec ls initial = some s) : s.Consistent ∧ s.Alone := by
  refine runAll_invariant (I := fun r ↦ r.Consistent ∧ r.Alone) (fun l r r' hr hl hexec ↦ ?_)
    ⟨consistent_initial, fun u hu ↦ by simp [initial, Place.locking] at hu⟩ hok h
  have hstep := step_of_exec hexec
  exact ⟨hstep.consistent hr.1, hstep.alone hr.1 hr.2 hl⟩

/-! ## Who can go on -/

def CanGoOn (s : RWLock T) : Prop :=
  ∃ t a, s.Active t ∧ Productive (t, a) s ∧ ∃ s', exec (t, a) s = some s'

theorem CanGoOn.not_deadlocked (h : s.CanGoOn) : ¬ s.Deadlocked := by
  rintro ⟨-, hstuck⟩
  obtain ⟨t, a, hactive, hprod, s', hexec⟩ := h
  simp [hstuck t a hactive hprod] at hexec

theorem canGoOn_of_statement (ht : s.Active t)
    (hwoken : s.place t = .sharedWoken → s.hasWriter = false)
    (h : ∃ s', s.statement t = some s') : s.CanGoOn := by
  refine ⟨t, .statement, ht, ⟨nofun, ?_⟩, h⟩
  rintro ⟨hp, hflag⟩
  simp [hwoken hp] at hflag

theorem Consistent.statement_of_owner (hs : s.Consistent) (hm : s.m.owner = some t)
    (hp : s.place t ≠ .lockNotified) : ∃ s', s.statement t = some s' := by
  have hown : (s.place t).ownsM = true := (hs.owner_iff t).mp hm
  cases hq : s.place t <;> rw [hq] at hown hp <;> try exact absurd hown (by decide)
  case lockNotified => exact absurd rfl hp
  case lockOwnsM | lockFlagged | unlockOwnsM | unlockCleared => simp [statement, hq]
  case lockAcquired | unlockReleased | sharedAcquired => simp [statement, hq, hm, Mutex.unlock]
  case unlockNotified =>
    have hinner : s.inner = .exclusive t := (hs.exclusive_iff t).mpr (by rw [hq]; rfl)
    simp [statement, hq, hinner, SharedMutex.unlock]
  case sharedTests =>
    by_cases hflag : s.hasWriter = true
    · simp [statement, hq, hflag, hm, Mutex.unlock]
    · simp [statement, hq, hflag]
  case sharedPassed => exact hs.exec_of_passed hq

theorem Consistent.canGoOn_of_shares (hs : s.Consistent) (h : s.inner.Shares t)
    (hown : (s.place t).ownsM = false) : s.CanGoOn := by
  have hplace := (hs.shares_iff t).mp h
  cases hq : s.place t <;> rw [hq] at hplace hown <;> try exact absurd hplace (by decide)
  case sharedAcquired => exact absurd hown (by decide)
  case reading =>
    exact ⟨t, .unlockShared, by simp [Active, hq], by simp [Productive, hq], by simp [exec, hq]⟩
  case unlockSharedCalled =>
    refine canGoOn_of_statement (t := t) (by simp [Active, hq]) (by simp [hq]) ?_
    cases hinner : s.inner with
    | exclusive w => simp [hinner, SharedMutex.Shares] at h
    | shared owners =>
        have ht : t ∈ owners := by simpa [hinner, SharedMutex.Shares] using h
        simp [statement, hq, hinner, SharedMutex.unlockShared, ht]

theorem Consistent.canGoOn_of_owner (hs : s.Consistent) (ha : s.Alone)
    (hm : s.m.owner = some t) : s.CanGoOn := by
  have hown : (s.place t).ownsM = true := (hs.owner_iff t).mp hm
  have hactive : s.Active t := fun hidle ↦ absurd (hidle ▸ hown) (by decide)
  have hwoken : s.place t ≠ .sharedWoken := fun hidle ↦ absurd (hidle ▸ hown) (by decide)
  by_cases hp : s.place t = .lockNotified
  swap
  · exact canGoOn_of_statement hactive (fun h ↦ absurd h hwoken) (hs.statement_of_owner hm hp)
  cases hinner : s.inner with
  | exclusive w => exact absurd hinner (ha t (by rw [hp]; rfl) w)
  | shared owners =>
      rcases owners.eq_empty_or_nonempty with rfl | ⟨r, hr⟩
      · refine canGoOn_of_statement hactive (fun h ↦ absurd h hwoken) ?_
        simp [statement, hp, hinner, SharedMutex.lock]
      · -- a reader keeps the writer waiting, and needs no mutex to leave
        have hshares : s.inner.Shares r := by simpa [hinner, SharedMutex.Shares] using hr
        refine hs.canGoOn_of_shares hshares (Bool.eq_false_iff.mpr fun hrown ↦ ?_)
        have hrt : r = t := hs.eq_of_ownsM hrown hown
        rw [hs.shares_iff, hrt, hp] at hshares
        exact absurd hshares (by decide)

/-- With `m` free a writer that holds the lock can leave, and without one
every thread can go on, since a waiting reader has been notified. -/
theorem Consistent.canGoOn_of_free (hs : s.Consistent) (hm : s.m.owner = none)
    (ht : s.Active t) : s.CanGoOn := by
  by_cases hflag : s.hasWriter = true
  · obtain ⟨w, hw⟩ := (hs.flag_iff_exclusive hm).mp hflag
    rcases hs.place_of_exclusive hm hw with hq | hq
    · exact ⟨w, .unlock, by simp [Active, hq], by simp [Productive, hq], by simp [exec, hq]⟩
    · refine canGoOn_of_statement (t := w) (by simp [Active, hq]) (by simp [hq]) ?_
      simp [statement, hq, hm, Mutex.lock]
  · have htown := hs.ownsM_of_free hm t
    have hclear : s.hasWriter = false := Bool.eq_false_iff.mpr hflag
    cases hq : s.place t <;> rw [hq] at htown <;> try exact absurd htown (by decide)
    case idle => exact absurd hq ht
    case lockCalled | unlockCalled | sharedCalled | sharedWoken =>
      refine canGoOn_of_statement ht (fun _ ↦ hclear) ?_
      simp [statement, hq, hm, Mutex.lock]
    case writing => exact ⟨t, .unlock, ht, by simp [Productive, hq], by simp [exec, hq]⟩
    case sharedWaits =>
      obtain hset | ⟨w, hw⟩ := hs.notified t hq
      · exact absurd hset hflag
      · have hwown := hs.ownsM_of_free hm w
        rw [hw] at hwown
        exact absurd hwown (by decide)
    case reading | unlockSharedCalled =>
      refine hs.canGoOn_of_shares ((hs.shares_iff t).mpr ?_) (hs.ownsM_of_free hm t)
      rw [hq]
      rfl

theorem Consistent.not_deadlocked (hs : s.Consistent) (ha : s.Alone) : ¬ s.Deadlocked := by
  intro h
  obtain ⟨t, ht⟩ := h.1
  cases hm : s.m.owner with
  | none => exact (hs.canGoOn_of_free hm ht).not_deadlocked h
  | some u => exact (hs.canGoOn_of_owner ha hm).not_deadlocked h

/-! ## A writer that hurries -/

theorem exec_eq_none {a : Act} (h : s.statement t = none) (ha : a ≠ .spuriousWakeup)
    (hidle : s.place t ≠ .idle) (hwriting : s.place t ≠ .writing)
    (hreading : s.place t ≠ .reading) : exec (t, a) s = none := by
  cases a with
  | lock | lockShared => exact if_neg hidle
  | unlock => exact if_neg hwriting
  | unlockShared => exact if_neg hreading
  | statement => exact h
  | spuriousWakeup => exact absurd rfl ha

/-- One writer holds the lock and wants `m`, the other has `m` and wants the
lock. -/
theorem Consistent.deadlocked (hs : s.Consistent) {v w : T} (hv : s.place v = .unlockCalled)
    (hw : s.place w = .lockNotified) : s.Deadlocked := by
  have hm : s.m.owner = some w := (hs.owner_iff w).mpr (by rw [hw]; rfl)
  have hinner : s.inner = .exclusive v := (hs.exclusive_iff v).mpr (by rw [hv]; rfl)
  refine ⟨⟨w, by simp [Active, hw]⟩, fun t a ht hprod ↦ ?_⟩
  have hown : (s.place t).ownsM = true → s.place t = .lockNotified :=
    fun h ↦ hs.eq_of_ownsM (w := w) h (by rw [hw]; rfl) ▸ hw
  have hexcl : (s.place t).holdsExclusive = true → s.place t = .unlockCalled :=
    fun h ↦ hs.eq_of_holdsExclusive (w := v) h (by rw [hv]; rfl) ▸ hv
  have hshared : (s.place t).holdsShared = false := by
    rw [Bool.eq_false_iff, ne_eq, ← hs.shares_iff, hinner]
    exact id
  have hblocked : s.statement t = none := by
    cases hq : s.place t
    case lockCalled | unlockCalled | sharedCalled | sharedWoken =>
      simp [statement, hq, hm, Mutex.lock]
    case lockNotified => simp [statement, hq, hinner, SharedMutex.lock]
    case idle | writing | reading | sharedWaits => simp [statement, hq]
    all_goals simp_all [Place.ownsM, Place.holdsShared]
  refine exec_eq_none hblocked hprod.1 ht (fun hq ↦ ?_) (fun hq ↦ ?_)
  · simp [hq, Place.holdsExclusive] at hexcl
  · simp [hq, Place.holdsShared] at hshared

theorem Step.of_lockCalled (h : Step s t s') (hp : s.place t = .lockCalled) :
    s.m.owner = none ∧ s'.place t = .lockOwnsM := by
  cases h with
  | lockM hp' hpq hm => cases hpq <;> simp_all
  | move hp' hpq => cases hpq <;> simp_all
  | unlockM hp' hpq => cases hpq <;> simp_all
  | _ => simp_all

theorem run_to_lockNotified {w : T} (hw : s.place w = .lockOwnsM) :
    ∃ r, runAll exec [(w, .statement), (w, .statement)] s = some r ∧ r.place w = .lockNotified ∧
      ∀ v, v ≠ w → r.place v = s.place v := by
  refine ⟨({ s with hasWriter := true }.goto w .lockFlagged).goto w .lockNotified, ?_, ?_, ?_⟩
  · simp [runAll, exec, statement, hw]
  · exact goto_place_self _ _ _
  · intro v hv
    rw [goto_place_of_ne _ _ hv, goto_place_of_ne _ _ hv]

theorem Consistent.deadlock_of_hurry (hs : s.Consistent) {l : T × Act}
    (hexec : exec l s = some s') (hl : ¬ Unhurried l s) :
    ∃ ls r, runAll exec ls s' = some r ∧ r.Deadlocked := by
  obtain ⟨w, a⟩ := l
  simp only [Unhurried, not_forall, not_not] at hl
  obtain ⟨hw, v, hinner⟩ := hl
  have hstep := step_of_exec hexec
  obtain ⟨hm, hw'⟩ := hstep.of_lockCalled hw
  have hv := hs.place_of_exclusive hm hinner
  have hvw : v ≠ w := by
    rintro rfl
    simp [hw] at hv
  have hv' : s'.place v = s.place v := by
    rcases hstep.place_of_ne hvw with hsame | ⟨hcleared, -⟩
    · exact hsame
    · simp [hw] at hcleared
  obtain ⟨r, hrun, hrw, hrother⟩ := run_to_lockNotified hw'
  have hr : r.Consistent := (hstep.consistent hs).run hrun
  rw [← hv', ← hrother v hvw] at hv
  rcases hv with hwriting | hcalled
  · have hunlock : exec (v, .unlock) r = some (r.goto v .unlockCalled) := if_pos hwriting
    have hrun' : runAll exec ([(w, .statement), (w, .statement)] ++ [(v, .unlock)]) s' =
        some (r.goto v .unlockCalled) :=
      runAll_append_iff.mpr ⟨r, hrun, runAll_cons_iff.mpr ⟨_, hunlock, rfl⟩⟩
    have hrw' : (r.goto v .unlockCalled).place w = .lockNotified := by
      rw [goto_place_of_ne _ _ hvw.symm, hrw]
    exact ⟨_, _, hrun', ((hstep.consistent hs).run hrun').deadlocked (goto_place_self _ _ _) hrw'⟩
  · exact ⟨_, r, hrun, hr.deadlocked hcalled hrw⟩

/-- While no writer hurries there is no deadlock; after one has, there can be
one. -/
theorem unhurried_runs_deadlock_free {ls : List (T × Act)} (h : runAll exec ls initial = some s) :
    (EachStep exec Unhurried ls initial → ¬ s.Deadlocked) ∧
    ∀ l s', exec l s = some s' → ¬ Unhurried l s →
      ∃ ls' r, runAll exec ls' s' = some r ∧ r.Deadlocked := by
  refine ⟨fun hok ↦ ?_, fun l s' hexec hl ↦ (consistent_initial.run h).deadlock_of_hurry hexec hl⟩
  obtain ⟨hs, ha⟩ := alone_of_run hok h
  exact hs.not_deadlocked ha

def statements (n : ℕ) : List Act := List.replicate n .statement

/-- Two writers hold the lock one after the other.  A reader waits for the
first, finds the flag of the second, and waits again. -/
def writersInTurn : List (Fin 3 × Act) :=
  (.lock :: statements 5).map (0, ·) ++ (.lockShared :: statements 2).map (2, ·) ++
    (.unlock :: statements 5).map (0, ·) ++ (.lock :: statements 5).map (1, ·) ++
    (statements 2).map (2, ·) ++ (.unlock :: statements 5).map (1, ·) ++
    (statements 4).map (2, ·)

theorem not_deadlocked_writersInTurn :
    ∃ s, runAll exec writersInTurn initial = some s ∧ s.place 0 = .idle ∧ s.place 1 = .idle ∧
      s.place 2 = .reading ∧ ¬ s.Deadlocked := by
  have hruns : ((runAll exec writersInTurn initial).map fun s ↦ s.place) =
      some ![.idle, .idle, .reading] := by decide +kernel
  obtain ⟨s, hrun, hplace⟩ := Option.map_eq_some_iff.mp hruns
  have hok : EachStep exec Unhurried writersInTurn initial := by decide +kernel
  exact ⟨s, hrun, congrFun hplace 0, congrFun hplace 1, congrFun hplace 2,
    (unhurried_runs_deadlock_free hrun).1 hok⟩

/-- The first writer takes the lock, the second goes up to the inner lock, and
the first calls `unlock`. -/
def twoWriters : List (Bool × Act) :=
  ([.lock, .statement, .statement, .statement, .statement, .statement] : List Act).map (true, ·) ++
    ([.lock, .statement, .statement, .statement] : List Act).map (false, ·) ++ [(true, .unlock)]

theorem deadlocked_twoWriters :
    ∃ s : RWLock Bool, runAll exec twoWriters initial = some s ∧ s.Deadlocked ∧
      ∀ l, exec l s = none := by
  obtain ⟨s, hrun, hv, hw⟩ :
      ∃ s : RWLock Bool, runAll exec twoWriters initial = some s ∧
        s.place true = .unlockCalled ∧ s.place false = .lockNotified := ⟨_, rfl, rfl, rfl⟩
  have hdead := (consistent_initial.run hrun).deadlocked hv hw
  refine ⟨s, hrun, hdead, fun ⟨t, a⟩ ↦ ?_⟩
  have hplace : s.place t ≠ .idle ∧ s.place t ≠ .sharedWaits ∧ s.place t ≠ .sharedWoken := by
    cases t <;> simp [hv, hw]
  by_cases ha : a = .spuriousWakeup
  · rw [ha]
    exact if_neg hplace.2.1
  · exact hdead.2 t a hplace.1 ⟨ha, fun h ↦ hplace.2.2 h.1⟩

end RWLock

end PpDSCache.Master
