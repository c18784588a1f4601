import PpDSCache.Master.RWLock

/-!
# What holds whenever the threads take turns

Each place says which of the members its thread has: the mutex `m`, the inner
lock, and the flag.  The members agree with the places in every reachable
state.
-/

namespace PpDSCache.Master

open Cpp Abstract

namespace Place

def ownsM : Place → Bool
  | .lockOwnsM | .lockFlagged | .lockNotified | .lockAcquired => true
  | .unlockOwnsM | .unlockCleared | .unlockNotified | .unlockReleased => true
  | .sharedTests | .sharedPassed | .sharedAcquired => true
  | _ => false

def holdsExclusive : Place → Bool
  | .lockAcquired | .writing => true
  | .unlockCalled | .unlockOwnsM | .unlockCleared | .unlockNotified => true
  | _ => false

def holdsShared : Place → Bool
  | .sharedAcquired | .reading | .unlockSharedCalled => true
  | _ => false

/-- From the statement that sets `has_writer` to the one that clears it. -/
def flagged : Place → Bool
  | .lockFlagged | .lockNotified | .lockAcquired | .writing => true
  | .unlockCalled | .unlockOwnsM => true
  | _ => false

theorem ownsM_or_holdsExclusive_of_flagged {p : Place} (h : p.flagged = true) :
    p.ownsM = true ∨ p.holdsExclusive = true := by
  cases p <;> simp_all [flagged, ownsM, holdsExclusive]

end Place

namespace RWLock

variable {T : Type} {s s' : RWLock T} {t : T} {q : Place}

structure Consistent (s : RWLock T) : Prop where
  owner_iff : ∀ u, s.m.owner = some u ↔ (s.place u).ownsM = true
  exclusive_iff : ∀ u, s.inner = .exclusive u ↔ (s.place u).holdsExclusive = true
  shares_iff : ∀ u, s.inner.Shares u ↔ (s.place u).holdsShared = true
  flag_iff : s.hasWriter = true ↔ ∃ u, (s.place u).flagged = true
  passed : ∀ u, s.place u = .sharedPassed → s.hasWriter = false
  notified : ∀ u, s.place u = .sharedWaits → s.hasWriter = true ∨ ∃ w, s.place w = .unlockCleared

theorem Consistent.eq_of_ownsM (hs : s.Consistent) {u w : T} (hu : (s.place u).ownsM = true)
    (hw : (s.place w).ownsM = true) : u = w := by
  rw [← hs.owner_iff] at hu hw
  exact Option.some.inj (hu.symm.trans hw)

theorem Consistent.eq_of_holdsExclusive (hs : s.Consistent) {u w : T}
    (hu : (s.place u).holdsExclusive = true) (hw : (s.place w).holdsExclusive = true) :
    u = w := by
  rw [← hs.exclusive_iff] at hu hw
  exact SharedMutex.exclusive.inj (hu.symm.trans hw)

theorem Consistent.ownsM_of_free (hs : s.Consistent) (hm : s.m.owner = none) (u : T) :
    (s.place u).ownsM = false := by
  rw [Bool.eq_false_iff, ne_eq, ← hs.owner_iff, hm]
  simp

theorem Consistent.place_of_exclusive (hs : s.Consistent) (hm : s.m.owner = none) {w : T}
    (hw : s.inner = .exclusive w) : s.place w = .writing ∨ s.place w = .unlockCalled := by
  have hexcl := (hs.exclusive_iff w).mp hw
  have hown := hs.ownsM_of_free hm w
  cases hq : s.place w <;> simp_all [Place.holdsExclusive, Place.ownsM]

/-- Another thread between setting and clearing the flag would own `m` or hold
the inner lock, and both are with the thread that clears it. -/
theorem Consistent.eq_of_flagged (hs : s.Consistent) (ht : s.place t = .unlockOwnsM) {u : T}
    (hu : (s.place u).flagged = true) : u = t := by
  rcases Place.ownsM_or_holdsExclusive_of_flagged hu with hown | hexcl
  · exact hs.eq_of_ownsM hown (by rw [ht]; rfl)
  · exact hs.eq_of_holdsExclusive hexcl (by rw [ht]; rfl)

theorem Consistent.flag_iff_exclusive (hs : s.Consistent) (hm : s.m.owner = none) :
    s.hasWriter = true ↔ ∃ w, s.inner = .exclusive w := by
  rw [hs.flag_iff]
  refine exists_congr fun w ↦ ?_
  have hown := hs.ownsM_of_free hm w
  rw [hs.exclusive_iff]
  cases hw : s.place w <;> simp_all [Place.ownsM, Place.flagged, Place.holdsExclusive]

/-- A writer from setting the flag to releasing the inner lock. -/
def Writes (s : RWLock T) (w : T) : Prop :=
  (s.place w).flagged = true ∨ s.place w = .unlockCleared ∨ s.place w = .unlockNotified

theorem Consistent.writes_of_exclusive (hs : s.Consistent) {w : T} (h : s.inner = .exclusive w) :
    s.Writes w := by
  rw [hs.exclusive_iff] at h
  cases hw : s.place w <;> simp_all [Writes, Place.flagged, Place.holdsExclusive]

theorem Consistent.not_passed (hs : s.Consistent) {w r : T} (hw : s.Writes w) :
    s.place r ≠ .sharedPassed := by
  intro hr
  have hown : (s.place r).ownsM = true := by rw [hr]; rfl
  rcases hw with hflag | hw | hw
  · have hset : s.hasWriter = true := hs.flag_iff.mpr ⟨w, hflag⟩
    simp [hs.passed r hr] at hset
  · have hrw : r = w := hs.eq_of_ownsM hown (by rw [hw]; rfl)
    simp [hrw, hw] at hr
  · have hrw : r = w := hs.eq_of_ownsM hown (by rw [hw]; rfl)
    simp [hrw, hw] at hr

theorem Consistent.inner_of_passed (hs : s.Consistent) {r : T} (hr : s.place r = .sharedPassed) :
    ∃ owners, s.inner = .shared owners := by
  cases hinner : s.inner with
  | shared owners => exact ⟨owners, rfl⟩
  | exclusive w => exact absurd hr (hs.not_passed (hs.writes_of_exclusive hinner))

theorem consistent_initial : (initial : RWLock T).Consistent where
  owner_iff := by simp [initial, Place.ownsM]
  exclusive_iff := by simp [initial, Place.holdsExclusive]
  shares_iff := by simp [initial, Place.holdsShared, SharedMutex.Shares]
  flag_iff := by simp [initial, Place.flagged]
  passed := by simp [initial]
  notified := by simp [initial]

/-! ## Every step keeps the members consistent -/

variable [DecidableEq T]

theorem Step.place_of_ne (h : Step s t s') {u : T} (hu : u ≠ t) :
    s'.place u = s.place u ∨
      s.place t = .unlockCleared ∧ s.place u = .sharedWaits ∧ s'.place u = .sharedWoken := by
  cases h with
  | notifyReaders hp =>
      rw [goto_place_of_ne _ _ hu]
      by_cases hwaits : s.place u = .sharedWaits
      · exact .inr ⟨hp, hwaits, if_pos hwaits⟩
      · exact .inl (if_neg hwaits)
  | _ => exact .inl (goto_place_of_ne _ _ hu)

theorem Step.table_of_ne (h : Step s t s') {u : T} (hu : u ≠ t) (f : Place → Bool)
    (hf : f .sharedWoken = f .sharedWaits) : f (s'.place u) = f (s.place u) := by
  rcases h.place_of_ne hu with hsame | ⟨-, hwaits, hwoken⟩
  · rw [hsame]
  · rw [hwaits, hwoken, hf]

theorem Step.owner_of_ne (h : Step s t s') {u : T} (hu : u ≠ t) :
    s'.m.owner = some u ↔ s.m.owner = some u := by
  cases h with
  | lockM hp hpq hm => simp [hm, hu.symm]
  | unlockM hp hpq hm => simp [hm, hu.symm]
  | wait hp hm => simp [hm, hu.symm]
  | _ => exact Iff.rfl

theorem Step.owner_self (h : Step s t s')
    (hs : s.m.owner = some t ↔ (s.place t).ownsM = true) :
    s'.m.owner = some t ↔ (s'.place t).ownsM = true := by
  cases h with
  | move hp hpq => cases hpq <;> simpa [hp, Place.ownsM] using hs
  | lockM hp hpq => cases hpq <;> simp [Place.ownsM]
  | unlockM hp hpq => cases hpq <;> simp [Place.ownsM]
  | wait hp => simp [Place.ownsM]
  | notifyReaders hp => simpa [hp, Place.ownsM] using hs
  | flag hp | clear hp | pass hp => simpa [hp, Place.ownsM] using hs
  | lockInner hp | unlockInner hp | lockShared hp | unlockShared hp =>
      simpa [hp, Place.ownsM] using hs

theorem Step.exclusive_of_ne (h : Step s t s') {u : T} (hu : u ≠ t) :
    s'.inner = .exclusive u ↔ s.inner = .exclusive u := by
  cases h with
  | lockInner hp hfree => simp [hfree, hu.symm]
  | unlockInner hp hheld => simp [hheld, hu.symm]
  | lockShared hp hfree => simp [hfree]
  | unlockShared hp hheld => simp [hheld]
  | _ => exact Iff.rfl

theorem Step.exclusive_self (h : Step s t s')
    (hs : s.inner = .exclusive t ↔ (s.place t).holdsExclusive = true) :
    s'.inner = .exclusive t ↔ (s'.place t).holdsExclusive = true := by
  cases h with
  | move hp hpq => cases hpq <;> simpa [hp, Place.holdsExclusive] using hs
  | lockM hp hpq => cases hpq <;> simpa [hp, Place.holdsExclusive] using hs
  | unlockM hp hpq => cases hpq <;> simpa [hp, Place.holdsExclusive] using hs
  | notifyReaders hp => simpa [hp, Place.holdsExclusive] using hs
  | flag hp | clear hp | wait hp | pass hp => simpa [hp, Place.holdsExclusive] using hs
  | lockInner | unlockInner | lockShared | unlockShared => simp [Place.holdsExclusive]

theorem Step.shares_of_ne (h : Step s t s') {u : T} (hu : u ≠ t) :
    s'.inner.Shares u ↔ s.inner.Shares u := by
  cases h with
  | lockInner hp hfree => simp [hfree, SharedMutex.Shares]
  | unlockInner hp hheld => simp [hheld, SharedMutex.Shares]
  | lockShared hp hfree => simp [hfree, SharedMutex.Shares, hu]
  | unlockShared hp hheld => simp [hheld, SharedMutex.Shares, hu]
  | _ => exact Iff.rfl

theorem Step.shares_self (h : Step s t s')
    (hs : s.inner.Shares t ↔ (s.place t).holdsShared = true) :
    s'.inner.Shares t ↔ (s'.place t).holdsShared = true := by
  cases h with
  | move hp hpq => cases hpq <;> simpa [hp, Place.holdsShared] using hs
  | lockM hp hpq => cases hpq <;> simpa [hp, Place.holdsShared] using hs
  | unlockM hp hpq => cases hpq <;> simpa [hp, Place.holdsShared] using hs
  | notifyReaders hp => simpa [hp, Place.holdsShared] using hs
  | flag hp | clear hp | wait hp | pass hp => simpa [hp, Place.holdsShared] using hs
  | lockInner | unlockInner | lockShared | unlockShared =>
      simp [SharedMutex.Shares, Place.holdsShared]

theorem Step.flag_cases (h : Step s t s') :
    s.place t = .lockOwnsM ∧ s'.hasWriter = true ∧ s'.place t = .lockFlagged ∨
      s.place t = .unlockOwnsM ∧ s'.hasWriter = false ∧ s'.place t = .unlockCleared ∨
      s'.hasWriter = s.hasWriter ∧ (s'.place t).flagged = (s.place t).flagged := by
  cases h with
  | flag hp => exact .inl ⟨hp, rfl, goto_place_self _ _ _⟩
  | clear hp => exact .inr (.inl ⟨hp, rfl, goto_place_self _ _ _⟩)
  | move hp hpq => cases hpq <;> simp [hp, Place.flagged]
  | lockM hp hpq => cases hpq <;> simp [hp, Place.flagged]
  | unlockM hp hpq => cases hpq <;> simp [hp, Place.flagged]
  | notifyReaders hp | wait hp | pass hp => simp [hp, Place.flagged]
  | lockInner hp | unlockInner hp | lockShared hp | unlockShared hp => simp [hp, Place.flagged]

theorem Step.flag_iff (h : Step s t s') (hs : s.Consistent) :
    s'.hasWriter = true ↔ ∃ u, (s'.place u).flagged = true := by
  obtain ⟨-, hset, hq⟩ | ⟨hp, hclear, hq⟩ | ⟨hsame, hself⟩ := h.flag_cases
  · exact iff_of_true hset ⟨t, by rw [hq]; rfl⟩
  · refine iff_of_false (by simp [hclear]) ?_
    rintro ⟨u, hu⟩
    by_cases hut : u = t
    · rw [hut, hq] at hu
      exact absurd hu (by decide)
    · rw [h.table_of_ne hut Place.flagged rfl] at hu
      exact hut (hs.eq_of_flagged hp hu)
  · rw [hsame, hs.flag_iff]
    refine exists_congr fun u ↦ ?_
    by_cases hut : u = t
    · rw [hut, hself]
    · rw [h.table_of_ne hut Place.flagged rfl]

theorem Step.passed_self (h : Step s t s') (hq : s'.place t = .sharedPassed) :
    s'.hasWriter = false := by
  cases h with
  | pass hp hflag => exact hflag
  | move hp hpq => cases hpq <;> simp at hq
  | lockM hp hpq => cases hpq <;> simp at hq
  | unlockM hp hpq => cases hpq <;> simp at hq
  | _ => simp at hq

theorem Step.waits_self (h : Step s t s') (hq : s'.place t = .sharedWaits) :
    s'.hasWriter = true := by
  cases h with
  | wait hp hm hflag => exact hflag
  | move hp hpq => cases hpq <;> simp at hq
  | lockM hp hpq => cases hpq <;> simp at hq
  | unlockM hp hpq => cases hpq <;> simp at hq
  | _ => simp at hq

theorem Step.waits_of_ne (h : Step s t s') {u : T} (hu : u ≠ t) (hq : s'.place u = .sharedWaits) :
    s.place u = .sharedWaits ∧ s.place t ≠ .unlockCleared := by
  cases h with
  | notifyReaders hp =>
      rw [goto_place_of_ne _ _ hu, notifyReaders_place] at hq
      split at hq <;> simp_all
  | move hp hpq => cases hpq <;> simpa [hp, goto_place_of_ne _ _ hu] using hq
  | lockM hp hpq => cases hpq <;> simpa [hp, goto_place_of_ne _ _ hu] using hq
  | unlockM hp hpq => cases hpq <;> simpa [hp, goto_place_of_ne _ _ hu] using hq
  | flag hp | clear hp | wait hp | pass hp => simpa [hp, goto_place_of_ne _ _ hu] using hq
  | lockInner hp | unlockInner hp | lockShared hp | unlockShared hp =>
      simpa [hp, goto_place_of_ne _ _ hu] using hq

theorem Step.passed (h : Step s t s') (hs : s.Consistent) (u : T)
    (hq : s'.place u = .sharedPassed) : s'.hasWriter = false := by
  by_cases hut : u = t
  · subst hut
    exact h.passed_self hq
  have hu : s.place u = .sharedPassed := by
    rcases h.place_of_ne hut with hsame | ⟨-, -, hwoken⟩
    · rw [← hsame, hq]
    · simp [hwoken] at hq
  obtain ⟨hp, -⟩ | ⟨-, hclear, -⟩ | ⟨hsame, -⟩ := h.flag_cases
  · exact absurd (hs.eq_of_ownsM (by rw [hu]; rfl) (by rw [hp]; rfl)) hut
  · exact hclear
  · rw [hsame, hs.passed u hu]

/-- No wakeup is lost: the flag is cleared by a thread that goes on to notify
the readers, with `m` in its hands. -/
theorem Step.notified (h : Step s t s') (hs : s.Consistent) (u : T)
    (hq : s'.place u = .sharedWaits) :
    s'.hasWriter = true ∨ ∃ w, s'.place w = .unlockCleared := by
  by_cases hut : u = t
  · subst hut
    exact .inl (h.waits_self hq)
  obtain ⟨hu, hcleared⟩ := h.waits_of_ne hut hq
  obtain ⟨-, hset, -⟩ | ⟨-, -, hclear⟩ | ⟨hsame, -⟩ := h.flag_cases
  · exact .inl hset
  · exact .inr ⟨t, hclear⟩
  · rw [hsame]
    refine (hs.notified u hu).imp_right ?_
    rintro ⟨w, hw⟩
    have hwt : w ≠ t := by
      rintro rfl
      exact hcleared hw
    rcases h.place_of_ne hwt with hstay | ⟨-, hwaits, -⟩
    · exact ⟨w, hstay.trans hw⟩
    · simp [hw] at hwaits

theorem Step.consistent (h : Step s t s') (hs : s.Consistent) : s'.Consistent where
  owner_iff u := by
    by_cases hut : u = t
    · subst hut
      exact h.owner_self (hs.owner_iff u)
    · rw [h.owner_of_ne hut, hs.owner_iff, h.table_of_ne hut Place.ownsM rfl]
  exclusive_iff u := by
    by_cases hut : u = t
    · subst hut
      exact h.exclusive_self (hs.exclusive_iff u)
    · rw [h.exclusive_of_ne hut, hs.exclusive_iff, h.table_of_ne hut Place.holdsExclusive rfl]
  shares_iff u := by
    by_cases hut : u = t
    · subst hut
      exact h.shares_self (hs.shares_iff u)
    · rw [h.shares_of_ne hut, hs.shares_iff, h.table_of_ne hut Place.holdsShared rfl]
  flag_iff := h.flag_iff hs
  passed := h.passed hs
  notified := h.notified hs

theorem Consistent.run (hs : s.Consistent) {ls : List (T × Act)} (h : runAll exec ls s = some s') :
    s'.Consistent :=
  runAll_invariant (fun _ _ _ hr _ hexec ↦ (step_of_exec hexec).consistent hr) hs
    (eachStep_true ls _) h

/-! ## The flag stands for the writer -/

theorem Consistent.exec_of_passed (hs : s.Consistent) {r : T} (hr : s.place r = .sharedPassed) :
    ∃ s', exec (r, .statement) s = some s' := by
  obtain ⟨owners, hinner⟩ := hs.inner_of_passed hr
  simp [exec, statement, hr, hinner, SharedMutex.lockShared]

/-- The step is `std::shared_mutex::unlock` of the writer. -/
def UnlocksInner (w : T) (l : T × Act) (s : RWLock T) : Prop :=
  l = (w, .statement) ∧ s.place w = .unlockNotified

/-- The step is `std::shared_mutex::lock_shared`. -/
def AcquiresShared (l : T × Act) (s : RWLock T) : Prop :=
  l.2 = .statement ∧ s.place l.1 = .sharedPassed

theorem Step.writes_self (h : Step s t s') (ht : s.Writes t) (hne : s.place t ≠ .unlockNotified) :
    s'.Writes t := by
  cases h with
  | move hp hpq => cases hpq <;> simp_all [Writes, Place.flagged]
  | lockM hp hpq => cases hpq <;> simp_all [Writes, Place.flagged]
  | unlockM hp hpq => cases hpq <;> simp_all [Writes, Place.flagged]
  | unlockInner hp => exact absurd hp hne
  | _ => simp_all [Writes, Place.flagged]

theorem Writes.exec {w : T} {l : T × Act} (hw : s.Writes w) (h : exec l s = some s')
    (hl : ¬ UnlocksInner w l s) : s'.Writes w := by
  obtain ⟨t, a⟩ := l
  have hstep := step_of_exec h
  by_cases hwt : w = t
  · subst hwt
    refine hstep.writes_self hw fun hp ↦ ?_
    -- the writer has one thing to do there
    have ha : a = .statement := by
      cases a <;> simp_all [RWLock.exec]
    exact hl ⟨by rw [ha], hp⟩
  · rcases hstep.place_of_ne hwt with hsame | ⟨-, hwaits, -⟩
    · rwa [Writes, hsame]
    · simp [Writes, hwaits, Place.flagged] at hw

/-- With `m` free the flag says that the lock is held exclusively; a reader
that has passed the test takes the inner lock at once; and once a writer has
set the flag no reader takes it before that writer has released it. -/
theorem flag_stands_for_writer {ls : List (T × Act)} (h : runAll exec ls initial = some s) :
    (s.m.owner = none → (s.hasWriter = true ↔ ∃ w, s.inner = .exclusive w)) ∧
    (∀ r, s.place r = .sharedPassed →
      s.m.owner = some r ∧ ∃ s', exec (r, .statement) s = some s') ∧
    ∀ w s' ls', s.place w = .lockOwnsM → exec (w, .statement) s = some s' →
      EachStep exec (fun l r ↦ ¬ UnlocksInner w l r) ls' s' →
      EachStep exec (fun l r ↦ ¬ AcquiresShared l r) ls' s' := by
  have hs := consistent_initial.run h
  refine ⟨hs.flag_iff_exclusive, fun r hr ↦ ⟨?_, hs.exec_of_passed hr⟩, ?_⟩
  · rw [hs.owner_iff, hr]
    rfl
  · intro w s' ls' hw hexec hls
    have hs' : s'.Consistent ∧ s'.Writes w := by
      refine ⟨(step_of_exec hexec).consistent hs, .inl ?_⟩
      obtain rfl : _ = s' := by simpa [exec, statement, hw] using hexec
      simp [Place.flagged]
    refine EachStep.of_invariant (I := fun r ↦ r.Consistent ∧ r.Writes w)
      (fun l r r' hr hl hexec ↦ ?_) (fun l r hr hl ↦ ?_) hs' hls
    · exact ⟨(step_of_exec hexec).consistent hr.1, hr.2.exec hexec hl⟩
    · exact hr.1.not_passed hr.2 hl.2

def writerAndReader : List (Bool × Act) :=
  ([.lock, .statement, .statement, .statement, .statement, .statement] : List Act).map (true, ·) ++
    ([.lockShared, .statement, .statement] : List Act).map (false, ·)

theorem flag_stands_for_writer_waiting_reader :
    ∃ s : RWLock Bool, runAll exec writerAndReader initial = some s ∧
      s.place false = .sharedWaits ∧ s.m.owner = none ∧ ∃ w, s.inner = .exclusive w := by
  obtain ⟨s, hrun, hwaits, hm, hflag⟩ :
      ∃ s : RWLock Bool, runAll exec writerAndReader initial = some s ∧
        s.place false = .sharedWaits ∧ s.m.owner = none ∧ s.hasWriter = true :=
    ⟨_, rfl, rfl, rfl, rfl⟩
  exact ⟨s, hrun, hwaits, hm, ((flag_stands_for_writer hrun).1 hm).mp hflag⟩

end RWLock

end PpDSCache.Master
