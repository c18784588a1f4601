import PpDSCache.Net.Poller

/-!
# What the pollers watch

Both pollers show the calls so far: the epoll poller in its three indices, the
poll poller in the sign of its descriptors.
-/

namespace PpDSCache.Net

open Abstract

section Pollers

variable {ι : Type*} {D : Descriptors ι}

/-! ## The calls so far -/

namespace Watch

def registered : Watch → Bool
  | fresh | active | idle => true
  | _ => false

/-- The index that `EPollPoller` gives the channel. -/
def epollIndex : Watch → ℤ
  | fresh | active => EPollPoller.kAdded
  | idle => EPollPoller.kDeleted
  | _ => EPollPoller.kNew

end Watch

namespace CallHistory

variable {h : CallHistory ι} {a : ι × ChannelCall} {i j : ι}

/-- The events that are to be watched. -/
def entry (h : CallHistory ι) (i : ι) : Option ℕ :=
  if h.watch i = .fresh ∨ h.watch i = .active then some (h.chan i).events else none

/-- The set that both pollers are to watch. -/
def watched (D : Descriptors ι) (h : CallHistory ι) : Set (ℤ × ℕ) :=
  {x | ∃ i, x.1 = D.fd i ∧ h.entry i = some x.2}

structure Inv (h : CallHistory ι) : Prop where
  active : ∀ i, h.watch i = .active → (h.chan i).isNoneEvent = false
  none : ∀ i, h.watch i ≠ .active → (h.chan i).isNoneEvent = true
  wasActive : ∀ i, h.wasActive i = true → h.watch i ≠ .unknown ∧ h.watch i ≠ .fresh

theorem inv_new : (new : CallHistory ι).Inv := by
  refine ⟨fun i hi ↦ ?_, fun i _ ↦ rfl, fun i hi ↦ ?_⟩
  · cases hi
  · cases hi

theorem nextWatch_remove (hremove : a.2 = .remove) : h.nextWatch a = .removed := if_pos hremove

theorem nextWatch_active (hupdate : a.2 ≠ .remove) (hevents : (h.next a).isNoneEvent = false) :
    h.nextWatch a = .active := by
  rw [nextWatch, if_neg hupdate, if_pos hevents]

theorem nextWatch_none (hupdate : a.2 ≠ .remove) (hnone : (h.next a).isNoneEvent = true) :
    h.nextWatch a = if h.watch a.1 = .unknown ∨ h.watch a.1 = .removed then .fresh else .idle := by
  rw [nextWatch, if_neg hupdate, if_neg (by simp [hnone])]

variable [DecidableEq ι]

@[simp] theorem watch_exec_self (a : ι × ChannelCall) : (h.exec a).watch a.1 = h.nextWatch a :=
  Function.update_self ..

@[simp] theorem chan_exec_self (a : ι × ChannelCall) : (h.exec a).chan a.1 = h.next a :=
  Function.update_self ..

theorem watch_exec_of_ne (hne : j ≠ a.1) : (h.exec a).watch j = h.watch j :=
  Function.update_of_ne hne ..

theorem chan_exec_of_ne (hne : j ≠ a.1) : (h.exec a).chan j = h.chan j :=
  Function.update_of_ne hne ..

theorem wasActive_exec_of_ne (hne : j ≠ a.1) : (h.exec a).wasActive j = h.wasActive j :=
  Function.update_of_ne hne ..

theorem entry_exec_self (a : ι × ChannelCall) : (h.exec a).entry a.1 =
    if h.nextWatch a = .fresh ∨ h.nextWatch a = .active then some (h.next a).events else none := by
  rw [entry, watch_exec_self, chan_exec_self]

theorem entry_exec_of_ne (hne : j ≠ a.1) : (h.exec a).entry j = h.entry j := by
  rw [entry, watch_exec_of_ne hne, chan_exec_of_ne hne]
  rfl

end CallHistory

/-! ## Calls that are made -/

/-- A channel is removed while it is registered and has no events. -/
def Permitted (a : ι × ChannelCall) (s : Pollers ι) : Prop :=
  a.2 = .remove →
    (s.history.watch a.1).registered = true ∧ (s.history.chan a.1).isNoneEvent = true

/-- A channel is not updated after its removal, one without events that has
been updated twice is not updated so again, and one is not removed right after
it was registered without events. -/
def Orderly (a : ι × ChannelCall) (s : Pollers ι) : Prop :=
  if a.2 = .remove then s.history.watch a.1 ≠ .fresh
  else s.history.watch a.1 ≠ .removed ∧
    ((s.history.next a).isNoneEvent = true → s.history.watch a.1 ≠ .idle)

/-- A channel is active exactly while it has events. -/
def CallHistory.TracksEvents (h : CallHistory ι) : Prop :=
  ∀ i, h.watch i = .active ↔ (h.chan i).isNoneEvent = false

theorem CallHistory.TracksEvents.exec [DecidableEq ι] {h : CallHistory ι} {a : ι × ChannelCall}
    (hev : h.TracksEvents) (hremove : a.2 = .remove → (h.chan a.1).isNoneEvent = true) :
    (h.exec a).TracksEvents := by
  intro j
  by_cases hja : j = a.1
  · subst hja
    rw [watch_exec_self, chan_exec_self, nextWatch]
    split_ifs with hcall hevents
    · have hnone : (h.next a).isNoneEvent = true := by
        rw [next, hcall]
        exact hremove hcall
      simp [hnone]
    · simp [hevents]
    · simp [hevents]
    · simp [hevents]
  · rw [watch_exec_of_ne hja, chan_exec_of_ne hja]
    exact hev j

theorem CallHistory.Inv.tracksEvents {h : CallHistory ι} (hinv : h.Inv) : h.TracksEvents := by
  refine fun i ↦ ⟨hinv.active i, fun hevents ↦ ?_⟩
  by_contra hne
  rw [hinv.none i hne] at hevents
  cases hevents

theorem CallHistory.Inv.exec [DecidableEq ι] {s : Pollers ι} {a : ι × ChannelCall}
    (h : s.history.Inv) (hper : Permitted a s) (hord : Orderly a s) : (s.history.exec a).Inv := by
  have hevents := h.tracksEvents.exec fun hremove ↦ (hper hremove).2
  refine ⟨fun j ↦ (hevents j).mp, fun j hj ↦ ?_, fun j hj ↦ ?_⟩
  · simpa using (hevents j).not.mp hj
  · by_cases hja : j = a.1
    · subst hja
      change Function.update s.history.wasActive a.1 _ a.1 = true at hj
      rw [Function.update_self, Bool.or_eq_true, Bool.not_eq_true'] at hj
      rw [watch_exec_self, nextWatch]
      split_ifs with hremove hnone hfirst
      · simp
      · simp
      · -- it has not been registered before, so it has not been active
        rw [Orderly, if_neg hremove] at hord
        have hunknown := hfirst.resolve_right hord.1
        rcases hj with hj | hj
        · exact absurd hunknown (h.wasActive a.1 hj).1
        · exact absurd hj hnone
      · simp
    · rw [wasActive_exec_of_ne hja] at hj
      rw [watch_exec_of_ne hja]
      exact h.wasActive j hj

/-! ## One poller with the calls it has seen -/

structure Recorded (ι P : Type*) where
  history : CallHistory ι
  poller : P

namespace Recorded

variable {P : Type*}

def exec [DecidableEq ι] (step : ι × ChannelCall → P → Option P) (a : ι × ChannelCall)
    (r : Recorded ι P) : Option (Recorded ι P) :=
  (step a r.poller).map fun p ↦ ⟨r.history.exec a, p⟩

/-- A channel is removed while it is registered and has no events. -/
def Permitted (a : ι × ChannelCall) (r : Recorded ι P) : Prop :=
  a.2 = .remove →
    (r.history.watch a.1).registered = true ∧ (r.history.chan a.1).isNoneEvent = true

end Recorded

/-! ## epoll -/

namespace EPollPoller

variable {e : EPollPoller ι} {h : CallHistory ι} {a : ι × ChannelCall} {i : ι}

structure Shows (D : Descriptors ι) (h : CallHistory ι) (e : EPollPoller ι) : Prop where
  chan : ∀ i, (e.chans i).channel = h.chan i
  index : ∀ i, (e.chans i).index = (h.watch i).epollIndex
  channels : ∀ i, e.channels (D.fd i) = if (h.watch i).registered = true then some i else none
  interest : ∀ i, e.interest (D.fd i) = (h.entry i).map fun events ↦ (events, i)
  outside : ∀ z, z ∉ Set.range D.fd → e.interest z = none

theorem shows_new : Shows D .new (new : EPollPoller ι) :=
  ⟨fun _ ↦ rfl, fun _ ↦ rfl, fun _ ↦ rfl, fun _ ↦ rfl, fun _ _ ↦ rfl⟩

theorem Shows.watched_eq (hs : e.Shows D h) : e.watched = h.watched D := by
  ext ⟨z, events⟩
  constructor
  · rintro ⟨i, hi⟩
    by_cases hz : z ∈ Set.range D.fd
    · obtain ⟨j, rfl⟩ := hz
      rw [hs.interest j, Option.map_eq_some_iff] at hi
      obtain ⟨events', hentry, heq⟩ := hi
      obtain ⟨rfl, rfl⟩ := Prod.mk.inj heq
      exact ⟨j, rfl, hentry⟩
    · rw [hs.outside z hz] at hi
      cases hi
  · rintro ⟨i, hi, hentry⟩
    refine ⟨i, ?_⟩
    rw [hi, hs.interest i, hentry]
    rfl

theorem Shows.next_eq (hs : e.Shows D h) (a : ι × ChannelCall) :
    a.2.apply (e.chans a.1).channel = h.next a := by
  rw [hs.chan a.1]
  rfl

variable [DecidableEq ι]

/-- The state after a call on one channel. -/
def after (D : Descriptors ι) (e : EPollPoller ι) (i : ι) (c : Polled) (reg : Option ι)
    (entry : Option (ℕ × ι)) : EPollPoller ι :=
  ⟨Function.update e.chans i c, Function.update e.channels (D.fd i) reg,
    Function.update e.interest (D.fd i) entry⟩

theorem Shows.after (hs : e.Shows D h) (a : ι × ChannelCall) {reg : Option ι}
    {entry : Option (ℕ × ι)}
    (hreg : reg = if (h.nextWatch a).registered = true then some a.1 else none)
    (hentry : entry = ((h.exec a).entry a.1).map fun events ↦ (events, a.1)) :
    (e.after D a.1 ⟨h.next a, (h.nextWatch a).epollIndex⟩ reg entry).Shows D (h.exec a) := by
  have hne : ∀ j, j ≠ a.1 → D.fd j ≠ D.fd a.1 := fun j hj heq ↦ hj (D.injective heq)
  refine ⟨fun j ↦ ?_, fun j ↦ ?_, fun j ↦ ?_, fun j ↦ ?_, fun z hz ↦ ?_⟩
  · by_cases hj : j = a.1
    · subst hj
      simp [EPollPoller.after]
    · rw [CallHistory.chan_exec_of_ne hj, ← hs.chan j]
      simp [EPollPoller.after, hj]
  · by_cases hj : j = a.1
    · subst hj
      simp [EPollPoller.after]
    · rw [CallHistory.watch_exec_of_ne hj, ← hs.index j]
      simp [EPollPoller.after, hj]
  · by_cases hj : j = a.1
    · subst hj
      simp [EPollPoller.after, hreg]
    · rw [CallHistory.watch_exec_of_ne hj, ← hs.channels j]
      simp [EPollPoller.after, hne j hj]
  · by_cases hj : j = a.1
    · subst hj
      simp [EPollPoller.after, hentry]
    · rw [CallHistory.entry_exec_of_ne hj, ← hs.interest j]
      simp [EPollPoller.after, hne j hj]
  · have hza : z ≠ D.fd a.1 := fun heq ↦ hz ⟨a.1, heq.symm⟩
    simp [EPollPoller.after, hza, hs.outside z hz]

/-- A channel that is not in the interest list is added to it. -/
theorem exec_of_absent (hupdate : a.2 ≠ .remove)
    (hplace : (e.chans a.1).index = kNew ∧ e.channels (D.fd a.1) = none ∨
      (e.chans a.1).index = kDeleted ∧ e.channels (D.fd a.1) = some a.1)
    (hinterest : e.interest (D.fd a.1) = none) :
    e.exec D a = some (e.after D a.1 ⟨a.2.apply (e.chans a.1).channel, kAdded⟩ (some a.1)
      (some ((a.2.apply (e.chans a.1).channel).events, a.1))) := by
  rcases hplace with ⟨hindex, hchannels⟩ | ⟨hindex, hchannels⟩
  · simp [exec, hupdate, updateChannel, setChan, setIndex, hindex, hchannels, update, epollCtl,
      hinterest, EPollPoller.after]
  · have hne : ¬ kDeleted = kNew := by decide
    simp [exec, hupdate, updateChannel, setChan, setIndex, hindex, hchannels, update, epollCtl,
      hinterest, EPollPoller.after, hne]

/-- A channel of the interest list is changed or taken out. -/
theorem exec_of_added (hupdate : a.2 ≠ .remove) (hindex : (e.chans a.1).index = kAdded)
    (hchannels : e.channels (D.fd a.1) = some a.1) {entry : ℕ × ι}
    (hinterest : e.interest (D.fd a.1) = some entry) :
    e.exec D a = some (if (a.2.apply (e.chans a.1).channel).isNoneEvent = true then
      e.after D a.1 ⟨a.2.apply (e.chans a.1).channel, kDeleted⟩ (some a.1) none
      else e.after D a.1 ⟨a.2.apply (e.chans a.1).channel, kAdded⟩ (some a.1)
        (some ((a.2.apply (e.chans a.1).channel).events, a.1))) := by
  have hnew : ¬ kAdded = kNew := by decide
  have hdeleted : ¬ kAdded = kDeleted := by decide
  split_ifs with hnone
  · simp [exec, hupdate, updateChannel, setChan, setIndex, hindex, hchannels, update, epollCtl,
      hinterest, EPollPoller.after, hnew, hdeleted, hnone]
  · simp [exec, hupdate, updateChannel, setChan, hindex, hchannels, update, epollCtl, hinterest,
      EPollPoller.after, hnew, hdeleted, hnone]

theorem exec_of_registered (hremove : a.2 = .remove)
    (hchannels : e.channels (D.fd a.1) = some a.1)
    (hnone : (e.chans a.1).channel.isNoneEvent = true)
    (hplace : (e.chans a.1).index = kDeleted ∧ e.interest (D.fd a.1) = none ∨
      (e.chans a.1).index = kAdded ∧ ∃ entry, e.interest (D.fd a.1) = some entry) :
    e.exec D a =
      some (e.after D a.1 ⟨a.2.apply (e.chans a.1).channel, kNew⟩ none none) := by
  have hnext : (ChannelCall.remove.apply (e.chans a.1).channel).isNoneEvent = true := hnone
  have hdeleted : ¬ kDeleted = kAdded := by decide
  rcases hplace with ⟨hindex, hinterest⟩ | ⟨hindex, entry, hinterest⟩
  · simp [exec, hremove, removeChannel, setChan, setIndex, hindex, hchannels, hinterest,
      EPollPoller.after, hnext, hdeleted]
  · simp [exec, hremove, removeChannel, setChan, setIndex, hindex, hchannels, update, epollCtl,
      hinterest, EPollPoller.after, hnext]

theorem Shows.exec_add (hs : e.Shows D h) (hupdate : a.2 ≠ .remove)
    (hnew : h.watch a.1 = .unknown ∨ h.watch a.1 = .removed ∨ h.watch a.1 = .idle) :
    e.exec D a = some (e.after D a.1 ⟨h.next a, kAdded⟩ (some a.1)
      (some ((h.next a).events, a.1))) := by
  have hindex := hs.index a.1
  have hchannels := hs.channels a.1
  have hinterest := hs.interest a.1
  rw [← hs.next_eq a]
  apply exec_of_absent hupdate
  · rcases hnew with hw | hw | hw <;> rw [hw] at hindex hchannels
    · exact .inl ⟨hindex, hchannels⟩
    · exact .inl ⟨hindex, hchannels⟩
    · exact .inr ⟨hindex, hchannels⟩
  · rw [hinterest, CallHistory.entry]
    rcases hnew with hw | hw | hw <;> simp [hw]

theorem Shows.exec_change (hs : e.Shows D h) (hupdate : a.2 ≠ .remove)
    (hadded : h.watch a.1 = .fresh ∨ h.watch a.1 = .active) :
    e.exec D a = some (if (h.next a).isNoneEvent = true then
      e.after D a.1 ⟨h.next a, kDeleted⟩ (some a.1) none
      else e.after D a.1 ⟨h.next a, kAdded⟩ (some a.1) (some ((h.next a).events, a.1))) := by
  have hinterest : e.interest (D.fd a.1) = some ((h.chan a.1).events, a.1) := by
    rw [hs.interest a.1, CallHistory.entry, if_pos hadded]
    rfl
  rw [← hs.next_eq a]
  apply exec_of_added hupdate _ _ hinterest
  · rw [hs.index a.1]
    rcases hadded with hw | hw <;> rw [hw] <;> rfl
  · rw [hs.channels a.1]
    rcases hadded with hw | hw <;> rw [hw] <;> rfl

theorem Shows.exec_remove (hs : e.Shows D h) (hremove : a.2 = .remove)
    (hreg : (h.watch a.1).registered = true) (hnone : (h.chan a.1).isNoneEvent = true) :
    e.exec D a = some (e.after D a.1 ⟨h.next a, kNew⟩ none none) := by
  have hindex := hs.index a.1
  have hinterest := hs.interest a.1
  rw [← hs.next_eq a]
  apply exec_of_registered hremove
  · rw [hs.channels a.1, if_pos hreg]
  · rw [hs.chan a.1]
    exact hnone
  · cases hw : h.watch a.1 <;>
      simp only [hw, Watch.epollIndex, Watch.registered, CallHistory.entry, reduceCtorEq]
        at hindex hreg hinterest
    · exact .inr ⟨hindex, _, hinterest⟩
    · exact .inr ⟨hindex, _, hinterest⟩
    · exact .inl ⟨hindex, hinterest⟩

theorem Shows.exec (hs : e.Shows D h)
    (hper : a.2 = .remove → (h.watch a.1).registered = true ∧ (h.chan a.1).isNoneEvent = true)
    (hidle : a.2 ≠ .remove → (h.next a).isNoneEvent = true → h.watch a.1 ≠ .idle) :
    ∃ e', e.exec D a = some e' ∧ e'.Shows D (h.exec a) := by
  have hset : ∀ w : Watch, h.nextWatch a = w → ∀ reg entry,
      reg = (if w.registered = true then some a.1 else none) →
      entry = (if w = .fresh ∨ w = .active then some ((h.next a).events, a.1) else none) →
      (e.after D a.1 ⟨h.next a, w.epollIndex⟩ reg entry).Shows D (h.exec a) := by
    rintro w rfl reg entry hreg hentry
    apply hs.after a hreg
    rw [hentry, CallHistory.entry_exec_self]
    split_ifs <;> rfl
  by_cases hremove : a.2 = .remove
  · obtain ⟨hreg, hnone⟩ := hper hremove
    refine ⟨_, hs.exec_remove hremove hreg hnone, ?_⟩
    exact hset .removed (CallHistory.nextWatch_remove hremove) none none rfl rfl
  by_cases hadded : h.watch a.1 = .fresh ∨ h.watch a.1 = .active
  · refine ⟨_, hs.exec_change hremove hadded, ?_⟩
    split_ifs with hnone
    · apply hset .idle _ (some a.1) none rfl rfl
      rw [CallHistory.nextWatch_none hremove hnone]
      rcases hadded with hw | hw <;> simp [hw]
    · have hevents : (h.next a).isNoneEvent = false := by simpa using hnone
      exact hset .active (CallHistory.nextWatch_active hremove hevents) _ _ rfl rfl
  · have hnew : h.watch a.1 = .unknown ∨ h.watch a.1 = .removed ∨ h.watch a.1 = .idle := by
      cases hw : h.watch a.1 <;> simp_all
    refine ⟨_, hs.exec_add hremove hnew, ?_⟩
    cases hnone : (h.next a).isNoneEvent with
    | true =>
        have hw := hidle hremove hnone
        have hfirst : h.watch a.1 = .unknown ∨ h.watch a.1 = .removed := by tauto
        apply hset .fresh _ (some a.1) _ rfl rfl
        rw [CallHistory.nextWatch_none hremove hnone, if_pos hfirst]
    | false => exact hset .active (CallHistory.nextWatch_active hremove hnone) _ _ rfl rfl

/-- An update that leaves an idle channel without events has it watched
again. -/
theorem Shows.watched_of_idle (hs : e.Shows D h) (hupdate : a.2 ≠ .remove)
    (hidle : h.watch a.1 = .idle) {e' : EPollPoller ι} (he : e.exec D a = some e') :
    (D.fd a.1, (h.next a).events) ∈ e'.watched := by
  rw [hs.exec_add hupdate (.inr (.inr hidle))] at he
  obtain rfl := Option.some.inj he
  exact ⟨a.1, Function.update_self ..⟩

end EPollPoller

/-! ## poll -/

namespace PollPoller

variable {p : PollPoller ι} {h : CallHistory ι} {a : ι × ChannelCall} {i j : ι} {k : ℕ}

/-- The entry of a registered channel. -/
def shown (D : Descriptors ι) (h : CallHistory ι) (i : ι) : PollFd :=
  ⟨if h.watch i = .idle then -D.fd i - 1 else D.fd i, (h.chan i).events⟩

structure Shows (D : Descriptors ι) (h : CallHistory ι) (p : PollPoller ι) : Prop where
  chan : ∀ i, (p.chans i).channel = h.chan i
  unknown : ∀ i, (p.chans i).index < 0 ↔ h.watch i = .unknown
  channels : ∀ i, p.channels (D.fd i) = if (h.watch i).registered = true then some i else none
  place : ∀ i, (h.watch i).registered = true →
    p.pollfds[(p.chans i).index.toNat]? = some (shown D h i)
  owner : ∀ k < p.pollfds.length, ∃ i, (h.watch i).registered = true ∧ (p.chans i).index = k

theorem shows_new : Shows D .new (new : PollPoller ι) where
  chan := fun _ ↦ rfl
  unknown := fun _ ↦ by simp [new, Polled.new, CallHistory.new]
  channels := fun _ ↦ rfl
  place := fun _ hi ↦ by cases hi
  owner := fun k hk ↦ absurd hk (Nat.not_lt_zero k)

theorem shown_injective (D : Descriptors ι) (heq : (shown D h i).fd = (shown D h j).fd) :
    i = j := by
  have hi := D.nonneg i
  have hj := D.nonneg j
  apply D.injective
  simp only [shown] at heq
  split_ifs at heq <;> omega

theorem descriptor_shown (D : Descriptors ι) (h : CallHistory ι) (i : ι) :
    (if (shown D h i).fd < 0 then -(shown D h i).fd - 1 else (shown D h i).fd) = D.fd i := by
  have hi := D.nonneg i
  simp only [shown]
  split_ifs <;> omega

theorem Shows.index_nonneg (hs : p.Shows D h) (hreg : (h.watch i).registered = true) :
    0 ≤ (p.chans i).index := by
  rw [← not_lt, hs.unknown i]
  intro hw
  rw [hw] at hreg
  cases hreg

theorem Shows.watched_eq (hs : p.Shows D h) : p.watched = h.watched D := by
  ext ⟨z, events⟩
  constructor
  · rintro ⟨hz, hmem⟩
    obtain ⟨k, hk⟩ := List.mem_iff_getElem?.mp hmem
    obtain ⟨i, hreg, hindex⟩ := hs.owner k (List.getElem?_eq_some_iff.mp hk).1
    have hplace := hs.place i hreg
    rw [hindex, Int.toNat_natCast, hk] at hplace
    obtain ⟨hfd, hev⟩ := PollFd.mk.inj (Option.some.inj hplace)
    have hidle : h.watch i ≠ .idle := by
      intro hw
      rw [if_pos hw] at hfd
      have hi := D.nonneg i
      change 0 ≤ z at hz
      omega
    rw [if_neg hidle] at hfd
    have hadded : h.watch i = .fresh ∨ h.watch i = .active := by
      cases hw : h.watch i <;> simp_all [Watch.registered]
    refine ⟨i, hfd, ?_⟩
    rw [CallHistory.entry, if_pos hadded, ← hev]
  · rintro ⟨i, hi, hentry⟩
    rw [CallHistory.entry] at hentry
    split_ifs at hentry with hadded
    have hreg : (h.watch i).registered = true := by
      rcases hadded with hw | hw <;> rw [hw] <;> rfl
    have hidle : h.watch i ≠ .idle := by
      rcases hadded with hw | hw <;> rw [hw] <;> decide
    have hplace := hs.place i hreg
    rw [shown, if_neg hidle, Option.some.inj hentry, ← hi] at hplace
    refine ⟨?_, List.mem_of_getElem? hplace⟩
    rw [hi]
    exact D.nonneg i

theorem Shows.next_eq (hs : p.Shows D h) (a : ι × ChannelCall) :
    a.2.apply (p.chans a.1).channel = h.next a := by
  rw [hs.chan a.1]
  rfl

theorem Shows.index_ne (hs : p.Shows D h) (hi : (h.watch i).registered = true)
    (hj : (h.watch j).registered = true) (hne : i ≠ j) :
    (p.chans i).index.toNat ≠ (p.chans j).index.toNat := by
  intro heq
  have hplace := hs.place i hi
  rw [heq, hs.place j hj] at hplace
  exact hne (shown_injective D (congrArg PollFd.fd (Option.some.inj hplace)).symm)

theorem Shows.lt_length (hs : p.Shows D h) (hreg : (h.watch i).registered = true) :
    (p.chans i).index.toNat < p.pollfds.length :=
  (List.getElem?_eq_some_iff.mp (hs.place i hreg)).1

variable [DecidableEq ι]

theorem Shows.chan_update (hs : p.Shows D h) (a : ι × ChannelCall) (index : ℤ) (j : ι) :
    (Function.update p.chans a.1 ⟨h.next a, index⟩ j).channel = (h.exec a).chan j := by
  by_cases hja : j = a.1
  · subst hja
    simp
  · rw [CallHistory.chan_exec_of_ne hja, ← hs.chan j]
    simp [hja]

theorem index_update (p : PollPoller ι) (i j : ι) (c : Channel) :
    (Function.update p.chans i ⟨c, (p.chans i).index⟩ j).index = (p.chans j).index := by
  by_cases hji : j = i
  · subst hji
    simp
  · simp [hji]

theorem shown_exec_of_ne (hne : j ≠ a.1) : shown D (h.exec a) j = shown D h j := by
  rw [shown, CallHistory.watch_exec_of_ne hne, CallHistory.chan_exec_of_ne hne]
  rfl

theorem shown_exec_self (a : ι × ChannelCall) : shown D (h.exec a) a.1 =
    ⟨if h.nextWatch a = .idle then -D.fd a.1 - 1 else D.fd a.1, (h.next a).events⟩ := by
  rw [shown, CallHistory.watch_exec_self, CallHistory.chan_exec_self]

/-- A channel that was never registered gets the next entry. -/
theorem Shows.exec_new (hs : p.Shows D h) (hupdate : a.2 ≠ .remove)
    (hnew : h.watch a.1 = .unknown) :
    ∃ p', p.exec D a = some p' ∧ p'.Shows D (h.exec a) := by
  have hindex : (p.chans a.1).index < 0 := (hs.unknown a.1).mpr hnew
  have hchannels : p.channels (D.fd a.1) = none := by
    rw [hs.channels a.1, hnew]
    rfl
  have hnext : (h.nextWatch a).registered = true ∧ h.nextWatch a ≠ .idle ∧
      h.nextWatch a ≠ .unknown := by
    cases hnone : (h.next a).isNoneEvent with
    | true => simp [CallHistory.nextWatch_none hupdate hnone, hnew, Watch.registered]
    | false => simp [CallHistory.nextWatch_active hupdate hnone, Watch.registered]
  obtain ⟨hreg, hidle, hunknown⟩ := hnext
  have hexec : p.exec D a = some ⟨Function.update p.chans a.1 ⟨h.next a, p.pollfds.length⟩,
      Function.update p.channels (D.fd a.1) (some a.1),
      p.pollfds ++ [⟨D.fd a.1, (h.next a).events⟩]⟩ := by
    simp [PollPoller.exec, hupdate, updateChannel, setChan, setIndex, hs.next_eq a, hindex,
      hchannels]
  refine ⟨_, hexec, hs.chan_update a _, fun j ↦ ?_, fun j ↦ ?_, fun j hj ↦ ?_, fun k hk ↦ ?_⟩
  · by_cases hja : j = a.1
    · subst hja
      simp [hunknown]
    · rw [CallHistory.watch_exec_of_ne hja, ← hs.unknown j]
      simp [hja]
  · by_cases hja : j = a.1
    · subst hja
      simp [hreg]
    · have hfd : D.fd j ≠ D.fd a.1 := fun heq ↦ hja (D.injective heq)
      rw [CallHistory.watch_exec_of_ne hja, ← hs.channels j]
      simp [hfd]
  · by_cases hja : j = a.1
    · subst hja
      simp [shown_exec_self, hidle]
    · rw [CallHistory.watch_exec_of_ne hja] at hj
      have hplace := hs.place j hj
      rw [shown_exec_of_ne hja, ← hplace]
      simp only [Function.update_of_ne hja]
      exact List.getElem?_append_left (List.getElem?_eq_some_iff.mp hplace).1
  · rcases Nat.lt_or_ge k p.pollfds.length with hlt | hge
    · obtain ⟨j, hj, hjk⟩ := hs.owner k hlt
      have hja : j ≠ a.1 := by
        rintro rfl
        rw [hnew] at hj
        cases hj
      refine ⟨j, ?_, ?_⟩
      · rw [CallHistory.watch_exec_of_ne hja]
        exact hj
      · simpa [hja] using hjk
    · have hlast : k = p.pollfds.length := by
        simp only [List.length_append, List.length_singleton] at hk
        omega
      refine ⟨a.1, ?_, ?_⟩
      · rw [CallHistory.watch_exec_self]
        exact hreg
      · simp [hlast]

/-- The entry of a registered channel is written anew. -/
theorem Shows.exec_change (hs : p.Shows D h) (hupdate : a.2 ≠ .remove)
    (hold : (h.watch a.1).registered = true) :
    ∃ p', p.exec D a = some p' ∧ p'.Shows D (h.exec a) := by
  have hindex := not_lt.mpr (hs.index_nonneg hold)
  have hplace := hs.place a.1 hold
  have hlt := (List.getElem?_eq_some_iff.mp hplace).1
  have hchannels : p.channels (D.fd a.1) = some a.1 := by rw [hs.channels a.1, if_pos hold]
  have hfd : (shown D h a.1).fd = D.fd a.1 ∨ (shown D h a.1).fd = -D.fd a.1 - 1 := by
    simp only [shown]
    split_ifs <;> simp
  have hshown : pollfdOf D a.1 (h.next a) = shown D (h.exec a) a.1 ∧
      (h.nextWatch a).registered = true := by
    rw [shown_exec_self]
    cases hnone : (h.next a).isNoneEvent with
    | true =>
        have hlater : ¬ (h.watch a.1 = .unknown ∨ h.watch a.1 = .removed) := by
          rintro (hw | hw) <;> rw [hw] at hold <;> cases hold
        simp [CallHistory.nextWatch_none hupdate hnone, hlater, pollfdOf, hnone, Watch.registered]
    | false =>
        simp [CallHistory.nextWatch_active hupdate hnone, pollfdOf, hnone, Watch.registered]
  obtain ⟨hshown, hreg⟩ := hshown
  have hexec : p.exec D a =
      some ⟨Function.update p.chans a.1 ⟨h.next a, (p.chans a.1).index⟩, p.channels,
        p.pollfds.set (p.chans a.1).index.toNat (shown D (h.exec a) a.1)⟩ := by
    simp [PollPoller.exec, hupdate, updateChannel, setChan, hs.next_eq a, hindex, hchannels, hplace,
      hfd, hshown]
  have hregOf : ∀ j, ((h.exec a).watch j).registered = true ↔ (h.watch j).registered = true := by
    intro j
    by_cases hja : j = a.1
    · subst hja
      simp [hreg, hold]
    · rw [CallHistory.watch_exec_of_ne hja]
  refine ⟨_, hexec, hs.chan_update a _, fun j ↦ ?_, fun j ↦ ?_, fun j hj ↦ ?_, fun k hk ↦ ?_⟩
  · rw [index_update, hs.unknown j]
    by_cases hja : j = a.1
    · subst hja
      rw [CallHistory.watch_exec_self]
      constructor <;> intro hw
      · rw [hw] at hold
        cases hold
      · rw [hw] at hreg
        cases hreg
    · rw [CallHistory.watch_exec_of_ne hja]
  · rw [hs.channels j]
    exact if_congr (hregOf j).symm rfl rfl
  · rw [index_update]
    by_cases hja : j = a.1
    · subst hja
      rw [List.getElem?_set_self hlt]
    · rw [hregOf] at hj
      rw [List.getElem?_set_ne (hs.index_ne hold hj (Ne.symm hja)), shown_exec_of_ne hja]
      exact hs.place j hj
  · rw [List.length_set] at hk
    obtain ⟨j, hj, hjk⟩ := hs.owner k hk
    exact ⟨j, (hregOf j).mpr hj, (index_update p a.1 j _).trans hjk⟩

/-- Taking out the entry of a channel: the other channels keep an entry each,
and the entries left have an owner. -/
theorem Shows.removed (hs : p.Shows D h) (hremove : a.2 = .remove)
    (hreg : (h.watch a.1).registered = true) {p' : PollPoller ι}
    (hchan : ∀ j, (p'.chans j).channel = (h.exec a).chan j)
    (hsign : ∀ j, (p'.chans j).index < 0 ↔ (p.chans j).index < 0)
    (hchannels : p'.channels = Function.update p.channels (D.fd a.1) none)
    (hplace : ∀ j, j ≠ a.1 → (h.watch j).registered = true →
      p'.pollfds[(p'.chans j).index.toNat]? = some (shown D h j))
    (howner : ∀ k < p'.pollfds.length, ∃ j, j ≠ a.1 ∧ (h.watch j).registered = true ∧
      (p'.chans j).index = k) : p'.Shows D (h.exec a) := by
  have hself : (h.exec a).watch a.1 = .removed := by
    rw [CallHistory.watch_exec_self, CallHistory.nextWatch_remove hremove]
  refine ⟨hchan, fun j ↦ ?_, fun j ↦ ?_, fun j hj ↦ ?_, fun k hk ↦ ?_⟩
  · rw [hsign j, hs.unknown j]
    by_cases hja : j = a.1
    · subst hja
      rw [hself]
      constructor <;> intro hw
      · rw [hw] at hreg
        cases hreg
      · cases hw
    · rw [CallHistory.watch_exec_of_ne hja]
  · rw [hchannels]
    by_cases hja : j = a.1
    · subst hja
      rw [Function.update_self, hself]
      rfl
    · have hfd : D.fd j ≠ D.fd a.1 := fun heq ↦ hja (D.injective heq)
      rw [Function.update_of_ne hfd, CallHistory.watch_exec_of_ne hja]
      exact hs.channels j
  · have hja : j ≠ a.1 := by
      rintro rfl
      rw [hself] at hj
      cases hj
    rw [CallHistory.watch_exec_of_ne hja] at hj
    rw [shown_exec_of_ne hja]
    exact hplace j hja hj
  · obtain ⟨j, hja, hj, hjk⟩ := howner k hk
    refine ⟨j, ?_, hjk⟩
    rw [CallHistory.watch_exec_of_ne hja]
    exact hj

/-- The channel is no longer in the map, its entry still in the array. -/
def unregistered (D : Descriptors ι) (p : PollPoller ι) (i : ι) (c : Channel) : PollPoller ι :=
  ⟨Function.update p.chans i ⟨c, (p.chans i).index⟩, Function.update p.channels (D.fd i) none,
    p.pollfds⟩

theorem Shows.drop_last (hs : p.Shows D h) (hremove : a.2 = .remove)
    (hreg : (h.watch a.1).registered = true)
    (hlast : (p.chans a.1).index.toNat = p.pollfds.length - 1) :
    ∃ p', dropPollfd (p.chans a.1).index.toNat (p.unregistered D a.1 (h.next a)) = some p' ∧
      p'.Shows D (h.exec a) := by
  refine ⟨_, if_pos hlast, hs.removed hremove hreg (hs.chan_update a _) (fun j ↦ ?_) rfl
    (fun j hja hj ↦ ?_) fun k hk ↦ ?_⟩
  · rw [unregistered, index_update]
  · have hne := hs.index_ne hj hreg hja
    have hjlt := hs.lt_length hj
    simp only [unregistered, Function.update_of_ne hja, List.getElem?_dropLast]
    rw [if_pos (by omega)]
    exact hs.place j hj
  · simp only [unregistered, List.length_dropLast] at hk
    obtain ⟨j, hj, hjk⟩ := hs.owner k (by omega)
    have hja : j ≠ a.1 := by
      rintro rfl
      rw [hjk, Int.toNat_natCast] at hlast
      omega
    refine ⟨j, hja, hj, ?_⟩
    simpa [unregistered, hja] using hjk

/-- The channel `m` at the end of the array is the one that gets the place. -/
theorem Shows.dropPollfd_eq (hs : p.Shows D h) {m : ι} (hm : (h.watch m).registered = true)
    (hmk : (p.chans m).index = (p.pollfds.length - 1 : ℕ)) (hma : m ≠ i)
    (hlast : (p.chans i).index.toNat ≠ p.pollfds.length - 1) (c : Channel) :
    dropPollfd (p.chans i).index.toNat (p.unregistered D i c) =
      some ⟨((p.unregistered D i c).setIndex m (p.chans i).index.toNat).chans,
        Function.update p.channels (D.fd i) none,
        (p.pollfds.set (p.chans i).index.toNat (shown D h m)).dropLast⟩ := by
  have hend : (p.unregistered D i c).pollfds.getLast? = some (shown D h m) := by
    have hplace := hs.place m hm
    rw [hmk, Int.toNat_natCast] at hplace
    rw [← hplace]
    exact List.getLast?_eq_getElem?
  have hfd : D.fd m ≠ D.fd i := fun heq ↦ hma (D.injective heq)
  have hfound : (p.unregistered D i c).channels (D.fd m) = some m := by
    simp [unregistered, hfd, hs.channels m, hm]
  have hmiddle : (p.chans i).index.toNat ≠ (p.unregistered D i c).pollfds.length - 1 := hlast
  rw [dropPollfd, if_neg hmiddle, hend, Option.bind_some, descriptor_shown, hfound, Option.map_some]
  rfl

theorem index_setIndex_unregistered (p : PollPoller ι) {i m : ι} (hindex : 0 ≤ (p.chans i).index)
    (c : Channel) (j : ι) :
    (((p.unregistered D i c).setIndex m (p.chans i).index.toNat).chans j).index =
      if j = m then (p.chans i).index else (p.chans j).index := by
  by_cases hjm : j = m
  · subst hjm
    simp [setIndex, setChan, hindex]
  · rw [if_neg hjm, ← index_update p i j c]
    simp [setIndex, setChan, unregistered, hjm]

theorem Shows.drop_swap (hs : p.Shows D h) (hremove : a.2 = .remove)
    (hreg : (h.watch a.1).registered = true)
    (hlast : (p.chans a.1).index.toNat ≠ p.pollfds.length - 1) :
    ∃ p', dropPollfd (p.chans a.1).index.toNat (p.unregistered D a.1 (h.next a)) = some p' ∧
      p'.Shows D (h.exec a) := by
  have hlt := hs.lt_length hreg
  have hindex := hs.index_nonneg hreg
  obtain ⟨m, hm, hmk⟩ := hs.owner (p.pollfds.length - 1) (by omega)
  have hma : m ≠ a.1 := by
    rintro rfl
    rw [hmk, Int.toNat_natCast] at hlast
    exact hlast rfl
  have hindexOf := index_setIndex_unregistered (D := D) (m := m) p hindex (h.next a)
  refine ⟨_, hs.dropPollfd_eq hm hmk hma hlast (h.next a), hs.removed hremove hreg (fun j ↦ ?_)
    (fun j ↦ ?_) rfl (fun j hja hj ↦ ?_) fun k hk ↦ ?_⟩
  · rw [← hs.chan_update a (p.chans a.1).index]
    by_cases hjm : j = m
    · subst hjm
      simp [setIndex, setChan, unregistered, hma]
    · simp [setIndex, setChan, unregistered, hjm]
  · dsimp only
    rw [hindexOf]
    split_ifs with hjm
    · have hmnonneg := hs.index_nonneg hm
      subst hjm
      omega
    · rfl
  · dsimp only
    rw [hindexOf, List.getElem?_dropLast, List.length_set]
    split_ifs with hjm hshort hshort
    · subst hjm
      rw [List.getElem?_set_self hlt]
    · omega
    · have hne := hs.index_ne hreg hj (Ne.symm hja)
      rw [List.getElem?_set_ne hne]
      exact hs.place j hj
    · have hne := hs.index_ne hj hm hjm
      have hjlt := hs.lt_length hj
      rw [hmk, Int.toNat_natCast] at hne
      omega
  · simp only [List.length_dropLast, List.length_set] at hk
    by_cases hka : k = (p.chans a.1).index.toNat
    · refine ⟨m, hma, hm, ?_⟩
      dsimp only
      rw [hindexOf, if_pos rfl]
      omega
    · obtain ⟨j, hj, hjk⟩ := hs.owner k (by omega)
      have hja : j ≠ a.1 := by
        rintro rfl
        rw [hjk] at hka
        exact hka rfl
      have hjm : j ≠ m := by
        rintro rfl
        omega
      refine ⟨j, hja, hj, ?_⟩
      dsimp only
      rw [hindexOf, if_neg hjm]
      exact hjk

theorem Shows.exec_remove (hs : p.Shows D h) (hremove : a.2 = .remove)
    (hidle : h.watch a.1 = .idle) (hnone : (h.chan a.1).isNoneEvent = true) :
    ∃ p', p.exec D a = some p' ∧ p'.Shows D (h.exec a) := by
  have hreg : (h.watch a.1).registered = true := by
    rw [hidle]
    rfl
  have hplace := hs.place a.1 hreg
  have happly : ChannelCall.remove.apply (p.chans a.1).channel = h.next a := hremove ▸ hs.next_eq a
  have hnext : (h.next a).isNoneEvent = true ∧ (h.next a).events = (h.chan a.1).events := by
    rw [CallHistory.next, hremove]
    exact ⟨hnone, rfl⟩
  have hchannels : p.channels (D.fd a.1) = some a.1 := by rw [hs.channels a.1, if_pos hreg]
  have hexec : p.exec D a =
      dropPollfd (p.chans a.1).index.toNat (p.unregistered D a.1 (h.next a)) := by
    rw [shown, if_pos hidle, ← hnext.2] at hplace
    simp [PollPoller.exec, hremove, removeChannel, setChan, happly, hchannels, hnext.1,
      hs.index_nonneg hreg, hplace, unregistered]
  rw [hexec]
  by_cases hlast : (p.chans a.1).index.toNat = p.pollfds.length - 1
  · exact hs.drop_last hremove hreg hlast
  · exact hs.drop_swap hremove hreg hlast

/-- A removed channel keeps its index, so an update looks for it in vain. -/
theorem Shows.exec_of_removed (hs : p.Shows D h) (hupdate : a.2 ≠ .remove)
    (hremoved : h.watch a.1 = .removed) : p.exec D a = none := by
  have hindex : ¬ (p.chans a.1).index < 0 := by
    rw [hs.unknown a.1, hremoved]
    decide
  have hchannels : p.channels (D.fd a.1) = none := by
    rw [hs.channels a.1, hremoved]
    rfl
  simp [PollPoller.exec, hupdate, updateChannel, setChan, hindex, hchannels]

/-- The entry of a channel registered without events is not negated. -/
theorem Shows.exec_of_fresh (hs : p.Shows D h) (hremove : a.2 = .remove)
    (hfresh : h.watch a.1 = .fresh) : p.exec D a = none := by
  have hplace := hs.place a.1 (by rw [hfresh]; rfl)
  have hidle : h.watch a.1 ≠ .idle := by
    rw [hfresh]
    decide
  have hfd : D.fd a.1 ≠ -D.fd a.1 - 1 := by
    have hnonneg := D.nonneg a.1
    omega
  rw [shown, if_neg hidle] at hplace
  simp [PollPoller.exec, hremove, removeChannel, setChan, hplace, hfd]

end PollPoller

end Pollers

end PpDSCache.Net
