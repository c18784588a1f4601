import PpDSCache.Net.PollerAgree

/-!
# The interest list of an epoll poller

`EPollPoller` chooses between `EPOLL_CTL_ADD`, `MOD` and `DEL` by the index of
the channel alone.  The index always tells whether the channel is in the map
and in the interest list of the kernel, so the choice is never wrong.
-/

namespace PpDSCache.Net

open Abstract

section Pollers

variable {ι : Type*} {D : Descriptors ι}

namespace EPollPoller

variable {e t : EPollPoller ι} {a : ι × ChannelCall} {i j : ι}

/-- The operation a call asks the kernel for. -/
def issued (a : ι × ChannelCall) (e : EPollPoller ι) : Option EpollOp :=
  if a.2 = .remove then
    if (e.chans a.1).index = kAdded then some .del else none
  else if (e.chans a.1).index = kAdded then
    if (a.2.apply (e.chans a.1).channel).isNoneEvent = true then some .del else some .mod
  else some .add

/-- `epoll_wait` fills an array of `size` events; `data.ptr` of each is the
channel. -/
def fillActiveChannels [DecidableEq ι] (D : Descriptors ι) (e : EPollPoller ι) (size : ℕ)
    (events : List (ι × ℕ)) : Option (List (ι × ℕ)) :=
  if events.length ≤ size then
    events.mapM fun x ↦ if e.channels (D.fd x.1) = some x.1 then some x else none
  else none

/-- The index after an update, by the index before it and the channel as it is
then. -/
def indexAfter (index : ℤ) (channel : Channel) : ℤ :=
  if index = kAdded ∧ channel.isNoneEvent = true then kDeleted else kAdded

theorem indexAfter_of_ne {index : ℤ} (h : index ≠ kAdded) (channel : Channel) :
    indexAfter index channel = kAdded := if_neg fun hand ↦ h hand.1

theorem indexAfter_added (channel : Channel) :
    indexAfter kAdded channel = if channel.isNoneEvent = true then kDeleted else kAdded := by
  simp [indexAfter]

/-- Where a channel stands, with whether it is registered. -/
inductive Stands (D : Descriptors ι) (e : EPollPoller ι) (i : ι) : Bool → Prop
  | new : (e.chans i).index = kNew → e.channels (D.fd i) = none → e.interest (D.fd i) = none →
      Stands D e i false
  | deleted : (e.chans i).index = kDeleted → e.channels (D.fd i) = some i →
      e.interest (D.fd i) = none → Stands D e i true
  | added : (e.chans i).index = kAdded → e.channels (D.fd i) = some i →
      e.interest (D.fd i) = some ((e.chans i).channel.events, i) → Stands D e i true

structure RunInv (D : Descriptors ι) (r : Recorded ι (EPollPoller ι)) : Prop where
  chan : ∀ i, (r.poller.chans i).channel = r.history.chan i
  stands : ∀ i, r.poller.Stands D i (r.history.watch i).registered
  outside : ∀ fd, fd ∉ Set.range D.fd → r.poller.interest fd = none

/-- The index says where the channel is, and the assertions on active channels
hold for whatever the kernel may report. -/
structure Keeps [DecidableEq ι] (D : Descriptors ι) (e : EPollPoller ι) : Prop where
  new : ∀ i, (e.chans i).index = kNew ↔
    e.channels (D.fd i) = none ∧ e.interest (D.fd i) = none
  deleted : ∀ i, (e.chans i).index = kDeleted ↔
    e.channels (D.fd i) = some i ∧ e.interest (D.fd i) = none
  added : ∀ i, (e.chans i).index = kAdded ↔
    e.channels (D.fd i) = some i ∧ e.interest (D.fd i) = some ((e.chans i).channel.events, i)
  known : ∀ i, (e.chans i).index = kNew ∨ (e.chans i).index = kDeleted ∨
    (e.chans i).index = kAdded
  active : ∀ size (events : List (ι × ℕ)), events.length ≤ size →
    (∀ x ∈ events, ∃ fd mask, e.interest fd = some (mask, x.1)) →
      e.fillActiveChannels D size events = some events

/-- The interest list changes by the operation issued and by nothing else, with
`ADD` for a descriptor outside of it, `MOD` and `DEL` for one inside. -/
structure CtlFits [DecidableEq ι] (D : Descriptors ι) (a : ι × ChannelCall) (e : EPollPoller ι) :
    Prop where
  performed : ∀ t, e.exec D a = some t →
    t.interest = (e.issued a).elim e.interest fun op ↦
      (epollCtl op (D.fd a.1) ((t.chans a.1).channel.events, a.1) e.interest).getD e.interest
  add : e.issued a = some .add → e.interest (D.fd a.1) = none
  mod : e.issued a = some .mod → e.interest (D.fd a.1) ≠ none
  del : e.issued a = some .del → e.interest (D.fd a.1) ≠ none

/-! ## The operations issued -/

theorem update_eq {op : EpollOp} (ht : e.update D op i = some t) :
    t.chans = e.chans ∧
      t.interest = (epollCtl op (D.fd i) ((e.chans i).channel.events, i) e.interest).getD
        e.interest := by
  rw [update] at ht
  cases hctl : epollCtl op (D.fd i) ((e.chans i).channel.events, i) e.interest with
  | some list =>
      rw [hctl] at ht
      obtain rfl := Option.some.inj ht
      exact ⟨rfl, rfl⟩
  | none =>
      rw [hctl] at ht
      split_ifs at ht
      obtain rfl := Option.some.inj ht
      exact ⟨rfl, rfl⟩

theorem interest_exec [DecidableEq ι] (ht : e.exec D a = some t) :
    t.interest = (e.issued a).elim e.interest fun op ↦
      (epollCtl op (D.fd a.1) ((t.chans a.1).channel.events, a.1) e.interest).getD
        e.interest := by
  have hchan : (e.setChan a.1
      { e.chans a.1 with channel := a.2.apply (e.chans a.1).channel }).chans a.1 =
        ⟨a.2.apply (e.chans a.1).channel, (e.chans a.1).index⟩ := Function.update_self ..
  simp only [exec] at ht
  split_ifs at ht with hremove
  · simp only [removeChannel, hchan] at ht
    split_ifs at ht with hreg hadded hdeleted
    · obtain ⟨u, hu, rfl⟩ := Option.map_eq_some_iff.mp ht
      obtain ⟨hchans, hinterest⟩ := update_eq hu
      simp [issued, hremove, hadded, hinterest, setIndex, setChan, hchans]
    · obtain rfl := Option.some.inj ht
      simp [issued, hremove, hadded, setIndex, setChan]
  · simp only [updateChannel, hchan] at ht
    split_ifs at ht with hnew hchannels hchannels hdeleted hadded hnone
    · have hop : e.issued a = some .add := by
        rw [issued, if_neg hremove, hnew]
        exact if_neg (by decide)
      obtain ⟨hchans, hinterest⟩ := update_eq ht
      simp [hop, hinterest, setIndex, setChan, hchans]
    · have hop : e.issued a = some .add := by
        rw [issued, if_neg hremove, hdeleted]
        exact if_neg (by decide)
      obtain ⟨hchans, hinterest⟩ := update_eq ht
      simp [hop, hinterest, setIndex, setChan, hchans]
    · obtain ⟨u, hu, rfl⟩ := Option.map_eq_some_iff.mp ht
      obtain ⟨hchans, hinterest⟩ := update_eq hu
      simp [issued, hremove, hadded, hnone, hinterest, setIndex, setChan, hchans]
    · obtain ⟨hchans, hinterest⟩ := update_eq ht
      simp [issued, hremove, hadded, hnone, hinterest, setChan, hchans]

/-! ## Where a channel stands -/

/-- A state of the three containers that differs at other channels only. -/
theorem Stands.congr {b : Bool} (h : e.Stands D i b) (hchan : t.chans i = e.chans i)
    (hchannels : t.channels (D.fd i) = e.channels (D.fd i))
    (hinterest : t.interest (D.fd i) = e.interest (D.fd i)) : t.Stands D i b := by
  cases h with
  | new hi hc hl =>
      exact .new (by rw [hchan, hi]) (by rw [hchannels, hc]) (by rw [hinterest, hl])
  | deleted hi hc hl =>
      exact .deleted (by rw [hchan, hi]) (by rw [hchannels, hc]) (by rw [hinterest, hl])
  | added hi hc hl =>
      exact .added (by rw [hchan, hi]) (by rw [hchannels, hc]) (by rw [hchan, hinterest, hl])

theorem index_ne_of_issued_add (h : e.issued a = some .add) : (e.chans a.1).index ≠ kAdded := by
  intro hadded
  rw [issued, if_pos hadded, if_pos hadded] at h
  split_ifs at h <;> cases h

theorem index_of_issued {op : EpollOp} (h : e.issued a = some op) (hop : op ≠ .add) :
    (e.chans a.1).index = kAdded := by
  by_contra hne
  rw [issued, if_neg hne, if_neg hne] at h
  split_ifs at h
  exact hop (Option.some.inj h).symm

/-- A channel is in the interest list exactly while its index says so. -/
theorem Stands.interest_eq_none_iff {b : Bool} (h : e.Stands D i b) :
    e.interest (D.fd i) = none ↔ (e.chans i).index ≠ kAdded := by
  cases h with
  | new hi hc hl => simp [hl, hi, show kNew ≠ kAdded by decide]
  | deleted hi hc hl => simp [hl, hi, show kDeleted ≠ kAdded by decide]
  | added hi hc hl => simp [hl, hi]

theorem Stands.ctlFits [DecidableEq ι] {b : Bool} (h : e.Stands D a.1 b) : e.CtlFits D a := by
  refine ⟨fun _ ↦ interest_exec, fun hop ↦ ?_, fun hop hnone ↦ ?_, fun hop hnone ↦ ?_⟩
  · exact h.interest_eq_none_iff.mpr (index_ne_of_issued_add hop)
  · exact h.interest_eq_none_iff.mp hnone (index_of_issued hop (by decide))
  · exact h.interest_eq_none_iff.mp hnone (index_of_issued hop (by decide))

theorem Stands.known {b : Bool} (h : e.Stands D i b) :
    (e.chans i).index = kNew ∨ (e.chans i).index = kDeleted ∨ (e.chans i).index = kAdded := by
  cases h with
  | new hi => exact .inl hi
  | deleted hi => exact .inr (.inl hi)
  | added hi => exact .inr (.inr hi)

/-- The three places exclude one another. -/
theorem Stands.index_iff {b : Bool} (h : e.Stands D i b) :
    ((e.chans i).index = kNew ↔ e.channels (D.fd i) = none ∧ e.interest (D.fd i) = none) ∧
    ((e.chans i).index = kDeleted ↔
      e.channels (D.fd i) = some i ∧ e.interest (D.fd i) = none) ∧
    ((e.chans i).index = kAdded ↔ e.channels (D.fd i) = some i ∧
      e.interest (D.fd i) = some ((e.chans i).channel.events, i)) := by
  have hnd : kNew ≠ kDeleted := by decide
  have hna : kNew ≠ kAdded := by decide
  have hda : kDeleted ≠ kAdded := by decide
  cases h with
  | new hi hc hl => simp [hi, hc, hl, hnd, hna]
  | deleted hi hc hl => simp [hi, hc, hl, hnd.symm, hda]
  | added hi hc hl => simp [hi, hc, hl, hna.symm, hda.symm]

theorem Stands.channels_of_interest {b : Bool} {mask : ℕ} (h : e.Stands D i b)
    (hentry : e.interest (D.fd i) = some (mask, j)) : i = j ∧ e.channels (D.fd i) = some i := by
  cases h with
  | new hi hc hl => simp [hl] at hentry
  | deleted hi hc hl => simp [hl] at hentry
  | added hi hc hl =>
      rw [hl] at hentry
      exact ⟨congrArg Prod.snd (Option.some.inj hentry), hc⟩

/-! ## Runs -/

variable {r : Recorded ι (EPollPoller ι)}

def start : Recorded ι (EPollPoller ι) := ⟨.new, new⟩

theorem runInv_start : RunInv D (start : Recorded ι (EPollPoller ι)) :=
  ⟨fun _ ↦ rfl, fun _ ↦ .new rfl rfl rfl, fun _ _ ↦ rfl⟩

/-- A channel the kernel reports on is in the map. -/
theorem RunInv.channels_of_interest (hinv : RunInv D r) {fd : ℤ} {mask : ℕ}
    (h : r.poller.interest fd = some (mask, i)) : r.poller.channels (D.fd i) = some i := by
  by_cases hfd : fd ∈ Set.range D.fd
  · obtain ⟨j, rfl⟩ := hfd
    obtain ⟨rfl, hchannels⟩ := (hinv.stands j).channels_of_interest h
    exact hchannels
  · rw [hinv.outside fd hfd] at h
    cases h

theorem registered_nextWatch (h : CallHistory ι) (a : ι × ChannelCall) :
    (h.nextWatch a).registered = decide (a.2 ≠ .remove) := by
  rw [CallHistory.nextWatch]
  split_ifs with hremove <;> simp [Watch.registered, hremove]

variable [DecidableEq ι]

/-- A call moves its own channel only. -/
theorem RunInv.after (hinv : RunInv D r) {c : Polled} {reg : Option ι} {entry : Option (ℕ × ι)}
    (hc : c.channel = r.history.next a)
    (hst : (r.poller.after D a.1 c reg entry).Stands D a.1 (r.history.nextWatch a).registered) :
    RunInv D ⟨r.history.exec a, r.poller.after D a.1 c reg entry⟩ := by
  refine ⟨fun j ↦ ?_, fun j ↦ ?_, fun fd hfd ↦ ?_⟩
  · by_cases hj : j = a.1
    · subst hj
      simp [EPollPoller.after, hc]
    · simp only [CallHistory.chan_exec_of_ne hj, ← hinv.chan j, EPollPoller.after,
        Function.update_of_ne hj]
  · by_cases hj : j = a.1
    · subst hj
      rw [CallHistory.watch_exec_self]
      exact hst
    · have hfd : D.fd j ≠ D.fd a.1 := fun heq ↦ hj (D.injective heq)
      rw [CallHistory.watch_exec_of_ne hj]
      exact (hinv.stands j).congr (Function.update_of_ne hj ..) (Function.update_of_ne hfd ..)
        (Function.update_of_ne hfd ..)
  · have hne : fd ≠ D.fd a.1 := fun heq ↦ hfd ⟨a.1, heq.symm⟩
    simp only [EPollPoller.after, Function.update_of_ne hne]
    exact hinv.outside fd hfd

/-- An update leaves the channel registered: one that is not in the interest
list is added, one that is there is changed or deleted. -/
theorem Stands.exec_update {b : Bool} (h : e.Stands D a.1 b) (hupdate : a.2 ≠ .remove) :
    ∃ entry, e.exec D a = some (e.after D a.1
        ⟨a.2.apply (e.chans a.1).channel,
          indexAfter (e.chans a.1).index (a.2.apply (e.chans a.1).channel)⟩ (some a.1) entry) ∧
      (e.after D a.1 ⟨a.2.apply (e.chans a.1).channel,
        indexAfter (e.chans a.1).index (a.2.apply (e.chans a.1).channel)⟩ (some a.1)
          entry).Stands D a.1 true := by
  cases h with
  | new hi hc hl =>
      rw [hi, indexAfter_of_ne (by decide)]
      refine ⟨_, exec_of_absent hupdate (.inl ⟨hi, hc⟩) hl, ?_⟩
      apply Stands.added <;> simp [EPollPoller.after]
  | deleted hi hc hl =>
      rw [hi, indexAfter_of_ne (by decide)]
      refine ⟨_, exec_of_absent hupdate (.inr ⟨hi, hc⟩) hl, ?_⟩
      apply Stands.added <;> simp [EPollPoller.after]
  | added hi hc hl =>
      have hexec := exec_of_added hupdate hi hc hl
      rw [hi, indexAfter_added]
      split_ifs at hexec ⊢
      · refine ⟨none, hexec, ?_⟩
        apply Stands.deleted <;> simp [EPollPoller.after]
      · refine ⟨_, hexec, ?_⟩
        apply Stands.added <;> simp [EPollPoller.after]

/-- What an update means for the index of its channel. -/
theorem Stands.index_update {b : Bool} (h : e.Stands D a.1 b) (hupdate : a.2 ≠ .remove)
    (ht : e.exec D a = some t) :
    (t.chans a.1).index = indexAfter (e.chans a.1).index (t.chans a.1).channel := by
  obtain ⟨entry, hexec, -⟩ := h.exec_update hupdate
  obtain rfl := Option.some.inj (hexec.symm.trans ht)
  simp [EPollPoller.after]

theorem Stands.exec_remove (h : e.Stands D a.1 true) (hremove : a.2 = .remove)
    (hnone : (e.chans a.1).channel.isNoneEvent = true) :
    e.exec D a = some (e.after D a.1 ⟨a.2.apply (e.chans a.1).channel, kNew⟩ none none) ∧
      (e.after D a.1 ⟨a.2.apply (e.chans a.1).channel, kNew⟩ none none).Stands D a.1 false := by
  constructor
  · cases h with
    | deleted hi hc hl => exact exec_of_registered hremove hc hnone (.inl ⟨hi, hl⟩)
    | added hi hc hl => exact exec_of_registered hremove hc hnone (.inr ⟨hi, _, hl⟩)
  · apply Stands.new <;> simp [EPollPoller.after]

theorem RunInv.exec (hinv : RunInv D r) (hper : r.Permitted a) :
    ∃ u, r.exec (EPollPoller.exec D) a = some u ∧ RunInv D u := by
  have hnext : a.2.apply (r.poller.chans a.1).channel = r.history.next a := by
    rw [hinv.chan a.1]
    rfl
  have hstands := hinv.stands a.1
  have hregistered := registered_nextWatch r.history a
  by_cases hremove : a.2 = .remove
  · obtain ⟨hreg, hnone⟩ := hper hremove
    rw [hreg] at hstands
    rw [← hinv.chan a.1] at hnone
    rw [decide_eq_false (not_not.mpr hremove)] at hregistered
    obtain ⟨hexec, hafter⟩ := hstands.exec_remove hremove hnone
    refine ⟨⟨r.history.exec a, _⟩, by rw [Recorded.exec, hexec, Option.map_some], ?_⟩
    exact hinv.after hnext (hregistered ▸ hafter)
  · rw [decide_eq_true hremove] at hregistered
    obtain ⟨entry, hexec, hafter⟩ := hstands.exec_update hremove
    refine ⟨⟨r.history.exec a, _⟩, by rw [Recorded.exec, hexec, Option.map_some], ?_⟩
    exact hinv.after hnext (hregistered ▸ hafter)

theorem RunInv.fillActiveChannels (hinv : RunInv D r) {size : ℕ} {events : List (ι × ℕ)}
    (hsize : events.length ≤ size)
    (hevents : ∀ x ∈ events, ∃ fd mask, r.poller.interest fd = some (mask, x.1)) :
    r.poller.fillActiveChannels D size events = some events := by
  rw [EPollPoller.fillActiveChannels, if_pos hsize]
  clear hsize
  induction events with
  | nil => rfl
  | cons x rest ih =>
      obtain ⟨⟨fd, mask, hx⟩, hrest⟩ := List.forall_mem_cons.mp hevents
      rw [List.mapM_cons, if_pos (hinv.channels_of_interest hx), ih hrest]
      rfl

theorem RunInv.keeps (hinv : RunInv D r) : r.poller.Keeps D where
  new := fun i ↦ (hinv.stands i).index_iff.1
  deleted := fun i ↦ (hinv.stands i).index_iff.2.1
  added := fun i ↦ (hinv.stands i).index_iff.2.2
  known := fun i ↦ (hinv.stands i).known
  active := fun _ _ ↦ hinv.fillActiveChannels

/-- After every call the index of each channel says where it is, and every
call issues the operation that fits; in particular none is impossible. -/
theorem keeps_of_permitted (D : Descriptors ι) {calls : List (ι × ChannelCall)}
    (hper : EachStep (Recorded.exec (EPollPoller.exec D)) Recorded.Permitted calls start) :
    (∀ pre, pre <+: calls → ∃ r,
      runAll (Recorded.exec (EPollPoller.exec D)) pre start = some r ∧ r.poller.Keeps D) ∧
    EachStep (Recorded.exec (EPollPoller.exec D)) (fun a r ↦ r.poller.CtlFits D a) calls start := by
  constructor
  · apply (forall_prefix_iff_eachStep (I := RunInv D) (fun _ hinv ↦ hinv.keeps)
      (fun _ _ hinv hper _ ↦ hinv.exec hper) (fun _ _ _ hper hnot ↦ absurd hper hnot)
      runInv_start hper).mpr hper
  · apply EachStep.of_invariant (I := RunInv D) (fun a r u hinv hper hu ↦ ?_)
      (fun a r hinv ↦ (hinv.stands a.1).ctlFits) runInv_start hper
    obtain ⟨u', hu', hinv'⟩ := hinv.exec hper
    obtain rfl := Option.some.inj (hu'.symm.trans hu)
    exact hinv'

/-- An idle channel that is updated without events once more is added to the
interest list again, with an empty mask. -/
theorem keeps_of_permitted_disableAll :
    ∃ r, runAll (Recorded.exec (EPollPoller.exec Pollers.numbered))
        [(0, .enableReading), (0, .disableAll), (0, .disableAll), (0, .remove),
          (0, .enableWriting)] start = some r ∧ r.poller.Keeps Pollers.numbered := by
  apply (keeps_of_permitted Pollers.numbered _).1 _ List.prefix_rfl
  refine eachStep_cons (fun hremove ↦ by cases hremove) rfl ?_
  refine eachStep_cons (fun hremove ↦ by cases hremove) rfl ?_
  refine eachStep_cons (fun hremove ↦ by cases hremove) rfl ?_
  refine eachStep_cons (fun _ ↦ ⟨rfl, rfl⟩) rfl ?_
  exact eachStep_cons (fun hremove ↦ by cases hremove) rfl trivial

end EPollPoller

end Pollers

end PpDSCache.Net
