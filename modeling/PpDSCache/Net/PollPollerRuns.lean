import PpDSCache.Net.PollerAgree

/-!
# The array of a poll poller

`PollPoller` keeps a map, a dense array and an index in every channel, and
removes by swapping with the last entry.  The three fit together as long as no
channel is updated after its removal and none is removed right after an update
that registered it without events.
-/

namespace PpDSCache.Net

open Abstract

section Pollers

variable {ι : Type*} {D : Descriptors ι}

namespace PollPoller

/-- The entries come with the `revents` that `poll` has written.  The channels
found are listed, unless an assertion fails. -/
def fillActiveChannels (D : Descriptors ι) (p : PollPoller ι) :
    ℤ → List (PollFd × ℤ) → Option (List (ι × ℤ))
  | _, [] => some []
  | numEvents, (pfd, revents) :: rest =>
      if 0 < numEvents then
        if 0 < revents then
          (p.channels pfd.fd).bind fun i ↦
            if D.fd i = pfd.fd then
              (fillActiveChannels D p (numEvents - 1) rest).map fun found ↦ (i, revents) :: found
            else none
        else fillActiveChannels D p numEvents rest
      else some []

/-- The map, the array and the indices fit together.  `poll` reports nothing
for an entry with a negative descriptor. -/
structure Represents (D : Descriptors ι) (h : CallHistory ι) (p : PollPoller ι) : Prop where
  channels : ∀ fd i, p.channels fd = some i ↔ fd = D.fd i ∧ (h.watch i).registered = true
  index : Set.BijOn (fun i ↦ (p.chans i).index) {i | (h.watch i).registered = true}
    {k | 0 ≤ k ∧ k < p.pollfds.length}
  entry : ∀ i, (h.watch i).registered = true →
    ∃ pfd, p.pollfds[(p.chans i).index.toNat]? = some pfd ∧
      (pfd.fd = D.fd i ∨ pfd.fd = -D.fd i - 1) ∧ pfd.events = (p.chans i).channel.events
  active : ∀ numEvents (revents : List ℤ),
    (∀ x ∈ p.pollfds.zip revents, x.1.fd < 0 → x.2 = 0) →
      (fillActiveChannels D p numEvents (p.pollfds.zip revents)).isSome = true

variable {p : PollPoller ι} {h : CallHistory ι}

/-! ## What the invariant gives -/

/-- No descriptor of another channel is in the map. -/
def NoStranger (D : Descriptors ι) (p : PollPoller ι) : Prop :=
  ∀ fd, fd ∉ Set.range D.fd → p.channels fd = none

theorem Shows.channels_iff (hs : p.Shows D h) (hout : p.NoStranger D) (fd : ℤ) (i : ι) :
    p.channels fd = some i ↔ fd = D.fd i ∧ (h.watch i).registered = true := by
  by_cases hfd : fd ∈ Set.range D.fd
  · obtain ⟨j, rfl⟩ := hfd
    rw [hs.channels j]
    constructor
    · intro hj
      split_ifs at hj with hreg
      obtain rfl := Option.some.inj hj
      exact ⟨rfl, hreg⟩
    · rintro ⟨hji, hreg⟩
      obtain rfl := D.injective hji
      rw [if_pos hreg]
  · rw [hout fd hfd]
    refine iff_of_false (by simp) ?_
    rintro ⟨rfl, -⟩
    exact hfd ⟨i, rfl⟩

theorem Shows.bijOn_index (hs : p.Shows D h) :
    Set.BijOn (fun i ↦ (p.chans i).index) {i | (h.watch i).registered = true}
      {k | 0 ≤ k ∧ k < p.pollfds.length} := by
  refine ⟨fun i hi ↦ ?_, fun i hi j hj hij ↦ ?_, fun k hk ↦ ?_⟩
  · have hnonneg := hs.index_nonneg hi
    have hlt := hs.lt_length hi
    exact ⟨hnonneg, by simp only; omega⟩
  · by_contra hne
    exact hs.index_ne hi hj hne (congrArg Int.toNat hij)
  · obtain ⟨i, hi, hik⟩ := hs.owner k.toNat (by have := hk.1; have := hk.2; omega)
    refine ⟨i, hi, ?_⟩
    change (p.chans i).index = k
    rw [hik]
    exact Int.toNat_of_nonneg hk.1

theorem Shows.entry (hs : p.Shows D h) {i : ι} (hreg : (h.watch i).registered = true) :
    ∃ pfd, p.pollfds[(p.chans i).index.toNat]? = some pfd ∧
      (pfd.fd = D.fd i ∨ pfd.fd = -D.fd i - 1) ∧ pfd.events = (p.chans i).channel.events := by
  refine ⟨_, hs.place i hreg, ?_, ?_⟩
  · rw [shown]
    split_ifs
    · exact .inr rfl
    · exact .inl rfl
  · rw [hs.chan i]
    rfl

/-- An entry that is not negated leads to its channel. -/
theorem Shows.found (hs : p.Shows D h) {pfd : PollFd} (hmem : pfd ∈ p.pollfds)
    (hfd : 0 ≤ pfd.fd) : ∃ i, p.channels pfd.fd = some i ∧ D.fd i = pfd.fd := by
  obtain ⟨k, hk⟩ := List.mem_iff_getElem?.mp hmem
  obtain ⟨i, hreg, hik⟩ := hs.owner k (List.getElem?_eq_some_iff.mp hk).1
  have hplace := hs.place i hreg
  rw [hik, Int.toNat_natCast, hk] at hplace
  obtain rfl := Option.some.inj hplace
  have hdescriptor := descriptor_shown D h i
  rw [if_neg (by omega)] at hdescriptor
  refine ⟨i, ?_, hdescriptor.symm⟩
  rw [hdescriptor, hs.channels i, if_pos hreg]

theorem Shows.fillActiveChannels (hs : p.Shows D h) {entries : List (PollFd × ℤ)}
    (hmem : ∀ x ∈ entries, x.1 ∈ p.pollfds) (hquiet : ∀ x ∈ entries, x.1.fd < 0 → x.2 = 0)
    (numEvents : ℤ) : (fillActiveChannels D p numEvents entries).isSome = true := by
  induction entries generalizing numEvents with
  | nil => simp [PollPoller.fillActiveChannels]
  | cons x rest ih =>
      obtain ⟨pfd, revents⟩ := x
      obtain ⟨hfirst, hmem⟩ := List.forall_mem_cons.mp hmem
      obtain ⟨hquiet₁, hquiet⟩ := List.forall_mem_cons.mp hquiet
      have ih := ih hmem hquiet
      rw [PollPoller.fillActiveChannels]
      split_ifs with hn hr
      · have hfd : 0 ≤ pfd.fd := by
          by_contra hneg
          have hzero : revents = 0 := hquiet₁ (not_le.mp hneg)
          omega
        obtain ⟨i, hi, hdescriptor⟩ := hs.found hfirst hfd
        rw [hi, Option.bind_some, if_pos hdescriptor, Option.isSome_map]
        exact ih _
      · exact ih _
      · rfl

theorem Shows.represents (hs : p.Shows D h) (hout : p.NoStranger D) : p.Represents D h where
  channels := hs.channels_iff hout
  index := hs.bijOn_index
  entry := fun _ hreg ↦ hs.entry hreg
  active := fun numEvents _ hquiet ↦
    hs.fillActiveChannels (fun _ hx ↦ (List.of_mem_zip hx).1) hquiet numEvents

/-! ## Runs -/

variable {a : ι × ChannelCall} {r : Recorded ι (PollPoller ι)}

/-- A channel is not updated after its removal and not removed right after it
was registered without events. -/
def InOrder (a : ι × ChannelCall) (r : Recorded ι (PollPoller ι)) : Prop :=
  if a.2 = .remove then r.history.watch a.1 ≠ .fresh else r.history.watch a.1 ≠ .removed

structure RunInv (D : Descriptors ι) (r : Recorded ι (PollPoller ι)) : Prop where
  events : r.history.TracksEvents
  shows : r.poller.Shows D r.history
  noStranger : r.poller.NoStranger D

def start : Recorded ι (PollPoller ι) := ⟨.new, new⟩

theorem runInv_start : RunInv D (start : Recorded ι (PollPoller ι)) :=
  ⟨CallHistory.inv_new.tracksEvents, shows_new, fun _ _ ↦ rfl⟩

variable [DecidableEq ι]

theorem channels_dropPollfd {p p' : PollPoller ι} {idx : ℕ} (hp : dropPollfd idx p = some p') :
    p'.channels = p.channels := by
  rw [dropPollfd] at hp
  split_ifs at hp
  · obtain rfl := Option.some.inj hp
    rfl
  · obtain ⟨last, -, hp⟩ := Option.bind_eq_some_iff.mp hp
    obtain ⟨j, -, rfl⟩ := Option.map_eq_some_iff.mp hp
    rfl

/-- A call changes the map at the descriptor of its channel only. -/
theorem channels_exec {p p' : PollPoller ι} (hp : p.exec D a = some p') {fd : ℤ}
    (hfd : fd ≠ D.fd a.1) : p'.channels fd = p.channels fd := by
  rw [PollPoller.exec] at hp
  split_ifs at hp
  · rw [removeChannel] at hp
    split_ifs at hp
    obtain ⟨pfd, -, hp⟩ := Option.bind_eq_some_iff.mp hp
    split_ifs at hp
    rw [channels_dropPollfd hp]
    exact Function.update_of_ne hfd ..
  · rw [updateChannel] at hp
    split_ifs at hp
    · obtain rfl := Option.some.inj hp
      exact Function.update_of_ne hfd ..
    · obtain ⟨pfd, -, hp⟩ := Option.bind_eq_some_iff.mp hp
      split_ifs at hp
      obtain rfl := Option.some.inj hp
      rfl

theorem NoStranger.exec {p p' : PollPoller ι} (hout : p.NoStranger D)
    (hp : p.exec D a = some p') : p'.NoStranger D := by
  intro fd hfd
  have hne : fd ≠ D.fd a.1 := fun heq ↦ hfd ⟨a.1, heq.symm⟩
  rw [channels_exec hp hne]
  exact hout fd hfd

theorem RunInv.shows_exec (hinv : RunInv D r) (hper : r.Permitted a) (hord : InOrder a r) :
    ∃ p, r.poller.exec D a = some p ∧ p.Shows D (r.history.exec a) := by
  by_cases hremove : a.2 = .remove
  · obtain ⟨hreg, hnone⟩ := hper hremove
    rw [InOrder, if_pos hremove] at hord
    have hactive : r.history.watch a.1 ≠ .active := by
      rw [Ne, hinv.events a.1, hnone]
      decide
    have hidle : r.history.watch a.1 = .idle := by
      cases hw : r.history.watch a.1 <;> simp_all [Watch.registered]
    exact hinv.shows.exec_remove hremove hidle hnone
  · rw [InOrder, if_neg hremove] at hord
    by_cases hunknown : r.history.watch a.1 = .unknown
    · exact hinv.shows.exec_new hremove hunknown
    · have hreg : (r.history.watch a.1).registered = true := by
        cases hw : r.history.watch a.1 <;> simp_all [Watch.registered]
      exact hinv.shows.exec_change hremove hreg

theorem RunInv.exec (hinv : RunInv D r) (hper : r.Permitted a) (hord : InOrder a r) :
    ∃ t, r.exec (PollPoller.exec D) a = some t ∧ RunInv D t := by
  obtain ⟨p, hp, hshows⟩ := hinv.shows_exec hper hord
  refine ⟨⟨r.history.exec a, p⟩, by rw [Recorded.exec, hp, Option.map_some], ?_⟩
  exact ⟨hinv.events.exec fun hremove ↦ (hper hremove).2, hshows, hinv.noStranger.exec hp⟩

theorem RunInv.exec_of_not_inOrder (hinv : RunInv D r) (hord : ¬ InOrder a r) :
    r.exec (PollPoller.exec D) a = none := by
  rw [Recorded.exec, Option.map_eq_none_iff]
  by_cases hremove : a.2 = .remove
  · rw [InOrder, if_pos hremove, not_not] at hord
    exact hinv.shows.exec_of_fresh hremove hord
  · rw [InOrder, if_neg hremove, not_not] at hord
    exact hinv.shows.exec_of_removed hremove hord

/-- After every call the representation is intact. -/
def KeepsRepresentation (D : Descriptors ι) (calls : List (ι × ChannelCall)) : Prop :=
  ∀ pre, pre <+: calls → ∃ r, runAll (Recorded.exec (PollPoller.exec D)) pre start = some r ∧
    r.poller.Represents D r.history

/-- No assertion fails and the representation stays intact exactly when every
call is in order. -/
theorem keepsRepresentation_iff_inOrder (D : Descriptors ι) {calls : List (ι × ChannelCall)}
    (hper : EachStep (Recorded.exec (PollPoller.exec D)) Recorded.Permitted calls start) :
    KeepsRepresentation D calls ↔
      EachStep (Recorded.exec (PollPoller.exec D)) InOrder calls start := by
  apply forall_prefix_iff_eachStep (I := RunInv D) (fun r hinv ↦ ?_)
    (fun _ _ hinv hper hord ↦ hinv.exec hper hord) (fun _ r hinv _ hord t ht ↦ ?_)
    runInv_start hper
  · exact hinv.shows.represents hinv.noStranger
  · rw [hinv.exec_of_not_inOrder hord] at ht
    cases ht

/-- Two channels, the first of which is removed from under the second. -/
theorem keepsRepresentation_iff_swap :
    KeepsRepresentation Pollers.numbered
      [(0, .enableReading), (1, .enableWriting), (0, .disableAll), (0, .remove)] := by
  apply (keepsRepresentation_iff_inOrder Pollers.numbered _).mpr
  · refine eachStep_cons (by decide : Watch.unknown ≠ .removed) rfl ?_
    refine eachStep_cons (by decide : Watch.unknown ≠ .removed) rfl ?_
    refine eachStep_cons (by decide : Watch.active ≠ .removed) rfl ?_
    exact eachStep_cons (by decide : Watch.idle ≠ .fresh) rfl trivial
  · refine eachStep_cons (fun hremove ↦ by cases hremove) rfl ?_
    refine eachStep_cons (fun hremove ↦ by cases hremove) rfl ?_
    refine eachStep_cons (fun hremove ↦ by cases hremove) rfl ?_
    exact eachStep_cons (fun _ ↦ ⟨rfl, rfl⟩) rfl trivial

/-- The calls of an acceptor that is destroyed without having listened: its
channel is removed after a first update without events. -/
theorem not_keepsRepresentation_first_disableAll :
    ∃ calls, EachStep (Recorded.exec (PollPoller.exec Pollers.numbered)) Recorded.Permitted calls
        start ∧
      runAll (Recorded.exec (PollPoller.exec Pollers.numbered)) calls start = none ∧
      ¬ KeepsRepresentation Pollers.numbered calls := by
  refine ⟨[(3, .disableAll), (3, .remove)], ?_, rfl, fun hall ↦ ?_⟩
  · refine eachStep_cons (fun hremove ↦ by cases hremove) rfl ?_
    exact ⟨fun _ ↦ ⟨rfl, rfl⟩, fun t ht ↦ trivial⟩
  · obtain ⟨r, hr, -⟩ := hall _ List.prefix_rfl
    cases hr

end PollPoller

end Pollers

end PpDSCache.Net
