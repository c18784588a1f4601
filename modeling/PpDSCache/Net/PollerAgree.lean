import PpDSCache.Net.PollerWatch

/-!
# Interchangeable pollers

The pollers ask the kernel to watch the same as long as a channel is updated
and removed in order.  An epoll poller adds an idle channel again when it is
updated without events once more; a poll poller cannot remove a channel it
registered without events, nor take back one it removed.
-/

namespace PpDSCache.Net

open Abstract

section Pollers

variable {ι : Type*} {D : Descriptors ι} {s : Pollers ι} {a : ι × ChannelCall}

namespace Pollers

/-- Both ask for the same, and for nothing on a channel that was active and has
no events left. -/
structure Agree (D : Descriptors ι) (s : Pollers ι) : Prop where
  watched : s.epoll.watched = s.poll.watched
  epoll : ∀ i, s.history.wasActive i = true → (s.epoll.chans i).channel.isNoneEvent = true →
    ∀ events, (D.fd i, events) ∉ s.epoll.watched
  poll : ∀ i, s.history.wasActive i = true → (s.poll.chans i).channel.isNoneEvent = true →
    ∀ events, (D.fd i, events) ∉ s.poll.watched

theorem notMem_watched (D : Descriptors ι) {h : CallHistory ι} {i : ι} (hentry : h.entry i = none)
    (events : ℕ) : (D.fd i, events) ∉ h.watched D := by
  rintro ⟨j, hj, hsome⟩
  obtain rfl := D.injective hj
  rw [hentry] at hsome
  cases hsome

theorem entry_eq_none {h : CallHistory ι} (hinv : h.Inv)
    {i : ι} (hactive : h.wasActive i = true) (hnone : (h.chan i).isNoneEvent = true) :
    h.entry i = none := by
  refine if_neg fun hw ↦ ?_
  rcases hw with hw | hw
  · exact (hinv.wasActive i hactive).2 hw
  · rw [hinv.active i hw] at hnone
    cases hnone

structure Inv (D : Descriptors ι) (s : Pollers ι) : Prop where
  history : s.history.Inv
  epoll : s.epoll.Shows D s.history
  poll : s.poll.Shows D s.history

theorem inv_new : (new : Pollers ι).Inv D :=
  ⟨CallHistory.inv_new, EPollPoller.shows_new, PollPoller.shows_new⟩

theorem Inv.agree (hinv : s.Inv D) : s.Agree D := by
  have hidle : ∀ i, s.history.wasActive i = true → (s.history.chan i).isNoneEvent = true →
      ∀ events, (D.fd i, events) ∉ s.history.watched D :=
    fun i hactive hnone ↦ notMem_watched D (entry_eq_none hinv.history hactive hnone)
  refine ⟨hinv.epoll.watched_eq.trans hinv.poll.watched_eq.symm, ?_, ?_⟩
  · intro i hactive hnone
    rw [hinv.epoll.chan i] at hnone
    rw [hinv.epoll.watched_eq]
    exact hidle i hactive hnone
  · intro i hactive hnone
    rw [hinv.poll.chan i] at hnone
    rw [hinv.poll.watched_eq]
    exact hidle i hactive hnone

variable [DecidableEq ι]

/-- The pollers agree after every call. -/
def Interchangeable (D : Descriptors ι) (calls : List (ι × ChannelCall)) : Prop :=
  ∀ pre, pre <+: calls → ∃ s, runAll (exec D) pre new = some s ∧ s.Agree D

theorem Inv.exec (hinv : s.Inv D) (hper : Permitted a s) (hord : Orderly a s) :
    ∃ t, s.exec D a = some t ∧ t.Inv D := by
  have hhistory := hinv.history.exec hper hord
  have hepoll : ∃ e, s.epoll.exec D a = some e ∧ e.Shows D (s.history.exec a) := by
    apply hinv.epoll.exec hper
    intro hupdate
    rw [Orderly, if_neg hupdate] at hord
    exact hord.2
  have hpoll : ∃ p, s.poll.exec D a = some p ∧ p.Shows D (s.history.exec a) := by
    by_cases hremove : a.2 = .remove
    · obtain ⟨hreg, hnone⟩ := hper hremove
      rw [Orderly, if_pos hremove] at hord
      have hidle : s.history.watch a.1 = .idle := by
        cases hw : s.history.watch a.1 with
        | unknown => rw [hw] at hreg; cases hreg
        | fresh => exact absurd hw hord
        | active => rw [hinv.history.active a.1 hw] at hnone; cases hnone
        | idle => rfl
        | removed => rw [hw] at hreg; cases hreg
      exact hinv.poll.exec_remove hremove hidle hnone
    · rw [Orderly, if_neg hremove] at hord
      cases hw : s.history.watch a.1 with
      | unknown => exact hinv.poll.exec_new hremove hw
      | removed => exact absurd hw hord.1
      | fresh => exact hinv.poll.exec_change hremove (by rw [hw]; rfl)
      | active => exact hinv.poll.exec_change hremove (by rw [hw]; rfl)
      | idle => exact hinv.poll.exec_change hremove (by rw [hw]; rfl)
  obtain ⟨e, he, heshows⟩ := hepoll
  obtain ⟨p, hp, hpshows⟩ := hpoll
  refine ⟨⟨s.history.exec a, e, p⟩, ?_, hhistory, heshows, hpshows⟩
  rw [Pollers.exec, he, Option.bind_some, hp, Option.map_some]

/-! ## Calls out of order -/

theorem Inv.not_agree (hinv : s.Inv D) (hord : ¬ Orderly a s) {t : Pollers ι}
    (ht : s.exec D a = some t) : ¬ t.Agree D := by
  intro hagree
  rw [Pollers.exec, Option.bind_eq_some_iff] at ht
  obtain ⟨e, he, ht⟩ := ht
  obtain ⟨p, hp, rfl⟩ := Option.map_eq_some_iff.mp ht
  by_cases hremove : a.2 = .remove
  · rw [Orderly, if_pos hremove, not_not] at hord
    rw [hinv.poll.exec_of_fresh hremove hord] at hp
    cases hp
  · rw [Orderly, if_neg hremove] at hord
    by_cases hremoved : s.history.watch a.1 = .removed
    · rw [hinv.poll.exec_of_removed hremove hremoved] at hp
      cases hp
    · obtain ⟨hnone, hidle⟩ : (s.history.next a).isNoneEvent = true ∧
          s.history.watch a.1 = .idle := by
        by_contra hnot
        exact hord ⟨hremoved, fun hnone hidle ↦ hnot ⟨hnone, hidle⟩⟩
      -- only the epoll poller watches the channel again
      have hwatched := hinv.epoll.watched_of_idle hremove hidle he
      obtain ⟨p', hp', hshows⟩ := hinv.poll.exec_change hremove (by rw [hidle]; rfl)
      obtain rfl := Option.some.inj (hp'.symm.trans hp)
      have hentry : (s.history.exec a).entry a.1 = none := by
        rw [CallHistory.entry_exec_self, CallHistory.nextWatch_none hremove hnone, hidle]
        rfl
      apply notMem_watched D hentry (s.history.next a).events
      rw [← hshows.watched_eq, ← hagree.watched]
      exact hwatched

/-- The pollers agree after every call exactly when every call is in order. -/
theorem interchangeable_iff (D : Descriptors ι) {calls : List (ι × ChannelCall)}
    (hper : EachStep (exec D) Permitted calls new) :
    Interchangeable D calls ↔ EachStep (exec D) Orderly calls new :=
  forall_prefix_iff_eachStep (fun _ hinv ↦ hinv.agree)
    (fun _ _ hinv hper hord ↦ hinv.exec hper hord)
    (fun _ _ hinv _ hord _ ht ↦ hinv.not_agree hord ht) inv_new hper

/-- Channels numbered by their descriptors. -/
def numbered : Descriptors ℕ := ⟨fun n ↦ n, fun n ↦ Int.natCast_nonneg n, Nat.cast_injective⟩

/-- A channel that is enabled, disabled and removed. -/
theorem interchangeable_iff_disableAll :
    Interchangeable numbered [(5, .enableReading), (5, .disableAll), (5, .remove)] := by
  apply (interchangeable_iff numbered _).mpr
  · refine eachStep_cons ⟨by decide, fun _ ↦ by decide⟩ rfl ?_
    refine eachStep_cons ⟨by decide, fun _ ↦ by decide⟩ rfl ?_
    exact eachStep_cons (by decide : Watch.idle ≠ .fresh) rfl trivial
  · refine eachStep_cons (fun hremove ↦ by cases hremove) rfl ?_
    refine eachStep_cons (fun hremove ↦ by cases hremove) rfl ?_
    exact eachStep_cons (fun _ ↦ ⟨rfl, rfl⟩) rfl trivial

/-- A channel that is disabled twice is watched by the epoll poller only. -/
theorem not_interchangeable_disableAll :
    ∃ calls, EachStep (exec numbered) Permitted calls new ∧ ¬ Interchangeable numbered calls := by
  refine ⟨[(5, .enableReading), (5, .disableAll), (5, .disableAll)], ?_, fun hall ↦ ?_⟩
  · refine eachStep_cons (fun hremove ↦ by cases hremove) rfl ?_
    refine eachStep_cons (fun hremove ↦ by cases hremove) rfl ?_
    exact eachStep_cons (fun hremove ↦ by cases hremove) rfl trivial
  · obtain ⟨s, hs, hagree⟩ := hall _ List.prefix_rfl
    obtain rfl := Option.some.inj hs
    have hwatched := Set.ext_iff.mp hagree.watched (5, 0)
    have hmem := (hwatched.mp ⟨5, rfl⟩).2
    revert hmem
    decide

end Pollers

end Pollers

end PpDSCache.Net
