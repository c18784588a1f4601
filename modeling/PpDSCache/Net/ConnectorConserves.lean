import PpDSCache.Net.ConnectorSockets

/-!
# Each socket is in one place

Between handlers every socket that was created is owned by the channel of the
attempt under way, closed, or handed to the user, and never in two of these
places.  Inside a handler one more socket may be in hand, as the local variable
of the source.
-/

namespace PpDSCache.Net

open Abstract

namespace Connector

def isReset : ConnectorFunctor → Bool
  | .resetChannel _ => true
  | _ => false

/-- The calls of `resetChannel` that are queued. -/
def resetsQueued (c : Connector) : ℕ := c.queue.countP isReset

/-- There is a channel and nothing is queued that will destroy it. -/
def Live (c : Connector) : Prop := c.channel.isSome = true ∧ c.resetsQueued = 0

instance (c : Connector) : Decidable c.Live := inferInstanceAs (Decidable (_ ∧ _))

variable {c d : Connector}

theorem live_congr (hchannel : d.channel = c.channel) (hqueue : d.resetsQueued = c.resetsQueued) :
    d.Live ↔ c.Live := by
  rw [Live, Live, hchannel, hqueue]

@[simp] theorem channel_retry : c.retry.channel = c.channel := by
  rw [retry]
  split_ifs <;> rfl

@[simp] theorem resetsQueued_retry : c.retry.resetsQueued = c.resetsQueued := by
  rw [retry]
  split_ifs <;> rfl

@[simp] theorem state_retry : c.retry.state = .kDisconnected := by
  rw [retry]
  split_ifs <;> rfl

@[simp] theorem channel_handOver : c.handOver.channel = c.channel := by
  rw [handOver]
  split_ifs <;> rfl

@[simp] theorem resetsQueued_handOver : c.handOver.resetsQueued = c.resetsQueued := by
  rw [handOver]
  split_ifs <;> rfl

@[simp] theorem state_handOver : c.handOver.state = .kConnected := by
  rw [handOver]
  split_ifs <;> rfl

theorem resetsQueued_push (f : ConnectorFunctor) :
    (c.push f).resetsQueued = c.resetsQueued + if isReset f = true then 1 else 0 := by
  simp [resetsQueued, push, List.countP_append, List.countP_cons]

/-- The channel stays, and is no longer live. -/
theorem of_removeAndResetChannel (h : c.removeAndResetChannel = some d) :
    d.channel.isSome = true ∧ d.resetsQueued = c.resetsQueued + 1 := by
  rw [removeAndResetChannel] at h
  obtain ⟨ch, -, h⟩ := Option.bind_eq_some_iff.mp h
  obtain ⟨channel, -, rfl⟩ := Option.map_eq_some_iff.mp h
  rw [resetsQueued_push]
  exact ⟨rfl, rfl⟩

end Connector

namespace ConnectorSockets

open Connector

variable {s t : ConnectorSockets} {hand : Option ℕ} {c : Connector} {errno : ℤ} {k : ℕ}

/-- The socket that the channel of the attempt under way owns. -/
def owned (s : ConnectorSockets) : Option ℕ := if s.conn.Live then some s.channelFd else none

/-- With the socket in hand, each socket created is in one place. -/
structure Held (hand : Option ℕ) (s : ConnectorSockets) : Prop where
  resets : s.conn.resetsQueued ≤ if s.conn.channel.isSome = true then 1 else 0
  once : ∀ n, s.owned.toList.count n + hand.toList.count n + s.closed.count n +
    (s.passed.map Prod.fst).count n = if n < s.created then 1 else 0
  wanted : ∀ p ∈ s.passed, p.2 = true

/-! ## Moving a socket -/

theorem Held.create (h : s.Held none) : s.create.Held (some s.created) := by
  refine ⟨h.resets, fun n ↦ ?_, h.wanted⟩
  have hn := h.once n
  change s.owned.toList.count n + [s.created].count n + s.closed.count n +
    (s.passed.map Prod.fst).count n = if n < s.created + 1 then 1 else 0
  rw [Option.toList_none, List.count_nil] at hn
  rcases eq_or_ne n s.created with rfl | hne
  · rw [if_neg (lt_irrefl _)] at hn
    rw [List.count_singleton_self, if_pos (Nat.lt_succ_self _)]
    omega
  · have hlt : n < s.created + 1 ↔ n < s.created := by omega
    have hzero : [s.created].count n = 0 := List.count_eq_zero.mpr (by simpa using hne)
    rw [hzero, if_congr hlt rfl rfl]
    omega

theorem Held.close (h : s.Held (some k)) : (s.close k).Held none := by
  refine ⟨h.resets, fun n ↦ ?_, h.wanted⟩
  have hn := h.once n
  change s.owned.toList.count n + 0 + (s.closed ++ [k]).count n +
    (s.passed.map Prod.fst).count n = if n < s.created then 1 else 0
  rw [List.count_append]
  rw [Option.toList_some] at hn
  omega

/-- What happens to the connector matters only for the channel and its
`resetChannel`. -/
theorem Held.withConn (h : s.Held hand) (hchannel : c.channel = s.conn.channel)
    (hqueue : c.resetsQueued = s.conn.resetsQueued) : (s.withConn c).Held hand := by
  have howned : (s.withConn c).owned = s.owned := by
    rw [owned, owned, if_congr (live_congr (d := (s.withConn c).conn) hchannel hqueue) rfl rfl]
    rfl
  refine ⟨?_, fun n ↦ ?_, h.wanted⟩
  · change c.resetsQueued ≤ if c.channel.isSome = true then 1 else 0
    rw [hchannel, hqueue]
    exact h.resets
  · rw [howned]
    exact h.once n

theorem Held.retry (h : s.Held (some k)) : (s.retry k).Held none :=
  h.close.withConn channel_retry resetsQueued_retry

theorem Held.handOver (h : s.Held (some k)) : (s.handOver k).Held none := by
  rw [ConnectorSockets.handOver]
  split_ifs with hwanted
  · have hpass : Held none { s with passed := s.passed ++ [(k, s.conn.wanted)] } := by
      refine ⟨h.resets, fun n ↦ ?_, fun p hp ↦ ?_⟩
      · have hn := h.once n
        change s.owned.toList.count n + 0 + s.closed.count n +
          ((s.passed ++ [(k, s.conn.wanted)]).map Prod.fst).count n =
            if n < s.created then 1 else 0
        rw [List.map_append, List.count_append]
        rw [Option.toList_some] at hn
        simp only [List.map_cons, List.map_nil]
        omega
      · rcases List.mem_append.mp hp with hp | hp
        · exact h.wanted p hp
        · rw [List.mem_singleton.mp hp]
          exact hwanted
    exact hpass.withConn channel_handOver resetsQueued_handOver
  · exact h.close.withConn channel_handOver resetsQueued_handOver

/-- The new channel takes the socket in hand. -/
theorem Held.connecting (h : s.Held (some k)) (ht : s.connecting k = some t) :
    t.Held none ∧ t.conn.state = .kConnecting ∧ t.conn.Live := by
  obtain ⟨c, hc, rfl⟩ := Option.map_eq_some_iff.mp ht
  rw [Connector.connecting] at hc
  split_ifs at hc with hchannel
  obtain rfl := Option.some.inj hc
  have hreset : s.conn.resetsQueued = 0 := by simpa [hchannel] using h.resets
  have hbefore : s.owned = none := if_neg fun hlive ↦ by simp [Live, hchannel] at hlive
  refine ⟨⟨?_, fun n ↦ ?_, h.wanted⟩, rfl, rfl, hreset⟩
  · exact hreset.le.trans (Nat.zero_le _)
  · have hn := h.once n
    rw [hbefore] at hn
    rw [owned, if_pos ⟨rfl, hreset⟩]
    simpa using hn

/-- The socket of a live channel is taken from it. -/
theorem Held.removeAndResetChannel (h : s.Held none) (hlive : s.conn.Live)
    (ht : s.removeAndResetChannel = some (k, t)) : t.Held (some k) ∧ ¬ t.conn.Live := by
  obtain ⟨c, hc, heq⟩ := Option.map_eq_some_iff.mp ht
  obtain ⟨rfl, rfl⟩ := Prod.mk.inj heq
  obtain ⟨hchannel, hqueue⟩ := of_removeAndResetChannel hc
  rw [hlive.2, Nat.zero_add] at hqueue
  have hdead : ¬ (s.withConn c).conn.Live := fun hl ↦ absurd (hqueue.symm.trans hl.2) one_ne_zero
  refine ⟨⟨?_, fun n ↦ ?_, h.wanted⟩, hdead⟩
  · change c.resetsQueued ≤ if c.channel.isSome = true then 1 else 0
    rw [if_pos hchannel, hqueue]
  · have hn := h.once n
    rw [owned, if_pos hlive, Option.toList_some, Option.toList_none, List.count_nil] at hn
    rw [owned, if_neg hdead]
    change 0 + [s.channelFd].count n + s.closed.count n + (s.passed.map Prod.fst).count n =
      if n < s.created then 1 else 0
    omega

/-! ## Between handlers -/

structure Inv (s : ConnectorSockets) : Prop where
  held : s.Held none
  state : s.conn.state = .kConnecting ↔ s.conn.Live

theorem inv_new : Inv new := by
  refine ⟨⟨le_rfl, fun n ↦ ?_, fun p hp ↦ absurd hp List.not_mem_nil⟩, by decide⟩
  rw [show new.owned = none by decide]
  rfl

theorem Inv.withConn (h : s.Inv) (hchannel : c.channel = s.conn.channel)
    (hqueue : c.resetsQueued = s.conn.resetsQueued)
    (hstate : c.state = .kConnecting ↔ s.conn.state = .kConnecting) : (s.withConn c).Inv := by
  refine ⟨h.held.withConn hchannel hqueue, ?_⟩
  rw [live_congr (d := (s.withConn c).conn) hchannel hqueue, ← h.state]
  exact hstate

/-- A socket in hand while nothing is being connected is closed and a new
attempt scheduled. -/
theorem Held.inv_retry (h : s.Held (some k)) (hdead : ¬ s.conn.Live) : (s.retry k).Inv := by
  refine ⟨h.retry, ?_⟩
  rw [live_congr (d := (s.retry k).conn) channel_retry resetsQueued_retry]
  exact iff_of_false (by simp [ConnectorSockets.retry, ConnectorSockets.withConn]) hdead

theorem Held.inv_handOver (h : s.Held (some k)) (hdead : ¬ s.conn.Live) : (s.handOver k).Inv := by
  refine ⟨h.handOver, ?_⟩
  rw [handOver_conn, live_congr channel_handOver resetsQueued_handOver]
  exact iff_of_false (by simp) hdead

theorem Inv.startInLoop (h : s.Inv) (ht : s.startInLoop errno = some t) : t.Inv := by
  rw [ConnectorSockets.startInLoop] at ht
  split_ifs at ht with hstate hwanted
  · have hdead : ¬ s.conn.Live := h.state.not.mp (by simp [hstate])
    rw [connect] at ht
    split_ifs at ht
    · obtain ⟨hheld, hstate, hlive⟩ := h.held.create.connecting ht
      exact ⟨hheld, iff_of_true hstate hlive⟩
    · obtain rfl := Option.some.inj ht
      exact h.held.create.inv_retry hdead
    · obtain rfl := Option.some.inj ht
      exact ⟨h.held.create.close, h.state⟩
  · obtain rfl := Option.some.inj ht
    exact h

/-- A handler that takes the socket from the channel and disposes of it. -/
theorem Held.of_remove (h : s.Held none) (hlive : s.conn.Live)
    {f : ℕ × ConnectorSockets → ConnectorSockets}
    (hf : ∀ k t, t.Held (some k) → ¬ t.conn.Live → (f (k, t)).Inv)
    (ht : s.removeAndResetChannel.map f = some t) : t.Inv := by
  obtain ⟨⟨k, u⟩, hu, rfl⟩ := Option.map_eq_some_iff.mp ht
  obtain ⟨hheld, hdead⟩ := h.removeAndResetChannel hlive hu
  exact hf k u hheld hdead

theorem Inv.handleError (h : s.Inv) (ht : s.handleError = some t) : t.Inv := by
  rw [ConnectorSockets.handleError] at ht
  split_ifs at ht with hstate
  · exact h.held.of_remove (h.state.mp hstate) (fun _ _ hheld hdead ↦ hheld.inv_retry hdead) ht
  · obtain rfl := Option.some.inj ht
    exact h

theorem Inv.handleWrite (h : s.Inv) {soError : ℤ} {selfConnect : Bool}
    (ht : s.handleWrite soError selfConnect = some t) : t.Inv := by
  rw [ConnectorSockets.handleWrite] at ht
  split_ifs at ht with hstate hfailed
  · exact h.held.of_remove (h.state.mp hstate) (fun _ _ hheld hdead ↦ hheld.inv_retry hdead) ht
  · exact h.held.of_remove (h.state.mp hstate) (fun _ _ hheld hdead ↦ hheld.inv_handOver hdead) ht
  · obtain rfl := Option.some.inj ht
    exact h

/-- The error callback leaves nothing to do for the write callback. -/
theorem Inv.handleEvent (h : s.Inv) {error write selfConnect : Bool} {soError : ℤ}
    (ht : s.handleEvent error write soError selfConnect = some t) : t.Inv := by
  obtain ⟨u, hu, ht⟩ := Option.bind_eq_some_iff.mp ht
  have hinv : u.Inv := by
    split_ifs at hu
    · exact h.handleError hu
    · exact Option.some.inj hu ▸ h
  split_ifs at ht
  · exact hinv.handleWrite ht
  · exact Option.some.inj ht ▸ hinv

theorem Inv.stopInLoop (h : s.Inv) (ht : s.stopInLoop = some t) : t.Inv := by
  rw [ConnectorSockets.stopInLoop] at ht
  split_ifs at ht with hstate
  · have hlive := h.state.mp hstate
    have hheld := h.held.withConn (c := { s.conn with state := .kDisconnected }) rfl rfl
    exact hheld.of_remove hlive (fun _ _ hheld hdead ↦ hheld.inv_retry hdead) ht
  · obtain rfl := Option.some.inj ht
    exact h

/-- The channel that is destroyed is not live. -/
theorem Inv.resetChannel (h : s.Inv) {removed : ℕ} {fs : List ConnectorFunctor}
    (hqueue : s.conn.queue = .resetChannel removed :: fs) :
    (s.withConn ({ s.conn with queue := fs }.resetChannel removed)).Inv := by
  have hcount : s.conn.resetsQueued = fs.countP isReset + 1 := by
    rw [resetsQueued, hqueue, List.countP_cons]
    rfl
  have hlast : fs.countP isReset = 0 := by
    have hle := h.held.resets
    rw [hcount] at hle
    split_ifs at hle <;> omega
  have hdead : ¬ s.conn.Live := fun hlive ↦ absurd (hcount.symm.trans hlive.2) (Nat.succ_ne_zero _)
  have hdead' : ¬ (s.withConn ({ s.conn with queue := fs }.resetChannel removed)).conn.Live :=
    fun hlive ↦ Bool.noConfusion hlive.1
  refine ⟨⟨hlast.le.trans (Nat.zero_le _), fun n ↦ ?_, h.held.wanted⟩, ?_⟩
  · have hn := h.held.once n
    rw [owned, if_neg hdead] at hn
    rw [owned, if_neg hdead']
    exact hn
  · exact iff_of_false (h.state.not.mpr hdead) hdead'

theorem Inv.runNext (h : s.Inv) (ht : s.runNext errno = some t) : t.Inv := by
  rw [ConnectorSockets.runNext] at ht
  cases hqueue : s.conn.queue with
  | nil =>
      rw [hqueue] at ht
      cases ht
  | cons f fs =>
      rw [hqueue] at ht
      have hrest (hf : isReset f = false) : (s.withConn { s.conn with queue := fs }).Inv := by
        refine h.withConn rfl ?_ Iff.rfl
        rw [resetsQueued, resetsQueued, hqueue, List.countP_cons, hf]
        rfl
      cases f with
      | startInLoop => exact (hrest rfl).startInLoop ht
      | stopInLoop => exact (hrest rfl).stopInLoop ht
      | resetChannel removed =>
          obtain rfl := Option.some.inj ht
          exact h.resetChannel hqueue

end ConnectorSockets

namespace ConnectorAct

/-- `restart` is called in state `kConnected`. -/
def RestartsConnected (a : ConnectorAct) (s : ConnectorSockets) : Prop :=
  match a with
  | restart _ => s.conn.state = .kConnected
  | _ => True

end ConnectorAct

namespace ConnectorSockets

open Connector

variable {s t : ConnectorSockets} {a : ConnectorAct}

theorem Inv.exec (h : s.Inv) (hrestart : a.RestartsConnected s) (ht : s.exec a = some t) :
    t.Inv := by
  cases a with
  | startHere errno => exact h.startInLoop ht
  | restart errno =>
      have hstate : s.conn.state ≠ .kConnecting := by
        rw [show s.conn.state = .kConnected from hrestart]
        decide
      have hinv := h.withConn (c := { s.conn with
        state := .kDisconnected
        retryDelayMs := kInitRetryDelayMs
        wanted := true }) rfl rfl (iff_of_false ConnectorState.noConfusion hstate)
      exact hinv.startInLoop ht
  | runFunctor errno => exact h.runNext ht
  | runTimer k errno =>
      have hinv := h.withConn (c := { s.conn with timers := s.conn.timers.eraseIdx k }) rfl rfl
        Iff.rfl
      exact hinv.startInLoop ht
  | handleEvent error write soError selfConnect => exact h.handleEvent ht
  | setConnect connect =>
      obtain rfl := Option.some.inj ht
      exact h.withConn rfl rfl Iff.rfl
  | startFromOther =>
      obtain rfl := Option.some.inj ht
      exact h.withConn rfl (resetsQueued_push _) Iff.rfl
  | stop =>
      obtain rfl := Option.some.inj ht
      exact h.withConn rfl (resetsQueued_push _) Iff.rfl
  | connectionClosed =>
      obtain rfl := Option.some.inj ht
      exact h.withConn rfl rfl Iff.rfl

/-- The socket of the pending channel, which there is only in `kConnecting`. -/
def pendingSocket (s : ConnectorSockets) : Option ℕ :=
  if s.conn.state = .kConnecting then s.conn.channel.map fun _ ↦ s.channelFd else none

/-- Each socket created is in exactly one of the three places, once, and no
other is in any; what was handed over was wanted at that moment. -/
structure Conserved (s : ConnectorSockets) : Prop where
  once : ∀ n, s.pendingSocket.toList.count n + s.closed.count n +
    (s.passed.map Prod.fst).count n = if n < s.created then 1 else 0
  wanted : ∀ p ∈ s.passed, p.2 = true

theorem Inv.pendingSocket_eq (h : s.Inv) : s.pendingSocket = s.owned := by
  rw [pendingSocket, owned, if_congr h.state rfl rfl]
  split_ifs with hlive
  · obtain ⟨ch, hch⟩ := Option.isSome_iff_exists.mp hlive.1
    rw [hch, Option.map_some]
  · rfl

theorem Inv.conserved (h : s.Inv) : s.Conserved := by
  refine ⟨fun n ↦ ?_, h.held.wanted⟩
  rw [h.pendingSocket_eq]
  exact h.held.once n

/-- In every run in which `restart` is called in `kConnected` only, each socket
is in one place after every act. -/
theorem conserved_of_run {acts : List ConnectorAct}
    (hrestart : EachStep exec ConnectorAct.RestartsConnected acts new)
    (hrun : runAll exec acts new = some s) : s.Conserved :=
  (runAll_invariant (fun _ _ _ h hok ht ↦ h.exec hok ht) inv_new hrestart hrun).conserved

/-- A failed attempt, a second one that connects, and the connector started
again for a third. -/
def restarted : List ConnectorAct :=
  [.setConnect true, .startHere 111, .runTimer 0 115, .handleEvent false true 0 false,
    .runFunctor 0, .connectionClosed, .restart 115]

theorem conserved_of_run_restarted : ∃ s, runAll exec restarted new = some s ∧ s.Conserved := by
  have hrun : (runAll exec restarted new).isSome = true := rfl
  obtain ⟨s, hs⟩ := Option.isSome_iff_exists.mp hrun
  refine ⟨s, hs, conserved_of_run ?_ hs⟩
  refine eachStep_cons trivial rfl ?_
  refine eachStep_cons trivial rfl ?_
  refine eachStep_cons trivial rfl ?_
  refine eachStep_cons trivial rfl ?_
  refine eachStep_cons trivial rfl ?_
  refine eachStep_cons trivial rfl ?_
  exact eachStep_cons rfl rfl trivial

end ConnectorSockets

end PpDSCache.Net
