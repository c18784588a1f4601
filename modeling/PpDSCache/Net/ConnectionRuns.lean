import PpDSCache.Net.ConnectionClosed

/-!
# Runs of a connection

Every run from `connectEstablished` goes from an open to a closed connection and
stays there, as long as nothing starts or stops reading after the close, no
other thread writes the state after it, and the connection asked for an event
when it was closed.  While reading is left alone, what `connectDestroyed` does
depends on the state only.
-/

namespace PpDSCache.Net

open Cpp Abstract

namespace ConnectionLoop

open EPollPoller TcpConnection

variable {s t : ConnectionLoop} {a : ConnAct} {f : QueuedCall}

/-! ## Steps -/

/-- The calls of other threads take their steps in order, and the kernel reports
only what it watches.  An event that was polled while the connection was watched
may be handled after another handler of the same round has stopped reading. -/
def Enabled (a : ConnAct) (s : ConnectionLoop) : Prop :=
  match a with
  | .storeState k => k ∈ s.calls ∧ k.stored = false ∧ writesState k.call = true
  | .queueCall k => k ∈ s.calls ∧ k.stored = writesState k.call
  | .runFunctor _ => s.queue ≠ []
  | .handleEvent _ _ _ => isOpen s.conn = true ∨ s.index = kAdded
  | _ => True

/-- The functor a step runs, unguarded by the state. -/
def running (a : ConnAct) (s : ConnectionLoop) : Option QueuedCall :=
  match a with
  | .startRead => some .startReadInLoop
  | .stopRead => some .stopReadInLoop
  | .runFunctor _ => s.queue.head?
  | _ => none

def isReadCall : QueuedCall → Bool
  | .startReadInLoop | .stopReadInLoop => true
  | _ => false

/-- Reading is not started on a closed connection, nor stopped there while
`reading_` is left over from before; and no connection is closed by force while
it asks for no event. -/
def SafeFunctor (f : QueuedCall) (s : ConnectionLoop) : Prop :=
  match f with
  | .startReadInLoop => s.conn.state ≠ .kDisconnected
  | .stopReadInLoop => s.conn.state = .kDisconnected → s.conn.reading = false
  | .forceCloseInLoop => isOpen s.conn = true → s.conn.channel.isNoneEvent = false
  | .sendInLoop _ | .shutdownInLoop => True

/-- `shutdown` and `forceClose` on another thread write the state after they
have read it; here the connection has not been closed in between. -/
def StoresInTime (a : ConnAct) (s : ConnectionLoop) : Prop :=
  match a with
  | .storeState _ => s.conn.state ≠ .kDisconnected
  | _ => True

/-- An event does not close the connection twice, nor while it asks for no
event. -/
def SafeEvent (a : ConnAct) (s : ConnectionLoop) : Prop :=
  match a with
  | .handleEvent e r _ =>
      HangsUpAlone e r ∧ (ClosesOn e r → s.conn.channel.isNoneEvent = false)
  | _ => True

structure Safe (a : ConnAct) (s : ConnectionLoop) : Prop where
  functor : ∀ f ∈ running a s, SafeFunctor f s
  store : StoresInTime a s
  event : SafeEvent a s

/-- The invariant: what the queue and the calls hold does not matter. -/
def OpenOrClosed (s : ConnectionLoop) : Prop := s.Open ∨ s.Closed

theorem After.openOrClosed (h : s.After t) : t.OpenOrClosed := h.imp_left And.left

theorem Open.withQueue (h : s.Open) (queue : List QueuedCall) (calls : List OtherCall) :
    Open { s with queue := queue, calls := calls } := ⟨h.state, h.callbacks, h.reading, h.index⟩

theorem Closed.withQueue (h : s.Closed) (queue : List QueuedCall) (calls : List OtherCall) :
    Closed { s with queue := queue, calls := calls } := ⟨h.state, h.callbacks, h.quiet, h.index⟩

/-- A connection is closed for good if it asks for events. -/
theorem ClosedAt.closed {channel : Channel} (h : s.ClosedAt (closedIndex channel))
    (hevents : channel.isNoneEvent = false) : s.Closed := by
  rwa [closedIndex_of_events hevents] at h

theorem Closed.not_enabled_handleEvent (h : s.Closed) {e : Revents} {r : Readv} {w : Write} :
    ¬ Enabled (.handleEvent e r w) s := by
  rintro (hopen | hadded)
  · rw [isOpen_eq_false h.state] at hopen
    cases hopen
  · rw [h.index] at hadded
    cases hadded

/-! ## Functors -/

/-- Apart from reading being started or stopped. -/
theorem Open.after_runFunctor (h : s.Open) (hf : isReadCall f = false) (hsafe : SafeFunctor f s)
    (w : Write) : ∃ t, runFunctor w f s = some t ∧ s.After t := by
  cases f with
  | sendInLoop data => exact ⟨_, rfl, .inl (h.staysOpen.withConn (handled_sendInLoop w data _))⟩
  | shutdownInLoop => exact ⟨_, rfl, .inl (h.staysOpen.withConn (handled_shutdownInLoop _))⟩
  | forceCloseInLoop =>
      obtain ⟨t, ht, hclosed⟩ := h.handleClose
      exact ⟨t, (if_pos h.state).trans ht, .inr (hclosed.closed (hsafe h.state))⟩
  | startReadInLoop => cases hf
  | stopReadInLoop => cases hf

theorem Open.runFunctor (h : s.Open) (hsafe : SafeFunctor f s) (w : Write) :
    ∃ t, runFunctor w f s = some t ∧ t.OpenOrClosed := by
  by_cases hf : isReadCall f = false
  · obtain ⟨t, ht, hafter⟩ := h.after_runFunctor hf hsafe w
    exact ⟨t, ht, hafter.openOrClosed⟩
  · cases f with
    | startReadInLoop => exact ⟨_, rfl, .inl h.startReadInLoop⟩
    | stopReadInLoop => exact ⟨_, rfl, .inl h.stopReadInLoop⟩
    | sendInLoop data => exact absurd rfl hf
    | shutdownInLoop => exact absurd rfl hf
    | forceCloseInLoop => exact absurd rfl hf

theorem Closed.runFunctor (h : s.Closed) (hsafe : SafeFunctor f s) (w : Write) :
    ∃ t, runFunctor w f s = some t ∧ t.Closed := by
  cases f with
  | sendInLoop data => exact ⟨_, rfl, h.sendInLoop w data⟩
  | shutdownInLoop =>
      exact ⟨_, rfl, h.withConn (keeps_shutdownInLoop s.conn) (channel_shutdownInLoop s.conn)⟩
  | forceCloseInLoop =>
      refine ⟨s, if_neg ?_, h⟩
      rw [isOpen_eq_false h.state]
      exact Bool.false_ne_true
  | startReadInLoop => exact absurd h.state hsafe
  | stopReadInLoop =>
      refine ⟨s, ?_, h⟩
      change some s.stopReadInLoop = some s
      rw [h.stopReadInLoop (hsafe h.state)]

/-! ## Runs -/

theorem exec_running (hf : f ∈ running a s) :
    ∃ w fs, exec a s = runFunctor w f { s with queue := fs } := by
  cases a with
  | startRead =>
      cases hf
      exact ⟨.accepted 0, s.queue, rfl⟩
  | stopRead =>
      cases hf
      exact ⟨.accepted 0, s.queue, rfl⟩
  | runFunctor w =>
      obtain ⟨fs, hqueue⟩ := List.head?_eq_some_iff.mp hf
      refine ⟨w, fs, ?_⟩
      rw [exec, runNext, hqueue]
  | _ => cases hf

theorem exists_running {w : Write} (henabled : Enabled (.runFunctor w) s) :
    ∃ f, f ∈ running (.runFunctor w) s := by
  obtain ⟨f, fs, hqueue⟩ := List.exists_cons_of_ne_nil henabled
  refine ⟨f, ?_⟩
  rw [running, hqueue]
  rfl

theorem Open.after_exec (h : s.Open) (henabled : Enabled a s) (hsafe : Safe a s)
    (hread : ∀ f ∈ running a s, isReadCall f = false) :
    ∃ t, exec a s = some t ∧ s.After t := by
  cases a with
  | send data w =>
      rw [exec]
      split_ifs
      · exact ⟨_, rfl, .inl (h.staysOpen.withConn (handled_sendInLoop w data _))⟩
      · exact ⟨s, rfl, .inl h.staysOpen⟩
  | shutdown =>
      rw [exec]
      split_ifs
      · exact ⟨_, rfl, .inl (h.setDisconnecting.staysOpen.withConn (handled_shutdownInLoop _))⟩
      · exact ⟨s, rfl, .inl h.staysOpen⟩
  | forceClose =>
      rw [exec, if_pos h.state]
      exact ⟨_, rfl, .inl ⟨h.setDisconnecting.withQueue _ _, rfl⟩⟩
  | startRead => cases hread _ rfl
  | stopRead => cases hread _ rfl
  | beginCall call =>
      rw [exec]
      split_ifs
      · exact ⟨_, rfl, .inl ⟨h.withQueue _ _, rfl⟩⟩
      · exact ⟨s, rfl, .inl h.staysOpen⟩
  | storeState k =>
      exact ⟨_, if_pos henabled, .inl ⟨h.setDisconnecting.withQueue _ _, rfl⟩⟩
  | queueCall k => exact ⟨_, if_pos henabled, .inl ⟨h.withQueue _ _, rfl⟩⟩
  | queueStartRead => exact ⟨_, rfl, .inl ⟨h.withQueue _ _, rfl⟩⟩
  | queueStopRead => exact ⟨_, rfl, .inl ⟨h.withQueue _ _, rfl⟩⟩
  | runFunctor w =>
      obtain ⟨f, hf⟩ := exists_running henabled
      obtain ⟨w', fs, hexec⟩ := exec_running hf
      rw [hexec]
      exact (h.withQueue fs s.calls).after_runFunctor (hread f hf) (hsafe.functor f hf) w'
  | handleEvent e r w =>
      by_cases hcloses : ClosesOn e r
      · obtain ⟨t, ht, hclosed⟩ := h.handleEvent_of_closesOn hsafe.event.1 hcloses
        exact ⟨t, ht, .inr (hclosed.closed (hsafe.event.2 hcloses))⟩
      · obtain ⟨t, ht, hopen⟩ := h.handleEvent_of_not_closesOn hcloses
        exact ⟨t, ht, .inl hopen⟩

theorem Open.exec (h : s.Open) (henabled : Enabled a s) (hsafe : Safe a s) :
    ∃ t, exec a s = some t ∧ t.OpenOrClosed := by
  by_cases hread : ∀ f ∈ running a s, isReadCall f = false
  · obtain ⟨t, ht, hafter⟩ := h.after_exec henabled hsafe hread
    exact ⟨t, ht, hafter.openOrClosed⟩
  · push Not at hread
    obtain ⟨f, hf, -⟩ := hread
    obtain ⟨w, fs, hexec⟩ := exec_running hf
    rw [hexec]
    exact (h.withQueue fs s.calls).runFunctor (hsafe.functor f hf) w

theorem Closed.exec (h : s.Closed) (henabled : Enabled a s) (hsafe : Safe a s) :
    ∃ t, exec a s = some t ∧ t.Closed := by
  have hconnected : s.conn.state ≠ .kConnected := by simp [h.state]
  cases a with
  | send data w => exact ⟨s, if_neg hconnected, h⟩
  | shutdown => exact ⟨s, if_neg hconnected, h⟩
  | forceClose =>
      refine ⟨s, if_neg ?_, h⟩
      rw [isOpen_eq_false h.state]
      exact Bool.false_ne_true
  | startRead => exact absurd h.state (hsafe.functor _ rfl)
  | stopRead => exact h.runFunctor (hsafe.functor _ rfl) (.accepted 0)
  | beginCall call =>
      rw [ConnectionLoop.exec]
      split_ifs
      · exact ⟨_, rfl, h.withQueue _ _⟩
      · exact ⟨s, rfl, h⟩
  | storeState k => exact absurd h.state hsafe.store
  | queueCall k => exact ⟨_, if_pos henabled, h.withQueue _ _⟩
  | queueStartRead => exact ⟨_, rfl, h.withQueue _ _⟩
  | queueStopRead => exact ⟨_, rfl, h.withQueue _ _⟩
  | runFunctor w =>
      obtain ⟨f, hf⟩ := exists_running henabled
      obtain ⟨w', fs, hexec⟩ := exec_running hf
      rw [hexec]
      exact (h.withQueue fs s.calls).runFunctor (hsafe.functor f hf) w'
  | handleEvent e r w => exact absurd henabled h.not_enabled_handleEvent

theorem OpenOrClosed.exec (h : s.OpenOrClosed) (henabled : Enabled a s) (hsafe : Safe a s) :
    ∃ t, exec a s = some t ∧ t.OpenOrClosed := by
  rcases h with hopen | hclosed
  · exact hopen.exec henabled hsafe
  · obtain ⟨t, ht, htclosed⟩ := hclosed.exec henabled hsafe
    exact ⟨t, ht, .inr htclosed⟩

theorem OpenOrClosed.open_of_handleEvent (h : s.OpenOrClosed) {e : Revents} {r : Readv}
    {w : Write} (henabled : Enabled (.handleEvent e r w) s) : s.Open :=
  h.resolve_right fun hclosed ↦ hclosed.not_enabled_handleEvent henabled

/-! ## Destruction -/

/-- What the destructor of the connection relies on. -/
structure Destroyed (s : ConnectionLoop) : Prop where
  state : s.conn.state = .kDisconnected
  quiet : s.conn.channel.isNoneEvent = true
  removed : s.conn.channel.addedToLoop = false
  index : s.index = kNew
  callback : s.conn.callbacks.count false = 1

theorem conn_removeChannel (ht : s.removeChannel = some t) :
    s.conn.channel.remove.map (fun channel ↦ { s.conn with channel := channel }) =
      some t.conn := by
  obtain ⟨channel, hchannel, ht⟩ := Option.bind_eq_some_iff.mp ht
  split_ifs at ht
  obtain rfl := Option.some.inj ht
  rw [hchannel, Option.map_some]

/-- The poller aside, it is the function of the connection. -/
theorem conn_connectDestroyed (ht : s.connectDestroyed = some t) :
    s.conn.connectDestroyed = some t.conn := by
  rw [connectDestroyed] at ht
  unfold TcpConnection.connectDestroyed
  split_ifs at ht ⊢
  · exact conn_removeChannel ht
  · exact conn_removeChannel ht

theorem Closed.removeChannel (h : s.Closed) : ∃ t, s.removeChannel = some t ∧ t.Destroyed := by
  rw [ConnectionLoop.removeChannel, Channel.remove, if_pos h.quiet, Option.bind_some,
    if_pos (.inr h.index)]
  refine ⟨_, rfl, h.state, h.quiet, rfl, rfl, ?_⟩
  change s.conn.callbacks.count false = 1
  rw [h.callbacks]
  rfl

/-- Open with reading on, or closed. -/
def ReadsOrClosed (s : ConnectionLoop) : Prop :=
  s.Open ∧ s.conn.channel.reading = true ∨ s.Closed

theorem ReadsOrClosed.openOrClosed (h : s.ReadsOrClosed) : s.OpenOrClosed := h.imp_left And.left

theorem isNoneEvent_of_reading {channel : Channel} (h : channel.reading = true) :
    channel.isNoneEvent = false := by
  simp [Channel.isNoneEvent, h]

theorem ReadsOrClosed.connectDestroyed (h : s.ReadsOrClosed) :
    (∃ t, s.connectDestroyed = some t ∧ t.Destroyed) ↔ s.conn.state ≠ .kDisconnecting := by
  rcases h with ⟨hopen, hreading⟩ | hclosed
  · have hevents := isNoneEvent_of_reading hreading
    have hstate : s.conn.state = .kConnected ∨ s.conn.state = .kDisconnecting := by
      simpa [isOpen] using hopen.state
    rw [ConnectionLoop.connectDestroyed]
    rcases hstate with hconnected | hdisconnecting
    · rw [if_pos hconnected]
      exact iff_of_true (hopen.disconnect.closed hevents).removeChannel (by simp [hconnected])
    · rw [if_neg (by simp [hdisconnecting]), ConnectionLoop.removeChannel, Channel.remove,
        if_neg (by simp [hevents])]
      simp [hdisconnecting]
  · rw [ConnectionLoop.connectDestroyed, if_neg (by simp [hclosed.state])]
    exact iff_of_true hclosed.removeChannel (by simp [hclosed.state])

/-- Sending, closing and events, with reading left alone. -/
structure InSequence (a : ConnAct) (s : ConnectionLoop) : Prop where
  enabled : Enabled a s
  leavesReading : ∀ f ∈ running a s, isReadCall f = false
  store : StoresInTime a s

theorem safeFunctor_of_not_readCall (hf : isReadCall f = false)
    (hevents : isOpen s.conn = true → s.conn.channel.isNoneEvent = false) : SafeFunctor f s := by
  cases f with
  | forceCloseInLoop => exact hevents
  | startReadInLoop => cases hf
  | stopReadInLoop => cases hf
  | sendInLoop data => trivial
  | shutdownInLoop => trivial

theorem ReadsOrClosed.isNoneEvent_of_isOpen (h : s.ReadsOrClosed) (hopen : isOpen s.conn = true) :
    s.conn.channel.isNoneEvent = false := by
  rcases h with ⟨-, hreading⟩ | hclosed
  · exact isNoneEvent_of_reading hreading
  · rw [isOpen_eq_false hclosed.state] at hopen
    cases hopen

theorem ReadsOrClosed.safeEvent (h : s.ReadsOrClosed) (henabled : Enabled a s)
    (ht : ConnectionLoop.exec a s = some t) : SafeEvent a s := by
  cases a with
  | handleEvent e r w =>
      have hopen := h.openOrClosed.open_of_handleEvent henabled
      exact ⟨hopen.hangsUpAlone ht, fun _ ↦ h.isNoneEvent_of_isOpen hopen.state⟩
  | _ => trivial

theorem ReadsOrClosed.exec (h : s.ReadsOrClosed) (hseq : InSequence a s)
    (ht : ConnectionLoop.exec a s = some t) : t.ReadsOrClosed := by
  have hsafe : Safe a s :=
    { functor := fun f hf ↦ safeFunctor_of_not_readCall (hseq.leavesReading f hf)
        h.isNoneEvent_of_isOpen
      store := hseq.store
      event := h.safeEvent hseq.enabled ht }
  rcases h with ⟨hopen, hreading⟩ | hclosed
  · obtain ⟨t', ht', hafter⟩ := hopen.after_exec hseq.enabled hsafe hseq.leavesReading
    obtain rfl := Option.some.inj (ht'.symm.trans ht)
    exact hafter.imp_left fun hand ↦ ⟨hand.1, hand.2.trans hreading⟩
  · obtain ⟨t', ht', htclosed⟩ := hclosed.exec hseq.enabled hsafe
    obtain rfl := Option.some.inj (ht'.symm.trans ht)
    exact .inr htclosed

/-- Whatever was sent, read, written and closed since `connectEstablished`,
`connectDestroyed` finishes the connection unless it waits for the peer, or for
`forceCloseInLoop`, after a `shutdown` or a `forceClose`. -/
theorem exists_destroyed_iff {highWaterMark : ℕ} {hasWriteComplete hasHighWaterMark : Bool}
    {acts : List ConnAct}
    (hseq : EachStep exec InSequence acts
      (established highWaterMark hasWriteComplete hasHighWaterMark))
    (hrun : runAll exec acts (established highWaterMark hasWriteComplete hasHighWaterMark) =
      some s) :
    (∃ t, s.connectDestroyed = some t ∧ t.Destroyed) ↔ s.conn.state ≠ .kDisconnecting := by
  have hestablished : ReadsOrClosed
      (established highWaterMark hasWriteComplete hasHighWaterMark) :=
    .inl ⟨open_established _ _ _, rfl⟩
  have hinv : s.ReadsOrClosed :=
    runAll_invariant (fun _ _ _ h hok ht ↦ h.exec hok ht) hestablished hseq hrun
  exact hinv.connectDestroyed

/-- The peer closes after an answer that has been written at once. -/
def closedByPeer : List ConnAct :=
  [.send [65] (.accepted 1),
    .handleEvent ⟨false, true, false, false, false⟩ (.received []) (.accepted 0)]

theorem inSequence_closedByPeer :
    EachStep exec InSequence closedByPeer (established 64 false false) := by
  refine eachStep_cons ⟨trivial, ?_, trivial⟩ rfl ?_
  · rintro f ⟨⟩
  refine eachStep_cons ⟨.inr rfl, ?_, trivial⟩ rfl trivial
  rintro f ⟨⟩

theorem exists_destroyed_closedByPeer : ∃ s, runAll exec closedByPeer (established 64 false false) =
    some s ∧ ∃ t, s.connectDestroyed = some t ∧ t.Destroyed := by
  have hrun : (runAll exec closedByPeer (established 64 false false)).isSome = true := rfl
  obtain ⟨s, hs⟩ := Option.isSome_iff_exists.mp hrun
  refine ⟨s, hs, (exists_destroyed_iff inSequence_closedByPeer hs).mpr ?_⟩
  cases hs
  change StateE.kDisconnected ≠ .kDisconnecting
  decide

/-- After `shutdown` the connection still reads, and its channel cannot be
removed. -/
theorem connectDestroyed_halfClosed :
    EachStep exec InSequence [.shutdown] (established 64 false false) ∧
    ∃ s, runAll exec [.shutdown] (established 64 false false) = some s ∧
      s.connectDestroyed = none := by
  refine ⟨eachStep_cons ⟨trivial, ?_, trivial⟩ rfl trivial, _, rfl, rfl⟩
  rintro f ⟨⟩

/-! ## Quiet once closed -/

/-- What holds of a connection that has been closed, until its channel is
removed: it stays so, asks for no event, is not watched, and `handleClose` has
run once. -/
structure QuietWhenClosed (s : ConnectionLoop) : Prop where
  final : false ∈ s.conn.callbacks → s.conn.state = .kDisconnected
  quiet : s.conn.state = .kDisconnected → s.conn.channel.isNoneEvent = true
  unwatched : s.conn.state = .kDisconnected → s.index ≠ kAdded
  once : s.conn.callbacks.count false ≤ 1

theorem Open.state_ne (h : s.Open) : s.conn.state ≠ .kDisconnected := by
  intro hdown
  have hopen := h.state
  rw [isOpen_eq_false hdown] at hopen
  cases hopen

theorem OpenOrClosed.quietWhenClosed (h : s.OpenOrClosed) : s.QuietWhenClosed := by
  rcases h with hopen | hclosed
  · refine ⟨?_, fun hdown ↦ absurd hdown hopen.state_ne,
      fun hdown ↦ absurd hdown hopen.state_ne, ?_⟩
    · rw [hopen.callbacks]
      simp
    · rw [hopen.callbacks]
      decide
  · refine ⟨fun _ ↦ hclosed.state, fun _ ↦ hclosed.quiet, fun _ ↦ ?_, ?_⟩
    · rw [hclosed.index]
      decide
    · rw [hclosed.callbacks]
      decide

theorem OpenOrClosed.closed_of_state (h : s.OpenOrClosed) (hdown : s.conn.state = .kDisconnected) :
    s.Closed := h.resolve_left fun hopen ↦ hopen.state_ne hdown

theorem OpenOrClosed.open_of_isOpen (h : s.OpenOrClosed) (hopen : isOpen s.conn = true) :
    s.Open := by
  refine h.resolve_right fun hclosed ↦ ?_
  rw [isOpen_eq_false hclosed.state] at hopen
  cases hopen

/-- Closing a connection that asks for no event has it watched again. -/
theorem ClosedAt.events_of_quiet {channel : Channel} (h : s.ClosedAt (closedIndex channel))
    (hquiet : s.QuietWhenClosed) : channel.isNoneEvent = false := by
  by_contra hnone
  rw [Bool.not_eq_false] at hnone
  apply hquiet.unwatched h.state
  rw [h.index, closedIndex, if_pos hnone]

/-- A functor that is not safe leaves events asked for, or the socket watched,
on a closed connection. -/
theorem OpenOrClosed.safeFunctor (h : s.OpenOrClosed) {w : Write}
    (ht : ConnectionLoop.runFunctor w f s = some t) (hquiet : t.QuietWhenClosed) :
    SafeFunctor f s := by
  cases f with
  | sendInLoop data => trivial
  | shutdownInLoop => trivial
  | forceCloseInLoop =>
      intro hisOpen
      obtain ⟨u, hu, hclosed⟩ := (h.open_of_isOpen hisOpen).handleClose
      obtain rfl := Option.some.inj (ht.symm.trans ((if_pos hisOpen).trans hu))
      exact hclosed.events_of_quiet hquiet
  | startReadInLoop =>
      intro hdown
      have hoff := (h.closed_of_state hdown).channel_reading
      rw [ConnectionLoop.runFunctor, ConnectionLoop.startReadInLoop, if_pos (.inr hoff),
        TcpConnection.startReadInLoop, if_pos (.inr hoff)] at ht
      obtain rfl := Option.some.inj ht
      cases hquiet.quiet hdown
  | stopReadInLoop =>
      intro hdown
      by_contra hreading
      rw [Bool.not_eq_false] at hreading
      rw [ConnectionLoop.runFunctor, ConnectionLoop.stopReadInLoop, if_pos (.inl hreading),
        TcpConnection.stopReadInLoop, if_pos (.inl hreading)] at ht
      obtain rfl := Option.some.inj ht
      apply hquiet.unwatched hdown
      change indexAfter s.index _ = kAdded
      rw [(h.closed_of_state hdown).index]
      exact indexAfter_of_ne (by decide) _

theorem OpenOrClosed.storesInTime (h : s.OpenOrClosed) (ht : ConnectionLoop.exec a s = some t)
    (hquiet : t.QuietWhenClosed) : StoresInTime a s := by
  cases a with
  | storeState k =>
      intro hdown
      rw [ConnectionLoop.exec] at ht
      split_ifs at ht
      obtain rfl := Option.some.inj ht
      have hcallbacks : false ∈ s.conn.callbacks := by
        rw [(h.closed_of_state hdown).callbacks]
        decide
      cases hquiet.final hcallbacks
  | _ => trivial

theorem OpenOrClosed.safeEvent (h : s.OpenOrClosed) (henabled : Enabled a s)
    (ht : ConnectionLoop.exec a s = some t) (hquiet : t.QuietWhenClosed) : SafeEvent a s := by
  cases a with
  | handleEvent e r w =>
      have hopen := h.open_of_handleEvent henabled
      have halone : HangsUpAlone e r := hopen.hangsUpAlone ht
      refine ⟨halone, fun hcloses ↦ ?_⟩
      obtain ⟨u, hu, hclosed⟩ := hopen.handleEvent_of_closesOn halone hcloses
      obtain rfl := Option.some.inj (ht.symm.trans hu)
      exact hclosed.events_of_quiet hquiet
  | _ => trivial

/-- The conditions are needed: each step that breaks one fails an assertion or
disturbs a closed connection. -/
theorem OpenOrClosed.safe (h : s.OpenOrClosed) (henabled : Enabled a s)
    (ht : ConnectionLoop.exec a s = some t) (hquiet : t.QuietWhenClosed) : Safe a s := by
  refine ⟨fun f hf ↦ ?_, h.storesInTime ht hquiet, h.safeEvent henabled ht hquiet⟩
  obtain ⟨w, fs, hexec⟩ := exec_running hf
  have hqueue : OpenOrClosed { s with queue := fs } :=
    h.imp (fun hopen ↦ hopen.withQueue fs s.calls) fun hclosed ↦ hclosed.withQueue fs s.calls
  exact hqueue.safeFunctor (hexec.symm.trans ht) hquiet

/-- In every run of calls and events, a closed connection is quiet in every
state, and no assertion fails, if and only if every step is safe. -/
theorem forall_quietWhenClosed_iff {highWaterMark : ℕ}
    {hasWriteComplete hasHighWaterMark : Bool} {acts : List ConnAct}
    (henabled : EachStep exec Enabled acts
      (established highWaterMark hasWriteComplete hasHighWaterMark)) :
    (∀ pre, pre <+: acts → ∃ s,
      runAll exec pre (established highWaterMark hasWriteComplete hasHighWaterMark) = some s ∧
        s.QuietWhenClosed) ↔
      EachStep exec Safe acts (established highWaterMark hasWriteComplete hasHighWaterMark) := by
  apply forall_prefix_iff_eachStep (I := OpenOrClosed) (fun _ h ↦ h.quietWhenClosed)
    (fun _ _ h hmay hsafe ↦ h.exec hmay hsafe) _ (.inl (open_established _ _ _)) henabled
  intro a s h hmay hunsafe t ht hquiet
  exact hunsafe (h.safe hmay ht hquiet)

/-- Reading is stopped and started again while the connection is open, and the
`forceClose` of another thread comes to run after the peer has closed. -/
def pausedThenClosed : List ConnAct :=
  [.stopRead, .startRead, .beginCall .forceClose, .storeState ⟨.forceClose, false⟩,
    .queueCall ⟨.forceClose, true⟩,
    .handleEvent ⟨false, true, false, false, false⟩ (.received []) (.accepted 0),
    .runFunctor (.accepted 0)]

theorem enabled_pausedThenClosed :
    EachStep exec Enabled pausedThenClosed (established 64 false false) := by
  refine eachStep_cons trivial rfl ?_
  refine eachStep_cons trivial rfl ?_
  refine eachStep_cons trivial rfl ?_
  refine eachStep_cons ⟨List.mem_singleton_self _, rfl, rfl⟩ rfl ?_
  refine eachStep_cons ⟨List.mem_singleton_self _, rfl⟩ rfl ?_
  refine eachStep_cons (.inr rfl) rfl ?_
  exact eachStep_cons (List.cons_ne_nil _ _) rfl trivial

theorem safe_pausedThenClosed :
    EachStep exec Safe pausedThenClosed (established 64 false false) := by
  have hnone {P : QueuedCall → Prop} : ∀ f ∈ (none : Option QueuedCall), P f := by simp
  have hsome {P : QueuedCall → Prop} {f : QueuedCall} (h : P f) : ∀ g ∈ some f, P g := by
    rintro g ⟨⟩
    exact h
  refine eachStep_cons ⟨hsome nofun, trivial, trivial⟩ rfl ?_
  refine eachStep_cons ⟨hsome nofun, trivial, trivial⟩ rfl ?_
  refine eachStep_cons ⟨hnone, trivial, trivial⟩ rfl ?_
  refine eachStep_cons ⟨hnone, nofun, trivial⟩ rfl ?_
  refine eachStep_cons ⟨hnone, trivial, trivial⟩ rfl ?_
  refine eachStep_cons ⟨hnone, trivial, nofun, fun _ ↦ rfl⟩ rfl ?_
  exact eachStep_cons ⟨hsome nofun, trivial, trivial⟩ rfl trivial

theorem quietWhenClosed_pausedThenClosed :
    ∃ s, runAll exec pausedThenClosed (established 64 false false) = some s ∧
      s.QuietWhenClosed := by
  apply (forall_quietWhenClosed_iff enabled_pausedThenClosed).mpr safe_pausedThenClosed
  exact List.prefix_rfl

/-- The `startRead` of another thread comes to run after the peer has closed:
the socket is watched again, and the next event fails the assertion of
`handleClose`. -/
theorem startRead_afterClose :
    EachStep exec Enabled [.queueStartRead,
      .handleEvent ⟨false, true, false, false, false⟩ (.received []) (.accepted 0),
      .runFunctor (.accepted 0)] (established 64 false false) ∧
    ∃ s, runAll exec [.queueStartRead,
        .handleEvent ⟨false, true, false, false, false⟩ (.received []) (.accepted 0),
        .runFunctor (.accepted 0)] (established 64 false false) = some s ∧
      s.conn.state = .kDisconnected ∧ s.conn.channel.reading = true ∧ s.index = kAdded ∧
      exec (.handleEvent ⟨false, true, false, false, false⟩ (.received []) (.accepted 0)) s =
        none := by
  refine ⟨?_, _, rfl, rfl, rfl, rfl, rfl⟩
  refine eachStep_cons trivial rfl ?_
  refine eachStep_cons (.inr rfl) rfl ?_
  exact eachStep_cons (List.cons_ne_nil _ _) rfl trivial

end ConnectionLoop

end PpDSCache.Net
