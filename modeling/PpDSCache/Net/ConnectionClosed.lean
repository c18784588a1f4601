import PpDSCache.Net.ConnectionLoop

/-!
# Closing a connection

An open connection has its socket watched by the kernel exactly while it asks
for events.  `handleClose` ends that, and a closed connection stays as it is
unless reading is started or stopped on it; it can also be closed while it asks
for nothing, and is then watched again.
-/

namespace PpDSCache.Net

open Cpp Abstract

/-! ## What the handlers keep -/

namespace TcpConnection

/-- A handler that does not close: writing may be turned on or off. -/
structure Handled (c d : TcpConnection) : Prop extends Keeps c d where
  reading : d.reading = c.reading
  channel : d.channel = c.channel ∨
    c.channel.writing = false ∧ d.channel = c.channel.enableWriting ∨
    c.channel.writing = true ∧ d.channel = c.channel.disableWriting

variable {c d : TcpConnection}

theorem reading_bufferRest (rest : Text) (c : TcpConnection) :
    (c.bufferRest rest).reading = c.reading := by
  rw [bufferRest]
  split_ifs
  · rw [ensureWriting]
    split_ifs <;> rfl
  · rfl

theorem handled_sendInLoop (w : Write) (data : Text) (c : TcpConnection) :
    Handled c (c.sendInLoop w data) := by
  refine ⟨keeps_sendInLoop w data c, ?_, (channel_sendInLoop c w data).imp_right .inl⟩
  unfold sendInLoop
  split_ifs
  · rfl
  · cases w with
    | accepted n =>
        dsimp only
        rw [reading_bufferRest]
        split_ifs <;> rfl
    | failed errno =>
        dsimp only
        split_ifs
        · rfl
        · exact reading_bufferRest data c
  · exact reading_bufferRest data c

theorem reading_shutdownInLoop (c : TcpConnection) : c.shutdownInLoop.reading = c.reading := by
  rw [shutdownInLoop]
  split_ifs <;> rfl

theorem handled_shutdownInLoop (c : TcpConnection) : Handled c c.shutdownInLoop :=
  ⟨keeps_shutdownInLoop c, reading_shutdownInLoop c, .inl (channel_shutdownInLoop c)⟩

theorem handled_handleWrite (w : Write) (c : TcpConnection) : Handled c (c.handleWrite w) := by
  refine ⟨keeps_handleWrite w c, ?_, (channel_handleWrite c w).imp_right .inr⟩
  unfold handleWrite
  split_ifs
  · cases w with
    | accepted n =>
        dsimp only
        split_ifs
        · rw [finishWriting]
          split_ifs
          · exact reading_shutdownInLoop _
          · rfl
        · rfl
        · rfl
    | failed errno => rfl
  · rfl

/-- Data that arrives changes nothing else. -/
theorem exists_handleRead {r : Readv} (hr : r ≠ .received []) (c : TcpConnection) :
    ∃ d, c.handleRead r = some d ∧ Handled c d ∧ d.channel = c.channel := by
  cases r with
  | failed errno => exact ⟨c, rfl, ⟨.refl c, rfl, .inl rfl⟩, rfl⟩
  | received data =>
      have hlen : 0 < data.length := List.length_pos_iff.mpr fun hnil ↦ hr (by rw [hnil])
      refine ⟨handOn .message { c with inputBuffer := c.inputBuffer ++ data }, ?_,
        ⟨⟨rfl, ?_⟩, rfl, .inl rfl⟩, rfl⟩
      · rw [handleRead, if_pos hlen]
      · simp [callbacks, handOn]

theorem Handled.channel_reading (h : Handled c d) : d.channel.reading = c.channel.reading := by
  rcases h.channel with hch | ⟨-, hch⟩ | ⟨-, hch⟩ <;> rw [hch] <;> rfl

end TcpConnection

/-! ## Open and closed -/

namespace ConnectionLoop

open EPollPoller TcpConnection

variable {s t : ConnectionLoop} {c : TcpConnection}

/-- The index of a channel whose updates all had events before or after. -/
def indexOf (channel : Channel) : ℤ := if channel.isNoneEvent = true then kDeleted else kAdded

structure Open (s : ConnectionLoop) : Prop where
  state : isOpen s.conn = true
  callbacks : s.conn.callbacks = [true]
  reading : s.conn.reading = s.conn.channel.reading
  index : s.index = indexOf s.conn.channel

structure ClosedAt (s : ConnectionLoop) (i : ℤ) : Prop where
  state : s.conn.state = .kDisconnected
  callbacks : s.conn.callbacks = [true, false]
  quiet : s.conn.channel.isNoneEvent = true
  index : s.index = i

/-- Closed and no longer watched. -/
def Closed (s : ConnectionLoop) : Prop := s.ClosedAt kDeleted

/-- The index after all events have been disabled: a channel without events is
added again. -/
def closedIndex (channel : Channel) : ℤ := if channel.isNoneEvent = true then kAdded else kDeleted

theorem open_established (highWaterMark : ℕ) (hasWriteComplete hasHighWaterMark : Bool) :
    Open (established highWaterMark hasWriteComplete hasHighWaterMark) := by
  refine ⟨rfl, ?_, rfl, rfl⟩
  exact callbacks_establish _

theorem isOpen_congr {d : TcpConnection} (h : d.state = c.state) : isOpen d = isOpen c := by
  rw [isOpen, isOpen, h]

theorem isOpen_eq_false (h : c.state = .kDisconnected) : isOpen c = false := by
  simp [isOpen, h]

theorem handleClose_of_isOpen (h : isOpen c = true) :
    c.handleClose = some (c.disconnect.handOn .close) := if_pos (by simpa [isOpen] using h)

/-- An update with events before or after it leaves the index in step. -/
theorem indexAfter_indexOf {before after : Channel}
    (h : before.isNoneEvent = true → after.isNoneEvent = false) :
    indexAfter (indexOf before) after = indexOf after := by
  rw [indexOf, indexOf]
  split_ifs with hbefore hafter hafter
  · rw [h hbefore] at hafter
    cases hafter
  · exact indexAfter_of_ne (by decide) after
  · rw [indexAfter_added, if_pos hafter]
  · rw [indexAfter_added, if_neg hafter]

theorem Open.updated (h : s.Open) (hstate : isOpen c = true) (hcallbacks : c.callbacks = [true])
    (hreading : c.reading = c.channel.reading)
    (hevents : s.conn.channel.isNoneEvent = true → c.channel.isNoneEvent = false) :
    (s.updated c).Open := by
  refine ⟨hstate, hcallbacks, hreading, ?_⟩
  change indexAfter s.index c.channel = _
  rw [h.index]
  exact indexAfter_indexOf hevents

theorem Open.withConn (h : s.Open) (hc : Handled s.conn c) : (s.withConn c).Open := by
  have hstate : isOpen c = true := (isOpen_congr hc.state).trans h.state
  have hcallbacks : c.callbacks = [true] := hc.callbacks.trans h.callbacks
  have hreading : c.reading = c.channel.reading := by
    rw [hc.reading, h.reading, hc.channel_reading]
  rw [ConnectionLoop.withConn]
  split_ifs with hsame
  · exact ⟨hstate, hcallbacks, hreading, by rw [hsame]; exact h.index⟩
  · apply h.updated hstate hcallbacks hreading
    intro hnone
    rcases hc.channel with hch | ⟨-, hch⟩ | ⟨hwriting, -⟩
    · exact absurd hch hsame
    · simp [hch, Channel.isNoneEvent, Channel.enableWriting, Channel.update]
    · simp [Channel.isNoneEvent, hwriting] at hnone

theorem conn_withConn (c : TcpConnection) (s : ConnectionLoop) : (s.withConn c).conn = c := by
  rw [withConn]
  split_ifs <;> rfl

theorem indexAfter_disableAll (channel : Channel) :
    indexAfter (indexOf channel) channel.disableAll = closedIndex channel := by
  rw [indexOf, closedIndex]
  split_ifs
  · exact indexAfter_of_ne (by decide) _
  · exact indexAfter_added _

theorem closedIndex_of_events {channel : Channel} (h : channel.isNoneEvent = false) :
    closedIndex channel = kDeleted := by
  rw [closedIndex, h]
  rfl

theorem Open.disconnect (h : s.Open) :
    (s.updated s.conn.disconnect).ClosedAt (closedIndex s.conn.channel) := by
  refine ⟨rfl, ?_, rfl, ?_⟩
  · change s.conn.disconnect.callbacks = _
    rw [callbacks_disconnect, h.callbacks]
    rfl
  · rw [← indexAfter_disableAll, ← h.index]
    rfl

theorem Open.handleClose (h : s.Open) :
    ∃ t, s.handleClose = some t ∧ t.ClosedAt (closedIndex s.conn.channel) := by
  have hclosed := h.disconnect
  rw [ConnectionLoop.handleClose, handleClose_of_isOpen h.state]
  refine ⟨_, rfl, hclosed.state, ?_, hclosed.quiet, hclosed.index⟩
  rw [← hclosed.callbacks]
  exact callbacks_handOn_close s.conn.disconnect

theorem Open.setDisconnecting (h : s.Open) : s.setDisconnecting.Open :=
  ⟨rfl, h.callbacks, h.reading, h.index⟩

theorem Open.startReadInLoop (h : s.Open) : s.startReadInLoop.Open := by
  rw [ConnectionLoop.startReadInLoop]
  split_ifs with hoff
  · rw [TcpConnection.startReadInLoop, if_pos hoff]
    exact h.updated h.state h.callbacks rfl fun _ ↦ rfl
  · exact h

theorem Open.stopReadInLoop (h : s.Open) : s.stopReadInLoop.Open := by
  rw [ConnectionLoop.stopReadInLoop]
  split_ifs with hon
  · rw [TcpConnection.stopReadInLoop, if_pos hon]
    refine h.updated h.state h.callbacks rfl fun hnone ↦ ?_
    rw [h.reading, or_self] at hon
    simp [Channel.isNoneEvent, hon] at hnone
  · exact h

/-! ## Nothing happens to a closed connection -/

section ClosedAt

variable {i : ℤ}

theorem ClosedAt.withConn (h : s.ClosedAt i) (hc : Keeps s.conn c)
    (hchannel : c.channel = s.conn.channel) : (s.withConn c).ClosedAt i := by
  rw [ConnectionLoop.withConn, if_pos hchannel]
  exact ⟨hc.state.trans h.state, hc.callbacks.trans h.callbacks, by rw [hchannel]; exact h.quiet,
    h.index⟩

theorem ClosedAt.handleClose (h : s.ClosedAt i) : s.handleClose = none := by
  rw [ConnectionLoop.handleClose, TcpConnection.handleClose, if_neg (by simp [h.state])]
  rfl

theorem ClosedAt.channel_reading (h : s.ClosedAt i) : s.conn.channel.reading = false := by
  have hnone := h.quiet
  rw [Channel.isNoneEvent, Bool.and_eq_true, Bool.not_eq_true'] at hnone
  exact hnone.1

theorem ClosedAt.stopReadInLoop (h : s.ClosedAt i) (hreading : s.conn.reading = false) :
    s.stopReadInLoop = s := if_neg (by simp [hreading, h.channel_reading])

theorem ClosedAt.handleWrite (h : s.ClosedAt i) (w : Write) : (s.handleWrite w).ClosedAt i := by
  rw [ConnectionLoop.handleWrite, handleWrite_of_isNoneEvent h.quiet]
  exact h.withConn (.refl _) rfl

theorem ClosedAt.sendInLoop (h : s.ClosedAt i) (w : Write) (data : Text) :
    (s.withConn (s.conn.sendInLoop w data)).ClosedAt i := by
  have hsame : s.conn.sendInLoop w data = s.conn := if_pos h.state
  rw [hsame]
  exact h.withConn (.refl _) rfl

end ClosedAt

/-! ## Events -/

/-- The connection is open, with reading as before. -/
def StaysOpen (s t : ConnectionLoop) : Prop :=
  t.Open ∧ t.conn.channel.reading = s.conn.channel.reading

def After (s t : ConnectionLoop) : Prop := s.StaysOpen t ∨ t.Closed

theorem StaysOpen.withConn (h : s.StaysOpen t) (hc : Handled t.conn c) :
    s.StaysOpen (t.withConn c) := by
  refine ⟨h.1.withConn hc, ?_⟩
  rw [conn_withConn, ← h.2]
  exact hc.channel_reading

theorem Open.staysOpen (h : s.Open) : s.StaysOpen s := ⟨h, rfl⟩

theorem exists_handleRead_conn {r : Readv} (hr : r ≠ .received []) (s : ConnectionLoop) :
    ∃ c, s.handleRead r = some (s.withConn c) ∧ Handled s.conn c ∧
      c.channel = s.conn.channel := by
  obtain ⟨c, hc, hhandled, hchannel⟩ := exists_handleRead hr s.conn
  refine ⟨c, ?_, hhandled, hchannel⟩
  rw [← Option.map_some (f := fun c ↦ s.withConn c), ← hc]
  cases r with
  | failed errno => rfl
  | received data =>
      cases data with
      | nil => exact absurd rfl hr
      | cons b bs => rfl

theorem ClosedAt.handleRead {i : ℤ} (h : s.ClosedAt i) {r : Readv} (hr : r ≠ .received []) :
    ∃ t, s.handleRead r = some t ∧ t.ClosedAt i := by
  obtain ⟨c, hc, hhandled, hchannel⟩ := exists_handleRead_conn hr s
  exact ⟨_, hc, h.withConn hhandled.toKeeps hchannel⟩

/-- Events that enter `handleClose`: a hang-up without input, and the end of the
input. -/
def ClosesOn (e : Revents) (r : Readv) : Prop :=
  e.hup = true ∧ e.pollin = false ∨
    (e.pollin = true ∨ e.pri = true ∨ e.rdhup = true) ∧ r = .received []

/-- A hang-up without input is not followed by the end of the input in the same
event.  The kernel reports the end of the input as input. -/
def HangsUpAlone (e : Revents) (r : Readv) : Prop :=
  e.hup = true → e.pollin = false → e.pri = true ∨ e.rdhup = true → r ≠ .received []

variable {e : Revents} {r : Readv} {w : Write}

/-- The three parts of an event. -/
theorem handleEvent_of_parts {u v : ConnectionLoop}
    (hu : (if e.hup = true ∧ e.pollin = false then s.handleClose else some s) = some u)
    (hv : (if e.pollin = true ∨ e.pri = true ∨ e.rdhup = true then u.handleRead r else some u) =
      some v) :
    s.handleEvent e r w = some (if e.out = true then v.handleWrite w else v) := by
  rw [ConnectionLoop.handleEvent, hu, Option.bind_some, hv, Option.map_some]

theorem Open.handleEvent_of_closesOn (h : s.Open) (halone : HangsUpAlone e r)
    (hcloses : ClosesOn e r) :
    ∃ t, s.handleEvent e r w = some t ∧ t.ClosedAt (closedIndex s.conn.channel) := by
  obtain ⟨u, hu, hclosed⟩ := h.handleClose
  obtain ⟨u', v, hu', hv, hvclosed⟩ : ∃ u' v,
      (if e.hup = true ∧ e.pollin = false then s.handleClose else some s) = some u' ∧
      (if e.pollin = true ∨ e.pri = true ∨ e.rdhup = true then u'.handleRead r else some u') =
        some v ∧ v.ClosedAt (closedIndex s.conn.channel) := by
    by_cases hhup : e.hup = true ∧ e.pollin = false
    · rw [if_pos hhup]
      split_ifs with hin
      · have hr : r ≠ .received [] := halone hhup.1 hhup.2 (by simpa [hhup.2] using hin)
        obtain ⟨v, hv, hvclosed⟩ := hclosed.handleRead hr
        exact ⟨u, v, hu, hv, hvclosed⟩
      · exact ⟨u, u, hu, rfl, hclosed⟩
    · obtain ⟨hin, rfl⟩ := hcloses.resolve_left hhup
      exact ⟨s, u, if_neg hhup, (if_pos hin).trans hu, hclosed⟩
  refine ⟨_, handleEvent_of_parts hu' hv, ?_⟩
  split_ifs
  · exact hvclosed.handleWrite w
  · exact hvclosed

theorem Open.handleEvent_of_not_closesOn (h : s.Open) (hcloses : ¬ ClosesOn e r) :
    ∃ t, s.handleEvent e r w = some t ∧ s.StaysOpen t := by
  obtain ⟨hhup, hread⟩ := not_or.mp hcloses
  obtain ⟨v, hv, hvopen⟩ : ∃ v,
      (if e.pollin = true ∨ e.pri = true ∨ e.rdhup = true then s.handleRead r else some s) =
        some v ∧ s.StaysOpen v := by
    split_ifs with hin
    · obtain ⟨c, hc, hhandled, -⟩ := exists_handleRead_conn (fun hr ↦ hread ⟨hin, hr⟩) s
      exact ⟨_, hc, h.staysOpen.withConn hhandled⟩
    · exact ⟨s, rfl, h.staysOpen⟩
  refine ⟨_, handleEvent_of_parts (if_neg hhup) hv, ?_⟩
  split_ifs
  · exact hvopen.withConn (handled_handleWrite w v.conn)
  · exact hvopen

/-- An open connection asserts its state only in `handleClose`, which an event
enters twice where the end of the input follows the hang-up. -/
theorem Open.hangsUpAlone (h : s.Open) (ht : s.handleEvent e r w = some t) :
    HangsUpAlone e r := by
  intro hhup hpollin hin hr
  obtain ⟨u, hu, hclosed⟩ := h.handleClose
  have hnone : u.handleRead r = none := by
    rw [hr]
    exact hclosed.handleClose
  rw [ConnectionLoop.handleEvent, if_pos ⟨hhup, hpollin⟩, hu, Option.bind_some,
    if_pos (.inr hin), hnone] at ht
  cases ht

end ConnectionLoop

end PpDSCache.Net
