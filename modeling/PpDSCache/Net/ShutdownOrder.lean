import PpDSCache.Net.Shutdown

/-!
# When nothing is overtaken

If `shutdown` is called where it overtakes no payload, the write side is shut
down only after the kernel has accepted all that was sent.
-/

namespace PpDSCache.Net

open Cpp Abstract

/-! ## What the handlers do to the write side -/

namespace TcpConnection

variable {c : TcpConnection} {w : Write} {data : Text}

theorem writeShut_sendInLoop (w : Write) (data : Text) (c : TcpConnection) :
    (c.sendInLoop w data).socket.writeShut = c.socket.writeShut := by
  obtain ⟨-, h⟩ | ⟨-, h⟩ | ⟨-, -, n, calls, h⟩ := sendInLoop_cases w data c
  · rw [h]
  · rw [h, socket_bufferRest]
  · rw [h, socket_bufferRest]
    rfl

theorem sendInLoop_nil (w : Write) (c : TcpConnection) :
    (c.sendInLoop w []).flow = c.flow ∧ (c.sendInLoop w []).outputBuffer = c.outputBuffer := by
  obtain ⟨-, h⟩ | ⟨-, h⟩ | ⟨-, -, n, calls, h⟩ := sendInLoop_cases w [] c
  · simp [h]
  · simp [h, flow_bufferRest, outputBuffer_bufferRest]
  · rw [h, flow_bufferRest, outputBuffer_bufferRest]
    simp [flow, accept]

theorem outputBuffer_sendInLoop (h : c.outputBuffer = []) (hdata : data = []) (w : Write) :
    (c.sendInLoop w data).outputBuffer = [] := by
  rw [hdata, (sendInLoop_nil w c).2, h]

theorem state_handleWrite (w : Write) (c : TcpConnection) : (c.handleWrite w).state = c.state := by
  obtain h | ⟨-, n, ⟨-, h⟩ | ⟨-, h⟩⟩ := handleWrite_cases w c
  · rw [h]
  · rw [h]
    rfl
  · obtain ⟨calls, hfinish⟩ := (c.drain n).finishWriting_eq
    rw [h, hfinish]
    rfl

/-- A handler for write events shuts the write side only with an output buffer
that it has just drained. -/
theorem writeShut_handleWrite (hshut : (c.handleWrite w).socket.writeShut = true) :
    c.socket.writeShut = true ∨
      c.channel.writing = true ∧ c.state = .kDisconnecting ∧
        (c.handleWrite w).outputBuffer = [] := by
  obtain h | ⟨hwriting, n, ⟨-, h⟩ | ⟨hnil, h⟩⟩ := handleWrite_cases w c
  · rw [h] at hshut
    exact .inl hshut
  · rw [h] at hshut
    exact .inl hshut
  · obtain ⟨calls, hfinish⟩ := (c.drain n).finishWriting_eq
    rw [h, hfinish] at hshut ⊢
    rcases Bool.or_eq_true_iff.mp hshut with hold | hstate
    · exact .inl hold
    · exact .inr ⟨hwriting, of_decide_eq_true hstate, hnil⟩

theorem outputBuffer_handleWrite (hout : c.outputBuffer = []) (w : Write) :
    (c.handleWrite w).outputBuffer = [] := by
  obtain h | ⟨-, n, ⟨hne, -⟩ | ⟨hnil, h⟩⟩ := handleWrite_cases w c
  · rw [h, hout]
  · simp [hout] at hne
  · obtain ⟨calls, hfinish⟩ := (c.drain n).finishWriting_eq
    rw [h, hfinish]
    exact hnil

theorem handleWrite_of_not_writing (h : c.channel.writing = false) (w : Write) :
    c.handleWrite w = c := by
  simp [handleWrite, h]

end TcpConnection

namespace SendLoop

/-- The functors of the loop, in the order in which it will run them. -/
def queue (s : SendLoop) : List ConnFunctor := s.batch ++ s.pending

/-- Nothing that was sent is still on its way to the kernel. -/
def Clean (s : SendLoop) : Prop := s.conn.outputBuffer = [] ∧ NoBytes s.queue

/-- Every byte of the payloads that were sent has been accepted. -/
def AllAccepted (s : SendLoop) : Prop :=
  s.conn.socket.accepted = s.passed.flatten ∧ ∀ p, p ≠ [] → s.passed.count p = s.sent.count p

/-- No queued payload can be left behind by a write event: while something is
to be written, or the loop still runs functors with payloads, none is
pending. -/
def NoneOvertaken (s : SendLoop) : Prop :=
  s.conn.outputBuffer ≠ [] ∨ ¬ NoBytes s.batch → NoBytes s.pending

/-- A shutdown of the write side is due or done. -/
def Requested (s : SendLoop) : Prop :=
  s.conn.socket.writeShut = true ∨ s.queueing = true ∨ .shutdownInLoop ∈ s.queue

end SendLoop

/-- The condition on a step: a shutdown overtakes no payload, the connection
is not closed between the shutdown and the last byte, and the peer does not
reset it before the write side is shut. -/
def SendAct.Orderly (a : SendAct) (s : SendLoop) : Prop :=
  match a with
  | send _ w => w.NoPeerReset
  | runFunctor w => s.conn.socket.writeShut = false → w.NoPeerReset
  | shutdown => s.conn.state = .kConnected →
      s.NoneOvertaken ∧ (s.conn.outputBuffer = [] → NoBytes s.queue)
  | shutdownFrom => s.conn.state = .kConnected → s.NoneOvertaken
  | handleClose => s.conn.state = .kDisconnecting → s.Clean
  | _ => True

namespace SendLoop

structure Inv (s : SendLoop) : Prop where
  flow : s.conn.flow = s.passed.flatten
  writes : s.conn.WritesAsNeeded
  opened : s.conn.state ≠ .kConnecting
  down : s.conn.state = .kDisconnected → s.conn.channel.writing = false
  idle : s.doingFunctors = false → s.batch = []
  counts : s.conn.state ≠ .kDisconnected ∨ s.Requested → ∀ p, p ≠ [] →
    s.passed.count p + (payloads s.queue).count p = s.sent.count p
  connected : s.conn.state = .kConnected → ¬ s.Requested
  disconnecting : s.conn.state = .kDisconnecting → s.NoneOvertaken ∧ SendsFirst s.queue
  disconnected : s.conn.state = .kDisconnected → s.Requested → s.Clean
  shut : s.conn.socket.writeShut = true → s.Clean

theorem inv_start (highWaterMark : ℕ) (hasWriteComplete hasHighWaterMark : Bool) :
    (start (.new highWaterMark hasWriteComplete hasHighWaterMark)).Inv where
  flow := rfl
  writes := fun _ ↦ iff_of_false Bool.false_ne_true (not_not.mpr rfl)
  opened := by simp [start, TcpConnection.establish, TcpConnection.handOn]
  down := fun h ↦ by cases h
  idle := fun _ ↦ rfl
  counts := fun _ _ _ ↦ rfl
  connected := by
    rintro - (h | h | h)
    · cases h
    · cases h
    · cases h
  disconnecting := fun h ↦ by cases h
  disconnected := fun h ↦ by cases h
  shut := fun h ↦ by cases h

namespace Inv

variable {s t : SendLoop} {w : Write} {data : Text}

theorem allAccepted (h : s.Inv) (hshut : s.conn.socket.writeShut = true) : s.AllAccepted := by
  obtain ⟨hout, hbytes⟩ := h.shut hshut
  refine ⟨?_, fun p hp ↦ ?_⟩
  · rw [← h.flow, TcpConnection.flow, hout, List.append_nil]
  · have hcount := h.counts (.inr (.inl hshut)) p hp
    rwa [count_payloads_of_noBytes hbytes hp, Nat.add_zero] at hcount

theorem notMem_of_connected (h : s.Inv) (hstate : s.conn.state = .kConnected) :
    .shutdownInLoop ∉ s.queue := fun hmem ↦ h.connected hstate (.inr (.inr hmem))

theorem writeShut_of_connected (h : s.Inv) (hstate : s.conn.state = .kConnected) :
    s.conn.socket.writeShut = false := by
  rw [← Bool.not_eq_true]
  exact fun hshut ↦ h.connected hstate (.inl hshut)

theorem send (h : s.Inv) (hstate : s.conn.state = .kConnected) (hw : w.NoPeerReset)
    (data : Text) : (pass w data { s with sent := s.sent ++ [data] }).Inv := by
  have hup : s.conn.state ≠ .kDisconnected := by simp [hstate]
  have hkeep : (s.conn.sendInLoop w data).state = .kConnected := by
    rw [TcpConnection.state_sendInLoop, hstate]
  have hshut : (s.conn.sendInLoop w data).socket.writeShut = false := by
    rw [TcpConnection.writeShut_sendInLoop, h.writeShut_of_connected hstate]
  exact {
    flow := by simp [pass, hup, TcpConnection.flow_sendInLoop hup hw, h.flow]
    writes := h.writes.sendInLoop w data
    opened := fun hopen ↦ absurd (hkeep.symm.trans hopen) (by simp)
    down := fun hdown ↦ absurd (hkeep.symm.trans hdown) (by simp)
    idle := h.idle
    counts := by
      intro _ p hp
      have hcount := h.counts (.inl hup) p hp
      simp only [pass, if_neg hup, List.count_append]
      simp only [queue] at hcount ⊢
      omega
    connected := by
      rintro - (hreq | hreq)
      · simp [pass, hshut] at hreq
      · exact h.connected hstate (.inr hreq)
    disconnecting := fun hdown ↦ absurd (hkeep.symm.trans hdown) (by simp)
    disconnected := fun hdown ↦ absurd (hkeep.symm.trans hdown) (by simp)
    shut := fun hreq ↦ by simp [pass, hshut] at hreq }

theorem sendFrom (h : s.Inv) (hstate : s.conn.state = .kConnected) (data : Text) :
    Inv { s with pending := s.pending ++ [.sendInLoop data], sent := s.sent ++ [data] } where
  flow := h.flow
  writes := h.writes
  opened := h.opened
  down := h.down
  idle := h.idle
  counts := by
    intro _ p hp
    have hcount := h.counts (.inl (by simp [hstate])) p hp
    simp only [queue, payloads_append, List.count_append, payloads] at hcount ⊢
    omega
  connected := by
    rintro - (hreq | hreq | hreq)
    · exact h.connected hstate (.inl hreq)
    · exact h.connected hstate (.inr (.inl hreq))
    · exact h.notMem_of_connected hstate (by simpa [queue] using hreq)
  disconnecting := fun hdown ↦ absurd (hstate.symm.trans hdown) (by simp)
  disconnected := fun hdown ↦ absurd (hstate.symm.trans hdown) (by simp)
  shut := fun hreq ↦ absurd (.inl hreq) (h.connected hstate)

/-- The state a shutdown sets.  The write side may be shut at once if nothing
is on its way. -/
theorem enterDisconnecting (h : s.Inv) (hstate : s.conn.state = .kConnected)
    (hover : s.NoneOvertaken) {shut : Bool} (hshut : shut = true → s.Clean) (queueing : Bool) :
    Inv { s with
      conn := { s.conn with
        state := .kDisconnecting
        socket := { s.conn.socket with writeShut := shut } }
      queueing := queueing } where
  flow := h.flow
  writes := fun _ ↦ h.writes (by simp [hstate])
  opened := fun hopen ↦ by cases hopen
  down := fun hdown ↦ by cases hdown
  idle := h.idle
  counts := fun _ ↦ h.counts (.inl (by simp [hstate]))
  connected := fun hup ↦ by cases hup
  disconnecting := fun _ ↦ ⟨hover, sendsFirst_of_notMem (h.notMem_of_connected hstate)⟩
  disconnected := fun hdown ↦ by cases hdown
  shut := hshut

theorem shutdownFrom (h : s.Inv) (hstate : s.conn.state = .kConnected)
    (hover : s.NoneOvertaken) : Inv { s.setState .kDisconnecting with queueing := true } :=
  h.enterDisconnecting hstate hover h.shut true

theorem shutdown (h : s.Inv) (hstate : s.conn.state = .kConnected) (hover : s.NoneOvertaken)
    (hclean : s.conn.outputBuffer = [] → NoBytes s.queue) :
    Inv { s with conn := (s.setState .kDisconnecting).conn.shutdownInLoop } := by
  by_cases hwriting : s.conn.channel.writing = true
  · have hconn : (s.setState .kDisconnecting).conn.shutdownInLoop =
        { s.conn with state := .kDisconnecting } := if_pos hwriting
    rw [hconn]
    exact h.enterDisconnecting hstate hover h.shut s.queueing
  · have hconn : (s.setState .kDisconnecting).conn.shutdownInLoop =
        { s.conn with
          state := .kDisconnecting
          socket := { s.conn.socket with writeShut := true } } := if_neg hwriting
    have hout : s.conn.outputBuffer = [] := by
      by_contra hne
      exact hwriting ((h.writes (by simp [hstate])).mpr hne)
    rw [hconn]
    exact h.enterDisconnecting hstate hover (fun _ ↦ ⟨hout, hclean hout⟩) s.queueing

theorem queueShutdown (h : s.Inv) (hqueueing : s.queueing = true) :
    Inv { s with pending := s.pending ++ [.shutdownInLoop], queueing := false } := by
  have hreq : s.Requested := .inr (.inl hqueueing)
  have hbytes : ∀ fs, NoBytes fs → NoBytes (fs ++ [.shutdownInLoop]) := fun fs hfs ↦
    noBytes_append.mpr ⟨hfs, noBytes_cons_shutdown.mpr noBytes_nil⟩
  have hclean : s.Clean →
      Clean { s with pending := s.pending ++ [.shutdownInLoop], queueing := false } := by
    intro hc
    refine ⟨hc.1, ?_⟩
    rw [queue, ← List.append_assoc]
    exact hbytes s.queue hc.2
  exact {
    flow := h.flow
    writes := h.writes
    opened := h.opened
    down := h.down
    idle := h.idle
    counts := by
      intro _ p hp
      have hcount := h.counts (.inr hreq) p hp
      simpa [queue, payloads_append, payloads] using hcount
    connected := fun hup ↦ absurd hreq (h.connected hup)
    disconnecting := by
      intro hstate
      obtain ⟨hover, hfirst⟩ := h.disconnecting hstate
      refine ⟨fun hbusy ↦ hbytes _ (hover hbusy), ?_⟩
      rw [queue, ← List.append_assoc]
      exact hfirst.append_shutdown
    disconnected := fun hdown _ ↦ hclean (h.disconnected hdown hreq)
    shut := fun hshut ↦ hclean (h.shut hshut) }

theorem handleWrite (h : s.Inv) (hidle : s.doingFunctors = false) (w : Write) :
    Inv { s with conn := s.conn.handleWrite w } := by
  by_cases hwriting : s.conn.channel.writing = true
  · have hup : s.conn.state ≠ .kDisconnected := by
      intro hdown
      simp [h.down hdown] at hwriting
    have hkeep : (s.conn.handleWrite w).state = s.conn.state :=
      TcpConnection.state_handleWrite w s.conn
    exact {
      flow := (TcpConnection.flow_handleWrite w s.conn).trans h.flow
      writes := h.writes.handleWrite w
      opened := fun hopen ↦ h.opened (hkeep.symm.trans hopen)
      down := fun hdown ↦ absurd (hkeep.symm.trans hdown) hup
      idle := h.idle
      counts := fun _ ↦ h.counts (.inl hup)
      connected := by
        rintro hstate (hreq | hreq)
        · rw [hkeep] at hstate
          rcases TcpConnection.writeShut_handleWrite hreq with hold | ⟨-, hdisc, -⟩
          · exact h.connected hstate (.inl hold)
          · simp [hstate] at hdisc
        · exact h.connected (hkeep.symm.trans hstate) (.inr hreq)
      disconnecting := by
        intro hstate
        obtain ⟨hover, hfirst⟩ := h.disconnecting (hkeep.symm.trans hstate)
        refine ⟨fun hbusy ↦ hover (hbusy.imp_left fun hne hout ↦ ?_), hfirst⟩
        exact hne (TcpConnection.outputBuffer_handleWrite hout w)
      disconnected := fun hdown ↦ absurd (hkeep.symm.trans hdown) hup
      shut := by
        intro hshut
        rcases TcpConnection.writeShut_handleWrite hshut with hold | ⟨hwriting, hdisc, hout⟩
        · obtain ⟨hnil, hbytes⟩ := h.shut hold
          exact ⟨TcpConnection.outputBuffer_handleWrite hnil w, hbytes⟩
        · -- the output just drained was not empty, so no payload is pending
          have hpending := (h.disconnecting hdisc).1 (.inl ((h.writes hup).mp hwriting))
          refine ⟨hout, noBytes_append.mpr ⟨?_, hpending⟩⟩
          rw [h.idle hidle]
          exact noBytes_nil }
  · rw [TcpConnection.handleWrite_of_not_writing (by simpa using hwriting)]
    exact h

theorem handleClose (h : s.Inv) (hclean : s.conn.state = .kDisconnecting → s.Clean)
    (hstate : s.conn.state = .kConnected ∨ s.conn.state = .kDisconnecting) :
    Inv { s with conn := s.conn.disconnect.handOn .close } where
  flow := h.flow
  writes := fun hup ↦ absurd rfl hup
  opened := fun hopen ↦ by cases hopen
  down := fun _ ↦ rfl
  idle := h.idle
  counts := fun _ ↦ h.counts (.inl (by rcases hstate with hup | hup <;> simp [hup]))
  connected := fun hup ↦ by cases hup
  disconnecting := fun hup ↦ by cases hup
  disconnected := by
    intro _ hreq
    rcases hstate with hup | hup
    · exact absurd hreq (h.connected hup)
    · exact hclean hup
  shut := h.shut

theorem beginFunctors (h : s.Inv) (hidle : s.doingFunctors = false) :
    Inv { s with batch := s.pending, pending := [], doingFunctors := true } := by
  have hqueue : queue { s with batch := s.pending, pending := [], doingFunctors := true } =
      s.queue := by
    simp [queue, h.idle hidle]
  have hreq : Requested { s with batch := s.pending, pending := [], doingFunctors := true } ↔
      s.Requested := by
    simp only [Requested, hqueue]
  have hclean : Clean { s with batch := s.pending, pending := [], doingFunctors := true } ↔
      s.Clean := by
    simp only [Clean, hqueue]
  exact {
    flow := h.flow
    writes := h.writes
    opened := h.opened
    down := h.down
    idle := fun hdone ↦ by cases hdone
    counts := by
      rw [hreq, hqueue]
      exact h.counts
    connected := by
      rw [hreq]
      exact h.connected
    disconnecting := by
      intro hstate
      rw [hqueue]
      exact ⟨fun _ ↦ noBytes_nil, (h.disconnecting hstate).2⟩
    disconnected := by
      rw [hreq, hclean]
      exact h.disconnected
    shut := by
      rw [hclean]
      exact h.shut }

section RunFunctor

variable {fs : List ConnFunctor} {f : ConnFunctor}

theorem queue_eq_cons (hbatch : s.batch = f :: fs) : s.queue = f :: (fs ++ s.pending) := by
  rw [queue, hbatch, List.cons_append]

/-- Bytes go on in order, and after the write side is shut only empty payloads
are left. -/
theorem flow_sendInLoop (h : s.Inv) (hbatch : s.batch = .sendInLoop data :: fs)
    (hw : s.conn.socket.writeShut = false → w.NoPeerReset)
    (hup : s.conn.state ≠ .kDisconnected) :
    (s.conn.sendInLoop w data).flow = s.conn.flow ++ data := by
  by_cases hshut : s.conn.socket.writeShut = true
  · have hbytes := (h.shut hshut).2
    rw [queue_eq_cons hbatch, noBytes_cons_send] at hbytes
    rw [hbytes.1, (TcpConnection.sendInLoop_nil w s.conn).1, List.append_nil]
  · exact TcpConnection.flow_sendInLoop hup (hw (by simpa using hshut)) data

/-- A disconnected connection gives the payload up. -/
theorem runSend_down (h : s.Inv) (hbatch : s.batch = .sendInLoop data :: fs)
    (hdown : s.conn.state = .kDisconnected) : Inv { s with batch := fs } := by
  have hqueue := queue_eq_cons hbatch
  have hreq : Requested { s with batch := fs } → s.Requested := by
    intro hreq
    refine hreq.imp_right (Or.imp_right fun hmem ↦ ?_)
    rw [hqueue]
    exact List.mem_cons_of_mem _ hmem
  have hclean : s.Clean → data = [] ∧ Clean { s with batch := fs } := by
    rintro ⟨hout, hbytes⟩
    rw [hqueue, noBytes_cons_send] at hbytes
    exact ⟨hbytes.1, hout, hbytes.2⟩
  exact {
    flow := h.flow
    writes := h.writes
    opened := h.opened
    down := h.down
    idle := fun hidle ↦ by simp [h.idle hidle] at hbatch
    counts := by
      rintro (hup | hdue) p hp
      · exact absurd hdown hup
      · have hcount := h.counts (.inr (hreq hdue)) p hp
        have hnil := (hclean (h.disconnected hdown (hreq hdue))).1
        rwa [hqueue, payloads, hnil, List.count_cons_of_ne hp.symm] at hcount
    connected := fun hup ↦ absurd (hdown.symm.trans hup) (by simp)
    disconnecting := fun hup ↦ absurd (hdown.symm.trans hup) (by simp)
    disconnected := fun _ hdue ↦ (hclean (h.disconnected hdown (hreq hdue))).2
    shut := fun hshut ↦ (hclean (h.shut hshut)).2 }

theorem runSend_up (h : s.Inv) (hbatch : s.batch = .sendInLoop data :: fs)
    (hw : s.conn.socket.writeShut = false → w.NoPeerReset)
    (hup : s.conn.state ≠ .kDisconnected) :
    Inv { s with
      batch := fs
      conn := s.conn.sendInLoop w data
      passed := s.passed ++ [data] } := by
  have hqueue := queue_eq_cons hbatch
  have hkeep := TcpConnection.state_sendInLoop w data s.conn
  have hshut := TcpConnection.writeShut_sendInLoop w data s.conn
  exact {
    flow := by simp [h.flow_sendInLoop hbatch hw hup, h.flow]
    writes := h.writes.sendInLoop w data
    opened := fun hopen ↦ h.opened (hkeep.symm.trans hopen)
    down := fun hdown ↦ absurd (hkeep.symm.trans hdown) hup
    idle := fun hidle ↦ by simp [h.idle hidle] at hbatch
    counts := by
      intro _ p hp
      have hcount := h.counts (.inl hup) p hp
      rw [hqueue, payloads, List.count_cons] at hcount
      simp only [queue, List.count_append, List.count_singleton] at hcount ⊢
      omega
    connected := by
      rintro hstate (hreq | hreq | hreq)
      · exact h.connected (hkeep.symm.trans hstate) (.inl (hshut.symm.trans hreq))
      · exact h.connected (hkeep.symm.trans hstate) (.inr (.inl hreq))
      · refine h.notMem_of_connected (hkeep.symm.trans hstate) ?_
        rw [hqueue]
        exact List.mem_cons_of_mem _ hreq
    disconnecting := by
      intro hstate
      obtain ⟨hover, hfirst⟩ := h.disconnecting (hkeep.symm.trans hstate)
      rw [hqueue] at hfirst
      refine ⟨fun hbusy ↦ hover ?_, hfirst⟩
      -- a payload that comes to wait in the buffer was in the batch before
      by_cases hdata : data = []
      · refine hbusy.imp (fun hne hout ↦ hne ?_) fun hbytes hall ↦ hbytes ?_
        · exact TcpConnection.outputBuffer_sendInLoop hout hdata w
        · rw [hbatch, noBytes_cons_send] at hall
          exact hall.2
      · refine .inr fun hall ↦ hdata ?_
        rw [hbatch, noBytes_cons_send] at hall
        exact hall.1
    disconnected := fun hdown ↦ absurd (hkeep.symm.trans hdown) hup
    shut := by
      intro hreq
      obtain ⟨hout, hbytes⟩ := h.shut (hshut.symm.trans hreq)
      rw [hqueue, noBytes_cons_send] at hbytes
      exact ⟨TcpConnection.outputBuffer_sendInLoop hout hbytes.1 w, hbytes.2⟩ }

theorem runShutdown (h : s.Inv) (hbatch : s.batch = .shutdownInLoop :: fs) :
    Inv { s with batch := fs, conn := s.conn.shutdownInLoop } := by
  have hqueue := queue_eq_cons hbatch
  have hdue : s.Requested := .inr (.inr (by rw [hqueue]; exact List.mem_cons_self))
  have hconnected : s.conn.state ≠ .kConnected := fun hup ↦ h.connected hup hdue
  have hbytes : NoBytes s.queue ↔ NoBytes (fs ++ s.pending) := by
    rw [hqueue, noBytes_cons_shutdown]
  have hpayloads : payloads s.queue = payloads (fs ++ s.pending) := by rw [hqueue, payloads]
  have hstate := s.conn.state_shutdownInLoop
  have hchannel := s.conn.channel_shutdownInLoop
  have hout := s.conn.outputBuffer_shutdownInLoop
  have hclean : s.Clean → Clean { s with batch := fs, conn := s.conn.shutdownInLoop } := by
    rintro ⟨hnil, hall⟩
    exact ⟨hout.trans hnil, hbytes.mp hall⟩
  exact {
    flow := (TcpConnection.flow_shutdownInLoop _).trans h.flow
    writes := h.writes.shutdownInLoop
    opened := fun hopen ↦ h.opened (hstate.symm.trans hopen)
    down := by
      intro hdown
      rw [hchannel]
      exact h.down (hstate.symm.trans hdown)
    idle := fun hidle ↦ by simp [h.idle hidle] at hbatch
    counts := by
      intro _ p hp
      have hcount := h.counts (.inr hdue) p hp
      rwa [hpayloads] at hcount
    connected := fun hup ↦ absurd (hstate.symm.trans hup) hconnected
    disconnecting := by
      intro hup
      obtain ⟨hover, hfirst⟩ := h.disconnecting (hstate.symm.trans hup)
      rw [hqueue] at hfirst
      refine ⟨fun hbusy ↦ hover ?_, hfirst.2⟩
      refine hbusy.imp (fun hne ↦ hout ▸ hne) fun hne hall ↦ hne ?_
      rwa [hbatch, noBytes_cons_shutdown] at hall
    disconnected := fun hdown _ ↦ hclean (h.disconnected (hstate.symm.trans hdown) hdue)
    shut := by
      intro hshut
      by_cases hwriting : s.conn.channel.writing = true
      · have hconn : s.conn.shutdownInLoop = s.conn := if_pos hwriting
        simp only [hconn] at hshut
        exact hclean (h.shut hshut)
      · cases hcase : s.conn.state with
        | kDisconnected => exact hclean (h.disconnected hcase hdue)
        | kConnecting => exact absurd hcase h.opened
        | kConnected => exact absurd hcase hconnected
        | kDisconnecting =>
            have hnil : s.conn.outputBuffer = [] := by
              by_contra hne
              exact hwriting ((h.writes (by simp [hcase])).mpr hne)
            have hfirst := (h.disconnecting hcase).2
            rw [hqueue] at hfirst
            exact ⟨hout.trans hnil, hfirst.1⟩ }

end RunFunctor

theorem endFunctors (h : s.Inv) (hbatch : s.batch = []) :
    Inv { s with doingFunctors := false } :=
  { h with idle := fun _ ↦ hbatch }

theorem runFunctor (h : s.Inv) (hw : s.conn.socket.writeShut = false → w.NoPeerReset)
    (hrun : s.runFunctor w = some t) : t.Inv := by
  unfold SendLoop.runFunctor at hrun
  split at hrun
  · simp at hrun
  next data fs hbatch =>
    split_ifs at hrun
    obtain rfl := Option.some.inj hrun
    by_cases hdown : s.conn.state = .kDisconnected
    · have hconn : s.conn.sendInLoop w data = s.conn := if_pos hdown
      simpa [pass, hdown, hconn] using h.runSend_down hbatch hdown
    · simpa [pass, hdown] using h.runSend_up hbatch hw hdown
  next fs hbatch =>
    obtain rfl := Option.some.inj hrun
    exact h.runShutdown hbatch

theorem exec (h : s.Inv) {a : SendAct} (ha : a.Orderly s) (hrun : a.exec s = some t) : t.Inv := by
  cases a with
  | send data w =>
      simp only [SendAct.exec] at hrun
      split_ifs at hrun with hstate hw
      · obtain rfl := Option.some.inj hrun
        exact h.send hstate ha data
      · obtain rfl := Option.some.inj hrun
        exact h
  | sendFrom data =>
      simp only [SendAct.exec] at hrun
      split_ifs at hrun with hstate
      · obtain rfl := Option.some.inj hrun
        exact h.sendFrom hstate data
      · obtain rfl := Option.some.inj hrun
        exact h
  | shutdown =>
      simp only [SendAct.exec] at hrun
      split_ifs at hrun with hstate
      · obtain rfl := Option.some.inj hrun
        exact h.shutdown hstate (ha hstate).1 (ha hstate).2
      · obtain rfl := Option.some.inj hrun
        exact h
  | shutdownFrom =>
      simp only [SendAct.exec] at hrun
      split_ifs at hrun with hstate
      · obtain rfl := Option.some.inj hrun
        exact h.shutdownFrom hstate (ha hstate)
      · obtain rfl := Option.some.inj hrun
        exact h
  | queueShutdown =>
      simp only [SendAct.exec] at hrun
      split_ifs at hrun with hqueueing
      obtain rfl := Option.some.inj hrun
      exact h.queueShutdown hqueueing
  | handleWrite w =>
      simp only [SendAct.exec] at hrun
      split_ifs at hrun with hidle
      obtain rfl := Option.some.inj hrun
      exact h.handleWrite hidle.1 w
  | handleClose =>
      simp only [SendAct.exec, TcpConnection.handleClose] at hrun
      split_ifs at hrun with hidle hstate
      · obtain rfl := Option.some.inj hrun
        exact h.handleClose ha hstate
      · simp at hrun
  | beginFunctors =>
      simp only [SendAct.exec] at hrun
      split_ifs at hrun with hidle
      obtain rfl := Option.some.inj hrun
      exact h.beginFunctors hidle
  | runFunctor w =>
      simp only [SendAct.exec] at hrun
      split_ifs at hrun
      exact h.runFunctor ha hrun
  | endFunctors =>
      simp only [SendAct.exec] at hrun
      split_ifs at hrun with hdone
      obtain rfl := Option.some.inj hrun
      exact h.endFunctors hdone.2

end Inv

/-- In every orderly run the write side is shut only after every byte that was
sent has been accepted. -/
theorem allAccepted_of_writeShut {highWaterMark : ℕ} {hasWriteComplete hasHighWaterMark : Bool}
    {acts : List SendAct} {s : SendLoop}
    (hok : EachStep SendAct.exec SendAct.Orderly acts
      (start (.new highWaterMark hasWriteComplete hasHighWaterMark)))
    (hrun : runAll SendAct.exec acts
      (start (.new highWaterMark hasWriteComplete hasHighWaterMark)) = some s)
    (hshut : s.conn.socket.writeShut = true) : s.AllAccepted := by
  have hstep : ∀ a s t, Inv s → a.Orderly s → SendAct.exec a s = some t → Inv t :=
    fun a s t h ha hrun ↦ h.exec ha hrun
  exact (runAll_invariant hstep (inv_start _ _ _) hok hrun).allAccepted hshut

/-- The shutdown comes while the rest of a payload waits in the output buffer,
and the handler that drains it shuts the write side. -/
theorem allAccepted_of_writeShut_drained :
    ∃ s, runAll SendAct.exec ([.sendFrom (ascii "bye"), .beginFunctors, .runFunctor (.accepted 1),
        .shutdownFrom, .endFunctors, .handleWrite (.accepted 2)] : List SendAct)
        (start (.new 1024 false false)) = some s ∧
      s.conn.socket.writeShut = true ∧ s.AllAccepted := by
  have hrun : ∃ s, runAll SendAct.exec ([.sendFrom (ascii "bye"), .beginFunctors,
      .runFunctor (.accepted 1), .shutdownFrom, .endFunctors,
      .handleWrite (.accepted 2)] : List SendAct) (start (.new 1024 false false)) = some s ∧
      s.conn.socket.writeShut = true := ⟨_, rfl, rfl⟩
  obtain ⟨s, hrun, hshut⟩ := hrun
  refine ⟨s, hrun, hshut, allAccepted_of_writeShut ?_ hrun hshut⟩
  refine eachStep_cons trivial rfl (eachStep_cons trivial rfl ?_)
  refine eachStep_cons (fun _ ↦ trivial) rfl (eachStep_cons (fun _ _ ↦ noBytes_nil) rfl ?_)
  exact eachStep_cons trivial rfl (eachStep_cons trivial rfl trivial)

/-- A payload from another thread waits in the queue while the loop thread
shuts the write side. -/
theorem not_allAccepted_overtaken :
    ∃ s, runAll SendAct.exec ([.sendFrom (ascii "bye"), .shutdown] : List SendAct)
        (start (.new 1024 false false)) = some s ∧
      s.conn.socket.writeShut = true ∧ ¬ s.AllAccepted := by
  refine ⟨_, rfl, rfl, fun h ↦ ?_⟩
  have hcount := h.2 (ascii "bye") (by decide)
  exact absurd hcount (by decide)

end SendLoop

end PpDSCache.Net
