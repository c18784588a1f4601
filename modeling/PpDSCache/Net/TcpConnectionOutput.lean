import PpDSCache.Abstract.Runs
import PpDSCache.Net.TcpConnection

/-!
# The output of a connection

What the kernel accepted, followed by the output buffer, is what was passed to
`sendInLoop`; and the channel asks for write events while the buffer holds
something.
-/

namespace PpDSCache.Net.TcpConnection

open Cpp Abstract

variable {c : TcpConnection} {w : Write} {data rest : Text}

/-! ## The second half of `sendInLoop` -/

theorem ensureWriting_eq (c : TcpConnection) :
    ∃ channel : Channel, channel.writing = true ∧
      c.ensureWriting = { c with channel := channel } := by
  unfold ensureWriting
  split_ifs with hwriting
  · exact ⟨c.channel, hwriting, rfl⟩
  · exact ⟨c.channel.enableWriting, rfl, rfl⟩

/-- What is left is appended with write events on; if nothing is left, nothing
happens. -/
theorem bufferRest_cases (rest : Text) (c : TcpConnection) :
    rest = [] ∧ c.bufferRest rest = c ∨
      rest ≠ [] ∧ ∃ (channel : Channel) (calls : List Handed), channel.writing = true ∧
        c.bufferRest rest =
          { c with
            outputBuffer := c.outputBuffer ++ rest, channel := channel, calls := calls } := by
  unfold bufferRest
  split_ifs with hrest
  · obtain ⟨channel, hwriting, heq⟩ := ensureWriting_eq
      { c.notifyHighWaterMark rest.length with outputBuffer := c.outputBuffer ++ rest }
    exact .inr ⟨List.length_pos_iff.mp hrest, channel, _, hwriting, heq⟩
  · exact .inl ⟨List.length_eq_zero_iff.mp (by omega), rfl⟩

theorem state_bufferRest (rest : Text) (c : TcpConnection) :
    (c.bufferRest rest).state = c.state := by
  obtain ⟨-, h⟩ | ⟨-, channel, calls, -, h⟩ := bufferRest_cases rest c <;> rw [h]

theorem socket_bufferRest (rest : Text) (c : TcpConnection) :
    (c.bufferRest rest).socket = c.socket := by
  obtain ⟨-, h⟩ | ⟨-, channel, calls, -, h⟩ := bufferRest_cases rest c <;> rw [h]

theorem outputBuffer_bufferRest (rest : Text) (c : TcpConnection) :
    (c.bufferRest rest).outputBuffer = c.outputBuffer ++ rest := by
  obtain ⟨hnil, h⟩ | ⟨-, channel, calls, -, h⟩ := bufferRest_cases rest c
  · rw [h, hnil, List.append_nil]
  · rw [h]

theorem writing_bufferRest (rest : Text) (c : TcpConnection) :
    (c.bufferRest rest).channel.writing = true ↔ c.channel.writing = true ∨ rest ≠ [] := by
  obtain ⟨hnil, h⟩ | ⟨hne, channel, calls, hwriting, h⟩ := bufferRest_cases rest c
  · rw [h]
    simp [hnil]
  · rw [h]
    exact iff_of_true hwriting (.inr hne)

/-! ## Conservation -/

/-- What has gone out so far and what waits behind it. -/
def flow (c : TcpConnection) : Text := c.socket.accepted ++ c.outputBuffer

/-- While the connection is up, it asks for write events exactly when it has
something to write. -/
def WritesAsNeeded (c : TcpConnection) : Prop :=
  c.state ≠ .kDisconnected → (c.channel.writing = true ↔ c.outputBuffer ≠ [])

theorem flow_bufferRest (rest : Text) (c : TcpConnection) :
    (c.bufferRest rest).flow = c.flow ++ rest := by
  rw [flow, socket_bufferRest, outputBuffer_bufferRest, flow, List.append_assoc]

theorem WritesAsNeeded.bufferRest (h : c.WritesAsNeeded) (rest : Text) :
    (c.bufferRest rest).WritesAsNeeded := by
  intro hstate
  rw [state_bufferRest] at hstate
  rw [writing_bufferRest, outputBuffer_bufferRest, h hstate, ← not_and_or,
    ← List.append_eq_nil_iff]

/-! ## What the two writers do -/

theorem isFaultError_eq_false {errno : ℤ} (h : errno ≠ EPIPE ∧ errno ≠ ECONNRESET) :
    isFaultError errno = false := by
  simp [isFaultError, h.1, h.2]

/-- A payload is given up, or goes to the kernel as far as it takes it when
nothing waits, or waits behind what does. -/
theorem sendInLoop_cases (w : Write) (data : Text) (c : TcpConnection) :
    (c.state = .kDisconnected ∨ ¬ w.NoPeerReset) ∧ c.sendInLoop w data = c ∨
      c.state ≠ .kDisconnected ∧ c.sendInLoop w data = c.bufferRest data ∨
      c.state ≠ .kDisconnected ∧ c.outputBuffer = [] ∧ ∃ n calls, c.sendInLoop w data =
        bufferRest (data.drop n) { c.accept (data.take n) with calls := calls } := by
  unfold sendInLoop
  split_ifs with hstate hidle
  · exact .inl ⟨.inl hstate, rfl⟩
  · cases w with
    | accepted n =>
        refine .inr (.inr ⟨hstate, hidle.2, n, ?_⟩)
        dsimp only
        split_ifs
        · exact ⟨_, rfl⟩
        · exact ⟨_, rfl⟩
    | failed errno =>
        dsimp only
        split_ifs with hfault
        · refine .inl ⟨.inr fun hw ↦ ?_, rfl⟩
          simp [isFaultError_eq_false hw] at hfault
        · exact .inr (.inl ⟨hstate, rfl⟩)
  · exact .inr (.inl ⟨hstate, rfl⟩)

/-- With write events off, the shutdown that a drained connection may owe is
carried out at once. -/
theorem finishWriting_eq (c : TcpConnection) : ∃ calls, c.finishWriting =
    { c with
      channel := c.channel.disableWriting
      calls := calls
      socket := { c.socket with
        writeShut := c.socket.writeShut || decide (c.state = .kDisconnecting) } } := by
  refine ⟨c.notifyComplete.calls, ?_⟩
  by_cases hstate : c.state = .kDisconnecting
  · simp [finishWriting, shutdownInLoop, stopWriting, notifyComplete, Channel.disableWriting,
      Channel.update, hstate]
  · simp [finishWriting, stopWriting, notifyComplete, hstate]

theorem handleWrite_cases (w : Write) (c : TcpConnection) :
    c.handleWrite w = c ∨ c.channel.writing = true ∧ ∃ n,
      (c.outputBuffer.drop n ≠ [] ∧ c.handleWrite w = c.drain n ∨
        c.outputBuffer.drop n = [] ∧ c.handleWrite w = (c.drain n).finishWriting) := by
  unfold handleWrite
  split_ifs with hwriting
  · cases w with
    | accepted n =>
        dsimp only
        split_ifs with hpos hempty
        · exact .inr ⟨hwriting, n, .inr ⟨List.length_eq_zero_iff.mp hempty, rfl⟩⟩
        · exact .inr ⟨hwriting, n, .inl ⟨fun hnil ↦ hempty (by rw [drain, hnil]; rfl), rfl⟩⟩
        · exact .inl rfl
    | failed errno => exact .inl rfl
  · exact .inl rfl

theorem state_sendInLoop (w : Write) (data : Text) (c : TcpConnection) :
    (c.sendInLoop w data).state = c.state := by
  obtain ⟨-, h⟩ | ⟨-, h⟩ | ⟨-, -, n, calls, h⟩ := sendInLoop_cases w data c
  · rw [h]
  · rw [h, state_bufferRest]
  · rw [h, state_bufferRest]
    rfl

theorem flow_sendInLoop (hstate : c.state ≠ .kDisconnected) (hw : w.NoPeerReset) (data : Text) :
    (c.sendInLoop w data).flow = c.flow ++ data := by
  obtain ⟨hgiven, -⟩ | ⟨-, h⟩ | ⟨-, hout, n, calls, h⟩ := sendInLoop_cases w data c
  · exact absurd hgiven (by simp [hstate, hw])
  · rw [h, flow_bufferRest]
  · rw [h, flow_bufferRest]
    simp [flow, accept, hout]

theorem WritesAsNeeded.sendInLoop (hc : c.WritesAsNeeded) (w : Write) (data : Text) :
    (c.sendInLoop w data).WritesAsNeeded := by
  obtain ⟨-, h⟩ | ⟨-, h⟩ | ⟨-, -, n, calls, h⟩ := sendInLoop_cases w data c
  · rwa [h]
  · rw [h]
    exact hc.bufferRest data
  · rw [h]
    have hwritten : WritesAsNeeded { c.accept (data.take n) with calls := calls } := hc
    exact hwritten.bufferRest (data.drop n)

theorem flow_drain (n : ℕ) (c : TcpConnection) : (c.drain n).flow = c.flow := by
  simp [flow, drain, accept]

theorem flow_handleWrite (w : Write) (c : TcpConnection) : (c.handleWrite w).flow = c.flow := by
  obtain h | ⟨-, n, ⟨-, h⟩ | ⟨-, h⟩⟩ := handleWrite_cases w c
  · rw [h]
  · rw [h, flow_drain]
  · obtain ⟨calls, hfinish⟩ := (c.drain n).finishWriting_eq
    rw [h, hfinish, ← flow_drain n c]
    rfl

theorem WritesAsNeeded.handleWrite (hc : c.WritesAsNeeded) (w : Write) :
    (c.handleWrite w).WritesAsNeeded := by
  obtain h | ⟨hwriting, n, ⟨hne, h⟩ | ⟨hnil, h⟩⟩ := handleWrite_cases w c
  · rwa [h]
  · rw [h]
    exact fun _ ↦ iff_of_true hwriting hne
  · obtain ⟨calls, hfinish⟩ := (c.drain n).finishWriting_eq
    rw [h, hfinish]
    exact fun _ ↦ iff_of_false Bool.false_ne_true (not_not.mpr hnil)

theorem state_shutdownInLoop (c : TcpConnection) : c.shutdownInLoop.state = c.state := by
  unfold shutdownInLoop
  split_ifs <;> rfl

theorem channel_shutdownInLoop (c : TcpConnection) : c.shutdownInLoop.channel = c.channel := by
  unfold shutdownInLoop
  split_ifs <;> rfl

theorem outputBuffer_shutdownInLoop (c : TcpConnection) :
    c.shutdownInLoop.outputBuffer = c.outputBuffer := by
  unfold shutdownInLoop
  split_ifs <;> rfl

theorem flow_shutdownInLoop (c : TcpConnection) : c.shutdownInLoop.flow = c.flow := by
  unfold shutdownInLoop
  split_ifs <;> rfl

theorem WritesAsNeeded.shutdownInLoop (h : c.WritesAsNeeded) : c.shutdownInLoop.WritesAsNeeded := by
  unfold TcpConnection.shutdownInLoop
  split_ifs <;> exact h

/-! ## Runs -/

/-- What happens to a connection on its loop thread.  `sendInLoop` and
`handleWrite` come with the result of the `write` they may make. -/
inductive Event where
  | connectEstablished
  | sendInLoop (data : Text) (w : Write)
  | handleWrite (w : Write)
  | startReadInLoop
  | stopReadInLoop
  | shutdown
  | handleClose

/-- A connection with the payloads passed to `sendInLoop` before it was
disconnected. -/
structure History where
  conn : TcpConnection
  passed : List Text

namespace Event

def exec (e : Event) (h : History) : Option History :=
  match e with
  | connectEstablished => h.conn.connectEstablished.map ({ h with conn := · })
  | sendInLoop data w =>
      if w.Possible data then
        some ⟨h.conn.sendInLoop w data,
          if h.conn.state = .kDisconnected then h.passed else h.passed ++ [data]⟩
      else none
  | handleWrite w =>
      if w.Possible h.conn.outputBuffer then some { h with conn := h.conn.handleWrite w } else none
  | startReadInLoop => some { h with conn := h.conn.startReadInLoop }
  | stopReadInLoop => some { h with conn := h.conn.stopReadInLoop }
  | shutdown =>
      if h.conn.state = .kConnected then
        some { h with conn := shutdownInLoop { h.conn with state := .kDisconnecting } }
      else some h
  | handleClose => h.conn.handleClose.map ({ h with conn := · })

def NoPeerReset (e : Event) : Prop :=
  match e with
  | sendInLoop _ w => w.NoPeerReset
  | handleWrite w => w.NoPeerReset
  | _ => True

end Event

structure History.Conserved (h : History) : Prop where
  flow : h.conn.flow = h.passed.flatten
  writes : h.conn.WritesAsNeeded

namespace History.Conserved

variable {h h' : History}

theorem sendInLoop (hc : h.Conserved) (hw : w.NoPeerReset) (data : Text) :
    Conserved ⟨h.conn.sendInLoop w data,
      if h.conn.state = .kDisconnected then h.passed else h.passed ++ [data]⟩ := by
  refine ⟨?_, hc.writes.sendInLoop w data⟩
  by_cases hstate : h.conn.state = .kDisconnected
  · simp [TcpConnection.sendInLoop, hstate, hc.flow]
  · rw [if_neg hstate, flow_sendInLoop hstate hw, hc.flow, List.flatten_append]
    simp

theorem handleWrite (hc : h.Conserved) (w : Write) :
    Conserved { h with conn := h.conn.handleWrite w } :=
  ⟨(flow_handleWrite w h.conn).trans hc.flow, hc.writes.handleWrite w⟩

/-- A change of state and reading interest, and what is handed on, leaves the
output alone. -/
theorem of_same {c : TcpConnection} (hc : h.Conserved) (hsocket : c.socket = h.conn.socket)
    (hout : c.outputBuffer = h.conn.outputBuffer)
    (hwriting : c.channel.writing = h.conn.channel.writing)
    (hstate : c.state ≠ .kDisconnected → h.conn.state ≠ .kDisconnected) :
    Conserved { h with conn := c } := by
  refine ⟨?_, fun hup ↦ ?_⟩
  · have hflow : c.flow = h.conn.flow := by
      rw [TcpConnection.flow, hsocket, hout, TcpConnection.flow]
    exact hflow.trans hc.flow
  · rw [hwriting, hout]
    exact hc.writes (hstate hup)

theorem disconnect (hc : h.Conserved) :
    Conserved { h with conn := h.conn.disconnect.handOn .close } :=
  ⟨hc.flow, fun hup ↦ absurd rfl hup⟩

theorem exec {e : Event} (hc : h.Conserved) (he : e.NoPeerReset) (hrun : e.exec h = some h') :
    h'.Conserved := by
  cases e with
  | connectEstablished =>
      simp only [Event.exec, connectEstablished] at hrun
      split_ifs at hrun with hstate
      · obtain rfl := Option.some.inj hrun
        exact hc.of_same rfl rfl rfl fun _ ↦ by simp [hstate]
      · simp at hrun
  | sendInLoop data w =>
      simp only [Event.exec] at hrun
      by_cases hw : w.Possible data
      · rw [if_pos hw] at hrun
        obtain rfl := Option.some.inj hrun
        exact hc.sendInLoop he data
      · simp [hw] at hrun
  | handleWrite w =>
      simp only [Event.exec] at hrun
      split_ifs at hrun
      · obtain rfl := Option.some.inj hrun
        exact hc.handleWrite w
  | startReadInLoop =>
      obtain rfl := Option.some.inj hrun
      unfold startReadInLoop
      split_ifs
      · exact hc.of_same rfl rfl rfl id
      · exact hc
  | stopReadInLoop =>
      obtain rfl := Option.some.inj hrun
      unfold stopReadInLoop
      split_ifs
      · exact hc.of_same rfl rfl rfl id
      · exact hc
  | shutdown =>
      simp only [Event.exec] at hrun
      split_ifs at hrun with hstate
      · obtain rfl := Option.some.inj hrun
        have hdisc : Conserved { h with conn := { h.conn with state := .kDisconnecting } } :=
          hc.of_same rfl rfl rfl fun _ ↦ by simp [hstate]
        exact ⟨(flow_shutdownInLoop _).trans hdisc.flow, hdisc.writes.shutdownInLoop⟩
      · obtain rfl := Option.some.inj hrun
        exact hc
  | handleClose =>
      simp only [Event.exec, handleClose] at hrun
      split_ifs at hrun
      · obtain rfl := Option.some.inj hrun
        exact hc.disconnect
      · simp at hrun

end History.Conserved

/-- Along every run from a new connection without a reset by the peer, what the
kernel accepted followed by the output buffer is the concatenation of the
payloads passed on, and write events are asked for exactly while something
waits. -/
theorem output_conserved {highWaterMark : ℕ} {hasWriteComplete hasHighWaterMark : Bool}
    {events : List Event} {h : History}
    (hreset : ∀ e ∈ events, e.NoPeerReset)
    (hrun : runAll Event.exec events
      ⟨new highWaterMark hasWriteComplete hasHighWaterMark, []⟩ = some h) :
    h.conn.socket.accepted ++ h.conn.outputBuffer = h.passed.flatten ∧
      (h.conn.state ≠ .kDisconnected →
        (h.conn.channel.writing = true ↔ h.conn.outputBuffer ≠ [])) := by
  have hnew : History.Conserved ⟨new highWaterMark hasWriteComplete hasHighWaterMark, []⟩ :=
    ⟨rfl, fun _ ↦ by simp [new, Channel.new]⟩
  have hstep : ∀ (e : Event) (h h' : History), h.Conserved → e.NoPeerReset →
      e.exec h = some h' → h'.Conserved := fun e h h' hc he hrun ↦ hc.exec he hrun
  have hc := runAll_invariant hstep hnew (eachStep_of_forall hreset) hrun
  exact ⟨hc.flow, hc.writes⟩

/-- Five bytes of which the kernel takes two at first, and two more payloads
behind them, one of them after the connection is closed. -/
theorem output_conserved_partial :
    ∃ h, runAll Event.exec ([.connectEstablished, .sendInLoop (ascii "hello") (.accepted 2),
        .sendInLoop (ascii "you") (.accepted 3), .handleWrite (.accepted 4), .handleClose,
        .sendInLoop (ascii "late") (.failed EWOULDBLOCK)] : List Event) ⟨new 1024 true true, []⟩ =
          some h ∧
      h.conn.socket.accepted ++ h.conn.outputBuffer = h.passed.flatten := by
  refine Exists.imp (fun h hrun ↦ ⟨hrun, (output_conserved ?_ hrun).1⟩) ⟨_, rfl⟩
  simp [Event.NoPeerReset, Write.NoPeerReset]

end PpDSCache.Net.TcpConnection
