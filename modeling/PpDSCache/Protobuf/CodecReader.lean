import PpDSCache.Abstract.Runs
import PpDSCache.Abstract.Stream
import PpDSCache.Net.BufferDeque
import PpDSCache.Protobuf.ProtobufCodecLite

/-!
# Frames in a stream

The frames that a stream of bytes holds, one after another, up to one that is
not accepted.  `onMessage` takes all whole frames off the buffer, so the
messages it delivers do not depend on the pieces in which the stream arrives.
-/

namespace PpDSCache.Protobuf

open Cpp Net Abstract

namespace ProtobufCodecLite

variable {M : Type} (codec : ProtobufCodecLite M)

/-! ## One frame -/

/-- The body of a frame without its checksum. -/
def summed (body : Text) : Text := body.take (body.length - kChecksumLen)

def payload (body : Text) : Text := (summed body).drop codec.tag.length

/-- What `parse` returns for a body that is long enough. -/
def verdict (body : Text) : ErrorCode × Option M :=
  if codec.checksum (summed body) = decodeInt (body.drop (body.length - kChecksumLen)) then
    if body.take codec.tag.length = codec.tag then
      match codec.parseFromArray (codec.payload body) with
      | some message => (.kNoError, some message)
      | none => (.kParseError, none)
    else (.kUnknownMessageType, none)
  else (.kCheckSumError, none)

section Body

variable {body : Text} (h : codec.kMinMessageLen ≤ body.length)

include h

theorem validateChecksum_eq : codec.validateChecksum body =
    some (decide (codec.checksum (summed body) =
      decodeInt (body.drop (body.length - kChecksumLen)))) := by
  have hmin : codec.tag.length + 4 ≤ body.length := h
  have hin : body.length - 4 + 4 ≤ body.length := by omega
  have hall : (body.drop (body.length - 4)).take 4 = body.drop (body.length - 4) := by
    apply List.take_of_length_le
    rw [List.length_drop]
    omega
  have hread : readAt body (body.length - 4) 4 = some (body.drop (body.length - 4)) := by
    rw [readAt, if_pos hin, hall]
  rw [validateChecksum, asInt32, hread]
  rfl

theorem readAt_tag : readAt body 0 codec.tag.length = some (body.take codec.tag.length) := by
  have hmin : codec.tag.length + 4 ≤ body.length := h
  rw [readAt, if_pos (by omega), List.drop_zero]

theorem readAt_payload :
    readAt body codec.tag.length (body.length - kChecksumLen - codec.tag.length) =
      some (codec.payload body) := by
  have hmin : codec.tag.length + 4 ≤ body.length := h
  have hin : codec.tag.length + (body.length - 4 - codec.tag.length) ≤ body.length := by omega
  rw [readAt, if_pos hin, payload, summed, List.drop_take]

theorem parse_eq : codec.parse body = some (codec.verdict body) := by
  by_cases hcheck :
    codec.checksum (summed body) = decodeInt (body.drop (body.length - kChecksumLen))
  · have hvalid : codec.validateChecksum body = some true := by
      rw [codec.validateChecksum_eq h, decide_eq_true hcheck]
    rw [verdict, if_pos hcheck]
    simp only [parse, hvalid, codec.readAt_tag h, codec.readAt_payload h, Option.bind_eq_bind,
      Option.bind_some, Option.pure_def, if_true]
    by_cases hfront : body.take codec.tag.length = codec.tag
    · rw [if_pos hfront, if_pos hfront]
      cases codec.parseFromArray (codec.payload body) <;> rfl
    · rw [if_neg hfront, if_neg hfront]
  · have hvalid : codec.validateChecksum body = some false := by
      rw [codec.validateChecksum_eq h, decide_eq_false hcheck]
    rw [verdict, if_neg hcheck]
    simp only [parse, hvalid, Option.bind_eq_bind, Option.bind_some, Bool.false_eq_true, if_false,
      Option.pure_def]

end Body

/-! ## The reader -/

structure Reading (M : Type) where
  messages : List M
  error : Option ErrorCode

namespace Reading

def frameLen (d : Text) : ℤ := decodeInt (d.take kHeaderLen)

/-- A frame that is not accepted stays in front. -/
def judge (r : Reading M) (d rest : Text) : ErrorCode × Option M → Reading M × Text
  | (.kNoError, some message) => ({ r with messages := r.messages ++ [message] }, rest)
  | (errorCode, _) => ({ r with error := some errorCode }, d)

def step (r : Reading M) (d : Text) : Option (Reading M × Text) :=
  if r.error = none ∧ codec.kMinMessageLen + kHeaderLen ≤ d.length then
    if (kMaxMessageLen : ℤ) < frameLen d ∨ frameLen d < codec.kMinMessageLen then
      some ({ r with error := some .kInvalidLength }, d)
    else if kHeaderLen + (frameLen d).toNat ≤ d.length then
      if codec.rawCb.any (fun rawCb ↦ !rawCb (d.take (kHeaderLen + (frameLen d).toNat))) = true then
        some (r, d.drop (kHeaderLen + (frameLen d).toNat))
      else
        some (r.judge d (d.drop (kHeaderLen + (frameLen d).toNat))
          (codec.verdict ((d.take (kHeaderLen + (frameLen d).toNat)).drop kHeaderLen)))
    else none
  else none

theorem judge_cases (r : Reading M) (v : ErrorCode × Option M) :
    (∃ message, v = (.kNoError, some message) ∧
      ∀ d rest, r.judge d rest v = ({ r with messages := r.messages ++ [message] }, rest)) ∨
    ∀ d rest, r.judge d rest v = ({ r with error := some v.1 }, d) := by
  obtain ⟨code, message⟩ := v
  cases code with
  | kNoError =>
      cases message with
      | some message => exact .inl ⟨message, rfl, fun _ _ ↦ rfl⟩
      | none => exact .inr fun _ _ ↦ rfl
  | _ => exact .inr fun _ _ ↦ rfl

variable {codec} {r t : Reading M} {d rest : Text}

theorem step_cases (h : r.step codec d = some (t, rest)) :
    r.error = none ∧ kHeaderLen ≤ d.length ∧
      (t.error = none ∧ rest = d.drop (kHeaderLen + (frameLen d).toNat) ∨
        ∃ e, t = ⟨r.messages, some e⟩ ∧ rest = d) := by
  unfold step at h
  split_ifs at h with hmin hlen hwhole hraw
  · cases h
    exact ⟨hmin.1, by omega, .inr ⟨_, rfl, rfl⟩⟩
  · cases h
    exact ⟨hmin.1, by omega, .inl ⟨hmin.1, rfl⟩⟩
  · refine ⟨hmin.1, by omega, ?_⟩
    rcases judge_cases r (codec.verdict _) with ⟨message, -, hjudge⟩ | hjudge
    · rw [hjudge] at h
      cases h
      exact .inl ⟨hmin.1, rfl⟩
    · rw [hjudge] at h
      cases h
      exact .inr ⟨_, rfl, rfl⟩

theorem frameLen_append (h : kHeaderLen ≤ d.length) (more : Text) :
    frameLen (d ++ more) = frameLen d := by
  rw [frameLen, frameLen, List.take_append_of_le_length h]

theorem step_append (h : r.step codec d = some (t, rest)) (more : Text) :
    r.step codec (d ++ more) = some (t, rest ++ more) := by
  obtain ⟨-, hheader, -⟩ := step_cases h
  unfold step at h ⊢
  rw [frameLen_append hheader]
  split_ifs at h with hmin hlen hwhole hraw
  · have hmin' : r.error = none ∧ codec.kMinMessageLen + kHeaderLen ≤ (d ++ more).length :=
      ⟨hmin.1, by rw [List.length_append]; omega⟩
    cases h
    rw [if_pos hmin', if_pos hlen]
  all_goals
    have hmin' : r.error = none ∧ codec.kMinMessageLen + kHeaderLen ≤ (d ++ more).length :=
      ⟨hmin.1, by rw [List.length_append]; omega⟩
    have hwhole' : kHeaderLen + (frameLen d).toNat ≤ (d ++ more).length := by
      rw [List.length_append]
      omega
    rw [if_pos hmin', if_neg hlen, if_pos hwhole', List.take_append_of_le_length hwhole,
      List.drop_append_of_le_length hwhole]
  · cases h
    rw [if_pos hraw]
  · rw [if_neg hraw]
    rcases judge_cases r (codec.verdict _) with ⟨message, -, hjudge⟩ | hjudge
    · rw [hjudge] at h ⊢
      cases h
      rfl
    · rw [hjudge] at h ⊢
      cases h
      rfl

end Reading

def reader : StreamReader (Reading M) UInt8 where
  step := Reading.step codec
  rank r := if r.error = none then 1 else 0
  shrinks {r d t rest} h := by
    obtain ⟨hr, hheader, ⟨ht, rfl⟩ | ⟨e, rfl, rfl⟩⟩ := Reading.step_cases h
    · rw [hr, ht, List.length_drop]
      simp only [kHeaderLen] at *
      omega
    · simp [hr]
  stable more h := Reading.step_append h more

theorem reader_step (r : Reading M) (d : Text) : codec.reader.step r d = r.step codec d := rfl

variable {codec} in
theorem reader_step_of_error {r : Reading M} {d : Text} {e : ErrorCode} (h : r.error = some e) :
    codec.reader.step r d = none := by
  simp [reader_step, Reading.step, h]

/-! ## The loop -/

variable {codec} {s : Receiver M} {d : Text}

/-- A round waits, takes a frame, or reports the frame in front. -/
theorem onMessageRound_cases (hs : s.buf.Shows d) :
    Reading.step codec ⟨s.messages, none⟩ d = none ∧ codec.onMessageRound s = some (false, s) ∨
      (∃ buf messages rest, buf.Shows rest ∧
        Reading.step codec ⟨s.messages, none⟩ d = some (⟨messages, none⟩, rest) ∧
        codec.onMessageRound s = some (true, { s with buf := buf, messages := messages })) ∨
      ∃ e, Reading.step codec ⟨s.messages, none⟩ d = some (⟨s.messages, some e⟩, d) ∧
        codec.onMessageRound s = some (false, { s with errors := s.errors ++ [e] }) := by
  unfold onMessageRound Reading.step
  rw [hs.readableBytes]
  by_cases hmin : codec.kMinMessageLen + kHeaderLen ≤ d.length
  swap
  · exact .inl ⟨by simp [hmin], by simp [hmin]⟩
  have hpeek : s.buf.peekInt32 = some (Reading.frameLen d) :=
    hs.peekInt (w := .int32) (le_trans (Nat.le_add_left 4 _) hmin)
  rw [if_pos ⟨rfl, hmin⟩, if_pos hmin, hpeek]
  simp only [Option.bind_eq_bind, Option.bind_some, Option.pure_def]
  by_cases hlen : (kMaxMessageLen : ℤ) < Reading.frameLen d ∨
    Reading.frameLen d < codec.kMinMessageLen
  · exact .inr (.inr ⟨.kInvalidLength, by rw [if_pos hlen], by rw [if_pos hlen]⟩)
  rw [if_neg hlen, if_neg hlen]
  by_cases hwhole : kHeaderLen + (Reading.frameLen d).toNat ≤ d.length
  swap
  · exact .inl ⟨by rw [if_neg hwhole], by rw [if_neg hwhole]⟩
  obtain ⟨buf, hretrieve, hbuf⟩ := hs.retrieve hwhole
  rw [if_pos hwhole, if_pos hwhole, hs.readAt hwhole, hretrieve]
  simp only [Option.bind_some]
  by_cases hraw : codec.rawCb.any
      (fun rawCb ↦ !rawCb (d.take (kHeaderLen + (Reading.frameLen d).toNat))) = true
  · rw [if_pos hraw, if_pos hraw]
    exact .inr (.inl ⟨buf, s.messages, _, hbuf, rfl, rfl⟩)
  rw [if_neg hraw, if_neg hraw, codec.parse_eq]
  swap
  · rw [List.length_drop, List.length_take]
    omega
  obtain ⟨code, message⟩ :=
    codec.verdict ((d.take (kHeaderLen + (Reading.frameLen d).toNat)).drop kHeaderLen)
  simp only [Option.bind_some, Reading.judge]
  cases code with
  | kNoError =>
      cases message with
      | some message => exact .inr (.inl ⟨buf, _, _, hbuf, rfl, rfl⟩)
      | none => exact .inr (.inr ⟨_, rfl, rfl⟩)
  | _ => exact .inr (.inr ⟨_, rfl, rfl⟩)

variable (codec) in
/-- Frames are taken until one is incomplete or not accepted. -/
theorem onMessageLoop_spec {n : ℕ} (hn : d.length < n) (hs : s.buf.Shows d) :
    ∃ t rest, codec.onMessageLoop n s = some t ∧ t.buf.Shows rest ∧
      codec.reader.Reaches (⟨s.messages, none⟩, d) (⟨t.messages, none⟩, rest) ∧
      (t.errors = s.errors ∧ codec.reader.step ⟨t.messages, none⟩ rest = none ∨
        ∃ e, t.errors = s.errors ++ [e] ∧
          codec.reader.step ⟨t.messages, none⟩ rest = some (⟨t.messages, some e⟩, rest)) := by
  induction n generalizing s d with
  | zero => omega
  | succ n ih =>
      unfold onMessageLoop
      rcases onMessageRound_cases hs with ⟨hstep, hround⟩ |
        ⟨buf, messages, rest, hbuf, hstep, hround⟩ | ⟨e, hstep, hround⟩
      · exact ⟨s, d, by simp [hround], hs, .refl, .inl ⟨rfl, hstep⟩⟩
      · have htakes : codec.reader.step ⟨s.messages, none⟩ d =
            some (⟨messages, none⟩, rest) := hstep
        have hlen := codec.reader.shrinks htakes
        have hrank : codec.reader.rank ⟨s.messages, none⟩ =
            codec.reader.rank ⟨messages, none⟩ := rfl
        obtain ⟨t, rest', hloop, ht, hreads, hend⟩ :=
          ih (s := { s with buf := buf, messages := messages }) (by omega) hbuf
        exact ⟨t, rest', by simp [hround, hloop], ht, .head htakes hreads, hend⟩
      · have hreports : codec.reader.step ⟨s.messages, none⟩ d =
            some (⟨s.messages, some e⟩, d) := hstep
        exact ⟨{ s with errors := s.errors ++ [e] }, d, by simp [hround], hs, .refl,
          .inr ⟨e, rfl, hreports⟩⟩

end ProtobufCodecLite

end PpDSCache.Protobuf
