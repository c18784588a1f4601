import PpDSCache.Protobuf.CodecReader

/-!
# Messages through the codec

What `fillEmptyBuffer` writes is read back by `onMessage`, in whatever pieces it
arrives.  Of any other stream the frames in front of the first bad one are
delivered, and that one is reported again with each piece that follows.
-/

namespace PpDSCache.Net.Buffer

open Cpp

variable {b t : Buffer} {d data : Text} {len : ℕ}

/-- Bytes in front are the only ones that are moved to make space. -/
theorem readerIndex_of_ensureWritableBytes (hfront : b.readerIndex = kCheapPrepend)
    (h : b.ensureWritableBytes len = some t) : t.readerIndex = kCheapPrepend := by
  simp only [ensureWritableBytes, makeSpace, hfront] at h
  split_ifs at h
  · simp only [Option.bind_eq_bind, Option.bind_some, Option.bind_eq_some_iff] at h
    obtain ⟨-, -, h⟩ := h
    cases h
    rfl
  · simp at h
  · simp only [Option.bind_eq_bind, Option.pure_def, Option.bind_some,
      Option.bind_eq_some_iff] at h
    obtain ⟨-, -, h⟩ := h
    cases h
    exact hfront

theorem readerIndex_of_fill (h : b.fill data = some t) : t.readerIndex = b.readerIndex := by
  simp only [fill, Option.bind_eq_bind, Option.bind_eq_some_iff] at h
  obtain ⟨bytes, -, h⟩ := h
  cases h
  rfl

theorem readerIndex_of_hasWritten (h : b.hasWritten len = some t) :
    t.readerIndex = b.readerIndex := by
  simp only [hasWritten, guard, Option.bind_eq_bind, Option.bind_eq_some_iff] at h
  obtain ⟨-, -, h⟩ := h
  cases h
  rfl

theorem Shows.writerIndex (h : b.Shows d) : b.writerIndex = b.readerIndex + d.length := by
  obtain ⟨front, rest, rfl, -⟩ := h.exists_laid
  rfl

/-- Space is made for more bytes than are written. -/
theorem Shows.write_front (h : b.Shows d) (hfront : b.readerIndex = kCheapPrepend)
    (hdata : data.length ≤ len) (hsize : 8 + d.length + len < 2 ^ 63) :
    ∃ t u v, b.ensureWritableBytes len = some t ∧ t.fill data = some u ∧
      u.hasWritten data.length = some v ∧ v.Shows (d ++ data) ∧ v.readerIndex = kCheapPrepend := by
  have hwriter := h.writerIndex
  rw [hfront] at hwriter
  have hrequest : b.writerIndex + len < 2 ^ 63 := by
    simp only [kCheapPrepend] at hwriter
    omega
  obtain ⟨t, ht, hshows, hspace⟩ := h.ensureWritableBytes hrequest
  obtain ⟨v, hv, hshows'⟩ := hshows.fill_hasWritten (hdata.trans hspace)
  obtain ⟨u, hu, hv⟩ := Option.bind_eq_some_iff.mp hv
  refine ⟨t, u, v, ht, hu, hv, hshows', ?_⟩
  rw [readerIndex_of_hasWritten hv, readerIndex_of_fill hu,
    readerIndex_of_ensureWritableBytes hfront ht]

theorem Shows.append_front (h : b.Shows d) (hfront : b.readerIndex = kCheapPrepend)
    (hsize : 8 + d.length + data.length < 2 ^ 63) :
    ∃ t, b.append data = some t ∧ t.Shows (d ++ data) ∧ t.readerIndex = kCheapPrepend := by
  obtain ⟨t, u, v, ht, hu, hv, hshows, hreader⟩ := h.write_front hfront le_rfl hsize
  exact ⟨v, by simp [Buffer.append, ht, hu, hv], hshows, hreader⟩

end PpDSCache.Net.Buffer

namespace PpDSCache.Protobuf

open Cpp Net Abstract

namespace ProtobufCodecLite

variable {M : Type} {codec : ProtobufCodecLite M} {s : Receiver M} {d rest : Text}

/-! ## The pieces of a stream -/

/-- The error that a stream ends in. -/
def errorOf (codec : ProtobufCodecLite M) (stream : Text) : Option ErrorCode :=
  (codec.reader.drain ⟨[], none⟩ stream).1.error

/-- The error is the one that some piece brought, and was reported with it and
with each piece behind it. -/
def Reports (codec : ProtobufCodecLite M) (pieces : List Text) (e : ErrorCode)
    (errors : List ErrorCode) : Prop :=
  ∃ before data after, pieces = before ++ data :: after ∧ codec.errorOf before.flatten = none ∧
    codec.errorOf (before.flatten ++ data) = some e ∧
    errors = List.replicate (after.length + 1) e

/-- The frames were read as far as they are accepted. -/
structure Follows (codec : ProtobufCodecLite M) (pieces : List Text) (rest : Text)
    (s : Receiver M) : Prop where
  shows : s.buf.Shows rest
  reads : codec.reader.Reaches (⟨[], none⟩, pieces.flatten) (⟨s.messages, none⟩, rest)
  stops : s.errors = [] ∧ codec.reader.step ⟨s.messages, none⟩ rest = none ∨
    ∃ e, codec.Reports pieces e s.errors ∧
      codec.reader.step ⟨s.messages, none⟩ rest = some (⟨s.messages, some e⟩, rest)

/-- The array of the buffer can hold the piece. -/
def Fits (data : Text) (s : Receiver M) : Prop := s.buf.writerIndex + data.length < 2 ^ 63

instance (data : Text) (s : Receiver M) : Decidable (Fits data s) :=
  inferInstanceAs (Decidable (_ < _))

/-- Nothing is read behind a frame that is reported. -/
theorem eq_of_reaches_of_step {p q : Reading M × Text} {messages : List M} {e : ErrorCode}
    (hstep : codec.reader.step p.1 p.2 = some (⟨messages, some e⟩, d))
    (h : codec.reader.Reaches p q) (hq : q.1.error = none) : q = p := by
  rcases Relation.ReflTransGen.cases_head h with rfl | ⟨r, hr, hrest⟩
  · rfl
  · obtain rfl := Option.some.inj (hstep.symm.trans hr)
    rcases Relation.ReflTransGen.cases_head hrest with rfl | ⟨u, hu, -⟩
    · cases hq
    · cases (reader_step_of_error rfl).symm.trans hu

theorem drain_of_step_error {r : Reading M} {messages : List M} {e : ErrorCode}
    (h : codec.reader.step r d = some (⟨messages, some e⟩, rest)) :
    codec.reader.drain r d = (⟨messages, some e⟩, rest) :=
  (StreamReader.drain_of_step h).trans (StreamReader.drain_of_none (reader_step_of_error rfl))

/-- What was reported is reported again. -/
theorem Reports.concat {pieces : List Text} {e : ErrorCode} {errors : List ErrorCode}
    (h : codec.Reports pieces e errors) (data : Text) :
    codec.Reports (pieces ++ [data]) e (errors ++ [e]) := by
  obtain ⟨before, piece, after, rfl, hbefore, hpiece, rfl⟩ := h
  refine ⟨before, piece, after ++ [data], by simp, hbefore, hpiece, ?_⟩
  rw [List.length_append, List.length_singleton, ← List.replicate_succ']

theorem Follows.exists_exec {pieces : List Text} {data : Text} (h : Follows codec pieces rest s)
    (hfits : Fits data s) :
    ∃ t rest', exec codec data s = some t ∧ Follows codec (pieces ++ [data]) rest' t := by
  obtain ⟨buf, hread, hbuf⟩ := h.shows.readFd hfits
  obtain ⟨t, rest', hloop, ht, hreads, hend⟩ :=
    onMessageLoop_spec codec (s := { s with buf := buf }) (Nat.lt_succ_self _) hbuf
  have hexec : exec codec data s = some t := by
    rw [exec, hread]
    simpa [onMessage, hbuf.readableBytes] using hloop
  have hall : codec.reader.Reaches (⟨[], none⟩, pieces.flatten ++ data)
      (⟨t.messages, none⟩, rest') := (h.reads.append data).trans hreads
  refine ⟨t, rest', hexec, ht, by simpa using hall, ?_⟩
  rcases h.stops with ⟨hnone, hwaits⟩ | ⟨e, hreported, hstep⟩
  · rw [hnone] at hend
    rcases hend with hwaits' | ⟨e, herrors, hreports⟩
    · exact .inl hwaits'
    · have hbefore := h.reads.drain_eq.trans (StreamReader.drain_of_none hwaits)
      have hdata := hall.drain_eq.trans (drain_of_step_error hreports)
      refine .inr ⟨e, ⟨pieces, data, [], rfl, ?_, ?_, herrors⟩, hreports⟩
      · rw [errorOf, hbefore]
      · rw [errorOf, hdata]
  · have hagain := codec.reader.stable data hstep
    have hsame := eq_of_reaches_of_step (p := (⟨s.messages, none⟩, rest ++ data)) hagain hreads rfl
    have hmessages : t.messages = s.messages := congrArg (fun p ↦ p.1.messages) hsame
    have hrest : rest' = rest ++ data := congrArg Prod.snd hsame
    rw [hmessages, hrest] at hend ⊢
    rcases hend with ⟨-, hwaits⟩ | ⟨e', herrors, hreports⟩
    · cases hwaits.symm.trans hagain
    · cases hreports.symm.trans hagain
      exact .inr ⟨e, herrors ▸ hreported.concat data, hagain⟩

theorem follows_new : Follows codec [] [] Receiver.new where
  shows := Buffer.shows_new (by norm_num [Buffer.kCheapPrepend, Buffer.kInitialSize])
  reads := .refl
  stops := .inl ⟨rfl, by simp [reader_step, Reading.step]⟩

theorem exists_runAll {pieces : List Text} (hfits : EachStep codec.exec Fits pieces Receiver.new) :
    ∃ s, runAll codec.exec pieces Receiver.new = some s ∧
      ∃ rest, Follows codec pieces rest s := by
  refine exists_runAll_history (I := fun pieces s ↦ ∃ rest, Follows codec pieces rest s)
    ?_ ⟨[], follows_new⟩ hfits
  rintro pieces data s ⟨rest, h⟩ hfits
  obtain ⟨t, rest', ht, h'⟩ := h.exists_exec hfits
  exact ⟨t, ht, rest', h'⟩

/-! ## Frames -/

variable (codec)

def frameText (body : Text) : Text := encodeInt 4 body.length ++ body

def Sized (body : Text) : Prop :=
  codec.kMinMessageLen ≤ body.length ∧ body.length ≤ kMaxMessageLen

def Skipped (body : Text) : Prop :=
  codec.rawCb.any (fun rawCb ↦ !rawCb (frameText body)) = true

instance (body : Text) : Decidable (codec.Skipped body) := inferInstanceAs (Decidable (_ = _))

/-- The raw callback drops the frame, or its body is in order. -/
def Accepted (body : Text) : Prop :=
  codec.Sized body ∧ (codec.Skipped body ∨ (codec.verdict body).1 = .kNoError)

def delivered (body : Text) : Option M :=
  if codec.Skipped body then none else (codec.verdict body).2

variable {codec} {body : Text}

theorem length_frameText (body : Text) : (frameText body).length = 4 + body.length := by
  rw [frameText, List.length_append, length_encodeInt]

theorem frameLen_frameText (h : body.length ≤ kMaxMessageLen) (more : Text) :
    Reading.frameLen (frameText body ++ more) = body.length := by
  have hmax : (body.length : ℤ) ≤ kMaxMessageLen := by exact_mod_cast h
  have hrange : InRange 4 (body.length : ℤ) :=
    ⟨le_trans (by norm_num) (Int.natCast_nonneg _), lt_of_le_of_lt hmax (by norm_num)⟩
  have htake : (frameText body ++ more).take 4 = encodeInt 4 body.length := by
    rw [frameText, List.append_assoc]
    exact List.take_left' (length_encodeInt 4 _)
  rw [Reading.frameLen, htake, decodeInt_encodeInt (by norm_num) hrange]

/-- The front of the data is a frame of the length it says. -/
theorem exists_frameText (hheader : kHeaderLen ≤ d.length) (hpos : 0 ≤ Reading.frameLen d)
    (hwhole : kHeaderLen + (Reading.frameLen d).toNat ≤ d.length) :
    ∃ body rest, d = frameText body ++ rest ∧ (body.length : ℤ) = Reading.frameLen d := by
  have hlen : ((d.drop 4).take (Reading.frameLen d).toNat).length =
      (Reading.frameLen d).toNat := by
    apply List.length_take_of_le
    rw [List.length_drop]
    simp only [kHeaderLen] at hwhole
    omega
  have hcast : (((d.drop 4).take (Reading.frameLen d).toNat).length : ℤ) = Reading.frameLen d := by
    rw [hlen, Int.toNat_of_nonneg hpos]
  refine ⟨(d.drop 4).take (Reading.frameLen d).toNat, (d.drop 4).drop (Reading.frameLen d).toNat,
    ?_, hcast⟩
  have hfour : (d.take 4).length = 4 := List.length_take_of_le hheader
  have hencode := encodeInt_decodeInt (d.take 4)
  rw [hfour] at hencode
  rw [frameText, hcast, Reading.frameLen, hencode, List.append_assoc, List.take_append_drop,
    List.take_append_drop]

variable (codec) in
theorem verdict_cases (body : Text) :
    (∃ message, codec.verdict body = (.kNoError, some message)) ∨
      ∃ e, e ≠ .kNoError ∧ codec.verdict body = (e, none) := by
  unfold verdict
  split_ifs
  · cases codec.parseFromArray (codec.payload body) with
    | some message => exact .inl ⟨message, rfl⟩
    | none => exact .inr ⟨.kParseError, by decide, rfl⟩
  · exact .inr ⟨.kUnknownMessageType, by decide, rfl⟩
  · exact .inr ⟨.kCheckSumError, by decide, rfl⟩

/-- The reader at a whole frame. -/
theorem step_frameText (hsized : codec.Sized body) (messages : List M) (more : Text) :
    codec.reader.step ⟨messages, none⟩ (frameText body ++ more) =
      if codec.Skipped body then some (⟨messages, none⟩, more)
      else some (Reading.judge ⟨messages, none⟩ (frameText body ++ more) more
        (codec.verdict body)) := by
  have hlen := frameLen_frameText hsized.2 more
  have hmin : codec.kMinMessageLen + kHeaderLen ≤ (frameText body ++ more).length := by
    rw [List.length_append, length_frameText]
    have hle := hsized.1
    simp only [kHeaderLen]
    omega
  have hrange : ¬ ((kMaxMessageLen : ℤ) < (body.length : ℤ) ∨
      (body.length : ℤ) < codec.kMinMessageLen) := by
    have hle := hsized.1
    have hge := hsized.2
    omega
  have hsize : kHeaderLen + (body.length : ℤ).toNat = (frameText body).length := by
    rw [length_frameText, Int.toNat_natCast]
  have hwhole : (frameText body).length ≤ (frameText body ++ more).length := by simp
  have hbody : (frameText body).drop kHeaderLen = body := List.drop_left' (length_encodeInt 4 _)
  rw [reader_step, Reading.step, if_pos ⟨rfl, hmin⟩, hlen, if_neg hrange, hsize, if_pos hwhole,
    List.take_left, List.drop_left, hbody]
  rfl

/-- A part of a frame is in front. -/
def Incomplete (codec : ProtobufCodecLite M) (d : Text) : Prop :=
  d.length < codec.kMinMessageLen + kHeaderLen ∨
    codec.kMinMessageLen ≤ Reading.frameLen d ∧ Reading.frameLen d ≤ kMaxMessageLen ∧
      (d.length : ℤ) < kHeaderLen + Reading.frameLen d

/-- The frame in front is not accepted. -/
def Bad (codec : ProtobufCodecLite M) (d : Text) (e : ErrorCode) : Prop :=
  codec.kMinMessageLen + kHeaderLen ≤ d.length ∧ e = .kInvalidLength ∧
      (kMaxMessageLen < Reading.frameLen d ∨ Reading.frameLen d < codec.kMinMessageLen) ∨
    ∃ body rest, d = frameText body ++ rest ∧ codec.Sized body ∧ ¬ codec.Skipped body ∧
      e ≠ .kNoError ∧ codec.verdict body = (e, none)

/-- The front of any data. -/
theorem front_cases (codec : ProtobufCodecLite M) (d : Text) :
    codec.Incomplete d ∨ (∃ body rest, d = frameText body ++ rest ∧ codec.Accepted body) ∨
      ∃ e, codec.Bad d e := by
  by_cases hmin : codec.kMinMessageLen + kHeaderLen ≤ d.length
  swap
  · exact .inl (.inl (by omega))
  by_cases hlen : (kMaxMessageLen : ℤ) < Reading.frameLen d ∨
    Reading.frameLen d < codec.kMinMessageLen
  · exact .inr (.inr ⟨_, .inl ⟨hmin, rfl, hlen⟩⟩)
  by_cases hwhole : kHeaderLen + (Reading.frameLen d).toNat ≤ d.length
  swap
  · exact .inl (.inr ⟨by omega, by omega, by omega⟩)
  obtain ⟨body, rest, rfl, hbody⟩ := exists_frameText (by omega) (by omega) hwhole
  have hsized : codec.Sized body := ⟨by omega, by omega⟩
  by_cases hskipped : codec.Skipped body
  · exact .inr (.inl ⟨body, rest, rfl, hsized, .inl hskipped⟩)
  rcases codec.verdict_cases body with ⟨message, hverdict⟩ | ⟨e, hne, hverdict⟩
  · exact .inr (.inl ⟨body, rest, rfl, hsized, .inr (by rw [hverdict])⟩)
  · exact .inr (.inr ⟨e, .inr ⟨body, rest, rfl, hsized, hskipped, hne, hverdict⟩⟩)

theorem step_of_accepted (h : codec.Accepted body) (messages : List M) (more : Text) :
    codec.reader.step ⟨messages, none⟩ (frameText body ++ more) =
      some (⟨messages ++ (codec.delivered body).toList, none⟩, more) := by
  rw [step_frameText h.1, delivered]
  by_cases hskipped : codec.Skipped body
  · rw [if_pos hskipped, if_pos hskipped, Option.toList_none, List.append_nil]
  · rw [if_neg hskipped, if_neg hskipped]
    rcases codec.verdict_cases body with ⟨message, hverdict⟩ | ⟨e, hne, hverdict⟩
    · rw [hverdict]
      rfl
    · have hno := h.2.resolve_left hskipped
      rw [hverdict] at hno
      exact absurd hno hne

theorem step_of_bad {e : ErrorCode} (h : codec.Bad d e) (messages : List M) :
    codec.reader.step ⟨messages, none⟩ d = some (⟨messages, some e⟩, d) := by
  rcases h with ⟨hmin, rfl, hlen⟩ | ⟨body, rest, rfl, hsized, hskipped, hne, hverdict⟩
  · rw [reader_step, Reading.step, if_pos ⟨rfl, hmin⟩, if_pos hlen]
  · rw [step_frameText hsized, if_neg hskipped, hverdict]
    cases e <;> rfl

theorem step_of_incomplete (h : codec.Incomplete d) (messages : List M) :
    codec.reader.step ⟨messages, none⟩ d = none := by
  rw [reader_step, Reading.step]
  rcases h with hshort | ⟨hmin, hmax, hshort⟩
  · rw [if_neg fun h ↦ absurd h.2 (by omega)]
  · have hrange : ¬ ((kMaxMessageLen : ℤ) < Reading.frameLen d ∨
        Reading.frameLen d < codec.kMinMessageLen) := by omega
    have hpart : ¬ kHeaderLen + (Reading.frameLen d).toNat ≤ d.length := by omega
    rw [if_neg hrange, if_neg hpart, ite_self]

theorem Bad.append {e : ErrorCode} (h : codec.Bad d e) (more : Text) :
    codec.Bad (d ++ more) e := by
  rcases h with ⟨hmin, he, hlen⟩ | ⟨body, rest, rfl, h⟩
  · have hheader : kHeaderLen ≤ d.length := by omega
    refine .inl ⟨by rw [List.length_append]; omega, he, ?_⟩
    rwa [Reading.frameLen_append hheader]
  · exact .inr ⟨body, rest ++ more, List.append_assoc .., h⟩

/-- Frames that are accepted are read. -/
theorem reaches_frames {bodies : List Text} (h : ∀ body ∈ bodies, codec.Accepted body)
    (messages : List M) (rest : Text) :
    codec.reader.Reaches (⟨messages, none⟩, (bodies.map frameText).flatten ++ rest)
      (⟨messages ++ bodies.filterMap codec.delivered, none⟩, rest) := by
  induction bodies generalizing messages with
  | nil =>
      rw [List.filterMap_nil, List.append_nil]
      exact .refl
  | cons body bodies ih =>
      obtain ⟨hbody, hbodies⟩ := List.forall_mem_cons.mp h
      have hstep := step_of_accepted hbody messages ((bodies.map frameText).flatten ++ rest)
      rw [← List.append_assoc] at hstep
      have hrest := ih hbodies (messages ++ (codec.delivered body).toList)
      rw [List.append_assoc] at hrest
      refine Relation.ReflTransGen.head hstep ?_
      change codec.reader.Reaches _ _
      cases hdelivered : codec.delivered body <;> simpa [hdelivered] using hrest

/-- Every stream is a sequence of frames with an incomplete or a bad one behind. -/
theorem exists_frames (codec : ProtobufCodecLite M) (stream : Text) :
    ∃ (bodies : List Text) (d : Text), (∀ body ∈ bodies, codec.Accepted body) ∧
      stream = (bodies.map frameText).flatten ++ d ∧
      (codec.Incomplete d ∨ ∃ e, codec.Bad d e) := by
  induction hn : stream.length using Nat.strong_induction_on generalizing stream with
  | _ n ih =>
      rcases codec.front_cases stream with hpart | ⟨body, rest, rfl, haccepted⟩ | hbad
      · exact ⟨[], stream, by simp, rfl, .inl hpart⟩
      · have hlt : rest.length < n := by
          rw [← hn, List.length_append, length_frameText]
          omega
        obtain ⟨bodies, d, hall, rfl, hend⟩ := ih _ hlt rest rfl
        exact ⟨body :: bodies, d, List.forall_mem_cons.mpr ⟨haccepted, hall⟩, by simp, hend⟩
      · exact ⟨[], stream, by simp, rfl, .inr hbad⟩

/-- What has arrived holds the frames and a bad one behind them. -/
def HasBad (codec : ProtobufCodecLite M) (bodies : List Text) (stream : Text) : Prop :=
  ∃ d e, stream = (bodies.map frameText).flatten ++ d ∧ codec.Bad d e

theorem drain_frames_incomplete {bodies : List Text}
    (h : ∀ body ∈ bodies, codec.Accepted body) (hpart : codec.Incomplete d) :
    codec.reader.drain ⟨[], none⟩ ((bodies.map frameText).flatten ++ d) =
      (⟨bodies.filterMap codec.delivered, none⟩, d) :=
  (reaches_frames h [] d).drain_eq.trans (StreamReader.drain_of_none (step_of_incomplete hpart _))

theorem drain_frames_bad {bodies : List Text} (h : ∀ body ∈ bodies, codec.Accepted body)
    {e : ErrorCode} (hbad : codec.Bad d e) :
    codec.reader.drain ⟨[], none⟩ ((bodies.map frameText).flatten ++ d) =
      (⟨bodies.filterMap codec.delivered, some e⟩, d) :=
  (reaches_frames h [] d).drain_eq.trans (drain_of_step_error (step_of_bad hbad _))

/-- Whatever arrives, the frames in front of the first bad one are delivered in
their order.  The bad one is reported with the piece that completes it and with
each piece behind, and nothing more is delivered. -/
theorem frames_delivered (codec : ProtobufCodecLite M) {pieces : List Text}
    (hfits : EachStep codec.exec Fits pieces Receiver.new) :
    ∃ (s : Receiver M) (bodies : List Text) (rest : Text),
      runAll codec.exec pieces Receiver.new = some s ∧
      pieces.flatten = (bodies.map frameText).flatten ++ rest ∧
      (∀ body ∈ bodies, codec.Accepted body) ∧ s.messages = bodies.filterMap codec.delivered ∧
      (s.errors = [] ∧ codec.Incomplete rest ∨
        ∃ e before data after, codec.Bad rest e ∧ pieces = before ++ data :: after ∧
          ¬ codec.HasBad bodies before.flatten ∧ codec.HasBad bodies (before.flatten ++ data) ∧
          s.errors = List.replicate (after.length + 1) e) := by
  obtain ⟨s, hrun, rest, h⟩ := exists_runAll hfits
  rcases h.stops with ⟨herrors, hwaits⟩ | ⟨e, hreported, hstep⟩
  · have hdrain := h.reads.drain_eq.trans (StreamReader.drain_of_none hwaits)
    obtain ⟨bodies, d, hall, hstream, hpart | ⟨e, hbad⟩⟩ := codec.exists_frames pieces.flatten
    · rw [hstream, drain_frames_incomplete hall hpart] at hdrain
      have hmessages : bodies.filterMap codec.delivered = s.messages :=
        congrArg (fun p ↦ p.1.messages) hdrain
      exact ⟨s, bodies, d, hrun, hstream, hall, hmessages.symm, .inl ⟨herrors, hpart⟩⟩
    · rw [hstream, drain_frames_bad hall hbad] at hdrain
      cases congrArg (fun p ↦ p.1.error) hdrain
  · obtain ⟨before, data, after, rfl, hbefore, hdata, herrors⟩ := hreported
    have hdrain := h.reads.drain_eq.trans (drain_of_step_error hstep)
    obtain ⟨bodies, d, hall, hstream, hpart | ⟨e', hbad⟩⟩ :=
      codec.exists_frames (before.flatten ++ data)
    · rw [errorOf, hstream, drain_frames_incomplete hall hpart] at hdata
      cases hdata
    · -- the frames in front of the bad one are those of the whole stream
      rw [errorOf, hstream, drain_frames_bad hall hbad] at hdata
      obtain rfl : e' = e := Option.some.inj hdata
      have hlate := hbad.append after.flatten
      have hwhole : (before ++ data :: after).flatten =
          (bodies.map frameText).flatten ++ (d ++ after.flatten) := by
        rw [List.flatten_append, List.flatten_cons, ← List.append_assoc, hstream,
          List.append_assoc]
      rw [hwhole, drain_frames_bad hall hlate] at hdrain
      have hmessages : bodies.filterMap codec.delivered = s.messages :=
        congrArg (fun p ↦ p.1.messages) hdrain
      refine ⟨s, bodies, _, hrun, hwhole, hall, hmessages.symm, .inr ⟨e', before, data, after,
        hlate, rfl, ?_, ⟨d, e', hstream, hbad⟩, herrors⟩⟩
      rintro ⟨d', e, hbefore', hbad'⟩
      rw [hbefore', errorOf, drain_frames_bad hall hbad'] at hbefore
      cases hbefore

def zlibAdler32 (data : Text) : ℕ :=
  let p := data.foldl (fun p b ↦ ((p.1 + b.toNat) % 65521, (p.1 + b.toNat + p.2) % 65521)) (1, 0)
  p.2 * 65536 + p.1

/-- Messages with one small integer in their first field. -/
def exampleCodec : ProtobufCodecLite (Fin 128) where
  tag := ascii "RPC0"
  serialize x := [8, UInt8.ofNat x]
  parseFromArray data :=
    match data with
    | [8, b] => if h : b.toNat < 128 then some ⟨b.toNat, h⟩ else none
    | _ => none
  adler32 := zlibAdler32
  rawCb := none

/-- A good frame, one with a wrong checksum in two pieces, and a good one. -/
def examplePieces : List Text :=
  [[0, 0, 0, 10, 82, 80, 67, 48, 8, 5, 5, 51, 1, 35, 0, 0, 0, 10, 82],
    [80, 67, 48, 8, 7, 5, 51, 1, 35], [0, 0, 0, 10, 82, 80, 67, 48, 8, 5, 5, 51, 1, 35]]

/-- The second piece completes the bad frame, which is reported with it and with the
third. -/
theorem frames_delivered_examplePieces :
    ∃ (s : Receiver (Fin 128)) (bodies : List Text),
      runAll exampleCodec.exec examplePieces Receiver.new = some s ∧ s.messages = [5] ∧
      s.errors = [.kCheckSumError, .kCheckSumError] ∧
      (∀ body ∈ bodies, exampleCodec.Accepted body) ∧
      bodies.filterMap exampleCodec.delivered = [5] ∧
      ¬ exampleCodec.HasBad bodies (examplePieces.take 1).flatten ∧
      exampleCodec.HasBad bodies (examplePieces.take 2).flatten := by
  have hshows : (runAll exampleCodec.exec examplePieces Receiver.new).map
      (fun s ↦ (s.messages, s.errors)) = some ([5], [.kCheckSumError, .kCheckSumError]) := by
    decide +kernel
  have hfits : EachStep exampleCodec.exec Fits examplePieces Receiver.new := by decide +kernel
  obtain ⟨s, bodies, rest, hrun, -, hall, hmessages, hend⟩ := frames_delivered exampleCodec hfits
  rw [hrun, Option.map_some, Option.some.injEq, Prod.mk.injEq] at hshows
  refine ⟨s, bodies, hrun, hshows.1, hshows.2, hall, hmessages.symm.trans hshows.1, ?_⟩
  rcases hend with ⟨hnone, -⟩ | ⟨e, before, data, after, -, hpieces, hno, hbad, herrors⟩
  · cases hnone.symm.trans hshows.2
  · have hafter := congrArg List.length (hshows.2.symm.trans herrors)
    have hlength := congrArg List.length hpieces
    simp only [examplePieces, List.length_replicate, List.length_append, List.length_cons,
      List.length_nil] at hafter hlength
    have hone : before.length = 1 := by omega
    have hbefore : examplePieces.take 1 = before := by
      rw [hpieces, ← hone, List.take_left]
    have hdata : examplePieces.take 2 = before ++ [data] := by
      rw [hpieces, List.append_cons, List.take_left' (by simp [hone])]
    refine ⟨hbefore ▸ hno, ?_⟩
    rw [hdata, List.flatten_append, List.flatten_singleton]
    exact hbad

/-! ## The sender -/

/-- The body of the frame of a message. -/
def bodyOf (codec : ProtobufCodecLite M) (message : M) : Text :=
  codec.tag ++ codec.serialize message ++
    encodeInt 4 (codec.checksum (codec.tag ++ codec.serialize message))

theorem length_bodyOf (message : M) : (codec.bodyOf message).length =
    codec.tag.length + (codec.serialize message).length + 4 := by
  simp [bodyOf, Nat.add_assoc]

theorem verdict_bodyOf {message : M}
    (h : codec.parseFromArray (codec.serialize message) = some message) :
    codec.verdict (codec.bodyOf message) = (.kNoError, some message) := by
  have hlen : (codec.bodyOf message).length - kChecksumLen =
      (codec.tag ++ codec.serialize message).length := by
    rw [length_bodyOf, List.length_append, Nat.add_sub_cancel]
  have hsummed : summed (codec.bodyOf message) = codec.tag ++ codec.serialize message := by
    rw [summed, hlen, bodyOf, List.take_left]
  have hsum : decodeInt
      ((codec.bodyOf message).drop ((codec.bodyOf message).length - kChecksumLen)) =
      codec.checksum (codec.tag ++ codec.serialize message) := by
    rw [hlen, bodyOf, List.drop_left]
    exact decodeInt_encodeInt (by norm_num) (inRange_bmod _)
  have htag : (codec.bodyOf message).take codec.tag.length = codec.tag := by
    rw [bodyOf, List.append_assoc, List.take_left]
  have hpayload : codec.payload (codec.bodyOf message) = codec.serialize message := by
    rw [payload, hsummed, List.drop_left]
  rw [verdict, hsummed, hsum, if_pos rfl, if_pos htag, hpayload, h]

theorem serializeToBuffer_spec {b : Buffer} {message : M} (hb : b.Shows d)
    (hfront : b.readerIndex = Buffer.kCheapPrepend)
    (hsize : d.length + (codec.serialize message).length ≤ kMaxMessageLen) :
    ∃ t, codec.serializeToBuffer message b = some ((codec.serialize message).length, t) ∧
      t.Shows (d ++ codec.serialize message) ∧ t.readerIndex = Buffer.kCheapPrepend := by
  simp only [kMaxMessageLen] at hsize
  have hroom : 8 + d.length + ((codec.serialize message).length + kChecksumLen) < 2 ^ 63 := by
    simp only [kChecksumLen]
    omega
  obtain ⟨t, u, v, ht, hu, hv, hshows, hreader⟩ :=
    hb.write_front hfront (Nat.le_add_right _ _) hroom
  have hint : (codec.serialize message).length < 2 ^ 31 := by omega
  refine ⟨v, ?_, hshows, hreader⟩
  simp only [serializeToBuffer, guard, if_pos hint, ht, hu, hv, Option.bind_eq_bind,
    Option.bind_some, Option.pure_def]

/-- The buffer of a message holds its frame. -/
theorem fillEmptyBuffer_spec {message : M}
    (hsize : (codec.bodyOf message).length ≤ kMaxMessageLen) :
    ∃ b, codec.fillEmptyBuffer message (.new Buffer.kInitialSize) = some b ∧
      b.Shows (frameText (codec.bodyOf message)) := by
  rw [length_bodyOf] at hsize
  simp only [kMaxMessageLen] at hsize
  have hnew : (Buffer.new Buffer.kInitialSize).Shows [] :=
    Buffer.shows_new (by norm_num [Buffer.kCheapPrepend, Buffer.kInitialSize])
  have hsize₁ : 8 + ([] : Text).length + codec.tag.length < 2 ^ 63 := by
    simp only [List.length_nil]
    omega
  obtain ⟨b₁, hb₁, hshows₁, hfront₁⟩ := hnew.append_front rfl hsize₁
  have hsize₂ : ([] ++ codec.tag).length + (codec.serialize message).length ≤ kMaxMessageLen := by
    simp only [List.nil_append, kMaxMessageLen]
    omega
  obtain ⟨b₂, hb₂, hshows₂, hfront₂⟩ := serializeToBuffer_spec hshows₁ hfront₁ hsize₂
  rw [List.nil_append] at hshows₁ hshows₂
  have hsize₃ : 8 + (codec.tag ++ codec.serialize message).length +
      (encodeInt 4 (codec.checksum (codec.tag ++ codec.serialize message))).length < 2 ^ 63 := by
    rw [List.length_append, length_encodeInt]
    omega
  obtain ⟨b₃, hb₃, hshows₃, hfront₃⟩ := hshows₂.append_front hfront₂ hsize₃
  have hsize₄ : (encodeInt 4 (codec.bodyOf message).length).length ≤ b₃.prependableBytes := by
    rw [Buffer.prependableBytes, hfront₃, length_encodeInt]
    norm_num
  obtain ⟨b₄, hb₄, hshows₄⟩ := hshows₃.prepend hsize₄
  refine ⟨b₄, ?_, hshows₄⟩
  have hread := hshows₂.readAt le_rfl
  rw [List.take_length, ← hshows₂.readableBytes] at hread
  have hlen : b₃.readableBytes = (codec.bodyOf message).length := hshows₃.readableBytes
  have hcount : (codec.bodyOf message).length =
      codec.tag.length + (codec.serialize message).length + kChecksumLen := length_bodyOf message
  have hb₃' : b₂.appendInt32 (codec.checksum (codec.tag ++ codec.serialize message)) =
      some b₃ := hb₃
  simp only [fillEmptyBuffer, guard, hnew.readableBytes, List.length_nil, if_true, hb₁, hb₂, hread,
    hb₃', if_pos hcount, Option.bind_eq_bind, Option.bind_some, Option.pure_def, hlen, hb₄]

/-- What the codec writes for a message. -/
def Written (codec : ProtobufCodecLite M) (message : M) (text : Text) : Prop :=
  ∃ b, codec.fillEmptyBuffer message (.new Buffer.kInitialSize) = some b ∧ b.readable = text

/-- The message survives serialization, its frame is not too long, and the raw
callback keeps it. -/
structure Sendable (codec : ProtobufCodecLite M) (message : M) : Prop where
  parses : codec.parseFromArray (codec.serialize message) = some message
  size : codec.tag.length + (codec.serialize message).length + kChecksumLen ≤ kMaxMessageLen
  kept : ∀ rawCb ∈ codec.rawCb, ∀ text, codec.Written message text → rawCb text = true

theorem Sendable.written_iff {message : M} (h : codec.Sendable message) {text : Text} :
    codec.Written message text ↔ text = frameText (codec.bodyOf message) := by
  have hsize : (codec.bodyOf message).length ≤ kMaxMessageLen := by
    rw [length_bodyOf]
    exact h.size
  obtain ⟨b, hb, hshows⟩ := fillEmptyBuffer_spec hsize
  constructor
  · rintro ⟨b', hb', rfl⟩
    cases hb.symm.trans hb'
    exact hshows.readable
  · rintro rfl
    exact ⟨b, hb, hshows.readable⟩

theorem Sendable.accepted {message : M} (h : codec.Sendable message) :
    codec.Accepted (codec.bodyOf message) ∧
      codec.delivered (codec.bodyOf message) = some message := by
  have hverdict := verdict_bodyOf h.parses
  have hsized : codec.Sized (codec.bodyOf message) := by
    refine ⟨?_, (length_bodyOf message).trans_le h.size⟩
    rw [length_bodyOf, kMinMessageLen]
    simp only [kChecksumLen]
    omega
  have hkept : ¬ codec.Skipped (codec.bodyOf message) := by
    cases hraw : codec.rawCb with
    | none => simp [Skipped, hraw]
    | some rawCb =>
        have hkeeps := h.kept rawCb hraw _ (h.written_iff.mpr rfl)
        simp [Skipped, hraw, hkeeps]
  refine ⟨⟨hsized, .inr (by rw [hverdict])⟩, ?_⟩
  rw [delivered, if_neg hkept, hverdict]

theorem incomplete_of_isPart {part : Text} (hsize : body.length ≤ kMaxMessageLen)
    (hmin : codec.kMinMessageLen ≤ body.length) (hpart : part <+: frameText body)
    (hne : part ≠ frameText body) : codec.Incomplete part := by
  have hlt : part.length < (frameText body).length :=
    lt_of_le_of_ne hpart.length_le fun heq ↦ hne (hpart.eq_of_length heq)
  rw [length_frameText] at hlt
  by_cases hshort : part.length < codec.kMinMessageLen + kHeaderLen
  · exact .inl hshort
  · obtain ⟨more, hmore⟩ := hpart
    have hheader : kHeaderLen ≤ part.length := by omega
    have hlen := frameLen_frameText hsize []
    rw [List.append_nil, ← hmore, Reading.frameLen_append hheader] at hlen
    have hfour : (kHeaderLen : ℤ) = 4 := rfl
    exact .inr ⟨by omega, by omega, by omega⟩

/-- The messages whose frames have arrived whole are delivered, each once and
in the order in which they were sent, however the frames are cut in pieces. -/
theorem sent_messages_delivered {pieces texts : List Text} {ms : List M} {next : M}
    {text part : Text} (hfits : EachStep codec.exec Fits pieces Receiver.new)
    (hms : ∀ m ∈ ms, codec.Sendable m) (htexts : List.Forall₂ codec.Written ms texts)
    (hnext : codec.Sendable next) (htext : codec.Written next text) (hpart : part <+: text)
    (hne : part ≠ text) (hpieces : pieces.flatten = texts.flatten ++ part) :
    ∃ s, runAll codec.exec pieces Receiver.new = some s ∧ s.messages = ms ∧ s.errors = [] ∧
      s.buf.readable = part := by
  obtain ⟨s, hrun, rest, h⟩ := exists_runAll hfits
  obtain rfl := hnext.written_iff.mp htext
  have hsized := hnext.accepted.1.1
  have hpart' := incomplete_of_isPart hsized.2 hsized.1 hpart hne
  have hall : ∀ body ∈ ms.map codec.bodyOf, codec.Accepted body := by
    intro body hbody
    obtain ⟨m, hm, rfl⟩ := List.mem_map.mp hbody
    exact (hms m hm).accepted.1
  have hdelivered : (ms.map codec.bodyOf).filterMap codec.delivered = ms := by
    rw [List.filterMap_map]
    exact (List.filterMap_congr fun m hm ↦ (hms m hm).accepted.2).trans List.filterMap_some
  have hflat : texts = (ms.map codec.bodyOf).map frameText := by
    clear hpieces hall hdelivered
    induction htexts with
    | nil => rfl
    | cons hwritten _ ih =>
        obtain ⟨hm, hms⟩ := List.forall_mem_cons.mp hms
        rw [List.map_cons, List.map_cons, ← hm.written_iff.mp hwritten, ← ih hms]
  have hreads := h.reads.drain_eq
  rw [hpieces, hflat, drain_frames_incomplete hall hpart', hdelivered] at hreads
  rcases h.stops with ⟨herrors, hnone⟩ | ⟨e, -, hstep⟩
  · rw [StreamReader.drain_of_none hnone] at hreads
    cases hreads
    exact ⟨s, hrun, rfl, herrors, h.shows.readable⟩
  · rw [drain_of_step_error hstep] at hreads
    cases hreads

theorem sendable_exampleCodec (x : Fin 128) : exampleCodec.Sendable x where
  parses := by
    revert x
    decide
  size := by
    revert x
    decide
  kept := nofun

/-- Two messages and a part of a third. -/
theorem sent_messages_delivered_exampleCodec :
    ∃ s, runAll exampleCodec.exec
        [[0, 0, 0], [10, 82, 80, 67, 48, 8, 5, 5, 51, 1, 35, 0, 0, 0, 10, 82],
          [80, 67, 48, 8, 7, 5, 53, 1, 37, 0, 0, 0, 10], [82, 80]] Receiver.new = some s ∧
      s.messages = [5, 7] ∧ s.errors = [] ∧ s.buf.readable = [0, 0, 0, 10, 82, 80] :=
  sent_messages_delivered (by decide +kernel) (fun m _ ↦ sendable_exampleCodec m)
    (.cons ((sendable_exampleCodec 5).written_iff.mpr rfl)
      (.cons ((sendable_exampleCodec 7).written_iff.mpr rfl) .nil))
    (sendable_exampleCodec 9) ((sendable_exampleCodec 9).written_iff.mpr rfl) (by decide)
    (by decide) (by decide)

end ProtobufCodecLite

end PpDSCache.Protobuf
