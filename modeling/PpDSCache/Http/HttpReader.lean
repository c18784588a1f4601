import PpDSCache.Abstract.Stream
import PpDSCache.Http.HttpContext
import PpDSCache.Net.BufferDeque

/-!
# Requests in a stream

The requests that a stream of bytes holds, one after another, up to a line that
is no request line where one is due.  `parseRequest` reads the bytes of the
buffer in this way and stops at the end of a request.
-/

namespace PpDSCache.Net.Buffer.Shows

open Cpp Text

variable {b : Buffer} {d line rest : Text}

theorem findCRLF (h : b.Shows d) : b.findCRLF = (search crlf d).map (b.readerIndex + ·) := by
  rw [Buffer.findCRLF, ← h.readable]
  rfl

/-- What the parser does with a line that is there. -/
theorem exists_line (h : b.Shows d) (hcut : cutLine d = some (line, rest)) :
    ∃ crlf t, b.findCRLF = some crlf ∧
      Cpp.readAt b.bytes b.readerIndex (crlf - b.readerIndex) = some line ∧
      b.retrieveUntil (crlf + 2) = some t ∧ t.Shows rest := by
  obtain ⟨n, hn, hparts⟩ := Option.map_eq_some_iff.mp hcut
  have hlen := length_of_cutLine hcut
  cases hparts
  rw [List.length_take, List.length_drop] at hlen
  have htwo : n + 2 ≤ d.length := by omega
  obtain ⟨t, ht, hshows⟩ := h.retrieve htwo
  refine ⟨b.readerIndex + n, t, by rw [h.findCRLF, hn, Option.map_some], ?_,
    (h.retrieveUntil htwo).trans ht, hshows⟩
  rw [Nat.add_sub_cancel_left]
  exact h.readAt (by omega)

theorem findCRLF_of_cutLine (h : b.Shows d) (hcut : cutLine d = none) : b.findCRLF = none := by
  rw [h.findCRLF, Option.map_eq_none_iff.mp hcut, Option.map_none]

end PpDSCache.Net.Buffer.Shows

namespace PpDSCache.Http

open Cpp Text Net Abstract

/-! ## The time of receipt -/

namespace HttpRequest

/-- The request without the time of its first line. -/
def untimed (r : HttpRequest) : HttpRequest := { r with receiveTime := 0 }

theorem untimed_setTarget (target : Text) (r : HttpRequest) :
    (r.setTarget target).untimed = r.untimed.setTarget target := by
  unfold setTarget
  split <;> rfl

theorem setMethod_untimed (m : Text) (r : HttpRequest) :
    r.untimed.setMethod m = (r.setMethod m).map fun p ↦ (p.1, p.2.untimed) := by
  by_cases h : r.method = .kInvalid <;> simp [setMethod, untimed, h]

theorem processRequestLine_untimed (line : Text) (r : HttpRequest) :
    r.untimed.processRequestLine line =
      (r.processRequestLine line).map fun p ↦ (p.1, p.2.untimed) := by
  unfold processRequestLine
  cases cutAt 32 line with
  | none => rfl
  | some p =>
      obtain ⟨method, rest⟩ := p
      dsimp only
      rw [setMethod_untimed]
      cases r.setMethod method with
      | none => rfl
      | some q =>
          obtain ⟨valid, r⟩ := q
          cases valid with
          | false => rfl
          | true =>
              cases cutAt 32 rest with
              | none => rfl
              | some p =>
                  obtain ⟨target, version⟩ := p
                  have htarget := untimed_setTarget target r
                  cases hversion : versionOf version with
                  | none => simp [hversion, htarget]
                  | some v =>
                      simp [hversion, ← htarget]
                      rfl

/-- The assertion on the method is the only one. -/
theorem exists_processRequestLine {r : HttpRequest} (h : r.method = .kInvalid) (line : Text) :
    ∃ valid r', r.processRequestLine line = some (valid, r') := by
  unfold processRequestLine
  cases cutAt 32 line with
  | none => exact ⟨_, _, rfl⟩
  | some p =>
      simp only [setMethod, if_pos h, Option.bind_eq_bind, Option.bind_some]
      split_ifs
      · exact ⟨_, _, rfl⟩
      · split
        · exact ⟨_, _, rfl⟩
        · split
          · exact ⟨_, _, rfl⟩
          · exact ⟨_, _, rfl⟩

@[simp] theorem method_setTarget (target : Text) (r : HttpRequest) :
    (r.setTarget target).method = r.method := by
  unfold setTarget
  split <;> rfl

/-- The method of a rejected line is stored if it has one, and nothing else is
stored if it has none. -/
theorem rejected_cases {r request : HttpRequest} {line : Text} (hinvalid : r.method = .kInvalid)
    (h : r.processRequestLine line = some (false, request)) :
    (∃ method rest, cutAt 32 line = some (method, rest) ∧ methodOf method ≠ .kInvalid ∧
      request.method = methodOf method) ∨
    (∀ method rest, cutAt 32 line = some (method, rest) → methodOf method = .kInvalid) ∧
      request = r := by
  unfold processRequestLine at h
  cases hcut : cutAt 32 line with
  | none =>
      rw [hcut] at h
      cases h
      exact .inr ⟨nofun, rfl⟩
  | some p =>
      obtain ⟨method, rest⟩ := p
      simp only [hcut, setMethod, if_pos hinvalid, Option.bind_eq_bind, Option.bind_some] at h
      by_cases hmethod : methodOf method = .kInvalid
      · have hsame : r = request := by simpa [hmethod, ← hinvalid] using h
        refine .inr ⟨fun _ _ hsome ↦ ?_, hsame.symm⟩
        cases hsome
        exact hmethod
      · refine .inl ⟨method, rest, rfl, hmethod, ?_⟩
        simp only [hmethod, ne_eq, not_false_eq_true, decide_true, Bool.true_eq_false,
          if_false] at h
        split at h
        · cases h
          rfl
        · split at h
          · cases h
            exact method_setTarget _ _
          · cases h

theorem processRequestLine_of_method {r : HttpRequest} {line method rest : Text}
    (hmethod : r.method ≠ .kInvalid) (hcut : cutAt 32 line = some (method, rest)) :
    r.processRequestLine line = none := by
  simp [processRequestLine, hcut, setMethod, hmethod]

end HttpRequest

/-! ## The reader -/

structure Reading where
  context : HttpContext
  /-- the requests read to their end -/
  done : List HttpRequest
  /-- no line was rejected -/
  ok : Bool

namespace Reading

def new : Reading := ⟨.new, [], true⟩

/-- A rejected line stays in front. -/
def step (r : Reading) (d : Text) : Option (Reading × Text) :=
  if r.ok = true then
    (cutLine d).bind fun p ↦
      match r.context.state with
      | .kExpectRequestLine =>
          match r.context.request.processRequestLine p.1 with
          | some (true, request) =>
              some ({ r with context := ⟨.kExpectHeaders, request⟩ }, p.2)
          | _ => some ({ r with ok := false }, d)
      | .kExpectHeaders =>
          match cutAt 58 p.1 with
          | some (field, value) =>
              let request := r.context.request.addHeader field value
              some ({ r with context := ⟨.kExpectHeaders, request⟩ }, p.2)
          | none => some ({ r with context := .new, done := r.done ++ [r.context.request] }, p.2)
      | .kExpectBody | .kGotAll => none
  else none

variable {r t : Reading} {d rest : Text}

/-- A step takes a line, or rejects one. -/
theorem step_cases (h : r.step d = some (t, rest)) : ∃ line after, r.ok = true ∧
    cutLine d = some (line, after) ∧ (t.ok = true ∧ rest = after ∨ t.ok = false ∧ rest = d) := by
  rw [step] at h
  split_ifs at h with hok
  obtain ⟨⟨line, after⟩, hcut, h⟩ := Option.bind_eq_some_iff.mp h
  refine ⟨line, after, hok, hcut, ?_⟩
  split at h
  · split at h <;> cases h
    · exact .inl ⟨hok, rfl⟩
    · exact .inr ⟨rfl, rfl⟩
  · split at h <;> cases h
    · exact .inl ⟨hok, rfl⟩
    · exact .inl ⟨hok, rfl⟩
  · cases h
  · cases h

theorem prefix_done_of_step (h : r.step d = some (t, rest)) : r.done <+: t.done := by
  rw [step] at h
  split_ifs at h
  obtain ⟨p, -, h⟩ := Option.bind_eq_some_iff.mp h
  split at h
  · split at h <;> cases h
    · exact List.prefix_rfl
    · exact List.prefix_rfl
  · split at h <;> cases h
    · exact List.prefix_rfl
    · exact List.prefix_append _ _
  · cases h
  · cases h

theorem step_append (h : r.step d = some (t, rest)) (more : Text) :
    r.step (d ++ more) = some (t, rest ++ more) := by
  rw [step] at h ⊢
  split_ifs at h ⊢
  obtain ⟨⟨line, after⟩, hcut, h⟩ := Option.bind_eq_some_iff.mp h
  rw [cutLine_append hcut, Option.bind_some]
  split at h
  · split at h <;> cases h <;> simp_all
  · split at h <;> cases h <;> simp_all
  · cases h
  · cases h

section Lines

variable {line field value : Text} {done : List HttpRequest} {request request' : HttpRequest}

theorem step_of_no_line (hcut : cutLine d = none) : r.step d = none := by
  simp [step, hcut]

theorem step_requestLine (hcut : cutLine d = some (line, rest))
    (hline : request.processRequestLine line = some (true, request')) :
    step ⟨⟨.kExpectRequestLine, request⟩, done, true⟩ d =
      some (⟨⟨.kExpectHeaders, request'⟩, done, true⟩, rest) := by
  simp [step, hcut, hline]

theorem step_rejected (hcut : cutLine d = some (line, rest))
    (hline : request.processRequestLine line = some (false, request')) :
    step ⟨⟨.kExpectRequestLine, request⟩, done, true⟩ d =
      some (⟨⟨.kExpectRequestLine, request⟩, done, false⟩, d) := by
  simp [step, hcut, hline]

theorem step_header (hcut : cutLine d = some (line, rest))
    (hcolon : cutAt 58 line = some (field, value)) :
    step ⟨⟨.kExpectHeaders, request⟩, done, true⟩ d =
      some (⟨⟨.kExpectHeaders, request.addHeader field value⟩, done, true⟩, rest) := by
  simp [step, hcut, hcolon]

theorem step_end (hcut : cutLine d = some (line, rest)) (hcolon : cutAt 58 line = none) :
    step ⟨⟨.kExpectHeaders, request⟩, done, true⟩ d =
      some (⟨.new, done ++ [request], true⟩, rest) := by
  simp [step, hcut, hcolon]

end Lines

end Reading

def httpReader : StreamReader Reading UInt8 where
  step := Reading.step
  rank r := if r.ok = true then 1 else 0
  shrinks {r d t rest} h := by
    obtain ⟨line, after, hok, hcut, ⟨ht, rfl⟩ | ⟨ht, rfl⟩⟩ := Reading.step_cases h
    · have hlen := length_of_cutLine hcut
      rw [hok, ht]
      omega
    · rw [hok, ht]
      simp
  stable more h := Reading.step_append h more

/-! ## The rounds of the parser -/

namespace HttpContext

section Rounds

variable {b : Buffer} {d rest line field value : Text} {request request' : HttpRequest} {n : ℕ}

theorem parseLoop_of_no_line {c : HttpContext}
    (hstate : c.state = .kExpectRequestLine ∨ c.state = .kExpectHeaders) (hb : b.Shows d)
    (hcut : cutLine d = none) (time : ℤ) : parseLoop time (n + 1) c b = some (true, c, b) := by
  have hfind := hb.findCRLF_of_cutLine hcut
  rcases hstate with hstate | hstate <;> simp [parseLoop, hstate, hfind]

variable (hb : b.Shows d) (hcut : cutLine d = some (line, rest))

include hb hcut

theorem parseLoop_requestLine (hline : request.processRequestLine line = some (true, request'))
    (time : ℤ) : ∃ b', b'.Shows rest ∧
      parseLoop time (n + 1) ⟨.kExpectRequestLine, request⟩ b =
        parseLoop time n ⟨.kExpectHeaders, { request' with receiveTime := time }⟩ b' := by
  obtain ⟨crlf, b', hfind, hread, hretrieve, hb'⟩ := hb.exists_line hcut
  exact ⟨b', hb', by simp [parseLoop, hfind, hread, hline, hretrieve]⟩

theorem parseLoop_rejected (hline : request.processRequestLine line = some (false, request'))
    (time : ℤ) : parseLoop time (n + 1) ⟨.kExpectRequestLine, request⟩ b =
      some (false, ⟨.kExpectRequestLine, request'⟩, b) := by
  obtain ⟨crlf, b', hfind, hread, hretrieve, hb'⟩ := hb.exists_line hcut
  simp [parseLoop, hfind, hread, hline]

theorem parseLoop_of_method {method tail : Text} (hspace : cutAt 32 line = some (method, tail))
    (hmethod : request.method ≠ .kInvalid) (time : ℤ) :
    parseLoop time (n + 1) ⟨.kExpectRequestLine, request⟩ b = none := by
  obtain ⟨crlf, b', hfind, hread, hretrieve, hb'⟩ := hb.exists_line hcut
  simp [parseLoop, hfind, hread, HttpRequest.processRequestLine_of_method hmethod hspace]

theorem parseLoop_header (hcolon : cutAt 58 line = some (field, value)) (time : ℤ) :
    ∃ b', b'.Shows rest ∧ parseLoop time (n + 1) ⟨.kExpectHeaders, request⟩ b =
      parseLoop time n ⟨.kExpectHeaders, request.addHeader field value⟩ b' := by
  obtain ⟨crlf, b', hfind, hread, hretrieve, hb'⟩ := hb.exists_line hcut
  exact ⟨b', hb', by simp [parseLoop, hfind, hread, hcolon, hretrieve]⟩

theorem parseLoop_end (hcolon : cutAt 58 line = none) (time : ℤ) :
    ∃ b', b'.Shows rest ∧ parseLoop time (n + 1) ⟨.kExpectHeaders, request⟩ b =
      some (true, ⟨.kGotAll, request⟩, b') := by
  obtain ⟨crlf, b', hfind, hread, hretrieve, hb'⟩ := hb.exists_line hcut
  exact ⟨b', hb', by simp [parseLoop, hfind, hread, hcolon, hretrieve]⟩

end Rounds

/-! ## The parser follows the reader -/

/-- The loop has a branch for the state, and the method is not set yet when the
request line is due. -/
def Ready (c : HttpContext) : Prop :=
  c.state = .kExpectHeaders ∨ c.state = .kExpectRequestLine ∧ c.request.method = .kInvalid

def untimed (c : HttpContext) : HttpContext := { c with request := c.request.untimed }

/-- How `parseRequest` ends, from a context and the bytes before it. -/
inductive Parsed (c : HttpContext) (d : Text) (done : List HttpRequest) :
    Bool → HttpContext → Text → Prop
  | waits {c' : HttpContext} {rest : Text} (hready : c'.Ready) (hnone : cutLine rest = none)
      (hreads : httpReader.Reaches (⟨c.untimed, done, true⟩, d) (⟨c'.untimed, done, true⟩, rest)) :
      Parsed c d done true c' rest
  | ends {c' : HttpContext} {rest : Text} (hgot : c'.state = .kGotAll)
      (hreads : httpReader.Reaches (⟨c.untimed, done, true⟩, d)
        (⟨.new, done ++ [c'.request.untimed], true⟩, rest)) :
      Parsed c d done true c' rest
  | rejects {line rest : Text} {request : HttpRequest} (hstate : c.state = .kExpectRequestLine)
      (hcut : cutLine d = some (line, rest))
      (hline : c.request.processRequestLine line = some (false, request)) :
      Parsed c d done false { c with request := request } d

variable {c c₁ c' : HttpContext} {b : Buffer} {d rest rest' : Text} {done : List HttpRequest}
  {ok : Bool}

/-- A line is read before the loop goes on with the headers. -/
theorem Parsed.of_step (h : Parsed c₁ rest done ok c' rest')
    (hheaders : c₁.state = .kExpectHeaders)
    (hstep : httpReader.step ⟨c.untimed, done, true⟩ d = some (⟨c₁.untimed, done, true⟩, rest)) :
    Parsed c d done ok c' rest' := by
  cases h with
  | waits hready hnone hreads => exact .waits hready hnone (.head hstep hreads)
  | ends hgot hreads => exact .ends hgot (.head hstep hreads)
  | rejects hstate hcut hline =>
      rw [hheaders] at hstate
      cases hstate

theorem parseLoop_spec (time : ℤ) (done : List HttpRequest) {n : ℕ} (hn : d.length < n)
    (hc : c.Ready) (hb : b.Shows d) : ∃ ok c' b' d',
      parseLoop time n c b = some (ok, c', b') ∧ b'.Shows d' ∧ Parsed c d done ok c' d' := by
  induction n generalizing c b d with
  | zero => omega
  | succ n ih =>
      cases hcut : cutLine d with
      | none =>
          have hstate := hc.symm.imp_left And.left
          exact ⟨true, c, b, d, parseLoop_of_no_line hstate hb hcut time, hb, .waits hc hcut .refl⟩
      | some p =>
          obtain ⟨line, rest⟩ := p
          have hlen := length_of_cutLine hcut
          obtain ⟨state, request⟩ := c
          rcases hc with hstate | ⟨hstate, hinvalid⟩
          · obtain rfl : state = .kExpectHeaders := hstate
            cases hcolon : cutAt 58 line with
            | none =>
                obtain ⟨b', hb', hloop⟩ := parseLoop_end hb hcut hcolon time
                exact ⟨true, _, b', rest, hloop, hb',
                  .ends rfl (.single (Reading.step_end hcut hcolon))⟩
            | some q =>
                obtain ⟨field, value⟩ := q
                obtain ⟨b', hb', hloop⟩ := parseLoop_header hb hcut hcolon time
                obtain ⟨ok, c', b'', d', hrest, hb'', hparsed⟩ :=
                  ih (c := ⟨.kExpectHeaders, request.addHeader field value⟩) (by omega)
                    (.inl rfl) hb'
                exact ⟨ok, c', b'', d', hloop.trans hrest, hb'',
                  hparsed.of_step rfl (Reading.step_header hcut hcolon)⟩
          · obtain rfl : state = .kExpectRequestLine := hstate
            obtain ⟨valid, request', hline⟩ := HttpRequest.exists_processRequestLine hinvalid line
            cases valid with
            | false =>
                exact ⟨false, _, b, d, parseLoop_rejected hb hcut hline time, hb,
                  .rejects rfl hcut hline⟩
            | true =>
                have huntimed := HttpRequest.processRequestLine_untimed line request
                rw [hline] at huntimed
                obtain ⟨b', hb', hloop⟩ := parseLoop_requestLine hb hcut hline time
                obtain ⟨ok, c', b'', d', hrest, hb'', hparsed⟩ :=
                  ih (c := ⟨.kExpectHeaders, { request' with receiveTime := time }⟩) (by omega)
                    (.inl rfl) hb'
                exact ⟨ok, c', b'', d', hloop.trans hrest, hb'',
                  hparsed.of_step rfl (Reading.step_requestLine hcut huntimed)⟩

end HttpContext

end PpDSCache.Http
