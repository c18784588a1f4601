import PpDSCache.Abstract.Runs
import PpDSCache.Http.HttpReader
import PpDSCache.Http.HttpServer

/-!
# One request per message

The server answers the requests of the stream in their order, one for each
message that arrives at most.  A request that is complete waits for the next
message when another one was answered first.
-/

namespace PpDSCache.Http

open Cpp Text Net Abstract

/-! ## What the stream holds -/

def requestsIn (stream : Text) : List HttpRequest := (httpReader.drain .new stream).1.done

/-- A line of the stream is no request line where one is due. -/
def malformed (stream : Text) : Bool := !(httpReader.drain .new stream).1.ok

/-- What no request of the stream holds. -/
def unread (stream : Text) : Text := (httpReader.drain .new stream).2

/-- The first line begins with the name of a method. -/
def KnownMethod (d : Text) : Prop :=
  ∃ line rest method tail, cutLine d = some (line, rest) ∧ cutAt 32 line = some (method, tail) ∧
    HttpRequest.methodOf method ≠ .kInvalid

theorem prefix_done_drain (r : Reading) (d : Text) : r.done <+: (httpReader.drain r d).1.done := by
  induction r, d using StreamReader.drain_induction (R := httpReader) with
  | hnone r d h => rw [StreamReader.drain_of_none h]
  | hstep r d t rest h ih =>
      rw [StreamReader.drain_of_step h]
      exact (Reading.prefix_done_of_step h).trans ih

theorem drain_of_rejected {c : HttpContext} {done : List HttpRequest} {d line rest : Text}
    {request : HttpRequest} (hstate : c.state = .kExpectRequestLine)
    (hcut : cutLine d = some (line, rest))
    (hline : c.request.processRequestLine line = some (false, request)) :
    httpReader.drain ⟨c, done, true⟩ d = (⟨c, done, false⟩, d) := by
  obtain ⟨state, r⟩ := c
  obtain rfl : state = .kExpectRequestLine := hstate
  have hstep : httpReader.step ⟨⟨.kExpectRequestLine, r⟩, done, true⟩ d =
      some (⟨⟨.kExpectRequestLine, r⟩, done, false⟩, d) := Reading.step_rejected hcut hline
  rw [StreamReader.drain_of_step hstep]
  exact StreamReader.drain_of_none rfl

/-! ## The answers -/

namespace HttpConnection

variable (data : Text) (s : HttpConnection)

@[simp] theorem handled_send : (s.send data).handled = s.handled := by
  unfold send
  split_ifs <;> rfl

@[simp] theorem inputBuffer_send : (s.send data).inputBuffer = s.inputBuffer := by
  unfold send
  split_ifs <;> rfl

@[simp] theorem context_send : (s.send data).context = s.context := by
  unfold send
  split_ifs <;> rfl

end HttpConnection

namespace HttpServer

variable (httpCallback : HttpCallback)

/-- The responses up to the first that closes the connection, and whether none
of them does. -/
def written (handled : List HttpRequest) : Text × Bool :=
  handled.foldl
    (fun p req ↦
      if p.2 = true then
        (p.1 ++ (response httpCallback req).text, !(response httpCallback req).closeConnection)
      else p)
    ([], true)

/-- The same with the answer to a malformed line behind them. -/
def output (handled : List HttpRequest) (rejected : Bool) : Text × Bool :=
  let p := written httpCallback handled
  if rejected = true then
    (p.1 ++ if p.2 = true then ascii "HTTP/1.1 400 Bad Request" ++ crlf ++ crlf else [], false)
  else p

variable {httpCallback} {s : HttpConnection}

theorem output_onRequest (h : (s.sent, s.connected) = output httpCallback s.handled false)
    (req : HttpRequest) :
    ((onRequest httpCallback req s).sent, (onRequest httpCallback req s).connected) =
      output httpCallback (s.handled ++ [req]) false := by
  have hwritten : written httpCallback s.handled = (s.sent, s.connected) := h.symm
  simp only [output, written, List.foldl_append, List.foldl_cons, List.foldl_nil] at hwritten ⊢
  rw [hwritten]
  cases hconnected : s.connected <;>
    cases hclose : (response httpCallback req).closeConnection <;>
    simp [onRequest, HttpConnection.send, HttpConnection.shutdown, hconnected, hclose]

theorem output_badRequest {rejected : Bool}
    (h : (s.sent, s.connected) = output httpCallback s.handled rejected) :
    ((badRequest s).sent, (badRequest s).connected) = output httpCallback s.handled true := by
  cases rejected with
  | false =>
      have hwritten : written httpCallback s.handled = (s.sent, s.connected) := h.symm
      cases hconnected : s.connected <;>
        simp [output, badRequest, HttpConnection.send, HttpConnection.shutdown, hwritten,
          hconnected]
  | true =>
      have hconnected : s.connected = false := congrArg Prod.snd h
      rw [← h]
      simp [badRequest, HttpConnection.send, HttpConnection.shutdown, hconnected]

@[simp] theorem handled_onRequest (req : HttpRequest) :
    (onRequest httpCallback req s).handled = s.handled ++ [req] := by
  simp only [onRequest, HttpConnection.shutdown]
  split_ifs <;> simp

@[simp] theorem inputBuffer_onRequest (req : HttpRequest) :
    (onRequest httpCallback req s).inputBuffer = s.inputBuffer := by
  simp only [onRequest, HttpConnection.shutdown]
  split_ifs <;> simp

@[simp] theorem handled_badRequest : (badRequest s).handled = s.handled :=
  HttpConnection.handled_send _ s

@[simp] theorem inputBuffer_badRequest : (badRequest s).inputBuffer = s.inputBuffer :=
  HttpConnection.inputBuffer_send _ s

@[simp] theorem context_badRequest : (badRequest s).context = s.context :=
  HttpConnection.context_send _ s

theorem onParsed_waits (h : s.context.Ready) : onParsed httpCallback true s = s := by
  rcases h with h | ⟨h, -⟩ <;> simp [onParsed, HttpContext.gotAll, h]

theorem onParsed_ends (h : s.context.state = .kGotAll) : onParsed httpCallback true s =
    { onRequest httpCallback s.context.request s with context := .new } := by
  simp [onParsed, HttpContext.gotAll, h]

theorem onParsed_rejects (h : s.context.state = .kExpectRequestLine) :
    onParsed httpCallback false s = badRequest s := by
  simp [onParsed, HttpContext.gotAll, h]

/-! ## What is served -/

/-- The stream so far, how many of its requests were answered, and whether the
last message found a malformed line in front. -/
structure Served where
  stream : Text
  turns : ℕ
  rejected : Bool

def Served.next (v : Served) (m : Message) : Served where
  stream := v.stream ++ m.data
  turns := min (v.turns + 1) (requestsIn (v.stream ++ m.data)).length
  rejected :=
    malformed (v.stream ++ m.data) && (requestsIn (v.stream ++ m.data)).length == v.turns

def served (ms : List Message) : Served := ms.foldl Served.next ⟨[], 0, false⟩

variable (httpCallback) in
/-- The connection has read the stream as far as its requests were answered. -/
structure Follows (v : Served) (c : HttpContext) (d : Text) (s : HttpConnection) : Prop where
  shows : s.inputBuffer.Shows d
  ready : c.Ready
  reads : httpReader.Reaches (.new, v.stream)
    (⟨c.untimed, s.handled.map HttpRequest.untimed, true⟩, d)
  turns : v.turns = s.handled.length
  output : (s.sent, s.connected) = output httpCallback s.handled v.rejected

/-- The context after the malformed line in front. -/
def Rejects (c : HttpContext) (d : Text) (context : HttpContext) : Prop :=
  ∃ line rest request, c.state = .kExpectRequestLine ∧ cutLine d = some (line, rest) ∧
    c.request.processRequestLine line = some (false, request) ∧
    context = { c with request := request }

variable (httpCallback) in
def Serves (v : Served) (s : HttpConnection) : Prop :=
  ∃ c d, Follows httpCallback v c d s ∧
    (v.rejected = false ∧ s.context = c ∨ v.rejected = true ∧ Rejects c d s.context)

/-- The array of the buffer can hold the message. -/
def Fits (m : Message) (s : HttpConnection) : Prop :=
  s.inputBuffer.writerIndex + m.data.length < 2 ^ 63

instance (m : Message) (s : HttpConnection) : Decidable (Fits m s) :=
  inferInstanceAs (Decidable (_ < _))

section Message

variable {v : Served} {c : HttpContext} {d : Text} {m : Message}

theorem Follows.reads_more (h : Follows httpCallback v c d s) (more : Text) :
    httpReader.drain .new (v.stream ++ more) =
      httpReader.drain ⟨c.untimed, s.handled.map HttpRequest.untimed, true⟩ (d ++ more) :=
  (h.reads.append more).drain_eq

/-- What the parser makes of the data is handed on. -/
theorem Follows.exec_eq (h : Follows httpCallback v c d s) (hfits : Fits m s) :
    ∃ b : Buffer, b.Shows (d ++ m.data) ∧ exec httpCallback m s =
      (HttpContext.parseLoop m.receiveTime ((d ++ m.data).length + 1) s.context b).map fun p ↦
        onParsed httpCallback p.1 { s with context := p.2.1, inputBuffer := p.2.2 } := by
  obtain ⟨b, hread, hb⟩ := h.shows.readFd hfits
  refine ⟨b, hb, ?_⟩
  rw [← hb.readableBytes, Option.map_eq_bind]
  simp only [exec, hread, onMessage, HttpContext.parseRequest, Option.bind_eq_bind,
    Option.bind_some]
  rfl

theorem requestsIn_of_drain {stream rest : Text} {r : Reading}
    (h : httpReader.drain .new stream = (r, rest)) :
    requestsIn stream = r.done ∧ malformed stream = !r.ok := by
  rw [requestsIn, malformed, h]
  exact ⟨rfl, rfl⟩

/-- A malformed line in front. -/
theorem Follows.exec_rejects (h : Follows httpCallback v c d s) (hcontext : s.context = c)
    (hfits : Fits m s) {context : HttpContext} (hrejects : Rejects c (d ++ m.data) context) :
    ∃ t, exec httpCallback m s = some t ∧ Serves httpCallback (v.next m) t := by
  obtain ⟨b, hb, hexec⟩ := h.exec_eq hfits
  obtain ⟨line, rest, request, hstate, hcut, hline, rfl⟩ := hrejects
  have huntimed := HttpRequest.processRequestLine_untimed line c.request
  rw [hline] at huntimed
  have hdrain := h.reads_more m.data
  rw [drain_of_rejected (c := c.untimed) hstate hcut huntimed] at hdrain
  obtain ⟨hdone, hmalformed⟩ := requestsIn_of_drain hdrain
  have hnext : v.next m = ⟨v.stream ++ m.data, v.turns, true⟩ := by
    simp [Served.next, hdone, hmalformed, h.turns]
  obtain ⟨state, r⟩ := c
  obtain rfl : state = .kExpectRequestLine := hstate
  rw [hcontext, HttpContext.parseLoop_rejected hb hcut hline, Option.map_some] at hexec
  rw [onParsed_rejects rfl] at hexec
  have hstream := h.reads.append m.data
  refine ⟨_, hexec, ⟨.kExpectRequestLine, r⟩, d ++ m.data, ?_, .inr ⟨by rw [hnext], ?_⟩⟩
  · rw [hnext]
    refine ⟨?_, h.ready, ?_, ?_, ?_⟩
    · simpa using hb
    · simpa using hstream
    · simpa using h.turns
    · simpa using output_badRequest (s := { s with context := _, inputBuffer := b }) h.output
  · exact ⟨line, rest, request, rfl, hcut, hline, context_badRequest⟩

/-- A line that sets the method again. -/
theorem Follows.exec_known (h : Follows httpCallback v c d s) (hrejects : Rejects c d s.context)
    (hfits : Fits m s) (hknown : KnownMethod d) : exec httpCallback m s = none := by
  obtain ⟨b, hb, hexec⟩ := h.exec_eq hfits
  obtain ⟨line, rest, request, hstate, hcut, hline, hcontext⟩ := hrejects
  obtain ⟨line', rest', method, tail, hcut', hspace, hmethod⟩ := hknown
  cases hcut.symm.trans hcut'
  have hinvalid : c.request.method = .kInvalid := by
    rcases h.ready with hheaders | ⟨-, hinvalid⟩
    · cases hheaders.symm.trans hstate
    · exact hinvalid
  have hset : request.method ≠ .kInvalid := by
    rcases HttpRequest.rejected_cases hinvalid hline with ⟨_, _, hspace', hne, hstored⟩ | ⟨hnone, -⟩
    · rwa [hstored]
    · exact absurd (hnone method tail hspace) hmethod
  rw [hexec, hcontext, hstate,
    HttpContext.parseLoop_of_method hb (cutLine_append hcut m.data) hspace hset, Option.map_none]

theorem Follows.exec_ready (h : Follows httpCallback v c d s) (hcontext : s.context = c)
    (hfresh : v.rejected = false) (hfits : Fits m s) :
    ∃ t, exec httpCallback m s = some t ∧ Serves httpCallback (v.next m) t := by
  obtain ⟨b, hb, hexec⟩ := h.exec_eq hfits
  obtain ⟨ok, c', b', d', hloop, hb', hparsed⟩ := HttpContext.parseLoop_spec m.receiveTime
    (s.handled.map HttpRequest.untimed) (Nat.lt_succ_self _) h.ready hb
  have hstream := h.reads.append m.data
  have houtput := h.output
  rw [hfresh] at houtput
  rw [hcontext, hloop, Option.map_some] at hexec
  cases hparsed with
  | waits hready hnone hreads =>
      have hreaches : httpReader.Reaches (.new, v.stream ++ m.data)
        (⟨c'.untimed, s.handled.map HttpRequest.untimed, true⟩, d') := hstream.trans hreads
      have hstop := Reading.step_of_no_line
        (r := ⟨c'.untimed, s.handled.map HttpRequest.untimed, true⟩) hnone
      have hdrain := hreaches.drain_eq.trans (StreamReader.drain_of_none (R := httpReader) hstop)
      obtain ⟨hdone, hmalformed⟩ := requestsIn_of_drain hdrain
      have hnext : v.next m = ⟨v.stream ++ m.data, v.turns, false⟩ := by
        simp [Served.next, hdone, hmalformed, h.turns]
      rw [onParsed_waits hready] at hexec
      refine ⟨_, hexec, c', d', ?_, .inl ⟨by rw [hnext], rfl⟩⟩
      rw [hnext]
      exact ⟨hb', hready, hreaches, h.turns, houtput⟩
  | ends hgot hreads =>
      have hreaches : httpReader.Reaches (.new, v.stream ++ m.data)
        (⟨.new, s.handled.map HttpRequest.untimed ++ [c'.request.untimed], true⟩, d') :=
        hstream.trans hreads
      have hprefix : (s.handled ++ [c'.request]).map HttpRequest.untimed <+:
          requestsIn (v.stream ++ m.data) := by
        rw [requestsIn, hreaches.drain_eq, List.map_append]
        exact prefix_done_drain ⟨.new, _, true⟩ d'
      have hlen := hprefix.length_le
      rw [List.length_map, List.length_append, List.length_singleton] at hlen
      have hnext : v.next m = ⟨v.stream ++ m.data, v.turns + 1, false⟩ := by
        have hne : (requestsIn (v.stream ++ m.data)).length ≠ v.turns := by
          have hturns := h.turns
          omega
        have hmin : min (v.turns + 1) (requestsIn (v.stream ++ m.data)).length = v.turns + 1 :=
          min_eq_left (by have hturns := h.turns; omega)
        simp [Served.next, hmin, hne]
      rw [onParsed_ends hgot] at hexec
      refine ⟨_, hexec, .new, d', ?_, .inl ⟨by rw [hnext], rfl⟩⟩
      rw [hnext]
      refine ⟨?_, .inr ⟨rfl, rfl⟩, ?_, ?_, ?_⟩
      · simpa using hb'
      · rw [handled_onRequest, List.map_append]
        exact hreaches
      · simp [h.turns]
      · simpa using output_onRequest (s := { s with context := c', inputBuffer := b' }) houtput
          c'.request
  | rejects hstate hcut hline =>
      exact h.exec_rejects hcontext hfits ⟨_, _, _, hstate, hcut, hline, rfl⟩

end Message

/-! ## Runs -/

/-- The malformed line in front sets the method. -/
def Served.Fatal (v : Served) : Prop := v.rejected = true ∧ KnownMethod (unread v.stream)

section Runs

variable {v : Served} {m : Message} {ms : List Message} {t : HttpConnection}

theorem serves_new : Serves httpCallback ⟨[], 0, false⟩ .new :=
  ⟨.new, [], ⟨Buffer.shows_new (by norm_num [Buffer.kCheapPrepend, Buffer.kInitialSize]),
    .inr ⟨rfl, rfl⟩, .refl, rfl, rfl⟩, .inl ⟨rfl, rfl⟩⟩

theorem Serves.exec (h : Serves httpCallback v s) (hfits : Fits m s) :
    v.Fatal ∧ exec httpCallback m s = none ∨
      ¬ v.Fatal ∧ ∃ t, exec httpCallback m s = some t ∧ Serves httpCallback (v.next m) t := by
  obtain ⟨c, d, h, ⟨hfresh, hcontext⟩ | ⟨hrejected, hrejects⟩⟩ := h
  · refine .inr ⟨fun hfatal ↦ ?_, h.exec_ready hcontext hfresh hfits⟩
    cases hfresh.symm.trans hfatal.1
  · have hunread : unread v.stream = d := by
      obtain ⟨line, rest, request, hstate, hcut, hline, -⟩ := hrejects
      have huntimed := HttpRequest.processRequestLine_untimed line c.request
      rw [hline] at huntimed
      have hdrain := h.reads.drain_eq.trans
        (drain_of_rejected (c := c.untimed) hstate hcut huntimed)
      rw [unread, hdrain]
    by_cases hknown : KnownMethod d
    · exact .inl ⟨⟨hrejected, hunread ▸ hknown⟩, h.exec_known hrejects hfits hknown⟩
    · refine .inr ⟨fun hfatal ↦ hknown (hunread ▸ hfatal.2), ?_⟩
      obtain ⟨line, rest, request, hstate, hcut, hline, hcontext⟩ := hrejects
      have hinvalid : c.request.method = .kInvalid := by
        rcases h.ready with hheaders | ⟨-, hinvalid⟩
        · cases hheaders.symm.trans hstate
        · exact hinvalid
      rcases HttpRequest.rejected_cases hinvalid hline with ⟨_, _, hspace, hne, -⟩ | ⟨-, rfl⟩
      · exact absurd ⟨line, rest, _, _, hcut, hspace, hne⟩ hknown
      · exact h.exec_rejects hcontext hfits
          ⟨line, _, _, hstate, cutLine_append hcut m.data, hline, rfl⟩

theorem Serves.runAll (hfits : EachStep (HttpServer.exec httpCallback) Fits ms s)
    (h : Serves httpCallback v s)
    (hrun : Abstract.runAll (HttpServer.exec httpCallback) ms s = some t) :
    Serves httpCallback (ms.foldl Served.next v) t := by
  induction ms generalizing v s with
  | nil =>
      obtain rfl : s = t := Option.some.inj hrun
      exact h
  | cons m ms ih =>
      obtain ⟨r, hr, hrest⟩ := runAll_cons_iff.mp hrun
      rcases h.exec hfits.1 with ⟨-, hnone⟩ | ⟨-, r', hr', hserves⟩
      · cases hnone.symm.trans hr
      · cases hr'.symm.trans hr
        exact ih (hfits.2 r hr) hserves hrest

theorem Serves.exists_runAll_iff (hfits : EachStep (HttpServer.exec httpCallback) Fits ms s)
    (h : Serves httpCallback v s) :
    (∃ t, Abstract.runAll (HttpServer.exec httpCallback) ms s = some t) ↔
      ∀ pre m, pre ++ [m] <+: ms → ¬ (pre.foldl Served.next v).Fatal := by
  induction ms generalizing v s with
  | nil => exact ⟨fun _ pre m hpre ↦ by simp at hpre, fun _ ↦ ⟨s, rfl⟩⟩
  | cons m ms ih =>
      rcases h.exec hfits.1 with ⟨hfatal, hnone⟩ | ⟨hsound, r, hr, hserves⟩
      · refine ⟨fun ⟨t, ht⟩ ↦ ?_, fun hall ↦ absurd hfatal (hall [] m (by simp))⟩
        obtain ⟨r, hr, -⟩ := runAll_cons_iff.mp ht
        cases hnone.symm.trans hr
      · have hiff := ih (hfits.2 r hr) hserves
        constructor
        · rintro ⟨t, ht⟩ pre m' hpre
          obtain ⟨r', hr', hrest⟩ := runAll_cons_iff.mp ht
          cases hr.symm.trans hr'
          cases pre with
          | nil => exact hsound
          | cons p pre =>
              obtain ⟨rfl, htail⟩ := List.cons_prefix_cons.mp hpre
              exact hiff.mp ⟨t, hrest⟩ pre m' htail
        · intro hall
          obtain ⟨t, ht⟩ := hiff.mpr fun pre m' hpre ↦
            hall (m :: pre) m' (List.cons_prefix_cons.mpr ⟨rfl, hpre⟩)
          exact ⟨t, runAll_cons_iff.mpr ⟨r, hr, ht⟩⟩

variable (httpCallback) in
/-- The server stops at an assertion if and only if a message arrives behind a
malformed line that begins with the name of a method and was answered. -/
theorem server_survives_iff (hfits : EachStep (HttpServer.exec httpCallback) Fits ms .new) :
    (∃ s, Abstract.runAll (HttpServer.exec httpCallback) ms .new = some s) ↔
      ∀ pre m, pre ++ [m] <+: ms → ¬ (served pre).Fatal :=
  serves_new.exists_runAll_iff hfits

/-- A request line without a version, and one byte more. -/
def fatal : List Message := [⟨1, ascii "GET /\r\n"⟩, ⟨2, ascii "x"⟩]

theorem server_stops_fatal :
    (served [⟨1, ascii "GET /\r\n"⟩]).Fatal ∧
      ¬ ∃ s, Abstract.runAll (HttpServer.exec defaultHttpCallback) fatal .new = some s := by
  have hfatal : (served [⟨1, ascii "GET /\r\n"⟩]).Fatal :=
    ⟨by decide +kernel, ascii "GET /", [], ascii "GET", ascii "/", by decide +kernel, by decide,
      by decide⟩
  refine ⟨hfatal, fun hruns ↦ ?_⟩
  have hfits : EachStep (HttpServer.exec defaultHttpCallback) Fits fatal .new := by decide +kernel
  have hall := (server_survives_iff defaultHttpCallback hfits).mp hruns
  exact hall [⟨1, ascii "GET /\r\n"⟩] ⟨2, ascii "x"⟩ List.prefix_rfl hfatal

end Runs

end HttpServer

end PpDSCache.Http
