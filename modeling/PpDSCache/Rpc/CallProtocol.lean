import PpDSCache.Rpc.RpcChannel

/-!
# The calls of one end

The calls of one end of a connection on their way: in the threads that make
them, as requests to the other end, with its services, as responses on the way
back, and completed.  A call is in one of these places at a time.
-/

namespace PpDSCache.Rpc

open Cpp RpcChannel

structure CallView where
  id : ℕ
  calls : List RpcCall
  starting : List (ℕ × RpcCall)
  registered : List (ℕ × RpcCall)
  outstandings : ℕ → Option RpcCall
  /-- on the way to the other end -/
  requests : List RpcMessage
  /-- at the other end -/
  running : List Running
  answered : List (Running × Text)
  /-- on the way back -/
  responses : List RpcMessage
  completed : List Completed

/-- `services` are those of the other end. -/
inductive CallStep (services : Option Services) : CallView → CallView → Prop
  | takeId (v : CallView) (call : RpcCall) :
      CallStep services v { v with
        id := (v.id + 1) % 2 ^ 64
        starting := v.starting ++ [((v.id + 1) % 2 ^ 64, call)]
        calls := v.calls ++ [call] }
  | register {v : CallView} {pre post : List (ℕ × RpcCall)} {p : ℕ × RpcCall}
      (h : v.starting = pre ++ p :: post) :
      CallStep services v { v with
        starting := pre ++ post
        outstandings := Function.update v.outstandings p.1 (some p.2)
        registered := v.registered ++ [p] }
  | sendRequest {v : CallView} {pre post : List (ℕ × RpcCall)} {p : ℕ × RpcCall}
      (h : v.registered = pre ++ p :: post) :
      CallStep services v { v with
        registered := pre ++ post
        requests := v.requests ++ [requestMessage p.1 p.2] }
  | accept {v : CallView} {m : RpcMessage} {ms : List RpcMessage} (h : v.requests = m :: ms)
      (herror : findError services (m.service.getD []) (m.method.getD []) (m.request.getD []) =
        .NO_ERROR) :
      CallStep services v { v with
        requests := ms
        running := v.running ++
          [⟨m.id, m.service.getD [], m.method.getD [], m.request.getD []⟩] }
  | refuse {v : CallView} {m : RpcMessage} {ms : List RpcMessage} {error : ErrorCode}
      (h : v.requests = m :: ms)
      (herror : findError services (m.service.getD []) (m.method.getD []) (m.request.getD []) =
        error)
      (hne : error ≠ .NO_ERROR) :
      CallStep services v { v with
        requests := ms
        responses := v.responses ++ [errorMessage m.id error] }
  | doneCallback {v : CallView} {pre post : List Running} {r : Running} (response : Text)
      (h : v.running = pre ++ r :: post) :
      CallStep services v { v with
        running := pre ++ post
        answered := v.answered ++ [(r, response)]
        responses := v.responses ++ [responseMessage r.id response] }
  | complete {v : CallView} {m : RpcMessage} {ms : List RpcMessage} {out : RpcCall}
      (h : v.responses = m :: ms) (hout : v.outstandings m.id = some out) :
      CallStep services v { v with
        responses := ms
        outstandings := Function.update v.outstandings m.id none
        completed := v.completed ++ [⟨m.id, out, m.response⟩] }
  | stray {v : CallView} {m : RpcMessage} {ms : List RpcMessage} (h : v.responses = m :: ms)
      (hout : v.outstandings m.id = none) :
      CallStep services v { v with responses := ms }

namespace CallView

def callOf (v : CallView) (id : ℕ) : Option RpcCall := v.calls[id - 1]?

/-- The calls that wait for their response. -/
def waiting (v : CallView) : List ℕ :=
  v.registered.map Prod.fst ++
    (v.requests.map RpcMessage.id ++
      (v.running.map Running.id ++ v.responses.map RpcMessage.id))

/-- The calls whose response is on the way back or has arrived. -/
def returned (v : CallView) : List ℕ :=
  v.responses.map RpcMessage.id ++ v.completed.map Completed.id

def ids (v : CallView) : List ℕ :=
  v.starting.map Prod.fst ++ (v.waiting ++ v.completed.map Completed.id)

end CallView

/-- The request is the call's, and there is a service for it. -/
structure Serves (services : Option Services) (call : RpcCall) (r : Running) : Prop where
  service : r.service = call.service
  method : r.method = call.method
  request : r.request = call.request
  noError : findError services call.service call.method call.request = .NO_ERROR

/-- A response is what a service answered to the call, or there is no service
for the call. -/
def Explains (services : Option Services) (answered : List (Running × Text)) (id : ℕ)
    (call : RpcCall) (response : Option Text) (error : Option ErrorCode) : Prop :=
  (∃ r text, (r, text) ∈ answered ∧ r.id = id ∧ Serves services call r ∧ response = some text) ∨
    response = none ∧ error = some (findError services call.service call.method call.request) ∧
      findError services call.service call.method call.request ≠ .NO_ERROR

theorem Explains.mono {services : Option Services} {answered answered' : List (Running × Text)}
    {id : ℕ} {call : RpcCall} {response : Option Text} {error : Option ErrorCode}
    (h : Explains services answered id call response error) (hsub : answered ⊆ answered') :
    Explains services answered' id call response error := by
  rcases h with ⟨r, text, hmem, hr⟩ | h
  · exact .inl ⟨r, text, hsub hmem, hr⟩
  · exact .inr h

structure CallView.Valid (services : Option Services) (v : CallView) : Prop where
  count : v.id = v.calls.length
  perm : v.ids.Perm (List.range' 1 v.calls.length)
  outstandings : ∀ id, v.outstandings id = if id ∈ v.waiting then v.callOf id else none
  starting : ∀ p ∈ v.starting, v.callOf p.1 = some p.2
  registered : ∀ p ∈ v.registered, v.callOf p.1 = some p.2
  requests : ∀ m ∈ v.requests, ∃ call, v.callOf m.id = some call ∧ m = requestMessage m.id call
  running : ∀ r ∈ v.running, ∃ call, v.callOf r.id = some call ∧ Serves services call r
  responses : ∀ m ∈ v.responses, ∃ call, v.callOf m.id = some call ∧
    Explains services v.answered m.id call m.response m.error
  completed : ∀ p ∈ v.completed, v.callOf p.id = some p.call ∧
    ∃ error, Explains services v.answered p.id p.call p.response error
  answeredOnce : (v.answered.map fun a ↦ a.1.id).Nodup
  answered_returned : ∀ a ∈ v.answered, a.1.id ∈ v.returned

namespace CallView.Valid

variable {services : Option Services} {v w : CallView}

theorem nodup (h : v.Valid services) : v.ids.Nodup := h.perm.nodup_iff.mpr (List.nodup_range' ..)

theorem callOf_append {id : ℕ} {call : RpcCall} (h : v.callOf id = some call)
    (hcalls : ∃ more, w.calls = v.calls ++ more) : w.callOf id = some call := by
  obtain ⟨more, hcalls⟩ := hcalls
  obtain ⟨hlt, -⟩ := List.getElem?_eq_some_iff.mp h
  rw [CallView.callOf, hcalls, List.getElem?_append_left hlt]
  exact h

/-- The call moves on without a change to what its end knows. -/
theorem of_moved (h : v.Valid services) (hid : w.id = v.id) (hcalls : w.calls = v.calls)
    (hstarting : w.starting = v.starting) (hout : w.outstandings = v.outstandings)
    (hcompleted : w.completed = v.completed) (hwaiting : w.waiting.Perm v.waiting)
    (hanswered : v.answered ⊆ w.answered)
    (hregistered : ∀ p ∈ w.registered, v.callOf p.1 = some p.2)
    (hrequests : ∀ m ∈ w.requests, ∃ call, v.callOf m.id = some call ∧ m = requestMessage m.id call)
    (hrunning : ∀ r ∈ w.running, ∃ call, v.callOf r.id = some call ∧ Serves services call r)
    (hresponses : ∀ m ∈ w.responses, ∃ call, v.callOf m.id = some call ∧
      Explains services w.answered m.id call m.response m.error)
    (honce : (w.answered.map fun a ↦ a.1.id).Nodup)
    (hreturned : ∀ a ∈ w.answered, a.1.id ∈ w.returned) : w.Valid services := by
  have hcallOf : w.callOf = v.callOf := by
    funext id
    rw [CallView.callOf, CallView.callOf, hcalls]
  have hids : w.ids.Perm v.ids := by
    rw [CallView.ids, CallView.ids, hstarting, hcompleted]
    exact (hwaiting.append_right _).append_left _
  rw [← hcallOf] at hregistered hrequests hrunning hresponses
  refine ⟨by rw [hid, hcalls, h.count], by rw [hcalls]; exact hids.trans h.perm, fun id ↦ ?_, ?_,
    hregistered, hrequests, hrunning, hresponses, ?_, honce, hreturned⟩
  · rw [hout, h.outstandings, hcallOf]
    exact if_congr hwaiting.mem_iff.symm rfl rfl
  · rw [hstarting, hcallOf]
    exact h.starting
  · rw [hcompleted, hcallOf]
    intro p hp
    obtain ⟨hcall, error, hexplains⟩ := h.completed p hp
    exact ⟨hcall, error, hexplains.mono hanswered⟩

theorem takeId (h : v.Valid services) (hroom : v.calls.length + 1 < 2 ^ 64) (call : RpcCall) :
    CallView.Valid services { v with
      id := (v.id + 1) % 2 ^ 64
      starting := v.starting ++ [((v.id + 1) % 2 ^ 64, call)]
      calls := v.calls ++ [call] } := by
  have hid : (v.id + 1) % 2 ^ 64 = v.calls.length + 1 := by
    rw [h.count, Nat.mod_eq_of_lt hroom]
  have hgrow : ∀ {id : ℕ} {c : RpcCall}, v.callOf id = some c →
      CallView.callOf { v with calls := v.calls ++ [call] } id = some c :=
    fun hc ↦ callOf_append hc ⟨[call], rfl⟩
  have hexists : ∀ {id : ℕ} {P : RpcCall → Prop}, (∃ c, v.callOf id = some c ∧ P c) →
      ∃ c, CallView.callOf { v with calls := v.calls ++ [call] } id = some c ∧ P c :=
    fun ⟨c, hc, hP⟩ ↦ ⟨c, hgrow hc, hP⟩
  rw [hid]
  refine ⟨by simp, ?_, fun id ↦ ?_, ?_, fun p hp ↦ hgrow (h.registered p hp),
    fun m hm ↦ hexists (h.requests m hm), fun r hr ↦ hexists (h.running r hr),
    fun m hm ↦ hexists (h.responses m hm),
    fun p hp ↦ ⟨hgrow (h.completed p hp).1, (h.completed p hp).2⟩, h.answeredOnce,
    h.answered_returned⟩
  · have hmore : CallView.ids { v with
        starting := v.starting ++ [(v.calls.length + 1, call)] } |>.Perm
        (v.ids ++ [v.calls.length + 1]) := by
      rw [List.perm_iff_count]
      intro a
      simp [CallView.ids, CallView.waiting, List.count_append, List.count_cons]
      omega
    refine hmore.trans ?_
    rw [List.length_append, List.length_singleton, List.range'_concat, Nat.one_mul,
      Nat.add_comm 1]
    exact h.perm.append_right _
  · change v.outstandings id = if id ∈ v.waiting then (v.calls ++ [call])[id - 1]? else none
    rw [h.outstandings]
    by_cases hmem : id ∈ v.waiting
    · have hrange : id ∈ List.range' 1 v.calls.length :=
        h.perm.mem_iff.mp (by simp [CallView.ids, hmem])
      rw [List.mem_range'_1] at hrange
      have hlt : id - 1 < v.calls.length := by omega
      rw [if_pos hmem, if_pos hmem, CallView.callOf, List.getElem?_append_left hlt]
    · rw [if_neg hmem, if_neg hmem]
  · intro p hp
    rcases List.mem_append.mp hp with hp | hp
    · exact hgrow (h.starting p hp)
    · rw [List.mem_singleton] at hp
      rw [hp, CallView.callOf]
      exact List.getElem?_concat_length ..

theorem register (h : v.Valid services) {pre post : List (ℕ × RpcCall)} {p : ℕ × RpcCall}
    (hstarting : v.starting = pre ++ p :: post) :
    CallView.Valid services { v with
      starting := pre ++ post
      outstandings := Function.update v.outstandings p.1 (some p.2)
      registered := v.registered ++ [p] } := by
  have hp : v.callOf p.1 = some p.2 := h.starting p (by simp [hstarting])
  refine ⟨h.count, ?_, fun id ↦ ?_, ?_, ?_, h.requests, h.running, h.responses, h.completed,
    h.answeredOnce, h.answered_returned⟩
  · refine List.Perm.trans ?_ h.perm
    simp only [CallView.ids, CallView.waiting, hstarting, List.perm_iff_count]
    intro a
    simp [List.count_append, List.count_cons]
    omega
  · have hmem : id ∈ CallView.waiting { v with registered := v.registered ++ [p] } ↔
        id = p.1 ∨ id ∈ v.waiting := by
      rw [← List.mem_cons]
      apply List.Perm.mem_iff
      rw [List.perm_iff_count]
      intro a
      simp [CallView.waiting, List.count_append, List.count_cons]
      omega
    change Function.update v.outstandings p.1 (some p.2) id =
      if id ∈ CallView.waiting { v with registered := v.registered ++ [p] } then v.callOf id
      else none
    by_cases heq : id = p.1
    · rw [if_pos (hmem.mpr (.inl heq)), heq, Function.update_self, hp]
    · rw [Function.update_of_ne heq, h.outstandings]
      exact if_congr (hmem.trans (or_iff_right heq)).symm rfl rfl
  · intro q hq
    apply h.starting q
    rw [hstarting]
    rcases List.mem_append.mp hq with hq | hq <;> simp [hq]
  · intro q hq
    rcases List.mem_append.mp hq with hq | hq
    · exact h.registered q hq
    · rw [List.mem_singleton] at hq
      rw [hq]
      exact hp

theorem complete (h : v.Valid services) {m : RpcMessage} {ms : List RpcMessage} {out : RpcCall}
    (hresponses : v.responses = m :: ms) (hout : v.outstandings m.id = some out) :
    CallView.Valid services { v with
      responses := ms
      outstandings := Function.update v.outstandings m.id none
      completed := v.completed ++ [⟨m.id, out, m.response⟩] } := by
  have hm : m ∈ v.responses := by simp [hresponses]
  have hperm : v.waiting.Perm (m.id :: CallView.waiting { v with responses := ms }) := by
    rw [List.perm_iff_count]
    intro a
    simp [CallView.waiting, hresponses, List.count_append, List.count_cons]
    omega
  have hnodup : (m.id :: CallView.waiting { v with responses := ms }).Nodup := by
    rw [← hperm.nodup_iff]
    exact (List.nodup_append.mp (List.nodup_append.mp h.nodup).2.1).1
  have hcall : v.callOf m.id = some out := by
    rw [h.outstandings, if_pos (hperm.mem_iff.mpr List.mem_cons_self)] at hout
    exact hout
  refine ⟨h.count, ?_, fun id ↦ ?_, h.starting, h.registered, h.requests, h.running, ?_, ?_,
    h.answeredOnce, fun a ha ↦ ?_⟩
  · refine List.Perm.trans ?_ h.perm
    simp only [CallView.ids, CallView.waiting, hresponses, List.perm_iff_count]
    intro a
    simp [List.count_append, List.count_cons]
    omega
  · change Function.update v.outstandings m.id none id =
      if id ∈ CallView.waiting { v with responses := ms } then v.callOf id else none
    by_cases heq : id = m.id
    · rw [heq, Function.update_self, if_neg (List.nodup_cons.mp hnodup).1]
    · rw [Function.update_of_ne heq, h.outstandings]
      exact if_congr (hperm.mem_iff.trans (List.mem_cons.trans (or_iff_right heq))) rfl rfl
  · intro m' hm'
    exact h.responses m' (by rw [hresponses]; exact List.mem_cons_of_mem m hm')
  · intro p hp
    rcases List.mem_append.mp hp with hp | hp
    · exact h.completed p hp
    · rw [List.mem_singleton] at hp
      obtain ⟨call, hcall', hexplains⟩ := h.responses m hm
      cases hcall.symm.trans hcall'
      rw [hp]
      exact ⟨hcall, m.error, hexplains⟩
  · have hmem := h.answered_returned a ha
    simp only [CallView.returned, hresponses, List.map_cons, List.map_append, List.map_nil,
      List.mem_append, List.mem_cons, List.not_mem_nil, or_false] at hmem ⊢
    tauto

/-- A call that waits is known at its end. -/
theorem outstanding_of_response (h : v.Valid services) {m : RpcMessage} (hm : m ∈ v.responses) :
    ∃ out, v.outstandings m.id = some out := by
  obtain ⟨call, hcall, -⟩ := h.responses m hm
  refine ⟨call, ?_⟩
  rw [h.outstandings, if_pos, hcall]
  simp only [CallView.waiting, List.mem_append]
  exact .inr (.inr (.inr (List.mem_map_of_mem hm)))

theorem sendRequest (h : v.Valid services) {pre post : List (ℕ × RpcCall)} {p : ℕ × RpcCall}
    (hregistered : v.registered = pre ++ p :: post) :
    CallView.Valid services { v with
      registered := pre ++ post
      requests := v.requests ++ [requestMessage p.1 p.2] } := by
  refine h.of_moved rfl rfl rfl rfl rfl ?_ (List.Subset.refl _) ?_ ?_ h.running h.responses
    h.answeredOnce h.answered_returned
  · rw [List.perm_iff_count]
    intro a
    simp [CallView.waiting, hregistered, requestMessage, List.count_append, List.count_cons]
    omega
  · intro q hq
    apply h.registered q
    rw [hregistered]
    rcases List.mem_append.mp hq with hq | hq <;> simp [hq]
  · intro m hm
    rcases List.mem_append.mp hm with hm | hm
    · exact h.requests m hm
    · rw [List.mem_singleton] at hm
      rw [hm]
      exact ⟨p.2, h.registered p (by simp [hregistered]), rfl⟩

theorem accept (h : v.Valid services) {m : RpcMessage} {ms : List RpcMessage}
    (hrequests : v.requests = m :: ms)
    (herror : findError services (m.service.getD []) (m.method.getD []) (m.request.getD []) =
      .NO_ERROR) :
    CallView.Valid services { v with
      requests := ms
      running := v.running ++
        [⟨m.id, m.service.getD [], m.method.getD [], m.request.getD []⟩] } := by
  refine h.of_moved rfl rfl rfl rfl rfl ?_ (List.Subset.refl _) h.registered ?_ ?_ h.responses
    h.answeredOnce h.answered_returned
  · rw [List.perm_iff_count]
    intro a
    simp [CallView.waiting, hrequests, List.count_append, List.count_cons]
    omega
  · intro m' hm'
    exact h.requests m' (by rw [hrequests]; exact List.mem_cons_of_mem m hm')
  · intro r hr
    rcases List.mem_append.mp hr with hr | hr
    · exact h.running r hr
    · rw [List.mem_singleton] at hr
      obtain ⟨call, hcall, hm⟩ := h.requests m (by simp [hrequests])
      rw [hm] at herror hr
      rw [hr]
      exact ⟨call, hcall, rfl, rfl, rfl, herror⟩

theorem refuse (h : v.Valid services) {m : RpcMessage} {ms : List RpcMessage} {error : ErrorCode}
    (hrequests : v.requests = m :: ms)
    (herror : findError services (m.service.getD []) (m.method.getD []) (m.request.getD []) =
      error)
    (hne : error ≠ .NO_ERROR) :
    CallView.Valid services { v with
      requests := ms
      responses := v.responses ++ [errorMessage m.id error] } := by
  refine h.of_moved rfl rfl rfl rfl rfl ?_ (List.Subset.refl _) h.registered ?_ h.running ?_
    h.answeredOnce fun a ha ↦ ?_
  · rw [List.perm_iff_count]
    intro a
    simp [CallView.waiting, hrequests, errorMessage, List.count_append, List.count_cons]
    omega
  · intro m' hm'
    exact h.requests m' (by rw [hrequests]; exact List.mem_cons_of_mem m hm')
  · intro m' hm'
    rcases List.mem_append.mp hm' with hm' | hm'
    · exact h.responses m' hm'
    · rw [List.mem_singleton] at hm'
      obtain ⟨call, hcall, hm⟩ := h.requests m (by simp [hrequests])
      rw [hm] at herror hm'
      rw [hm']
      exact ⟨call, hcall, .inr ⟨rfl, congrArg some herror.symm, herror.trans_ne hne⟩⟩
  · have hmem := h.answered_returned a ha
    simp only [CallView.returned, List.map_append, List.mem_append] at hmem ⊢
    tauto

theorem doneCallback (h : v.Valid services) {pre post : List Running} {r : Running}
    (response : Text) (hrunning : v.running = pre ++ r :: post) :
    CallView.Valid services { v with
      running := pre ++ post
      answered := v.answered ++ [(r, response)]
      responses := v.responses ++ [responseMessage r.id response] } := by
  -- a request that runs was not answered
  have hfresh : r.id ∉ v.returned := by
    intro hmem
    have hnodup := h.nodup
    have hcount := List.nodup_iff_count_le_one.mp hnodup r.id
    have hpos : 0 < v.returned.count r.id := List.count_pos_iff.mpr hmem
    simp only [CallView.ids, CallView.waiting, CallView.returned, hrunning, List.map_append,
      List.map_cons, List.count_append, List.count_cons_self] at hcount hpos
    omega
  refine h.of_moved rfl rfl rfl rfl rfl ?_ (List.subset_append_left _ _) h.registered h.requests
    ?_ ?_ ?_ fun a ha ↦ ?_
  · rw [List.perm_iff_count]
    intro a
    simp [CallView.waiting, hrunning, responseMessage, List.count_append, List.count_cons]
    omega
  · intro q hq
    apply h.running q
    rw [hrunning]
    rcases List.mem_append.mp hq with hq | hq <;> simp [hq]
  · intro m hm
    rcases List.mem_append.mp hm with hm | hm
    · obtain ⟨call, hcall, hexplains⟩ := h.responses m hm
      exact ⟨call, hcall, hexplains.mono (List.subset_append_left _ _)⟩
    · rw [List.mem_singleton] at hm
      obtain ⟨call, hcall, hserves⟩ := h.running r (by simp [hrunning])
      rw [hm]
      exact ⟨call, hcall, .inl ⟨r, response, by simp, rfl, hserves, rfl⟩⟩
  · rw [List.map_append, List.map_singleton]
    refine List.nodup_append.mpr ⟨h.answeredOnce, List.nodup_singleton _, ?_⟩
    rintro _ hmem _ hr rfl
    obtain ⟨a, ha, hid⟩ := List.mem_map.mp hmem
    rw [List.mem_singleton] at hr
    exact hfresh (hr ▸ hid ▸ h.answered_returned a ha)
  · rcases List.mem_append.mp ha with ha | ha
    · have hmem := h.answered_returned a ha
      simp only [CallView.returned, List.map_append, List.mem_append] at hmem ⊢
      tauto
    · rw [List.mem_singleton] at ha
      simp [ha, CallView.returned, responseMessage]

theorem step (h : v.Valid services) (hroom : v.calls.length + 1 < 2 ^ 64)
    (hstep : CallStep services v w) : w.Valid services := by
  cases hstep with
  | takeId call => exact h.takeId hroom call
  | register hstarting => exact h.register hstarting
  | sendRequest hregistered => exact h.sendRequest hregistered
  | accept hrequests herror => exact h.accept hrequests herror
  | refuse hrequests herror hne => exact h.refuse hrequests herror hne
  | doneCallback response hrunning => exact h.doneCallback response hrunning
  | complete hresponses hout => exact h.complete hresponses hout
  | @stray m ms hresponses hout =>
      obtain ⟨out, hsome⟩ := h.outstanding_of_response (m := m) (by simp [hresponses])
      cases hsome.symm.trans hout

end CallView.Valid

end PpDSCache.Rpc
