import PpDSCache.Abstract.Runs
import PpDSCache.Rpc.CallProtocol

/-!
# Calls between two ends

Whatever the order in which threads call, services answer and messages arrive,
a call is completed once at most, by the answer to its own request, and no call
is lost on the way.
-/

namespace PpDSCache.Rpc

open Cpp Abstract RpcChannel

theorem exists_split_of_getElem? {α : Type} {l : List α} {k : ℕ} {a : α} (h : l[k]? = some a) :
    ∃ pre post, l = pre ++ a :: post ∧ l.eraseIdx k = pre ++ post := by
  obtain ⟨hk, rfl⟩ := List.getElem?_eq_some_iff.mp h
  refine ⟨l.take k, l.drop (k + 1), ?_, List.eraseIdx_eq_take_drop_succ ..⟩
  rw [List.getElem_cons_drop, List.take_append_drop]

namespace RpcPair

def requestsOf (ms : List RpcMessage) : List RpcMessage := ms.filter (·.type = .REQUEST)

def responsesOf (ms : List RpcMessage) : List RpcMessage := ms.filter (·.type = .RESPONSE)

/-- The calls of one end. -/
def view (s : RpcPair) (x : Bool) : CallView where
  id := (s.chan x).id
  calls := (s.chan x).calls
  starting := (s.chan x).starting
  registered := (s.chan x).registered
  outstandings := (s.chan x).outstandings
  requests := requestsOf (s.link x)
  running := (s.chan !x).running
  answered := (s.chan !x).answered
  responses := responsesOf (s.link !x)
  completed := (s.chan x).completed

variable {s t : RpcPair} {x side : Bool} {c d : RpcChannel} {out : List RpcMessage}

theorem view_act_self : (s.act x (c, out)).view x = { s.view x with
    id := c.id
    calls := c.calls
    starting := c.starting
    registered := c.registered
    outstandings := c.outstandings
    requests := requestsOf (s.link x) ++ requestsOf out
    completed := c.completed } := by
  simp [view, act, requestsOf]

theorem view_act_not : (s.act x (c, out)).view (!x) = { s.view (!x) with
    running := c.running
    answered := c.answered
    responses := responsesOf (s.link x) ++ responsesOf out } := by
  simp [view, act, responsesOf]

theorem view_take_self (rest : List RpcMessage) :
    (s.take x rest).view x = { s.view x with responses := responsesOf rest } := by
  simp [view, take]

theorem view_take_not (rest : List RpcMessage) :
    (s.take x rest).view (!x) = { s.view (!x) with requests := requestsOf rest } := by
  simp [view, take]

theorem link_take (rest : List RpcMessage) : (s.take x rest).link x = s.link x := by
  simp [take]

theorem receive_refines {m : RpcMessage} {ms : List RpcMessage} (hlink : s.link (!side) = m :: ms)
    (h : (s.chan side).onRpcMessage m = some (c, out))
    (ht : t = (s.take side ms).act side (c, out)) :
    (t.view side = s.view side ∨ CallStep (s.chan !side).services (s.view side) (t.view side)) ∧
      (t.view (!side) = s.view (!side) ∨
        CallStep (s.chan side).services (s.view (!side)) (t.view (!side))) := by
  rw [ht, view_act_self, view_act_not, view_take_self, view_take_not, link_take]
  cases htype : m.type with
  | RESPONSE =>
      have hresponses : (s.view side).responses = m :: responsesOf ms := by
        simp [view, hlink, responsesOf, htype]
      have hrequests : (s.view !side).requests = requestsOf ms := by
        simp [view, hlink, requestsOf, htype]
      simp only [onRpcMessage, htype, guard, Option.bind_eq_bind, Option.bind_eq_some_iff] at h
      obtain ⟨-, -, h⟩ := h
      cases hout : (s.chan side).outstandings m.id with
      | some call =>
          rw [hout] at h
          cases h
          refine ⟨.inr ?_, .inl ?_⟩
          · simpa [view, requestsOf] using CallStep.complete (v := s.view side) hresponses hout
          · simp [← hrequests, view, responsesOf]
      | none =>
          rw [hout] at h
          cases h
          refine ⟨.inr ?_, .inl ?_⟩
          · simpa [view, requestsOf] using CallStep.stray (v := s.view side) hresponses hout
          · simp [← hrequests, view, responsesOf]
  | REQUEST =>
      have hresponses : (s.view side).responses = responsesOf ms := by
        simp [view, hlink, responsesOf, htype]
      have hrequests : (s.view !side).requests = m :: requestsOf ms := by
        simp [view, hlink, requestsOf, htype]
      simp only [onRpcMessage, htype] at h
      split_ifs at h with herror
      · cases h
        refine ⟨.inl ?_, .inr ?_⟩
        · simp [← hresponses, view, requestsOf]
        · simpa [view, responsesOf] using CallStep.accept (v := s.view !side) hrequests herror
      · cases h
        refine ⟨.inl ?_, .inr ?_⟩
        · simp [← hresponses, view, requestsOf, errorMessage]
        · simpa [view, responsesOf, errorMessage] using
            CallStep.refuse (v := s.view !side) hrequests rfl herror
  | ERROR =>
      have hresponses : (s.view side).responses = responsesOf ms := by
        simp [view, hlink, responsesOf, htype]
      have hrequests : (s.view !side).requests = requestsOf ms := by
        simp [view, hlink, requestsOf, htype]
      simp only [onRpcMessage, htype] at h
      cases h
      refine ⟨.inl ?_, .inl ?_⟩
      · simp [← hresponses, view, requestsOf]
      · simp [← hrequests, view, responsesOf]

/-- A step of one of the ends moves one call of each end at most. -/
theorem exec_refines {a : RpcAct} (h : exec a s = some t) (x : Bool) :
    t.view x = s.view x ∨ CallStep (s.chan !x).services (s.view x) (t.view x) := by
  have hsides : ∀ side, x = side ∨ x = !side := by
    intro side
    cases x <;> cases side <;> simp
  cases a with
  | takeId side call =>
      obtain rfl := Option.some.inj h
      rcases hsides side with rfl | rfl
      · right
        rw [view_act_self]
        simpa [view, requestsOf, takeId] using CallStep.takeId (s.view x) call
      · left
        rw [view_act_not]
        simp [view, responsesOf, takeId]
  | register side k =>
      obtain ⟨c, hc, rfl⟩ := Option.map_eq_some_iff.mp h
      simp only [register, Option.bind_eq_bind, Option.bind_eq_some_iff] at hc
      obtain ⟨p, hp, hc⟩ := hc
      obtain ⟨pre, post, hsplit, herase⟩ := exists_split_of_getElem? hp
      cases hc
      rcases hsides side with rfl | rfl
      · right
        rw [view_act_self]
        simpa [view, requestsOf, herase] using CallStep.register (v := s.view x) hsplit
      · left
        rw [view_act_not]
        simp [view, responsesOf]
  | sendRequest side k =>
      obtain ⟨q, hc, rfl⟩ := Option.map_eq_some_iff.mp h
      simp only [sendRequest, Option.bind_eq_bind, Option.bind_eq_some_iff] at hc
      obtain ⟨p, hp, hc⟩ := hc
      obtain ⟨pre, post, hsplit, herase⟩ := exists_split_of_getElem? hp
      cases hc
      rcases hsides side with rfl | rfl
      · right
        rw [view_act_self]
        simpa [view, requestsOf, herase, requestMessage] using
          CallStep.sendRequest (v := s.view x) hsplit
      · left
        rw [view_act_not]
        simp [view, responsesOf, requestMessage]
  | doneCallback side k response =>
      obtain ⟨q, hc, rfl⟩ := Option.map_eq_some_iff.mp h
      simp only [doneCallback, Option.bind_eq_bind, Option.bind_eq_some_iff] at hc
      obtain ⟨r, hr, hc⟩ := hc
      obtain ⟨pre, post, hsplit, herase⟩ := exists_split_of_getElem? hr
      cases hc
      rcases hsides side with rfl | rfl
      · left
        rw [view_act_self]
        simp [view, requestsOf, responseMessage]
      · right
        rw [view_act_not]
        have hrunning : (s.view !side).running = pre ++ r :: post := by simpa [view] using hsplit
        simpa [view, responsesOf, herase, responseMessage] using
          CallStep.doneCallback (v := s.view !side) response hrunning
  | receive side =>
      cases hlink : s.link (!side) with
      | nil => simp [exec, hlink] at h
      | cons m ms =>
          simp only [exec, hlink, Option.map_eq_some_iff] at h
          obtain ⟨⟨c, out⟩, hreceived, ht⟩ := h
          obtain ⟨hself, hnot⟩ := receive_refines hlink hreceived ht.symm
          rcases hsides side with rfl | rfl
          · exact hself
          · rwa [Bool.not_not]

/-! ## Runs -/

/-- The calls that an end makes in a run. -/
def callsOf (x : Bool) (acts : List RpcAct) : List RpcCall :=
  acts.filterMap fun
    | .takeId side call => if side = x then some call else none
    | _ => none

theorem keeps_onRpcMessage {m : RpcMessage} {p : RpcChannel × List RpcMessage}
    (h : c.onRpcMessage m = some p) : p.1.services = c.services ∧ p.1.calls = c.calls := by
  unfold onRpcMessage at h
  split at h
  · simp only [guard, Option.bind_eq_bind, Option.bind_eq_some_iff] at h
    obtain ⟨-, -, h⟩ := h
    split at h <;> cases h <;> exact ⟨rfl, rfl⟩
  · dsimp only at h
    split_ifs at h <;> cases h <;> exact ⟨rfl, rfl⟩
  · cases h
    exact ⟨rfl, rfl⟩

/-- A step changes the channel of one end, which keeps its services and notes
the call of the step. -/
theorem exists_update_exec {a : RpcAct} (h : exec a s = some t) :
    ∃ side c, t.chan = Function.update s.chan side c ∧ c.services = (s.chan side).services ∧
      c.calls = (s.chan side).calls ++ callsOf side [a] ∧ callsOf (!side) [a] = [] := by
  cases a with
  | takeId side call =>
      obtain rfl := Option.some.inj h
      exact ⟨side, _, rfl, rfl, by simp [callsOf, takeId], by simp [callsOf]⟩
  | register side k =>
      obtain ⟨c, hc, rfl⟩ := Option.map_eq_some_iff.mp h
      obtain ⟨p, -, hc⟩ := Option.bind_eq_some_iff.mp hc
      cases hc
      exact ⟨side, _, rfl, rfl, (List.append_nil _).symm, rfl⟩
  | sendRequest side k =>
      obtain ⟨c, hc, rfl⟩ := Option.map_eq_some_iff.mp h
      obtain ⟨p, -, hc⟩ := Option.bind_eq_some_iff.mp hc
      cases hc
      exact ⟨side, _, rfl, rfl, (List.append_nil _).symm, rfl⟩
  | doneCallback side k response =>
      obtain ⟨c, hc, rfl⟩ := Option.map_eq_some_iff.mp h
      obtain ⟨p, -, hc⟩ := Option.bind_eq_some_iff.mp hc
      cases hc
      exact ⟨side, _, rfl, rfl, (List.append_nil _).symm, rfl⟩
  | receive side =>
      cases hlink : s.link (!side) with
      | nil => simp [exec, hlink] at h
      | cons m ms =>
          simp only [exec, hlink, Option.map_eq_some_iff] at h
          obtain ⟨⟨c, out⟩, hreceived, rfl⟩ := h
          obtain ⟨hservices, hcalls⟩ := keeps_onRpcMessage hreceived
          exact ⟨side, c, rfl, hservices, hcalls.trans (List.append_nil _).symm, rfl⟩

theorem services_exec {a : RpcAct} (h : exec a s = some t) (x : Bool) :
    (t.chan x).services = (s.chan x).services := by
  obtain ⟨side, c, hchan, hservices, -⟩ := exists_update_exec h
  by_cases hx : x = side
  · simp [hchan, hx, hservices]
  · simp [hchan, hx]

theorem calls_exec {a : RpcAct} (h : exec a s = some t) (x : Bool) :
    (t.chan x).calls = (s.chan x).calls ++ callsOf x [a] := by
  obtain ⟨side, c, hchan, -, hcalls, hnone⟩ := exists_update_exec h
  by_cases hx : x = side
  · simp [hchan, hx, hcalls]
  · have hside : x = !side := by cases x <;> cases side <;> simp_all
    rw [hchan, Function.update_of_ne hx, hside, hnone, List.append_nil]

/-- The record of the calls is that of the run. -/
theorem calls_runAll {acts : List RpcAct} (hrun : runAll exec acts s = some t) (x : Bool) :
    (t.chan x).calls = (s.chan x).calls ++ callsOf x acts := by
  induction acts generalizing s with
  | nil =>
      obtain rfl := Option.some.inj hrun
      exact (List.append_nil _).symm
  | cons a acts ih =>
      obtain ⟨r, hr, hrest⟩ := runAll_cons_iff.mp hrun
      have hcons : callsOf x (a :: acts) = callsOf x [a] ++ callsOf x acts :=
        List.filterMap_append (l := [a])
      rw [ih hrest, calls_exec hr, List.append_assoc, hcons]

def Valid (s : RpcPair) : Prop := ∀ x, (s.view x).Valid (s.chan !x).services

/-- The ids have not run out. -/
def HasIds (s : RpcPair) : Prop := ∀ x, (s.chan x).calls.length + 1 < 2 ^ 64

instance (s : RpcPair) : Decidable s.HasIds := inferInstanceAs (Decidable (∀ _, _))

theorem valid_new (services : Bool → Option Services) : (new services).Valid := fun _ ↦
  ⟨rfl, List.Perm.nil, fun _ ↦ rfl, nofun, nofun, nofun, nofun, nofun, nofun, List.nodup_nil, nofun⟩

theorem Valid.exec {a : RpcAct} (h : s.Valid) (hids : s.HasIds) (hexec : exec a s = some t) :
    t.Valid := by
  intro x
  rw [services_exec hexec]
  rcases exec_refines hexec x with hsame | hstep
  · rw [hsame]
    exact h x
  · exact (h x).step (hids x) hstep

theorem valid_of_runAll {services : Bool → Option Services} {acts : List RpcAct}
    (hids : EachStep RpcPair.exec (fun _ s ↦ s.HasIds) acts (new services))
    (hrun : runAll RpcPair.exec acts (new services) = some s) : s.Valid :=
  runAll_invariant (I := Valid) (fun _ _ _ h hids hexec ↦ h.exec hids hexec) (valid_new services)
    hids hrun

/-- One end has a service that echoes what does not begin with a zero. -/
def exampleServices : Bool → Option Services
  | true => none
  | false => some fun service ↦
      if service = ascii "Echo" then
        some fun method ↦
          if method = ascii "echo" then some fun request ↦ request.head? != some 0 else none
      else none

def exampleCall (request : Text) : RpcCall := ⟨ascii "Echo", ascii "echo", request, true⟩

/-- Three calls, the second sent first and the third not parsed. -/
def exampleActs : List RpcAct :=
  [.takeId true (exampleCall [1]), .takeId true (exampleCall [2]), .register true 1,
    .sendRequest true 0, .register true 0, .takeId true (exampleCall [0]), .sendRequest true 0,
    .receive false, .register true 0, .receive false, .doneCallback false 1 [1],
    .sendRequest true 0, .receive false, .receive true, .doneCallback false 0 [2], .receive true,
    .receive true]

def IsCall : RpcAct → Prop
  | .takeId _ _ => True
  | _ => False

instance : DecidablePred IsCall
  | .takeId _ _ => isTrue trivial
  | .register _ _ | .sendRequest _ _ | .receive _ | .doneCallback _ _ _ => isFalse id

def linkWeight (ms : List RpcMessage) : ℕ :=
  (ms.map fun m ↦ if m.type = .REQUEST then 3 else 1).sum

def chanWeight (c : RpcChannel) : ℕ :=
  5 * c.starting.length + 4 * c.registered.length + 2 * c.running.length

/-- How many steps the calls of the two ends still need at most. -/
def weight (s : RpcPair) : ℕ :=
  chanWeight (s.chan true) + linkWeight (s.link true) +
    (chanWeight (s.chan false) + linkWeight (s.link false))

theorem weight_act : (s.act side (c, out)).weight + chanWeight (s.chan side) =
    s.weight + chanWeight c + linkWeight out := by
  cases side <;> simp [weight, act, linkWeight] <;> omega

theorem weight_take {m : RpcMessage} {ms : List RpcMessage} (hlink : s.link (!side) = m :: ms) :
    (s.take side ms).weight + linkWeight [m] = s.weight := by
  cases side <;> simp only [Bool.not_true, Bool.not_false] at hlink <;>
    simp [weight, take, linkWeight, hlink] <;> omega

theorem length_eraseIdx_lt {α : Type} {l : List α} {k : ℕ} {a : α} (h : l[k]? = some a) :
    (l.eraseIdx k).length + 1 = l.length := by
  obtain ⟨hk, -⟩ := List.getElem?_eq_some_iff.mp h
  rw [List.length_eraseIdx_of_lt hk]
  omega

theorem weight_onRpcMessage {m : RpcMessage} (h : c.onRpcMessage m = some (d, out)) :
    chanWeight d + linkWeight out < chanWeight c + linkWeight [m] := by
  unfold onRpcMessage at h
  split at h
  · simp only [guard, Option.bind_eq_bind, Option.bind_eq_some_iff] at h
    obtain ⟨-, -, h⟩ := h
    split at h <;> cases h <;> simp_all [chanWeight, linkWeight]
  · dsimp only at h
    split_ifs at h
    · cases h
      simp_all [chanWeight, linkWeight]
      omega
    · cases h
      simp_all [chanWeight, linkWeight, errorMessage]
  · cases h
    simp_all [chanWeight, linkWeight]

theorem weight_act_lt (h : chanWeight c + linkWeight out < chanWeight (s.chan side)) :
    (s.act side (c, out)).weight < s.weight := by
  have hweight : (s.act side (c, out)).weight + chanWeight (s.chan side) =
      s.weight + chanWeight c + linkWeight out := weight_act
  omega

theorem weight_exec {a : RpcAct} (ha : ¬ IsCall a) (h : exec a s = some t) :
    t.weight < s.weight := by
  cases a with
  | takeId side call => exact absurd trivial ha
  | register side k =>
      obtain ⟨c, hc, rfl⟩ := Option.map_eq_some_iff.mp h
      obtain ⟨p, hp, hc⟩ := Option.bind_eq_some_iff.mp hc
      cases hc
      have hlen := length_eraseIdx_lt hp
      apply weight_act_lt
      simp only [chanWeight, linkWeight, List.length_append, List.length_singleton, List.map_nil,
        List.sum_nil]
      omega
  | sendRequest side k =>
      obtain ⟨q, hc, rfl⟩ := Option.map_eq_some_iff.mp h
      obtain ⟨p, hp, hc⟩ := Option.bind_eq_some_iff.mp hc
      cases hc
      have hlen := length_eraseIdx_lt hp
      apply weight_act_lt
      simp only [chanWeight, linkWeight, requestMessage, if_true, List.map_cons, List.map_nil,
        List.sum_cons, List.sum_nil]
      omega
  | doneCallback side k response =>
      obtain ⟨q, hc, rfl⟩ := Option.map_eq_some_iff.mp h
      obtain ⟨r, hr, hc⟩ := Option.bind_eq_some_iff.mp hc
      cases hc
      have hlen := length_eraseIdx_lt hr
      apply weight_act_lt
      simp only [chanWeight, linkWeight, responseMessage, reduceCtorEq, if_false, List.map_cons,
        List.map_nil, List.sum_cons, List.sum_nil]
      omega
  | receive side =>
      cases hlink : s.link (!side) with
      | nil => simp [exec, hlink] at h
      | cons m ms =>
          simp only [exec, hlink, Option.map_eq_some_iff] at h
          obtain ⟨⟨c, out⟩, hreceived, rfl⟩ := h
          have htake := weight_take hlink
          have hact : ((s.take side ms).act side (c, out)).weight + chanWeight (s.chan side) =
              (s.take side ms).weight + chanWeight c + linkWeight out := weight_act
          have hlt := weight_onRpcMessage hreceived
          omega

theorem length_le_weight {acts : List RpcAct} (hacts : ∀ a ∈ acts, ¬ IsCall a)
    (hrun : runAll RpcPair.exec acts s = some t) : acts.length ≤ s.weight := by
  induction acts generalizing s with
  | nil => exact Nat.zero_le _
  | cons a acts ih =>
      obtain ⟨r, hr, hrest⟩ := runAll_cons_iff.mp hrun
      obtain ⟨ha, hacts⟩ := List.forall_mem_cons.mp hacts
      have hlt := weight_exec ha hr
      have hle := ih hacts hrest
      rw [List.length_cons]
      omega

/-- The assertion on a response holds of what the other end sends. -/
theorem Valid.exists_onRpcMessage (h : s.Valid) {m : RpcMessage} {ms : List RpcMessage}
    (hlink : s.link (!side) = m :: ms) : ∃ p, (s.chan side).onRpcMessage m = some p := by
  unfold onRpcMessage
  cases htype : m.type with
  | REQUEST =>
      dsimp only
      split_ifs <;> exact ⟨_, rfl⟩
  | ERROR => exact ⟨_, rfl⟩
  | RESPONSE =>
      have hmem : m ∈ (s.view side).responses := by simp [view, hlink, responsesOf, htype]
      obtain ⟨call, -, hexplains⟩ := (h side).responses m hmem
      have hsome : m.response.isSome = true ∨ m.error.isSome = true := by
        rcases hexplains with ⟨_, _, -, -, -, hresponse⟩ | ⟨-, herror, -⟩
        · exact .inl (by rw [hresponse, Option.isSome_some])
        · exact .inr (by rw [herror, Option.isSome_some])
      simp only [guard, if_pos hsome, Option.bind_eq_bind, Option.pure_def, Option.bind_some]
      split <;> exact ⟨_, rfl⟩

/-- No call is on its way. -/
def Quiet (s : RpcPair) : Prop :=
  ∀ x, (s.chan x).starting = [] ∧ (s.chan x).registered = [] ∧ (s.chan x).running = [] ∧
    s.link x = []

instance (s : RpcPair) : Decidable s.Quiet := inferInstanceAs (Decidable (∀ _, _))

theorem Quiet.exec_eq_none (h : s.Quiet) {a : RpcAct} (ha : ¬ IsCall a) :
    RpcPair.exec a s = none := by
  cases a with
  | takeId side call => exact absurd trivial ha
  | register side k => simp [RpcPair.exec, register, (h side).1]
  | sendRequest side k => simp [RpcPair.exec, sendRequest, (h side).2.1]
  | doneCallback side k response => simp [RpcPair.exec, doneCallback, (h side).2.2.1]
  | receive side => simp [RpcPair.exec, (h !side).2.2.2]

/-- A state that only new calls can leave. -/
theorem Valid.quiet (h : s.Valid) (hnone : ∀ a, ¬ IsCall a → RpcPair.exec a s = none) :
    s.Quiet := by
  intro x
  refine ⟨?_, ?_, ?_, ?_⟩
  · cases hstarting : (s.chan x).starting with
    | nil => rfl
    | cons p ps =>
        have hexec := hnone (.register x 0) id
        simp [RpcPair.exec, register, hstarting] at hexec
  · cases hregistered : (s.chan x).registered with
    | nil => rfl
    | cons p ps =>
        have hexec := hnone (.sendRequest x 0) id
        simp [RpcPair.exec, sendRequest, hregistered] at hexec
  · cases hrunning : (s.chan x).running with
    | nil => rfl
    | cons r rs =>
        have hexec := hnone (.doneCallback x 0 []) id
        simp [RpcPair.exec, doneCallback, hrunning] at hexec
  · cases hlink : s.link x with
    | nil => rfl
    | cons m ms =>
        have hreceives : s.link (!!x) = m :: ms := by rw [Bool.not_not, hlink]
        obtain ⟨p, hp⟩ := h.exists_onRpcMessage hreceives
        have hexec := hnone (.receive (!x)) id
        simp [RpcPair.exec, hlink, hp] at hexec

theorem callsOf_eq_nil {more : List RpcAct} (hmore : ∀ a ∈ more, ¬ IsCall a) (x : Bool) :
    callsOf x more = [] := by
  refine List.filterMap_eq_nil_iff.mpr fun a ha ↦ ?_
  cases a with
  | takeId side call => exact absurd trivial (hmore _ ha)
  | register _ _ | sendRequest _ _ | receive _ | doneCallback _ _ _ => rfl

/-- Whoever runs, the calls made so far need a bounded number of steps, and when
none is left each of them has been completed exactly once. -/
theorem calls_all_completed {services : Bool → Option Services} {acts more : List RpcAct}
    (hids : EachStep RpcPair.exec (fun _ s ↦ s.HasIds) (acts ++ more) (new services))
    (hrun : runAll RpcPair.exec acts (new services) = some s) (hmore : ∀ a ∈ more, ¬ IsCall a)
    (hrest : runAll RpcPair.exec more s = some t) :
    more.length ≤ s.weight ∧
      ((∀ a, ¬ IsCall a → RpcPair.exec a t = none) → ∀ x,
        ((t.chan x).completed.map Completed.id).Perm (List.range' 1 (callsOf x acts).length) ∧
          ∀ id, (t.chan x).outstandings id = none) := by
  refine ⟨length_le_weight hmore hrest, fun hnone x ↦ ?_⟩
  have h := valid_of_runAll hids (runAll_append_iff.mpr ⟨s, hrun, hrest⟩)
  obtain ⟨hstarting, hregistered, -, hlink⟩ := h.quiet hnone x
  obtain ⟨-, -, hrunning, hback⟩ := h.quiet hnone (!x)
  have hcalls : (t.view x).calls = callsOf x acts := by
    rw [view, calls_runAll hrest, callsOf_eq_nil hmore, List.append_nil, calls_runAll hrun]
    rfl
  have hwaiting : (t.view x).waiting = [] := by
    simp [view, CallView.waiting, hregistered, hrunning, hlink, hback, requestsOf, responsesOf]
  have hids : (t.view x).ids = (t.chan x).completed.map Completed.id := by
    rw [CallView.ids, hwaiting]
    simp [view, hstarting]
  refine ⟨hids ▸ hcalls ▸ (h x).perm, fun id ↦ ?_⟩
  have hout := (h x).outstandings id
  rw [hwaiting, if_neg List.not_mem_nil] at hout
  exact hout

theorem calls_all_completed_exampleActs :
    ∃ s t, runAll RpcPair.exec (exampleActs.take 9) (new exampleServices) = some s ∧
      runAll RpcPair.exec (exampleActs.drop 9) s = some t ∧ t.Quiet ∧
      (exampleActs.drop 9).length ≤ s.weight ∧
      ((t.chan true).completed.map Completed.id).Perm [1, 2, 3] ∧
      ∀ id, (t.chan true).outstandings id = none := by
  have hruns : ((runAll RpcPair.exec (exampleActs.take 9 ++ exampleActs.drop 9)
      (new exampleServices)).map fun t ↦ decide t.Quiet) = some true := by decide +kernel
  obtain ⟨t, ht, hquiet⟩ := Option.map_eq_some_iff.mp hruns
  obtain ⟨s, hs, hrest⟩ := runAll_append_iff.mp ht
  have hcompleted := calls_all_completed (by decide +kernel) hs (by decide +kernel) hrest
  have htrue := hcompleted.2 (fun _ ↦ (of_decide_eq_true hquiet).exec_eq_none) true
  exact ⟨s, t, hs, hrest, of_decide_eq_true hquiet, hcompleted.1, htrue.1, htrue.2⟩

end RpcPair

end PpDSCache.Rpc
