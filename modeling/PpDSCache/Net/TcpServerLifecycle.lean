import PpDSCache.Net.TcpServerNames
import PpDSCache.Net.TcpConnectionOutput

/-!
# The life of a connection

A connection is accepted, opened, closed, removed from the server's map and
destroyed, in this order.  At each stage at most one functor that carries it on
is queued, and on one loop only.
-/

namespace PpDSCache.Net

open Cpp Abstract Master

/-! ## What the handlers leave alone -/

namespace TcpConnection

variable {c : TcpConnection}

/-- The connection callbacks so far, `true` for up. -/
def callbacks (c : TcpConnection) : List Bool :=
  c.calls.filterMap fun h ↦ match h with
    | .connection connected => some connected
    | _ => none

structure Keeps (c d : TcpConnection) : Prop where
  state : d.state = c.state
  callbacks : d.callbacks = c.callbacks

theorem Keeps.refl (c : TcpConnection) : Keeps c c := ⟨rfl, rfl⟩

theorem Keeps.trans {d e : TcpConnection} (h : Keeps c d) (h' : Keeps d e) : Keeps c e :=
  ⟨h'.state.trans h.state, h'.callbacks.trans h.callbacks⟩

theorem keeps_notifyComplete (c : TcpConnection) : Keeps c c.notifyComplete := by
  refine ⟨rfl, ?_⟩
  unfold notifyComplete callbacks
  split_ifs <;> simp

theorem keeps_notifyHighWaterMark (n : ℕ) (c : TcpConnection) :
    Keeps c (c.notifyHighWaterMark n) := by
  refine ⟨rfl, ?_⟩
  simp only [notifyHighWaterMark, callbacks, List.filterMap_append]
  split_ifs <;> simp

theorem keeps_bufferRest (rest : Text) (c : TcpConnection) : Keeps c (c.bufferRest rest) := by
  unfold bufferRest
  split_ifs
  · unfold ensureWriting
    split_ifs
    · exact { keeps_notifyHighWaterMark rest.length c with }
    · exact { keeps_notifyHighWaterMark rest.length c with }
  · exact .refl c

theorem keeps_sendInLoop (w : Write) (data : Text) (c : TcpConnection) :
    Keeps c (c.sendInLoop w data) := by
  unfold sendInLoop
  split_ifs
  · exact .refl c
  · cases w with
    | accepted n =>
        apply Keeps.trans _ (keeps_bufferRest _ _)
        have haccept : Keeps c (c.accept (data.take n)) := ⟨rfl, rfl⟩
        split_ifs
        · exact haccept.trans (keeps_notifyComplete _)
        · exact haccept
    | failed errno =>
        dsimp only
        split_ifs
        · exact .refl c
        · exact keeps_bufferRest data c
  · exact keeps_bufferRest data c

theorem keeps_shutdownInLoop (c : TcpConnection) : Keeps c c.shutdownInLoop := by
  unfold shutdownInLoop
  split_ifs
  · exact .refl c
  · exact ⟨rfl, rfl⟩

theorem keeps_handleWrite (w : Write) (c : TcpConnection) : Keeps c (c.handleWrite w) := by
  have hstop : ∀ d : TcpConnection, Keeps d d.stopWriting := fun d ↦ by
    have hwriting : Keeps d { d with channel := d.channel.disableWriting } := ⟨rfl, rfl⟩
    exact hwriting.trans (keeps_notifyComplete _)
  have hfinish : ∀ d : TcpConnection, Keeps d d.finishWriting := fun d ↦ by
    unfold finishWriting
    split_ifs
    · exact (hstop d).trans (keeps_shutdownInLoop _)
    · exact hstop d
  unfold handleWrite
  split_ifs
  · cases w with
    | accepted n =>
        have hdrain : Keeps c (c.drain n) := ⟨rfl, rfl⟩
        dsimp only
        split_ifs
        · exact hdrain.trans (hfinish _)
        · exact hdrain
        · exact .refl c
    | failed errno => exact .refl c
  · exact .refl c

theorem handleWrite_of_isNoneEvent (h : c.channel.isNoneEvent = true) (w : Write) :
    c.handleWrite w = c := by
  have hwriting : c.channel.writing = false := by
    simp only [Channel.isNoneEvent, Bool.and_eq_true, Bool.not_eq_true'] at h
    exact h.2
  simp [handleWrite, hwriting]

theorem callbacks_disconnect (c : TcpConnection) :
    c.disconnect.callbacks = c.callbacks ++ [false] := by
  simp [disconnect, handOn, callbacks]

theorem callbacks_handOn_close (c : TcpConnection) : (c.handOn .close).callbacks = c.callbacks := by
  simp [handOn, callbacks]

theorem callbacks_establish (c : TcpConnection) :
    c.establish.callbacks = c.callbacks ++ [true] := by
  simp [establish, handOn, callbacks]

end TcpConnection

/-! ## Stages -/

inductive Stage where
  | accepted
  | opened
  | closed
  | removed
  | destroyed
  deriving DecidableEq

namespace Stage

def states : Stage → List StateE
  | accepted => [.kConnecting]
  | opened => [.kConnected, .kDisconnecting]
  | _ => [.kDisconnected]

def callbacks : Stage → List Bool
  | accepted => []
  | opened => [true]
  | _ => [true, false]

/-- The connection is in the server's map. -/
def listed : Stage → Bool
  | accepted | opened | closed => true
  | _ => false

/-- The functor that carries connection `i` on, with the loop it is queued
on. -/
def due (i loop : ℕ) : Stage → Option (ℕ × ServerFunctor)
  | accepted => some (loop, .connectEstablished i)
  | closed => some (0, .removeConnectionInLoop i)
  | removed => some (loop, .connectDestroyed i)
  | _ => none

end Stage

namespace ServerFunctor

def conn : ServerFunctor → ℕ
  | connectEstablished i | removeConnectionInLoop i | connectDestroyed i => i
  | forceCloseInLoop i | shutdownInLoop i | sendInLoop i _ => i

/-- The functors that carry a connection on. -/
def lifecycle : ServerFunctor → Bool
  | connectEstablished _ | removeConnectionInLoop _ | connectDestroyed _ => true
  | _ => false

end ServerFunctor

/-- What a connection is like at a stage. -/
structure ServerConn.At (c : ServerConn) (st : Stage) : Prop where
  state : c.conn.state ∈ st.states
  callbacks : c.conn.callbacks = st.callbacks
  channel : st ≠ .opened → c.conn.channel.isNoneEvent = true
  establishedOn : c.establishedOn = if st = .accepted then [] else [c.loop]
  handled : st = .accepted → c.handled = 0
  erased : c.erased = if st = .removed ∨ st = .destroyed then 1 else 0
  destroyed : c.destroyed = if st = .destroyed then 1 else 0

namespace ServerConn.At

variable {c : ServerConn} {st : Stage}

theorem state_eq_kConnecting (h : c.At st) : c.conn.state = .kConnecting ↔ st = .accepted := by
  have hmem := h.state
  constructor
  · intro hstate
    rw [hstate] at hmem
    cases st <;> simp_all [Stage.states]
  · rintro rfl
    exact List.mem_singleton.mp hmem

theorem opened_of_state (h : c.At st)
    (hstate : c.conn.state = .kConnected ∨ c.conn.state = .kDisconnecting) : st = .opened := by
  have hmem := h.state
  rcases hstate with hstate | hstate <;> rw [hstate] at hmem <;> cases st <;>
    simp_all [Stage.states]

theorem closes (h : c.At .opened) :
    c.conn.state = .kConnected ∨ c.conn.state = .kDisconnecting := by
  simpa [Stage.states] using h.state

/-- A handler that keeps state, callbacks and an empty interest. -/
theorem keep (h : c.At st) {d : TcpConnection} (hkeeps : c.conn.Keeps d)
    (hchannel : st ≠ .opened → d.channel.isNoneEvent = true) : At { c with conn := d } st :=
  { h with
    state := hkeeps.state ▸ h.state
    callbacks := hkeeps.callbacks.trans h.callbacks
    channel := hchannel }

end ServerConn.At

/-! ## Queues -/

section Queues

variable {q : ℕ → List ServerFunctor} {l m : ℕ} {f g : ServerFunctor} {fs : List ServerFunctor}

theorem count_push (q : ℕ → List ServerFunctor) (l m : ℕ) (f g : ServerFunctor) :
    (Function.update q l (q l ++ [f]) m).count g =
      (q m).count g + if m = l ∧ f = g then 1 else 0 := by
  by_cases hm : m = l
  · subst hm
    rw [Function.update_self, List.count_append, List.count_singleton]
    simp
  · rw [Function.update_of_ne hm]
    simp [hm]

theorem count_pop (hq : q l = f :: fs) (m : ℕ) (g : ServerFunctor) :
    (q m).count g = (Function.update q l fs m).count g + if m = l ∧ f = g then 1 else 0 := by
  by_cases hm : m = l
  · subst hm
    rw [Function.update_self, hq, List.count_cons]
    simp
  · rw [Function.update_of_ne hm]
    simp [hm]

end Queues

namespace TcpServer

variable {s r t : TcpServer} {i j l m : ℕ} {c d : ServerConn} {st : Stage} {f : ServerFunctor}

/-- The connection is at a stage, and so are its entry in the map and its
functors. -/
structure Tracks (s : TcpServer) (i : ℕ) (c : ServerConn) (st : Stage) : Prop where
  at_stage : c.At st
  entry : s.connections c.name = if st.listed = true then some i else none
  due : ∀ l f, f.lifecycle = true → f.conn = i →
    (s.queue l).count f = if st.due i c.loop = some (l, f) then 1 else 0

structure Inv (s : TcpServer) : Prop where
  ipPort : s.ipPort.length ≤ 51
  nextConnId : s.nextConnId = s.conns.length + 1
  few : s.conns.length < 2 ^ 31
  name : ∀ i c, s.conns[i]? = some c → c.name = s.name ++ nameBuf s.ipPort (i + 1)
  entry : ∀ n i, s.connections n = some i → ∃ c, s.conns[i]? = some c ∧ c.name = n
  tracks : ∀ i c, s.conns[i]? = some c → ∃ st, s.Tracks i c st
  queued : ∀ l, ∀ f ∈ s.queue l, ∃ c, s.conns[f.conn]? = some c ∧
    (f.lifecycle = false → l = c.loop ∧ c.conn.state ≠ .kConnecting)
  calls : ∀ k ∈ s.calls, ∃ c, s.conns[k.conn]? = some c ∧ c.conn.state ≠ .kConnecting

theorem inv_new (name : Text) {ipPort : Text} (hip : ipPort.length ≤ 51) (numLoops : ℕ)
    (hasWriteComplete : Bool) : (new name ipPort numLoops hasWriteComplete).Inv where
  ipPort := hip
  nextConnId := rfl
  few := by norm_num [new]
  name := by simp [new]
  entry := by simp [new]
  tracks := by simp [new]
  queued := by simp [new]
  calls := by simp [new]

namespace Inv

theorem lt_length (hc : s.conns[i]? = some c) : i < s.conns.length :=
  (List.getElem?_eq_some_iff.mp hc).1

theorem name_ne (h : s.Inv) (hc : s.conns[i]? = some c) (hd : s.conns[j]? = some d)
    (hne : i ≠ j) : c.name ≠ d.name := by
  intro heq
  rw [h.name i c hc, h.name j d hd] at heq
  have hi := lt_length hc
  have hj := lt_length hd
  have hfew := h.few
  have hid := nameBuf_injective h.ipPort (by omega) (by omega) (List.append_cancel_left heq)
  omega

/-- No functor is queued for a connection that is yet to come. -/
theorem conn_lt (h : s.Inv) (hf : f ∈ s.queue l) : f.conn < s.conns.length := by
  obtain ⟨c, hc, -⟩ := h.queued l f hf
  exact lt_length hc

end Inv

/-! ## One connection changes -/

/-- The step from `s` to `t` changes connection `i` only. -/
structure Touches (i : ℕ) (c d : ServerConn) (s t : TcpServer) : Prop where
  conns : t.conns = s.conns.set i d
  fixed : t.name = s.name ∧ t.ipPort = s.ipPort ∧ t.nextConnId = s.nextConnId
  name : d.name = c.name
  others : ∀ n, n ≠ c.name → t.connections n = s.connections n
  queue : ∀ l f, f.conn ≠ i → (t.queue l).count f = (s.queue l).count f
  users : ∀ l, ∀ f ∈ t.queue l, f.conn = i → f.lifecycle = false →
    l = d.loop ∧ d.conn.state ≠ .kConnecting
  calls : ∀ k ∈ t.calls, k.conn = i ∧ d.conn.state ≠ .kConnecting ∨ k.conn ≠ i ∧ k ∈ s.calls

theorem Touches.conn_self (ht : Touches i c d s t) (hc : s.conns[i]? = some c) :
    t.conns[i]? = some d := by
  rw [ht.conns, List.getElem?_set_self (Inv.lt_length hc)]

theorem Touches.conn_of_ne (ht : Touches i c d s t) (hne : j ≠ i) :
    t.conns[j]? = s.conns[j]? := by
  rw [ht.conns, List.getElem?_set_ne (Ne.symm hne)]

theorem Touches.conn_cases (ht : Touches i c d s t) (hc : s.conns[i]? = some c)
    {e : ServerConn} (he : t.conns[j]? = some e) :
    j = i ∧ e = d ∨ j ≠ i ∧ s.conns[j]? = some e := by
  by_cases hji : j = i
  · subst hji
    exact .inl ⟨rfl, Option.some.inj (he.symm.trans (ht.conn_self hc))⟩
  · rw [ht.conn_of_ne hji] at he
    exact .inr ⟨hji, he⟩

theorem Inv.touch (h : s.Inv) (hc : s.conns[i]? = some c) (ht : Touches i c d s t)
    (htracks : t.Tracks i d st) : t.Inv := by
  have hlength : t.conns.length = s.conns.length := by rw [ht.conns, List.length_set]
  exact {
    ipPort := by
      rw [ht.fixed.2.1]
      exact h.ipPort
    nextConnId := by
      rw [ht.fixed.2.2, hlength]
      exact h.nextConnId
    few := by
      rw [hlength]
      exact h.few
    name := by
      intro j e he
      rw [ht.fixed.1, ht.fixed.2.1]
      rcases ht.conn_cases hc he with ⟨rfl, rfl⟩ | ⟨-, he⟩
      · rw [ht.name]
        exact h.name j c hc
      · exact h.name j e he
    entry := by
      intro n j hn
      by_cases hname : n = c.name
      · subst hname
        rw [← ht.name, htracks.entry] at hn
        split_ifs at hn
        obtain rfl := Option.some.inj hn
        exact ⟨d, ht.conn_self hc, ht.name⟩
      · rw [ht.others n hname] at hn
        obtain ⟨e, he, rfl⟩ := h.entry n j hn
        have hji : j ≠ i := by
          rintro rfl
          obtain rfl := Option.some.inj (hc.symm.trans he)
          exact hname rfl
        exact ⟨e, (ht.conn_of_ne hji).trans he, rfl⟩
    tracks := by
      intro j e he
      rcases ht.conn_cases hc he with ⟨rfl, rfl⟩ | ⟨hji, he⟩
      · exact ⟨st, htracks⟩
      · obtain ⟨st', hst'⟩ := h.tracks j e he
        refine ⟨st', hst'.at_stage, ?_, fun l f hlife hf ↦ ?_⟩
        · rw [ht.others _ (h.name_ne he hc hji)]
          exact hst'.entry
        · rw [ht.queue l f (hf ▸ hji)]
          exact hst'.due l f hlife hf
    queued := by
      intro l f hf
      by_cases hfi : f.conn = i
      · refine ⟨d, ?_, fun huser ↦ ht.users l f hf hfi huser⟩
        rw [hfi]
        exact ht.conn_self hc
      · have hmem : f ∈ s.queue l := by
          rw [← List.count_pos_iff, ← ht.queue l f hfi]
          exact List.count_pos_iff.mpr hf
        obtain ⟨e, he, huser⟩ := h.queued l f hmem
        exact ⟨e, (ht.conn_of_ne hfi).trans he, huser⟩
    calls := by
      intro k hk
      rcases ht.calls k hk with ⟨hki, hstate⟩ | ⟨hki, hk⟩
      · rw [hki]
        exact ⟨d, ht.conn_self hc, hstate⟩
      · obtain ⟨e, he, hstate⟩ := h.calls k hk
        exact ⟨e, (ht.conn_of_ne hki).trans he, hstate⟩ }

/-! ## The functors of one connection -/

/-- No functor that carries the connection on is queued. -/
def NoneDue (q : ℕ → List ServerFunctor) (i : ℕ) : Prop :=
  ∀ l f, f.lifecycle = true → f.conn = i → (q l).count f = 0

/-- The state `r` is `s`, but for a functor taken from a queue that carried the
connection on. -/
structure Loose (i : ℕ) (s r : TcpServer) : Prop where
  same : r = { s with queue := r.queue }
  none : NoneDue r.queue i
  queue : ∀ l f, f.conn ≠ i → (r.queue l).count f = (s.queue l).count f
  subset : ∀ l, ∀ f ∈ r.queue l, f ∈ s.queue l

theorem Tracks.loose (htr : s.Tracks i c .opened) : Loose i s s where
  same := rfl
  none := fun l f hlife hf ↦ by rw [htr.due l f hlife hf]; rfl
  queue := fun _ _ _ ↦ rfl
  subset := fun _ _ hf ↦ hf

theorem Tracks.due_of_mem (htr : s.Tracks i c st) (hf : f ∈ s.queue l) (hlife : f.lifecycle = true)
    (hconn : f.conn = i) : st.due i c.loop = some (l, f) := by
  have hcount := htr.due l f hlife hconn
  have hpos := List.count_pos_iff.mpr hf
  by_contra hne
  rw [if_neg hne] at hcount
  omega

theorem Tracks.loose_pop (htr : s.Tracks i c st) {fs : List ServerFunctor}
    (hq : s.queue l = f :: fs) (hlife : f.lifecycle = true) (hconn : f.conn = i) :
    Loose i s { s with queue := Function.update s.queue l fs } := by
  have hdue := htr.due_of_mem (hq ▸ List.mem_cons_self) hlife hconn
  refine ⟨rfl, fun m g hg hgi ↦ ?_, fun m g hgi ↦ ?_, fun m g hg ↦ ?_⟩
  · have hcount := count_pop hq m g
    rw [htr.due m g hg hgi, hdue] at hcount
    change (Function.update s.queue l fs m).count g = 0
    by_cases hmg : m = l ∧ f = g
    · obtain ⟨rfl, rfl⟩ := hmg
      rw [if_pos rfl, if_pos ⟨rfl, rfl⟩] at hcount
      omega
    · have hne : some (l, f) ≠ some (m, g) := by
        simp only [ne_eq, Option.some.injEq, Prod.mk.injEq]
        exact fun heq ↦ hmg ⟨heq.1.symm, heq.2⟩
      rw [if_neg hne, if_neg hmg] at hcount
      omega
  · have hcount := count_pop hq m g
    have hne : ¬ (m = l ∧ f = g) := by
      rintro ⟨-, rfl⟩
      exact hgi hconn
    rw [if_neg hne] at hcount
    exact hcount.symm
  · change g ∈ Function.update s.queue l fs m at hg
    by_cases hm : m = l
    · subst hm
      rw [Function.update_self] at hg
      rw [hq]
      exact List.mem_cons_of_mem f hg
    · rwa [Function.update_of_ne hm] at hg

theorem NoneDue.push {q : ℕ → List ServerFunctor} (h : NoneDue q i)
    (hdue : st.due i l = some (m, f)) (m' : ℕ) (g : ServerFunctor) (hg : g.lifecycle = true)
    (hgi : g.conn = i) :
    (Function.update q m (q m ++ [f]) m').count g =
      if st.due i l = some (m', g) then 1 else 0 := by
  rw [count_push, h m' g hg hgi, Nat.zero_add, hdue]
  refine if_congr ?_ rfl rfl
  simp only [Option.some.injEq, Prod.mk.injEq]
  exact and_congr eq_comm Iff.rfl

end TcpServer

end PpDSCache.Net
