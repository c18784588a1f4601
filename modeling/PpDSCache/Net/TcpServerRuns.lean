import PpDSCache.Net.TcpServerSteps

/-!
# Runs of the server

Every handler, functor and call keeps the stages of the connections, unless
another thread writes `state_` after the connection has been closed.
-/

namespace PpDSCache.Net

open Cpp Abstract Master

/-! ## What may happen -/

namespace ServerAct

/-- What may happen next: a channel is only reported while it asks for events,
and a call goes through its steps in order. -/
def Enabled (a : ServerAct) (s : TcpServer) : Prop :=
  match a with
  | newConnection => s.nextConnId < 2 ^ 31
  | handleEvent i e _ _ =>
      (∃ c, s.conns[i]? = some c ∧ c.conn.channel.isNoneEvent = false) ∧
        (e.hup = true → e.pollin = false → e.pri = false ∧ e.rdhup = false)
  | runFunctor l _ => s.queue l ≠ []
  | send i _ _ | shutdown i | forceClose i | beginCall i _ => i < s.conns.length
  | storeState k => k ∈ s.calls ∧ k.stored = false ∧ (k.call = .shutdown ∨ k.call = .forceClose)
  | queueCall k => k ∈ s.calls ∧ (k.stored = true ∨ ∃ data, k.call = .send data)

/-- The connection has not been closed since the call tested its state. -/
def StillOpen (a : ServerAct) (s : TcpServer) : Prop :=
  match a with
  | storeState k => ∀ c, s.conns[k.conn]? = some c → c.conn.state ≠ .kDisconnected
  | _ => True

end ServerAct

namespace TcpServer

variable {s t : TcpServer} {i l : ℕ} {c : ServerConn} {st : Stage} {f : ServerFunctor} {w : Write}

/-! ## Handlers -/

theorem Inv.exists_tracks (h : s.Inv) (hi : i < s.conns.length) :
    ∃ c st, s.conns[i]? = some c ∧ s.Tracks i c st := by
  obtain ⟨st, htr⟩ := h.tracks i s.conns[i] (List.getElem?_eq_getElem hi)
  exact ⟨s.conns[i], st, List.getElem?_eq_getElem hi, htr⟩

theorem Tracks.closed_of_ne (htr : s.Tracks i c st) (hne : st ≠ .opened)
    (hstate : c.conn.state ≠ .kConnecting) : c.conn.state = .kDisconnected := by
  have hmem := htr.at_stage.state
  have haccepted := mt htr.at_stage.state_eq_kConnecting.mpr hstate
  cases st with
  | accepted => exact absurd rfl haccepted
  | opened => exact absurd rfl hne
  | closed => exact List.mem_singleton.mp hmem
  | removed => exact List.mem_singleton.mp hmem
  | destroyed => exact List.mem_singleton.mp hmem

theorem Inv.handleWrite (h : s.Inv) (hi : i < s.conns.length) (w : Write) :
    ∃ t, s.onConn i (TcpConnection.handleWrite w) = some t ∧ t.Inv := by
  obtain ⟨c, st, hc, htr⟩ := h.exists_tracks hi
  have hat : ServerConn.At { c with conn := c.conn.handleWrite w } st := by
    apply htr.at_stage.keep (TcpConnection.keeps_handleWrite w c.conn)
    intro hne
    have hnone := htr.at_stage.channel hne
    rw [TcpConnection.handleWrite_of_isNoneEvent hnone]
    exact hnone
  obtain ⟨t, ht, hinv, -⟩ := h.onConn hc htr hat
  exact ⟨t, ht, hinv⟩

theorem Inv.sendInLoop (h : s.Inv) (hc : s.conns[i]? = some c)
    (hstate : c.conn.state ≠ .kConnecting) (w : Write) (data : Text) :
    ∃ t, s.onConn i (TcpConnection.sendInLoop w data) = some t ∧ t.Inv := by
  obtain ⟨st, htr⟩ := h.tracks i c hc
  have hat : ServerConn.At { c with conn := c.conn.sendInLoop w data } st := by
    apply htr.at_stage.keep (TcpConnection.keeps_sendInLoop w data c.conn)
    intro hne
    -- a closed connection gives up writing
    have hsame : c.conn.sendInLoop w data = c.conn := if_pos (htr.closed_of_ne hne hstate)
    rw [hsame]
    exact htr.at_stage.channel hne
  obtain ⟨t, ht, hinv, -⟩ := h.onConn hc htr hat
  exact ⟨t, ht, hinv⟩

theorem Inv.shutdownInLoop (h : s.Inv) (hi : i < s.conns.length) :
    ∃ t, s.onConn i TcpConnection.shutdownInLoop = some t ∧ t.Inv := by
  obtain ⟨c, st, hc, htr⟩ := h.exists_tracks hi
  have hat : ServerConn.At { c with conn := c.conn.shutdownInLoop } st := by
    apply htr.at_stage.keep (TcpConnection.keeps_shutdownInLoop c.conn)
    intro hne
    rw [TcpConnection.channel_shutdownInLoop]
    exact htr.at_stage.channel hne
  obtain ⟨t, ht, hinv, -⟩ := h.onConn hc htr hat
  exact ⟨t, ht, hinv⟩

theorem at_disconnecting (hat : c.At .opened) :
    ServerConn.At { c with conn := disconnecting c.conn } .opened :=
  { hat with
    state := List.mem_cons_of_mem _ (List.mem_singleton_self _)
    channel := fun hne ↦ absurd rfl hne }

theorem Inv.forceCloseInLoop (h : s.Inv) (hc : s.conns[i]? = some c) :
    ∃ t, s.forceCloseInLoop i = some t ∧ t.Inv := by
  rw [TcpServer.forceCloseInLoop, hc, Option.bind_some]
  split_ifs with hopen
  · obtain ⟨st, htr⟩ := h.tracks i c hc
    obtain rfl := htr.at_stage.opened_of_state hopen
    obtain ⟨t, ht, hinv, -⟩ := h.handleClose hc htr
    exact ⟨t, ht, hinv⟩
  · exact ⟨s, rfl, h⟩

/-! ## Events -/

theorem Inv.countEvent (h : s.Inv) (hc : s.conns[i]? = some c) (htr : s.Tracks i c .opened) :
    ∃ t d, s.countEvent i = some t ∧ t.Inv ∧ t.conns[i]? = some d ∧ t.Tracks i d .opened := by
  have hat : ServerConn.At { c with handled := c.handled + 1 } .opened :=
    { htr.at_stage with handled := fun hne ↦ by cases hne }
  have hname : ({ c with handled := c.handled + 1 } : ServerConn).name = c.name := rfl
  have hloop : ({ c with handled := c.handled + 1 } : ServerConn).loop = c.loop := rfl
  obtain ⟨hinv, htracks⟩ := h.setConn hc htr hname hloop hat
  refine ⟨_, _, ?_, hinv, conn_setConn hc _, htracks⟩
  rw [TcpServer.countEvent, hc, Option.map_some]

theorem Inv.handleRead (h : s.Inv) (hc : s.conns[i]? = some c) (htr : s.Tracks i c .opened)
    (r : Readv) : ∃ t, s.handleRead i r = some t ∧ t.Inv ∧ t.conns.length = s.conns.length := by
  have hkept : ∀ d, c.conn.Keeps d → c.conn.handleRead r = some d → ∃ t,
      ((s.conns[i]?).bind fun c ↦ (c.conn.handleRead r).map fun conn ↦
        s.setConn i { c with conn := conn }) = some t ∧ t.Inv ∧
          t.conns.length = s.conns.length := by
    intro d hkeeps hd
    have hat : ServerConn.At { c with conn := d } .opened :=
      htr.at_stage.keep hkeeps fun hne ↦ absurd rfl hne
    have hname : ({ c with conn := d } : ServerConn).name = c.name := rfl
    have hloop : ({ c with conn := d } : ServerConn).loop = c.loop := rfl
    refine ⟨_, ?_, (h.setConn hc htr hname hloop hat).1, List.length_set ..⟩
    rw [hc, Option.bind_some, hd, Option.map_some]
  cases r with
  | failed errno => exact hkept c.conn (.refl _) rfl
  | received data =>
      cases data with
      | nil => exact h.handleClose hc htr
      | cons b bs =>
          refine hkept (TcpConnection.handOn .message
            { c.conn with inputBuffer := c.conn.inputBuffer ++ b :: bs }) ⟨rfl, ?_⟩ ?_
          · simp [TcpConnection.handOn, TcpConnection.callbacks]
          · rw [TcpConnection.handleRead]
            exact if_pos (Nat.succ_pos bs.length)

theorem Inv.handleEvent (h : s.Inv) (hc : s.conns[i]? = some c)
    (hchannel : c.conn.channel.isNoneEvent = false) {e : Revents}
    (hhup : e.hup = true → e.pollin = false → e.pri = false ∧ e.rdhup = false) (r : Readv)
    (w : Write) : ∃ t, s.handleEvent i e r w = some t ∧ t.Inv := by
  obtain ⟨st, htr⟩ := h.tracks i c hc
  obtain rfl : st = .opened := by
    by_contra hne
    simp [htr.at_stage.channel hne] at hchannel
  have hwrite : ∀ u : TcpServer, u.Inv → i < u.conns.length →
      ∃ t, (if e.out = true then u.onConn i (TcpConnection.handleWrite w) else some u) = some t ∧
        t.Inv := by
    intro u hu hi
    split_ifs
    · exact hu.handleWrite hi w
    · exact ⟨u, rfl, hu⟩
  obtain ⟨u, d, hu, hinv, hd, htrd⟩ := h.countEvent hc htr
  have hi := lt_length hd
  rw [TcpServer.handleEvent, hu, Option.bind_some]
  by_cases hclose : e.hup = true ∧ e.pollin = false
  · -- nothing is read after the connection has been closed
    obtain ⟨hpri, hrdhup⟩ := hhup hclose.1 hclose.2
    obtain ⟨v, hv, hvinv, hlength⟩ := hinv.handleClose hd htrd
    have hread : ¬ (e.pollin = true ∨ e.pri = true ∨ e.rdhup = true) := by
      simp [hclose.2, hpri, hrdhup]
    rw [if_pos hclose, hv, Option.bind_some, if_neg hread, Option.bind_some]
    exact hwrite v hvinv (hlength ▸ hi)
  · rw [if_neg hclose, Option.bind_some]
    by_cases hread : e.pollin = true ∨ e.pri = true ∨ e.rdhup = true
    · obtain ⟨v, hv, hvinv, hlength⟩ := hinv.handleRead hd htrd r
      rw [if_pos hread, hv, Option.bind_some]
      exact hwrite v hvinv (hlength ▸ hi)
    · rw [if_neg hread, Option.bind_some]
      exact hwrite u hinv hi

/-! ## Functors -/

theorem Inv.popUser (h : s.Inv) {fs : List ServerFunctor} (hq : s.queue l = f :: fs)
    (huser : f.lifecycle = false) :
    Inv { s with queue := Function.update s.queue l fs } := by
  have hsubset : ∀ m, ∀ g ∈ Function.update s.queue l fs m, g ∈ s.queue m := by
    intro m g hg
    by_cases hm : m = l
    · subst hm
      rw [Function.update_self] at hg
      rw [hq]
      exact List.mem_cons_of_mem f hg
    · rwa [Function.update_of_ne hm] at hg
  refine { h with tracks := fun j d hd ↦ ?_, queued := fun m g hg ↦ h.queued m g (hsubset m g hg) }
  obtain ⟨st, htr⟩ := h.tracks j d hd
  refine ⟨st, htr.at_stage, htr.entry, fun m g hg hgi ↦ ?_⟩
  have hne : ¬ (m = l ∧ f = g) := by
    rintro ⟨-, rfl⟩
    simp [hg] at huser
  have hcount := count_pop hq m g
  rw [if_neg hne, Nat.add_zero] at hcount
  exact hcount.symm.trans (htr.due m g hg hgi)

theorem stage_of_due {f : ServerFunctor} (h : st.due i l = some (j, f)) :
    st = .accepted ∧ j = l ∧ f = .connectEstablished i ∨
      st = .closed ∧ j = 0 ∧ f = .removeConnectionInLoop i ∨
        st = .removed ∧ j = l ∧ f = .connectDestroyed i := by
  cases st <;> simp only [Stage.due, Option.some.injEq, Prod.mk.injEq, reduceCtorEq] at h <;>
    obtain ⟨rfl, rfl⟩ := h <;> simp

theorem Inv.runLifecycle (h : s.Inv) {fs : List ServerFunctor} (hq : s.queue l = f :: fs)
    (hlife : f.lifecycle = true) (w : Write) :
    ∃ t, TcpServer.runFunctor l w f { s with queue := Function.update s.queue l fs } = some t ∧
      t.Inv := by
  have hmem : f ∈ s.queue l := hq ▸ List.mem_cons_self
  obtain ⟨c, hc, -⟩ := h.queued l f hmem
  obtain ⟨st, htr⟩ := h.tracks f.conn c hc
  have hloose := htr.loose_pop hq hlife rfl
  have hdue := htr.due_of_mem hmem hlife rfl
  rcases stage_of_due hdue with ⟨rfl, rfl, hf⟩ | ⟨rfl, rfl, hf⟩ | ⟨rfl, rfl, hf⟩
  · obtain ⟨t, ht, hinv⟩ := h.connectEstablished hc htr hloose
    refine ⟨t, ?_, hinv⟩
    rw [hf]
    exact ht
  · have htouches := h.touches_loose hc hloose rfl rfl id
    rw [setConn_self (conn_of_loose hc hloose)] at htouches
    obtain ⟨t, ht, hinv, -⟩ :=
      h.removeConnectionInLoop hc htouches hloose.none htr.at_stage htr.entry
    refine ⟨t, ?_, hinv⟩
    rw [hf, TcpServer.runFunctor, if_pos rfl]
    exact ht
  · obtain ⟨t, ht, hinv⟩ := h.connectDestroyed hc htr hloose
    refine ⟨t, ?_, hinv⟩
    rw [hf, TcpServer.runFunctor, if_pos]
    · exact ht
    · exact congrArg (Option.map ServerConn.loop) hc

theorem Inv.runNext (h : s.Inv) (hq : s.queue l ≠ []) (w : Write) :
    ∃ t, s.runNext l w = some t ∧ t.Inv := by
  obtain ⟨f, fs, hfs⟩ := List.exists_cons_of_ne_nil hq
  have hmem : f ∈ s.queue l := hfs ▸ List.mem_cons_self
  obtain ⟨c, hc, hplace⟩ := h.queued l f hmem
  rw [TcpServer.runNext, hfs]
  cases hlife : f.lifecycle with
  | true => exact h.runLifecycle hfs hlife w
  | false =>
      obtain ⟨hloop, hstate⟩ := hplace hlife
      have hinv := h.popUser hfs hlife
      have hon : (s.conns[f.conn]?).map ServerConn.loop = some l := by
        rw [hc, hloop]
        rfl
      cases f with
      | connectEstablished i => cases hlife
      | removeConnectionInLoop i => cases hlife
      | connectDestroyed i => cases hlife
      | forceCloseInLoop i =>
          obtain ⟨t, ht, htinv⟩ := hinv.forceCloseInLoop hc
          exact ⟨t, (if_pos hon).trans ht, htinv⟩
      | shutdownInLoop i =>
          obtain ⟨t, ht, htinv⟩ := hinv.shutdownInLoop (lt_length hc)
          exact ⟨t, (if_pos hon).trans ht, htinv⟩
      | sendInLoop i data =>
          obtain ⟨t, ht, htinv⟩ := hinv.sendInLoop hc hstate w data
          exact ⟨t, (if_pos hon).trans ht, htinv⟩

/-! ## Calls -/

theorem Inv.setCalls (h : s.Inv) {ks : List ForeignCall}
    (hks : ∀ k ∈ ks, ∃ c, s.conns[k.conn]? = some c ∧ c.conn.state ≠ .kConnecting) :
    Inv { s with calls := ks } := by
  refine { h with tracks := fun i c hc ↦ ?_, calls := hks }
  obtain ⟨st, htr⟩ := h.tracks i c hc
  exact ⟨st, htr.at_stage, htr.entry, htr.due⟩

/-- `state_` is written while the connection is open. -/
theorem Inv.disconnecting (h : s.Inv) (hc : s.conns[i]? = some c) (htr : s.Tracks i c .opened) :
    ∃ t, s.onConn i disconnecting = some t ∧ t.Inv ∧ t.calls = s.calls ∧
      t.conns[i]? = some { c with conn := TcpServer.disconnecting c.conn } := by
  obtain ⟨t, ht, hinv, -, hconn⟩ := h.onConn hc htr (at_disconnecting htr.at_stage)
  refine ⟨t, ht, hinv, ?_, hconn⟩
  rw [TcpServer.onConn, hc, Option.map_some] at ht
  obtain rfl := Option.some.inj ht
  rfl

theorem Inv.storeState (h : s.Inv) {k : ForeignCall} (hk : k ∈ s.calls)
    (hopen : ∀ c, s.conns[k.conn]? = some c → c.conn.state ≠ .kDisconnected) :
    ∃ t, ServerAct.exec (.storeState k) s = some t ∧ t.Inv := by
  obtain ⟨c, hc, hstate⟩ := h.calls k hk
  obtain ⟨st, htr⟩ := h.tracks k.conn c hc
  obtain rfl : st = .opened := by
    by_contra hne
    exact hopen c hc (htr.closed_of_ne hne hstate)
  obtain ⟨t, ht, hinv, hcalls, hconn⟩ := h.disconnecting hc htr
  have hmap := congrArg (Option.map fun u : TcpServer ↦
    { u with calls := u.calls.erase k ++ [{ k with stored := true }] }) ht
  refine ⟨_, hmap, hinv.setCalls fun k' hk' ↦ ?_⟩
  rcases List.mem_append.mp hk' with hk' | hk'
  · exact hinv.calls k' (List.mem_of_mem_erase hk')
  · obtain rfl := List.mem_singleton.mp hk'
    exact ⟨_, hconn, by simp [TcpServer.disconnecting]⟩

theorem conn_functorOf (i : ℕ) (call : UserCall) :
    (functorOf i call).conn = i ∧ (functorOf i call).lifecycle = false := by
  cases call <;> exact ⟨rfl, rfl⟩

theorem Inv.pushCall (h : s.Inv) {k : ForeignCall} (hk : k ∈ s.calls) :
    ∃ t, s.pushCall k = some t ∧ t.Inv := by
  obtain ⟨c, hc, hstate⟩ := h.calls k hk
  have hinv : Inv { s with calls := s.calls.erase k } :=
    h.setCalls fun k' hk' ↦ h.calls k' (List.mem_of_mem_erase hk')
  obtain ⟨hconn, huser⟩ := conn_functorOf k.conn k.call
  have hpush := hinv.pushUser hc hconn huser hstate
  refine ⟨_, ?_, hpush⟩
  rw [TcpServer.pushCall, hc, Option.map_some]

theorem ne_kConnecting_of_admits {call : UserCall} {state : StateE}
    (h : admits call state = true) : state ≠ .kConnecting := by
  rintro rfl
  cases call <;> simp [admits] at h

theorem Inv.shutdown (h : s.Inv) (hi : i < s.conns.length) :
    ∃ t, ServerAct.exec (.shutdown i) s = some t ∧ t.Inv := by
  obtain ⟨c, st, hc, htr⟩ := h.exists_tracks hi
  rw [ServerAct.exec, hc, Option.bind_some]
  split_ifs with hstate
  · obtain rfl := htr.at_stage.opened_of_state (.inl hstate)
    have hat : ServerConn.At
        { c with conn := (TcpServer.disconnecting c.conn).shutdownInLoop } .opened :=
      (at_disconnecting htr.at_stage).keep (TcpConnection.keeps_shutdownInLoop _)
        fun hne ↦ absurd rfl hne
    obtain ⟨t, ht, hinv, -⟩ :=
      h.onConn hc htr (g := fun c ↦ (TcpServer.disconnecting c).shutdownInLoop) hat
    exact ⟨t, ht, hinv⟩
  · exact ⟨s, rfl, h⟩

theorem Inv.forceClose (h : s.Inv) (hi : i < s.conns.length) :
    ∃ t, ServerAct.exec (.forceClose i) s = some t ∧ t.Inv := by
  obtain ⟨c, st, hc, htr⟩ := h.exists_tracks hi
  rw [ServerAct.exec, hc, Option.bind_some]
  split_ifs with hstate
  · obtain rfl := htr.at_stage.opened_of_state hstate
    obtain ⟨t, ht, hinv, -, hconn⟩ := h.disconnecting hc htr
    rw [ht, Option.map_some]
    have huser : (ServerFunctor.forceCloseInLoop i).lifecycle = false := rfl
    have hpush := hinv.pushUser hconn rfl huser (by simp [TcpServer.disconnecting])
    exact ⟨_, rfl, hpush⟩
  · exact ⟨s, rfl, h⟩

theorem Inv.exec (h : s.Inv) {a : ServerAct} (hok : a.Enabled s ∧ a.StillOpen s) :
    ∃ t, a.exec s = some t ∧ t.Inv := by
  obtain ⟨hen, hopen⟩ := hok
  cases a with
  | newConnection => exact h.newConnection hen
  | handleEvent i e r w =>
      obtain ⟨⟨c, hc, hchannel⟩, hhup⟩ := hen
      exact h.handleEvent hc hchannel hhup r w
  | runFunctor l w => exact h.runNext hen w
  | send i data w =>
      obtain ⟨c, st, hc, -⟩ := h.exists_tracks hen
      rw [ServerAct.exec, hc, Option.bind_some]
      split_ifs with hstate
      · exact h.sendInLoop hc (by simp [hstate]) w data
      · exact ⟨s, rfl, h⟩
  | shutdown i => exact h.shutdown hen
  | forceClose i => exact h.forceClose hen
  | beginCall i call =>
      obtain ⟨c, st, hc, -⟩ := h.exists_tracks hen
      rw [ServerAct.exec, hc, Option.map_some]
      split_ifs with hadmits
      · refine ⟨_, rfl, h.setCalls fun k hk ↦ ?_⟩
        rcases List.mem_append.mp hk with hk | hk
        · exact h.calls k hk
        · obtain rfl := List.mem_singleton.mp hk
          exact ⟨c, hc, ne_kConnecting_of_admits hadmits⟩
      · exact ⟨s, rfl, h⟩
  | storeState k => exact h.storeState hen.1 hopen
  | queueCall k => exact h.pushCall hen.1

end TcpServer

/-! ## The lives of the connections -/

/-- What holds of an accepted connection at any time. -/
structure ServerConn.Lives (c : ServerConn) : Prop where
  erased : c.erased ≤ 1
  established : c.establishedOn = [] ∨ c.establishedOn = [c.loop]
  handled : 0 < c.handled → c.establishedOn = [c.loop]
  callbacks : c.conn.callbacks ∈ [[], [true], [true, false]]
  destroyed : c.destroyed ≤ 1
  destroyed_after : 0 < c.destroyed → c.conn.callbacks = [true, false]

theorem ServerConn.At.lives {c : ServerConn} {st : Stage} (h : c.At st) : c.Lives := by
  obtain ⟨-, hcallbacks, -, hestablished, hhandled, herased, hdestroyed⟩ := h
  refine ⟨?_, ?_, ?_, ?_, ?_, ?_⟩
  · rw [herased]
    split_ifs <;> omega
  · rw [hestablished]
    split_ifs
    · exact .inl rfl
    · exact .inr rfl
  · intro hpos
    have hne : st ≠ .accepted := fun heq ↦ by
      have := hhandled heq
      omega
    rw [hestablished, if_neg hne]
  · rw [hcallbacks]
    cases st <;> simp [Stage.callbacks]
  · rw [hdestroyed]
    split_ifs <;> omega
  · intro hpos
    rw [hdestroyed] at hpos
    split_ifs at hpos with hst
    · rw [hcallbacks, hst]
      rfl
    · omega

namespace TcpServer

variable {s : TcpServer} {i : ℕ} {n : Text}

/-- The names differ, and the map holds the connections not yet erased. -/
structure Lives (s : TcpServer) : Prop where
  names : ∀ (i j : ℕ) (c d : ServerConn), s.conns[i]? = some c → s.conns[j]? = some d →
    c.name = d.name → i = j
  connections : ∀ n i, s.connections n = some i ↔
    ∃ c, s.conns[i]? = some c ∧ c.name = n ∧ c.erased = 0
  lives : ∀ c ∈ s.conns, c.Lives
  /-- `connectDestroyed` is run from a queue; the down callback was made before -/
  goesDownFirst : ∀ l i, .connectDestroyed i ∈ s.queue l →
    ∃ c, s.conns[i]? = some c ∧ c.conn.callbacks = [true, false] ∧ c.destroyed = 0

theorem listed_iff (st : Stage) :
    st.listed = true ↔ (if st = .removed ∨ st = .destroyed then 1 else 0) = 0 := by
  cases st <;> simp [Stage.listed]

theorem Inv.connections_iff (h : s.Inv) :
    s.connections n = some i ↔ ∃ c, s.conns[i]? = some c ∧ c.name = n ∧ c.erased = 0 := by
  constructor
  · intro hn
    obtain ⟨c, hc, rfl⟩ := h.entry n i hn
    obtain ⟨st, htr⟩ := h.tracks i c hc
    rw [htr.entry] at hn
    split_ifs at hn with hlisted
    refine ⟨c, hc, rfl, ?_⟩
    rw [htr.at_stage.erased]
    exact (listed_iff st).mp hlisted
  · rintro ⟨c, hc, rfl, herased⟩
    obtain ⟨st, htr⟩ := h.tracks i c hc
    rw [htr.at_stage.erased] at herased
    rw [htr.entry, if_pos ((listed_iff st).mpr herased)]

theorem Inv.goesDownFirst (h : s.Inv) (hmem : .connectDestroyed i ∈ s.queue l) :
    ∃ c, s.conns[i]? = some c ∧ c.conn.callbacks = [true, false] ∧ c.destroyed = 0 := by
  obtain ⟨c, hc, -⟩ := h.queued l _ hmem
  obtain ⟨st, htr⟩ := h.tracks i c hc
  rcases stage_of_due (htr.due_of_mem hmem rfl rfl) with ⟨-, -, hf⟩ | ⟨-, -, hf⟩ | ⟨rfl, -, -⟩
  · cases hf
  · cases hf
  · exact ⟨c, hc, htr.at_stage.callbacks, htr.at_stage.destroyed⟩

theorem Inv.lives (h : s.Inv) : s.Lives := by
  refine ⟨fun i j c d hc hd heq ↦ ?_, fun n i ↦ h.connections_iff, fun c hmem ↦ ?_,
    fun l i hmem ↦ h.goesDownFirst hmem⟩
  · by_contra hne
    exact h.name_ne hc hd hne heq
  · obtain ⟨i, hi⟩ := List.mem_iff_getElem?.mp hmem
    obtain ⟨st, htr⟩ := h.tracks i c hi
    exact htr.at_stage.lives

end TcpServer

end PpDSCache.Net
