import PpDSCache.Net.TcpServerLifecycle

/-!
# The steps of a life

Each step takes a connection from one stage to the next, and leaves every other
connection at its own.
-/

namespace PpDSCache.Net

open Cpp Abstract Master

namespace TcpServer

variable {s r t : TcpServer} {i j l m : ℕ} {c d : ServerConn} {st : Stage} {f : ServerFunctor}
  {w : Write}

/-! ## Changing one connection -/

theorem Inv.touches_of (h : s.Inv) (hc : s.conns[i]? = some c)
    (hsame : r = { s with queue := r.queue })
    (hqueue : ∀ l f, f.conn ≠ i → (r.queue l).count f = (s.queue l).count f)
    (hsubset : ∀ l, ∀ f ∈ r.queue l, f ∈ s.queue l) (hname : d.name = c.name)
    (hloop : d.loop = c.loop)
    (hstate : c.conn.state ≠ .kConnecting → d.conn.state ≠ .kConnecting) :
    Touches i c d s (r.setConn i d) := by
  have hcalls : r.calls = s.calls := by rw [hsame]
  refine ⟨?_, ?_, hname, fun n _ ↦ ?_, hqueue, ?_, ?_⟩
  · rw [hsame]
    rfl
  · rw [hsame]
    exact ⟨rfl, rfl, rfl⟩
  · rw [hsame]
    rfl
  · intro l f hf hfi huser
    obtain ⟨e, he, hplace⟩ := h.queued l f (hsubset l f hf)
    rw [hfi] at he
    obtain rfl := Option.some.inj (hc.symm.trans he)
    rw [hloop]
    exact ⟨(hplace huser).1, hstate (hplace huser).2⟩
  · intro k hk
    change k ∈ r.calls at hk
    rw [hcalls] at hk
    by_cases hki : k.conn = i
    · obtain ⟨e, he, hold⟩ := h.calls k hk
      rw [hki] at he
      obtain rfl := Option.some.inj (hc.symm.trans he)
      exact .inl ⟨hki, hstate hold⟩
    · exact .inr ⟨hki, hk⟩

theorem Touches.push (ht : Touches i c d s t) (hf : f.conn = i)
    (huser : f.lifecycle = false → l = d.loop ∧ d.conn.state ≠ .kConnecting) :
    Touches i c d s (t.push l f) :=
  { ht with
    queue := by
      intro m g hg
      have hne : f ≠ g := fun heq ↦ hg (heq ▸ hf)
      change (Function.update t.queue l (t.queue l ++ [f]) m).count g = _
      rw [count_push, if_neg fun hmg ↦ hne hmg.2, Nat.add_zero]
      exact ht.queue m g hg
    users := by
      intro m g hg hgi hlife
      change g ∈ Function.update t.queue l (t.queue l ++ [f]) m at hg
      by_cases hm : m = l
      · subst hm
        rw [Function.update_self, List.mem_append, List.mem_singleton] at hg
        rcases hg with hg | rfl
        · exact ht.users m g hg hgi hlife
        · exact huser hlife
      · rw [Function.update_of_ne hm] at hg
        exact ht.users m g hg hgi hlife }

theorem Touches.setEntry (ht : Touches i c d s t) (v : Option ℕ) :
    Touches i c d s { t with connections := Function.update t.connections c.name v } :=
  { ht with
    others := by
      intro n hn
      change Function.update t.connections c.name v n = _
      rw [Function.update_of_ne hn]
      exact ht.others n hn }

theorem Inv.setConn (h : s.Inv) (hc : s.conns[i]? = some c) (htr : s.Tracks i c st)
    (hname : d.name = c.name) (hloop : d.loop = c.loop) (hat : d.At st) :
    (s.setConn i d).Inv ∧ (s.setConn i d).Tracks i d st := by
  have htracks : (s.setConn i d).Tracks i d st := by
    refine ⟨hat, ?_, ?_⟩
    · rw [hname]
      exact htr.entry
    · rw [hloop]
      exact htr.due
  have hstate : c.conn.state ≠ .kConnecting → d.conn.state ≠ .kConnecting := by
    rw [ne_eq, ne_eq, htr.at_stage.state_eq_kConnecting, hat.state_eq_kConnecting]
    exact id
  have ht : Touches i c d s (s.setConn i d) :=
    h.touches_of hc rfl (fun _ _ _ ↦ rfl) (fun _ _ hf ↦ hf) hname hloop hstate
  exact ⟨h.touch hc ht htracks, htracks⟩

theorem conn_setConn (hc : s.conns[i]? = some c) (d : ServerConn) :
    (s.setConn i d).conns[i]? = some d := List.getElem?_set_self (Inv.lt_length hc)

theorem setConn_self (hc : s.conns[i]? = some c) : s.setConn i c = s := by
  have hconns : s.conns.set i c = s.conns := by
    apply List.ext_getElem?
    intro j
    by_cases hj : j = i
    · subst hj
      rw [List.getElem?_set_self (Inv.lt_length hc), hc]
    · rw [List.getElem?_set_ne (Ne.symm hj)]
  rw [TcpServer.setConn, hconns]

/-- A handler that leaves the stage. -/
theorem Inv.onConn (h : s.Inv) (hc : s.conns[i]? = some c) (htr : s.Tracks i c st)
    {g : TcpConnection → TcpConnection} (hat : ServerConn.At { c with conn := g c.conn } st) :
    ∃ t, s.onConn i g = some t ∧ t.Inv ∧ t.Tracks i { c with conn := g c.conn } st ∧
      t.conns[i]? = some { c with conn := g c.conn } := by
  obtain ⟨hinv, htracks⟩ := h.setConn (d := { c with conn := g c.conn }) hc htr rfl rfl hat
  refine ⟨_, ?_, hinv, htracks, conn_setConn hc _⟩
  rw [TcpServer.onConn, hc, Option.map_some]

theorem Inv.pushUser (h : s.Inv) (hc : s.conns[i]? = some c) (hf : f.conn = i)
    (huser : f.lifecycle = false) (hstate : c.conn.state ≠ .kConnecting) :
    (s.push c.loop f).Inv := by
  obtain ⟨st, htr⟩ := h.tracks i c hc
  have ht : Touches i c c s (s.setConn i c) :=
    h.touches_of hc rfl (fun _ _ _ ↦ rfl) (fun _ _ hf ↦ hf) rfl rfl id
  rw [setConn_self hc] at ht
  refine h.touch hc (ht.push hf fun _ ↦ ⟨rfl, hstate⟩) ⟨htr.at_stage, htr.entry, ?_⟩
  intro m g hg hgi
  have hne : f ≠ g := by
    rintro rfl
    simp [hg] at huser
  change (Function.update s.queue c.loop (s.queue c.loop ++ [f]) m).count g = _
  rw [count_push, if_neg fun hmg ↦ hne hmg.2, Nat.add_zero]
  exact htr.due m g hg hgi

/-! ## The steps of a life -/

section Life

variable (h : s.Inv) (hc : s.conns[i]? = some c)

include h hc

theorem Inv.touches_loose (hl : Loose i s r) (hname : d.name = c.name) (hloop : d.loop = c.loop)
    (hstate : c.conn.state ≠ .kConnecting → d.conn.state ≠ .kConnecting) :
    Touches i c d s (r.setConn i d) :=
  h.touches_of hc hl.same hl.queue hl.subset hname hloop hstate

omit h in
theorem conn_of_loose (hl : Loose i s r) : r.conns[i]? = some c := by
  rw [hl.same]
  exact hc

omit hc h in
theorem connections_of_loose (hl : Loose i s r) : r.connections = s.connections := by
  rw [hl.same]

theorem Inv.connectEstablished (htr : s.Tracks i c .accepted) (hl : Loose i s r) :
    ∃ t, r.connectEstablished i c.loop = some t ∧ t.Inv := by
  have hat := htr.at_stage
  have hstate : c.conn.state = .kConnecting := hat.state_eq_kConnecting.mpr rfl
  have hopened : ServerConn.At
      { c with conn := c.conn.establish, establishedOn := c.establishedOn ++ [c.loop] }
      .opened := by
    refine ⟨List.mem_cons_self, ?_, fun hne ↦ absurd rfl hne, ?_, (fun hne ↦ by cases hne),
      hat.erased, hat.destroyed⟩
    · rw [TcpConnection.callbacks_establish, hat.callbacks]
      rfl
    · rw [hat.establishedOn]
      rfl
  refine ⟨_, ?_, h.touch hc (h.touches_loose hc hl (d := { c with
    conn := c.conn.establish, establishedOn := c.establishedOn ++ [c.loop] }) rfl rfl
    fun hne ↦ absurd hstate hne) ⟨hopened, ?_, ?_⟩⟩
  · rw [TcpServer.connectEstablished, conn_of_loose hc hl, Option.bind_some, if_pos rfl,
      TcpConnection.connectEstablished, if_pos hstate]
    rfl
  · exact (congrFun (connections_of_loose hl) c.name).trans htr.entry
  · exact fun m g hg hgi ↦ hl.none m g hg hgi

/-- The map loses the connection, and its own loop is to destroy it. -/
theorem Inv.removeConnectionInLoop (ht : Touches i c d s r) (hnone : NoneDue r.queue i)
    (hat : d.At .closed) (hentry : r.connections d.name = some i) :
    ∃ t, r.removeConnectionInLoop i = some t ∧ t.Inv ∧ t.conns.length = s.conns.length := by
  have hconn : r.conns[i]? = some d := ht.conn_self hc
  have hremoved : ServerConn.At { d with erased := d.erased + 1 } .removed := by
    refine ⟨hat.state, hat.callbacks, fun _ ↦ hat.channel (by simp), hat.establishedOn,
      (fun hne ↦ by cases hne), ?_, hat.destroyed⟩
    rw [hat.erased]
    rfl
  have hset : Touches i c { d with erased := d.erased + 1 } s
      ({ r with connections := Function.update r.connections c.name none }.setConn i
        { d with erased := d.erased + 1 }) :=
    { ht.setEntry none with
      conns := by
        change r.conns.set i _ = _
        rw [ht.conns, List.set_set] }
  refine ⟨_, ?_, h.touch hc (hset.push (f := .connectDestroyed i) (l := d.loop) rfl
    fun huser ↦ by cases huser) ⟨hremoved, ?_, ?_⟩, ?_⟩
  · rw [TcpServer.removeConnectionInLoop, hconn, Option.bind_some, hentry,
      if_pos (Option.isSome_some), ht.name]
  · change Function.update r.connections c.name none d.name = none
    rw [ht.name, Function.update_self]
  · exact fun m g hg hgi ↦ hnone.push rfl m g hg hgi
  · change (r.conns.set i _).length = _
    rw [List.length_set, ht.conns, List.length_set]

theorem Inv.handleClose (htr : s.Tracks i c .opened) :
    ∃ t, s.handleClose i = some t ∧ t.Inv ∧ t.conns.length = s.conns.length := by
  have hat := htr.at_stage
  have hconn : c.conn.handleClose = some (c.conn.disconnect.handOn .close) := if_pos hat.closes
  have hclosed : ServerConn.At { c with conn := c.conn.disconnect.handOn .close } .closed := by
    refine ⟨List.mem_singleton_self _, ?_, fun _ ↦ rfl, hat.establishedOn,
      (fun hne ↦ by cases hne), hat.erased, hat.destroyed⟩
    rw [TcpConnection.callbacks_handOn_close, TcpConnection.callbacks_disconnect, hat.callbacks]
    rfl
  have ht : Touches i c { c with conn := c.conn.disconnect.handOn .close } s
      (s.setConn i { c with conn := c.conn.disconnect.handOn .close }) :=
    h.touches_loose hc htr.loose rfl rfl fun _ ↦ by simp [TcpConnection.disconnect,
      TcpConnection.handOn]
  have hentry : s.connections c.name = some i := htr.entry
  rw [TcpServer.handleClose, hc, Option.bind_some, hconn, Option.bind_some, removeConnection]
  split_ifs
  · exact h.removeConnectionInLoop hc ht htr.loose.none hclosed hentry
  · refine ⟨_, rfl, h.touch hc (ht.push (f := .removeConnectionInLoop i) (l := 0) rfl
      fun huser ↦ by cases huser) ⟨hclosed, hentry, ?_⟩, List.length_set ..⟩
    exact fun m g hg hgi ↦ htr.loose.none.push rfl m g hg hgi

theorem Inv.connectDestroyed (htr : s.Tracks i c .removed) (hl : Loose i s r) :
    ∃ t, r.connectDestroyed i = some t ∧ t.Inv := by
  have hat := htr.at_stage
  have hstate : c.conn.state = .kDisconnected := List.mem_singleton.mp hat.state
  have hchannel : c.conn.channel.isNoneEvent = true := hat.channel (by simp)
  have hconn : c.conn.connectDestroyed =
      some { c.conn with channel := { c.conn.channel with addedToLoop := false } } := by
    have hne : c.conn.state ≠ .kConnected := by simp [hstate]
    rw [TcpConnection.connectDestroyed]
    simp only [if_neg hne, Channel.remove, if_pos hchannel, Option.map_some]
  have hdestroyed : ServerConn.At { c with
      conn := { c.conn with channel := { c.conn.channel with addedToLoop := false } }
      destroyed := c.destroyed + 1 } .destroyed := by
    refine ⟨hat.state, hat.callbacks, fun _ ↦ hchannel, hat.establishedOn,
      (fun hne ↦ by cases hne), hat.erased, ?_⟩
    rw [hat.destroyed]
    rfl
  refine ⟨_, ?_, h.touch hc (h.touches_loose hc hl (d := { c with
    conn := { c.conn with channel := { c.conn.channel with addedToLoop := false } }
    destroyed := c.destroyed + 1 }) rfl rfl id) ⟨hdestroyed, ?_, ?_⟩⟩
  · rw [TcpServer.connectDestroyed, conn_of_loose hc hl, Option.bind_some, hconn]
    rfl
  · exact (congrFun (connections_of_loose hl) c.name).trans htr.entry
  · exact fun m g hg hgi ↦ hl.none m g hg hgi

end Life

/-! ## Accepting -/

theorem Inv.connName_ne (h : s.Inv) (hfew : s.nextConnId < 2 ^ 31) (hc : s.conns[i]? = some c) :
    c.name ≠ s.connName := by
  intro heq
  rw [h.name i c hc, connName] at heq
  have hi := lt_length hc
  have hnext := h.nextConnId
  have hid := nameBuf_injective h.ipPort (by omega) hfew (List.append_cancel_left heq)
  omega

theorem at_nextConn (s : TcpServer) : s.nextConn.At .accepted where
  state := List.mem_singleton_self _
  callbacks := rfl
  channel := fun _ ↦ rfl
  establishedOn := rfl
  handled := fun _ ↦ rfl
  erased := rfl
  destroyed := rfl

theorem Inv.noneDue_length (h : s.Inv) : NoneDue s.queue s.conns.length := by
  intro l f _ hf
  rw [List.count_eq_zero]
  intro hmem
  have hlt := h.conn_lt hmem
  omega

/-- The accepted connection with its first functor. -/
def acceptQueued (s : TcpServer) : TcpServer :=
  s.accept.push s.getNextLoop.1 (.connectEstablished s.conns.length)

theorem conns_acceptQueued (h : s.acceptQueued.conns[j]? = some d) :
    s.conns[j]? = some d ∨ j = s.conns.length ∧ d = s.nextConn := by
  change (s.conns ++ [s.nextConn])[j]? = some d at h
  rcases lt_trichotomy j s.conns.length with hlt | rfl | hgt
  · rw [List.getElem?_append_left hlt] at h
    exact .inl h
  · rw [List.getElem?_concat_length] at h
    exact .inr ⟨rfl, (Option.some.inj h).symm⟩
  · rw [List.getElem?_eq_none (by simp; omega)] at h
    cases h

theorem conn_acceptQueued (hc : s.conns[i]? = some c) : s.acceptQueued.conns[i]? = some c := by
  change (s.conns ++ [s.nextConn])[i]? = some c
  rw [List.getElem?_append_left (Inv.lt_length hc), hc]

theorem nextConn_acceptQueued (s : TcpServer) :
    s.acceptQueued.conns[s.conns.length]? = some s.nextConn := List.getElem?_concat_length

theorem Inv.tracks_nextConn (h : s.Inv) :
    s.acceptQueued.Tracks s.conns.length s.nextConn .accepted := by
  have hdue : Stage.due s.conns.length s.nextConn.loop .accepted =
      some (s.getNextLoop.1, .connectEstablished s.conns.length) := rfl
  refine ⟨at_nextConn s, Function.update_self .., fun m g hg hgi ↦ ?_⟩
  exact h.noneDue_length.push hdue m g hg hgi

theorem Inv.tracks_acceptQueued (h : s.Inv) (hfew : s.nextConnId < 2 ^ 31)
    (hc : s.conns[i]? = some c) (htr : s.Tracks i c st) : s.acceptQueued.Tracks i c st := by
  refine ⟨htr.at_stage, ?_, fun m g hg hgi ↦ ?_⟩
  · change Function.update s.connections s.connName _ c.name = _
    rw [Function.update_of_ne (h.connName_ne hfew hc)]
    exact htr.entry
  · have hne : ServerFunctor.connectEstablished s.conns.length ≠ g := by
      rintro rfl
      have hlt := lt_length hc
      exact absurd hgi (Nat.ne_of_gt hlt)
    change (Function.update s.queue _ (s.queue _ ++ [_]) m).count g = _
    rw [count_push, if_neg fun hmg ↦ hne hmg.2, Nat.add_zero]
    exact htr.due m g hg hgi

theorem Inv.acceptQueued (h : s.Inv) (hfew : s.nextConnId < 2 ^ 31) : s.acceptQueued.Inv := by
  have hlength : s.acceptQueued.conns.length = s.conns.length + 1 := List.length_append
  have hnext := h.nextConnId
  refine ⟨h.ipPort, ?_, by omega, ?_, ?_, ?_, ?_, ?_⟩
  · rw [hlength]
    exact congrArg (· + 1) hnext
  · intro j d hd
    rcases conns_acceptQueued hd with hd | ⟨rfl, rfl⟩
    · exact h.name j d hd
    · rw [← hnext]
      rfl
  · intro n j hn
    change Function.update s.connections s.connName (some s.conns.length) n = some j at hn
    by_cases hname : n = s.connName
    · rw [hname, Function.update_self] at hn
      obtain rfl := Option.some.inj hn
      exact ⟨s.nextConn, nextConn_acceptQueued s, hname.symm⟩
    · rw [Function.update_of_ne hname] at hn
      obtain ⟨d, hd, hdn⟩ := h.entry n j hn
      exact ⟨d, conn_acceptQueued hd, hdn⟩
  · intro j d hd
    rcases conns_acceptQueued hd with hd | ⟨rfl, rfl⟩
    · obtain ⟨st, hst⟩ := h.tracks j d hd
      exact ⟨st, h.tracks_acceptQueued hfew hd hst⟩
    · exact ⟨.accepted, h.tracks_nextConn⟩
  · intro m f hf
    have hor : f ∈ s.queue m ∨ f = .connectEstablished s.conns.length := by
      change f ∈ Function.update s.queue _ (s.queue _ ++ [_]) m at hf
      by_cases hm : m = s.getNextLoop.1
      · rw [hm, Function.update_self, List.mem_append, List.mem_singleton] at hf
        rwa [hm]
      · rw [Function.update_of_ne hm] at hf
        exact .inl hf
    rcases hor with hf | rfl
    · obtain ⟨d, hd, huser⟩ := h.queued m f hf
      exact ⟨d, conn_acceptQueued hd, huser⟩
    · exact ⟨s.nextConn, nextConn_acceptQueued s, fun huser ↦ by cases huser⟩
  · intro k hk
    obtain ⟨d, hd, hstate⟩ := h.calls k hk
    exact ⟨d, conn_acceptQueued hd, hstate⟩

theorem Inv.newConnection (h : s.Inv) (hfew : s.nextConnId < 2 ^ 31) :
    ∃ t, s.newConnection = some t ∧ t.Inv := by
  have hinv := h.acceptQueued hfew
  rw [TcpServer.newConnection]
  split_ifs with hbase
  · -- on the base loop the functor is called at once
    have hloose : Loose s.conns.length s.acceptQueued s.accept := by
      refine ⟨rfl, h.noneDue_length, fun m g hg ↦ ?_, fun m g hg ↦ ?_⟩
      · have hne : ServerFunctor.connectEstablished s.conns.length ≠ g := fun heq ↦ hg (heq ▸ rfl)
        change _ = (Function.update s.queue _ (s.queue _ ++ [_]) m).count g
        rw [count_push, if_neg fun hmg ↦ hne hmg.2]
        rfl
      · rw [← List.count_pos_iff]
        change 0 < (Function.update s.queue _ (s.queue _ ++ [_]) m).count g
        rw [count_push]
        exact Nat.add_pos_left (List.count_pos_iff.mpr hg) _
    have hloop : s.nextConn.loop = 0 := hbase
    have := hinv.connectEstablished (nextConn_acceptQueued s) h.tracks_nextConn hloose
    rwa [hloop] at this
  · exact ⟨_, rfl, hinv⟩

end TcpServer

end PpDSCache.Net
