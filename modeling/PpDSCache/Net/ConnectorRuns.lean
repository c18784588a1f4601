import PpDSCache.Net.Connector

/-!
# Runs of the connector

Where no attempt is started while another is under way, at most one start is
pending, and only while nothing is being connected.
-/

namespace PpDSCache.Net

open Abstract

namespace Connector

variable {c d : Connector} {errno : ℤ}

/-- The starts that are queued or wait for their timer. -/
def pending (c : Connector) : ℕ := c.queue.count .startInLoop + c.timers.length

/-- No `resetChannel` is queued. -/
def NoReset (c : Connector) : Prop := ∀ n, .resetChannel n ∉ c.queue

/-- The channel and the `resetChannel` that is queued for it: there is none, or
the channel is polled, or its removal is queued before any start. -/
inductive Holds (c : Connector) : Prop
  | empty (h : c.channel = none) (hreset : c.NoReset) (hstate : c.state ≠ .kConnecting)
  | polled (n : ℕ) (ch : Channel) (h : c.channel = some (n, ch)) (hreset : c.NoReset)
      (hstate : c.state = .kConnecting)
  | removed (n : ℕ) (ch : Channel) (h : c.channel = some (n, ch)) (hnone : ch.isNoneEvent = true)
      (before after : List ConnectorFunctor)
      (hqueue : c.queue = before ++ .resetChannel n :: after)
      (hbefore : ∀ f ∈ before, f = .stopInLoop) (hafter : ∀ m, .resetChannel m ∉ after)
      (hstate : c.state ≠ .kConnecting)

structure Inv (c : Connector) : Prop where
  holds : c.Holds
  pending : c.pending ≤ 1
  idle : c.state ≠ .kDisconnected → c.pending = 0
  resets : ∀ r ∈ c.resets, r.2 = some r.1

theorem inv_new : Inv new where
  holds := .empty rfl (fun n ↦ List.not_mem_nil) (by decide)
  pending := Nat.zero_le 1
  idle := fun _ ↦ rfl
  resets := fun _ hr ↦ absurd hr List.not_mem_nil

end Connector

namespace ConnectorAct

open Connector

/-- A new attempt finds no other one: nothing is being connected and no start
is pending, and the channel of the last attempt has been destroyed when the
attempt begins at once. -/
def Alone (a : ConnectorAct) (c : Connector) : Prop :=
  match a with
  | startHere _ => c.state = .kDisconnected ∧ c.pending = 0 ∧ c.NoReset
  | startFromOther => c.state = .kDisconnected ∧ c.pending = 0
  | restart _ => c.state ≠ .kConnecting ∧ c.pending = 0 ∧ c.NoReset
  | runTimer _ _ => c.NoReset
  | _ => True

end ConnectorAct

namespace Connector

variable {c d : Connector} {errno : ℤ}

/-! ## Single steps -/

/-- An attempt that begins with no channel. -/
theorem Inv.startInLoop (h : c.Inv) (hstate : c.state = .kDisconnected) (hpending : c.pending = 0)
    (hchannel : c.channel = none) (hreset : c.NoReset) :
    ∃ d, c.startInLoop errno = some d ∧ d.Inv := by
  rw [Connector.startInLoop, if_pos hstate]
  split_ifs with hwanted
  · rw [connect]
    split_ifs
    · rw [connecting, if_pos hchannel]
      refine ⟨_, rfl, .polled c.made _ rfl hreset rfl, ?_, fun _ ↦ hpending, h.resets⟩
      exact (le_of_eq hpending).trans zero_le_one
    · refine ⟨_, rfl, ?_⟩
      rw [retry, if_pos hwanted]
      refine ⟨.empty hchannel hreset (by simp), ?_, fun hne ↦ absurd rfl hne, h.resets⟩
      simp only [Connector.pending, List.length_append, List.length_singleton] at hpending ⊢
      omega
    · exact ⟨c, rfl, h⟩
  · exact ⟨c, rfl, h⟩

theorem Inv.channel_eq_none (h : c.Inv) (hstate : c.state ≠ .kConnecting) (hreset : c.NoReset) :
    c.channel = none := by
  cases h.holds with
  | empty hchannel => exact hchannel
  | polled n ch hchannel hreset' hconnecting => exact absurd hconnecting hstate
  | removed n ch hchannel hnone before after hqueue =>
      refine absurd ?_ (hreset n)
      rw [hqueue]
      exact List.mem_append_right before List.mem_cons_self

/-- A connector that is connecting has its channel polled, and only calls of
`stop` are queued. -/
theorem Inv.polled (h : c.Inv) (hstate : c.state = .kConnecting) :
    (∃ n ch, c.channel = some (n, ch)) ∧ (∀ f ∈ c.queue, f = .stopInLoop) ∧ c.timers = [] := by
  have hpending : c.pending = 0 := h.idle (by simp [hstate])
  rw [Connector.pending, Nat.add_eq_zero_iff, List.count_eq_zero,
    List.length_eq_zero_iff] at hpending
  cases h.holds with
  | empty hchannel hreset hne => exact absurd hstate hne
  | removed n ch hchannel hnone before after hqueue hbefore hafter hne => exact absurd hstate hne
  | polled n ch hchannel hreset =>
      refine ⟨⟨n, ch, hchannel⟩, fun f hf ↦ ?_, hpending.2⟩
      cases f with
      | startInLoop => exact absurd hf hpending.1
      | stopInLoop => rfl
      | resetChannel m => exact absurd hf (hreset m)

theorem removeAndResetChannel_eq {n : ℕ} {ch : Channel} (hchannel : c.channel = some (n, ch)) :
    ∃ ch' : Channel, ch'.isNoneEvent = true ∧ c.removeAndResetChannel =
      some (push (.resetChannel n) { c with channel := some (n, ch') }) := by
  refine ⟨{ ch.disableAll with addedToLoop := false }, rfl, ?_⟩
  rw [removeAndResetChannel, hchannel]
  rfl

/-- The channel of an attempt is removed, and the attempt ends or is put off. -/
theorem Inv.ends (h : c.Inv) (hstate : c.state = .kConnecting) {n : ℕ} {ch : Channel}
    (hnone : ch.isNoneEvent = true) (hchannel : d.channel = some (n, ch))
    (hqueue : d.queue = c.queue ++ [.resetChannel n]) (hstate' : d.state ≠ .kConnecting)
    (htimers : d.timers.length ≤ 1) (hidle : d.state ≠ .kDisconnected → d.timers = [])
    (hresets : d.resets = c.resets) : d.Inv := by
  obtain ⟨-, hstops, -⟩ := h.polled hstate
  have hcount : d.queue.count .startInLoop = 0 := by
    rw [List.count_eq_zero, hqueue, List.mem_append, List.mem_singleton]
    rintro (hmem | hmem)
    · cases hstops _ hmem
    · cases hmem
  refine ⟨.removed n ch hchannel hnone c.queue [] hqueue hstops (fun m ↦ List.not_mem_nil) hstate',
    ?_, fun hne ↦ ?_, ?_⟩
  · rw [Connector.pending, hcount]
    omega
  · rw [Connector.pending, hcount, hidle hne]
    rfl
  · rw [hresets]
    exact h.resets

theorem Inv.retry (h : c.Inv) (hstate : c.state = .kConnecting) {n : ℕ} {ch : Channel}
    (hnone : ch.isNoneEvent = true) (hchannel : d.channel = some (n, ch))
    (hqueue : d.queue = c.queue ++ [.resetChannel n]) (htimers : d.timers = c.timers)
    (hresets : d.resets = c.resets) : d.retry.Inv := by
  rw [(h.polled hstate).2.2] at htimers
  rw [Connector.retry]
  split_ifs
  · refine h.ends hstate hnone hchannel hqueue (by simp) ?_ (fun hne ↦ absurd rfl hne) hresets
    rw [htimers]
    exact le_rfl
  · refine h.ends hstate hnone hchannel hqueue (by simp) ?_ (fun hne ↦ absurd rfl hne) hresets
    rw [htimers]
    exact Nat.zero_le 1

theorem Inv.handOver (h : c.Inv) (hstate : c.state = .kConnecting) {n : ℕ} {ch : Channel}
    (hnone : ch.isNoneEvent = true) (hchannel : d.channel = some (n, ch))
    (hqueue : d.queue = c.queue ++ [.resetChannel n]) (htimers : d.timers = c.timers)
    (hresets : d.resets = c.resets) : d.handOver.Inv := by
  rw [(h.polled hstate).2.2] at htimers
  have hle : d.timers.length ≤ 1 := by
    rw [htimers]
    exact Nat.zero_le 1
  rw [Connector.handOver]
  split_ifs
  · exact h.ends hstate hnone hchannel hqueue (by simp) hle (fun _ ↦ htimers) hresets
  · exact h.ends hstate hnone hchannel hqueue (by simp) hle (fun _ ↦ htimers) hresets

theorem Inv.stopInLoop (h : c.Inv) : ∃ d, c.stopInLoop = some d ∧ d.Inv := by
  rw [Connector.stopInLoop]
  split_ifs with hstate
  · obtain ⟨⟨n, ch, hchannel⟩, -⟩ := h.polled hstate
    obtain ⟨ch', hnone, heq⟩ :=
      removeAndResetChannel_eq (show { c with state := .kDisconnected }.channel = _ from hchannel)
    rw [heq, Option.map_some]
    exact ⟨_, rfl, h.retry hstate hnone rfl rfl rfl rfl⟩
  · exact ⟨c, rfl, h⟩

theorem Inv.handleError (h : c.Inv) :
    ∃ d, c.handleError = some d ∧ d.Inv ∧ (d = c ∨ d.state = .kDisconnected) := by
  rw [Connector.handleError]
  split_ifs with hstate
  · obtain ⟨⟨n, ch, hchannel⟩, -⟩ := h.polled hstate
    obtain ⟨ch', hnone, heq⟩ := removeAndResetChannel_eq hchannel
    rw [heq, Option.map_some]
    refine ⟨_, rfl, h.retry hstate hnone rfl rfl rfl rfl, .inr ?_⟩
    rw [Connector.retry]
    split_ifs <;> rfl
  · exact ⟨c, rfl, h, .inl rfl⟩

theorem Inv.handleWrite (h : c.Inv) (hstate : c.state ≠ .kConnected) (soError : ℤ)
    (selfConnect : Bool) : ∃ d, c.handleWrite soError selfConnect = some d ∧ d.Inv := by
  rw [Connector.handleWrite]
  cases hs : c.state with
  | kDisconnected => exact ⟨c, rfl, h⟩
  | kConnected => exact absurd hs hstate
  | kConnecting =>
      obtain ⟨⟨n, ch, hchannel⟩, -⟩ := h.polled hs
      obtain ⟨ch', hnone, heq⟩ := removeAndResetChannel_eq hchannel
      rw [if_pos rfl, heq, Option.map_some]
      refine ⟨_, rfl, ?_⟩
      split_ifs
      · exact h.retry hs hnone rfl rfl rfl rfl
      · exact h.handOver hs hnone rfl rfl rfl rfl

/-- Only a polled channel has events, so the connector is connecting. -/
theorem Inv.handleEvent (h : c.Inv) {n : ℕ} {ch : Channel} (hchannel : c.channel = some (n, ch))
    (hevents : ch.isNoneEvent = false) (error write : Bool) (soError : ℤ) (selfConnect : Bool) :
    ∃ d, c.handleEvent error write soError selfConnect = some d ∧ d.Inv := by
  have hstate : c.state = .kConnecting := by
    cases h.holds with
    | empty hempty =>
        rw [hchannel] at hempty
        cases hempty
    | polled m ch' h' hreset hstate => exact hstate
    | removed m ch' h' hnone =>
        rw [hchannel] at h'
        cases h'
        rw [hevents] at hnone
        cases hnone
  have herror : ∃ d, (if error = true then c.handleError else some c) = some d ∧ d.Inv ∧
      d.state ≠ .kConnected := by
    split_ifs
    · obtain ⟨d, hd, hinv, rfl | hdisconnected⟩ := h.handleError
      · exact ⟨d, hd, hinv, by simp [hstate]⟩
      · exact ⟨d, hd, hinv, by simp [hdisconnected]⟩
    · exact ⟨c, rfl, h, by simp [hstate]⟩
  obtain ⟨d, hd, hinv, hne⟩ := herror
  rw [Connector.handleEvent, hd, Option.bind_some]
  split_ifs
  · exact hinv.handleWrite hne soError selfConnect
  · exact ⟨d, rfl, hinv⟩

/-! ## The queue -/

theorem Inv.push (h : c.Inv) {f : ConnectorFunctor} (hf : ∀ n, f ≠ .resetChannel n)
    (hstart : f = .startInLoop → c.state = .kDisconnected ∧ c.pending = 0) : (c.push f).Inv := by
  have hcount : (c.push f).pending = c.pending + if f = .startInLoop then 1 else 0 := by
    simp only [Connector.pending, Connector.push, List.count_append, List.count_singleton,
      beq_iff_eq]
    omega
  have hreset : c.NoReset → (c.push f).NoReset := by
    intro hreset n hn
    rcases List.mem_append.mp hn with hn | hn
    · exact hreset n hn
    · exact hf n (List.mem_singleton.mp hn).symm
  refine ⟨?_, ?_, fun hne ↦ ?_, h.resets⟩
  · cases h.holds with
    | empty hchannel hno hstate => exact .empty hchannel (hreset hno) hstate
    | polled n ch hchannel hno hstate => exact .polled n ch hchannel (hreset hno) hstate
    | removed n ch hchannel hnone before after hqueue hbefore hafter hstate =>
        refine .removed n ch hchannel hnone before (after ++ [f]) ?_ hbefore (fun m hm ↦ ?_) hstate
        · rw [Connector.push, hqueue, List.append_assoc, List.cons_append]
        · rcases List.mem_append.mp hm with hm | hm
          · exact hafter m hm
          · exact hf m (List.mem_singleton.mp hm).symm
  · rw [hcount]
    split_ifs with hfs
    · rw [(hstart hfs).2]
    · exact h.pending
  · rw [hcount, h.idle hne]
    split_ifs with hfs
    · exact absurd (hstart hfs).1 hne
    · rfl

/-- A start at the head of the queue finds no channel, for a `resetChannel`
stands before it. -/
theorem Inv.runStart (h : c.Inv) {fs : List ConnectorFunctor} (hq : c.queue = .startInLoop :: fs) :
    ∃ d, Connector.startInLoop errno { c with queue := fs } = some d ∧ d.Inv := by
  have hpos : 1 ≤ c.pending := by
    rw [Connector.pending, hq, List.count_cons_self]
    omega
  have hstate : c.state = .kDisconnected := by
    by_contra hne
    have hidle := h.idle hne
    omega
  have hchannel : c.channel = none ∧ c.NoReset := by
    cases h.holds with
    | empty hchannel hreset => exact ⟨hchannel, hreset⟩
    | polled n ch hchannel hreset hconnecting =>
        rw [hstate] at hconnecting
        cases hconnecting
    | removed n ch hchannel hnone before after hqueue hbefore =>
        rw [hq] at hqueue
        cases before with
        | nil => cases hqueue
        | cons f before =>
            have hhead := hbefore f List.mem_cons_self
            rw [hhead] at hqueue
            cases hqueue
  have hreset : NoReset { c with queue := fs } := fun n hn ↦
    hchannel.2 n (hq ▸ List.mem_cons_of_mem _ hn)
  have hcount : Connector.pending { c with queue := fs } = 0 := by
    have hle := h.pending
    rw [Connector.pending, hq, List.count_cons_self] at hle
    simp only [Connector.pending]
    omega
  have hinv : Inv { c with queue := fs } :=
    ⟨.empty hchannel.1 hreset (by simp [hstate]), by omega, fun _ ↦ hcount, h.resets⟩
  exact hinv.startInLoop hstate hcount hchannel.1 hreset

theorem Inv.runStop (h : c.Inv) {fs : List ConnectorFunctor} (hq : c.queue = .stopInLoop :: fs) :
    ∃ d, Connector.stopInLoop { c with queue := fs } = some d ∧ d.Inv := by
  have hcount : Connector.pending { c with queue := fs } = c.pending := by
    simp [Connector.pending, hq]
  have hreset : c.NoReset → NoReset { c with queue := fs } := fun hno n hn ↦
    hno n (hq ▸ List.mem_cons_of_mem _ hn)
  have hinv : Inv { c with queue := fs } := by
    refine ⟨?_, hcount ▸ h.pending, fun hne ↦ hcount.trans (h.idle hne), h.resets⟩
    cases h.holds with
    | empty hchannel hno hstate => exact .empty hchannel (hreset hno) hstate
    | polled n ch hchannel hno hstate => exact .polled n ch hchannel (hreset hno) hstate
    | removed n ch hchannel hnone before after hqueue hbefore hafter hstate =>
        rw [hq] at hqueue
        cases before with
        | nil => cases hqueue
        | cons f before =>
            obtain ⟨-, hrest⟩ := List.cons.inj hqueue
            exact .removed n ch hchannel hnone before after hrest
              (fun f' hf' ↦ hbefore f' (List.mem_cons_of_mem f hf')) hafter hstate
  exact hinv.stopInLoop

theorem Inv.runReset (h : c.Inv) {n : ℕ} {fs : List ConnectorFunctor}
    (hq : c.queue = .resetChannel n :: fs) : (resetChannel n { c with queue := fs }).Inv := by
  have hmem : .resetChannel n ∈ c.queue := hq ▸ List.mem_cons_self
  cases h.holds with
  | empty hchannel hno => exact absurd hmem (hno n)
  | polled m ch hchannel hno => exact absurd hmem (hno n)
  | removed m ch hchannel hnone before after hqueue hbefore hafter hstate =>
      rw [hq] at hqueue
      cases before with
      | cons f before =>
          have hhead := hbefore f List.mem_cons_self
          rw [hhead] at hqueue
          cases hqueue
      | nil =>
          obtain ⟨hnm, rfl⟩ := List.cons.inj hqueue
          obtain rfl := ConnectorFunctor.resetChannel.inj hnm
          have hcount : (resetChannel n { c with queue := fs }).pending = c.pending := by
            simp [Connector.pending, Connector.resetChannel, hq]
          refine ⟨.empty rfl hafter hstate, hcount ▸ h.pending,
            fun hne ↦ hcount.trans (h.idle hne), fun r hr ↦ ?_⟩
          rcases List.mem_append.mp hr with hr | hr
          · exact h.resets r hr
          · obtain rfl := List.mem_singleton.mp hr
            exact congrArg (Option.map Prod.fst) hchannel

theorem Inv.runNext (h : c.Inv) (hq : c.queue ≠ []) (errno : ℤ) :
    ∃ d, c.runNext errno = some d ∧ d.Inv := by
  obtain ⟨f, fs, hfs⟩ := List.exists_cons_of_ne_nil hq
  rw [Connector.runNext, hfs]
  cases f with
  | startInLoop => exact h.runStart hfs
  | stopInLoop => exact h.runStop hfs
  | resetChannel n => exact ⟨_, rfl, h.runReset hfs⟩

theorem Inv.runTimer (h : c.Inv) {k : ℕ} (hk : k < c.timers.length) (hreset : c.NoReset) :
    ∃ d, Connector.startInLoop errno { c with timers := c.timers.eraseIdx k } = some d ∧ d.Inv := by
  have hlength := List.length_eraseIdx_of_lt hk
  have hle := h.pending
  have hstate : c.state = .kDisconnected := by
    by_contra hne
    have hidle := h.idle hne
    rw [Connector.pending] at hidle
    omega
  have hcount : Connector.pending { c with timers := c.timers.eraseIdx k } = 0 := by
    simp only [Connector.pending] at hle ⊢
    omega
  have hchannel := h.channel_eq_none (by simp [hstate]) hreset
  have hinv : Inv { c with timers := c.timers.eraseIdx k } :=
    ⟨.empty hchannel hreset (by simp [hstate]), by omega, fun _ ↦ hcount, h.resets⟩
  exact hinv.startInLoop hstate hcount hchannel hreset

theorem Inv.restart (h : c.Inv) (hstate : c.state ≠ .kConnecting) (hpending : c.pending = 0)
    (hreset : c.NoReset) : ∃ d, c.restart errno = some d ∧ d.Inv := by
  have hchannel := h.channel_eq_none hstate hreset
  have hinv : Inv { c with
      state := .kDisconnected, retryDelayMs := kInitRetryDelayMs, wanted := true } :=
    ⟨.empty hchannel hreset (by simp), h.pending, fun hne ↦ absurd rfl hne, h.resets⟩
  exact hinv.startInLoop rfl hpending hchannel hreset

/-- Nothing depends on `connect_` or the connection handed over. -/
theorem Inv.setUser (h : c.Inv) (wanted : Bool) (conn : HandedOver) :
    Inv { c with wanted := wanted, conn := conn } := by
  refine ⟨?_, h.pending, h.idle, h.resets⟩
  cases h.holds with
  | empty hchannel hno hstate => exact .empty hchannel hno hstate
  | polled n ch hchannel hno hstate => exact .polled n ch hchannel hno hstate
  | removed n ch hchannel hnone before after hqueue hbefore hafter hstate =>
      exact .removed n ch hchannel hnone before after hqueue hbefore hafter hstate

theorem Inv.exec (h : c.Inv) {a : ConnectorAct} (hok : a.Enabled c ∧ a.Alone c) :
    ∃ d, a.exec c = some d ∧ d.Inv := by
  obtain ⟨hen, halone⟩ := hok
  cases a with
  | setConnect connect => exact ⟨_, rfl, h.setUser connect c.conn⟩
  | startHere errno =>
      obtain ⟨hstate, hpending, hreset⟩ := halone
      exact h.startInLoop hstate hpending (h.channel_eq_none (by simp [hstate]) hreset) hreset
  | startFromOther => exact ⟨_, rfl, h.push (fun n ↦ by simp) fun _ ↦ halone⟩
  | stop => exact ⟨_, rfl, h.push (fun n ↦ by simp) fun heq ↦ by cases heq⟩
  | restart errno => exact h.restart halone.1 halone.2.1 halone.2.2
  | runFunctor errno => exact h.runNext hen errno
  | runTimer k errno => exact h.runTimer hen halone
  | handleEvent error write soError selfConnect =>
      obtain ⟨n, ch, hchannel, hevents⟩ := hen
      exact h.handleEvent hchannel hevents error write soError selfConnect
  | connectionClosed => exact ⟨_, rfl, h.setUser c.wanted .closed⟩

/-- Where every attempt is alone, no assertion fails, and each `resetChannel`
destroys the channel it was queued for. -/
theorem exists_run_of_alone {acts : List ConnectorAct}
    (hok : EachStep ConnectorAct.exec (fun a c ↦ a.Enabled c ∧ a.Alone c) acts new) :
    ∃ c, runAll ConnectorAct.exec acts new = some c ∧ ∀ r ∈ c.resets, r.2 = some r.1 := by
  obtain ⟨c, hc, hinv⟩ := exists_runAll (fun a c h hok ↦ h.exec hok) inv_new hok
  exact ⟨c, hc, hinv.resets⟩

/-- A refused attempt, one that is stopped while it is under way, and a start
from another thread. -/
theorem exists_run_of_alone_stop :
    ∃ c, runAll ConnectorAct.exec [.setConnect true, .startHere 111, .runTimer 0 115,
        .setConnect false, .stop, .runFunctor 0, .setConnect true, .startFromOther, .runFunctor 0,
        .runFunctor 115, .handleEvent false true 0 false] new = some c ∧
      ∀ r ∈ c.resets, r.2 = some r.1 := by
  have hnone : HandedOver.none ≠ .alive := by decide
  apply exists_run_of_alone
  refine eachStep_cons ⟨trivial, trivial⟩ rfl ?_
  refine eachStep_cons ⟨hnone, rfl, rfl, fun n ↦ List.not_mem_nil⟩ rfl ?_
  refine eachStep_cons ⟨Nat.zero_lt_one, fun n ↦ List.not_mem_nil⟩ rfl ?_
  refine eachStep_cons ⟨trivial, trivial⟩ rfl (eachStep_cons ⟨trivial, trivial⟩ rfl ?_)
  refine eachStep_cons ⟨List.cons_ne_nil _ _, trivial⟩ rfl ?_
  refine eachStep_cons ⟨trivial, trivial⟩ rfl ?_
  refine eachStep_cons ⟨hnone, rfl, rfl⟩ rfl ?_
  refine eachStep_cons ⟨List.cons_ne_nil _ _, trivial⟩ rfl ?_
  refine eachStep_cons ⟨List.cons_ne_nil _ _, trivial⟩ rfl ?_
  exact eachStep_cons ⟨⟨_, _, rfl, rfl⟩, trivial⟩ rfl trivial

/-- The timer of an attempt that has been stopped fires while the next attempt
is under way, and the assertion of `startInLoop` fails. -/
theorem not_exists_run_timer :
    ∃ acts, EachStep ConnectorAct.exec ConnectorAct.Enabled acts new ∧
      runAll ConnectorAct.exec acts new = none := by
  refine ⟨[.setConnect true, .startHere 111, .setConnect false, .stop, .runFunctor 0,
    .setConnect true, .startHere 115, .runTimer 0 115], ?_, rfl⟩
  refine eachStep_cons trivial rfl (eachStep_cons (by decide : HandedOver.none ≠ .alive) rfl ?_)
  refine eachStep_cons trivial rfl (eachStep_cons trivial rfl ?_)
  refine eachStep_cons (List.cons_ne_nil _ _) rfl (eachStep_cons trivial rfl ?_)
  refine eachStep_cons (by decide : HandedOver.none ≠ .alive) rfl ?_
  exact ⟨Nat.zero_lt_one, fun t ht ↦ by cases ht⟩

end Connector

end PpDSCache.Net
