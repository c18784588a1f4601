import PpDSCache.Net.TimerLoop

/-!
# The sets of the timer queue

A timer is in both sets, or on its way: waiting as a functor to be inserted,
or in the batch of expired timers.  Its address is used in one of these places
only, so that no operation finds a dangling pointer or a duplicate.
-/

namespace PpDSCache.Net

open Cpp Abstract

/-! ## Pointers in use -/

/-- Pointers to different live timers. -/
structure Pointers (h : TimerHeap) (ps : List ActiveTimer) : Prop where
  live : ∀ p ∈ ps, ∃ t, h.deref p = some t
  nodup : (ps.map ActiveTimer.timer).Nodup
  bound : ∀ p ∈ ps, p.timer < uintptrMax

namespace Pointers

variable {h h' : TimerHeap} {p r : ActiveTimer} {ps ps' : List ActiveTimer} {a : ℕ}

theorem perm (hps : Pointers h ps) (hperm : ps.Perm ps') : Pointers h ps' where
  live := fun p hp ↦ hps.live p (hperm.mem_iff.mpr hp)
  nodup := (hperm.map ActiveTimer.timer).nodup_iff.mp hps.nodup
  bound := fun p hp ↦ hps.bound p (hperm.mem_iff.mpr hp)

theorem congr (hps : Pointers h ps) (heq : ∀ p ∈ ps, h'.deref p = h.deref p) : Pointers h' ps where
  live := fun p hp ↦ by rw [heq p hp]; exact hps.live p hp
  nodup := hps.nodup
  bound := hps.bound

theorem ne_of_cons (hps : Pointers h (p :: ps)) (hr : r ∈ ps) : r.timer ≠ p.timer := by
  have hnot := (List.nodup_cons.mp hps.nodup).1
  exact fun heq ↦ hnot (List.mem_map.mpr ⟨r, hr, heq⟩)

theorem tail (hps : Pointers h (p :: ps)) : Pointers h ps where
  live := fun r hr ↦ hps.live r (List.mem_cons_of_mem p hr)
  nodup := (List.nodup_cons.mp hps.nodup).2
  bound := fun r hr ↦ hps.bound r (List.mem_cons_of_mem p hr)

theorem cell_ne_none (hps : Pointers h ps) (hp : p ∈ ps) : h.cell p.timer ≠ none := by
  obtain ⟨t, ht⟩ := hps.live p hp
  simp [(TimerHeap.deref_eq_some_iff.mp ht).1]

/-- Two pointers to one address are the same. -/
theorem eq_of_timer_eq (hps : Pointers h ps) (hp : p ∈ ps) (hr : r ∈ ps)
    (heq : p.timer = r.timer) : p = r := List.inj_on_of_nodup_map hps.nodup hp hr heq

theorem new (hps : Pointers h ps) (hfree : h.cell a = none) (hbound : a < uintptrMax)
    (time : ℤ) (repeats : Bool) (delta : ℕ) :
    Pointers (h.new a time repeats delta) (⟨a, h.numCreated + 1⟩ :: ps) := by
  have hne : ∀ r ∈ ps, r.timer ≠ a := fun r hr heq ↦ hps.cell_ne_none hr (heq ▸ hfree)
  have hold : Pointers (h.new a time repeats delta) ps :=
    hps.congr fun r hr ↦ TimerHeap.deref_new_of_ne (hne r hr)
  refine ⟨?_, ?_, ?_⟩
  · rintro r (_ | ⟨_, hr⟩)
    · exact ⟨_, TimerHeap.deref_new_self⟩
    · exact hold.live r hr
  · refine List.nodup_cons.mpr ⟨fun hmem ↦ ?_, hold.nodup⟩
    obtain ⟨r, hr, heq⟩ := List.mem_map.mp hmem
    exact hne r hr heq
  · rintro r (_ | ⟨_, hr⟩)
    · exact hbound
    · exact hold.bound r hr

end Pointers

namespace TimerQueue

/-- The entry that stands for the timer of the pointer. -/
def Stands (q : TimerQueue) (p : ActiveTimer) (e : Entry) : Prop :=
  ∃ t, q.heap.deref p = some t ∧ e = ⟨t.expiration, p.timer⟩

/-- What holds of the queue while the timers of `extra` are elsewhere, and
the entries of `es` have already left the first set. -/
structure Inv (es : List Entry) (extra : List ActiveTimer) (q : TimerQueue) : Prop where
  pointers : Pointers q.heap (q.activeTimers.elems ++ extra)
  entries : ∀ e, e ∈ q.timers ∨ e ∈ es ↔ ∃ p ∈ q.activeTimers, q.Stands p e
  disjoint : ∀ e ∈ es, e ∉ q.timers
  nodup : es.Nodup
  size : q.timers.size + es.length = q.activeTimers.size

theorem inv_new : Inv [] [] new where
  pointers := ⟨nofun, List.nodup_nil, nofun⟩
  entries := fun e ↦ by simp [new]
  disjoint := nofun
  nodup := List.nodup_nil
  size := rfl

namespace Inv

variable {q q' : TimerQueue} {es : List Entry} {extra extra' : List ActiveTimer} {p r : ActiveTimer}
  {e : Entry} {t : Timer} {heap : TimerHeap} {now : ℤ}

theorem perm (h : Inv es extra q) (hperm : extra.Perm extra') : Inv es extra' q :=
  { h with pointers := h.pointers.perm (hperm.append_left _) }

theorem sameSize (h : Inv [] extra q) : q.SameSize := h.size

theorem mem_timers (h : Inv [] extra q) : e ∈ q.timers ↔ ∃ p ∈ q.activeTimers, q.Stands p e := by
  rw [← h.entries e]
  simp

theorem live (h : Inv es extra q) (hp : p ∈ q.activeTimers) : ∃ t, q.heap.deref p = some t :=
  h.pointers.live p (List.mem_append_left _ hp)

theorem live_head (h : Inv es (p :: extra) q) : ∃ t, q.heap.deref p = some t :=
  h.pointers.live p (List.mem_append_right _ List.mem_cons_self)

theorem ne_head (h : Inv es (p :: extra) q) (hr : r ∈ q.activeTimers.elems ++ extra) :
    r.timer ≠ p.timer :=
  (h.pointers.perm List.perm_middle).ne_of_cons hr

theorem notMem_head (h : Inv es (p :: extra) q) : p ∉ q.activeTimers :=
  fun hp ↦ h.ne_head (List.mem_append_left _ hp) rfl

theorem congr_heap (h : Inv es extra q) (heap : TimerHeap)
    (heq : ∀ p ∈ q.activeTimers.elems ++ extra, heap.deref p = q.heap.deref p) :
    Inv es extra { q with heap := heap } where
  pointers := h.pointers.congr heq
  entries := by
    intro e
    rw [h.entries e]
    refine exists_congr fun p ↦ and_congr_right fun hp ↦ ?_
    simp only [Stands]
    rw [heq p (List.mem_append_left _ hp)]
  disjoint := h.disjoint
  nodup := h.nodup
  size := h.size

/-! ### Creating and inserting -/

theorem create (h : Inv [] extra q) {a : ℕ} (hfree : q.heap.cell a = none) (hbound : a < uintptrMax)
    (time : ℤ) (repeats : Bool) (delta : ℕ) :
    Inv [] (⟨a, q.heap.numCreated + 1⟩ :: extra)
      { q with heap := q.heap.new a time repeats delta } := by
  have hne : ∀ p ∈ q.activeTimers.elems ++ extra, p.timer ≠ a :=
    fun p hp heq ↦ h.pointers.cell_ne_none hp (heq ▸ hfree)
  have hold := h.congr_heap (q.heap.new a time repeats delta)
    fun p hp ↦ TimerHeap.deref_new_of_ne (hne p hp)
  exact { hold with
    pointers := (h.pointers.new hfree hbound time repeats delta).perm List.perm_middle.symm }

theorem notMem_timers_head (h : Inv [] (p :: extra) q) (he : e.timer = p.timer) :
    e ∉ q.timers := by
  intro hmem
  obtain ⟨r, hr, t, -, rfl⟩ := h.mem_timers.mp hmem
  exact h.ne_head (List.mem_append_left _ hr) he

theorem put (h : Inv [] (p :: extra) q) (ht : q.heap.deref p = some t) :
    Inv [] extra (q.put ⟨t.expiration, p.timer⟩ p) where
  pointers := by
    refine h.pointers.perm ?_
    refine List.perm_middle.trans ?_
    exact (OrderedSet.perm_insert h.notMem_head).symm.append_right extra
  entries := by
    intro e
    have hold := h.entries e
    simp only [List.not_mem_nil, or_false] at hold ⊢
    simp only [TimerQueue.put, OrderedSet.mem_insert, exists_eq_or_imp, hold]
    refine or_congr ?_ Iff.rfl
    simp [Stands, ht]
  disjoint := nofun
  nodup := List.nodup_nil
  size := by
    have hsize : q.timers.size = q.activeTimers.size := h.size
    have hnot : (⟨t.expiration, p.timer⟩ : Entry) ∉ q.timers := h.notMem_timers_head rfl
    change (q.timers.insert _).size = (q.activeTimers.insert _).size
    rw [OrderedSet.size_insert hnot, OrderedSet.size_insert h.notMem_head, hsize]

theorem insert_eq (h : Inv [] (p :: extra) q) (ht : q.heap.deref p = some t) :
    q.insert p = some (q.earliestChanged t.expiration, q.put ⟨t.expiration, p.timer⟩ p) := by
  rw [insert, ht, Option.bind_some, if_pos]
  exact ⟨h.sameSize, h.notMem_timers_head rfl, h.notMem_head, (h.put ht).sameSize⟩

theorem setTimerfd (h : Inv es extra q) (fd : Timerfd) : Inv es extra { q with timerfd := fd } :=
  { h with }

/-! ### Leaving the sets -/

theorem split (h : Inv [] extra q) {timers : OrderedSet Entry}
    (hmem : ∀ e, e ∈ timers ∨ e ∈ es ↔ e ∈ q.timers) (hdisjoint : ∀ e ∈ es, e ∉ timers)
    (hnodup : es.Nodup) (hsize : timers.size + es.length = q.timers.size) :
    Inv es extra { q with timers := timers } where
  pointers := h.pointers
  entries := fun e ↦ (hmem e).trans h.mem_timers
  disjoint := hdisjoint
  nodup := hnodup
  size := hsize.trans h.size

theorem takeEntry (h : Inv [] extra q) (he : e ∈ q.timers) :
    Inv [e] extra { q with timers := q.timers.erase e } := by
  refine h.split (fun f ↦ ?_) ?_ (List.nodup_singleton e) (OrderedSet.size_erase he).symm
  · rw [OrderedSet.mem_erase, List.mem_singleton]
    constructor
    · rintro (⟨-, hf⟩ | rfl)
      · exact hf
      · exact he
    · intro hf
      by_cases hfe : f = e
      · exact .inr hfe
      · exact .inl ⟨hfe, hf⟩
  · intro f hf hmem
    exact (OrderedSet.mem_erase.mp hmem).1 (List.mem_singleton.mp hf)

theorem takeBelow (h : Inv [] extra q) (now : ℤ) :
    Inv (q.timers.below (sentry now)) extra (q.dropExpired now) := by
  refine h.split (fun f ↦ ?_) ?_ (q.timers.nodup_below _) (q.timers.size_eraseBelow _)
  · rw [OrderedSet.mem_eraseBelow, OrderedSet.mem_below]
    constructor
    · rintro (hf | hf)
      · exact hf.1
      · exact hf.1
    · intro hf
      rcases lt_or_ge f (sentry now) with hlt | hge
      · exact .inr ⟨hf, hlt⟩
      · exact .inl ⟨hf, hge⟩
  · intro f hf hmem
    exact absurd (OrderedSet.mem_below.mp hf).2 (not_lt.mpr (OrderedSet.mem_eraseBelow.mp hmem).2)

/-- A timer whose entry is gone leaves the second set. -/
theorem takeActive (h : Inv (e :: es) extra q) (hp : p ∈ q.activeTimers) (he : q.Stands p e) :
    Inv es (p :: extra) { q with activeTimers := q.activeTimers.erase p } := by
  obtain ⟨hnot, hes⟩ := List.nodup_cons.mp h.nodup
  have htimer : e.timer = p.timer := by
    obtain ⟨t, -, rfl⟩ := he
    rfl
  refine ⟨?_, fun f ↦ ?_, fun f hf ↦ h.disjoint f (List.mem_cons_of_mem e hf), hes, ?_⟩
  · have hperm := (OrderedSet.perm_erase hp).append_right extra
    exact h.pointers.perm (hperm.trans List.perm_middle.symm)
  · have hold := h.entries f
    rw [List.mem_cons] at hold
    constructor
    · intro hf
      obtain ⟨r, hr, hstands⟩ := hold.mp (hf.imp_right .inr)
      refine ⟨r, OrderedSet.mem_erase.mpr ⟨?_, hr⟩, hstands⟩
      -- one timer stands for one entry, and `e` is in neither place
      rintro rfl
      obtain ⟨t, ht, rfl⟩ := he
      obtain ⟨u, hu, rfl⟩ := hstands
      obtain rfl : t = u := Option.some.inj (ht.symm.trans hu)
      exact hf.elim (h.disjoint _ List.mem_cons_self) hnot
    · rintro ⟨r, hr, hstands⟩
      obtain ⟨hne, hr⟩ := OrderedSet.mem_erase.mp hr
      rcases hold.mpr ⟨r, hr, hstands⟩ with hf | rfl | hf
      · exact .inl hf
      · obtain ⟨u, -, hu⟩ := hstands
        have hrp : r.timer = p.timer := by rw [← htimer, hu]
        exact absurd (h.pointers.eq_of_timer_eq (List.mem_append_left _ hr)
          (List.mem_append_left _ hp) hrp) hne
      · exact .inr hf
  · have hsize := h.size
    have herase := OrderedSet.size_erase hp
    rw [List.length_cons] at hsize
    change q.timers.size + es.length = (q.activeTimers.erase p).size
    omega

theorem dropHead (h : Inv [] (p :: extra) q) (hdel : TimerHeap.Deleted p q.heap heap) :
    Inv [] extra { q with heap := heap } := by
  have htail : Inv [] extra q := { h with pointers := (h.pointers.perm List.perm_middle).tail }
  refine htail.congr_heap heap fun r hr ↦ ?_
  exact TimerHeap.deref_congr (hdel.cell_of_ne _ (h.ne_head hr))

/-! ### `cancelInLoop` -/

theorem cancelInLoop_of_mem (h : Inv [] extra q) (hp : p ∈ q.activeTimers) :
    ∃ t heap, q.heap.deref p = some t ∧ TimerHeap.Deleted p q.heap heap ∧
      q.cancelInLoop p = some { q with
        heap := heap
        timers := q.timers.erase ⟨t.expiration, p.timer⟩
        activeTimers := q.activeTimers.erase p } ∧
      Inv [] extra { q with
        heap := heap
        timers := q.timers.erase ⟨t.expiration, p.timer⟩
        activeTimers := q.activeTimers.erase p } := by
  obtain ⟨t, ht⟩ := h.live hp
  have hstands : q.Stands p ⟨t.expiration, p.timer⟩ := ⟨t, ht, rfl⟩
  have he : (⟨t.expiration, p.timer⟩ : Entry) ∈ q.timers := h.mem_timers.mpr ⟨p, hp, hstands⟩
  obtain ⟨heap, hdelete, hdel⟩ := TimerHeap.exists_delete ht
  have hinv := ((h.takeEntry he).takeActive hp hstands).dropHead hdel
  refine ⟨t, heap, ht, hdel, ?_, hinv⟩
  rw [cancelInLoop, if_pos h.sameSize, if_pos hp, eraseActive, ht, Option.bind_some, if_pos he,
    hdelete, Option.map_some, Option.bind_some, checkSizes, if_pos hinv.sameSize]

theorem markCanceling (h : Inv es extra q) (p : ActiveTimer) :
    Inv es extra (q.markCanceling p) := by
  unfold TimerQueue.markCanceling
  split_ifs
  · exact { h with }
  · exact h

theorem cancelInLoop_of_notMem (h : Inv [] extra q) (hp : p ∉ q.activeTimers) :
    q.cancelInLoop p = some (q.markCanceling p) := by
  rw [cancelInLoop, if_pos h.sameSize, if_neg hp, Option.bind_some, checkSizes,
    if_pos (h.markCanceling p).sameSize]

theorem cancelInLoop (h : Inv [] extra q) (p : ActiveTimer) :
    ∃ q', q.cancelInLoop p = some q' ∧ Inv [] extra q' := by
  by_cases hp : p ∈ q.activeTimers
  · obtain ⟨t, heap, -, -, heq, hinv⟩ := h.cancelInLoop_of_mem hp
    exact ⟨_, heq, hinv⟩
  · exact ⟨_, h.cancelInLoop_of_notMem hp, h.markCanceling p⟩

/-! ### `getExpired` -/

theorem eraseExpired (h : Inv es extra q) :
    ∃ ps active, TimerQueue.eraseExpired es q = some (ps, { q with activeTimers := active }) ∧
      Inv [] (ps ++ extra) { q with activeTimers := active } ∧
      ∀ p, p ∈ ps ∨ p ∈ active → p ∈ q.activeTimers := by
  induction es generalizing q extra with
  | nil => exact ⟨[], q.activeTimers, rfl, h, fun p hp ↦ hp.resolve_left List.not_mem_nil⟩
  | cons e es ih =>
      obtain ⟨p, hp, hstands⟩ := (h.entries e).mp (.inr List.mem_cons_self)
      have hrest := h.takeActive hp hstands
      obtain ⟨t, ht, rfl⟩ := hstands
      obtain ⟨hcell, hseq⟩ := TimerHeap.deref_eq_some_iff.mp ht
      have hread : (⟨p.timer, t.sequence⟩ : ActiveTimer) = p := by rw [hseq]
      obtain ⟨ps, active, heq, hinv, hsub⟩ := ih hrest
      refine ⟨p :: ps, active, ?_, hinv.perm List.perm_middle, fun r hr ↦ ?_⟩
      · rw [TimerQueue.eraseExpired, hcell, Option.bind_some, hread, if_pos hp, heq]
        rfl
      · rw [List.mem_cons, or_assoc] at hr
        rcases hr with rfl | hr
        · exact hp
        · exact (OrderedSet.mem_erase.mp (hsub r hr)).2

theorem laterThan_dropExpired (h : Inv [] extra q) (now : ℤ) :
    (q.dropExpired now).LaterThan now := by
  intro e he
  obtain ⟨hmem, hle⟩ := OrderedSet.mem_eraseBelow.mp (OrderedSet.mem_of_first? he)
  obtain ⟨p, hp, t, -, rfl⟩ := h.mem_timers.mp hmem
  have hbound := h.pointers.bound p (List.mem_append_left _ hp)
  by_contra hnot
  have hlt : (⟨t.expiration, p.timer⟩ : Entry) < sentry now := by
    rw [Entry.lt_iff]
    rcases (not_lt.mp hnot).lt_or_eq with hlt | heq
    · exact .inl hlt
    · exact .inr ⟨heq, hbound⟩
  exact absurd hlt (not_lt.mpr hle)

theorem getExpired (h : Inv [] extra q) (now : ℤ) :
    ∃ ps active, TimerQueue.getExpired now q =
        some (ps, { q.dropExpired now with activeTimers := active }) ∧
      Inv [] (ps ++ extra) { q.dropExpired now with activeTimers := active } ∧
      ∀ p, p ∈ ps ∨ p ∈ active → p ∈ q.activeTimers := by
  obtain ⟨ps, active, heq, hinv, hsub⟩ := (h.takeBelow now).eraseExpired
  refine ⟨ps, active, ?_, hinv, hsub⟩
  rw [TimerQueue.getExpired, if_pos ⟨h.sameSize, h.laterThan_dropExpired now⟩, heq,
    Option.bind_some, if_pos hinv.sameSize]

theorem beginRead (h : Inv [] extra q) (now : ℤ) :
    ∃ ps active, TimerQueue.beginRead now q = some (ps, { q.dropExpired now with
        activeTimers := active
        callingExpiredTimers := true
        cancelingTimers := .empty
        timerfd := { q.timerfd with readable := false } }) ∧
      Inv [] (ps ++ extra) { q.dropExpired now with
        activeTimers := active
        callingExpiredTimers := true
        cancelingTimers := .empty
        timerfd := { q.timerfd with readable := false } } ∧
      ∀ p, p ∈ ps ∨ p ∈ active → p ∈ q.activeTimers := by
  obtain ⟨ps, active, heq, hinv, hsub⟩ :=
    (h.setTimerfd { q.timerfd with readable := false }).getExpired now
  refine ⟨ps, active, ?_, { hinv with }, hsub⟩
  rw [TimerQueue.beginRead, heq]
  rfl

/-! ### `reset` -/

theorem restart (h : Inv [] (p :: extra) q) (now : ℤ) :
    Inv [] (p :: extra) { q with heap := q.heap.restart p now } := by
  obtain ⟨t, ht⟩ := h.live_head
  have hold : ∀ r ∈ q.activeTimers.elems ++ extra,
      (q.heap.restart p now).deref r = q.heap.deref r :=
    fun r hr ↦ TimerHeap.deref_congr (TimerHeap.cell_restart_of_ne (h.ne_head hr))
  have htail : Inv [] extra q := { h with pointers := (h.pointers.perm List.perm_middle).tail }
  refine { htail.congr_heap (q.heap.restart p now) hold with pointers := ?_ }
  refine Pointers.perm ?_ List.perm_middle.symm
  have hperm := h.pointers.perm List.perm_middle
  refine ⟨?_, hperm.nodup, hperm.bound⟩
  rintro r (_ | ⟨_, hr⟩)
  · exact ⟨_, TimerHeap.deref_restart_self ht⟩
  · rw [hold r hr]
    exact hperm.tail.live r hr

/-- The timer goes back into the sets, or it is deleted. -/
theorem resetOne (h : Inv [] (p :: extra) q) (now : ℤ) :
    ∃ t q', q.heap.deref p = some t ∧ q.resetOne now p = some q' ∧ Inv [] extra q' ∧
      (t.repeats = true ∧ p ∉ q.cancelingTimers ∧
          q' = { q with heap := q.heap.restart p now }.put
            ⟨(t.restart now).expiration, p.timer⟩ p ∨
        ¬ (t.repeats = true ∧ p ∉ q.cancelingTimers) ∧
          ∃ heap, TimerHeap.Deleted p q.heap heap ∧ q' = { q with heap := heap }) := by
  obtain ⟨t, ht⟩ := h.live_head
  by_cases hagain : t.repeats = true ∧ p ∉ q.cancelingTimers
  · have hrestart : (q.heap.restart p now).deref p = some (t.restart now) :=
      TimerHeap.deref_restart_self ht
    refine ⟨t, _, ht, ?_, (h.restart now).put hrestart, .inl ⟨hagain.1, hagain.2, rfl⟩⟩
    rw [TimerQueue.resetOne, ht, Option.bind_some, if_pos hagain,
      (h.restart now).insert_eq hrestart]
    rfl
  · obtain ⟨heap, hdelete, hdel⟩ := TimerHeap.exists_delete ht
    refine ⟨t, _, ht, ?_, h.dropHead hdel, .inr ⟨hagain, heap, hdel, rfl⟩⟩
    rw [TimerQueue.resetOne, ht, Option.bind_some, if_neg hagain, hdelete]
    rfl

theorem resetAll {ps : List ActiveTimer} (h : Inv [] (ps ++ extra) q) (now : ℤ) :
    ∃ q', q.resetAll now ps = some q' ∧ Inv [] extra q' := by
  induction ps generalizing q with
  | nil => exact ⟨q, rfl, h⟩
  | cons p ps ih =>
      obtain ⟨t, r, -, hr, hinv, -⟩ := h.resetOne now
      obtain ⟨q', hq', hinv'⟩ := ih hinv
      refine ⟨q', ?_, hinv'⟩
      rw [TimerQueue.resetAll, hr, Option.bind_some, hq']

theorem rearm (h : Inv [] extra q) (clock : ℤ) :
    ∃ fd, q.rearm clock = some { q with timerfd := fd } := by
  unfold TimerQueue.rearm
  split
  · exact ⟨q.timerfd, rfl⟩
  next e he =>
    obtain ⟨p, hp, t, ht, rfl⟩ := h.mem_timers.mp (OrderedSet.mem_of_first? he)
    rw [(TimerHeap.deref_eq_some_iff.mp ht).1, Option.map_some]
    split_ifs
    · exact ⟨.reset t.expiration clock, rfl⟩
    · exact ⟨q.timerfd, rfl⟩

theorem endRead {ps : List ActiveTimer} (h : Inv [] (ps ++ extra) q) (now clock : ℤ) :
    ∃ q' fd, TimerQueue.resetAll now ps { q with callingExpiredTimers := false } = some q' ∧
      q.endRead ps now clock = some { q' with timerfd := fd } ∧
      Inv [] extra { q' with timerfd := fd } := by
  have hidle : Inv [] (ps ++ extra) { q with callingExpiredTimers := false } := { h with }
  obtain ⟨q', hq', hinv⟩ := hidle.resetAll now
  obtain ⟨fd, hfd⟩ := hinv.rearm clock
  refine ⟨q', fd, hq', ?_, hinv.setTimerfd fd⟩
  rw [TimerQueue.endRead, TimerQueue.reset, hq', Option.bind_some, hfd]

theorem addTimerInLoop (h : Inv [] (p :: extra) q) (now : ℤ) :
    ∃ t fd, q.heap.deref p = some t ∧
      q.addTimerInLoop p now =
        some { q.put ⟨t.expiration, p.timer⟩ p with timerfd := fd } ∧
      fd = (if q.earliestChanged t.expiration = true then .reset t.expiration now
        else q.timerfd) ∧
      Inv [] extra { q.put ⟨t.expiration, p.timer⟩ p with timerfd := fd } := by
  obtain ⟨t, ht⟩ := h.live_head
  refine ⟨t, _, ht, ?_, rfl, (h.put ht).setTimerfd _⟩
  rw [TimerQueue.addTimerInLoop, h.insert_eq ht, Option.bind_some]
  split_ifs
  · rw [resetTimerfd]
    change Option.map _ (q.heap.deref p) = _
    rw [ht, Option.map_some]
  · rfl

end Inv

end TimerQueue

end PpDSCache.Net
