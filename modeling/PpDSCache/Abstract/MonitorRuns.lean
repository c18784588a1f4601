import PpDSCache.Abstract.Monitor

/-!
# Runs of a monitor

The calls take effect one after another, in the order in which they leave.
Where a condition variable stands for units that a call consumes one by one,
notifying one waiting call for each new unit loses no wakeup.
-/

namespace PpDSCache.Abstract

namespace Guarded

variable {V C R : Type} {calls : List (C × Stage R)} {j k : ℕ} {c : C} {st : Stage R}

theorem getElem?_setStage (j k : ℕ) (st : Stage R) (calls : List (C × Stage R)) :
    (setStage k st calls)[j]? =
      if k = j then (calls[j]?).map (fun p ↦ (p.1, st)) else calls[j]? := by
  rw [setStage, List.getElem?_modify]
  split_ifs <;> simp

theorem getElem?_setStage_self (hk : calls[k]? = some (c, st)) (st' : Stage R) :
    (setStage k st' calls)[k]? = some (c, st') := by
  rw [getElem?_setStage, if_pos rfl, hk]
  rfl

theorem getElem?_setStage_of_ne (h : k ≠ j) (st : Stage R) (calls : List (C × Stage R)) :
    (setStage k st calls)[j]? = calls[j]? := by
  rw [getElem?_setStage, if_neg h]

theorem mem_setStage (hk : calls[k]? = some (c, st)) {st' : Stage R} {p : C × Stage R}
    (hp : p ∈ setStage k st' calls) : p = (c, st') ∨ p ∈ calls := by
  obtain ⟨j, hj⟩ := List.mem_iff_getElem?.mp hp
  by_cases hjk : k = j
  · subst hjk
    rw [getElem?_setStage_self hk] at hj
    exact .inl (Option.some.inj hj).symm
  · rw [getElem?_setStage_of_ne hjk] at hj
    exact .inr (List.mem_of_getElem? hj)

end Guarded

namespace Monitor

open Guarded

variable {V C R κ : Type} [DecidableEq κ] {M : Monitor V C R κ} {s t : Guarded V C R}
  {calls : List (C × Stage R)} {a : CallAct C} {j k : ℕ} {wakes : Option ℕ} {c : C} {w : κ}
  {st : Stage R} {n : Notify κ} {r : R} {v v' : V}

theorem waits_iff {p : C × Stage R} :
    M.waits w p = true ↔ p.2 = .waiting ∧ M.waitsFor p.1 = some w := by
  obtain ⟨c, st⟩ := p
  cases st <;> simp [waits, Stage.isWaiting]

/-! ## What a step does -/

theorem exec_cases (h : M.Enabled a s) (ht : M.exec a s = some t) :
    (∃ c, a = .call c ∧ t = { s with calls := s.calls ++ [(c, .began)] }) ∨
    (∃ k c, a = .wake k ∧ s.calls[k]? = some (c, .waiting) ∧
      t = { s with calls := setStage k .woken s.calls }) ∨
    ∃ k wakes c st, a = .enter k wakes ∧ s.calls[k]? = some (c, st) ∧ st.canEnter = true ∧
      (M.isReady c s.data = false ∧ t = { s with calls := setStage k .waiting s.calls } ∨
        M.isReady c s.data = true ∧ ∃ q, M.body c s.data = some q ∧
          M.Picks wakes s.calls (M.notifies c q.2) ∧ t = M.leave k wakes c q s) := by
  cases a with
  | call c => exact .inl ⟨c, rfl, (Option.some.inj ht).symm⟩
  | wake k =>
      obtain ⟨⟨c, st⟩, hk, hst⟩ := h
      cases st with
      | waiting => exact .inr (.inl ⟨k, c, rfl, hk, (Option.some.inj ht).symm⟩)
      | _ => cases hst
  | enter k wakes =>
      obtain ⟨⟨c, st⟩, hk, hst, hpicks⟩ := h
      refine .inr (.inr ⟨k, wakes, c, st, rfl, hk, hst, ?_⟩)
      have hk' : s.calls[k]? = some (c, st) := hk
      rw [exec, enter, hk', Option.bind_some] at ht
      cases hready : M.isReady c s.data with
      | false =>
          rw [hready] at ht
          exact .inl ⟨rfl, (Option.some.inj ht).symm⟩
      | true =>
          rw [if_pos hready] at ht
          obtain ⟨q, hq, rfl⟩ := Option.map_eq_some_iff.mp ht
          exact .inr ⟨rfl, q, hq, hpicks q hq hready, rfl⟩

/-- A call that has taken the mutex is not woken by its own notification. -/
theorem Picks.setStage (h : M.Picks wakes calls n) (hk : calls[k]? = some (c, st))
    (hst : st.canEnter = true) (r : R) : M.Picks wakes (setStage k (.done r) calls) n := by
  cases n with
  | nobody => exact h
  | all w => exact h
  | one w =>
      cases wakes with
      | none =>
          intro p hp
          obtain ⟨j, hj⟩ := List.mem_iff_getElem?.mp hp
          by_cases hjk : k = j
          · subst hjk
            rw [getElem?_setStage_self hk] at hj
            cases hj
            rfl
          · rw [getElem?_setStage_of_ne hjk] at hj
            exact h p (List.mem_of_getElem? hj)
      | some j =>
          obtain ⟨p, hj, hp⟩ := h
          refine ⟨p, ?_, hp⟩
          have hne : k ≠ j := by
            rintro rfl
            cases hk.symm.trans hj
            obtain ⟨rfl, -⟩ := waits_iff.mp hp
            cases hst
          rw [getElem?_setStage_of_ne hne]
          exact hj

/-- A notification leaves a call as it is, or wakes one that waits for it. -/
theorem getElem?_notify (h : M.Picks wakes calls n) (j : ℕ) :
    (M.notify wakes calls n)[j]? = calls[j]? ∨
      ∃ c w, calls[j]? = some (c, .waiting) ∧ M.waitsFor c = some w ∧ (n = .one w ∨ n = .all w) ∧
        (M.notify wakes calls n)[j]? = some (c, .woken) := by
  cases n with
  | nobody => exact .inl rfl
  | all w =>
      rw [notify, List.getElem?_map]
      cases hj : calls[j]? with
      | none => exact .inl rfl
      | some p =>
          by_cases hp : M.waits w p = true
          · obtain ⟨c, st⟩ := p
            obtain ⟨rfl, hw⟩ := waits_iff.mp hp
            exact .inr ⟨c, w, rfl, hw, .inr rfl, by simp [hp]⟩
          · exact .inl (by simp [hp])
  | one w =>
      cases wakes with
      | none => exact .inl rfl
      | some k =>
          obtain ⟨⟨c, st⟩, hk, hp⟩ := h
          have hk' : calls[k]? = some (c, st) := hk
          obtain ⟨rfl, hw⟩ := waits_iff.mp hp
          by_cases hjk : k = j
          · subst hjk
            exact .inr ⟨c, w, hk', hw, .inl rfl, getElem?_setStage_self hk' _⟩
          · exact .inl (getElem?_setStage_of_ne hjk _ _)

theorem getElem?_notify_done (h : M.Picks wakes calls n) :
    (M.notify wakes calls n)[j]? = some (c, .done r) ↔ calls[j]? = some (c, .done r) := by
  rcases getElem?_notify h j with heq | ⟨c', w, hj, -, -, heq⟩
  · rw [heq]
  · rw [heq, hj]
    simp

theorem total_setStage {f : C × Stage R → ℕ} (hk : calls[k]? = some (c, st)) (st' : Stage R) :
    total f (setStage k st' calls) + f (c, st) = total f calls + f (c, st') :=
  total_modify hk _

/-- What does not tell waiting calls from woken ones is not changed. -/
theorem total_notify {f : C × Stage R → ℕ} (hf : ∀ c, f (c, .waiting) = f (c, .woken))
    (h : M.Picks wakes calls n) : total f (M.notify wakes calls n) = total f calls := by
  cases n with
  | nobody => rfl
  | all w =>
      rw [notify, total, total, List.map_map]
      congr 1
      refine List.map_congr_left fun p _ ↦ ?_
      by_cases hp : M.waits w p = true
      · obtain ⟨c, st⟩ := p
        obtain ⟨rfl, -⟩ := waits_iff.mp hp
        simp [hp, hf]
      · simp [hp]
  | one w =>
      cases wakes with
      | none => rfl
      | some k =>
          obtain ⟨⟨c, st⟩, hk, hp⟩ := h
          obtain ⟨rfl, -⟩ := waits_iff.mp hp
          have htotal := total_setStage (f := f) hk .woken
          rw [hf] at htotal
          exact Nat.add_right_cancel htotal

/-! ## One after another -/

variable (M) in
/-- The calls run one after another, none of them waiting, with these results. -/
def Serial : V → List (ℕ × C × R) → V → Prop
  | v, [], v' => v = v'
  | v, (_, c, r) :: rest, v' =>
      M.isReady c v = true ∧ ∃ u, M.body c v = some (r, u) ∧ Serial u rest v'

omit [DecidableEq κ] in
theorem Serial.append_singleton {served : List (ℕ × C × R)} {u : V} (h : M.Serial v served u)
    (hready : M.isReady c u = true) (hbody : M.body c u = some (r, v')) :
    M.Serial v (served ++ [(k, c, r)]) v' := by
  induction served generalizing v with
  | nil =>
      obtain rfl : v = u := h
      exact ⟨hready, v', hbody, rfl⟩
  | cons x served ih =>
      obtain ⟨hx, u', hu', hrest⟩ := h
      exact ⟨hx, u', hu', ih hrest⟩

omit [DecidableEq κ] in
theorem Serial.exists_split {pre post : List (ℕ × C × R)}
    (h : M.Serial v (pre ++ (k, c, r) :: post) v') :
    ∃ u, M.Serial v pre u ∧ M.isReady c u = true := by
  induction pre generalizing v with
  | nil => exact ⟨v, rfl, h.1⟩
  | cons x pre ih =>
      obtain ⟨hx, u', hu', hrest⟩ := h
      obtain ⟨u, hu, hready⟩ := ih hrest
      exact ⟨u, ⟨hx, u', hu', hu⟩, hready⟩

/-- The calls that are done took effect one after another, each of them once. -/
structure Ordered (M : Monitor V C R κ) (v : V) (s : Guarded V C R) : Prop where
  serial : M.Serial v s.served s.data
  once : (s.served.map Prod.fst).Nodup
  served_iff : ∀ k c r, (k, c, r) ∈ s.served ↔ s.calls[k]? = some (c, .done r)
  count : ∀ f : C → Bool,
    total (fun p ↦ if f p.1 = true ∧ p.2.isDone = true then 1 else 0) s.calls =
      s.served.countP fun x ↦ f x.2.1

omit [DecidableEq κ] in
theorem ordered_new (v : V) : Ordered M v (.new v) where
  serial := rfl
  once := List.nodup_nil
  served_iff k c r := by simp [Guarded.new]
  count f := rfl

omit [DecidableEq κ] in
theorem Ordered.setStage (h : Ordered M v s) (hk : s.calls[k]? = some (c, st))
    (hst : st.isDone = false) {st' : Stage R} (hst' : st'.isDone = false) :
    Ordered M v { s with calls := setStage k st' s.calls } where
  serial := h.serial
  once := h.once
  served_iff j d r := by
    rw [h.served_iff]
    by_cases hjk : k = j
    · subst hjk
      rw [getElem?_setStage_self hk, hk]
      constructor
      · rintro ⟨rfl, rfl⟩
        cases hst
      · rintro ⟨rfl, rfl⟩
        cases hst'
    · rw [getElem?_setStage_of_ne hjk]
  count f := by
    have htotal := total_setStage (f := fun p : C × Stage R ↦
      if f p.1 = true ∧ p.2.isDone = true then 1 else 0) hk st'
    simp only [hst, hst', Bool.false_eq_true, and_false, if_false, add_zero] at htotal
    exact htotal.trans (h.count f)

theorem Ordered.leave (h : Ordered M v s) (hk : s.calls[k]? = some (c, st))
    (hst : st.canEnter = true) (hready : M.isReady c s.data = true) {q : R × V}
    (hq : M.body c s.data = some q) (hpicks : M.Picks wakes s.calls (M.notifies c q.2)) :
    Ordered M v (M.leave k wakes c q s) where
  serial := h.serial.append_singleton hready hq
  once := by
    rw [Monitor.leave, List.map_append, List.nodup_append]
    refine ⟨h.once, List.nodup_singleton _, ?_⟩
    rintro i hi j hj rfl
    obtain ⟨⟨i, d, r⟩, hmem, rfl⟩ := List.mem_map.mp hi
    obtain rfl : i = k := List.mem_singleton.mp hj
    have hdone := (h.served_iff _ _ _).mp hmem
    rw [hk] at hdone
    cases hdone
    cases hst
  served_iff j d r := by
    rw [Monitor.leave, List.mem_append, h.served_iff,
      getElem?_notify_done (hpicks.setStage hk hst q.1)]
    by_cases hjk : k = j
    · subst hjk
      rw [getElem?_setStage_self hk, hk]
      constructor
      · rintro (hdone | hmem)
        · cases hdone
          cases hst
        · cases List.mem_singleton.mp hmem
          rfl
      · intro heq
        cases heq
        exact .inr List.mem_cons_self
    · rw [getElem?_setStage_of_ne hjk]
      refine ⟨fun hor ↦ hor.resolve_right fun hmem ↦ hjk ?_, .inl⟩
      cases List.mem_singleton.mp hmem
      rfl
  count f := by
    have hnot := Stage.isDone_of_canEnter hst
    have htotal := total_setStage (f := fun p : C × Stage R ↦
      if f p.1 = true ∧ p.2.isDone = true then 1 else 0) hk (.done q.1)
    simp only [hnot, Bool.false_eq_true, and_false, if_false, add_zero] at htotal
    rw [Monitor.leave, total_notify (fun c ↦ by simp) (hpicks.setStage hk hst q.1),
      htotal, h.count, List.countP_append, List.countP_singleton]
    simp

theorem Ordered.exec (h : Ordered M v s) (ha : M.Enabled a s) (ht : M.exec a s = some t) :
    Ordered M v t := by
  rcases exec_cases ha ht with ⟨c, rfl, rfl⟩ | ⟨k, c, rfl, hk, rfl⟩ |
    ⟨k, wakes, c, st, rfl, hk, hst, ⟨-, rfl⟩ | ⟨hready, q, hq, hpicks, rfl⟩⟩
  · refine ⟨h.serial, h.once, fun k d r ↦ ?_, fun f ↦ ?_⟩
    · rw [h.served_iff, List.getElem?_append]
      split_ifs with hlt
      · rfl
      · rw [List.getElem?_eq_none (Nat.le_of_not_lt hlt), List.getElem?_singleton]
        split_ifs <;> simp
    · have htotal := total_append (f := fun p : C × Stage R ↦
        if f p.1 = true ∧ p.2.isDone = true then 1 else 0) s.calls [(c, .began)]
      rw [htotal, h.count]
      simp [total]
  · exact h.setStage hk rfl rfl
  · exact h.setStage hk (Stage.isDone_of_canEnter hst) rfl
  · exact h.leave hk hst hready hq hpicks

omit [DecidableEq κ] in
/-- The calls made, and those of them that have not returned. -/
theorem Ordered.countP_calls (h : Ordered M v s) (f : C → Bool) :
    s.calls.countP (fun p ↦ f p.1) = s.served.countP (fun x ↦ f x.2.1) +
      s.calls.countP fun p ↦ f p.1 && !p.2.isDone := by
  rw [← h.count f]
  induction s.calls with
  | nil => rfl
  | cons p calls ih =>
      rw [List.countP_cons, List.countP_cons, ih]
      simp only [total, List.map_cons, List.sum_cons]
      cases f p.1 <;> cases p.2.isDone <;> simp <;> omega

/-! ## Units of a condition -/

variable (M) in
/-- The woken calls that are to test the condition again. -/
def woken (w : κ) (calls : List (C × Stage R)) : ℕ :=
  total (fun p ↦ if p.2.isWoken = true ∧ M.waitsFor p.1 = some w then 1 else 0) calls

/-- A condition holds while there are units of it.  A call takes one of those
that it waits for, and leaves at most one more of those that it notifies of. -/
structure Counting (M : Monitor V C R κ) (units : κ → V → ℕ) (I : V → Prop) : Prop where
  holds_iff : ∀ w v, I v → (M.holds w v = true ↔ 0 < units w v)
  body : ∀ c v, I v → M.isReady c v = true → ∃ q, M.body c v = some q ∧ I q.2 ∧
    (∀ w, M.notifies c q.2 ≠ .all w) ∧
    ∀ w, units w q.2 + (if M.waitsFor c = some w then 1 else 0) ≤
      units w v + if M.notifies c q.2 = .one w then 1 else 0

/-- While a call waits, every unit of its condition has a woken call. -/
structure Wakeful (M : Monitor V C R κ) (units : κ → V → ℕ) (I : V → Prop)
    (s : Guarded V C R) : Prop where
  data : I s.data
  waiting : ∀ p ∈ s.calls, p.2 = .waiting → ∃ w, M.waitsFor p.1 = some w
  woken : ∀ w, (∃ p ∈ s.calls, M.waits w p = true) → units w s.data ≤ M.woken w s.calls

variable {units : κ → V → ℕ} {I : V → Prop}

theorem wakeful_new (hv : I v) : Wakeful M units I (.new v) := by
  refine ⟨hv, fun p hp ↦ ?_, fun w hw ↦ ?_⟩
  · cases hp
  · obtain ⟨p, hp, -⟩ := hw
    cases hp

omit [DecidableEq κ] in
theorem isReady_of_holds {v : V} (hw : M.waitsFor c = some w) : M.isReady c v = M.holds w v := by
  rw [isReady, hw]

theorem woken_setStage (hk : calls[k]? = some (c, st)) (st' : Stage R) :
    M.woken w (setStage k st' calls) +
        (if st.isWoken = true ∧ M.waitsFor c = some w then 1 else 0) =
      M.woken w calls + if st'.isWoken = true ∧ M.waitsFor c = some w then 1 else 0 :=
  total_setStage hk st'

theorem woken_notify (h : M.Picks wakes calls n) (hn : ∀ w, n ≠ .all w)
    (hwaits : ∃ p ∈ calls, M.waits w p = true) :
    M.woken w calls + (if n = .one w then 1 else 0) ≤ M.woken w (M.notify wakes calls n) := by
  cases n with
  | nobody => exact le_rfl
  | all w => exact absurd rfl (hn w)
  | one w' =>
      cases wakes with
      | none =>
          obtain ⟨p, hp, hwait⟩ := hwaits
          have hne : Notify.one w' ≠ .one w := by
            rintro ⟨rfl⟩
            exact absurd hwait (by simp [h p hp])
          rw [if_neg hne]
          exact le_rfl
      | some k =>
          obtain ⟨⟨c, st⟩, hk, hp⟩ := h
          obtain ⟨rfl, hc⟩ := waits_iff.mp hp
          have hset := woken_setStage (M := M) (w := w) hk .woken
          have hc' : M.waitsFor c = some w' := hc
          simp only [Stage.isWoken_waiting, Stage.isWoken_woken, Bool.false_eq_true, false_and,
            if_false, add_zero, true_and, hc', Option.some.injEq] at hset
          rw [notify, hset]
          simp

/-- A call that waits after a notification waited before it. -/
theorem mem_of_waits_leave (hk : s.calls[k]? = some (c, st)) (hst : st.canEnter = true) {q : R × V}
    (hpicks : M.Picks wakes s.calls (M.notifies c q.2)) {p : C × Stage R}
    (hp : p ∈ (M.leave k wakes c q s).calls) (hwait : p.2 = .waiting) :
    p ∈ s.calls ∧ ∀ w, M.waitsFor p.1 = some w → M.notifies c q.2 ≠ .all w := by
  obtain ⟨j, hj⟩ := List.mem_iff_getElem?.mp hp
  obtain ⟨d, st'⟩ := p
  obtain rfl : st' = .waiting := hwait
  have hpicks' := hpicks.setStage hk hst q.1
  have hsame : (setStage k (.done q.1) s.calls)[j]? = some (d, .waiting) := by
    rcases getElem?_notify hpicks' j with heq | ⟨c', w, -, -, -, heq⟩
    · exact heq.symm.trans hj
    · cases heq.symm.trans hj
  refine ⟨?_, fun w hw hall ↦ ?_⟩
  · have hjk : k ≠ j := by
      rintro rfl
      cases (getElem?_setStage_self hk _).symm.trans hsame
    rw [getElem?_setStage_of_ne hjk] at hsame
    exact List.mem_of_getElem? hsame
  · rw [leave, hall, notify, List.getElem?_map, hsame, Option.map_some,
      if_pos (waits_iff.mpr ⟨rfl, hw⟩)] at hj
    cases hj

theorem Wakeful.leave (hM : Counting M units I) (h : Wakeful M units I s)
    (hk : s.calls[k]? = some (c, st)) (hst : st.canEnter = true)
    (hready : M.isReady c s.data = true) {q : R × V} (hq : M.body c s.data = some q)
    (hpicks : M.Picks wakes s.calls (M.notifies c q.2)) :
    Wakeful M units I (M.leave k wakes c q s) := by
  obtain ⟨q', hq', hI, hall, hunits⟩ := hM.body c s.data h.data hready
  obtain rfl := Option.some.inj (hq.symm.trans hq')
  refine ⟨hI, fun p hp hwait ↦ ?_, fun w hw ↦ ?_⟩
  · exact h.waiting p (mem_of_waits_leave hk hst hpicks hp hwait).1 hwait
  · have hwaits : ∃ p ∈ setStage k (.done q.1) s.calls, M.waits w p = true := by
      obtain ⟨p, hp, hwait⟩ := hw
      obtain ⟨j, hj⟩ := List.mem_iff_getElem?.mp hp
      rcases getElem?_notify (hpicks.setStage hk hst q.1) j with heq | ⟨c', w', -, -, -, heq⟩
      · exact ⟨p, List.mem_of_getElem? (heq.symm.trans hj), hwait⟩
      · cases heq.symm.trans hj
        cases (waits_iff.mp hwait).1
    have hbefore : units w s.data ≤ M.woken w s.calls := by
      obtain ⟨p, hp, hwait⟩ := hw
      exact h.woken w ⟨p, (mem_of_waits_leave hk hst hpicks hp (waits_iff.mp hwait).1).1, hwait⟩
    have hnotify := woken_notify (hpicks.setStage hk hst q.1) hall hwaits
    have hset := woken_setStage (M := M) (w := w) hk (.done q.1)
    have hown : (if st.isWoken = true ∧ M.waitsFor c = some w then 1 else 0) ≤
        if M.waitsFor c = some w then 1 else 0 := by
      split_ifs <;> simp_all
    have hleft := hunits w
    simp only [Stage.isWoken_done, Bool.false_eq_true, false_and, if_false, add_zero] at hset
    simp only [Monitor.leave]
    omega

theorem Wakeful.exists_exec (hM : Counting M units I) (h : Wakeful M units I s)
    (ha : M.Enabled a s) : ∃ t, M.exec a s = some t ∧ Wakeful M units I t := by
  have hexec : ∃ t, M.exec a s = some t := by
    cases a with
    | call c => exact ⟨_, rfl⟩
    | wake k => exact ⟨_, rfl⟩
    | enter k wakes =>
        obtain ⟨⟨c, st⟩, hk, -, -⟩ := ha
        have hk' : s.calls[k]? = some (c, st) := hk
        rw [exec, enter, hk', Option.bind_some]
        cases hready : M.isReady c s.data with
        | false => exact ⟨_, rfl⟩
        | true =>
            obtain ⟨q, hq, -⟩ := hM.body c s.data h.data hready
            exact ⟨_, by rw [if_pos rfl, hq, Option.map_some]⟩
  obtain ⟨t, ht⟩ := hexec
  refine ⟨t, ht, ?_⟩
  rcases exec_cases ha ht with ⟨c, rfl, rfl⟩ | ⟨k, c, rfl, hk, rfl⟩ |
    ⟨k, wakes, c, st, rfl, hk, hst, ⟨hnot, rfl⟩ | ⟨hready, q, hq, hpicks, rfl⟩⟩
  · refine ⟨h.data, fun p hp hwait ↦ ?_, fun w hw ↦ ?_⟩
    · rcases List.mem_append.mp hp with hp | hp
      · exact h.waiting p hp hwait
      · cases List.mem_singleton.mp hp
        cases hwait
    · obtain ⟨p, hp, hwait⟩ := hw
      have hold : p ∈ s.calls := by
        rcases List.mem_append.mp hp with hp | hp
        · exact hp
        · cases List.mem_singleton.mp hp
          cases (waits_iff.mp hwait).1
      have hle := h.woken w ⟨p, hold, hwait⟩
      rw [Monitor.woken, total_append]
      exact hle.trans (Nat.le_add_right _ _)
  · have hset (w : κ) := woken_setStage (M := M) (w := w) hk .woken
    simp only [Stage.isWoken_waiting, Bool.false_eq_true, false_and, if_false, add_zero] at hset
    refine ⟨h.data, fun p hp hwait ↦ ?_, fun w hw ↦ ?_⟩
    · rcases mem_setStage hk hp with rfl | hp
      · cases hwait
      · exact h.waiting p hp hwait
    · obtain ⟨p, hp, hwait⟩ := hw
      rcases mem_setStage hk hp with rfl | hp
      · cases (waits_iff.mp hwait).1
      · have hle := h.woken w ⟨p, hp, hwait⟩
        rw [hset]
        exact hle.trans (Nat.le_add_right _ _)
  · obtain ⟨w₀, hw₀⟩ : ∃ w, M.waitsFor c = some w := by
      cases hw : M.waitsFor c with
      | none => simp [isReady, hw] at hnot
      | some w => exact ⟨w, rfl⟩
    have hset (w : κ) := woken_setStage (M := M) (w := w) hk .waiting
    simp only [Stage.isWoken_waiting, Bool.false_eq_true, false_and, if_false, add_zero, hw₀,
      Option.some.injEq] at hset
    have hzero : units w₀ s.data = 0 := by
      rw [isReady_of_holds hw₀, Bool.eq_false_iff, ne_eq, hM.holds_iff _ _ h.data] at hnot
      omega
    refine ⟨h.data, fun p hp hwait ↦ ?_, fun w hw ↦ ?_⟩
    · rcases mem_setStage hk hp with rfl | hp
      · exact ⟨w₀, hw₀⟩
      · exact h.waiting p hp hwait
    · by_cases hne : w₀ = w
      · subst hne
        exact hzero.le.trans (Nat.zero_le _)
      · obtain ⟨p, hp, hwait⟩ := hw
        have hsame := hset w
        rw [if_neg fun hand ↦ hne hand.2, add_zero] at hsame
        rw [hsame]
        rcases mem_setStage hk hp with rfl | hp
        · exact absurd (Option.some.inj (hw₀.symm.trans (waits_iff.mp hwait).2)) hne
        · exact h.woken w ⟨p, hp, hwait⟩
  · exact h.leave hM hk hst hready hq hpicks

/-- When no call can move, those that are not done wait for a condition that
does not hold. -/
theorem Wakeful.not_ready (hM : Counting M units I) (h : Wakeful M units I s) (hstuck : s.Stuck)
    {p : C × Stage R} (hp : p ∈ s.calls) (hdone : p.2.isDone = false) :
    M.isReady p.1 s.data = false := by
  have hwait := hstuck.eq_waiting hp hdone
  obtain ⟨w, hw⟩ := h.waiting p hp hwait
  have hnone : M.woken w s.calls = 0 := by
    rw [Monitor.woken, total, List.sum_eq_zero_iff]
    intro x hx
    obtain ⟨p', hp', rfl⟩ := List.mem_map.mp hx
    have hno := hstuck p' hp'
    obtain ⟨c', st'⟩ := p'
    cases st' with
    | waiting | done r => simp
    | began | woken => cases hno
  have hle := h.woken w ⟨p, hp, waits_iff.mpr ⟨hwait, hw⟩⟩
  rw [isReady_of_holds hw, Bool.eq_false_iff, ne_eq, hM.holds_iff _ _ h.data]
  omega

/-! ## Calls come to an end -/

def weight (calls : List (C × Stage R)) : ℕ := total (fun p ↦ p.2.weight) calls

theorem weight_le (calls : List (C × Stage R)) : weight calls ≤ 2 * calls.length := by
  induction calls with
  | nil => exact le_rfl
  | cons p calls ih =>
      have hp := p.2.weight_le_two
      rw [weight, total] at ih ⊢
      rw [List.map_cons, List.sum_cons, List.length_cons]
      omega

theorem weight_notify (h : M.Picks wakes calls n) (hn : ∀ w, n ≠ .all w) :
    weight (M.notify wakes calls n) ≤ weight calls + 1 := by
  cases n with
  | nobody => exact Nat.le_succ _
  | all w => exact absurd rfl (hn w)
  | one w =>
      cases wakes with
      | none => exact Nat.le_succ _
      | some k =>
          obtain ⟨⟨c, st⟩, hk, hp⟩ := h
          obtain ⟨rfl, -⟩ := waits_iff.mp hp
          have hset : weight (setStage k .woken calls) + 1 = weight calls + 2 :=
            total_setStage hk .woken
          rw [notify]
          omega

theorem Wakeful.weight_lt (hM : Counting M units I) (h : Wakeful M units I s)
    (ha : M.Enabled (.enter k wakes) s) (ht : M.exec (.enter k wakes) s = some t) :
    weight t.calls < weight s.calls := by
  rcases exec_cases ha ht with ⟨c, hcall, -⟩ | ⟨k, c, hwake, -⟩ |
    ⟨k, wakes, c, st, -, hk, hst, ⟨-, rfl⟩ | ⟨hready, q, hq, hpicks, rfl⟩⟩
  · cases hcall
  · cases hwake
  · have hset : weight (setStage k .waiting s.calls) + st.weight = weight s.calls + 1 :=
      total_setStage hk .waiting
    rw [Stage.weight_of_canEnter hst] at hset
    exact (by omega : weight (setStage k .waiting s.calls) < weight s.calls)
  · obtain ⟨q', hq', -, hall, -⟩ := hM.body c s.data h.data hready
    obtain rfl := Option.some.inj (hq.symm.trans hq')
    have hset : weight (setStage k (.done q.1) s.calls) + st.weight = weight s.calls + 0 :=
      total_setStage hk (.done q.1)
    rw [Stage.weight_of_canEnter hst] at hset
    calc
      weight (M.leave k wakes c q s).calls ≤ weight (setStage k (.done q.1) s.calls) + 1 :=
        weight_notify (hpicks.setStage hk hst q.1) hall
      _ < weight s.calls := by omega

/-- Critical sections only: no new call, and no wakeup without a notification. -/
def IsEnter : CallAct C → Prop
  | .enter _ _ => True
  | _ => False

theorem Wakeful.length_le (hM : Counting M units I) (h : Wakeful M units I s)
    {acts : List (CallAct C)} (hacts : ∀ a ∈ acts, IsEnter a)
    (hen : EachStep M.exec M.Enabled acts s) (hrun : runAll M.exec acts s = some t) :
    acts.length ≤ weight s.calls := by
  induction acts generalizing s with
  | nil => exact Nat.zero_le _
  | cons a acts ih =>
      obtain ⟨r, hr, hrest⟩ := runAll_cons_iff.mp hrun
      obtain ⟨r', hr', hwakeful⟩ := h.exists_exec hM hen.1
      obtain rfl := Option.some.inj (hr.symm.trans hr')
      have hle := ih hwakeful (fun a ha ↦ hacts a (List.mem_cons_of_mem _ ha)) (hen.2 r hr) hrest
      have ha := hacts a List.mem_cons_self
      cases a with
      | call c => cases ha
      | wake k => cases ha
      | enter k wakes =>
          have hlt := h.weight_lt hM hen.1 hr
          rw [List.length_cons]
          omega

/-- Whoever a notification may wake, a call that can enter has a step. -/
theorem stuck_iff : s.Stuck ↔ ∀ k wakes, ¬ M.Enabled (.enter k wakes) s := by
  constructor
  · rintro h k wakes ⟨p, hk, hcan, -⟩
    exact absurd hcan (by simp [h p (List.mem_of_getElem? hk)])
  intro h p hp
  by_contra hno
  obtain ⟨k, hk⟩ := List.mem_iff_getElem?.mp hp
  have hcan : p.2.canEnter = true := by simpa using hno
  cases hbody : M.body p.1 s.data with
  | none => exact h k none ⟨p, hk, hcan, fun q hq ↦ by cases hbody.symm.trans hq⟩
  | some q =>
      have hpicks : ∃ wakes, M.Picks wakes s.calls (M.notifies p.1 q.2) := by
        cases M.notifies p.1 q.2 with
        | nobody => exact ⟨none, rfl⟩
        | all w => exact ⟨none, rfl⟩
        | one w =>
            by_cases hwaits : ∃ p' ∈ s.calls, M.waits w p' = true
            · obtain ⟨p', hp', hwait⟩ := hwaits
              obtain ⟨j, hj⟩ := List.mem_iff_getElem?.mp hp'
              exact ⟨some j, p', hj, hwait⟩
            · exact ⟨none, fun p' hp' ↦ by simpa using fun hwait ↦ hwaits ⟨p', hp', hwait⟩⟩
      obtain ⟨wakes, hwakes⟩ := hpicks
      refine h k wakes ⟨p, hk, hcan, fun q' hq' _ ↦ ?_⟩
      obtain rfl := Option.some.inj (hbody.symm.trans hq')
      exact hwakes

/-! ## Notifying all -/

/-- A call after which a condition holds that did not hold before notifies all
of it. -/
def Broadcast (M : Monitor V C R κ) : Prop :=
  ∀ c v q w, M.body c v = some q → M.holds w v = false → M.holds w q.2 = true →
    M.notifies c q.2 = .all w

variable (M) in
/-- Who waits does so for a condition that does not hold. -/
def Informed (s : Guarded V C R) : Prop :=
  ∀ p ∈ s.calls, p.2 = .waiting → M.isReady p.1 s.data = false

theorem Informed.exec (hM : M.Broadcast) (h : M.Informed s) (ha : M.Enabled a s)
    (ht : M.exec a s = some t) : M.Informed t := by
  rcases exec_cases ha ht with ⟨c, rfl, rfl⟩ | ⟨k, c, rfl, hk, rfl⟩ |
    ⟨k, wakes, c, st, rfl, hk, hst, ⟨hnot, rfl⟩ | ⟨hready, q, hq, hpicks, rfl⟩⟩ <;>
    intro p hp hwait
  · rcases List.mem_append.mp hp with hp | hp
    · exact h p hp hwait
    · cases List.mem_singleton.mp hp
      cases hwait
  · rcases mem_setStage hk hp with rfl | hp
    · cases hwait
    · exact h p hp hwait
  · rcases mem_setStage hk hp with rfl | hp
    · exact hnot
    · exact h p hp hwait
  · obtain ⟨hmem, hall⟩ := mem_of_waits_leave hk hst hpicks hp hwait
    have hbefore := h p hmem hwait
    cases hw : M.waitsFor p.1 with
    | none => simp [isReady, hw] at hbefore
    | some w =>
        rw [isReady_of_holds hw] at hbefore ⊢
        by_contra hafter
        exact hall w hw (hM c s.data q w hq hbefore (eq_true_of_ne_false hafter))

end Monitor

end PpDSCache.Abstract
