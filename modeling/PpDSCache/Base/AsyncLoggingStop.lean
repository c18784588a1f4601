import PpDSCache.Base.AsyncLoggingLines

/-!
# Stopping the log

`stop` clears `running_` and waits for the back end to leave.  The back end
takes what is left only if it has tested `running_` before and has not yet
taken its batch.
-/

namespace PpDSCache.Base

open Cpp Abstract

namespace AsyncLogging

variable {s t : AsyncLogging} {calls : List Text}

/-- The lines that no batch has taken. -/
def pending (s : AsyncLogging) : List Text :=
  lines s.buffers ++ (s.currentBuffer.getD .new).pieces

/-- The back end is to take what is there, or there is nothing. -/
def TakesRest (s : AsyncLogging) : Prop :=
  s.place = .beforeLock ∨ s.place = .waiting ∨ s.pending = []

/-- After `stop`: the back end has been started, and is not to go round
again. -/
structure Stopped (calls : List Text) (s : AsyncLogging) : Prop where
  inv : s.Inv calls
  running : s.running = false
  started : s.place ≠ .notStarted ∧ s.place ≠ .created

theorem Inv.pending_swap (h : s.Inv calls) (hplace : s.place = .beforeLock ∨ s.place = .waiting)
    (ht : s.swap = some t) : t.pending = [] ∧ t.running = s.running ∧ t.place = .swapped := by
  obtain ⟨hspare, -, hempty⟩ := h.spares_before_swap hplace
  obtain ⟨current, hcurrent, rfl⟩ := Option.map_eq_some_iff.mp ht
  refine ⟨?_, rfl, rfl⟩
  simp [pending, hspare, hempty, LogBuffer.new]

theorem takesRest_of_pending (hs : s.place ≠ .beforeLock ∧ s.place ≠ .waiting)
    (ht : t.place ≠ .beforeLock ∧ t.place ≠ .waiting) (hpending : t.pending = s.pending) :
    t.TakesRest ↔ s.TakesRest := by
  simp only [TakesRest, hs.1, hs.2, ht.1, ht.2, hpending, false_or]

/-- One step of the back end after `stop`. -/
theorem Stopped.exec (h : s.Stopped calls) {a : LogAct} (happend : ∀ line, a ≠ .append line)
    (hen : a.Enabled s) (ht : a.exec s = some t) :
    t.Stopped calls ∧ (t.TakesRest ↔ s.TakesRest) := by
  obtain ⟨u, hu, hinv⟩ := h.inv.back_end happend hen
  obtain rfl := Option.some.inj (hu.symm.trans ht)
  have hrunning := h.running
  cases a with
  | append line => exact absurd rfl (happend line)
  | start => exact absurd hen h.started.1
  | stop => exact absurd (hrunning.symm.trans hen.1) (by simp)
  | enter => exact absurd hen h.started.2
  | test =>
      have hplace : s.place = .loopTest := hen
      rw [LogAct.exec, test, if_neg (by simp [hrunning])] at ht
      obtain rfl := Option.some.inj ht
      refine ⟨⟨hinv, hrunning, by simp⟩, takesRest_of_pending ?_ (by simp) rfl⟩
      simp [hplace]
  | lock =>
      have hplace : s.place = .beforeLock := hen
      have hold : s.TakesRest := .inl hplace
      rw [LogAct.exec, lock] at ht
      split_ifs at ht with hempty
      · obtain rfl := Option.some.inj ht
        exact ⟨⟨hinv, hrunning, by simp⟩, iff_of_true (.inr (.inl rfl)) hold⟩
      · obtain ⟨hpending, hrun, hswapped⟩ := h.inv.pending_swap (.inl hplace) ht
        exact ⟨⟨hinv, hrun.trans hrunning, by simp [hswapped]⟩,
          iff_of_true (.inr (.inr hpending)) hold⟩
  | wake =>
      obtain ⟨hpending, hrun, hswapped⟩ := h.inv.pending_swap (.inr hen) ht
      exact ⟨⟨hinv, hrun.trans hrunning, by simp [hswapped]⟩,
        iff_of_true (.inr (.inr hpending)) (.inr (.inl hen))⟩
  | trim =>
      have hplace : s.place = .swapped := hen
      have hspares := h.inv.spares
      rw [Spares, hplace] at hspares
      rw [LogAct.exec, trim, if_neg hspares.2.1, Option.map_some] at ht
      obtain rfl := Option.some.inj ht
      refine ⟨⟨hinv, hrunning, by simp⟩, takesRest_of_pending ?_ (by simp) rfl⟩
      simp [hplace]
  | write =>
      obtain ⟨k, hk, hplace⟩ := hen
      simp only [LogAct.exec, hplace] at ht
      obtain ⟨b, -, rfl⟩ := Option.map_eq_some_iff.mp ht
      refine ⟨⟨hinv, hrunning, by simp⟩, takesRest_of_pending ?_ (by simp) rfl⟩
      simp [hplace]
  | refill =>
      have hplace : s.place = .writing s.buffersToWrite.length := hen
      have hspares := h.inv.spares
      rw [Spares, hplace] at hspares
      rw [LogAct.exec, refill_eq hspares.1 hspares.2.1 hspares.2.2] at ht
      obtain rfl := Option.some.inj ht
      refine ⟨⟨hinv, hrunning, by simp⟩, takesRest_of_pending ?_ (by simp) rfl⟩
      simp [hplace]

theorem Stopped.run (h : s.Stopped calls) {acts : List LogAct}
    (happend : ∀ line, .append line ∉ acts)
    (hok : EachStep LogAct.exec LogAct.Enabled acts s)
    (ht : runAll LogAct.exec acts s = some t) : t.Stopped calls ∧ (t.TakesRest ↔ s.TakesRest) := by
  induction acts generalizing s with
  | nil =>
      obtain rfl : s = t := Option.some.inj ht
      exact ⟨h, Iff.rfl⟩
  | cons a acts ih =>
      obtain ⟨r, hr, hrest⟩ := runAll_cons_iff.mp ht
      have hne : ∀ line, a ≠ .append line := fun line heq ↦
        happend line (heq ▸ List.mem_cons_self)
      obtain ⟨hstopped, hiff⟩ := h.exec hne hok.1 hr
      obtain ⟨hstopped', hiff'⟩ :=
        ih hstopped (fun line hmem ↦ happend line (List.mem_cons_of_mem a hmem)) (hok.2 r hr) hrest
      exact ⟨hstopped', hiff'.trans hiff⟩

theorem map_kept_eq {batches : List (List LogBuffer)} (h : ∀ b ∈ batches, b.length ≤ 25) :
    batches.map kept = batches := by
  have hkept : ∀ b ∈ batches, kept b = b := fun b hb ↦ if_neg (not_lt.mpr (h b hb))
  rw [List.map_congr_left hkept, List.map_id']

/-- When the back end has left, what no batch has taken is missing. -/
theorem Inv.written_eq_iff (h : s.Inv calls) (hplace : s.place = .exited)
    (hbatches : ∀ b ∈ s.taken, b.length ≤ 25) :
    lines s.written = calls ↔ s.pending = [] := by
  obtain ⟨⟨current, hcurrent, happended⟩, hwritten⟩ := h.conserved
  rw [batch_of_ne (by simp [hplace]), lines_nil, List.append_nil, List.append_assoc] at happended
  rw [rest_of_ne (by simp [hplace]), lines_nil, List.append_nil, map_kept_eq hbatches] at hwritten
  rw [hwritten, happended, pending, hcurrent, Option.getD_some]
  exact List.self_eq_append_right

theorem appended_stop {before after : List LogAct} (happend : ∀ line, .append line ∉ after) :
    appended (before ++ .stop :: after) = appended before := by
  have hnone : ∀ a ∈ .stop :: after, a.logged = [] := by
    intro a ha
    cases a with
    | append line => exact absurd (List.mem_of_ne_of_mem (by simp) ha) (happend line)
    | _ => rfl
  rw [appended, List.flatMap_append, List.flatMap_eq_nil_iff.mpr hnone, List.append_nil, appended]

/-- With no append after `stop` and no batch of more than 25 buffers, all lines
are written exactly when `stop` finds the back end before its swap, or finds
nothing that is left to take. -/
theorem written_eq_appended_iff {before after : List LogAct}
    (hbefore : EachStep LogAct.exec LogAct.Enabled before new)
    (hs : runAll LogAct.exec before new = some s)
    (hafter : EachStep LogAct.exec LogAct.Enabled (.stop :: after) s)
    (happend : ∀ line, .append line ∉ after)
    (ht : runAll LogAct.exec (.stop :: after) s = some t) (hexited : t.place = .exited)
    (hbatches : ∀ b ∈ t.taken, b.length ≤ 25) :
    lines t.written = appended (before ++ .stop :: after) ↔ s.TakesRest := by
  have hinv : s.Inv (appended before) := by
    obtain ⟨r, hr, hinv⟩ := exists_run_inv hbefore
    obtain rfl := Option.some.inj (hr.symm.trans hs)
    exact hinv
  obtain ⟨r, hr, hinv'⟩ := hinv.back_end (by simp) hafter.1
  obtain ⟨u, hu, ht⟩ := runAll_cons_iff.mp ht
  have hrest := hafter.2 u hu
  obtain rfl := Option.some.inj hu
  obtain rfl := Option.some.inj hr
  have hstopped : Stopped (appended before) { s with running := false } := ⟨hinv', rfl, hafter.1.2⟩
  obtain ⟨hend, hiff⟩ := hstopped.run happend hrest ht
  rw [appended_stop happend, hend.inv.written_eq_iff hexited hbatches]
  have hlast : t.TakesRest ↔ t.pending = [] := by
    simp [TakesRest, hexited]
  exact hlast.symm.trans hiff

/-- The back end waits when `stop` is called. -/
theorem written_eq_appended_iff_waiting :
    ∃ t, runAll LogAct.exec [.start, .enter, .append [97, 10], .test, .lock, .stop, .wake, .trim,
        .write, .refill, .test] new = some t ∧
      lines t.written = [[97, 10]] := by
  have hshort : [(97 : UInt8), 10].length < LogBuffer.kLargeBuffer :=
    (by norm_num : 2 < LogBuffer.kLargeBuffer)
  have hrun : ∃ s,
      runAll LogAct.exec [.start, .enter, .append [97, 10], .test, .lock] new = some s ∧
      ∃ t, runAll LogAct.exec [.stop, .wake, .trim, .write, .refill, .test] s = some t ∧
        t.place = .exited ∧ t.taken.map List.length = [1] ∧ s.place = .waiting ∧
        EachStep LogAct.exec LogAct.Enabled [.stop, .wake, .trim, .write, .refill, .test] s := by
    refine ⟨_, rfl, _, rfl, rfl, rfl, rfl, ?_⟩
    refine eachStep_cons ⟨rfl, by simp, by simp⟩ rfl (eachStep_cons rfl rfl ?_)
    refine eachStep_cons rfl rfl (eachStep_cons ⟨0, Nat.zero_lt_one, rfl⟩ rfl ?_)
    exact eachStep_cons rfl rfl (eachStep_cons rfl rfl trivial)
  obtain ⟨s, hs, t, ht, hexited, hbatches, hwaiting, hafter⟩ := hrun
  refine ⟨t, runAll_append_iff.mpr ⟨s, hs, ht⟩, ?_⟩
  apply (written_eq_appended_iff _ hs hafter (by simp) ht hexited _).mpr (.inr (.inl hwaiting))
  · refine eachStep_cons rfl rfl (eachStep_cons rfl rfl (eachStep_cons hshort rfl ?_))
    exact eachStep_cons rfl rfl (eachStep_cons rfl rfl trivial)
  · intro b hb
    have hlength := List.mem_map_of_mem (f := List.length) hb
    rw [hbatches, List.mem_singleton] at hlength
    omega

/-- A line appended while the back end writes is lost when `stop` comes before
the next test of `running_`. -/
theorem not_written_eq_appended :
    ∃ before after s t, EachStep LogAct.exec LogAct.Enabled before new ∧
      runAll LogAct.exec before new = some s ∧
      EachStep LogAct.exec LogAct.Enabled (.stop :: after) s ∧
      (∀ line, .append line ∉ after) ∧ runAll LogAct.exec (.stop :: after) s = some t ∧
      t.place = .exited ∧ (∀ b ∈ t.taken, b.length ≤ 25) ∧
      lines t.written ≠ appended (before ++ .stop :: after) := by
  refine ⟨[.start, .enter, .test, .lock, .wake, .append [97, 10]], [.trim, .write, .refill, .test],
    _, _, ?_, rfl, ?_, by simp, rfl, rfl, ?_, ?_⟩
  · refine eachStep_cons rfl rfl (eachStep_cons rfl rfl (eachStep_cons rfl rfl ?_))
    refine eachStep_cons rfl rfl (eachStep_cons rfl rfl (eachStep_cons ?_ rfl trivial))
    exact (by norm_num : 2 < LogBuffer.kLargeBuffer)
  · have hplace : BackEnd.swapped ≠ .notStarted ∧ BackEnd.swapped ≠ .created := by decide
    refine eachStep_cons ⟨rfl, hplace⟩ rfl (eachStep_cons rfl rfl ?_)
    refine eachStep_cons ⟨0, Nat.zero_lt_one, rfl⟩ rfl (eachStep_cons rfl rfl ?_)
    exact eachStep_cons rfl rfl trivial
  · intro b hb
    rw [List.mem_singleton.mp hb]
    exact (by norm_num : 1 ≤ 25)
  · intro heq
    have hlength := congrArg List.length heq
    revert hlength
    decide

end AsyncLogging

end PpDSCache.Base
