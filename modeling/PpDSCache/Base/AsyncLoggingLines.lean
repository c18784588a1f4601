import PpDSCache.Base.AsyncLogging

/-!
# Where the lines are

The lines that were appended are in the batches taken, in the batch about to be
written, in the full buffers and in the current one, in this order.  When the
spare buffer of the front end is gone there is a full buffer, so that a batch
always gives back as many spare buffers as were lent.
-/

namespace PpDSCache.Base

open Cpp Abstract

@[simp] theorem lines_nil : lines [] = [] := rfl

@[simp] theorem lines_append (bs cs : List LogBuffer) :
    lines (bs ++ cs) = lines bs ++ lines cs := by
  simp [lines]

@[simp] theorem lines_singleton (b : LogBuffer) : lines [b] = b.pieces := by
  simp [lines]

theorem lines_cons (b : LogBuffer) (bs : List LogBuffer) :
    lines (b :: bs) = b.pieces ++ lines bs := by
  simp [lines]

theorem appended_concat (acts : List LogAct) (a : LogAct) :
    appended (acts ++ [a]) = appended acts ++ a.logged := by
  simp [appended]

namespace LogBuffer

theorem append_of_lt {b : LogBuffer} {buf : Text} (h : buf.length < b.avail) :
    b.append buf = ⟨b.pieces ++ [buf]⟩ := if_pos h

theorem append_new {buf : Text} (h : buf.length < kLargeBuffer) : new.append buf = ⟨[buf]⟩ :=
  append_of_lt h

end LogBuffer

namespace AsyncLogging

variable {s t : AsyncLogging} {calls : List Text}

/-- The spare buffers of the back end at each place. -/
def Spares (s : AsyncLogging) : Prop :=
  match s.place with
  | .notStarted | .created | .exited => s.buffersToWrite = []
  | .loopTest | .beforeLock | .waiting =>
      s.newBuffer1 = some .new ∧ s.newBuffer2 = some .new ∧ s.buffersToWrite = []
  | .swapped | .writing _ =>
      s.newBuffer1 = none ∧ s.buffersToWrite ≠ [] ∧
        (s.newBuffer2 = some .new ∨ s.newBuffer2 = none ∧ 2 ≤ s.buffersToWrite.length)

/-- The buffers of a batch that are to be written: of more than 25 the first
two. -/
def kept (batch : List LogBuffer) : List LogBuffer :=
  if 25 < batch.length then batch.take 2 else batch

/-- Nothing is lost but what the trimmed batches had from their third buffer
on. -/
structure Conserved (calls : List Text) (s : AsyncLogging) : Prop where
  appended : ∃ current, s.currentBuffer = some current ∧
    calls = lines s.taken.flatten ++ lines s.batch ++ lines s.buffers ++ current.pieces
  written : lines s.written ++ lines s.rest = lines (s.taken.map kept).flatten

structure Inv (calls : List Text) (s : AsyncLogging) : Prop where
  conserved : s.Conserved calls
  next : s.nextBuffer = some .new ∨ s.nextBuffer = none ∧ s.buffers ≠ []
  spares : s.Spares
  running : s.place = .created → s.running = true

theorem inv_new : Inv [] new where
  conserved := ⟨⟨.new, rfl, rfl⟩, rfl⟩
  next := .inl rfl
  spares := rfl
  running := fun h ↦ by cases h

/-! ## Producers -/

theorem Inv.append (h : s.Inv calls) {logline : Text}
    (hlen : logline.length < LogBuffer.kLargeBuffer) :
    ∃ t, s.append logline = some t ∧ t.Inv (calls ++ [logline]) := by
  obtain ⟨⟨current, hcurrent, happended⟩, hwritten⟩ := h.conserved
  rw [AsyncLogging.append, hcurrent, Option.map_some]
  refine ⟨_, rfl, ?_⟩
  split_ifs with hlt
  · refine ⟨⟨⟨_, rfl, ?_⟩, hwritten⟩, h.next, h.spares, h.running⟩
    rw [LogBuffer.append_of_lt hlt]
    rw [happended, List.append_assoc]
    rfl
  · have hnew : s.nextBuffer.getD .new = .new := by
      rcases h.next with hnext | ⟨hnext, -⟩ <;> rw [hnext] <;> rfl
    refine ⟨⟨⟨_, rfl, ?_⟩, hwritten⟩, .inr ⟨rfl, by simp⟩, h.spares, h.running⟩
    rw [hnew, LogBuffer.append_new hlen]
    change calls ++ [logline] =
      lines s.taken.flatten ++ lines s.batch ++ lines (s.buffers ++ [current]) ++ [logline]
    rw [happended, lines_append, lines_singleton, ← List.append_assoc (_ ++ _)]

/-! ## The back end -/

theorem batch_of_ne (hplace : s.place ≠ .swapped) : s.batch = [] := if_neg hplace

theorem rest_of_ne (hplace : ∀ k, s.place ≠ .writing k) : s.rest = [] := by
  rw [rest]
  split
  · rename_i k hk
    exact absurd hk (hplace k)
  · rfl

theorem rest_writing {k : ℕ} (hplace : s.place = .writing k) :
    s.rest = s.buffersToWrite.drop k := by
  rw [rest, hplace]

/-- Between two batches nothing is on its way, and the back end moves without
the front end. -/
theorem Inv.moves (h : s.Inv calls) (hbatch : s.batch = []) (hrest : s.rest = []) {running : Bool}
    {newBuffer1 newBuffer2 : Option LogBuffer} {buffersToWrite : List LogBuffer} {place : BackEnd}
    (hswapped : place ≠ .swapped) (hwriting : ∀ k, place ≠ .writing k)
    (hspares : Spares { s with
      running := running, newBuffer1 := newBuffer1, newBuffer2 := newBuffer2,
      buffersToWrite := buffersToWrite, place := place })
    (hrunning : place = .created → running = true) :
    Inv calls { s with
      running := running, newBuffer1 := newBuffer1, newBuffer2 := newBuffer2,
      buffersToWrite := buffersToWrite, place := place } := by
  obtain ⟨⟨current, hcurrent, happended⟩, hwritten⟩ := h.conserved
  refine ⟨⟨⟨current, hcurrent, ?_⟩, ?_⟩, h.next, hspares, hrunning⟩
  · rw [batch_of_ne hswapped, ← hbatch]
    exact happended
  · rw [rest_of_ne hwriting, ← hrest]
    exact hwritten

theorem Inv.enter (h : s.Inv calls) (hplace : s.place = .created) :
    ∃ t, s.enter = some t ∧ t.Inv calls := by
  rw [AsyncLogging.enter, if_pos (h.running hplace)]
  have hspares := h.spares
  rw [Spares, hplace] at hspares
  refine ⟨_, rfl, ?_⟩
  exact h.moves (batch_of_ne (by simp [hplace])) (rest_of_ne (by simp [hplace])) (by simp) (by simp)
    ⟨rfl, rfl, hspares⟩ (by simp)

theorem Inv.test (h : s.Inv calls) (hplace : s.place = .loopTest) :
    ∃ t, s.test = some t ∧ t.Inv calls := by
  have hbatch := batch_of_ne (s := s) (by simp [hplace])
  have hrest := rest_of_ne (s := s) (by simp [hplace])
  have hspares := h.spares
  rw [Spares, hplace] at hspares
  obtain ⟨h1, h2, hempty⟩ := hspares
  rw [AsyncLogging.test]
  split_ifs with hrunning hassert
  · exact ⟨_, rfl, h.moves hbatch hrest (by simp) (by simp) ⟨h1, h2, hempty⟩ (by simp)⟩
  · refine absurd ⟨?_, ?_, hempty⟩ hassert
    · rw [h1]
      rfl
    · rw [h2]
      rfl
  · exact ⟨_, rfl, h.moves hbatch hrest (by simp) (by simp) hempty (by simp)⟩

theorem Inv.spares_before_swap (h : s.Inv calls)
    (hplace : s.place = .beforeLock ∨ s.place = .waiting) :
    s.newBuffer1 = some .new ∧ s.newBuffer2 = some .new ∧ s.buffersToWrite = [] := by
  have hspares := h.spares
  rw [Spares] at hspares
  rcases hplace with hp | hp
  · rw [hp] at hspares
    exact hspares
  · rw [hp] at hspares
    exact hspares

theorem Inv.swap (h : s.Inv calls) (hplace : s.place = .beforeLock ∨ s.place = .waiting) :
    ∃ t, s.swap = some t ∧ t.Inv calls := by
  have hbatch : s.batch = [] := batch_of_ne (by rcases hplace with hp | hp <;> simp [hp])
  have hrest : s.rest = [] := rest_of_ne (by rcases hplace with hp | hp <;> simp [hp])
  obtain ⟨h1, h2, hempty⟩ := h.spares_before_swap hplace
  obtain ⟨⟨current, hcurrent, happended⟩, hwritten⟩ := h.conserved
  rw [hbatch, lines_nil, List.append_nil] at happended
  rw [hrest] at hwritten
  rw [AsyncLogging.swap, hcurrent, Option.map_some, h1, h2, hempty]
  refine ⟨_, rfl, ⟨⟨.new, rfl, ?_⟩, hwritten⟩, .inl ?_, ⟨rfl, by simp, ?_⟩,
    fun hne ↦ by cases hne⟩
  · change calls = lines s.taken.flatten ++ lines (s.buffers ++ [current]) ++ [] ++ []
    rw [happended, lines_append, lines_singleton, List.append_nil, List.append_nil,
      List.append_assoc]
  · rcases h.next with hnext | ⟨hnext, -⟩ <;> simp [hnext]
  · -- a spare buffer that was lent is behind a full one
    rcases h.next with hnext | ⟨hnext, hbuffers⟩
    · exact .inl (by simp [hnext])
    · refine .inr ⟨by simp [hnext], ?_⟩
      have hpos := List.length_pos_iff.mpr hbuffers
      simp only [List.length_append, List.length_singleton]
      omega

theorem Inv.lock (h : s.Inv calls) (hplace : s.place = .beforeLock) :
    ∃ t, s.lock = some t ∧ t.Inv calls := by
  rw [AsyncLogging.lock]
  split_ifs
  · have hspares := h.spares
    rw [Spares, hplace] at hspares
    refine ⟨_, rfl, ?_⟩
    exact h.moves (batch_of_ne (by simp [hplace])) (rest_of_ne (by simp [hplace])) (by simp)
      (by simp) hspares (by simp)
  · exact h.swap (.inl hplace)

theorem kept_spares {batch : List LogBuffer} (hne : batch ≠ []) :
    kept batch ≠ [] ∧ (2 ≤ batch.length → 2 ≤ (kept batch).length) := by
  have hpos := List.length_pos_iff.mpr hne
  rw [← List.length_pos_iff, kept]
  split_ifs
  · rw [List.length_take]
    omega
  · exact ⟨hpos, id⟩

theorem Inv.trim (h : s.Inv calls) (hplace : s.place = .swapped) :
    ∃ t, LogAct.trim.exec s = some t ∧ t.Inv calls := by
  have hspares := h.spares
  rw [Spares, hplace] at hspares
  obtain ⟨h1, hne, h2⟩ := hspares
  obtain ⟨⟨current, hcurrent, happended⟩, hwritten⟩ := h.conserved
  rw [batch, if_pos hplace] at happended
  rw [rest_of_ne (by simp [hplace]), lines_nil, List.append_nil] at hwritten
  obtain ⟨hkept, htwo⟩ := kept_spares hne
  rw [LogAct.exec, AsyncLogging.trim, if_neg hne, Option.map_some]
  refine ⟨_, rfl, ⟨⟨current, hcurrent, ?_⟩, ?_⟩, h.next,
    ⟨h1, hkept, h2.imp id (And.imp id htwo)⟩, fun hne ↦ by cases hne⟩
  · change calls = lines (s.taken ++ [s.buffersToWrite]).flatten ++ [] ++ lines s.buffers ++ _
    rw [happended, List.flatten_append, lines_append, List.flatten_singleton, List.append_nil]
  · have houtput : written { s with output := s.output ++ if 25 < s.buffersToWrite.length then
        [.notice (s.buffersToWrite.length - 2)] else [] } = s.written := by
      simp only [AsyncLogging.written, List.filterMap_append]
      split_ifs <;> simp
    change lines (written { s with output := _ }) ++ lines (kept s.buffersToWrite) =
      lines ((s.taken ++ [s.buffersToWrite]).map kept).flatten
    rw [houtput, hwritten, List.map_append, List.flatten_append, lines_append]
    simp

theorem Inv.write (h : s.Inv calls) {k : ℕ} (hk : k < s.buffersToWrite.length)
    (hplace : s.place = .writing k) : ∃ t, s.write k = some t ∧ t.Inv calls := by
  have hspares := h.spares
  rw [Spares, hplace] at hspares
  obtain ⟨⟨current, hcurrent, happended⟩, hwritten⟩ := h.conserved
  rw [batch_of_ne (by simp [hplace])] at happended
  rw [rest_writing hplace, List.drop_eq_getElem_cons hk] at hwritten
  rw [AsyncLogging.write, List.getElem?_eq_getElem hk, Option.map_some]
  refine ⟨_, rfl, ⟨⟨current, hcurrent, happended⟩, ?_⟩, h.next, hspares, fun hne ↦ by cases hne⟩
  have houtput : written { s with output := s.output ++ [.buffer s.buffersToWrite[k]] } =
      s.written ++ [s.buffersToWrite[k]] := by
    simp [AsyncLogging.written]
  change lines (written { s with output := _ }) ++ lines (s.buffersToWrite.drop (k + 1)) = _
  rw [houtput, ← hwritten, lines_append, lines_singleton, lines_cons, List.append_assoc]

/-- A batch gives back both spare buffers. -/
theorem refill_eq (h1 : s.newBuffer1 = none) (hne : s.buffersToWrite ≠ [])
    (h2 : s.newBuffer2 = some .new ∨ s.newBuffer2 = none ∧ 2 ≤ s.buffersToWrite.length) :
    s.refill = some { s with
      newBuffer1 := some .new, newBuffer2 := some .new, buffersToWrite := [],
      place := .loopTest } := by
  have hpos := List.length_pos_iff.mpr hne
  have htake : s.buffersToWrite.take 2 ≠ [] := by
    rw [← List.length_pos_iff, List.length_take]
    omega
  have hrefill1 : refill1 { s with buffersToWrite := s.buffersToWrite.take 2 } =
      some { s with
        newBuffer1 := some .new, buffersToWrite := (s.buffersToWrite.take 2).dropLast } := by
    rw [refill1, if_neg (by simp [h1]), if_neg htake]
  rw [AsyncLogging.refill, hrefill1, Option.bind_some]
  rcases h2 with h2 | ⟨h2, hlength⟩
  · rw [refill2, if_pos (by simp [h2]), Option.map_some, ← h2]
  · have hlast : (s.buffersToWrite.take 2).dropLast ≠ [] := by
      rw [← List.length_pos_iff, List.length_dropLast, List.length_take]
      omega
    rw [refill2, if_neg (by simp [h2]), if_neg hlast, Option.map_some]

theorem Inv.refill (h : s.Inv calls) (hplace : s.place = .writing s.buffersToWrite.length) :
    ∃ t, s.refill = some t ∧ t.Inv calls := by
  have hspares := h.spares
  rw [Spares, hplace] at hspares
  obtain ⟨h1, hne, h2⟩ := hspares
  have hbatch : s.batch = [] := batch_of_ne (by simp [hplace])
  have hrest : s.rest = [] := by
    rw [rest_writing hplace]
    exact List.drop_length
  refine ⟨_, refill_eq h1 hne h2, ?_⟩
  exact h.moves hbatch hrest (by simp) (by simp) ⟨rfl, rfl, rfl⟩ (by simp)

theorem Inv.back_end (h : s.Inv calls) {a : LogAct} (happend : ∀ logline, a ≠ .append logline)
    (hen : a.Enabled s) : ∃ t, a.exec s = some t ∧ t.Inv calls := by
  cases a with
  | append logline => exact absurd rfl (happend logline)
  | start =>
      have hplace : s.place = .notStarted := hen
      have hspares := h.spares
      rw [Spares, hplace] at hspares
      refine ⟨_, rfl, ?_⟩
      exact h.moves (batch_of_ne (by simp [hplace])) (rest_of_ne (by simp [hplace])) (by simp)
        (by simp) hspares (fun _ ↦ rfl)
  | stop =>
      obtain ⟨-, -, hplace⟩ := hen
      exact ⟨_, rfl, { h.conserved with }, h.next, h.spares, fun hcreated ↦ absurd hcreated hplace⟩
  | enter => exact h.enter hen
  | test => exact h.test hen
  | lock => exact h.lock hen
  | wake => exact h.swap (.inr hen)
  | trim => exact h.trim hen
  | write =>
      obtain ⟨k, hk, hplace⟩ := hen
      obtain ⟨t, ht, hinv⟩ := h.write hk hplace
      refine ⟨t, ?_, hinv⟩
      rw [LogAct.exec, hplace]
      exact ht
  | refill => exact h.refill hen

theorem Inv.exec (h : s.Inv calls) {a : LogAct} (hen : a.Enabled s) :
    ∃ t, a.exec s = some t ∧ t.Inv (calls ++ a.logged) := by
  cases a with
  | append logline => exact h.append hen
  | _ =>
      obtain ⟨t, ht, hinv⟩ := h.back_end (by simp) hen
      exact ⟨t, ht, by simpa [LogAct.logged] using hinv⟩

theorem exists_run_inv {acts : List LogAct} (hok : EachStep LogAct.exec LogAct.Enabled acts new) :
    ∃ s, runAll LogAct.exec acts new = some s ∧ s.Inv (appended acts) := by
  refine exists_runAll_history (I := fun acts s ↦ s.Inv (appended acts))
    (fun acts a s h hen ↦ ?_) inv_new hok
  rw [appended_concat]
  exact h.exec hen

/-- No assertion of the back end fails, and every line is where the order of
the calls puts it. -/
theorem exists_run_conserved {acts : List LogAct}
    (hok : EachStep LogAct.exec LogAct.Enabled acts new) :
    ∃ s, runAll LogAct.exec acts new = some s ∧ s.Conserved (appended acts) := by
  obtain ⟨s, hs, hinv⟩ := exists_run_inv hok
  exact ⟨s, hs, hinv.conserved⟩

/-- One line in each of two cycles. -/
theorem exists_run_conserved_twice :
    ∃ s, runAll LogAct.exec [.start, .enter, .append [97, 10], .test, .lock, .wake,
        .append [98, 10], .trim, .write, .refill, .test, .lock, .append [99, 10], .wake, .trim]
          new = some s ∧
      s.Conserved [[97, 10], [98, 10], [99, 10]] := by
  have hshort : ∀ b : UInt8, [b, 10].length < LogBuffer.kLargeBuffer := fun _ ↦
    (by norm_num : 2 < LogBuffer.kLargeBuffer)
  apply exists_run_conserved
  refine eachStep_cons rfl rfl (eachStep_cons rfl rfl (eachStep_cons (hshort 97) rfl ?_))
  refine eachStep_cons rfl rfl (eachStep_cons rfl rfl (eachStep_cons rfl rfl ?_))
  refine eachStep_cons (hshort 98) rfl (eachStep_cons rfl rfl ?_)
  refine eachStep_cons ⟨0, Nat.zero_lt_one, rfl⟩ rfl (eachStep_cons rfl rfl ?_)
  refine eachStep_cons rfl rfl (eachStep_cons rfl rfl (eachStep_cons (hshort 99) rfl ?_))
  exact eachStep_cons rfl rfl (eachStep_cons rfl rfl trivial)

end AsyncLogging

end PpDSCache.Base
