import PpDSCache.Cpp.Text

/-!
# Searching in byte strings

`std::find` for one byte and `std::search` for a sequence of bytes, with the
parts of the text in front of and behind the first place found.
-/

namespace PpDSCache.Cpp.Text

/-! ## One byte -/

/-- The text split at the first place `std::find` finds the byte. -/
def cutAt (b : UInt8) (s : Text) : Option (Text × Text) :=
  if b ∈ s then some (s.takeWhile (· ≠ b), (s.dropWhile (· ≠ b)).tail) else none

variable {b : UInt8} {s u v : Text}

/-- The position `std::search` finds, if it finds one. -/
def search (needle : Text) : Text → Option ℕ
  | [] => if needle = [] then some 0 else none
  | b :: s => if needle.isPrefixOf (b :: s) = true then some 0 else (search needle s).map (· + 1)

variable {needle : Text} {n : ℕ}

theorem search_cons : search needle (b :: s) =
    if needle <+: b :: s then some 0 else (search needle s).map (· + 1) := by
  rw [search]
  exact if_congr List.isPrefixOf_iff_prefix rfl rfl

theorem drop_of_search (h : search needle s = some n) : needle <+: s.drop n := by
  induction s generalizing n with
  | nil =>
      rw [search] at h
      split_ifs at h with hnil
      rw [hnil]
      exact List.nil_prefix
  | cons b s ih =>
      rw [search_cons] at h
      split_ifs at h with hpre
      · cases h
        exact hpre
      · obtain ⟨m, hm, rfl⟩ := Option.map_eq_some_iff.mp h
        exact ih hm

/-- Nothing is found in front of the first place. -/
theorem search_take_of_search (hne : needle ≠ []) (h : search needle s = some n) :
    search needle (s.take n) = none := by
  induction s generalizing n with
  | nil => simp [search, hne]
  | cons b s ih =>
      rw [search_cons] at h
      split_ifs at h with hpre
      · cases h
        simp [search, hne]
      · obtain ⟨m, hm, rfl⟩ := Option.map_eq_some_iff.mp h
        rw [List.take_succ_cons, search_cons, ih hm]
        have htake : b :: s.take m <+: b :: s :=
          List.cons_prefix_cons.mpr ⟨rfl, List.take_prefix m s⟩
        exact if_neg fun hpre' ↦ hpre (hpre'.trans htake)

/-! ## Lines -/

def crlf : Text := [13, 10]

/-- The first line of the text, without its end, and what follows it. -/
def cutLine (s : Text) : Option (Text × Text) :=
  (search crlf s).map fun n ↦ (s.take n, s.drop (n + 2))

/-- A line holds no line end. -/
def IsLine (u : Text) : Prop := search crlf u = none

instance (u : Text) : Decidable (IsLine u) := inferInstanceAs (Decidable (_ = _))

/-- No line end begins in a line and ends behind it, as a line end does not
begin with its last byte. -/
theorem search_crlf_append (h : IsLine u) (v : Text) :
    search crlf (u ++ crlf ++ v) = some u.length := by
  induction u with
  | nil => rfl
  | cons b u ih =>
      rw [IsLine, search_cons] at h
      split_ifs at h with hpre
      have hu : IsLine u := Option.map_eq_none_iff.mp h
      have hlonger : ¬ crlf <+: b :: (u ++ crlf ++ v) := by
        intro hpre'
        apply hpre
        cases u with
        | nil => simp [crlf, List.cons_prefix_cons] at hpre'
        | cons c u =>
            simpa [crlf, List.cons_prefix_cons] using hpre'
      rw [List.cons_append, List.cons_append, search_cons, if_neg hlonger, ih hu]
      rfl

theorem cutLine_eq_some_iff : cutLine s = some (u, v) ↔ s = u ++ crlf ++ v ∧ IsLine u := by
  constructor
  · intro h
    obtain ⟨n, hn, hcut⟩ := Option.map_eq_some_iff.mp h
    cases hcut
    obtain ⟨w, hw⟩ := drop_of_search hn
    refine ⟨?_, search_take_of_search (by decide) hn⟩
    have hdrop : s.drop (n + 2) = w := by
      rw [← List.drop_drop, ← hw]
      rfl
    rw [hdrop, List.append_assoc, hw, List.take_append_drop]
  · rintro ⟨rfl, hu⟩
    rw [cutLine, search_crlf_append hu, Option.map_some, List.append_assoc]
    simp [List.drop_append, crlf]

theorem cutLine_append (h : cutLine s = some (u, v)) (more : Text) :
    cutLine (s ++ more) = some (u, v ++ more) := by
  obtain ⟨rfl, hu⟩ := cutLine_eq_some_iff.mp h
  apply cutLine_eq_some_iff.mpr
  exact ⟨by rw [List.append_assoc], hu⟩

theorem length_of_cutLine (h : cutLine s = some (u, v)) : s.length = u.length + 2 + v.length := by
  obtain ⟨rfl, -⟩ := cutLine_eq_some_iff.mp h
  simp [crlf]
  omega

end PpDSCache.Cpp.Text
