import Mathlib.Tactic

/-!
# Values that change at given times

A list of changes in the order of time gives the value at each time.  Where a
value shifts the clock, the changes can also be looked up by the shifted time,
which finds the same value unless the shifted clock repeats itself.
-/

namespace PpDSCache.Abstract

section Timeline

variable {α : Type*}

/-- The value at a time, which is `first` before all changes. -/
def valueAt (first : α) : List (ℤ × α) → ℤ → α
  | [], _ => first
  | c :: cs, t => if t < c.1 then first else valueAt c.2 cs t

/-- The change that comes next. -/
def nextAfter (cs : List (ℤ × α)) (t : ℤ) : Option (ℤ × α) := cs.find? fun c ↦ t < c.1

variable {first : α} {c : ℤ × α} {cs pre : List (ℤ × α)} {t : ℤ}

theorem valueAt_of_lt (h : ∀ c ∈ cs, t < c.1) : valueAt first cs t = first := by
  cases cs with
  | nil => rfl
  | cons c cs => exact if_pos (h c List.mem_cons_self)

theorem valueAt_cons_of_le (h : c.1 ≤ t) : valueAt first (c :: cs) t = valueAt c.2 cs t :=
  if_neg (not_lt.mpr h)

theorem nextAfter_cons_of_lt (h : t < c.1) : nextAfter (c :: cs) t = some c := by
  rw [nextAfter, List.find?_cons_of_pos (by simpa using h)]

theorem nextAfter_cons_of_le (h : c.1 ≤ t) : nextAfter (c :: cs) t = nextAfter cs t := by
  rw [nextAfter, List.find?_cons_of_neg (by simpa using h), nextAfter]

theorem lt_of_nextAfter (h : nextAfter cs t = some c) : c ∈ cs ∧ t < c.1 :=
  ⟨List.mem_of_find?_eq_some h, by simpa using List.find?_some h⟩

theorem valueAt_append (h : ∀ c ∈ pre, c.1 ≤ t) (c : ℤ × α) (cs : List (ℤ × α)) (hc : c.1 ≤ t)
    (first : α) : valueAt first (pre ++ c :: cs) t = valueAt c.2 cs t := by
  induction pre generalizing first with
  | nil => exact valueAt_cons_of_le hc
  | cons b pre ih =>
      rw [List.cons_append, valueAt_cons_of_le (h b List.mem_cons_self)]
      exact ih (fun d hd ↦ h d (List.mem_cons_of_mem b hd)) b.2

/-- The value is the first one or was brought by a change. -/
theorem valueAt_cases (first : α) (cs : List (ℤ × α)) (t : ℤ) :
    valueAt first cs t = first ∨ ∃ d ∈ cs, d.1 ≤ t ∧ valueAt first cs t = d.2 := by
  induction cs generalizing first with
  | nil => exact .inl rfl
  | cons c cs ih =>
      by_cases hlt : t < c.1
      · exact .inl (if_pos hlt)
      · have hle := not_lt.mp hlt
        rw [valueAt_cons_of_le hle]
        right
        rcases ih c.2 with heq | ⟨d, hd, hdt, heq⟩
        · exact ⟨c, List.mem_cons_self, hle, heq⟩
        · exact ⟨d, List.mem_cons_of_mem c hd, hdt, heq⟩

variable (off : α → ℤ)

/-- The changes by the time that the clock shows after them. -/
def shifted (cs : List (ℤ × α)) : List (ℤ × α) := cs.map fun c ↦ (c.1 + off c.2, c.2)

/-- Changes are at least `D` apart, and shift the clock by less. -/
structure Apart (D : ℤ) (first : α) (cs : List (ℤ × α)) : Prop where
  apart : cs.Pairwise fun c d ↦ c.1 + D ≤ d.1
  spread : ∀ a ∈ first :: cs.map Prod.snd, ∀ b ∈ first :: cs.map Prod.snd, off a - off b < D

variable {off} {D : ℤ}

theorem Apart.tail (h : Apart off D first (c :: cs)) : Apart off D c.2 cs where
  apart := (List.pairwise_cons.mp h.apart).2
  spread := fun a ha b hb ↦
    h.spread a (List.mem_cons_of_mem first ha) b (List.mem_cons_of_mem first hb)

theorem Apart.add_le (h : Apart off D first (c :: cs)) {d : ℤ × α} (hd : d ∈ cs) :
    c.1 + D ≤ d.1 := (List.pairwise_cons.mp h.apart).1 d hd

/-- A change that has come has also come by the shifted clock. -/
theorem Apart.add_off_le (h : Apart off D first (c :: cs)) (hc : c.1 ≤ t) :
    c.1 + off c.2 ≤ t + off (valueAt c.2 cs t) := by
  rcases valueAt_cases c.2 cs t with heq | ⟨d, hd, hdt, heq⟩
  · rw [heq]
    omega
  · have hspread := h.tail.spread c.2 List.mem_cons_self d.2
      (List.mem_cons_of_mem _ (List.mem_map_of_mem hd))
    have hapart := h.add_le hd
    rw [heq]
    omega

/-- By the shifted time the same value is found, unless the change that comes
next has come by the shifted clock. -/
theorem Apart.valueAt_shifted (h : Apart off D first cs)
    (hnext : ∀ c, nextAfter cs t = some c → t + off (valueAt first cs t) < c.1 + off c.2) :
    valueAt first (shifted off cs) (t + off (valueAt first cs t)) = valueAt first cs t := by
  induction cs generalizing first with
  | nil => rfl
  | cons c cs ih =>
      by_cases hlt : t < c.1
      · have hlate := hnext c (nextAfter_cons_of_lt hlt)
        rw [show valueAt first (c :: cs) t = first from if_pos hlt] at hlate ⊢
        exact if_pos hlate
      · have hle := not_lt.mp hlt
        rw [valueAt_cons_of_le hle] at hnext ⊢
        rw [shifted, List.map_cons, valueAt_cons_of_le (h.add_off_le hle)]
        exact ih h.tail fun d hd ↦ hnext d (by rw [nextAfter_cons_of_le hle, hd])

/-- Otherwise the value after that change is found, and is also the value at
the time that its shift leads back to. -/
theorem Apart.valueAt_repeated (h : Apart off D first cs) (hnext : nextAfter cs t = some c)
    (hle : c.1 + off c.2 ≤ t + off (valueAt first cs t)) :
    valueAt first (shifted off cs) (t + off (valueAt first cs t)) = c.2 ∧
      valueAt first cs (t + off (valueAt first cs t) - off c.2) = c.2 := by
  induction cs generalizing first with
  | nil => exact absurd hnext (by simp [nextAfter])
  | cons b cs ih =>
      by_cases hlt : t < b.1
      · obtain rfl : b = c := Option.some.inj ((nextAfter_cons_of_lt hlt).symm.trans hnext)
        rw [show valueAt first (b :: cs) t = first from if_pos hlt] at hle ⊢
        have hspread : ∀ d ∈ cs, off first - off d.2 < D := fun d hd ↦
          h.spread first List.mem_cons_self d.2
            (List.mem_cons_of_mem _ (List.mem_map_of_mem (List.mem_cons_of_mem b hd)))
        have hback : off first - off b.2 < D := h.spread first List.mem_cons_self b.2
          (List.mem_cons_of_mem _ (List.mem_map_of_mem List.mem_cons_self))
        constructor
        · rw [shifted, List.map_cons, valueAt_cons_of_le hle]
          refine valueAt_of_lt fun d hd ↦ ?_
          obtain ⟨e, he, rfl⟩ := List.mem_map.mp hd
          have hapart := h.add_le he
          have := hspread e he
          simp only
          omega
        · rw [valueAt_cons_of_le (by omega)]
          refine valueAt_of_lt fun d hd ↦ ?_
          have hapart := h.add_le hd
          omega
      · have hb := not_lt.mp hlt
        rw [nextAfter_cons_of_le hb] at hnext
        have hapart := h.add_le (lt_of_nextAfter hnext).1
        have hpos := h.spread first List.mem_cons_self first List.mem_cons_self
        rw [valueAt_cons_of_le hb] at hle ⊢
        obtain ⟨hshift, hback⟩ := ih h.tail hnext hle
        constructor
        · rw [shifted, List.map_cons, valueAt_cons_of_le (h.add_off_le hb)]
          exact hshift
        · rw [valueAt_cons_of_le (by omega)]
          exact hback

end Timeline

end PpDSCache.Abstract
