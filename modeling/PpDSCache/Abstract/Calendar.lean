import Mathlib.Tactic

/-!
# The Gregorian calendar

The calendar is extended to all years.  A day is followed by the next day of
its month, or the first of the next month, or of the next year.
-/

namespace PpDSCache.Abstract

def IsLeap (year : ℤ) : Prop := year % 4 = 0 ∧ (year % 100 ≠ 0 ∨ year % 400 = 0)

instance (year : ℤ) : Decidable (IsLeap year) := inferInstanceAs (Decidable (_ ∧ _))

def daysIn (year month : ℤ) : ℤ :=
  if month = 2 then if IsLeap year then 29 else 28
  else if month = 4 ∨ month = 6 ∨ month = 9 ∨ month = 11 then 30
  else 31

theorem daysIn_pos (year month : ℤ) : 28 ≤ daysIn year month := by
  rw [daysIn]
  split_ifs <;> norm_num

theorem daysIn_le (year month : ℤ) : daysIn year month ≤ 31 := by
  rw [daysIn]
  split_ifs <;> norm_num

theorem daysIn_two_le (year : ℤ) : daysIn year 2 ≤ 29 := by
  rw [daysIn, if_pos rfl]
  split_ifs <;> norm_num

/-- A day of the calendar. -/
@[ext]
structure CalendarDay where
  year : ℤ
  month : ℤ
  day : ℤ
  month_mem : 1 ≤ month ∧ month ≤ 12
  day_mem : 1 ≤ day ∧ day ≤ daysIn year month

namespace CalendarDay

def next (x : CalendarDay) : CalendarDay :=
  if h : x.day < daysIn x.year x.month then
    ⟨x.year, x.month, x.day + 1, x.month_mem, by have := x.day_mem; omega⟩
  else if h' : x.month < 12 then
    ⟨x.year, x.month + 1, 1, by have := x.month_mem; omega,
      le_rfl, by have := daysIn_pos x.year (x.month + 1); omega⟩
  else ⟨x.year + 1, 1, 1, by norm_num, le_rfl, by have := daysIn_pos (x.year + 1) 1; omega⟩

/-- The order of the days. -/
def Before (x y : CalendarDay) : Prop :=
  x.year < y.year ∨ x.year = y.year ∧ (x.month < y.month ∨ x.month = y.month ∧ x.day < y.day)

instance (x y : CalendarDay) : Decidable (x.Before y) := inferInstanceAs (Decidable (_ ∨ _))

theorem day_le (x : CalendarDay) : x.day ≤ 31 := x.day_mem.2.trans (daysIn_le _ _)

theorem before_trichotomy (x y : CalendarDay) : x.Before y ∨ x = y ∨ y.Before x := by
  rcases lt_trichotomy x.year y.year with h | hyear | h
  · exact .inl (.inl h)
  · rcases lt_trichotomy x.month y.month with h | hmonth | h
    · exact .inl (.inr ⟨hyear, .inl h⟩)
    · rcases lt_trichotomy x.day y.day with h | hday | h
      · exact .inl (.inr ⟨hyear, .inr ⟨hmonth, h⟩⟩)
      · exact .inr (.inl (CalendarDay.ext hyear hmonth hday))
      · exact .inr (.inr (.inr ⟨hyear.symm, .inr ⟨hmonth.symm, h⟩⟩))
    · exact .inr (.inr (.inr ⟨hyear.symm, .inl h⟩))
  · exact .inr (.inr (.inl h))

/-! ## Years that begin in March -/

/-- One in January and February, which belong to the year before. -/
def shift (x : CalendarDay) : ℤ := if x.month ≤ 2 then 1 else 0

/-- The years since March of the year -4800. -/
def marchYear (x : CalendarDay) : ℤ := x.year + 4800 - x.shift

/-- The months since March. -/
def marchMonth (x : CalendarDay) : ℤ := x.month + 12 * x.shift - 3

/-- The days of so many years. -/
def daysOfYears (y : ℤ) : ℤ := 365 * y + y / 4 - y / 100 + y / 400

/-- The days since the first of March of the year -4800. -/
def number (x : CalendarDay) : ℤ :=
  x.day - 1 + (153 * x.marchMonth + 2) / 5 + daysOfYears x.marchYear

theorem marchMonth_mem (x : CalendarDay) : 0 ≤ x.marchMonth ∧ x.marchMonth ≤ 11 := by
  have h := x.month_mem
  rw [marchMonth, shift]
  split_ifs <;> omega

theorem isLeap_add (year : ℤ) : IsLeap (year + 4800) ↔ IsLeap year := by
  unfold IsLeap
  omega

/-- The leap day is the last day of a year that begins in March. -/
theorem daysOfYears_succ (y : ℤ) :
    daysOfYears (y + 1) = daysOfYears y + if IsLeap (y + 1) then 366 else 365 := by
  rw [daysOfYears, daysOfYears]
  by_cases h : IsLeap (y + 1)
  · rw [if_pos h]
    unfold IsLeap at h
    omega
  · rw [if_neg h]
    unfold IsLeap at h
    omega

theorem number_next (x : CalendarDay) : x.next.number = x.number + 1 := by
  obtain ⟨year, month, day, hmonth, hday⟩ := x
  rw [next]
  split_ifs with hin hless
  · simp only [number, marchYear, marchMonth, shift]
    ring
  · obtain rfl : day = daysIn year month := by
      simp only at hin
      omega
    obtain ⟨hpos, -⟩ := hmonth
    simp only at hless
    by_cases hfeb : month = 2
    · subst hfeb
      have hyears := daysOfYears_succ (year + 4800 - 1)
      rw [sub_add_cancel] at hyears
      simp only [isLeap_add] at hyears
      simp only [number, marchYear, marchMonth, shift, daysIn]
      norm_num
      rw [hyears]
      split_ifs <;> ring
    · interval_cases month <;> first
        | exact absurd rfl hfeb
        | simp [number, marchYear, marchMonth, shift, daysIn]; ring
  · obtain rfl : month = 12 := by
      simp only at hless
      omega
    obtain rfl : day = 31 := by
      simp only [daysIn] at hin hday
      omega
    have hyear : year + 1 + 4800 - 1 = year + 4800 := by ring
    simp only [number, marchYear, marchMonth, shift]
    norm_num
    rw [hyear]
    ring

/-- No day lies between a day and the next. -/
theorem Before.next_cases {x y : CalendarDay} (h : x.Before y) : x.next = y ∨ x.next.Before y := by
  obtain ⟨year, month, day, hmonth, hday⟩ := x
  obtain ⟨year', month', day', hmonth', hday'⟩ := y
  simp only [Before] at h
  rw [next]
  split_ifs with hin hless
  · simp only [CalendarDay.ext_iff, Before] at hin ⊢
    omega
  · obtain rfl : day = daysIn year month := by
      simp only at hin
      omega
    have hsame : year = year' → month = month' → day' ≤ daysIn year month := by
      rintro rfl rfl
      exact hday'.2
    simp only [CalendarDay.ext_iff, Before] at hless ⊢
    omega
  · have hsame : year = year' → month = month' → day' ≤ daysIn year month := by
      rintro rfl rfl
      exact hday'.2
    simp only [CalendarDay.ext_iff, Before] at hin hless ⊢
    omega

theorem before_next (x : CalendarDay) : x.Before x.next := by
  rw [next]
  split_ifs
  · exact .inr ⟨rfl, .inr ⟨rfl, lt_add_one _⟩⟩
  · exact .inr ⟨rfl, .inl (lt_add_one _)⟩
  · exact .inl (lt_add_one _)

/-- Grows with every day. -/
def rank (x : CalendarDay) : ℤ := 372 * x.year + 31 * x.month + x.day

theorem Before.rank_lt {x y : CalendarDay} (h : x.Before y) : x.rank < y.rank := by
  have hx := x.month_mem
  have hy := y.month_mem
  have hx' := x.day_mem.1
  have hy' := y.day_mem.1
  have hle := x.day_le
  rw [rank, rank]
  unfold Before at h
  omega

theorem Before.number_lt {x y : CalendarDay} (h : x.Before y) : x.number < y.number := by
  have hgap : ∃ n : ℕ, y.rank ≤ x.rank + n := ⟨(y.rank - x.rank).toNat, by omega⟩
  obtain ⟨n, hn⟩ := hgap
  induction n generalizing x with
  | zero =>
      have hlt := h.rank_lt
      omega
  | succ n ih =>
      have hnext := x.number_next
      have hrank := x.before_next.rank_lt
      rcases h.next_cases with rfl | hbefore
      · omega
      · have hlt := ih hbefore (by omega)
        omega

theorem number_lt_iff_before {x y : CalendarDay} : x.number < y.number ↔ x.Before y := by
  refine ⟨fun h ↦ ?_, Before.number_lt⟩
  rcases before_trichotomy x y with hbefore | rfl | hafter
  · exact hbefore
  · exact absurd h (lt_irrefl _)
  · exact absurd h hafter.number_lt.not_gt

/-- The first day with a number that is not negative. -/
def first : CalendarDay := ⟨-4800, 3, 1, by decide, by decide⟩

theorem number_first : first.number = 0 := by decide

theorem exists_number_eq {n : ℤ} (hn : 0 ≤ n) : ∃ x : CalendarDay, x.number = n := by
  induction n, hn using Int.leInduction with
  | base => exact ⟨first, number_first⟩
  | succ n hn ih =>
      obtain ⟨x, rfl⟩ := ih
      exact ⟨x.next, x.number_next⟩

theorem marchYear_nonneg {x : CalendarDay} (h : 0 ≤ x.number) : 0 ≤ x.marchYear := by
  have hfirst : ¬ x.Before first := by
    rw [← number_lt_iff_before, number_first]
    exact not_lt.mpr h
  simp only [Before, first] at hfirst
  have hday := x.day_mem
  have hmonth := x.month_mem
  rw [marchYear, shift]
  split_ifs <;> omega

/-- The first day of the same year. -/
def newYear (x : CalendarDay) : CalendarDay :=
  ⟨x.year, 1, 1, by norm_num, le_rfl, (daysIn_pos x.year 1).trans' (by norm_num)⟩

theorem number_newYear_le (x : CalendarDay) : x.newYear.number ≤ x.number := by
  by_contra hlt
  have hbefore := number_lt_iff_before.mp (not_le.mp hlt)
  have hmonth := x.month_mem
  have hday := x.day_mem
  simp only [Before, newYear] at hbefore
  omega

end CalendarDay

/-! ## The time of day -/

structure ClockTime where
  day : CalendarDay
  hour : ℤ
  minute : ℤ
  second : ℤ
  hour_mem : 0 ≤ hour ∧ hour < 24
  minute_mem : 0 ≤ minute ∧ minute < 60
  second_mem : 0 ≤ second ∧ second < 60

namespace ClockTime

/-- One second later. -/
def tick (c : ClockTime) : ClockTime :=
  if h : c.second < 59 then
    { c with second := c.second + 1, second_mem := by have := c.second_mem; omega }
  else if h' : c.minute < 59 then
    { c with
      minute := c.minute + 1
      second := 0
      minute_mem := by have := c.minute_mem; omega
      second_mem := by norm_num }
  else if h'' : c.hour < 23 then
    ⟨c.day, c.hour + 1, 0, 0, by have := c.hour_mem; omega, by norm_num, by norm_num⟩
  else ⟨c.day.next, 0, 0, 0, by norm_num, by norm_num, by norm_num⟩

/-- The seconds since the first of March of the year -4800. -/
def seconds (c : ClockTime) : ℤ :=
  c.day.number * 86400 + c.hour * 3600 + c.minute * 60 + c.second

theorem seconds_tick (c : ClockTime) : c.tick.seconds = c.seconds + 1 := by
  have hhour := c.hour_mem
  have hminute := c.minute_mem
  have hsecond := c.second_mem
  have hnext := c.day.number_next
  rw [tick]
  split_ifs <;> simp only [seconds] <;> omega

/-- The order of the clock. -/
def Before (c d : ClockTime) : Prop :=
  c.day.Before d.day ∨ c.day = d.day ∧
    (c.hour < d.hour ∨ c.hour = d.hour ∧
      (c.minute < d.minute ∨ c.minute = d.minute ∧ c.second < d.second))

theorem seconds_lt_iff_before {c d : ClockTime} : c.seconds < d.seconds ↔ c.Before d := by
  have hhour := c.hour_mem
  have hminute := c.minute_mem
  have hsecond := c.second_mem
  have hhour' := d.hour_mem
  have hminute' := d.minute_mem
  have hsecond' := d.second_mem
  have hday : c.day = d.day ↔ c.day.number = d.day.number := by
    refine ⟨congrArg _, fun heq ↦ ?_⟩
    rcases CalendarDay.before_trichotomy c.day d.day with hbefore | hsame | hafter
    · exact absurd heq hbefore.number_lt.ne
    · exact hsame
    · exact absurd heq hafter.number_lt.ne'
  rw [seconds, seconds, Before, ← CalendarDay.number_lt_iff_before, hday]
  omega

theorem exists_seconds_eq {t : ℤ} (ht : 0 ≤ t) : ∃ c : ClockTime, c.seconds = t := by
  obtain ⟨x, hx⟩ := CalendarDay.exists_number_eq (show 0 ≤ t / 86400 by omega)
  refine ⟨⟨x, t % 86400 / 60 / 60, t % 86400 / 60 % 60, t % 86400 % 60, by omega, by omega,
    by omega⟩, ?_⟩
  simp only [seconds, hx]
  omega

theorem seconds_div (c : ClockTime) : c.seconds / 86400 = c.day.number := by
  have hhour := c.hour_mem
  have hminute := c.minute_mem
  have hsecond := c.second_mem
  rw [seconds]
  omega

theorem seconds_mod (c : ClockTime) :
    c.seconds % 86400 = c.hour * 3600 + c.minute * 60 + c.second := by
  have hhour := c.hour_mem
  have hminute := c.minute_mem
  have hsecond := c.second_mem
  rw [seconds]
  omega

end ClockTime

end PpDSCache.Abstract
