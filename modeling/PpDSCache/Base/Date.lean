import PpDSCache.Abstract.Calendar
import PpDSCache.Cpp.Arith

/-!
# Dates

A date is its Julian day number.  The conversions between the number and year,
month and day compute with `int`, where division rounds towards zero and an
overflow has no result.
-/

namespace PpDSCache.Base

open Cpp Abstract

structure YearMonthDay where
  year : ℤ
  month : ℤ
  day : ℤ
  deriving DecidableEq

def getJulianDayNumber (year month day : ℤ) : Option ℤ := do
  let a ← divInt (← checkInt (14 - month)) 12
  let y ← checkInt ((← checkInt (year + 4800)) - a)
  let m ← checkInt ((← checkInt (month + (← checkInt (12 * a)))) - 3)
  let s ← checkInt (day + (← divInt (← checkInt ((← checkInt (153 * m)) + 2)) 5))
  let s ← checkInt (s + (← checkInt (y * 365)))
  let s ← checkInt (s + (← divInt y 4))
  let s ← checkInt (s - (← divInt y 100))
  let s ← checkInt (s + (← divInt y 400))
  checkInt (s - 32045)

def getYearMonthDay (julianDayNumber : ℤ) : Option YearMonthDay := do
  let a ← checkInt (julianDayNumber + 32044)
  let b ← divInt (← checkInt ((← checkInt (4 * a)) + 3)) 146097
  let c ← checkInt (a - (← divInt (← checkInt (b * 146097)) 4))
  let d ← divInt (← checkInt ((← checkInt (4 * c)) + 3)) 1461
  let e ← checkInt (c - (← divInt (← checkInt (1461 * d)) 4))
  let m ← divInt (← checkInt ((← checkInt (5 * e)) + 2)) 153
  let day ← checkInt ((← checkInt (e - (← divInt (← checkInt ((← checkInt (153 * m)) + 2)) 5))) + 1)
  let month ← checkInt ((← checkInt (m + 3)) - (← checkInt (12 * (← divInt m 10))))
  let year ← checkInt ((← checkInt ((← checkInt ((← checkInt (b * 100)) + d)) - 4800)) +
    (← divInt m 10))
  return ⟨year, month, day⟩

namespace Date

def kDaysPerWeek : ℤ := 7

/-- `getJulianDayNumber(1970, 1, 1)` -/
def kJulianDayOf1970_01_01 : ℤ := 2440588

def weekDay (julianDayNumber : ℤ) : Option ℤ := do
  return (← checkInt (julianDayNumber + 1)).tmod kDaysPerWeek

end Date

/-- A day of the calendar as the code writes it. -/
def toYearMonthDay (x : CalendarDay) : YearMonthDay := ⟨x.year, x.month, x.day⟩

/-! ## From the calendar to the number -/

variable {x : CalendarDay}

theorem getJulianDayNumber_eq (hlo : 0 ≤ x.marchYear) (hhi : x.marchYear ≤ 1470000) :
    getJulianDayNumber x.year x.month x.day = some (x.number - 32044) := by
  have ha : (14 - x.month) / 12 = x.shift := by
    have hmonth := x.month_mem
    rw [CalendarDay.shift]
    split_ifs <;> omega
  have hshift : 0 ≤ x.shift ∧ x.shift ≤ 1 := by
    rw [CalendarDay.shift]
    split_ifs <;> norm_num
  have hy : x.year + 4800 - x.shift = x.marchYear := rfl
  have hm : x.month + 12 * x.shift - 3 = x.marchMonth := rfl
  have hmonth := x.month_mem
  have hday := x.day_mem.1
  have hday' := x.day_le
  have hm' := x.marchMonth_mem
  have hb : 0 ≤ (153 * x.marchMonth + 2) / 5 ∧ (153 * x.marchMonth + 2) / 5 ≤ 337 := by omega
  have hb4 : 0 ≤ x.marchYear / 4 ∧ x.marchYear / 4 ≤ x.marchYear := by omega
  have hb100 : 0 ≤ x.marchYear / 100 ∧ x.marchYear / 100 ≤ x.marchYear := by omega
  have hb400 : 0 ≤ x.marchYear / 400 ∧ x.marchYear / 400 ≤ x.marchYear := by omega
  rw [getJulianDayNumber, checkInt_bind (by omega), divInt_bind (by omega) (by norm_num), ha,
    checkInt_bind (by omega), hy, checkInt_bind (by omega), checkInt_bind (by omega),
    checkInt_bind (by omega), hm, checkInt_bind (by omega), checkInt_bind (by omega),
    checkInt_bind (by omega), divInt_bind (by omega) (by norm_num)]
  rw [CalendarDay.number, CalendarDay.daysOfYears]
  -- the quotients are opaque from here on, which keeps the range checks linear
  generalize (153 * x.marchMonth + 2) / 5 = p at *
  rw [checkInt_bind (by omega), checkInt_bind (by omega), checkInt_bind (by omega),
    divInt_bind (by omega) (by norm_num)]
  generalize x.marchYear / 4 = p4 at *
  rw [checkInt_bind (by omega), divInt_bind (by omega) (by norm_num)]
  generalize x.marchYear / 100 = p100 at *
  rw [checkInt_bind (by omega), divInt_bind (by omega) (by norm_num)]
  generalize x.marchYear / 400 = p400 at *
  rw [checkInt_bind (by omega), checkInt_eq (by omega)]
  congr 1
  ring

example : getJulianDayNumber 1970 1 1 = some Date.kJulianDayOf1970_01_01 := by decide

/-! ## From the number to the calendar -/

/-- The days since the first of March. -/
def marchDay (x : CalendarDay) : ℤ := (153 * x.marchMonth + 2) / 5 + (x.day - 1)

theorem marchDay_div (x : CalendarDay) : (5 * marchDay x + 2) / 153 = x.marchMonth := by
  obtain ⟨year, month, day, ⟨hmonth, hmonth'⟩, hpos, hle⟩ := x
  have hfeb := daysIn_two_le year
  rw [marchDay, CalendarDay.marchMonth, CalendarDay.shift]
  by_cases htwo : month = 2
  · subst htwo
    norm_num
    omega
  · interval_cases month <;> first
      | exact absurd rfl htwo
      | norm_num [daysIn] at hle ⊢; omega

theorem marchDay_mem (x : CalendarDay) :
    0 ≤ marchDay x ∧ marchDay x ≤ if IsLeap (x.marchYear + 1) then 365 else 364 := by
  obtain ⟨year, month, day, ⟨hmonth, hmonth'⟩, hpos, hle⟩ := x
  by_cases htwo : month = 2
  · subst htwo
    have hyear : year + 4800 - 1 + 1 = year + 4800 := by ring
    simp only [marchDay, CalendarDay.marchMonth, CalendarDay.marchYear, CalendarDay.shift, daysIn,
      if_true, le_refl, hyear, CalendarDay.isLeap_add] at hle ⊢
    norm_num
    split_ifs at hle ⊢ <;> omega
  · have hless : marchDay ⟨year, month, day, ⟨hmonth, hmonth'⟩, hpos, hle⟩ ≤ 336 := by
      rw [marchDay, CalendarDay.marchMonth, CalendarDay.shift]
      interval_cases month <;> first
        | exact absurd rfl htwo
        | norm_num [daysIn] at hle ⊢; omega
    have hmarch := CalendarDay.marchMonth_mem ⟨year, month, day, ⟨hmonth, hmonth'⟩, hpos, hle⟩
    refine ⟨?_, ?_⟩
    · rw [marchDay]
      simp only at hmarch ⊢
      omega
    · split_ifs <;> omega

theorem century_div {a b c : ℤ} (hc : 0 ≤ c ∧ c ≤ 36524) (hlast : c = 36524 → b % 4 = 3)
    (ha : a = 36524 * b + b / 4 + c) : (4 * a + 3) / 146097 = b ∧ a - b * 146097 / 4 = c := by
  omega

theorem year_div {c d e : ℤ} (he : 0 ≤ e ∧ e ≤ 365) (hlast : e = 365 → d % 4 = 3)
    (hc : c = 365 * d + d / 4 + e) : (4 * c + 3) / 1461 = d ∧ c - 1461 * d / 4 = e := by
  omega

/-- The day in the century. -/
def centuryDay (x : CalendarDay) : ℤ :=
  365 * (x.marchYear % 100) + x.marchYear % 100 / 4 + marchDay x

theorem number_eq (x : CalendarDay) :
    x.number = 36524 * (x.marchYear / 100) + x.marchYear / 100 / 4 + centuryDay x := by
  rw [CalendarDay.number, CalendarDay.daysOfYears, centuryDay, marchDay]
  omega

theorem marchDay_last {x : CalendarDay} (h : marchDay x = 365) :
    x.marchYear % 100 % 4 = 3 ∧ (x.marchYear % 100 = 99 → x.marchYear / 100 % 4 = 3) := by
  have hmem := (marchDay_mem x).2
  by_cases hleap : IsLeap (x.marchYear + 1)
  · unfold IsLeap at hleap
    omega
  · rw [if_neg hleap] at hmem
    omega

theorem marchDay_le (x : CalendarDay) : marchDay x ≤ 365 := by
  have hmem := (marchDay_mem x).2
  split_ifs at hmem <;> omega

/-- A century and the day in it, a year of the century and the day in it. -/
theorem number_div (x : CalendarDay) :
    ((4 * x.number + 3) / 146097 = x.marchYear / 100 ∧
      x.number - x.marchYear / 100 * 146097 / 4 = centuryDay x) ∧
    (4 * centuryDay x + 3) / 1461 = x.marchYear % 100 ∧
      centuryDay x - 1461 * (x.marchYear % 100) / 4 = marchDay x := by
  have hpos := (marchDay_mem x).1
  have hle := marchDay_le x
  have hlast := @marchDay_last x
  refine ⟨century_div ?_ ?_ (number_eq x), year_div ⟨hpos, hle⟩ (fun h ↦ (hlast h).1) rfl⟩
  · rw [centuryDay]
    omega
  · intro hcentury
    rw [centuryDay] at hcentury
    exact (hlast (by omega)).2 (by omega)

theorem fields_of_march (x : CalendarDay) :
    x.marchYear / 100 * 100 + x.marchYear % 100 - 4800 + x.marchMonth / 10 = x.year ∧
      x.marchMonth + 3 - 12 * (x.marchMonth / 10) = x.month ∧
      marchDay x - (153 * x.marchMonth + 2) / 5 + 1 = x.day := by
  have hmonth := x.month_mem
  rw [marchDay, CalendarDay.marchYear, CalendarDay.marchMonth, CalendarDay.shift]
  split_ifs <;> omega

theorem getYearMonthDay_number (hlo : 0 ≤ x.number) (hhi : x.number ≤ 536870911) :
    getYearMonthDay (x.number - 32044) = some (toYearMonthDay x) := by
  obtain ⟨⟨hb, hc⟩, hd, he⟩ := number_div x
  obtain ⟨hyear, hmonth, hday⟩ := fields_of_march x
  have hm := marchDay_div x
  have hbound : 0 ≤ x.marchYear / 100 ∧ x.marchYear / 100 ≤ 14700 := by
    have hpos := CalendarDay.marchYear_nonneg hlo
    omega
  have hmod : 0 ≤ x.marchYear % 100 ∧ x.marchYear % 100 < 100 := by omega
  have hcentury : 0 ≤ centuryDay x ∧ centuryDay x ≤ 36524 := by
    have hpos := (marchDay_mem x).1
    have hle := marchDay_le x
    rw [centuryDay]
    omega
  have hmarch := And.intro (marchDay_mem x).1 (marchDay_le x)
  have hmonths := x.marchMonth_mem
  rw [toYearMonthDay, ← hyear, ← hmonth, ← hday]
  -- as above, only the sizes of the quotients matter for the range checks
  generalize x.number = a at *
  generalize centuryDay x = c at *
  generalize marchDay x = e at *
  generalize x.marchMonth = m at *
  generalize x.marchYear / 100 = b at *
  generalize x.marchYear % 100 = d at *
  clear hyear hmonth hday
  rw [getYearMonthDay, checkInt_bind (by omega), sub_add_cancel, checkInt_bind (by omega),
    checkInt_bind (by omega), divInt_bind (by omega) (by norm_num), hb, checkInt_bind (by omega),
    divInt_bind (by omega) (by norm_num), hc, checkInt_bind (by omega), checkInt_bind (by omega),
    checkInt_bind (by omega), divInt_bind (by omega) (by norm_num), hd]
  clear hb hc hd
  rw [checkInt_bind (by omega), divInt_bind (by omega) (by norm_num), he, checkInt_bind (by omega),
    checkInt_bind (by omega), checkInt_bind (by omega), divInt_bind (by omega) (by norm_num), hm]
  clear he hm
  rw [checkInt_bind (by omega), checkInt_bind (by omega), divInt_bind (by omega) (by norm_num),
    checkInt_bind (by omega), checkInt_bind (by omega), checkInt_bind (by omega),
    divInt_bind (by omega) (by norm_num), checkInt_bind (by omega), checkInt_bind (by omega),
    checkInt_bind (by omega), checkInt_bind (by omega), checkInt_bind (by omega),
    divInt_bind (by omega) (by norm_num), checkInt_bind (by omega)]
  rfl

/-! ## The calendar -/

theorem marchYear_le {x : CalendarDay} (hhi : x.number ≤ 536870911) : x.marchYear ≤ 1470000 := by
  have hday := x.day_mem.1
  have hmonths := x.marchMonth_mem
  rw [CalendarDay.number, CalendarDay.daysOfYears] at hhi
  omega

/-- The numbers follow the calendar from one day to the next, as long as
`getYearMonthDay` does not overflow. -/
theorem getYearMonthDay_follows_calendar {n : ℤ} (hlo : -32044 ≤ n) (hhi : n < 536838867) :
    ∃ x : CalendarDay, getYearMonthDay n = some (toYearMonthDay x) ∧
      getYearMonthDay (n + 1) = some (toYearMonthDay x.next) ∧
      getJulianDayNumber x.year x.month x.day = some n := by
  obtain ⟨x, hx⟩ := CalendarDay.exists_number_eq (show 0 ≤ n + 32044 by omega)
  have hn : n = x.number - 32044 := by omega
  have hnext : n + 1 = x.next.number - 32044 := by
    rw [x.number_next]
    omega
  refine ⟨x, ?_, ?_, ?_⟩
  · rw [hn]
    exact getYearMonthDay_number (by omega) (by omega)
  · rw [hnext]
    exact getYearMonthDay_number (by omega) (by omega)
  · rw [hn]
    exact getJulianDayNumber_eq (CalendarDay.marchYear_nonneg (by omega)) (marchYear_le (by omega))

theorem getYearMonthDay_follows_calendar_leapDay :
    ∃ x : CalendarDay, getYearMonthDay 2451603 = some (toYearMonthDay x) ∧
      getYearMonthDay (2451603 + 1) = some (toYearMonthDay x.next) ∧
      getJulianDayNumber x.year x.month x.day = some 2451603 :=
  getYearMonthDay_follows_calendar (by norm_num) (by norm_num)

theorem number_mem {x : CalendarDay} (hx : -4799 ≤ x.year ∧ x.year ≤ 1465101) :
    0 ≤ x.number ∧ x.number ≤ 536870911 := by
  constructor
  · have hfirst : CalendarDay.first.Before x := .inl (by simp only [CalendarDay.first]; omega)
    exact (CalendarDay.number_first ▸ hfirst.number_lt).le
  · have hlast : x.Before ⟨1465102, 10, 18, by decide, by decide⟩ := .inl (by simp only; omega)
    exact hlast.number_lt.le

/-- Each day of the calendar has a number of its own, which leads back to it,
and the numbers are in the order of the days. -/
theorem date_lt_iff {x y : CalendarDay} (hx : -4799 ≤ x.year ∧ x.year ≤ 1465101)
    (hy : -4799 ≤ y.year ∧ y.year ≤ 1465101) :
    ∃ j k, getJulianDayNumber x.year x.month x.day = some j ∧
      getJulianDayNumber y.year y.month y.day = some k ∧
      getYearMonthDay j = some (toYearMonthDay x) ∧ getYearMonthDay k = some (toYearMonthDay y) ∧
      (j < k ↔ x.Before y) := by
  obtain ⟨hxlo, hxhi⟩ := number_mem hx
  obtain ⟨hylo, hyhi⟩ := number_mem hy
  refine ⟨x.number - 32044, y.number - 32044, ?_, ?_, ?_, ?_, ?_⟩
  · exact getJulianDayNumber_eq (CalendarDay.marchYear_nonneg hxlo) (marchYear_le hxhi)
  · exact getJulianDayNumber_eq (CalendarDay.marchYear_nonneg hylo) (marchYear_le hyhi)
  · exact getYearMonthDay_number hxlo hxhi
  · exact getYearMonthDay_number hylo hyhi
  · rw [sub_lt_sub_iff_right, CalendarDay.number_lt_iff_before]

theorem date_lt_iff_newYear :
    ∃ j k, getJulianDayNumber 1999 12 31 = some j ∧ getJulianDayNumber 2000 1 1 = some k ∧
      getYearMonthDay j = some ⟨1999, 12, 31⟩ ∧ getYearMonthDay k = some ⟨2000, 1, 1⟩ ∧ j < k := by
  obtain ⟨j, k, hj, hk, hj', hk', hlt⟩ := date_lt_iff
    (x := ⟨1999, 12, 31, by decide, by decide⟩) (y := ⟨2000, 1, 1, by decide, by decide⟩)
    (by norm_num) (by norm_num)
  exact ⟨j, k, hj, hk, hj', hk', hlt.mpr (by decide)⟩

end PpDSCache.Base
