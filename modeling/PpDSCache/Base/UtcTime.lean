import PpDSCache.Base.Date
import PpDSCache.Cpp.Text

/-!
# Universal time

`TimeZone::toUtcTime` takes the seconds since 1970 apart, and `fromUtcTime` puts
them together again.
-/

namespace PpDSCache.Base

open Cpp Abstract

/-- `struct tm` -/
structure Tm where
  sec : ℤ
  min : ℤ
  hour : ℤ
  mday : ℤ
  mon : ℤ
  year : ℤ
  wday : ℤ
  yday : ℤ
  isdst : ℤ
  gmtoff : ℤ
  zone : Text
  deriving DecidableEq

def kSecondsPerDay : ℤ := 24 * 60 * 60

/-- The seconds of the day and the days since 1970. -/
def splitSeconds (secondsSinceEpoch : ℤ) : Option (ℤ × ℤ) := do
  let seconds := (secondsSinceEpoch.tmod kSecondsPerDay).bmod (2 ^ 32)
  let days := (secondsSinceEpoch.tdiv kSecondsPerDay).bmod (2 ^ 32)
  if seconds < 0 then
    return (← checkInt (seconds + kSecondsPerDay), ← checkInt (days - 1))
  else return (seconds, days)

/-- `tm_yday`, which is zero where it is not asked for. -/
def dayOfYear (julianDayNumber year : ℤ) (yday : Bool) : Option ℤ :=
  if yday = true then
    (getJulianDayNumber year 1 1).bind fun startOfYear ↦ checkInt (julianDayNumber - startOfYear)
  else some 0

def toUtcTime (secondsSinceEpoch : ℤ) (yday : Bool) : Option Tm := do
  let (seconds, days) ← splitSeconds secondsSinceEpoch
  let julianDayNumber ← checkInt (days + Date.kJulianDayOf1970_01_01)
  let ymd ← getYearMonthDay julianDayNumber
  return {
    -- `fillHMS`
    sec := seconds % 60
    min := seconds / 60 % 60
    hour := seconds / 60 / 60
    mday := ymd.day
    mon := ← checkInt (ymd.month - 1)
    year := ← checkInt (ymd.year - 1900)
    wday := ← Date.weekDay julianDayNumber
    yday := ← dayOfYear julianDayNumber ymd.year yday
    isdst := 0
    gmtoff := 0
    zone := ascii "GMT" }

def fromUtcTime (utc : Tm) : Option ℤ := do
  let julianDayNumber ← getJulianDayNumber (← checkInt (utc.year + 1900)) (← checkInt (utc.mon + 1))
    utc.mday
  let secondsInDay ← checkInt ((← checkInt ((← checkInt (utc.hour * 3600)) +
    (← checkInt (utc.min * 60)))) + utc.sec)
  let days ← checkInt (julianDayNumber - Date.kJulianDayOf1970_01_01)
  return days * kSecondsPerDay + secondsInDay

/-- The fields are those of a date and a time of day. -/
structure Tm.Shows (tm : Tm) (c : ClockTime) : Prop where
  sec : tm.sec = c.second
  min : tm.min = c.minute
  hour : tm.hour = c.hour
  mday : tm.mday = c.day.day
  mon : tm.mon + 1 = c.day.month
  year : tm.year + 1900 = c.day.year

/-- The seconds since 1970. -/
def sinceEpoch (c : ClockTime) : ℤ := c.seconds - 213635404800

/-! ## Both ways -/

theorem bmod_eq_of_range {v : ℤ} (h : -2 ^ 31 ≤ v ∧ v < 2 ^ 31) : v.bmod (2 ^ 32) = v := by
  rw [Int.bmod_def]
  split_ifs <;> omega

theorem splitSeconds_eq {t : ℤ} (h : -2 ^ 31 ≤ t / 86400 ∧ t / 86400 < 2 ^ 31 - 1) :
    splitSeconds t = some (t % 86400, t / 86400) := by
  have hdiv := Int.tdiv_eq_ediv (a := t) (b := 86400)
  have hmod := Int.tmod_eq_emod (a := t) (b := 86400)
  rw [splitSeconds, show kSecondsPerDay = 86400 from rfl]
  by_cases hround : 0 ≤ t ∨ 86400 ∣ t
  · rw [if_pos hround, add_zero] at hdiv
    rw [if_pos hround, Nat.cast_zero, sub_zero] at hmod
    have hsec : ¬ t % 86400 < 0 := by omega
    rw [hdiv, hmod, bmod_eq_of_range (by omega), bmod_eq_of_range (by omega), if_neg hsec]
    rfl
  · have hsign : (86400 : ℤ).sign = 1 := rfl
    have habs : (((86400 : ℤ).natAbs : ℕ) : ℤ) = 86400 := rfl
    rw [if_neg hround, hsign] at hdiv
    rw [if_neg hround, habs] at hmod
    have hsec : t % 86400 - 86400 < 0 := by omega
    rw [hdiv, hmod, bmod_eq_of_range (by omega), bmod_eq_of_range (by omega), if_pos hsec,
      checkInt_bind (by omega), checkInt_bind (by omega), sub_add_cancel, add_sub_cancel_right]
    rfl

/-- The day of the clock is a valid `Date`, and its conversion does not overflow. -/
def InSpan (c : ClockTime) : Prop := 32045 ≤ c.day.number ∧ c.day.number ≤ 536870911

theorem sinceEpoch_div (c : ClockTime) : sinceEpoch c / 86400 = c.day.number - 2472632 := by
  rw [← c.seconds_div, sinceEpoch]
  omega

theorem sinceEpoch_mod (c : ClockTime) :
    sinceEpoch c % 86400 = c.hour * 3600 + c.minute * 60 + c.second := by
  rw [← c.seconds_mod, sinceEpoch]
  omega

theorem number_newYear_nonneg {x : CalendarDay} (h : 32045 ≤ x.number) : 0 ≤ x.newYear.number := by
  have hyear : -4799 ≤ x.year := by
    by_contra hyear
    have hbefore : x.Before ⟨-4799, 1, 1, by decide, by decide⟩ := .inl (not_le.mp hyear)
    have hlt : x.number < 306 := hbefore.number_lt
    omega
  have hfirst : CalendarDay.first.Before x.newYear := .inl (Int.lt_of_add_one_le hyear)
  exact (CalendarDay.number_first ▸ hfirst.number_lt).le

theorem dayOfYear_eq {x : CalendarDay} (h : 32045 ≤ x.number) (h' : x.number ≤ 536870911)
    (yday : Bool) : dayOfYear (x.number - 32044) x.year yday =
      some (if yday = true then x.number - x.newYear.number else 0) := by
  have hpos := number_newYear_nonneg h
  have hle := x.number_newYear_le
  have hjulian : getJulianDayNumber x.year 1 1 = some (x.newYear.number - 32044) :=
    getJulianDayNumber_eq (x := x.newYear) (CalendarDay.marchYear_nonneg hpos)
      (marchYear_le (hle.trans h'))
  rw [dayOfYear, hjulian, Option.bind_some, sub_sub_sub_cancel_right, checkInt_eq (by omega)]
  split_ifs <;> rfl

/-- The years are far from the bounds of `int`. -/
theorem year_mem {x : CalendarDay} (h : 0 ≤ x.number) (h' : x.number ≤ 536870911) :
    -4800 ≤ x.year ∧ x.year ≤ 1470000 := by
  have hlo := CalendarDay.marchYear_nonneg h
  have hhi := marchYear_le h'
  rw [CalendarDay.marchYear, CalendarDay.shift] at hlo hhi
  split_ifs at hlo hhi <;> omega

theorem weekDay_eq {n : ℤ} (h : 0 ≤ n ∧ n < 2 ^ 31 - 1) : Date.weekDay n = some ((n + 1) % 7) := by
  rw [Date.weekDay, checkInt_bind (by omega), Date.kDaysPerWeek,
    Int.tmod_eq_emod_of_nonneg (by omega)]
  rfl

theorem toUtcTime_sinceEpoch {c : ClockTime} (hc : InSpan c) (yday : Bool) :
    ∃ tm, toUtcTime (sinceEpoch c) yday = some tm ∧ tm.Shows c ∧
      tm.wday = (4 + sinceEpoch c / 86400) % 7 ∧
      tm.yday = if yday = true then c.day.number - c.day.newYear.number else 0 := by
  obtain ⟨hlo, hhi⟩ := hc
  have hhour := c.hour_mem
  have hminute := c.minute_mem
  have hsecond := c.second_mem
  have hmonth := c.day.month_mem
  have hsplit : splitSeconds (sinceEpoch c) = some (c.hour * 3600 + c.minute * 60 + c.second,
      c.day.number - 2472632) := by
    rw [splitSeconds_eq (by rw [sinceEpoch_div]; omega), sinceEpoch_div, sinceEpoch_mod]
  have hjulian : checkInt (c.day.number - 2472632 + Date.kJulianDayOf1970_01_01) =
      some (c.day.number - 32044) := by
    rw [Date.kJulianDayOf1970_01_01, checkInt_eq (by omega)]
    congr 1
    ring
  have hymd : getYearMonthDay (c.day.number - 32044) = some (toYearMonthDay c.day) :=
    getYearMonthDay_number (by omega) hhi
  have hyday := dayOfYear_eq hlo hhi yday
  have hmem := year_mem (show 0 ≤ c.day.number by omega) hhi
  have hyear : checkInt (c.day.year - 1900) = some (c.day.year - 1900) := checkInt_eq (by omega)
  have hmon : checkInt (c.day.month - 1) = some (c.day.month - 1) := checkInt_eq (by omega)
  have hwday : Date.weekDay (c.day.number - 32044) = some ((c.day.number - 32044 + 1) % 7) :=
    weekDay_eq (by omega)
  have hutc : toUtcTime (sinceEpoch c) yday = some {
      sec := (c.hour * 3600 + c.minute * 60 + c.second) % 60
      min := (c.hour * 3600 + c.minute * 60 + c.second) / 60 % 60
      hour := (c.hour * 3600 + c.minute * 60 + c.second) / 60 / 60
      mday := c.day.day
      mon := c.day.month - 1
      year := c.day.year - 1900
      wday := (c.day.number - 32044 + 1) % 7
      yday := if yday = true then c.day.number - c.day.newYear.number else 0
      isdst := 0
      gmtoff := 0
      zone := ascii "GMT" } := by
    simp only [toUtcTime, hsplit, hjulian, hymd, toYearMonthDay, hyday, hyear, hmon, hwday,
      Option.bind_eq_bind, Option.bind_some, Option.pure_def]
  have hsec : (c.hour * 3600 + c.minute * 60 + c.second) % 60 = c.second := by omega
  have hmin : (c.hour * 3600 + c.minute * 60 + c.second) / 60 % 60 = c.minute := by omega
  have hhour' : (c.hour * 3600 + c.minute * 60 + c.second) / 60 / 60 = c.hour := by omega
  have hweek : (c.day.number - 32044 + 1) % 7 = (4 + sinceEpoch c / 86400) % 7 := by
    rw [sinceEpoch_div]
    omega
  exact ⟨_, hutc, ⟨hsec, hmin, hhour', rfl, sub_add_cancel _ _, sub_add_cancel _ _⟩, hweek, rfl⟩

theorem fromUtcTime_of_shows {c : ClockTime} (hc : InSpan c) {tm : Tm} (h : tm.Shows c) :
    fromUtcTime tm = some (sinceEpoch c) := by
  obtain ⟨hlo, hhi⟩ := hc
  have hhour := c.hour_mem
  have hminute := c.minute_mem
  have hsecond := c.second_mem
  have hmonth := c.day.month_mem
  have hmem := year_mem (show 0 ≤ c.day.number by omega) hhi
  have hjulian := getJulianDayNumber_eq
    (CalendarDay.marchYear_nonneg (show 0 ≤ c.day.number by omega)) (marchYear_le hhi)
  rw [fromUtcTime, h.year, h.mon, h.mday, h.hour, h.min, h.sec, checkInt_bind (by omega),
    checkInt_bind (by omega), hjulian]
  simp only [Option.bind_eq_bind, Option.bind_some, Date.kJulianDayOf1970_01_01]
  simp only [← Option.bind_eq_bind]
  rw [checkInt_bind (by omega), checkInt_bind (by omega), checkInt_bind (by omega),
    checkInt_bind (by omega), checkInt_bind (by omega)]
  simp only [Option.pure_def, sinceEpoch, ClockTime.seconds, kSecondsPerDay, Option.some.injEq]
  ring

theorem inSpan_of_sinceEpoch {c : ClockTime} (hlo : -210866716800 ≤ sinceEpoch c)
    (hhi : sinceEpoch c < 46172011392000) : InSpan c := by
  have hdiv := sinceEpoch_div c
  constructor <;> omega

theorem exists_sinceEpoch {t : ℤ} (ht : -213635404800 ≤ t) : ∃ c, t = sinceEpoch c := by
  obtain ⟨c, hc⟩ := ClockTime.exists_seconds_eq (show 0 ≤ t + 213635404800 by omega)
  refine ⟨c, ?_⟩
  rw [sinceEpoch]
  omega

/-- Every time in the span is shown. -/
theorem exists_shows {t : ℤ} (hlo : -210866716800 ≤ t) (hhi : t < 46172011392000) :
    ∃ c tm, toUtcTime t true = some tm ∧ tm.Shows c ∧ InSpan c ∧ t = sinceEpoch c := by
  obtain ⟨c, rfl⟩ := exists_sinceEpoch (show -213635404800 ≤ t by omega)
  have hspan := inSpan_of_sinceEpoch hlo hhi
  obtain ⟨tm, htm, hshows, -, -⟩ := toUtcTime_sinceEpoch hspan true
  exact ⟨c, tm, htm, hshows, hspan, rfl⟩

/-- The fields follow the clock from one second to the next, from the first
valid `Date` to the last second that does not overflow, and lead back. -/
theorem toUtcTime_follows_clock {t : ℤ} (hlo : -210866716800 ≤ t) (hhi : t < 46172011391999)
    (yday : Bool) :
    ∃ c tm tm', toUtcTime t yday = some tm ∧ tm.Shows c ∧
      toUtcTime (t + 1) yday = some tm' ∧ tm'.Shows c.tick ∧ fromUtcTime tm = some t ∧
      tm.wday = (4 + t / 86400) % 7 ∧
      (yday = true → tm.yday = c.day.number - c.day.newYear.number) := by
  obtain ⟨c, rfl⟩ := exists_sinceEpoch (show -213635404800 ≤ t by omega)
  have htick : sinceEpoch c + 1 = sinceEpoch c.tick := by
    rw [sinceEpoch, sinceEpoch, c.seconds_tick]
    ring
  have hspan := inSpan_of_sinceEpoch hlo (by omega)
  obtain ⟨tm, htm, hshows, hwday, hyday⟩ := toUtcTime_sinceEpoch hspan yday
  obtain ⟨tm', htm', hshows', -, -⟩ :=
    toUtcTime_sinceEpoch (inSpan_of_sinceEpoch (c := c.tick) (by omega) (by omega)) yday
  refine ⟨c, tm, tm', htm, hshows, htick ▸ htm', hshows', fromUtcTime_of_shows hspan hshows, hwday,
    fun hasked ↦ ?_⟩
  rw [hyday, if_pos hasked]

theorem toUtcTime_follows_clock_lastSecond :
    ∃ c tm tm', toUtcTime (-1) true = some tm ∧ tm.Shows c ∧
      toUtcTime (-1 + 1) true = some tm' ∧ tm'.Shows c.tick ∧ fromUtcTime tm = some (-1) ∧
      tm.wday = (4 + -1 / 86400) % 7 ∧
      (true = true → tm.yday = c.day.number - c.day.newYear.number) :=
  toUtcTime_follows_clock (by norm_num) (by norm_num) true

theorem inSpan_of_year {c : ClockTime} (hc : -4712 ≤ c.day.year ∧ c.day.year ≤ 1465101) :
    InSpan c := by
  refine ⟨?_, (number_mem ⟨by omega, hc.2⟩).2⟩
  have hbefore : CalendarDay.Before ⟨-4713, 12, 31, by decide, by decide⟩ c.day :=
    .inl (Int.lt_of_add_one_le hc.1)
  have hlt : 32081 < c.day.number := hbefore.number_lt
  omega

/-- Whatever date and time of day the fields show, the seconds made of them are
taken apart into the same, and are in the order of the clock. -/
theorem fromUtcTime_roundTrip {c d : ClockTime}
    (hc : -4712 ≤ c.day.year ∧ c.day.year ≤ 1465101)
    (hd : -4712 ≤ d.day.year ∧ d.day.year ≤ 1465101) {tm tm' : Tm} (h : tm.Shows c)
    (h' : tm'.Shows d) (yday : Bool) :
    ∃ t t' utc, fromUtcTime tm = some t ∧ fromUtcTime tm' = some t' ∧
      toUtcTime t yday = some utc ∧ utc.Shows c ∧ (t < t' ↔ c.Before d) := by
  obtain ⟨utc, hutc, hshows, -, -⟩ := toUtcTime_sinceEpoch (inSpan_of_year hc) yday
  refine ⟨sinceEpoch c, sinceEpoch d, utc, fromUtcTime_of_shows (inSpan_of_year hc) h,
    fromUtcTime_of_shows (inSpan_of_year hd) h', hutc, hshows, ?_⟩
  rw [sinceEpoch, sinceEpoch, sub_lt_sub_iff_right, ClockTime.seconds_lt_iff_before]

/-- The last second of a leap day. -/
def exampleMidnight : ClockTime where
  day := ⟨2000, 2, 29, by decide, by decide⟩
  hour := 23
  minute := 59
  second := 59
  hour_mem := by decide
  minute_mem := by decide
  second_mem := by decide

theorem fromUtcTime_roundTrip_exampleMidnight :
    ∃ t t' utc, fromUtcTime ⟨59, 59, 23, 29, 1, 100, 0, 0, 0, 0, []⟩ = some t ∧
      fromUtcTime ⟨0, 0, 0, 1, 2, 100, 0, 0, 0, 0, []⟩ = some t' ∧
      toUtcTime t true = some utc ∧ utc.Shows exampleMidnight ∧
      (t < t' ↔ exampleMidnight.Before exampleMidnight.tick) :=
  fromUtcTime_roundTrip (by decide) (by decide) ⟨rfl, rfl, rfl, rfl, rfl, rfl⟩
    ⟨rfl, rfl, rfl, rfl, rfl, rfl⟩ true

end PpDSCache.Base
