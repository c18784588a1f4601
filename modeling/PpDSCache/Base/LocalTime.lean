import PpDSCache.Abstract.Timeline
import PpDSCache.Base.UtcTime

/-!
# Local time

A time zone is a list of transitions, each to one of its kinds of local time.
The transition that a time falls behind is searched for in the order of
universal time, or in that of local time.
-/

namespace PpDSCache.Base

open Cpp Abstract

structure Transition where
  gmttime : ℤ
  localtime : ℤ
  localtimeIdx : ℕ
  deriving DecidableEq

/-- What `Comp` compares. -/
def Transition.key (compareGmt : Bool) (x : Transition) : ℤ :=
  if compareGmt = true then x.gmttime else x.localtime

structure Localtime where
  gmtOffset : ℤ
  isDst : Bool
  arrbIdx : ℕ
  deriving DecidableEq

/-- `TimeZone::Data`, without `names`, which nothing reads. -/
structure TimeZoneData where
  transitions : List Transition
  localtimes : List Localtime
  abbreviation : Text

/-- `std::lower_bound`: the position behind what is less. -/
def lowerBound {α : Type} (less : α → Bool) (xs : List α) : ℕ := (xs.takeWhile less).length

theorem exists_lowerBound {α : Type} (less : α → Bool) (xs : List α) :
    ∃ pre rest, xs = pre ++ rest ∧ lowerBound less xs = pre.length ∧
      (∀ x ∈ pre, less x = true) ∧ ∀ x ∈ rest.head?, less x = false := by
  induction xs with
  | nil => exact ⟨[], [], rfl, rfl, by simp, by simp⟩
  | cons x xs ih =>
      obtain ⟨pre, rest, heq, hlen, hless, hhead⟩ := ih
      cases hx : less x with
      | true =>
          refine ⟨x :: pre, rest, by rw [heq]; rfl, ?_, by simpa using ⟨hx, hless⟩, hhead⟩
          rw [lowerBound, List.takeWhile_cons_of_pos hx, List.length_cons, ← lowerBound, hlen]
          rfl
      | false =>
          refine ⟨[], x :: xs, rfl, ?_, by simp, by simpa using hx⟩
          rw [lowerBound, List.takeWhile_cons_of_neg (by simp [hx])]

namespace TimeZoneData

variable (data : TimeZoneData)

/-- `data.localtimes[transI->localtimeIdx]` -/
def localtimeAt (x : Transition) : Option Localtime := data.localtimes[x.localtimeIdx]?

/-- An element that is not there has no result. -/
def findLocaltime (sentry : Transition) (compareGmt : Bool) : Option Localtime :=
  match data.transitions with
  | [] => data.localtimes.head?
  | front :: _ =>
      if sentry.key compareGmt < front.key compareGmt then data.localtimes.head?
      else
        let transI := lowerBound (fun x ↦ x.key compareGmt < sentry.key compareGmt) data.transitions
        match data.transitions[transI]? with
        | some x =>
            if sentry.key compareGmt = x.key compareGmt then data.localtimeAt x
            else if transI = 0 then none
            else (data.transitions[transI - 1]?).bind data.localtimeAt
        | none => data.transitions.getLast?.bind data.localtimeAt

/-- The text that `&data.abbreviation[arrbIdx]` points to. -/
def zoneAt (arrbIdx : ℕ) : Option Text :=
  if arrbIdx ≤ data.abbreviation.length then
    some ((data.abbreviation.drop arrbIdx).takeWhile (· ≠ 0))
  else none

/-- The fields that `gmtime_r` does not know. -/
def inZone (loc : Localtime) (zone : Text) (localTime : Tm) : Tm :=
  { localTime with
    isdst := if loc.isDst = true then 1 else 0
    gmtoff := loc.gmtOffset
    zone }

/-- `gmtime_r` takes the time apart as `toUtcTime` does. -/
def toLocalTime (seconds : ℤ) : Option Tm := do
  let loc ← data.findLocaltime ⟨seconds, 0, 0⟩ true
  let localTime ← toUtcTime (seconds + loc.gmtOffset) true
  let zone ← data.zoneAt loc.arrbIdx
  return inZone loc zone localTime

/-- The seconds of the local time, an hour less in an hour that comes twice. -/
def localSeconds (localTm : Tm) (seconds : ℤ) (loc : Localtime) : Option ℤ :=
  if localTm.isdst ≠ 0 then
    (data.toLocalTime (seconds - loc.gmtOffset)).map fun tryTm ↦
      if tryTm.isdst = 0 ∧ tryTm.hour = localTm.hour ∧ tryTm.min = localTm.min then seconds - 3600
      else seconds
  else some seconds

/-- `timegm` puts the time together as `fromUtcTime` does. -/
def fromLocalTime (localTm : Tm) : Option ℤ := do
  let seconds ← fromUtcTime localTm
  let loc ← data.findLocaltime ⟨0, seconds, 0⟩ false
  let seconds ← data.localSeconds localTm seconds loc
  return seconds - loc.gmtOffset

/-! ## The search -/

/-- The kind of local time after a transition. -/
def localOf (x : Transition) : Localtime := (data.localtimeAt x).getD ⟨0, false, 0⟩

def changes (compareGmt : Bool) : List (ℤ × Localtime) :=
  data.transitions.map fun x ↦ (x.key compareGmt, data.localOf x)

variable {data} {first : Localtime} {g : Bool}

theorem localtimeAt_eq (h : ∀ x ∈ data.transitions, x.localtimeIdx < data.localtimes.length)
    {x : Transition} (hx : x ∈ data.transitions) : data.localtimeAt x = some (data.localOf x) := by
  rw [localOf, localtimeAt, List.getElem?_eq_getElem (h x hx), Option.getD_some]

theorem valueAt_map_of_lt {xs : List Transition} {v : ℤ} (h : ∀ x ∈ xs, v < x.key g)
    (a : Localtime) : valueAt a (xs.map fun x ↦ (x.key g, data.localOf x)) v = a := by
  refine valueAt_of_lt fun c hc ↦ ?_
  obtain ⟨x, hx, rfl⟩ := List.mem_map.mp hc
  exact h x hx

/-- The last transition that is not behind a time. -/
theorem valueAt_changes (hsorted : data.transitions.Pairwise fun x y ↦ x.key g < y.key g)
    {pre rest : List Transition} {y : Transition} {v : ℤ}
    (heq : data.transitions = pre ++ y :: rest) (hy : y.key g ≤ v)
    (hrest : ∀ x ∈ rest, v < x.key g) :
    valueAt first (data.changes g) v = data.localOf y := by
  rw [heq] at hsorted
  rw [changes, heq, List.map_append, List.map_cons, valueAt_append _ _ _ hy,
    valueAt_map_of_lt hrest]
  intro c hc
  obtain ⟨x, hx, rfl⟩ := List.mem_map.mp hc
  exact ((List.pairwise_append.mp hsorted).2.2 x hx y List.mem_cons_self).le.trans hy

theorem localtimeAt_eq_valueAt
    (hindex : ∀ x ∈ data.transitions, x.localtimeIdx < data.localtimes.length)
    (hsorted : data.transitions.Pairwise fun x y ↦ x.key g < y.key g)
    {pre rest : List Transition} {y : Transition} {v : ℤ}
    (heq : data.transitions = pre ++ y :: rest) (hy : y.key g ≤ v)
    (hrest : ∀ x ∈ rest, v < x.key g) :
    data.localtimeAt y = some (valueAt first (data.changes g) v) := by
  have hmem : y ∈ data.transitions := heq ▸ List.mem_append_right _ List.mem_cons_self
  rw [localtimeAt_eq hindex hmem, valueAt_changes hsorted heq hy hrest]

theorem getElem?_of_eq_append {xs pre rest : List Transition} {x : Transition}
    (h : xs = pre ++ x :: rest) : xs[pre.length]? = some x := by
  rw [h, List.getElem?_append_right le_rfl, Nat.sub_self, List.getElem?_cons_zero]

theorem findLocaltime_eq (hfirst : data.localtimes.head? = some first)
    (hindex : ∀ x ∈ data.transitions, x.localtimeIdx < data.localtimes.length)
    (hsorted : data.transitions.Pairwise fun x y ↦ x.key g < y.key g) (sentry : Transition) :
    data.findLocaltime sentry g = some (valueAt first (data.changes g) (sentry.key g)) := by
  cases hxs : data.transitions with
  | nil =>
      rw [findLocaltime, hxs, changes, hxs, hfirst]
      rfl
  | cons front tail =>
      rw [findLocaltime, hxs]
      simp only
      rw [← hxs]
      by_cases hbefore : sentry.key g < front.key g
      · rw [if_pos hbefore, hfirst, changes, hxs, List.map_cons, valueAt, if_pos hbefore]
      obtain ⟨pre, rest, heq, hlen, hless, hhead⟩ :=
        exists_lowerBound (fun x ↦ x.key g < sentry.key g) data.transitions
      simp only [decide_eq_true_eq] at hless
      have hlast : ∀ y ∈ pre, y.key g ≤ sentry.key g := fun y hy ↦ (hless y hy).le
      rw [if_neg hbefore, hlen]
      cases rest with
      | nil =>
          rw [List.append_nil] at heq
          obtain hnil | ⟨init, y, rfl⟩ := List.eq_nil_or_concat' pre
          · exact absurd (hxs.symm.trans (heq.trans hnil)) (List.cons_ne_nil front tail)
          rw [heq, List.getElem?_eq_none le_rfl]
          simp only
          rw [List.getLast?_concat, Option.bind_some]
          exact localtimeAt_eq_valueAt hindex hsorted heq (hlast y (by simp)) (by simp)
      | cons x rest =>
          have hkey : sentry.key g ≤ x.key g := by simpa using hhead x
          have hrest : ∀ z ∈ rest, x.key g < z.key g :=
            (List.pairwise_cons.mp (List.pairwise_append.mp (heq ▸ hsorted)).2.1).1
          rw [getElem?_of_eq_append heq]
          simp only
          by_cases hequal : sentry.key g = x.key g
          · rw [if_pos hequal]
            exact localtimeAt_eq_valueAt hindex hsorted heq hequal.ge fun z hz ↦
              hequal ▸ hrest z hz
          -- the element before is the last one that is less
          have hlt := lt_of_le_of_ne hkey hequal
          rw [if_neg hequal]
          obtain rfl | ⟨init, y, rfl⟩ := List.eq_nil_or_concat' pre
          · rw [hxs] at heq
            exact absurd ((List.cons.inj heq).1 ▸ hlt) hbefore
          have heq' : data.transitions = init ++ y :: x :: rest := by
            rw [heq, List.append_assoc]
            rfl
          rw [List.length_append, List.length_singleton, if_neg (Nat.succ_ne_zero _),
            Nat.add_sub_cancel, getElem?_of_eq_append heq', Option.bind_some]
          refine localtimeAt_eq_valueAt hindex hsorted heq' (hlast y (by simp)) fun z hz ↦ ?_
          rcases List.mem_cons.mp hz with rfl | hz
          · exact hlt
          · exact hlt.trans (hrest z hz)

/-! ## There and back -/

/-- Transitions are at least `D` apart and shift the clock by less, and nothing
is out of range. -/
structure Regular (data : TimeZoneData) (first : Localtime) (D : ℤ) : Prop where
  first : data.localtimes.head? = some first
  indexed : ∀ x ∈ data.transitions, x.localtimeIdx < data.localtimes.length
  localtime : ∀ x ∈ data.transitions, x.localtime = x.gmttime + (data.localOf x).gmtOffset
  apart : data.transitions.Pairwise fun x y ↦ x.gmttime + D ≤ y.gmttime
  spread : ∀ a ∈ data.localtimes, ∀ b ∈ data.localtimes, a.gmtOffset - b.gmtOffset < D
  bounded : ∀ a ∈ data.localtimes, -86400 ≤ a.gmtOffset ∧ a.gmtOffset ≤ 86400
  named : ∀ a ∈ data.localtimes, a.arrbIdx ≤ data.abbreviation.length

/-- The local time that is in force. -/
def localAt (data : TimeZoneData) (first : Localtime) (t : ℤ) : Localtime :=
  valueAt first (data.changes true) t

variable {D t : ℤ}

namespace Regular

theorem first_mem (h : data.Regular first D) : first ∈ data.localtimes :=
  List.mem_of_mem_head? h.first

theorem localOf_mem (h : data.Regular first D) {x : Transition} (hx : x ∈ data.transitions) :
    data.localOf x ∈ data.localtimes :=
  List.mem_of_getElem? (localtimeAt_eq h.indexed hx)

theorem spread_localOf (h : data.Regular first D) {x y : Transition} (hx : x ∈ data.transitions)
    (hy : y ∈ data.transitions) :
    (data.localOf x).gmtOffset - (data.localOf y).gmtOffset < D :=
  h.spread _ (h.localOf_mem hx) _ (h.localOf_mem hy)

theorem changes_false (h : data.Regular first D) :
    data.changes false = shifted Localtime.gmtOffset (data.changes true) := by
  rw [changes, shifted, changes, List.map_map]
  exact List.map_congr_left fun x hx ↦ Prod.ext (h.localtime x hx) rfl

theorem isApart (h : data.Regular first D) :
    Apart Localtime.gmtOffset D first (data.changes true) := by
  have hmem : ∀ a ∈ first :: (data.changes true).map Prod.snd, a ∈ data.localtimes := by
    intro a ha
    rcases List.mem_cons.mp ha with rfl | ha
    · exact h.first_mem
    · obtain ⟨c, hc, rfl⟩ := List.mem_map.mp ha
      obtain ⟨x, hx, rfl⟩ := List.mem_map.mp hc
      exact h.localOf_mem hx
  refine ⟨?_, fun a ha b hb ↦ h.spread a (hmem a ha) b (hmem b hb)⟩
  exact List.pairwise_map.mpr h.apart

theorem sorted (h : data.Regular first D) (g : Bool) :
    data.transitions.Pairwise fun x y ↦ x.key g < y.key g := by
  have hpos := h.spread first h.first_mem first h.first_mem
  refine h.apart.imp_of_mem fun {x y} hx hy hle ↦ ?_
  cases g with
  | true =>
      change x.gmttime < y.gmttime
      omega
  | false =>
      have hspread := h.spread_localOf hx hy
      change x.localtime < y.localtime
      rw [h.localtime x hx, h.localtime y hy]
      omega

theorem findLocaltime_gmt (h : data.Regular first D) (t : ℤ) :
    data.findLocaltime ⟨t, 0, 0⟩ true = some (data.localAt first t) :=
  findLocaltime_eq h.first h.indexed (h.sorted true) ⟨t, 0, 0⟩

theorem findLocaltime_local (h : data.Regular first D) (t : ℤ) :
    data.findLocaltime ⟨0, t, 0⟩ false =
      some (valueAt first (shifted Localtime.gmtOffset (data.changes true)) t) := by
  rw [findLocaltime_eq h.first h.indexed (h.sorted false) ⟨0, t, 0⟩, h.changes_false]
  rfl

theorem localAt_mem (h : data.Regular first D) (t : ℤ) :
    data.localAt first t ∈ data.localtimes := by
  rw [localAt]
  rcases valueAt_cases first (data.changes true) t with heq | ⟨c, hc, -, heq⟩
  · rw [heq]
    exact h.first_mem
  · obtain ⟨x, hx, rfl⟩ := List.mem_map.mp hc
    rw [heq]
    exact h.localOf_mem hx

theorem toLocalTime_eq (h : data.Regular first D) {utc : Tm}
    (hutc : toUtcTime (t + (data.localAt first t).gmtOffset) true = some utc) :
    ∃ zone, data.toLocalTime t = some (inZone (data.localAt first t) zone utc) := by
  have hzone := h.named _ (h.localAt_mem t)
  rw [toLocalTime, h.findLocaltime_gmt]
  simp only [Option.bind_eq_bind, Option.bind_some, hutc, zoneAt, if_pos hzone]
  exact ⟨_, rfl⟩

end Regular

/-- Looked up again at the same time, the local time is the same and no hour is
taken off. -/
theorem localSeconds_self {loc : Localtime} {zone : Text} {utc : Tm}
    (htm : data.toLocalTime t = some (inZone loc zone utc)) :
    data.localSeconds (inZone loc zone utc) (t + loc.gmtOffset) loc =
      some (t + loc.gmtOffset) := by
  rw [localSeconds, add_sub_cancel_right, htm, Option.map_some]
  by_cases hdst : (inZone loc zone utc).isdst ≠ 0
  · rw [if_pos hdst, if_neg fun htry ↦ hdst htry.1]
  · rw [if_neg hdst]

/-- Looked up after the transition, an hour is taken off if summer time has
ended. -/
theorem localSeconds_repeated {loc loc' : Localtime} {zone zone' : Text} {utc : Tm} {seconds : ℤ}
    (htm : data.toLocalTime (seconds - loc'.gmtOffset) = some (inZone loc' zone' utc)) :
    data.localSeconds (inZone loc zone utc) seconds loc' =
      some (if loc.isDst = true ∧ loc'.isDst = false then seconds - 3600 else seconds) := by
  rw [localSeconds, htm, Option.map_some]
  cases hdst : loc.isDst <;> cases hdst' : loc'.isDst <;> simp [inZone, hdst, hdst']

/-- After the next transition the clock shows again, or has passed, what it
shows now. -/
def Repeats (data : TimeZoneData) (first : Localtime) (t : ℤ) (next : ℤ × Localtime) : Prop :=
  nextAfter (data.changes true) t = some next ∧
    next.1 + next.2.gmtOffset ≤ t + (data.localAt first t).gmtOffset

theorem Regular.findLocaltime_self (h : data.Regular first D)
    (hno : ¬ ∃ next, data.Repeats first t next) :
    data.findLocaltime ⟨0, t + (data.localAt first t).gmtOffset, 0⟩ false =
      some (data.localAt first t) := by
  rw [h.findLocaltime_local]
  exact congrArg some (h.isApart.valueAt_shifted fun next hnext ↦
    not_le.mp fun hle ↦ hno ⟨next, hnext, hle⟩)

theorem Regular.findLocaltime_repeated (h : data.Regular first D) {next : ℤ × Localtime}
    (hnext : data.Repeats first t next) :
    data.findLocaltime ⟨0, t + (data.localAt first t).gmtOffset, 0⟩ false = some next.2 ∧
      data.localAt first (t + (data.localAt first t).gmtOffset - next.2.gmtOffset) = next.2 := by
  obtain ⟨hshift, hagain⟩ := h.isApart.valueAt_repeated hnext.1 hnext.2
  refine ⟨?_, hagain⟩
  rw [h.findLocaltime_local]
  exact congrArg some hshift

theorem fromLocalTime_eq {tm : Tm} {seconds r : ℤ} {loc : Localtime}
    (hback : fromUtcTime tm = some seconds)
    (hfind : data.findLocaltime ⟨0, seconds, 0⟩ false = some loc)
    (hlocal : data.localSeconds tm seconds loc = some r) :
    data.fromLocalTime tm = some (r - loc.gmtOffset) := by
  simp only [fromLocalTime, hback, hfind, hlocal, Option.bind_eq_bind, Option.bind_some,
    Option.pure_def]

/-- A time is shown as local time with the offset in force, and leads back to
itself, unless the clock will show it again: then it does if and only if summer
time ends and the clock goes back by an hour. -/
theorem localTime_roundTrip_iff (h : data.Regular first D) (ht : -2 ^ 37 ≤ t ∧ t < 2 ^ 45) :
    ∃ tm c r, data.toLocalTime t = some tm ∧ tm.Shows c ∧
      sinceEpoch c = t + (data.localAt first t).gmtOffset ∧ data.fromLocalTime tm = some r ∧
      (r = t ↔ ∀ next, data.Repeats first t next →
        (data.localAt first t).isDst = true ∧ next.2.isDst = false ∧
          (data.localAt first t).gmtOffset = next.2.gmtOffset + 3600) := by
  have hbound := h.bounded _ (h.localAt_mem t)
  obtain ⟨c, utc, hutc, hshows, hspan, hseconds⟩ :=
    exists_shows (t := t + (data.localAt first t).gmtOffset) (by omega) (by omega)
  obtain ⟨zone, htm⟩ := h.toLocalTime_eq hutc
  have hshows' : (inZone (data.localAt first t) zone utc).Shows c :=
    ⟨hshows.sec, hshows.min, hshows.hour, hshows.mday, hshows.mon, hshows.year⟩
  have hback := fromUtcTime_of_shows hspan hshows'
  rw [← hseconds] at hback
  by_cases hrepeats : ∃ next, data.Repeats first t next
  · obtain ⟨next, hnext⟩ := hrepeats
    obtain ⟨hfind, hagain⟩ := h.findLocaltime_repeated hnext
    obtain ⟨zone', htm'⟩ := h.toLocalTime_eq (t := t + (data.localAt first t).gmtOffset -
      next.2.gmtOffset) (by rw [hagain, sub_add_cancel]; exact hutc)
    rw [hagain] at htm'
    refine ⟨_, c, _, htm, hshows', hseconds.symm,
      fromLocalTime_eq hback hfind (localSeconds_repeated htm'), ?_⟩
    have hunique : ∀ next', data.Repeats first t next' → next' = next := fun next' hnext' ↦
      Option.some.inj (hnext'.1.symm.trans hnext.1)
    have hlt := (lt_of_nextAfter hnext.1).2
    have hle := hnext.2
    constructor
    · rintro hr next' hnext'
      obtain rfl := hunique next' hnext'
      by_cases hdst : (data.localAt first t).isDst = true ∧ next'.2.isDst = false
      · rw [if_pos hdst] at hr
        exact ⟨hdst.1, hdst.2, by omega⟩
      · rw [if_neg hdst] at hr
        omega
    · intro hall
      obtain ⟨hdst, hdst', hoff⟩ := hall next hnext
      rw [if_pos ⟨hdst, hdst'⟩]
      omega
  · refine ⟨_, c, _, htm, hshows', hseconds.symm,
      fromLocalTime_eq hback (h.findLocaltime_self hrepeats) (localSeconds_self htm), ?_⟩
    rw [add_sub_cancel_right]
    exact iff_of_true rfl fun next hnext ↦ absurd ⟨next, hnext⟩ hrepeats

/-! ## An example -/

/-- Summer time from March to October. -/
def exampleZone : TimeZoneData where
  transitions := [⟨6393600, 6400800, 1⟩, ⟨25747200, 25750800, 0⟩]
  localtimes := [⟨3600, false, 0⟩, ⟨7200, true, 4⟩]
  abbreviation := ascii "CET" ++ [0] ++ ascii "CEST" ++ [0]

theorem exampleZone_regular : exampleZone.Regular ⟨3600, false, 0⟩ 86400 := by
  constructor <;> decide

/-- In the last second of summer, whose hour the clock shows twice. -/
theorem localTime_roundTrip_exampleZone :
    ∃ tm next, exampleZone.toLocalTime 25747199 = some tm ∧
      exampleZone.Repeats ⟨3600, false, 0⟩ 25747199 next ∧
      exampleZone.fromLocalTime tm = some 25747199 := by
  have hnext : nextAfter (exampleZone.changes true) 25747199 =
      some (25747200, ⟨3600, false, 0⟩) := by decide
  have hlocal : exampleZone.localAt ⟨3600, false, 0⟩ 25747199 = ⟨7200, true, 4⟩ := by decide
  obtain ⟨tm, c, r, htm, -, -, hback, hr⟩ :=
    localTime_roundTrip_iff exampleZone_regular (t := 25747199) (by norm_num)
  have hsame : r = 25747199 := by
    refine hr.mpr fun next hrepeats ↦ ?_
    obtain rfl := Option.some.inj (hnext.symm.trans hrepeats.1)
    rw [hlocal]
    exact ⟨rfl, rfl, rfl⟩
  refine ⟨tm, (25747200, ⟨3600, false, 0⟩), htm, ⟨hnext, ?_⟩, hsame ▸ hback⟩
  rw [hlocal]
  norm_num

end TimeZoneData

end PpDSCache.Base
