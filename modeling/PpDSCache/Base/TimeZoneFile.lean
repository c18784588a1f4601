import PpDSCache.Base.LocalTime
import PpDSCache.Cpp.Fields

/-!
# Time zone files

What is read from a file before an exception stays in the zone, and
`readTimeZoneFile` returns true all the same.
-/

namespace PpDSCache.Base

open Cpp

/-- The numbers of things in the file. -/
structure ZoneCounts where
  isgmtcnt : ℤ
  isstdcnt : ℤ
  leapcnt : ℤ
  timecnt : ℤ
  typecnt : ℤ
  charcnt : ℤ

namespace TimeZoneData

def empty : TimeZoneData := ⟨[], [], []⟩

def readHead (f : Text) : Option Text :=
  (readBytes 4 f).bind fun p ↦ if p.1 = ascii "TZif" then some p.2 else none

def readCounts (f : Text) : Option (ZoneCounts × Text) := do
  let (isgmtcnt, f) ← readInt32 f
  let (isstdcnt, f) ← readInt32 f
  let (leapcnt, f) ← readInt32 f
  let (timecnt, f) ← readInt32 f
  let (typecnt, f) ← readInt32 f
  let (charcnt, f) ← readInt32 f
  return (⟨isgmtcnt, isstdcnt, leapcnt, timecnt, typecnt, charcnt⟩, f)

/-- The head, the version, the bytes that are skipped, and the counts. -/
def readHeader (f : Text) : Option (ZoneCounts × Text) := do
  let f ← readHead f
  let (_, f) ← readBytes 1 f
  let (_, f) ← readBytes 15 f
  readCounts f

def readLocaltime (f : Text) : Option (Localtime × Text) := do
  let (gmtoff, f) ← readInt32 f
  let (isdst, f) ← readUInt8 f
  let (abbrind, f) ← readUInt8 f
  return (⟨gmtoff, isdst ≠ 0, abbrind⟩, f)

/-- An index outside `localtimes` has no result. -/
def toTransitions (localtimes : List Localtime) (trans : List ℤ) (idx : List ℕ) :
    Option (List Transition) :=
  (trans.zip idx).mapM fun p ↦ (localtimes[p.2]?).map fun loc ↦ ⟨p.1, p.1 + loc.gmtOffset, p.2⟩

/-- The transitions and the abbreviation, for which an array of negative length
has no result. -/
def readRest (counts : ZoneCounts) (trans : List ℤ) (idx : List ℕ) (localtimes : List Localtime)
    (f : Text) : Option TimeZoneData :=
  (toTransitions localtimes trans idx).bind fun transitions ↦
    if counts.charcnt < 0 then none
    else some ⟨transitions, localtimes, ((readBytes counts.charcnt.toNat f).map Prod.fst).getD []⟩

/-- The tables.  `reserve` throws for a negative number. -/
def readTables (counts : ZoneCounts) (f : Text) : Option TimeZoneData :=
  if counts.timecnt < 0 then some empty
  else
    match readMany readInt32 counts.timecnt.toNat f with
    | (_, none) => some empty
    | (times, some f) =>
        match readMany readUInt8 counts.timecnt.toNat f with
        | (_, none) => some empty
        | (idx, some f) =>
            match readMany readLocaltime counts.typecnt.toNat f with
            | (localtimes, none) => some { empty with localtimes }
            | (localtimes, some f) => readRest counts times idx localtimes f

/-- With the file's bytes, if it can be opened.  The result is true even where
it cannot. -/
def readTimeZoneFile (file : Option Text) : Option (Bool × TimeZoneData) :=
  match file with
  | none => some (true, empty)
  | some f =>
      match readHeader f with
      | none => some (true, empty)
      | some (counts, f) => (readTables counts f).map fun data ↦ (true, data)

/-! ## The format -/

/-- What a file has besides the zone. -/
structure ZonePreamble where
  version : UInt8
  reserved : Text
  isgmtcnt : ℤ
  isstdcnt : ℤ
  leapcnt : ℤ

def headerText (pre : ZonePreamble) (data : TimeZoneData) : Text :=
  ascii "TZif" ++ ([pre.version] ++ (pre.reserved ++ (encodeInt 4 pre.isgmtcnt ++
    (encodeInt 4 pre.isstdcnt ++ (encodeInt 4 pre.leapcnt ++
      (encodeInt 4 data.transitions.length ++ (encodeInt 4 data.localtimes.length ++
        encodeInt 4 data.abbreviation.length)))))))

def localtimeText (loc : Localtime) : Text :=
  encodeInt 4 loc.gmtOffset ++ ([UInt8.ofNat (if loc.isDst = true then 1 else 0)] ++
    [UInt8.ofNat loc.arrbIdx])

def timesText (data : TimeZoneData) : Text :=
  ((data.transitions.map Transition.gmttime).map (encodeInt 4)).flatten

def indicesText (data : TimeZoneData) : Text :=
  ((data.transitions.map Transition.localtimeIdx).map fun i ↦ [UInt8.ofNat i]).flatten

def fileText (pre : ZonePreamble) (data : TimeZoneData) : Text :=
  headerText pre data ++ (timesText data ++ (indicesText data ++
    ((data.localtimes.map localtimeText).flatten ++ data.abbreviation)))

def ZonePreamble.Fits (pre : ZonePreamble) : Prop :=
  pre.reserved.length = 15 ∧ InRange 4 pre.isgmtcnt ∧ InRange 4 pre.isstdcnt ∧
    InRange 4 pre.leapcnt

/-- The zone can be written in the format. -/
structure Fits (data : TimeZoneData) : Prop where
  timecnt : data.transitions.length < 2 ^ 31
  typecnt : data.localtimes.length < 2 ^ 31
  charcnt : data.abbreviation.length < 2 ^ 31
  transition : ∀ x ∈ data.transitions, InRange 4 x.gmttime ∧ x.localtimeIdx < 256 ∧
    x.localtimeIdx < data.localtimes.length ∧
    x.localtime = x.gmttime + (data.localOf x).gmtOffset
  localtime : ∀ loc ∈ data.localtimes, InRange 4 loc.gmtOffset ∧ loc.arrbIdx < 256

variable {pre : ZonePreamble} {data : TimeZoneData}

/-- The counts in the header. -/
def countsOf (pre : ZonePreamble) (data : TimeZoneData) : ZoneCounts :=
  ⟨pre.isgmtcnt, pre.isstdcnt, pre.leapcnt, data.transitions.length, data.localtimes.length,
    data.abbreviation.length⟩

theorem inRange_count {n : ℕ} (h : n < 2 ^ 31) : InRange 4 n := by
  constructor
  · norm_num
  · norm_num
    omega

theorem readHeader_text (hpre : pre.Fits) (hdata : data.Fits) (rest : Text) :
    readHeader (headerText pre data ++ rest) = some (countsOf pre data, rest) := by
  obtain ⟨hreserved, hgmt, hstd, hleap⟩ := hpre
  have hhead : ∀ rest, readBytes 4 (ascii "TZif" ++ rest) = some (ascii "TZif", rest) :=
    readBytes_append rfl
  have hversion : ∀ rest, readBytes 1 ([pre.version] ++ rest) = some ([pre.version], rest) :=
    readBytes_append rfl
  have hskip : ∀ rest, readBytes 15 (pre.reserved ++ rest) = some (pre.reserved, rest) :=
    readBytes_append hreserved
  simp only [headerText, List.append_assoc, readHeader, readHead, hhead, Option.bind_some,
    if_true, Option.bind_eq_bind, hversion, hskip, readCounts, readInt32_encodeInt hgmt,
    readInt32_encodeInt hstd, readInt32_encodeInt hleap,
    readInt32_encodeInt (inRange_count hdata.timecnt),
    readInt32_encodeInt (inRange_count hdata.typecnt),
    readInt32_encodeInt (inRange_count hdata.charcnt), Option.pure_def]
  rfl

theorem takes_readHeader : Takes 44 readHeader := by
  intro f counts rest h
  simp only [readHeader, readHead, readCounts, Option.bind_eq_bind, Option.bind_eq_some_iff,
    Option.pure_def, Option.some.injEq, Prod.exists] at h
  obtain ⟨f₁, ⟨head, f₂, h₁, h₂⟩, version, f₃, h₃, skipped, f₄, h₄, a, f₅, h₅, b, f₆, h₆, c, f₇, h₇,
    d, f₈, h₈, e, f₉, h₉, g, f₁₀, h₁₀, heq⟩ := h
  split_ifs at h₂ with hhead
  obtain rfl := Option.some.inj h₂
  obtain ⟨-, rfl⟩ := Prod.mk.inj heq
  have := takes_readBytes _ _ _ _ h₁
  have := takes_readBytes _ _ _ _ h₃
  have := takes_readBytes _ _ _ _ h₄
  have := takes_readInt32 _ _ _ h₅
  have := takes_readInt32 _ _ _ h₆
  have := takes_readInt32 _ _ _ h₇
  have := takes_readInt32 _ _ _ h₈
  have := takes_readInt32 _ _ _ h₉
  have := takes_readInt32 _ _ _ h₁₀
  omega

theorem readLocaltime_text {loc : Localtime} (h : InRange 4 loc.gmtOffset ∧ loc.arrbIdx < 256)
    (rest : Text) : readLocaltime (localtimeText loc ++ rest) = some (loc, rest) := by
  have hdst : (if loc.isDst = true then 1 else 0) < 256 := by split_ifs <;> norm_num
  simp only [localtimeText, List.append_assoc, readLocaltime, readInt32_encodeInt h.1,
    Option.bind_eq_bind, Option.bind_some, readUInt8_ofNat hdst, readUInt8_ofNat h.2,
    Option.pure_def]
  cases hcase : loc.isDst <;> simp [← hcase]

theorem takes_readLocaltime : Takes 6 readLocaltime := by
  intro f loc rest h
  simp only [readLocaltime, Option.bind_eq_bind, Option.bind_eq_some_iff, Option.pure_def,
    Option.some.injEq, Prod.exists] at h
  obtain ⟨a, f₁, h₁, b, f₂, h₂, c, f₃, h₃, heq⟩ := h
  obtain ⟨-, rfl⟩ := Prod.mk.inj heq
  have := takes_readInt32 _ _ _ h₁
  have := takes_readUInt8 _ _ _ h₂
  have := takes_readUInt8 _ _ _ h₃
  omega

/-! ## Reading what was written -/

theorem mapM_map_eq_some {α β : Type} {f : α → Option β} {g : β → α} {xs : List β}
    (h : ∀ x ∈ xs, f (g x) = some x) : (xs.map g).mapM f = some xs := by
  induction xs with
  | nil => rfl
  | cons x xs ih =>
      rw [List.map_cons, List.mapM_cons, h x List.mem_cons_self,
        ih fun y hy ↦ h y (List.mem_cons_of_mem x hy)]
      rfl

theorem toTransitions_eq (h : data.Fits) :
    toTransitions data.localtimes (data.transitions.map Transition.gmttime)
      (data.transitions.map Transition.localtimeIdx) = some data.transitions := by
  rw [toTransitions, List.zip_map']
  refine mapM_map_eq_some fun x hx ↦ ?_
  obtain ⟨-, -, hindex, hlocal⟩ := h.transition x hx
  have hget : data.localtimes[x.localtimeIdx]? = some (data.localOf x) := by
    rw [localOf, localtimeAt, List.getElem?_eq_getElem hindex, Option.getD_some]
  rw [hget, Option.map_some, ← hlocal]

theorem readMany_times (h : data.Fits) (rest : Text) :
    readMany readInt32 data.transitions.length (timesText data ++ rest) =
      (data.transitions.map Transition.gmttime, some rest) := by
  rw [← List.length_map (f := Transition.gmttime), timesText]
  refine readMany_append (fun v hv rest ↦ ?_) rest
  obtain ⟨x, hx, rfl⟩ := List.mem_map.mp hv
  exact readInt32_encodeInt (h.transition x hx).1 rest

theorem readMany_indices (h : data.Fits) (rest : Text) :
    readMany readUInt8 data.transitions.length (indicesText data ++ rest) =
      (data.transitions.map Transition.localtimeIdx, some rest) := by
  rw [← List.length_map (f := Transition.localtimeIdx), indicesText]
  refine readMany_append (fun i hi rest ↦ ?_) rest
  obtain ⟨x, hx, rfl⟩ := List.mem_map.mp hi
  exact readUInt8_ofNat (h.transition x hx).2.1 rest

theorem readMany_localtimes (h : data.Fits) (rest : Text) :
    readMany readLocaltime data.localtimes.length
      ((data.localtimes.map localtimeText).flatten ++ rest) = (data.localtimes, some rest) :=
  readMany_append (fun loc hloc ↦ readLocaltime_text (h.localtime loc hloc)) rest

theorem readMany_times_take (h : data.Fits) {n : ℕ} (hn : n < (timesText data).length) :
    ∃ xs, readMany readInt32 data.transitions.length ((timesText data).take n) = (xs, none) := by
  rw [← List.length_map (f := Transition.gmttime)]
  refine ⟨_, readMany_take (fun v hv ↦ ?_) takes_readInt32 (by norm_num) (length_encodeInt 4) hn⟩
  obtain ⟨x, hx, rfl⟩ := List.mem_map.mp hv
  exact readInt32_encodeInt (h.transition x hx).1

theorem readMany_indices_take (h : data.Fits) {n : ℕ} (hn : n < (indicesText data).length) :
    ∃ xs, readMany readUInt8 data.transitions.length ((indicesText data).take n) = (xs, none) := by
  rw [← List.length_map (f := Transition.localtimeIdx)]
  refine ⟨_, readMany_take (fun i hi ↦ ?_) takes_readUInt8 (by norm_num) (fun _ ↦ rfl) hn⟩
  obtain ⟨x, hx, rfl⟩ := List.mem_map.mp hi
  exact readUInt8_ofNat (h.transition x hx).2.1

theorem readMany_localtimes_take (h : data.Fits) {n : ℕ}
    (hn : n < (data.localtimes.map localtimeText).flatten.length) :
    readMany readLocaltime data.localtimes.length
        ((data.localtimes.map localtimeText).flatten.take n) =
      (data.localtimes.take (n / 6), none) :=
  readMany_take (fun loc hloc ↦ readLocaltime_text (h.localtime loc hloc)) takes_readLocaltime
    (by norm_num) (fun _ ↦ rfl) hn

theorem timecnt_nonneg : ¬ (countsOf pre data).timecnt < 0 :=
  not_lt.mpr (Int.natCast_nonneg data.transitions.length)

theorem timecnt_toNat : (countsOf pre data).timecnt.toNat = data.transitions.length :=
  Int.toNat_natCast _

theorem typecnt_toNat : (countsOf pre data).typecnt.toNat = data.localtimes.length :=
  Int.toNat_natCast _

theorem readTables_times {f : Text} {xs : List ℤ}
    (h : readMany readInt32 data.transitions.length f = (xs, none)) :
    readTables (countsOf pre data) f = some empty := by
  rw [readTables, if_neg timecnt_nonneg]
  simp only [timecnt_toNat, h]

theorem readTables_indices (hdata : data.Fits) {f : Text} {xs : List ℕ}
    (h : readMany readUInt8 data.transitions.length f = (xs, none)) :
    readTables (countsOf pre data) (timesText data ++ f) = some empty := by
  rw [readTables, if_neg timecnt_nonneg]
  simp only [timecnt_toNat, readMany_times hdata, h]

theorem readTables_localtimes (hdata : data.Fits) {f : Text} {xs : List Localtime}
    (h : readMany readLocaltime data.localtimes.length f = (xs, none)) :
    readTables (countsOf pre data) (timesText data ++ (indicesText data ++ f)) =
      some { empty with localtimes := xs } := by
  rw [readTables, if_neg timecnt_nonneg]
  simp only [timecnt_toNat, typecnt_toNat, readMany_times hdata, readMany_indices hdata, h]

theorem readRest_eq (hdata : data.Fits) (f : Text) :
    readRest (countsOf pre data) (data.transitions.map Transition.gmttime)
        (data.transitions.map Transition.localtimeIdx) data.localtimes f =
      some { data with
        abbreviation := ((readBytes data.abbreviation.length f).map Prod.fst).getD [] } := by
  have hpos : ¬ (countsOf pre data).charcnt < 0 :=
    not_lt.mpr (Int.natCast_nonneg data.abbreviation.length)
  rw [readRest, toTransitions_eq hdata, Option.bind_some, if_neg hpos]
  rfl

theorem readTables_abbreviation (hdata : data.Fits) (f : Text) :
    readTables (countsOf pre data) (timesText data ++ (indicesText data ++
        ((data.localtimes.map localtimeText).flatten ++ f))) =
      some { data with
        abbreviation := ((readBytes data.abbreviation.length f).map Prod.fst).getD [] } := by
  rw [readTables, if_neg timecnt_nonneg]
  simp only [timecnt_toNat, typecnt_toNat, readMany_times hdata, readMany_indices hdata,
    readMany_localtimes hdata, readRest_eq hdata]

theorem readTimeZoneFile_of_header (hpre : pre.Fits) (hdata : data.Fits) {f : Text}
    {d : TimeZoneData} (h : readTables (countsOf pre data) f = some d) :
    readTimeZoneFile (some (headerText pre data ++ f)) = some (true, d) := by
  simp only [readTimeZoneFile, readHeader_text hpre hdata, h, Option.map_some]

/-- A zone is read from its file as it was written, whatever follows. -/
theorem readTimeZoneFile_roundTrip (hpre : pre.Fits) (hdata : data.Fits) (rest : Text) :
    readTimeZoneFile (some (fileText pre data ++ rest)) = some (true, data) := by
  have hbytes : readBytes data.abbreviation.length (data.abbreviation ++ rest) =
      some (data.abbreviation, rest) := readBytes_append rfl rest
  simp only [fileText, List.append_assoc]
  rw [readTimeZoneFile_of_header hpre hdata (readTables_abbreviation hdata _), hbytes]
  rfl

theorem length_headerText (hpre : pre.Fits) : (headerText pre data).length = 44 := by
  have hhead : (ascii "TZif").length = 4 := rfl
  simp only [headerText, List.length_append, hhead, List.length_singleton, hpre.1, length_encodeInt]

theorem length_timesText : (timesText data).length = 4 * data.transitions.length := by
  simp [timesText, List.length_flatten, Function.comp_def, mul_comm]

theorem length_indicesText : (indicesText data).length = data.transitions.length := by
  simp [indicesText, List.length_flatten, Function.comp_def]

theorem length_localtimesText :
    (data.localtimes.map localtimeText).flatten.length = 6 * data.localtimes.length := by
  have hsix : ∀ loc, (localtimeText loc).length = 6 := fun _ ↦ rfl
  simp [List.length_flatten, Function.comp_def, hsix, mul_comm]

theorem toLocalTime_of_localtimes_eq_nil {d : TimeZoneData} (htrans : d.transitions = [])
    (hlocal : d.localtimes = []) (t : ℤ) : d.toLocalTime t = none := by
  rw [toLocalTime, findLocaltime, htrans, hlocal]
  rfl

/-! ## Files that are cut off -/

/-- Where the kinds of local time begin in the file. -/
def localtimesAt (data : TimeZoneData) : ℕ := 44 + 5 * data.transitions.length

/-- What the first `n` bytes of the file have of the zone. -/
def cutAt (n : ℕ) (data : TimeZoneData) : TimeZoneData where
  transitions :=
    if n < data.localtimesAt + 6 * data.localtimes.length then [] else data.transitions
  localtimes := data.localtimes.take ((n - data.localtimesAt) / 6)
  abbreviation := []

theorem cutAt_of_lt {n : ℕ} (h : n < data.localtimesAt) : data.cutAt n = empty := by
  have hlt : n < data.localtimesAt + 6 * data.localtimes.length := by omega
  rw [cutAt, if_pos hlt, Nat.sub_eq_zero_of_le h.le]
  rfl

theorem cutAt_add {n : ℕ} (h : n < 6 * data.localtimes.length) :
    data.cutAt (data.localtimesAt + n) =
      { empty with localtimes := data.localtimes.take (n / 6) } := by
  rw [cutAt, if_pos (by omega), Nat.add_sub_cancel_left]
  rfl

theorem cutAt_add_add (n : ℕ) :
    data.cutAt (data.localtimesAt + (6 * data.localtimes.length + n)) =
      { data with abbreviation := [] } := by
  have hle : data.localtimes.length ≤ (6 * data.localtimes.length + n) / 6 := by omega
  rw [cutAt, if_neg (by omega), Nat.add_sub_cancel_left, List.take_of_length_le hle]

theorem readTimeZoneFile_take (hpre : pre.Fits) (hdata : data.Fits) {n : ℕ}
    (hn : n < (fileText pre data).length) :
    readTimeZoneFile (some ((fileText pre data).take n)) = some (true, data.cutAt n) := by
  rw [fileText] at hn ⊢
  rcases take_append_cases hn with ⟨hlt, hcut⟩ | ⟨n₁, hn₁, rfl, hcut⟩
  · rw [length_headerText hpre] at hlt
    have hnone : readHeader ((headerText pre data).take n) = none :=
      takes_readHeader.eq_none (by rw [List.length_take]; omega)
    have hbefore : n < data.localtimesAt := by
      rw [localtimesAt]
      omega
    rw [hcut, readTimeZoneFile, cutAt_of_lt hbefore]
    simp only [hnone]
  rw [hcut]
  refine readTimeZoneFile_of_header hpre hdata ?_
  rw [length_headerText hpre]
  rcases take_append_cases hn₁ with ⟨hlt, hcut₁⟩ | ⟨n₂, hn₂, rfl, hcut₁⟩
  · obtain ⟨xs, hxs⟩ := readMany_times_take hdata hlt
    rw [length_timesText] at hlt
    have hbefore : 44 + n₁ < data.localtimesAt := by
      rw [localtimesAt]
      omega
    rw [hcut₁, readTables_times hxs, cutAt_of_lt hbefore]
  rw [hcut₁, length_timesText]
  rcases take_append_cases hn₂ with ⟨hlt, hcut₂⟩ | ⟨n₃, hn₃, rfl, hcut₂⟩
  · obtain ⟨xs, hxs⟩ := readMany_indices_take hdata hlt
    rw [length_indicesText] at hlt
    have hbefore : 44 + (4 * data.transitions.length + n₂) < data.localtimesAt := by
      rw [localtimesAt]
      omega
    rw [hcut₂, readTables_indices hdata hxs, cutAt_of_lt hbefore]
  -- from here on the cut is behind the indices
  have hplace : 44 + (4 * data.transitions.length + ((indicesText data).length + n₃)) =
      data.localtimesAt + n₃ := by
    rw [localtimesAt, length_indicesText]
    omega
  rw [hcut₂, hplace]
  rcases take_append_cases hn₃ with ⟨hlt, hcut₃⟩ | ⟨n₄, hn₄, rfl, hcut₃⟩
  · rw [hcut₃, readTables_localtimes hdata (readMany_localtimes_take hdata hlt),
      cutAt_add (length_localtimesText ▸ hlt)]
  · have hnone : readBytes data.abbreviation.length (data.abbreviation.take n₄) = none :=
      (takes_readBytes _).eq_none (by rw [List.length_take]; omega)
    rw [hcut₃, readTables_abbreviation hdata, hnone, length_localtimesText, cutAt_add_add]
    rfl

/-- A file that is cut off at any place makes a zone all the same.  It has no
abbreviation, the kinds of local time that end before the cut, and the
transitions if these are all kinds.  Cut off before the first kind it has none, and
cannot show any time. -/
theorem readTimeZoneFile_cut (hpre : pre.Fits) (hdata : data.Fits) {n : ℕ}
    (hn : n < (fileText pre data).length) :
    ∃ d, readTimeZoneFile (some ((fileText pre data).take n)) = some (true, d) ∧
      d.abbreviation = [] ∧
      d.localtimes = data.localtimes.take ((n - (44 + 5 * data.transitions.length)) / 6) ∧
      (n < 44 + 5 * data.transitions.length + 6 * data.localtimes.length ∧ d.transitions = [] ∨
        44 + 5 * data.transitions.length + 6 * data.localtimes.length ≤ n ∧
          d.transitions = data.transitions ∧ d.localtimes = data.localtimes) ∧
      (n < 44 + 5 * data.transitions.length →
        d.localtimes = [] ∧ ∀ t, d.toLocalTime t = none) := by
  refine ⟨_, readTimeZoneFile_take hpre hdata hn, rfl, rfl, ?_, fun hbefore ↦ ?_⟩
  · rcases lt_or_ge n (data.localtimesAt + 6 * data.localtimes.length) with hlt | hge
    · exact .inl ⟨hlt, if_pos hlt⟩
    · refine .inr ⟨hge, if_neg (not_lt.mpr hge), List.take_of_length_le ?_⟩
      omega
  · rw [cutAt_of_lt hbefore]
    exact ⟨rfl, toLocalTime_of_localtimes_eq_nil rfl rfl⟩

/-! ## An example -/

def examplePreamble : ZonePreamble := ⟨50, List.replicate 15 0, 0, 0, 0⟩

theorem examplePreamble_fits : examplePreamble.Fits := by
  refine ⟨rfl, ?_, ?_, ?_⟩ <;> decide

theorem exampleZone_fits : exampleZone.Fits := by
  constructor <;> decide

theorem readTimeZoneFile_roundTrip_exampleZone :
    readTimeZoneFile (some (fileText examplePreamble exampleZone ++ ascii "more")) =
      some (true, exampleZone) :=
  readTimeZoneFile_roundTrip examplePreamble_fits exampleZone_fits (ascii "more")

/-- Cut off within the second kind of local time, and within the indices. -/
theorem readTimeZoneFile_cut_exampleZone :
    (∃ d, readTimeZoneFile (some ((fileText examplePreamble exampleZone).take 62)) =
        some (true, d) ∧
      d.abbreviation = [] ∧ d.localtimes = [⟨3600, false, 0⟩] ∧ d.transitions = []) ∧
    ∃ d, readTimeZoneFile (some ((fileText examplePreamble exampleZone).take 53)) =
        some (true, d) ∧
      d.localtimes = [] ∧ ∀ t, d.toLocalTime t = none := by
  constructor
  · obtain ⟨d, hread, habbreviation, hlocal, htrans, -⟩ :=
      readTimeZoneFile_cut (n := 62) examplePreamble_fits exampleZone_fits (by decide)
    rcases htrans with ⟨-, htrans⟩ | ⟨hbehind, -⟩
    · exact ⟨d, hread, habbreviation, hlocal, htrans⟩
    · exact absurd hbehind (by decide)
  · obtain ⟨d, hread, -, -, -, hnone⟩ :=
      readTimeZoneFile_cut (n := 53) examplePreamble_fits exampleZone_fits (by decide)
    exact ⟨d, hread, hnone (by decide)⟩

end TimeZoneData

end PpDSCache.Base
