import PpDSCache.Abstract.Runs
import PpDSCache.Base.UtcTime
import PpDSCache.Cpp.Text

/-!
# Log files

A log file is replaced by a new one when it is too long, and, looked at every
so many lines, when a day has passed.  How much a write accepts and what the
clock shows come from outside; the clock may go back.
-/

namespace PpDSCache.Base

open Cpp Abstract

/-- `FileUtil::AppendFile`, which `fopen` opens at the end of what the name has. -/
structure AppendFile where
  filename : Text
  writtenBytes : ℕ
  deriving DecidableEq

namespace AppendFile

/-- The loop of `append`, in which the call of `write` with the number `k`
accepts at most `accepts k` bytes.  It ends at a call that accepts none. -/
def writeLoop (accepts : ℕ → ℕ) : ℕ → ℕ → Text → Text
  | 0, _, _ => []
  | n + 1, k, rest =>
      if rest.take (accepts k) = [] then []
      else rest.take (accepts k) ++ writeLoop accepts n (k + 1) (rest.drop (accepts k))

/-- What `append` writes: the first call of `write`, and the loop. -/
def written (accepts : ℕ → ℕ) (logline : Text) : Text :=
  logline.take (accepts 0) ++ writeLoop accepts logline.length 1 (logline.drop (accepts 0))

end AppendFile

/-- What the constructor is given, with the host's name and the process. -/
structure LogSettings where
  basename : Text
  hostname : Text
  pid : ℕ
  rollSize : ℤ
  flushInterval : ℤ
  checkEveryN : ℤ

structure LogFile where
  count : ℤ
  startOfPeriod : ℤ
  lastRoll : ℤ
  lastFlush : ℤ
  file : Option AppendFile
  /-- what each file has -/
  disk : Text → Text
  /-- what the clock showed last, and the lines appended since -/
  clock : ℤ
  unseen : ℕ

inductive LogFileAct where
  /-- what the clock shows in `append_unlocked` and in `rollFile` -/
  | append (logline : Text) (accepts : ℕ → ℕ) (now rollNow : ℤ)
  | flush
  | rollFile (now : ℤ)

namespace LogFile

def kRollPerSeconds : ℤ := 60 * 60 * 24

def period (now : ℤ) : ℤ := now.tdiv kRollPerSeconds * kRollPerSeconds

/-- Two digits. -/
def twoDigits (n : ℤ) : Text :=
  [UInt8.ofNat (48 + (n / 10).toNat), UInt8.ofNat (48 + (n % 10).toNat)]

/-- `strftime` with the format `.%Y%m%d-%H%M%S.` -/
def timebuf (tm : Tm) : Text :=
  ascii "." ++ decimalText (tm.year + 1900).toNat ++
    (twoDigits (tm.mon + 1) ++ twoDigits tm.mday ++ ascii "-" ++ twoDigits tm.hour ++
      twoDigits tm.min ++ twoDigits tm.sec ++ ascii ".")

variable (p : LogSettings)

/-- `gmtime_r` takes the time apart as `TimeZone::toUtcTime` does. -/
def getLogFileName (now : ℤ) : Option Text := do
  let tm ← toUtcTime now true
  return p.basename ++ timebuf tm ++ p.hostname ++
    (ascii "." ++ decimalText p.pid) ++ ascii ".log"

def rollFile (now : ℤ) (s : LogFile) : Option LogFile :=
  (getLogFileName p now).map fun filename ↦
    if s.lastRoll < now then
      { s with
        lastRoll := now
        lastFlush := now
        startOfPeriod := period now
        file := some ⟨filename, 0⟩
        clock := now
        unseen := 0 }
    else { s with clock := now, unseen := 0 }

/-- The constructor. -/
def new (disk : Text → Text) (now : ℤ) : Option LogFile :=
  rollFile p now ⟨0, 0, 0, 0, none, disk, 0, 0⟩

/-- `file_->append` -/
def write (f : AppendFile) (accepts : ℕ → ℕ) (logline : Text) (s : LogFile) : LogFile :=
  { s with
    file := some { f with writtenBytes := f.writtenBytes + logline.length }
    disk := Function.update s.disk f.filename
      (s.disk f.filename ++ AppendFile.written accepts logline)
    unseen := s.unseen + 1 }

/-- Every `checkEveryN_` lines. -/
def check (now rollNow : ℤ) (s : LogFile) : Option LogFile :=
  if period now ≠ s.startOfPeriod then rollFile p rollNow { s with count := 0 }
  else if p.flushInterval < now - s.lastFlush then
    some { s with count := 0, lastFlush := now, clock := now, unseen := 0 }
  else some { s with count := 0, clock := now, unseen := 0 }

/-- `append_unlocked`, for which a null `file_` has no result. -/
def append (logline : Text) (accepts : ℕ → ℕ) (now rollNow : ℤ) (s : LogFile) : Option LogFile :=
  s.file.bind fun f ↦
    if p.rollSize < (f.writtenBytes + logline.length : ℕ) then
      rollFile p rollNow (s.write f accepts logline)
    else if p.checkEveryN ≤ s.count + 1 then check p now rollNow (s.write f accepts logline)
    else some { s.write f accepts logline with count := s.count + 1 }

def exec (a : LogFileAct) (s : LogFile) : Option LogFile :=
  match a with
  | .append logline accepts now rollNow => append p logline accepts now rollNow s
  | .flush => s.file.map fun _ ↦ s
  | .rollFile now => rollFile p now s

/-- The clock shows a time from 1970 on whose year does not overflow. -/
def Shown (now : ℤ) : Prop := 0 ≤ now ∧ now < 46172011392000

/-- The clock shows such times, and `fwrite` makes progress. -/
def Enabled (a : LogFileAct) : Prop :=
  match a with
  | .append _ accepts now rollNow => Shown now ∧ Shown rollNow ∧ ∀ k, 0 < accepts k
  | .flush => True
  | .rollFile now => Shown now

def lineOf : LogFileAct → List Text
  | .append logline _ _ _ => [logline]
  | .flush | .rollFile _ => []

variable {p}

/-! ## Names -/

theorem twoDigits_injective {m n : ℤ} (hm : 0 ≤ m ∧ m < 100) (hn : 0 ≤ n ∧ n < 100)
    (h : twoDigits m = twoDigits n) : m = n := by
  have hbyte : ∀ k : ℕ, k < 10 → (UInt8.ofNat (48 + k)).toNat = 48 + k := fun k hk ↦ by
    rw [UInt8.toNat_ofNat', Nat.mod_eq_of_lt (by omega)]
  simp only [twoDigits, List.cons.injEq, and_true, ← UInt8.toNat_inj] at h
  rw [hbyte _ (by omega), hbyte _ (by omega), hbyte _ (by omega), hbyte _ (by omega)] at h
  omega

/-- The time in a name, of which the year may be longer, leads back to the clock. -/
theorem shows_of_timebuf {c d : ClockTime} {tm tm' : Tm} (h : tm.Shows c) (h' : tm'.Shows d)
    (hc : 0 ≤ c.day.year) (hd : 0 ≤ d.day.year) (heq : timebuf tm = timebuf tm') :
    tm'.Shows c := by
  have hlen : ∀ n, (twoDigits n).length = 2 := fun _ ↦ rfl
  obtain ⟨hyear, hrest⟩ := List.append_inj' heq (by simp only [List.length_append, hlen])
  have hyear' := decimalText_injective (List.append_cancel_left hyear)
  simp only [List.append_assoc] at hrest
  obtain ⟨hmon, hrest⟩ := List.append_inj hrest rfl
  obtain ⟨hmday, hrest⟩ := List.append_inj hrest rfl
  obtain ⟨hhour, hrest⟩ := List.append_inj (List.append_cancel_left hrest) rfl
  obtain ⟨hmin, hrest⟩ := List.append_inj hrest rfl
  have hsec := List.append_cancel_right hrest
  have hc₁ := c.day.month_mem
  have hc₂ := c.day.day_mem.1
  have hc₃ := c.day.day_le
  have hd₁ := d.day.month_mem
  have hd₂ := d.day.day_mem.1
  have hd₃ := d.day.day_le
  have hh := c.hour_mem
  have hh' := d.hour_mem
  have hm := c.minute_mem
  have hm' := d.minute_mem
  have hs := c.second_mem
  have hs' := d.second_mem
  rw [h.mon, h'.mon] at hmon
  rw [h.mday, h'.mday] at hmday
  rw [h.hour, h'.hour] at hhour
  rw [h.min, h'.min] at hmin
  rw [h.sec, h'.sec] at hsec
  rw [h.year, h'.year] at hyear'
  constructor
  · rw [h'.sec, twoDigits_injective (by omega) (by omega) hsec]
  · rw [h'.min, twoDigits_injective (by omega) (by omega) hmin]
  · rw [h'.hour, twoDigits_injective (by omega) (by omega) hhour]
  · rw [h'.mday, twoDigits_injective (by omega) (by omega) hmday]
  · rw [h'.mon, twoDigits_injective (by omega) (by omega) hmon]
  · rw [h'.year]
    omega

/-- What `gmtime_r` gives. -/
theorem Shown.toUtcTime {now : ℤ} (h : Shown now) :
    ∃ c tm, Base.toUtcTime now true = some tm ∧ tm.Shows c ∧ InSpan c ∧ now = sinceEpoch c ∧
      0 ≤ c.day.year := by
  obtain ⟨hlo, hhi⟩ := h
  obtain ⟨c, tm, htm, hshows, hspan, rfl⟩ := exists_shows (t := now) (by omega) hhi
  refine ⟨c, tm, htm, hshows, hspan, rfl, ?_⟩
  by_contra hyear
  have hbefore : c.day.Before ⟨0, 1, 1, by decide, by decide⟩ := .inl (not_le.mp hyear)
  have hlt : c.day.number < 1753104 := hbefore.number_lt
  have hdiv := sinceEpoch_div c
  omega

theorem exists_getLogFileName {now : ℤ} (h : Shown now) :
    ∃ filename, getLogFileName p now = some filename := by
  obtain ⟨c, tm, htm, -⟩ := h.toUtcTime
  exact ⟨_, by rw [getLogFileName, htm]; rfl⟩

/-- Files that are opened at different times have different names. -/
theorem getLogFileName_injective {now now' : ℤ} (h : Shown now) (h' : Shown now') {filename : Text}
    (heq : getLogFileName p now = some filename) (heq' : getLogFileName p now' = some filename) :
    now = now' := by
  obtain ⟨c, tm, htm, hshows, hspan, rfl, hyear⟩ := h.toUtcTime
  obtain ⟨d, tm', htm', hshows', hspan', rfl, hyear'⟩ := h'.toUtcTime
  have hname := heq.trans heq'.symm
  rw [getLogFileName, getLogFileName, htm, htm'] at hname
  simp only [Option.pure_def, Option.bind_eq_bind, Option.bind_some, Option.some.injEq,
    List.append_cancel_right_eq, List.append_cancel_left_eq] at hname
  have hback := fromUtcTime_of_shows hspan (shows_of_timebuf hshows hshows' hyear hyear' hname)
  exact Option.some.inj (hback.symm.trans (fromUtcTime_of_shows hspan' hshows'))

/-! ## When a file is replaced -/

variable {s t : LogFile} {now rollNow : ℤ}

/-- A look at the clock opens a file or leaves the one there is. -/
theorem exists_rollFile (h : Shown now) (s : LogFile) :
    ∃ filename, getLogFileName p now = some filename ∧
      (s.lastRoll < now ∧ rollFile p now s = some { s with
          lastRoll := now
          lastFlush := now
          startOfPeriod := period now
          file := some ⟨filename, 0⟩
          clock := now
          unseen := 0 } ∨
        now ≤ s.lastRoll ∧ rollFile p now s = some { s with clock := now, unseen := 0 }) := by
  obtain ⟨filename, hname⟩ := exists_getLogFileName (p := p) h
  refine ⟨filename, hname, ?_⟩
  rw [rollFile, hname, Option.map_some]
  rcases lt_or_ge s.lastRoll now with hlt | hge
  · exact .inl ⟨hlt, by rw [if_pos hlt]⟩
  · exact .inr ⟨hge, by rw [if_neg (not_lt.mpr hge)]⟩

/-- What holds between two looks at the clock. -/
structure Counted (p : LogSettings) (s : LogFile) : Prop where
  isOpen : ∃ f, s.file = some f
  startOfPeriod : s.startOfPeriod = period s.lastRoll
  lastFlush : s.lastRoll ≤ s.lastFlush
  count : 0 ≤ s.count ∧ s.count < p.checkEveryN

/-- What the last look at the clock has left: the file is short enough and of
that day, or the clock has not passed the time in its name. -/
structure Watched (p : LogSettings) (s : LogFile) : Prop extends Counted p s where
  size : ∀ f, s.file = some f → f.writtenBytes ≤ p.rollSize ∨ s.clock ≤ s.lastRoll
  day : period s.clock = s.startOfPeriod ∨ s.clock ≤ s.lastRoll
  flushed : s.clock - s.lastFlush ≤ p.flushInterval
  unseen : (s.unseen : ℤ) ≤ s.count

/-- The values with which the limits make sense. -/
structure LogSettings.Sound (p : LogSettings) : Prop where
  rollSize : 0 ≤ p.rollSize
  flushInterval : 0 ≤ p.flushInterval
  checkEveryN : 1 ≤ p.checkEveryN

theorem Counted.rollFile (hp : LogSettings.Sound p) (h : Counted p s) (hnow : Shown now) :
    ∃ t, rollFile p now s = some t ∧ Watched p t := by
  obtain ⟨filename, -, ⟨hlt, ht⟩ | ⟨hge, ht⟩⟩ := exists_rollFile (p := p) hnow s
  · refine ⟨_, ht, ⟨⟨_, rfl⟩, rfl, le_rfl, h.count⟩, ?_, .inl rfl, ?_, ?_⟩
    · rintro f ⟨⟩
      exact .inl hp.rollSize
    · rw [sub_self]
      exact hp.flushInterval
    · exact h.count.1
  · refine ⟨_, ht, ⟨h.isOpen, h.startOfPeriod, h.lastFlush, h.count⟩, fun _ _ ↦ .inr hge, .inr hge,
      ?_, h.count.1⟩
    have hflush := h.lastFlush
    have hinterval := hp.flushInterval
    simp only
    omega

theorem Counted.write (h : Counted p s) (f : AppendFile) (accepts : ℕ → ℕ) (logline : Text) :
    Counted p (s.write f accepts logline) :=
  ⟨⟨_, rfl⟩, h.startOfPeriod, h.lastFlush, h.count⟩

theorem Counted.check (hp : LogSettings.Sound p) (h : Counted p s)
    (hsize : ∀ f, s.file = some f → f.writtenBytes ≤ p.rollSize) (hroll : Shown rollNow) :
    ∃ t, check p now rollNow s = some t ∧ Watched p t := by
  have hzero : (0 : ℤ) ≤ 0 ∧ 0 < p.checkEveryN := ⟨le_rfl, hp.checkEveryN⟩
  have hflush := h.lastFlush
  have hinterval := hp.flushInterval
  rw [LogFile.check]
  by_cases hday : period now ≠ s.startOfPeriod
  · have hcounted : Counted p { s with count := 0 } :=
      ⟨h.isOpen, h.startOfPeriod, h.lastFlush, hzero⟩
    rw [if_pos hday]
    exact hcounted.rollFile hp hroll
  · rw [if_neg hday]
    by_cases hlate : p.flushInterval < now - s.lastFlush
    · rw [if_pos hlate]
      refine ⟨_, rfl, ⟨h.isOpen, h.startOfPeriod, ?_, hzero⟩, fun f hf ↦ .inl (hsize f hf),
        .inl (not_not.mp hday), ?_, le_rfl⟩
      · simp only
        omega
      · rw [sub_self]
        exact hinterval
    · rw [if_neg hlate]
      exact ⟨_, rfl, ⟨h.isOpen, h.startOfPeriod, h.lastFlush, hzero⟩, fun f hf ↦ .inl (hsize f hf),
        .inl (not_not.mp hday), not_lt.mp hlate, le_rfl⟩

theorem Watched.append (hp : LogSettings.Sound p) (h : Watched p s) {accepts : ℕ → ℕ}
    (hroll : Shown rollNow) (logline : Text) :
    ∃ t, append p logline accepts now rollNow s = some t ∧ Watched p t := by
  obtain ⟨f, hf⟩ := h.isOpen
  have hwrite := h.toCounted.write f accepts logline
  rw [LogFile.append, hf, Option.bind_some]
  by_cases hlong : p.rollSize < (f.writtenBytes + logline.length : ℕ)
  · rw [if_pos hlong]
    exact hwrite.rollFile hp hroll
  · have hsize : ∀ f', (s.write f accepts logline).file = some f' →
        f'.writtenBytes ≤ p.rollSize := by
      rintro f' ⟨⟩
      exact not_lt.mp hlong
    rw [if_neg hlong]
    by_cases hcheck : p.checkEveryN ≤ s.count + 1
    · rw [if_pos hcheck]
      exact hwrite.check hp hsize hroll
    · have hcount := h.count
      have hunseen := h.unseen
      rw [if_neg hcheck]
      refine ⟨_, rfl, ⟨⟨_, rfl⟩, h.startOfPeriod, h.lastFlush, ?_⟩,
        fun f' hf' ↦ .inl (hsize f' hf'), h.day, h.flushed, ?_⟩
      · simp only
        omega
      · simp only [LogFile.write, Nat.cast_add, Nat.cast_one]
        omega

theorem Watched.exec (hp : LogSettings.Sound p) {a : LogFileAct} (h : Watched p s)
    (ha : Enabled a) : ∃ t, exec p a s = some t ∧ Watched p t := by
  cases a with
  | append logline accepts now rollNow => exact h.append hp ha.2.1 logline
  | flush =>
      obtain ⟨f, hf⟩ := h.isOpen
      exact ⟨s, by rw [LogFile.exec, hf, Option.map_some], h⟩
  | rollFile now => exact h.toCounted.rollFile hp ha

theorem exists_new (h : Shown now) (hpos : 0 < now) (disk : Text → Text) :
    ∃ filename, getLogFileName p now = some filename ∧
      new p disk now = some ⟨0, period now, now, now, some ⟨filename, 0⟩, disk, now, 0⟩ := by
  obtain ⟨filename, hname, ⟨-, ht⟩ | ⟨hle, -⟩⟩ :=
    exists_rollFile (p := p) h ⟨0, 0, 0, 0, none, disk, 0, 0⟩
  · exact ⟨filename, hname, ht⟩
  · exact absurd hpos (not_lt.mpr hle)

/-- After every run there is an open file.  As of the last look at the clock,
which is less than `checkEveryN_` lines ago, it is no longer than `rollSize_`
and of the same day, unless the clock has not passed the second in which it was
opened; and it has been flushed in time. -/
theorem logFile_rolls (hp : LogSettings.Sound p) (hnow : Shown now) (hpos : 0 < now)
    (disk : Text → Text) {acts : List LogFileAct} (hacts : ∀ a ∈ acts, Enabled a) :
    ∃ s t f, new p disk now = some s ∧ runAll (exec p) acts s = some t ∧ t.file = some f ∧
      t.unseen < p.checkEveryN ∧ (f.writtenBytes ≤ p.rollSize ∨ t.clock ≤ t.lastRoll) ∧
      (period t.clock = period t.lastRoll ∨ t.clock ≤ t.lastRoll) ∧
      t.clock - t.lastFlush ≤ p.flushInterval := by
  obtain ⟨filename, -, hnew⟩ := exists_new (p := p) hnow hpos disk
  have hstart : Watched p ⟨0, period now, now, now, some ⟨filename, 0⟩, disk, now, 0⟩ := by
    refine ⟨⟨⟨_, rfl⟩, rfl, le_rfl, le_rfl, hp.checkEveryN⟩, ?_, .inl rfl, ?_, le_rfl⟩
    · rintro f ⟨⟩
      exact .inl hp.rollSize
    · simpa using hp.flushInterval
  obtain ⟨t, ht, hwatched⟩ := exists_runAll (fun a s h ha ↦ h.exec hp ha) hstart
    (eachStep_of_forall hacts)
  obtain ⟨f, hf⟩ := hwatched.isOpen
  refine ⟨_, t, f, hnew, ht, hf, ?_, hwatched.size f hf, ?_, hwatched.flushed⟩
  · exact hwatched.unseen.trans_lt hwatched.count.2
  · rw [← hwatched.startOfPeriod]
    exact hwatched.day

/-! ## Every line is in one file -/

theorem writeLoop_eq {accepts : ℕ → ℕ} (h : ∀ k, 0 < accepts k) {n : ℕ} {rest : Text}
    (hlen : rest.length ≤ n) (k : ℕ) : AppendFile.writeLoop accepts n k rest = rest := by
  induction n generalizing k rest with
  | zero => exact (List.eq_nil_of_length_eq_zero (Nat.le_zero.mp hlen)).symm
  | succ n ih =>
      have hpos := h k
      rw [AppendFile.writeLoop]
      by_cases hnil : rest.take (accepts k) = []
      · rw [if_pos hnil]
        rcases List.take_eq_nil_iff.mp hnil with hzero | hrest
        · omega
        · exact hrest.symm
      · rw [if_neg hnil, ih (by rw [List.length_drop]; omega), List.take_append_drop]

theorem written_eq {accepts : ℕ → ℕ} (h : ∀ k, 0 < accepts k) (logline : Text) :
    AppendFile.written accepts logline = logline := by
  rw [AppendFile.written, writeLoop_eq h (by rw [List.length_drop]; omega), List.take_append_drop]

/-- A file that was opened, with the time in its name and the lines appended. -/
structure Opened where
  now : ℤ
  filename : Text
  lines : List Text

/-- The files `older` and `last` were opened one after another, and have what
was appended to them. -/
structure Laid (p : LogSettings) (disk : Text → Text) (older : List Opened) (last : Opened)
    (s : LogFile) : Prop where
  file : ∃ n, s.file = some ⟨last.filename, n⟩
  lastRoll : s.lastRoll = last.now
  named : ∀ f ∈ older ++ [last], Shown f.now ∧ getLogFileName p f.now = some f.filename
  sorted : (older ++ [last]).Pairwise fun f g ↦ f.now < g.now
  kept : ∀ f ∈ older ++ [last], s.disk f.filename = disk f.filename ++ f.lines.flatten
  others : ∀ name, (∀ f ∈ older ++ [last], f.filename ≠ name) → s.disk name = disk name

variable {disk : Text → Text} {older : List Opened} {last : Opened}

theorem Laid.nodup (h : Laid p disk older last s) :
    ((older ++ [last]).map Opened.filename).Nodup := by
  refine List.pairwise_map.mpr (h.sorted.imp_of_mem fun {f g} hf hg hlt heq ↦ ?_)
  obtain ⟨hshown, hname⟩ := h.named f hf
  obtain ⟨hshown', hname'⟩ := h.named g hg
  exact hlt.ne (getLogFileName_injective hshown hshown' hname (heq ▸ hname'))

/-- What neither opens a file nor writes to one. -/
theorem Laid.of_eq (h : Laid p disk older last s) (hfile : t.file = s.file)
    (hroll : t.lastRoll = s.lastRoll) (hdisk : t.disk = s.disk) : Laid p disk older last t :=
  ⟨hfile ▸ h.file, hroll ▸ h.lastRoll, h.named, h.sorted, hdisk ▸ h.kept, hdisk ▸ h.others⟩

theorem forall_mem_concat {P : Opened → Prop} {files : List Opened} {f : Opened} :
    (∀ g ∈ files ++ [f], P g) ↔ (∀ g ∈ files, P g) ∧ P f := by
  rw [List.forall_mem_append, List.forall_mem_singleton]

theorem pairwise_concat {R : Opened → Opened → Prop} {files : List Opened} {f : Opened} :
    (files ++ [f]).Pairwise R ↔ files.Pairwise R ∧ ∀ g ∈ files, R g f := by
  simp [List.pairwise_append]

/-- A new file has a name that was not there. -/
theorem Laid.open (h : Laid p disk older last s) (hnow : Shown now) (hlt : s.lastRoll < now)
    {filename : Text} (hname : getLogFileName p now = some filename)
    (hfile : t.file = some ⟨filename, 0⟩) (hroll : t.lastRoll = now) (hdisk : t.disk = s.disk) :
    Laid p disk (older ++ [last]) ⟨now, filename, []⟩ t := by
  have hlast : last.now < now := h.lastRoll ▸ hlt
  have hearlier : ∀ f ∈ older ++ [last], f.now < now :=
    forall_mem_concat.mpr ⟨fun f hf ↦ ((pairwise_concat.mp h.sorted).2 f hf).trans hlast, hlast⟩
  have hfresh : ∀ f ∈ older ++ [last], f.filename ≠ filename := by
    rintro f hf rfl
    have hnamed := h.named f hf
    exact (hearlier f hf).ne (getLogFileName_injective hnamed.1 hnow hnamed.2 hname)
  refine ⟨⟨0, hfile⟩, hroll, forall_mem_concat.mpr ⟨h.named, hnow, hname⟩,
    pairwise_concat.mpr ⟨h.sorted, hearlier⟩, ?_, ?_⟩
  · rw [hdisk]
    refine forall_mem_concat.mpr ⟨h.kept, ?_⟩
    simpa using h.others filename hfresh
  · rw [hdisk]
    exact fun name hother ↦ h.others name (forall_mem_concat.mp hother).1

theorem Laid.write (h : Laid p disk older last s) {accepts : ℕ → ℕ} (hpos : ∀ k, 0 < accepts k)
    {n : ℕ} (logline : Text) : Laid p disk older
      { last with lines := last.lines ++ [logline] }
      (s.write ⟨last.filename, n⟩ accepts logline) := by
  obtain ⟨hkept, hlast⟩ := forall_mem_concat.mp h.kept
  obtain ⟨hnamed, hnamedLast⟩ := forall_mem_concat.mp h.named
  obtain ⟨hsorted, hsortedLast⟩ := pairwise_concat.mp h.sorted
  have hnodup := h.nodup
  rw [List.map_append, List.nodup_append] at hnodup
  refine ⟨⟨_, rfl⟩, h.lastRoll, forall_mem_concat.mpr ⟨hnamed, hnamedLast⟩,
    pairwise_concat.mpr ⟨hsorted, hsortedLast⟩, ?_, ?_⟩
  · simp only [LogFile.write, written_eq hpos]
    refine forall_mem_concat.mpr ⟨fun f hf ↦ ?_, ?_⟩
    · have hne : f.filename ≠ last.filename :=
        hnodup.2.2 _ (List.mem_map_of_mem hf) _ (List.mem_singleton_self _)
      rw [Function.update_of_ne hne, hkept f hf]
    · rw [Function.update_self, hlast]
      simp
  · intro name hother
    obtain ⟨holder, hne⟩ := forall_mem_concat.mp hother
    simp only [LogFile.write]
    rw [Function.update_of_ne hne.symm]
    exact h.others name (forall_mem_concat.mpr ⟨holder, hne⟩)

/-- The lines of all files, in the order of the files. -/
def HasLines (p : LogSettings) (disk : Text → Text) (lines : List Text) (s : LogFile) : Prop :=
  ∃ older last, Laid p disk older last s ∧ ((older ++ [last]).map Opened.lines).flatten = lines

variable {lines : List Text}

theorem HasLines.of_eq (h : HasLines p disk lines s) (hfile : t.file = s.file)
    (hroll : t.lastRoll = s.lastRoll) (hdisk : t.disk = s.disk) : HasLines p disk lines t := by
  obtain ⟨older, last, hlaid, hlines⟩ := h
  exact ⟨older, last, hlaid.of_eq hfile hroll hdisk, hlines⟩

theorem HasLines.rollFile (h : HasLines p disk lines s) (hnow : Shown now) :
    ∃ t, rollFile p now s = some t ∧ HasLines p disk lines t := by
  obtain ⟨filename, hname, ⟨hlt, ht⟩ | ⟨-, ht⟩⟩ := exists_rollFile (p := p) hnow s
  · obtain ⟨older, last, hlaid, hlines⟩ := h
    refine ⟨_, ht, older ++ [last], ⟨now, filename, []⟩, ?_, ?_⟩
    · exact hlaid.open hnow hlt hname rfl rfl rfl
    · rw [List.map_append, List.flatten_append, hlines]
      simp
  · exact ⟨_, ht, h.of_eq rfl rfl rfl⟩

theorem HasLines.check (h : HasLines p disk lines s) (hroll : Shown rollNow) :
    ∃ t, check p now rollNow s = some t ∧ HasLines p disk lines t := by
  have hzero : HasLines p disk lines { s with count := 0 } := h.of_eq rfl rfl rfl
  rw [LogFile.check]
  split_ifs
  · exact hzero.rollFile hroll
  · exact ⟨_, rfl, h.of_eq rfl rfl rfl⟩
  · exact ⟨_, rfl, h.of_eq rfl rfl rfl⟩

theorem HasLines.append (h : HasLines p disk lines s) {accepts : ℕ → ℕ}
    (hpos : ∀ k, 0 < accepts k) (hroll : Shown rollNow) (logline : Text) :
    ∃ t, append p logline accepts now rollNow s = some t ∧
      HasLines p disk (lines ++ [logline]) t := by
  obtain ⟨older, last, hlaid, hlines⟩ := h
  obtain ⟨n, hfile⟩ := hlaid.file
  have hwrite : HasLines p disk (lines ++ [logline])
      (s.write ⟨last.filename, n⟩ accepts logline) := by
    refine ⟨older, _, hlaid.write hpos logline, ?_⟩
    rw [← hlines]
    simp
  rw [LogFile.append, hfile, Option.bind_some]
  split_ifs
  · exact hwrite.rollFile hroll
  · exact hwrite.check hroll
  · exact ⟨_, rfl, hwrite.of_eq rfl rfl rfl⟩

theorem HasLines.exec {a : LogFileAct} (h : HasLines p disk lines s) (ha : Enabled a) :
    ∃ t, exec p a s = some t ∧ HasLines p disk (lines ++ lineOf a) t := by
  cases a with
  | append logline accepts now rollNow => exact h.append ha.2.2 ha.2.1 logline
  | flush =>
      rw [lineOf, List.append_nil]
      obtain ⟨older, last, hlaid, hlines⟩ := h
      obtain ⟨n, hfile⟩ := hlaid.file
      exact ⟨s, by rw [LogFile.exec, hfile, Option.map_some], older, last, hlaid, hlines⟩
  | rollFile now =>
      rw [lineOf, List.append_nil]
      exact h.rollFile ha

theorem HasLines.runAll {acts : List LogFileAct} (h : HasLines p disk lines s)
    (hacts : ∀ a ∈ acts, Enabled a) : ∃ t, runAll (LogFile.exec p) acts s = some t ∧
      HasLines p disk (lines ++ (acts.map lineOf).flatten) t := by
  induction acts generalizing s lines with
  | nil => exact ⟨s, rfl, by simpa using h⟩
  | cons a acts ih =>
      obtain ⟨r, hr, hlines⟩ := h.exec (hacts a List.mem_cons_self)
      obtain ⟨t, ht, hlines'⟩ := ih hlines fun b hb ↦ hacts b (List.mem_cons_of_mem a hb)
      refine ⟨t, runAll_cons_iff.mpr ⟨r, hr, ht⟩, ?_⟩
      rw [List.map_cons, List.flatten_cons, ← List.append_assoc]
      exact hlines'

/-- After every run each line is whole in one of the files, which have names of
their own and were opened one after another, and the lines are in order.  Files
with other names are as they were. -/
theorem logFile_keeps_lines (p : LogSettings) (hnow : Shown now) (hpos : 0 < now)
    (disk : Text → Text) {acts : List LogFileAct} (hacts : ∀ a ∈ acts, Enabled a) :
    ∃ s t, ∃ files : List Opened, new p disk now = some s ∧ runAll (exec p) acts s = some t ∧
      (files.map Opened.lines).flatten = (acts.map lineOf).flatten ∧
      (files.map Opened.filename).Nodup ∧ files.Pairwise (fun f g ↦ f.now < g.now) ∧
      (∀ f ∈ files, getLogFileName p f.now = some f.filename ∧
        t.disk f.filename = disk f.filename ++ f.lines.flatten) ∧
      ∀ name, (∀ f ∈ files, f.filename ≠ name) → t.disk name = disk name := by
  obtain ⟨filename, hname, hnew⟩ := exists_new (p := p) hnow hpos disk
  have hstart : Laid p disk [] ⟨now, filename, []⟩
      ⟨0, period now, now, now, some ⟨filename, 0⟩, disk, now, 0⟩ := by
    refine ⟨⟨0, rfl⟩, rfl, ?_, List.pairwise_singleton _ _, ?_, fun _ _ ↦ rfl⟩
    · intro f hf
      obtain rfl := List.mem_singleton.mp hf
      exact ⟨hnow, hname⟩
    · intro f hf
      obtain rfl := List.mem_singleton.mp hf
      simp
  have hlines : HasLines p disk [] ⟨0, period now, now, now, some ⟨filename, 0⟩, disk, now, 0⟩ :=
    ⟨[], _, hstart, rfl⟩
  obtain ⟨t, ht, older, last, hlaid, hflat⟩ := hlines.runAll hacts
  exact ⟨_, t, older ++ [last], hnew, ht, hflat, hlaid.nodup, hlaid.sorted,
    fun f hf ↦ ⟨(hlaid.named f hf).2, hlaid.kept f hf⟩, hlaid.others⟩

/-! ## An example -/

def exampleSettings : LogSettings where
  basename := ascii "log"
  hostname := ascii "host"
  pid := 7
  rollSize := 3
  flushInterval := 3
  checkEveryN := 2

/-- The second line makes the file too long in the second in which it was
opened, and the third one later. -/
def exampleActs : List LogFileAct :=
  [.append (ascii "ab") (fun _ ↦ 1) 86400 86400, .append (ascii "cd") (fun _ ↦ 1) 86400 86400,
    .append (ascii "e") (fun _ ↦ 1) 86400 86401, .flush, .rollFile 86000]

theorem enabled_exampleActs : ∀ a ∈ exampleActs, Enabled a := by
  simp [exampleActs, Enabled, Shown]

theorem logFile_rolls_exampleActs :
    ∃ s t f, new exampleSettings (fun _ ↦ []) 86400 = some s ∧
      runAll (exec exampleSettings) exampleActs s = some t ∧ t.file = some f ∧
      t.unseen < exampleSettings.checkEveryN ∧
      (f.writtenBytes ≤ exampleSettings.rollSize ∨ t.clock ≤ t.lastRoll) ∧
      (period t.clock = period t.lastRoll ∨ t.clock ≤ t.lastRoll) ∧
      t.clock - t.lastFlush ≤ exampleSettings.flushInterval :=
  logFile_rolls ⟨by decide, by decide, by decide⟩ (by simp [Shown]) (by norm_num) _
    enabled_exampleActs

theorem logFile_keeps_lines_exampleActs :
    ∃ s t, ∃ files : List Opened, new exampleSettings (fun _ ↦ []) 86400 = some s ∧
      runAll (exec exampleSettings) exampleActs s = some t ∧
      (files.map Opened.lines).flatten = (exampleActs.map lineOf).flatten ∧
      (files.map Opened.filename).Nodup ∧ files.Pairwise (fun f g ↦ f.now < g.now) ∧
      (∀ f ∈ files, getLogFileName exampleSettings f.now = some f.filename ∧
        t.disk f.filename = [] ++ f.lines.flatten) ∧
      ∀ name, (∀ f ∈ files, f.filename ≠ name) → t.disk name = [] :=
  logFile_keeps_lines exampleSettings (by simp [Shown]) (by norm_num) _ enabled_exampleActs

end LogFile

end PpDSCache.Base
