import PpDSCache.Abstract.Runs

/-!
# Accepting connections

When the process has no descriptor left, `handleRead` gives up the one it
keeps for this case, accepts the connection with it, closes it and opens the
spare one again.  Each system call is a step, between which other threads open
and close descriptors.
-/

namespace PpDSCache.Net

open Abstract

/-- What `handleRead` does next. -/
inductive AcceptorPlace where
  | ready
  | closing
  | accepting
  | closingAgain
  | opening
  deriving DecidableEq

structure Acceptor where
  /-- the number of descriptors that the process may have -/
  limit : ℕ
  place : AcceptorPlace
  /-- the descriptors that the kernel has open for the process -/
  opened : List ℕ
  /-- the descriptor of `idleFd_`, or none after a failed call -/
  idleFd : Option ℕ
  /-- the connection that was accepted to be closed -/
  taken : Option ℕ
  /-- the descriptors that the rest of the program has to close -/
  others : List ℕ
  /-- the connections that wait to be accepted -/
  backlog : List ℕ
  /-- the connections accepted, with the descriptor passed to the callback -/
  outcomes : List (ℕ × Option ℕ)
  deriving DecidableEq

inductive AcceptorAct where
  | connect (c : ℕ)
  | accept (fd : ℕ)
  | closeIdle
  | acceptIdle (fd : ℕ)
  | closeAccepted
  | openIdle (fd : ℕ)
  | otherOpen (fd : ℕ)
  | otherClose (fd : ℕ)

namespace Acceptor

def new (limit : ℕ) (idleFd : ℕ) (others : List ℕ) : Acceptor :=
  ⟨limit, .ready, idleFd :: others, some idleFd, none, others, [], []⟩

/-- The descriptors that somebody is still going to close. -/
def held (s : Acceptor) : List ℕ := s.idleFd.toList ++ s.others

def HasRoom (s : Acceptor) : Prop := s.opened.length < s.limit

instance (s : Acceptor) : Decidable s.HasRoom := inferInstanceAs (Decidable (_ < _))

/-- `close`, which fails for the result of a failed call. -/
def close (fd : Option ℕ) (opened : List ℕ) : List ℕ := fd.elim opened opened.erase

/-- `accept` fails with `EMFILE` if there is no room, and with `EAGAIN` if there
is no connection. -/
def accept (fd : ℕ) (s : Acceptor) : Acceptor :=
  if s.HasRoom then
    match s.backlog with
    | [] => s
    | c :: cs =>
        { s with
          opened := fd :: s.opened
          others := fd :: s.others
          backlog := cs
          outcomes := s.outcomes ++ [(c, some fd)] }
  else { s with place := .closing }

def closeIdle (s : Acceptor) : Acceptor :=
  { s with place := .accepting, opened := close s.idleFd s.opened, idleFd := none }

def acceptIdle (fd : ℕ) (s : Acceptor) : Acceptor :=
  if s.HasRoom then
    match s.backlog with
    | [] => { s with place := .closingAgain, idleFd := none }
    | c :: cs =>
        { s with
          place := .closingAgain
          opened := fd :: s.opened
          idleFd := some fd
          taken := some c
          backlog := cs }
  else { s with place := .closingAgain, idleFd := none }

def closeAccepted (s : Acceptor) : Acceptor :=
  { s with
    place := .opening
    opened := close s.idleFd s.opened
    idleFd := none
    taken := none
    outcomes := s.outcomes ++ s.taken.toList.map fun c ↦ (c, none) }

def openIdle (fd : ℕ) (s : Acceptor) : Acceptor :=
  if s.HasRoom then { s with place := .ready, opened := fd :: s.opened, idleFd := some fd }
  else { s with place := .ready, idleFd := none }

def exec (a : AcceptorAct) (s : Acceptor) : Option Acceptor :=
  match a with
  | .connect c => some { s with backlog := s.backlog ++ [c] }
  | .accept fd => if s.place = .ready then some (s.accept fd) else none
  | .closeIdle => if s.place = .closing then some s.closeIdle else none
  | .acceptIdle fd => if s.place = .accepting then some (s.acceptIdle fd) else none
  | .closeAccepted => if s.place = .closingAgain then some s.closeAccepted else none
  | .openIdle fd => if s.place = .opening then some (s.openIdle fd) else none
  | .otherOpen fd =>
      if s.HasRoom then some { s with opened := fd :: s.opened, others := fd :: s.others }
      else none
  | .otherClose fd =>
      if fd ∈ s.others then
        some { s with opened := close (some fd) s.opened, others := s.others.erase fd }
      else none

/-- A new descriptor is not in use. -/
def Fresh (a : AcceptorAct) (s : Acceptor) : Prop :=
  match a with
  | .accept fd | .acceptIdle fd | .openIdle fd | .otherOpen fd => fd ∉ s.opened
  | .connect _ | .closeIdle | .closeAccepted | .otherClose _ => True

instance (a : AcceptorAct) (s : Acceptor) : Decidable (Fresh a s) :=
  match a with
  | .accept fd | .acceptIdle fd | .openIdle fd | .otherOpen fd =>
      inferInstanceAs (Decidable (fd ∉ s.opened))
  | .connect _ | .closeIdle | .closeAccepted | .otherClose _ => isTrue trivial

/-- No descriptor is opened by another thread while the spare one is given up. -/
def Quiet (a : AcceptorAct) (s : Acceptor) : Prop :=
  match a with
  | .otherOpen _ => s.place = .ready ∨ s.place = .closing
  | .connect _ | .accept _ | .closeIdle | .acceptIdle _ | .closeAccepted | .openIdle _
  | .otherClose _ => True

instance (a : AcceptorAct) (s : Acceptor) : Decidable (Quiet a s) :=
  match a with
  | .otherOpen _ => inferInstanceAs (Decidable (s.place = .ready ∨ s.place = .closing))
  | .connect _ | .accept _ | .closeIdle | .acceptIdle _ | .closeAccepted | .openIdle _
  | .otherClose _ => isTrue trivial

/-- The calls of `handleRead` from its beginning to its end. -/
def handleRead (fd fd' : ℕ) (s : Acceptor) : List AcceptorAct :=
  if s.HasRoom then [.accept fd]
  else [.accept fd, .closeIdle, .acceptIdle fd, .closeAccepted, .openIdle fd']

def connectOf : AcceptorAct → List ℕ
  | .connect c => [c]
  | .accept _ | .closeIdle | .acceptIdle _ | .closeAccepted | .openIdle _ | .otherOpen _
  | .otherClose _ => []

/-- What holds in every run. -/
structure Inv (connects : List ℕ) (s : Acceptor) : Prop where
  held : s.opened.Perm s.held
  nodup : s.opened.Nodup
  length_le : s.opened.length ≤ s.limit
  conserved : s.outcomes.map Prod.fst ++ s.taken.toList ++ s.backlog = connects
  taken : s.place ≠ .closingAgain → s.taken = none
  given : s.place = .accepting ∨ s.place = .opening → s.idleFd = none

variable {s t : Acceptor} {connects : List ℕ} {fd : ℕ}

theorem length_open (h : s.HasRoom) (fd : ℕ) : (fd :: s.opened).length ≤ s.limit :=
  Nat.succ_le_of_lt h

theorem sublist_close (fd : Option ℕ) (opened : List ℕ) : (close fd opened).Sublist opened := by
  cases fd with
  | none => exact List.Sublist.refl _
  | some fd => exact List.erase_sublist

theorem perm_close (fd : Option ℕ) {opened others : List ℕ}
    (h : opened.Perm (fd.toList ++ others)) : (close fd opened).Perm others := by
  cases fd with
  | none => exact h
  | some fd =>
      have herase := h.erase fd
      rwa [Option.toList_some, List.singleton_append, List.erase_cons_head] at herase

namespace Inv

theorem length_held (h : Inv connects s) :
    s.opened.length = s.idleFd.toList.length + s.others.length :=
  h.held.length_eq.trans List.length_append

theorem nodup_open (h : Inv connects s) (hfd : fd ∉ s.opened) : (fd :: s.opened).Nodup :=
  List.nodup_cons.mpr ⟨hfd, h.nodup⟩

theorem held_open (h : Inv connects s) (fd : ℕ) :
    (fd :: s.opened).Perm (s.idleFd.toList ++ fd :: s.others) :=
  (h.held.cons fd).trans List.perm_middle.symm

theorem held_openIdle (h : Inv connects s) (hidle : s.idleFd = none) (fd : ℕ) :
    (fd :: s.opened).Perm ((some fd).toList ++ s.others) := by
  have hheld := h.held
  rw [Acceptor.held, hidle] at hheld
  exact hheld.cons fd

theorem accept (h : Inv connects s) (hready : s.place = .ready) (hfd : fd ∉ s.opened) :
    Inv connects (s.accept fd) := by
  have htaken : s.taken = none := h.taken (by rw [hready]; decide)
  rw [Acceptor.accept]
  split_ifs with hroom
  · cases hbacklog : s.backlog with
    | nil => exact h
    | cons c cs =>
        refine ⟨h.held_open fd, h.nodup_open hfd, length_open hroom _, ?_, h.taken, h.given⟩
        simpa [htaken, hbacklog] using h.conserved
  · exact ⟨h.held, h.nodup, h.length_le, h.conserved, fun _ ↦ htaken, by simp⟩

theorem closeIdle (h : Inv connects s) (hclosing : s.place = .closing) :
    Inv connects s.closeIdle where
  held := perm_close _ h.held
  nodup := h.nodup.sublist (sublist_close _ _)
  length_le := (sublist_close _ _).length_le.trans h.length_le
  conserved := h.conserved
  taken := fun _ ↦ h.taken (by rw [hclosing]; decide)
  given := fun _ ↦ rfl

theorem acceptIdle (h : Inv connects s) (haccepting : s.place = .accepting)
    (hfd : fd ∉ s.opened) : Inv connects (s.acceptIdle fd) := by
  have htaken : s.taken = none := h.taken (by rw [haccepting]; decide)
  have hidle : s.idleFd = none := h.given (.inl haccepting)
  have hheld := h.held
  rw [Acceptor.held, hidle] at hheld
  rw [Acceptor.acceptIdle]
  split_ifs with hroom
  · cases hbacklog : s.backlog with
    | nil =>
        refine ⟨hheld, h.nodup, h.length_le, ?_, by simp, by simp⟩
        simpa [hbacklog] using h.conserved
    | cons c cs =>
        refine ⟨h.held_openIdle hidle fd, h.nodup_open hfd, length_open hroom _, ?_, by simp,
          by simp⟩
        simpa [htaken, hbacklog] using h.conserved
  · exact ⟨hheld, h.nodup, h.length_le, h.conserved, by simp, by simp⟩

theorem closeAccepted (h : Inv connects s) : Inv connects s.closeAccepted := by
  refine ⟨perm_close _ h.held, h.nodup.sublist (sublist_close _ _),
    (sublist_close _ _).length_le.trans h.length_le, ?_, fun _ ↦ rfl, fun _ ↦ rfl⟩
  have hconserved := h.conserved
  cases htaken : s.taken with
  | none => simpa [Acceptor.closeAccepted, htaken] using hconserved
  | some c => simpa [Acceptor.closeAccepted, htaken] using hconserved

theorem openIdle (h : Inv connects s) (hopening : s.place = .opening) (hfd : fd ∉ s.opened) :
    Inv connects (s.openIdle fd) := by
  have htaken : s.taken = none := h.taken (by rw [hopening]; decide)
  have hidle : s.idleFd = none := h.given (.inr hopening)
  rw [Acceptor.openIdle]
  split_ifs with hroom
  · exact ⟨h.held_openIdle hidle fd, h.nodup_open hfd, length_open hroom _, h.conserved,
      fun _ ↦ htaken, by simp⟩
  · have hheld := h.held
    rw [Acceptor.held, hidle] at hheld
    exact ⟨hheld, h.nodup, h.length_le, h.conserved, fun _ ↦ htaken, by simp⟩

theorem otherClose (h : Inv connects s) (hfd : fd ∈ s.others) :
    Inv connects
      { s with opened := close (some fd) s.opened, others := s.others.erase fd } := by
  have hsub : (close (some fd) s.opened).Sublist s.opened := sublist_close _ _
  refine ⟨?_, h.nodup.sublist hsub, hsub.length_le.trans h.length_le, h.conserved, h.taken,
    h.given⟩
  have hperm := (h.held.trans ((List.perm_cons_erase hfd).append_left _)).trans List.perm_middle
  exact perm_close (some fd) hperm

theorem exec {a : AcceptorAct} (h : Inv connects s) (ha : Fresh a s) (ht : exec a s = some t) :
    Inv (connects ++ connectOf a) t := by
  cases a with
  | connect c =>
      obtain rfl := Option.some.inj ht
      refine ⟨h.held, h.nodup, h.length_le, ?_, h.taken, h.given⟩
      simp [connectOf, ← h.conserved]
  | accept fd =>
      obtain ⟨hplace, ⟨⟩⟩ := Option.ite_none_right_eq_some.mp ht
      simpa [connectOf] using h.accept hplace ha
  | closeIdle =>
      obtain ⟨hplace, ⟨⟩⟩ := Option.ite_none_right_eq_some.mp ht
      simpa [connectOf] using h.closeIdle hplace
  | acceptIdle fd =>
      obtain ⟨hplace, ⟨⟩⟩ := Option.ite_none_right_eq_some.mp ht
      simpa [connectOf] using h.acceptIdle hplace ha
  | closeAccepted =>
      obtain ⟨-, ⟨⟩⟩ := Option.ite_none_right_eq_some.mp ht
      simpa [connectOf] using h.closeAccepted
  | openIdle fd =>
      obtain ⟨hplace, ⟨⟩⟩ := Option.ite_none_right_eq_some.mp ht
      simpa [connectOf] using h.openIdle hplace ha
  | otherOpen fd =>
      obtain ⟨hroom, ⟨⟩⟩ := Option.ite_none_right_eq_some.mp ht
      have hnext : Inv connects { s with opened := fd :: s.opened, others := fd :: s.others } :=
        ⟨h.held_open fd, h.nodup_open ha, length_open hroom _, h.conserved, h.taken, h.given⟩
      simpa [connectOf] using hnext
  | otherClose fd =>
      obtain ⟨hfd, ⟨⟩⟩ := Option.ite_none_right_eq_some.mp ht
      simpa [connectOf] using h.otherClose hfd

theorem runAll {acts : List AcceptorAct} (h : Inv connects s)
    (hacts : EachStep Acceptor.exec Fresh acts s) (ht : runAll Acceptor.exec acts s = some t) :
    Inv (connects ++ (acts.map connectOf).flatten) t := by
  induction acts generalizing s connects with
  | nil =>
      obtain rfl := Option.some.inj ht
      simpa using h
  | cons a acts ih =>
      obtain ⟨r, hr, hrest⟩ := runAll_cons_iff.mp ht
      have hnext := ih (h.exec hacts.1 hr) (hacts.2 r hr) hrest
      rwa [List.map_cons, List.flatten_cons, ← List.append_assoc]

end Inv

/-! ## The spare descriptor -/

/-- Whether the spare descriptor is there, or the room for it. -/
def SpareKept (s : Acceptor) : Prop :=
  if s.place = .ready ∨ s.place = .closing then s.idleFd ≠ none else s.others.length < s.limit

theorem SpareKept.exec {a : AcceptorAct} (h : s.SpareKept) (hinv : Inv connects s)
    (ha : Quiet a s) (ht : exec a s = some t) : t.SpareKept := by
  cases a with
  | connect c =>
      obtain rfl := Option.some.inj ht
      exact h
  | accept fd =>
      obtain ⟨hplace, ⟨⟩⟩ := Option.ite_none_right_eq_some.mp ht
      rw [SpareKept, if_pos (.inl hplace)] at h
      rw [Acceptor.accept]
      split_ifs
      · cases hbacklog : s.backlog with
        | nil => simpa [SpareKept, hplace] using h
        | cons c cs => simpa [SpareKept, hplace] using h
      · simpa [SpareKept] using h
  | closeIdle =>
      obtain ⟨hplace, ⟨⟩⟩ := Option.ite_none_right_eq_some.mp ht
      rw [SpareKept, if_pos (.inr hplace)] at h
      obtain ⟨spare, hidle⟩ := Option.ne_none_iff_exists'.mp h
      have hle := hinv.length_le
      rw [hinv.length_held, hidle, Option.toList_some, List.length_singleton] at hle
      rw [SpareKept, if_neg (by simp [Acceptor.closeIdle]), Acceptor.closeIdle]
      simp only
      omega
  | acceptIdle fd =>
      obtain ⟨hplace, ⟨⟩⟩ := Option.ite_none_right_eq_some.mp ht
      have hlength : s.others.length < s.limit := by simpa [SpareKept, hplace] using h
      rw [Acceptor.acceptIdle]
      split_ifs
      · cases hbacklog : s.backlog with
        | nil => simpa [SpareKept] using hlength
        | cons c cs => simpa [SpareKept] using hlength
      · simpa [SpareKept] using hlength
  | closeAccepted =>
      obtain ⟨hplace, ⟨⟩⟩ := Option.ite_none_right_eq_some.mp ht
      have hlength : s.others.length < s.limit := by simpa [SpareKept, hplace] using h
      simpa [SpareKept, Acceptor.closeAccepted] using hlength
  | openIdle fd =>
      obtain ⟨hplace, ⟨⟩⟩ := Option.ite_none_right_eq_some.mp ht
      have hlength : s.others.length < s.limit := by simpa [SpareKept, hplace] using h
      have hroom : s.HasRoom := by
        rw [HasRoom, hinv.length_held, hinv.given (.inr hplace), Option.toList_none,
          List.length_nil, Nat.zero_add]
        exact hlength
      simp [SpareKept, Acceptor.openIdle, hroom]
  | otherOpen fd =>
      obtain ⟨-, ⟨⟩⟩ := Option.ite_none_right_eq_some.mp ht
      have hplace : s.place = .ready ∨ s.place = .closing := ha
      rw [SpareKept, if_pos hplace] at h ⊢
      exact h
  | otherClose fd =>
      obtain ⟨-, ⟨⟩⟩ := Option.ite_none_right_eq_some.mp ht
      have hlength : (s.others.erase fd).length ≤ s.others.length := List.erase_sublist.length_le
      rw [SpareKept] at h ⊢
      split_ifs at h ⊢ with hplace
      · exact h
      · exact hlength.trans_lt h

theorem SpareKept.runAll {acts : List AcceptorAct} (h : s.SpareKept) (hinv : Inv connects s)
    (hacts : EachStep Acceptor.exec Fresh acts s) (hquiet : EachStep Acceptor.exec Quiet acts s)
    (ht : runAll Acceptor.exec acts s = some t) : t.SpareKept := by
  induction acts generalizing s connects with
  | nil =>
      obtain rfl := Option.some.inj ht
      exact h
  | cons a acts ih =>
      obtain ⟨r, hr, hrest⟩ := runAll_cons_iff.mp ht
      exact ih (h.exec hinv hquiet.1 hr) (hinv.exec hacts.1 hr)
        (hacts.2 r hr) (hquiet.2 r hr) hrest

/-- Without room the connection is accepted and closed, by means of the spare
descriptor. -/
theorem runAll_refuse {c : ℕ} {cs : List ℕ} {spare : ℕ} (hinv : Inv connects s)
    (hplace : s.place = .ready) (hroom : ¬ s.HasRoom) (hidle : s.idleFd = some spare)
    (hbacklog : s.backlog = c :: cs) (fd fd' : ℕ) :
    runAll Acceptor.exec
        [.accept fd, .closeIdle, .acceptIdle fd, .closeAccepted, .openIdle fd'] s =
      some { s with
        opened := fd' :: s.opened.erase spare
        idleFd := some fd'
        backlog := cs
        outcomes := s.outcomes ++ [(c, none)] } := by
  have htaken : s.taken = none := hinv.taken (by rw [hplace]; decide)
  have hmem : spare ∈ s.opened := hinv.held.mem_iff.mpr (by simp [held, hidle])
  have hlength : (s.opened.erase spare).length < s.limit := by
    have hle := hinv.length_le
    have hpos := List.length_pos_of_mem hmem
    rw [List.length_erase_of_mem hmem]
    omega
  have hfree : ∀ place idleFd taken backlog outcomes,
      HasRoom ⟨s.limit, place, s.opened.erase spare, idleFd, taken, s.others, backlog, outcomes⟩ :=
    fun _ _ _ _ _ ↦ hlength
  refine runAll_cons_iff.mpr ⟨{ s with place := .closing }, ?_, ?_⟩
  · rw [Acceptor.exec, if_pos hplace, Acceptor.accept, if_neg hroom]
  refine runAll_cons_iff.mpr ⟨{ s with
    place := .accepting, opened := s.opened.erase spare, idleFd := none }, ?_, ?_⟩
  · rw [Acceptor.exec, if_pos rfl, Acceptor.closeIdle, hidle]
    rfl
  refine runAll_cons_iff.mpr ⟨{ s with
    place := .closingAgain, opened := fd :: s.opened.erase spare, idleFd := some fd,
    taken := some c, backlog := cs }, ?_, ?_⟩
  · rw [Acceptor.exec, if_pos rfl, Acceptor.acceptIdle, if_pos (hfree _ _ _ _ _), hbacklog]
  refine runAll_cons_iff.mpr ⟨{ s with
    place := .opening, opened := s.opened.erase spare, idleFd := none, taken := none,
    backlog := cs, outcomes := s.outcomes ++ [(c, none)] }, ?_, ?_⟩
  · rw [Acceptor.exec, if_pos rfl, Acceptor.closeAccepted, close, Option.elim_some,
      List.erase_cons_head]
    rfl
  refine runAll_cons_iff.mpr ⟨_, rfl, ?_⟩
  rw [Acceptor.openIdle, if_pos (hfree _ _ _ _ _), ← hplace, ← htaken]
  rfl

theorem exec_accept {c : ℕ} {cs : List ℕ} (hplace : s.place = .ready) (hroom : s.HasRoom)
    (hbacklog : s.backlog = c :: cs) (fd : ℕ) :
    Acceptor.exec (.accept fd) s = some { s with
      opened := fd :: s.opened
      others := fd :: s.others
      backlog := cs
      outcomes := s.outcomes ++ [(c, some fd)] } := by
  rw [Acceptor.exec, if_pos hplace, Acceptor.accept, if_pos hroom]
  simp only [hbacklog]

/-- Without room and without a spare descriptor nothing happens. -/
theorem runAll_stuck (hplace : s.place = .ready) (hroom : ¬ s.HasRoom) (hidle : s.idleFd = none)
    (htaken : s.taken = none) (fd fd' : ℕ) :
    runAll Acceptor.exec
      [.accept fd, .closeIdle, .acceptIdle fd, .closeAccepted, .openIdle fd'] s = some s := by
  obtain ⟨limit, place, opened, idleFd, taken, others, backlog, outcomes⟩ := s
  simp only at hplace hidle htaken
  subst hplace hidle htaken
  have hfull : ∀ place, ¬ HasRoom ⟨limit, place, opened, none, none, others, backlog, outcomes⟩ :=
    fun _ ↦ hroom
  refine runAll_cons_iff.mpr
    ⟨⟨limit, .closing, opened, none, none, others, backlog, outcomes⟩, ?_, ?_⟩
  · rw [Acceptor.exec, if_pos rfl, Acceptor.accept, if_neg hroom]
  refine runAll_cons_iff.mpr
    ⟨⟨limit, .accepting, opened, none, none, others, backlog, outcomes⟩, rfl, ?_⟩
  refine runAll_cons_iff.mpr
    ⟨⟨limit, .closingAgain, opened, none, none, others, backlog, outcomes⟩, ?_, ?_⟩
  · rw [Acceptor.exec, if_pos rfl, Acceptor.acceptIdle, if_neg (hfull _)]
  refine runAll_cons_iff.mpr
    ⟨⟨limit, .opening, opened, none, none, others, backlog, outcomes⟩, ?_, ?_⟩
  · rw [Acceptor.exec, if_pos rfl, Acceptor.closeAccepted]
    simp [close]
  refine runAll_cons_iff.mpr ⟨_, rfl, ?_⟩
  rw [Acceptor.openIdle, if_neg (hfull _)]
  rfl

/-- In every run the open descriptors are those that are still to be closed, each
one once, and the connections are accepted in order.  When connections wait,
`handleRead` accepts the first and leaves the spare descriptor in place if and
only if there is room or the spare descriptor is there.  It is there if no other
thread opens a descriptor while it is given up. -/
theorem acceptor_takes_first_iff {limit idleFd : ℕ} {others : List ℕ}
    (hnodup : (idleFd :: others).Nodup) (hlimit : (idleFd :: others).length ≤ limit)
    {acts : List AcceptorAct} (hacts : EachStep Acceptor.exec Fresh acts (new limit idleFd others))
    (hs : runAll Acceptor.exec acts (new limit idleFd others) = some s) :
    s.opened.Perm s.held ∧ s.opened.Nodup ∧ s.opened.length ≤ s.limit ∧
      s.outcomes.map Prod.fst ++ s.taken.toList ++ s.backlog = (acts.map connectOf).flatten ∧
      (s.place = .ready →
        (∀ c cs fd fd', s.backlog = c :: cs →
          ∃ t, runAll Acceptor.exec (s.handleRead fd fd') s = some t ∧ t.place = .ready ∧
            ((t.backlog = cs ∧
                t.outcomes = s.outcomes ++ [(c, if s.HasRoom then some fd else none)]) ↔
              s.HasRoom ∨ s.idleFd ≠ none)) ∧
        (EachStep Acceptor.exec Quiet acts (new limit idleFd others) → s.idleFd ≠ none)) := by
  have hnew : Inv [] (new limit idleFd others) :=
    ⟨.refl _, hnodup, hlimit, rfl, fun _ ↦ rfl, by simp [new]⟩
  have hinv := hnew.runAll hacts hs
  refine ⟨hinv.held, hinv.nodup, hinv.length_le, hinv.conserved, fun hplace ↦ ⟨?_, fun hquiet ↦ ?_⟩⟩
  · intro c cs fd fd' hbacklog
    have htaken : s.taken = none := hinv.taken (by rw [hplace]; decide)
    by_cases hroom : s.HasRoom
    · rw [handleRead, if_pos hroom, if_pos hroom]
      exact ⟨_, runAll_cons_iff.mpr ⟨_, exec_accept hplace hroom hbacklog fd, rfl⟩, hplace,
        iff_of_true ⟨rfl, rfl⟩ (.inl hroom)⟩
    · rw [handleRead, if_neg hroom, if_neg hroom]
      cases hidle : s.idleFd with
      | none =>
          refine ⟨s, runAll_stuck hplace hroom hidle htaken fd fd', hplace,
            iff_of_false (fun heq ↦ ?_) (by simpa using hroom)⟩
          exact List.cons_ne_self c cs (hbacklog.symm.trans heq.1)
      | some spare =>
          exact ⟨_, runAll_refuse hinv hplace hroom hidle hbacklog fd fd', hplace,
            iff_of_true ⟨rfl, rfl⟩ (.inr (Option.some_ne_none _))⟩
  · have hstart : (new limit idleFd others).SpareKept := by simp [SpareKept, new]
    have hspare := hstart.runAll hnew hacts hquiet hs
    rwa [SpareKept, if_pos (.inl hplace)] at hspare

/-- One descriptor besides the spare one is left, and three clients connect. -/
def exampleActs : List AcceptorAct :=
  [.connect 1, .connect 2, .accept 4, .accept 5, .closeIdle, .acceptIdle 3, .closeAccepted,
    .openIdle 3, .connect 3]

theorem acceptor_takes_first_exampleActs :
    ∃ s t, runAll Acceptor.exec exampleActs (new 3 3 [0]) = some s ∧
      s.opened.Perm [0, 3, 4] ∧ s.outcomes = [(1, some 4), (2, none)] ∧ s.idleFd ≠ none ∧
      runAll Acceptor.exec (s.handleRead 3 3) s = some t ∧ t.place = .ready ∧ t.backlog = [] ∧
      t.outcomes = [(1, some 4), (2, none), (3, none)] := by
  have hrun : ∃ s, runAll Acceptor.exec exampleActs (new 3 3 [0]) = some s ∧ s.place = .ready ∧
      s.outcomes = [(1, some 4), (2, none)] ∧ s.backlog = [3] ∧ s.held.Perm [0, 3, 4] ∧
      ¬ s.HasRoom := ⟨_, rfl, rfl, rfl, rfl, by decide, by decide⟩
  obtain ⟨s, hs, hplace, houtcomes, hbacklog, hheld, hroom⟩ := hrun
  obtain ⟨hperm, -, -, -, hready⟩ :=
    acceptor_takes_first_iff (by decide) (by decide) (by decide) hs
  obtain ⟨hnext, hspare⟩ := hready hplace
  have hidle := hspare (by decide)
  obtain ⟨t, ht, hdone, hiff⟩ := hnext 3 [] 3 3 hbacklog
  obtain ⟨hempty, houtcome⟩ := hiff.mpr (.inr hidle)
  rw [houtcomes, if_neg hroom] at houtcome
  exact ⟨s, t, hs, hperm.trans hheld, houtcomes, hidle, ht, hdone, hempty, houtcome⟩

end Acceptor

end PpDSCache.Net
