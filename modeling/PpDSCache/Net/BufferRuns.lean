import PpDSCache.Abstract.Simulation
import PpDSCache.Net.BufferDeque

/-!
# Runs of calls on a family of buffers

Along every run of calls that keep the asserted preconditions, each buffer of
the family answers as its queue of bytes does.  Integers written in network
order come back with the values they went in with.
-/

namespace PpDSCache.Net.Buffer

open Cpp Abstract

/-- An integer with the width it is stored in. -/
structure TypedInt where
  width : IntWidth
  value : ℤ
  inRange : InRange width.size value

def TypedInt.encode (x : TypedInt) : Text := encodeInt x.width.size x.value

inductive Op where
  | append (data : Text)
  | appendInt (x : TypedInt)
  | prepend (data : Text)
  | prependInt (x : TypedInt)
  | retrieve (len : ℕ)
  | retrieveUntil (len : ℕ)
  | retrieveInt (w : IntWidth)
  | retrieveAll
  | retrieveAsString (len : ℕ)
  | retrieveAllAsString
  | peekInt (w : IntWidth)
  | readInt (w : IntWidth)
  | unwrite (len : ℕ)
  | ensureWritableBytes (len : ℕ)
  | hasWritten (data : Text)
  | shrink (reserve : ℕ)
  | readFd (r : Readv)

inductive Answer where
  | done
  | text (s : Text)
  | int (x : ℤ)
  | count (n : ℤ) (savedErrno : Option ℤ)
  deriving DecidableEq

namespace Op

/-- Run a call on the buffer.  `retrieveUntil` gets a pointer `len` bytes
behind `peek()`, and the bytes of `hasWritten` are filled in just before it. -/
def exec (op : Op) (b : Buffer) : Option (Answer × Buffer) :=
  match op with
  | append data => (b.append data).map (.done, ·)
  | appendInt x => (b.appendInt x.width x.value).map (.done, ·)
  | prepend data => (b.prepend data).map (.done, ·)
  | prependInt x => (b.prependInt x.width x.value).map (.done, ·)
  | retrieve len => (b.retrieve len).map (.done, ·)
  | retrieveUntil len => (b.retrieveUntil (b.readerIndex + len)).map (.done, ·)
  | retrieveInt w => (b.retrieveInt w).map (.done, ·)
  | retrieveAll => some (.done, b.retrieveAll)
  | retrieveAsString len => (b.retrieveAsString len).map fun p ↦ (.text p.1, p.2)
  | retrieveAllAsString => b.retrieveAllAsString.map fun p ↦ (.text p.1, p.2)
  | peekInt w => (b.peekInt w).map fun x ↦ (.int x, b)
  | readInt w => (b.readInt w).map fun p ↦ (.int p.1, p.2)
  | unwrite len => (b.unwrite len).map (.done, ·)
  | ensureWritableBytes len => (b.ensureWritableBytes len).map (.done, ·)
  | hasWritten data =>
      ((b.fill data).bind fun t ↦ t.hasWritten data.length).map (.done, ·)
  | shrink reserve => (b.shrink reserve).map (.done, ·)
  | readFd r => (b.readFd r).map fun p ↦ (.count p.1.1 p.1.2, p.2)

/-- The call on an ideal queue of bytes. -/
def step (op : Op) (d : Text) : Answer × Text :=
  match op with
  | append data => (.done, d ++ data)
  | appendInt x => (.done, d ++ x.encode)
  | prepend data => (.done, data ++ d)
  | prependInt x => (.done, x.encode ++ d)
  | retrieve len => (.done, d.drop len)
  | retrieveUntil len => (.done, d.drop len)
  | retrieveInt w => (.done, d.drop w.size)
  | retrieveAll => (.done, [])
  | retrieveAsString len => (.text (d.take len), d.drop len)
  | retrieveAllAsString => (.text d, [])
  | peekInt w => (.int (decodeInt (d.take w.size)), d)
  | readInt w => (.int (decodeInt (d.take w.size)), d.drop w.size)
  | unwrite len => (.done, d.take (d.length - len))
  | ensureWritableBytes _ => (.done, d)
  | hasWritten data => (.done, d ++ data)
  | shrink _ => (.done, d)
  | readFd (.failed errno) => (.count (-1) (some errno), d)
  | readFd (.received data) => (.count data.length none, d ++ data)

/-- What the callers promise: the asserted preconditions, a `readv` that stores
at most what it was offered, and capacity requests below `2 ^ 63`. -/
def Admitted (op : Op) (b : Buffer) : Prop :=
  match op with
  | append data => b.writerIndex + data.length < 2 ^ 63
  | appendInt x => b.writerIndex + x.width.size < 2 ^ 63
  | prepend data => data.length ≤ b.prependableBytes
  | prependInt x => x.width.size ≤ b.prependableBytes
  | retrieve len => len ≤ b.readableBytes
  | retrieveUntil len => len ≤ b.readableBytes
  | retrieveInt w => w.size ≤ b.readableBytes
  | retrieveAll => True
  | retrieveAsString len => len ≤ b.readableBytes
  | retrieveAllAsString => True
  | peekInt w => w.size ≤ b.readableBytes
  | readInt w => w.size ≤ b.readableBytes
  | unwrite len => len ≤ b.readableBytes
  | ensureWritableBytes len => b.writerIndex + len < 2 ^ 63
  | hasWritten data => data.length ≤ b.writableBytes
  | shrink reserve =>
      b.readableBytes < 2 ^ 31 ∧ kCheapPrepend + b.readableBytes + reserve < 2 ^ 63
  | readFd (.failed _) => True
  | readFd (.received data) => data.length ≤ b.offered ∧ b.writerIndex + data.length < 2 ^ 63

end Op

namespace Shows

variable {b : Buffer} {d : Text}

/-- Every admitted call succeeds with the queue's answer. -/
theorem exec (h : b.Shows d) {op : Op} (hop : op.Admitted b) :
    ∃ t, op.exec b = some ((op.step d).1, t) ∧ t.Shows (op.step d).2 := by
  have hbytes := h.readableBytes
  cases op with
  | append data =>
      obtain ⟨t, ht, hshows⟩ := h.append hop
      exact ⟨t, by rw [Op.exec, ht]; rfl, hshows⟩
  | appendInt x =>
      have hrequest : b.writerIndex + x.encode.length < 2 ^ 63 := by
        rwa [TypedInt.encode, length_encodeInt]
      obtain ⟨t, ht, hshows⟩ := h.append hrequest
      exact ⟨t, by rw [Op.exec, Buffer.appendInt, ← TypedInt.encode, ht]; rfl, hshows⟩
  | prepend data =>
      obtain ⟨t, ht, hshows⟩ := h.prepend hop
      exact ⟨t, by rw [Op.exec, ht]; rfl, hshows⟩
  | prependInt x =>
      have hroom : x.encode.length ≤ b.prependableBytes := by
        rwa [TypedInt.encode, length_encodeInt]
      obtain ⟨t, ht, hshows⟩ := h.prepend hroom
      exact ⟨t, by rw [Op.exec, Buffer.prependInt, ← TypedInt.encode, ht]; rfl, hshows⟩
  | retrieve len =>
      obtain ⟨t, ht, hshows⟩ := h.retrieve (le_of_le_of_eq hop hbytes)
      exact ⟨t, by rw [Op.exec, ht]; rfl, hshows⟩
  | retrieveUntil len =>
      have hlen : len ≤ d.length := le_of_le_of_eq hop hbytes
      obtain ⟨t, ht, hshows⟩ := h.retrieve hlen
      exact ⟨t, by rw [Op.exec, h.retrieveUntil hlen, ht]; rfl, hshows⟩
  | retrieveInt w =>
      obtain ⟨t, ht, hshows⟩ := h.retrieve (le_of_le_of_eq hop hbytes)
      exact ⟨t, by rw [Op.exec, Buffer.retrieveInt, ht]; rfl, hshows⟩
  | retrieveAll => exact ⟨b.retrieveAll, rfl, h.retrieveAll⟩
  | retrieveAsString len =>
      obtain ⟨t, ht, hshows⟩ := h.retrieveAsString (le_of_le_of_eq hop hbytes)
      exact ⟨t, by rw [Op.exec, ht]; rfl, hshows⟩
  | retrieveAllAsString =>
      obtain ⟨t, ht, hshows⟩ := h.retrieveAsString le_rfl
      rw [List.drop_length] at hshows
      rw [List.take_length] at ht
      exact ⟨t, by rw [Op.exec, Buffer.retrieveAllAsString, hbytes, ht]; rfl, hshows⟩
  | peekInt w => exact ⟨b, by rw [Op.exec, h.peekInt (le_of_le_of_eq hop hbytes)]; rfl, h⟩
  | readInt w =>
      have hlen : w.size ≤ d.length := le_of_le_of_eq hop hbytes
      obtain ⟨t, ht, hshows⟩ := h.retrieve hlen
      exact ⟨t, by rw [Op.exec, h.readInt hlen ht]; rfl, hshows⟩
  | unwrite len =>
      obtain ⟨t, ht, hshows⟩ := h.unwrite (le_of_le_of_eq hop hbytes)
      exact ⟨t, by rw [Op.exec, ht]; rfl, hshows⟩
  | ensureWritableBytes len =>
      obtain ⟨t, ht, hshows, -⟩ := h.ensureWritableBytes hop
      exact ⟨t, by rw [Op.exec, ht]; rfl, hshows⟩
  | hasWritten data =>
      obtain ⟨t, ht, hshows⟩ := h.fill_hasWritten hop
      exact ⟨t, by rw [Op.exec, ht]; rfl, hshows⟩
  | shrink reserve =>
      obtain ⟨hlen, hrequest⟩ := hop
      rw [hbytes] at hlen hrequest
      obtain ⟨t, ht, hshows⟩ := h.shrink hlen hrequest
      exact ⟨t, by rw [Op.exec, ht]; rfl, hshows⟩
  | readFd r =>
      cases r with
      | failed errno => exact ⟨b, rfl, h⟩
      | received data =>
          obtain ⟨t, ht, hshows⟩ := h.readFd hop.2
          exact ⟨t, by rw [Op.exec, ht]; rfl, hshows⟩

end Shows

/-! ## Several buffers -/

inductive FamilyOp (ι : Type) where
  | on (i : ι) (op : Op)
  | swap (i j : ι)

namespace FamilyOp

variable {ι : Type} [DecidableEq ι]

def exec (op : FamilyOp ι) (s : ι → Buffer) : Option (Answer × (ι → Buffer)) :=
  match op with
  | on i op => (op.exec (s i)).map fun p ↦ (p.1, Function.update s i p.2)
  | swap i j => some (.done, fun k ↦ s (Equiv.swap i j k))

def step (op : FamilyOp ι) (d : ι → Text) : Answer × (ι → Text) :=
  match op with
  | on i op => ((op.step (d i)).1, Function.update d i (op.step (d i)).2)
  | swap i j => (.done, fun k ↦ d (Equiv.swap i j k))

def Admitted (op : FamilyOp ι) (s : ι → Buffer) : Prop :=
  match op with
  | on i op => op.Admitted (s i)
  | swap _ _ => True

theorem exec_of_shows {s : ι → Buffer} {d : ι → Text} (h : ∀ i, (s i).Shows (d i))
    {op : FamilyOp ι} (hop : op.Admitted s) :
    ∃ t, op.exec s = some ((op.step d).1, t) ∧ ∀ i, (t i).Shows ((op.step d).2 i) := by
  cases op with
  | on i op =>
      obtain ⟨t, ht, hshows⟩ := (h i).exec hop
      refine ⟨Function.update s i t, by rw [exec, ht]; rfl, ?_⟩
      intro k
      by_cases hk : k = i
      · subst hk
        simpa [step] using hshows
      · simpa [step, hk] using h k
  | swap i j => exact ⟨_, rfl, fun k ↦ h (Equiv.swap i j k)⟩

end FamilyOp

/-! ## Integers -/

inductive TypedOp where
  | append (x : TypedInt)
  | prepend (x : TypedInt)
  | read (w : IntWidth)

namespace TypedOp

def op : TypedOp → Op
  | append x => .appendInt x
  | prepend x => .prependInt x
  | read w => .readInt w

/-- The call on an ideal queue of integers. -/
def step (c : TypedOp) (xs : List TypedInt) : Answer × List TypedInt :=
  match c, xs with
  | append x, xs => (.done, xs ++ [x])
  | prepend x, xs => (.done, x :: xs)
  | read _, [] => (.done, [])
  | read _, x :: xs => (.int x.value, xs)

/-- An integer is read with the width it was stored in. -/
def WidthMatches (c : TypedOp) (xs : List TypedInt) : Prop :=
  match c with
  | read w => xs.head?.map TypedInt.width = some w
  | _ => True

end TypedOp

/-- The bytes of a queue of integers. -/
def encoded (xs : List TypedInt) : Text := xs.flatMap TypedInt.encode

theorem IntWidth.size_pos (w : IntWidth) : 0 < w.size := by
  cases w <;> decide

theorem TypedInt.decodeInt_encode (x : TypedInt) : decodeInt x.encode = x.value :=
  decodeInt_encodeInt (IntWidth.size_pos _) x.inRange

/-- On the bytes of a queue of integers, the queue of bytes and the queue of
integers agree. -/
theorem TypedOp.step_encoded {c : TypedOp} {xs : List TypedInt} (h : c.WidthMatches xs) :
    c.op.step (encoded xs) = ((c.step xs).1, encoded (c.step xs).2) := by
  cases c with
  | append x => simp [TypedOp.op, Op.step, TypedOp.step, encoded]
  | prepend x => simp [TypedOp.op, Op.step, TypedOp.step, encoded]
  | read w =>
      cases xs with
      | nil => simp [WidthMatches] at h
      | cons x xs =>
          obtain rfl : x.width = w := by simpa [WidthMatches] using h
          have hlen : x.encode.length = x.width.size := length_encodeInt _ _
          have hvalue := x.decodeInt_encode
          simp [TypedOp.op, Op.step, TypedOp.step, encoded, ← hlen, hvalue]

/-- Buffers of any initial sizes track their queues of bytes along every run
of admitted calls; and a buffer that holds integers tracks the queue of these
integers while each is read with its own width. -/
theorem tracks_queues {ι : Type} [DecidableEq ι] {initialSize : ι → ℕ}
    (hsize : ∀ i, kCheapPrepend + initialSize i < 2 ^ 63) :
    (∀ ops : List (FamilyOp ι),
      EachStep (fun op s ↦ (op.exec s).map Prod.snd) FamilyOp.Admitted ops
          (fun i ↦ new (initialSize i)) →
        Tracks FamilyOp.exec FamilyOp.step (fun s d ↦ ∀ i, (s i).Shows (d i))
          (fun i ↦ new (initialSize i)) (fun _ ↦ []) ops) ∧
      ∀ (b : Buffer) (xs : List TypedInt) (ops : List TypedOp), b.Shows (encoded xs) →
        EachStep (fun c b ↦ (c.op.exec b).map Prod.snd) (fun c b ↦ c.op.Admitted b) ops b →
        EachMeets TypedOp.step TypedOp.WidthMatches xs ops →
          Tracks (fun c b ↦ c.op.exec b) TypedOp.step (fun b xs ↦ b.Shows (encoded xs))
            b xs ops := by
  constructor
  · intro ops hops
    refine tracks_of_eachStep (fun c s d h hc _ ↦ FamilyOp.exec_of_shows h hc)
      (fun i ↦ shows_new (hsize i)) hops ((eachMeets_iff_forall ops).mpr fun _ _ ↦ trivial)
  · intro b xs ops hb hops hwidths
    have hstep : ∀ (c : TypedOp) (b : Buffer) (xs : List TypedInt), b.Shows (encoded xs) →
        c.op.Admitted b → c.WidthMatches xs → ∃ t, c.op.exec b = some ((c.step xs).1, t) ∧
          t.Shows (encoded (c.step xs).2) := by
      intro c b xs h hc hw
      have hexec := h.exec hc
      rwa [TypedOp.step_encoded hw] at hexec
    exact tracks_of_eachStep hstep hb hops hwidths

/-- Two buffers: bytes are appended, an integer is put in front of them and
read back after the buffers have changed places. -/
theorem tracks_queues_two :
    Tracks FamilyOp.exec FamilyOp.step (fun s d ↦ ∀ i, (s i).Shows (d i))
      (fun _ : Bool ↦ new 0) (fun _ ↦ [])
      ([.on true (.append [104, 105]), .on true (.prependInt ⟨.int32, -3, by decide⟩),
        .swap true false, .on false (.readInt .int32)] : List (FamilyOp Bool)) := by
  refine (tracks_queues fun _ ↦ by decide).1 _ ?_
  refine eachStep_cons (show 8 + 2 < 2 ^ 63 by decide) rfl ?_
  refine eachStep_cons (show 4 ≤ 8 by decide) rfl ?_
  refine eachStep_cons trivial rfl ?_
  exact eachStep_cons (show 4 ≤ 6 by decide) rfl trivial

example :
    (do
      let b ← (new 8).appendInt8 (-1)
      let b ← b.appendInt16 (-2)
      let (x, b) ← b.readInt8
      let (y, b) ← b.readInt16
      pure (x, y, b.readableBytes, b.writableBytes)) = some (-1, -2, 0, 8) := by
  decide +kernel

end PpDSCache.Net.Buffer
