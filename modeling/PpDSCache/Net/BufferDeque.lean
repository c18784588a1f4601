import PpDSCache.Cpp.Arith
import PpDSCache.Net.Buffer

/-!
# The buffer against a double-ended queue of bytes

The readable bytes are a queue: appending adds at its end, prepending and
retrieving work at its front.  Growth, compaction and the second block of
`readFd` only move the queue inside the array.
-/

namespace PpDSCache.Net.Buffer

open Cpp

structure Valid (b : Buffer) : Prop where
  reader_le : b.readerIndex ≤ b.writerIndex
  writer_le : b.writerIndex ≤ b.bytes.length
  cheapPrepend_le : kCheapPrepend ≤ b.bytes.length
  length_lt : b.bytes.length < 2 ^ 63

def readable (b : Buffer) : Text :=
  (b.bytes.drop b.readerIndex).take (b.writerIndex - b.readerIndex)

/-- A sound buffer whose readable bytes are `d`. -/
structure Shows (b : Buffer) (d : Text) : Prop where
  valid : b.Valid
  readable : b.readable = d

/-- The buffer with the given bytes in front of, inside and behind its
readable part. -/
def laid (front d rest : Text) : Buffer :=
  ⟨front ++ d ++ rest, front.length, front.length + d.length⟩

structure Fits (front d rest : Text) : Prop where
  cheapPrepend_le : kCheapPrepend ≤ front.length + d.length + rest.length
  length_lt : front.length + d.length + rest.length < 2 ^ 63

section Laid

variable {front d rest : Text}

@[simp] theorem bytes_laid : (laid front d rest).bytes = front ++ d ++ rest := rfl

@[simp] theorem readerIndex_laid : (laid front d rest).readerIndex = front.length := rfl

@[simp] theorem writerIndex_laid :
    (laid front d rest).writerIndex = front.length + d.length := rfl

theorem shows_laid (h : Fits front d rest) : (laid front d rest).Shows d where
  valid := by
    obtain ⟨hcheap, hlt⟩ := h
    constructor <;> simp only [laid, List.length_append] <;> omega
  readable := by
    simp [readable, laid, List.append_assoc]

theorem readableBytes_laid (h : Fits front d rest) :
    (laid front d rest).readableBytes = d.length := by
  have hlt := h.length_lt
  rw [readableBytes, readerIndex_laid, writerIndex_laid, sizeSub_eq (by omega) (by omega)]
  omega

theorem writableBytes_laid (h : Fits front d rest) :
    (laid front d rest).writableBytes = rest.length := by
  have hlt := h.length_lt
  have hlen : (laid front d rest).bytes.length = front.length + d.length + rest.length := by
    simp [add_assoc]
  rw [writableBytes, hlen, writerIndex_laid, sizeSub_eq (by omega) (by omega)]
  omega

variable {len : ℕ}

/-- The room `makeSpace` finds before and behind the readable bytes. -/
theorem room_laid (h : Fits front d rest) :
    sizeAdd (laid front d rest).writableBytes (laid front d rest).prependableBytes =
      rest.length + front.length := by
  have hlt := h.length_lt
  rw [writableBytes_laid h, prependableBytes, readerIndex_laid, sizeAdd_eq (by omega)]

/-- Growing appends fresh bytes at the end of the array. -/
theorem grow_laid (h : Fits front d rest) (hroom : rest.length < len)
    (hrequest : front.length + d.length + len < 2 ^ 63)
    (hgrow : rest.length + front.length < len + 8) :
    ∃ rest', (laid front d rest).makeSpace len = some (laid front d rest') ∧
      Fits front d rest' ∧ len ≤ rest'.length := by
  have hcheap := h.cheapPrepend_le
  have hneed : sizeAdd len kCheapPrepend = len + 8 := sizeAdd_eq (by omega)
  have htotal : (front ++ d ++ rest).length ≤ front.length + d.length + len := by
    simp only [List.length_append]
    omega
  have hresize : resize (front ++ d ++ rest) (sizeAdd (front.length + d.length) len) =
      front ++ d ++ (rest ++ List.replicate (len - rest.length) 0) := by
    rw [sizeAdd_eq (by omega), resize, List.take_of_length_le htotal, List.append_assoc]
    simp only [List.length_append]
    rw [show front.length + d.length + len - (front.length + d.length + rest.length) =
      len - rest.length by omega]
  refine ⟨rest ++ List.replicate (len - rest.length) 0, ?_, ?_, ?_⟩
  · rw [Buffer.makeSpace, room_laid h, hneed, if_pos hgrow, bytes_laid, writerIndex_laid, hresize]
    rfl
  · constructor <;> simp only [List.length_append, List.length_replicate] <;> omega
  · rw [List.length_append, List.length_replicate]
    omega

/-- Moving the readable bytes down in the array, over what is there. -/
theorem writeAt_compact (h : 8 ≤ front.length) (d rest : Text) :
    writeAt (front ++ d ++ rest) kCheapPrepend d =
      some (front.take 8 ++ d ++ (front.drop 8 ++ d ++ rest).drop d.length) := by
  let tail := front.drop 8 ++ d ++ rest
  have hold : (tail.take d.length).length = d.length := by
    apply List.length_take_of_le
    simp only [tail, List.length_append]
    omega
  have hsplit : front ++ d ++ rest =
      front.take 8 ++ tail.take d.length ++ tail.drop d.length := by
    rw [List.append_assoc (front.take 8), List.take_append_drop]
    simp only [tail, List.append_assoc]
    rw [← List.append_assoc (front.take 8), List.take_append_drop]
  have hfront : (front.take 8).length = kCheapPrepend := List.length_take_of_le h
  rw [hsplit, ← writeAt_append hold, hfront]

/-- Compacting moves the readable bytes down to the cheap prepend area. -/
theorem compact_laid (h : Fits front d rest) (hroom : rest.length < len)
    (hrequest : front.length + d.length + len < 2 ^ 63)
    (hgrow : len + 8 ≤ rest.length + front.length) :
    ∃ rest', (laid front d rest).makeSpace len = some (laid (front.take 8) d rest') ∧
      Fits (front.take 8) d rest' ∧ len ≤ rest'.length := by
  have hlt := h.length_lt
  have hcheap := h.cheapPrepend_le
  have hneed : sizeAdd len kCheapPrepend = len + 8 := sizeAdd_eq (by omega)
  have hfront : (front.take 8).length = 8 := List.length_take_of_le (by omega)
  let rest' := (front.drop 8 ++ d ++ rest).drop d.length
  have hrest : rest'.length = front.length - 8 + rest.length := by
    simp only [rest', List.length_append, List.length_drop]
    omega
  have hfits : Fits (front.take 8) d rest' := by
    constructor <;> rw [hfront, hrest] <;> omega
  have hread : Cpp.readAt (front ++ d ++ rest) front.length
      (front.length + d.length - front.length) = some d := by
    rw [Nat.add_sub_cancel_left]
    exact readAt_append front d rest
  have hwrite : writeAt (front ++ d ++ rest) kCheapPrepend d =
      some (front.take 8 ++ d ++ rest') := writeAt_compact (by omega) d rest
  have hlaid : (⟨front.take 8 ++ d ++ rest', kCheapPrepend, sizeAdd kCheapPrepend d.length⟩ :
      Buffer) = laid (front.take 8) d rest' := by
    rw [laid, hfront, sizeAdd_eq (show 8 + d.length < 2 ^ 64 by omega)]
  have hreader : kCheapPrepend < front.length := show 8 < front.length by omega
  refine ⟨rest', ?_, hfits, ?_⟩
  · rw [Buffer.makeSpace, room_laid h, hneed, if_neg (not_lt.mpr hgrow)]
    simp only [readableBytes_laid h, bytes_laid, readerIndex_laid, writerIndex_laid, hread,
      guard, hreader, Option.bind_eq_bind, Option.pure_def, Option.bind_some, hwrite,
      hlaid, readableBytes_laid hfits, if_true]
  · rw [hrest]
    omega

end Laid

theorem Shows.exists_laid {b : Buffer} {d : Text} (h : b.Shows d) :
    ∃ front rest, b = laid front d rest ∧ Fits front d rest := by
  obtain ⟨⟨hreader, hwriter, hcheap, hlt⟩, rfl⟩ := h
  have hlen : b.readable.length = b.writerIndex - b.readerIndex := by
    rw [Buffer.readable, List.length_take, List.length_drop]
    omega
  have hfront : (b.bytes.take b.readerIndex).length = b.readerIndex := by
    rw [List.length_take]
    omega
  have hrest : b.bytes.drop b.writerIndex =
      (b.bytes.drop b.readerIndex).drop (b.writerIndex - b.readerIndex) := by
    rw [List.drop_drop]
    congr 1
    omega
  have hbytes : b.bytes.take b.readerIndex ++ b.readable ++ b.bytes.drop b.writerIndex =
      b.bytes := by
    rw [hrest, Buffer.readable, List.append_assoc, List.take_append_drop, List.take_append_drop]
  refine ⟨b.bytes.take b.readerIndex, b.bytes.drop b.writerIndex, ?_, ?_, ?_⟩
  · have hwriter : b.readerIndex + (b.writerIndex - b.readerIndex) = b.writerIndex := by omega
    rw [laid, hbytes, hfront, hlen, hwriter]
  · rwa [← List.length_append, ← List.length_append, hbytes]
  · rwa [← List.length_append, ← List.length_append, hbytes]

namespace Shows

variable {b : Buffer} {d data : Text} {len : ℕ}

theorem readableBytes (h : b.Shows d) : b.readableBytes = d.length := by
  obtain ⟨front, rest, rfl, hfits⟩ := h.exists_laid
  exact readableBytes_laid hfits

/-! ## Taking bytes from the front -/

theorem retrieveAll (h : b.Shows d) : b.retrieveAll.Shows [] where
  valid := ⟨le_rfl, h.valid.cheapPrepend_le, h.valid.cheapPrepend_le, h.valid.length_lt⟩
  readable := by simp [Buffer.readable, Buffer.retrieveAll]

theorem retrieve (h : b.Shows d) (hlen : len ≤ d.length) :
    ∃ t, b.retrieve len = some t ∧ t.Shows (d.drop len) := by
  by_cases hlt : len < d.length
  · obtain ⟨front, rest, rfl, hfits⟩ := h.exists_laid
    have hsmall := hfits.length_lt
    have hmoved : ({ laid front d rest with readerIndex := sizeAdd front.length len } : Buffer) =
        laid (front ++ d.take len) (d.drop len) rest := by
      rw [sizeAdd_eq (by omega)]
      simp only [laid, List.append_assoc, List.length_append, List.length_take, List.length_drop,
        mk.injEq]
      refine ⟨by rw [← List.append_assoc (d.take len), List.take_append_drop], ?_, ?_⟩ <;> omega
    have hfits' : Fits (front ++ d.take len) (d.drop len) rest := by
      have hcheap := hfits.cheapPrepend_le
      constructor <;> simp only [List.length_append, List.length_take, List.length_drop] <;> omega
    refine ⟨_, ?_, hmoved ▸ shows_laid hfits'⟩
    simp [Buffer.retrieve, readableBytes_laid hfits, hlt, hlen]
  · have heq : len = d.length := by omega
    refine ⟨b.retrieveAll, ?_, ?_⟩
    · simp [Buffer.retrieve, h.readableBytes, heq]
    · rw [heq, List.drop_length]
      exact h.retrieveAll

theorem readAt (h : b.Shows d) (hlen : len ≤ d.length) :
    readAt b.bytes b.readerIndex len = some (d.take len) := by
  obtain ⟨front, rest, rfl, -⟩ := h.exists_laid
  have hsplit : front ++ d ++ rest = front ++ d.take len ++ (d.drop len ++ rest) := by
    simp only [List.append_assoc]
    rw [← List.append_assoc (d.take len), List.take_append_drop]
  have htake : (d.take len).length = len := List.length_take_of_le hlen
  have hread := readAt_append front (d.take len) (d.drop len ++ rest)
  rwa [← hsplit, htake] at hread

theorem retrieveUntil (h : b.Shows d) (hlen : len ≤ d.length) :
    b.retrieveUntil (b.readerIndex + len) = b.retrieve len := by
  obtain ⟨front, rest, rfl, hfits⟩ := h.exists_laid
  have hlt := hfits.length_lt
  have hsub : sizeSub (front.length + len) front.length = len := by
    rw [sizeSub_eq (by omega) (by omega)]
    omega
  simp only [Buffer.retrieveUntil, readerIndex_laid, writerIndex_laid, hsub, guard,
    Nat.le_add_right, Nat.add_le_add_iff_left, hlen, if_true]
  rfl

theorem retrieveAsString (h : b.Shows d) (hlen : len ≤ d.length) :
    ∃ t, b.retrieveAsString len = some (d.take len, t) ∧ t.Shows (d.drop len) := by
  obtain ⟨t, ht, hshows⟩ := h.retrieve hlen
  exact ⟨t, by simp [Buffer.retrieveAsString, h.readableBytes, hlen, h.readAt hlen, ht], hshows⟩

theorem peekInt (h : b.Shows d) {w : IntWidth} (hlen : w.size ≤ d.length) :
    b.peekInt w = some (decodeInt (d.take w.size)) := by
  simp [Buffer.peekInt, h.readableBytes, hlen, h.readAt hlen]

theorem readInt (h : b.Shows d) {w : IntWidth} (hlen : w.size ≤ d.length) {t : Buffer}
    (ht : b.retrieve w.size = some t) :
    b.readInt w = some (decodeInt (d.take w.size), t) := by
  simp [Buffer.readInt, Buffer.retrieveInt, h.peekInt hlen, ht]

/-! ## Adding bytes -/

theorem makeSpace (h : b.Shows d) (hroom : b.writableBytes < len)
    (hrequest : b.writerIndex + len < 2 ^ 63) :
    ∃ t, b.makeSpace len = some t ∧ t.Shows d ∧ len ≤ t.writableBytes := by
  obtain ⟨front, rest, rfl, hfits⟩ := h.exists_laid
  rw [writableBytes_laid hfits] at hroom
  rw [writerIndex_laid] at hrequest
  obtain ⟨front', rest', hspace, hfits', hlen⟩ : ∃ front' rest',
      (laid front d rest).makeSpace len = some (laid front' d rest') ∧ Fits front' d rest' ∧
        len ≤ rest'.length := by
    by_cases hgrow : rest.length + front.length < len + 8
    · exact ⟨front, grow_laid hfits hroom hrequest hgrow⟩
    · exact ⟨front.take 8, compact_laid hfits hroom hrequest (Nat.le_of_not_lt hgrow)⟩
  refine ⟨_, hspace, shows_laid hfits', ?_⟩
  rwa [writableBytes_laid hfits']

theorem ensureWritableBytes (h : b.Shows d) (hrequest : b.writerIndex + len < 2 ^ 63) :
    ∃ t, b.ensureWritableBytes len = some t ∧ t.Shows d ∧ len ≤ t.writableBytes := by
  by_cases hroom : b.writableBytes < len
  · obtain ⟨t, ht, hshows, hlen⟩ := h.makeSpace hroom hrequest
    exact ⟨t, by simp [Buffer.ensureWritableBytes, hroom, ht, hlen], hshows, hlen⟩
  · have hlen : len ≤ b.writableBytes := by omega
    exact ⟨b, by simp [Buffer.ensureWritableBytes, hroom, hlen], h, hlen⟩

theorem writableBytes (h : b.Shows d) : b.writerIndex + b.writableBytes = b.bytes.length := by
  obtain ⟨front, rest, rfl, hfits⟩ := h.exists_laid
  rw [writableBytes_laid hfits]
  simp [add_assoc]

/-- Bytes copied behind the readable ones become readable with `hasWritten`. -/
theorem fill (h : b.Shows d) (hlen : data.length ≤ b.writableBytes) :
    ∃ bytes, b.fill data = some { b with bytes := bytes } ∧ bytes.length = b.bytes.length ∧
      Shows { b with bytes := bytes, writerIndex := b.writerIndex + data.length } (d ++ data) := by
  obtain ⟨front, rest, rfl, hfits⟩ := h.exists_laid
  rw [writableBytes_laid hfits] at hlen
  have hlt := hfits.length_lt
  have hold : (rest.take data.length).length = data.length := List.length_take_of_le hlen
  have hwrite : writeAt (front ++ d ++ rest) (front.length + d.length) data =
      some (front ++ d ++ data ++ rest.drop data.length) := by
    rw [← writeAt_append hold, List.length_append, List.append_assoc (front ++ d),
      List.take_append_drop]
  have hfits' : Fits front (d ++ data) (rest.drop data.length) := by
    have hcheap := hfits.cheapPrepend_le
    constructor <;> simp only [List.length_append, List.length_drop] <;> omega
  refine ⟨front ++ d ++ data ++ rest.drop data.length, ?_, ?_, ?_⟩
  · rw [Buffer.fill, bytes_laid, writerIndex_laid, hwrite]
    rfl
  · simp only [bytes_laid, List.length_append, List.length_drop]
    omega
  · have hlaid : (⟨front ++ d ++ data ++ rest.drop data.length, front.length,
        front.length + d.length + data.length⟩ : Buffer) =
        laid front (d ++ data) (rest.drop data.length) := by
      simp [laid, add_assoc]
    exact hlaid ▸ shows_laid hfits'

theorem fill_hasWritten (h : b.Shows d) (hlen : data.length ≤ b.writableBytes) :
    ∃ t, ((b.fill data).bind fun t ↦ t.hasWritten data.length) = some t ∧ t.Shows (d ++ data) := by
  obtain ⟨bytes, hfill, hbytes, hshows⟩ := h.fill hlen
  have hwritable : Buffer.writableBytes { b with bytes := bytes } = b.writableBytes := by
    simp [Buffer.writableBytes, hbytes]
  have hadd : sizeAdd b.writerIndex data.length = b.writerIndex + data.length := by
    have := hshows.valid.writer_le
    have := hshows.valid.length_lt
    exact sizeAdd_eq (by simp only at *; omega)
  refine ⟨_, ?_, hshows⟩
  simp [hfill, Buffer.hasWritten, hwritable, hlen, hadd]

theorem append (h : b.Shows d) (hrequest : b.writerIndex + data.length < 2 ^ 63) :
    ∃ t, b.append data = some t ∧ t.Shows (d ++ data) := by
  obtain ⟨t, ht, hshows, hlen⟩ := h.ensureWritableBytes hrequest
  obtain ⟨u, hu, hshows'⟩ := hshows.fill_hasWritten hlen
  exact ⟨u, by simpa [Buffer.append, ht] using hu, hshows'⟩

theorem unwrite (h : b.Shows d) (hlen : len ≤ d.length) :
    ∃ t, b.unwrite len = some t ∧ t.Shows (d.take (d.length - len)) := by
  obtain ⟨front, rest, rfl, hfits⟩ := h.exists_laid
  have hlt := hfits.length_lt
  have hcheap := hfits.cheapPrepend_le
  have hlaid : ({ laid front d rest with
        writerIndex := sizeSub (front.length + d.length) len } : Buffer) =
      laid front (d.take (d.length - len)) (d.drop (d.length - len) ++ rest) := by
    rw [sizeSub_eq (by omega) (by omega)]
    simp only [laid, List.append_assoc, List.length_take, mk.injEq, true_and]
    refine ⟨by rw [← List.append_assoc (d.take _), List.take_append_drop], by omega⟩
  have hfits' : Fits front (d.take (d.length - len)) (d.drop (d.length - len) ++ rest) := by
    constructor <;> simp only [List.length_append, List.length_take, List.length_drop] <;> omega
  refine ⟨_, ?_, hlaid ▸ shows_laid hfits'⟩
  simp [Buffer.unwrite, readableBytes_laid hfits, hlen]

theorem prepend (h : b.Shows d) (hlen : data.length ≤ b.prependableBytes) :
    ∃ t, b.prepend data = some t ∧ t.Shows (data ++ d) := by
  obtain ⟨front, rest, rfl, hfits⟩ := h.exists_laid
  have hlt := hfits.length_lt
  have hcheap := hfits.cheapPrepend_le
  rw [prependableBytes, readerIndex_laid] at hlen
  have hkept : (front.take (front.length - data.length)).length = front.length - data.length :=
    List.length_take_of_le (by omega)
  have hold : (front.drop (front.length - data.length)).length = data.length := by
    rw [List.length_drop]
    omega
  have hwrite : writeAt (front ++ d ++ rest) (front.length - data.length) data =
      some (front.take (front.length - data.length) ++ data ++ (d ++ rest)) := by
    rw [← writeAt_append hold, hkept, List.take_append_drop, List.append_assoc]
  have hfits' : Fits (front.take (front.length - data.length)) (data ++ d) rest := by
    constructor <;> rw [hkept, List.length_append] <;> omega
  refine ⟨laid (front.take (front.length - data.length)) (data ++ d) rest, ?_, shows_laid hfits'⟩
  have hreader : sizeSub front.length data.length = front.length - data.length :=
    sizeSub_eq (by omega) hlen
  have hlaid : (⟨front.take (front.length - data.length) ++ data ++ (d ++ rest),
      front.length - data.length, front.length + d.length⟩ : Buffer) =
      laid (front.take (front.length - data.length)) (data ++ d) rest := by
    simp only [laid, hkept, List.append_assoc, List.length_append, mk.injEq, true_and]
    omega
  simp only [Buffer.prepend, prependableBytes, readerIndex_laid, bytes_laid, hreader, hwrite, guard,
    hlen, if_true, Option.bind_eq_bind, Option.pure_def, Option.bind_some, writerIndex_laid, hlaid]

/-! ## Whole buffers -/

theorem toStringPiece (h : b.Shows d) (hlen : d.length < 2 ^ 31) : b.toStringPiece = some d := by
  have hsize : (((d.length : ℤ).bmod (2 ^ 32)) % 2 ^ 64).toNat = d.length := by
    rw [bmod_eq_self hlen]
    omega
  rw [Buffer.toStringPiece, h.readableBytes, hsize, h.readAt le_rfl, List.take_length]

end Shows

theorem shows_new {initialSize : ℕ} (h : kCheapPrepend + initialSize < 2 ^ 63) :
    (new initialSize).Shows [] := by
  have hsize : (new initialSize).bytes.length = 8 + initialSize := by
    rw [new, List.length_replicate, sizeAdd_eq (by omega)]
  refine ⟨⟨le_rfl, ?_, ?_, ?_⟩, by simp [readable, new]⟩
  · rw [hsize]
    exact Nat.le_add_right _ _
  · rw [hsize]
    exact Nat.le_add_right _ _
  · rwa [hsize]

theorem shrink_eq (b : Buffer) (reserve : ℕ) :
    b.shrink reserve =
      ((new kInitialSize).ensureWritableBytes (sizeAdd b.readableBytes reserve)).bind fun other ↦
        b.toStringPiece.bind fun str ↦ other.append str := rfl

theorem readFd_received_eq (b : Buffer) (data : Text) :
    b.readFd (.received data) = (b.fill (data.take b.writableBytes)).bind fun t ↦
      if data.length ≤ b.writableBytes then
        some (((data.length : ℤ), none),
          { t with writerIndex := sizeAdd t.writerIndex data.length })
      else
        (Buffer.append (data.drop b.writableBytes)
          { t with writerIndex := t.bytes.length }).bind fun t ↦
            some (((data.length : ℤ), none), t) := rfl

namespace Shows

variable {b : Buffer} {d data : Text} {len : ℕ}

theorem shrink (h : b.Shows d) (hlen : d.length < 2 ^ 31) {reserve : ℕ}
    (hrequest : kCheapPrepend + d.length + reserve < 2 ^ 63) :
    ∃ t, b.shrink reserve = some t ∧ t.Shows d := by
  have hsum : sizeAdd d.length reserve = d.length + reserve := sizeAdd_eq (by omega)
  have hwriter : (new kInitialSize).writerIndex + (d.length + reserve) < 2 ^ 63 := by
    rwa [← Nat.add_assoc]
  have hnew : (new kInitialSize).Shows [] := shows_new (by norm_num)
  obtain ⟨other, hother, hshows, hroom⟩ := hnew.ensureWritableBytes hwriter
  have hwritable := hshows.writableBytes
  have hbytes := hshows.valid.length_lt
  have hspace : other.writerIndex + d.length < 2 ^ 63 := by omega
  obtain ⟨t, ht, hfinal⟩ := hshows.append hspace
  refine ⟨t, ?_, hfinal⟩
  rw [shrink_eq, h.readableBytes, hsum, hother, Option.bind_some, h.toStringPiece hlen,
    Option.bind_some, ht]

/-- A short read fills writable bytes; a long one fills all of them and goes
on through `append`. -/
theorem readFd (h : b.Shows d) (hrequest : b.writerIndex + data.length < 2 ^ 63) :
    ∃ t, b.readFd (.received data) = some (((data.length : ℤ), none), t) ∧
      t.Shows (d ++ data) := by
  have hsize := h.writableBytes
  have hfirst : (data.take b.writableBytes).length ≤ b.writableBytes := by simp
  obtain ⟨bytes, hfill, hbytes, hshows⟩ := h.fill hfirst
  by_cases hshort : data.length ≤ b.writableBytes
  · rw [List.take_of_length_le hshort] at hshows hfill
    refine ⟨_, ?_, hshows⟩
    have hadd : sizeAdd b.writerIndex data.length = b.writerIndex + data.length :=
      sizeAdd_eq (by omega)
    rw [readFd_received_eq, List.take_of_length_le hshort, hfill, Option.bind_some, if_pos hshort,
      hadd]
  · have htake : (data.take b.writableBytes).length = b.writableBytes :=
      List.length_take_of_le (by omega)
    have hfull : b.writerIndex + (data.take b.writableBytes).length = bytes.length := by
      rw [htake, hsize, hbytes]
    rw [hfull] at hshows
    have hspill : bytes.length + (data.drop b.writableBytes).length < 2 ^ 63 := by
      rw [hbytes, List.length_drop]
      omega
    obtain ⟨t, ht, hfinal⟩ := hshows.append hspill
    refine ⟨t, ?_, ?_⟩
    · rw [readFd_received_eq, hfill, Option.bind_some, if_neg hshort, ht, Option.bind_some]
    · rwa [List.append_assoc, List.take_append_drop] at hfinal

end Shows

end PpDSCache.Net.Buffer
