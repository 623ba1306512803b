import RasenArchive.Archive.Source

/-!
# Files and buffers as sources

The implementations of `RandomAccessRead`. A file answers one positioned read with fewer bytes than
it was asked for, or is interrupted, so its `read_exact_at` is a loop; a buffer in memory is copied
from, after a check of the range.

## Main definitions

* `PositionedFile W`: a file with states `W`, by its answers to one positioned read
* `File.readExactAt turns`: the loop of `read_exact_at`, for at most `turns` turns
* `readSliceExact`: the read from bytes in memory
* `IoCursor`, `FfiSource`: the sources that delegate to the two
* `PositionedFile.Scheduled F c`: `F` holds `c`, and answers with short reads and interrupts
* `positionedRead c offset n`: what a source with the bytes `c` is to answer

## Main results

* `File.readExactAt_scheduled`: the loop ends, with the bytes asked for or at the end of the file
* `sources_agree`: files and buffers answer alike
-/

namespace RasenArchive

/-! ## Bytes in memory -/

/-- `option.ok_or_else(|| io::Error::new(kind, message))`. -/
def okOrIo {α : Type} (x : Option α) (kind : IoErrorKind) (message : String) : Except IoError α :=
  match x with
  | some a => .ok a
  | none => .error ⟨kind, message⟩

/-- The bytes that `read_slice_exact` copies. -/
def sliceRange (source : Bytes) (offset n : ℕ) : Except IoError Bytes := do
  let start ← okOrIo (tryFrom 64 offset) .unexpectedEof "read offset too large"
  let stop ← okOrIo (checkedAdd 64 start n) .unexpectedEof "read range overflow"
  okOrIo (getRange source start stop) .unexpectedEof "failed to fill whole buffer"

/-- `read_slice_exact`, with the buffer it leaves. -/
def readSliceExact (source : Bytes) (offset : ℕ) (dst : Bytes) : Except IoError Unit × Bytes :=
  match sliceRange source offset dst.length with
  | .ok bytes => (.ok (), bytes)
  | .error e => (.error e, dst)

/-- `std::io::Cursor`, over any bytes. -/
structure IoCursor where
  inner : Bytes
  position : ℕ

/-- `read_exact_at` of `Cursor<T>`. The position of the cursor is neither read nor moved. -/
def IoCursor.readExactAt (cursor : IoCursor) : ℕ → Bytes → Except IoError Unit × Bytes :=
  readSliceExact cursor.inner

/-- `read_exact_at` of `&[u8]`. -/
def Slice.readExactAt (source : Bytes) : ℕ → Bytes → Except IoError Unit × Bytes :=
  readSliceExact source

/-- **A cursor reads like the bytes under it**, wherever its position is. -/
theorem IoCursor.readExactAt_eq (cursor : IoCursor) :
    cursor.readExactAt = Slice.readExactAt cursor.inner := rfl

/-- `read_exact_at` of `Arc<[u8]>`. -/
def Arc.readExactAt (source : Bytes) : ℕ → Bytes → Except IoError Unit × Bytes :=
  readSliceExact source

/-! ## Files -/

/-- A file, by its answers to `read_at(file, dst, offset)`: a number of bytes that were put at the
front of the buffer, or an error. The rest of the buffer may change too. -/
structure PositionedFile (W : Type) where
  readAt : W → (offset : ℕ) → (dst : Bytes) → Except IoError ℕ × Bytes × W
  length_readAt : ∀ w offset dst, (readAt w offset dst).2.1.length = dst.length
  readAt_le : ∀ w offset dst n, (readAt w offset dst).1 = .ok n → n ≤ dst.length

variable {W : Type}

/-- The offset after a read of `read` bytes. -/
def advanceOffset (offset read : ℕ) : Except IoError ℕ := do
  let read ← okOrIo (tryFrom 64 read) .other "read size overflow"
  okOrIo (checkedAdd 64 offset read) .other "read offset overflow"

/-- `read_exact_at` of `File`, for at most `turns` turns of its loop: the result, the buffer and the
file it leaves. -/
def File.readExactAt (F : PositionedFile W) :
    (turns offset : ℕ) → Bytes → W → Option (Except IoError Unit × Bytes × W)
  | 0, _, _, _ => none
  | turns + 1, offset, dst, w =>
    if dst = [] then some (.ok (), dst, w) else
    match F.readAt w offset dst with
    | (.error e, dst, w) =>
      if e.kind = .interrupted then File.readExactAt F turns offset dst w
      else some (.error e, dst, w)
    | (.ok read, dst, w) =>
      if read = 0 then some (.error ⟨.unexpectedEof, "failed to fill whole buffer"⟩, dst, w) else
      match advanceOffset offset read with
      | .error e => some (.error e, dst, w)
      | .ok offset =>
        -- the loop goes on with `dst[read..]`; what is in front of it stays
        (File.readExactAt F turns offset (dst.drop read) w).map fun rest =>
          (rest.1, dst.take read ++ rest.2.1, rest.2.2)

/-- `read_exact_at` of `BufReader<File>`, which goes past the buffer of the reader. -/
def BufReader.readExactAt (F : PositionedFile W) :
    (turns offset : ℕ) → Bytes → W → Option (Except IoError Unit × Bytes × W) :=
  File.readExactAt F

/-- `CallbackSource`: the callback answers with a status and the buffer it wrote to. -/
structure CallbackSource (W : Type) where
  readAt : Option (W → (offset : ℕ) → (dst : Bytes) → ℤ × Bytes × W)

/-- `read_exact_at` of `FfiSource::Callback`. -/
def CallbackSource.readExactAt (source : CallbackSource W) (offset : ℕ) (dst : Bytes) (w : W) :
    Except IoError Unit × Bytes × W :=
  match source.readAt with
  | none => (.error ⟨.other, "read_at callback is null"⟩, dst, w)
  | some readAt =>
    let (status, dst, w) := readAt w offset dst
    (if status = 0 then .ok () else .error ⟨.other, s!"read_at callback failed: {status}"⟩, dst, w)

/-- `FfiSource`, the sources of the C interface. -/
inductive FfiSource (W : Type) where
  | memory (bytes : Bytes)
  | file (F : PositionedFile W)
  | callback (source : CallbackSource W)

/-- `read_exact_at` of `FfiSource`, for at most `turns` turns of the loop of a file. -/
def FfiSource.readExactAt (turns offset : ℕ) (dst : Bytes) (w : W) :
    FfiSource W → Option (Except IoError Unit × Bytes × W)
  | .memory bytes =>
    let (result, dst) := readSliceExact bytes offset dst
    some (result, dst, w)
  | .file F => File.readExactAt F turns offset dst w
  | .callback source => some (source.readExactAt offset dst w)

/-! ## One positioned read -/

/-- What a source with the bytes `c` is to answer to a read of `n` bytes at `offset`. -/
def positionedRead (c : Bytes) (offset n : ℕ) : Except IoErrorKind Bytes :=
  if offset + n ≤ c.length then .ok (c.extract offset (offset + n)) else .error .unexpectedEof

/-- What a caller sees of a read: the bytes in its buffer, or the kind of the error. -/
def readOutcome : Except IoError Unit × Bytes → Except IoErrorKind Bytes
  | (.ok (), dst) => .ok dst
  | (.error e, _) => .error e.kind

section Slice

variable {c : Bytes} (hc : c.length < 2 ^ 64) {offset n : ℕ}

include hc in
theorem sliceRange_of_le (hle : offset + n ≤ c.length) :
    sliceRange c offset n = .ok (c.extract offset (offset + n)) := by
  have hstart : tryFrom 64 offset = some offset := if_pos (by omega)
  have hstop : checkedAdd 64 offset n = some (offset + n) := if_pos (by omega)
  have hget : getRange c offset (offset + n) = some (c.extract offset (offset + n)) :=
    if_pos ⟨by omega, hle⟩
  unfold sliceRange
  rw [hstart]
  simp only [okOrIo, bind, Except.bind, hstop, hget]

/-- The message of a read that does not fit the bytes in memory. -/
def sliceMessage (offset n : ℕ) : String :=
  if offset < 2 ^ 64 then
    if offset + n < 2 ^ 64 then "failed to fill whole buffer" else "read range overflow"
  else "read offset too large"

theorem sliceRange_of_lt (hlt : c.length < offset + n) :
    sliceRange c offset n = .error ⟨.unexpectedEof, sliceMessage offset n⟩ := by
  have hget : getRange c offset (offset + n) = none := if_neg (by omega)
  unfold sliceRange sliceMessage tryFrom
  -- whichever of the three checks is the first to fail, the error is of one kind
  split_ifs with hoffset hsum
  · have hstop : checkedAdd 64 offset n = some (offset + n) := if_pos hsum
    simp only [okOrIo, bind, Except.bind, hstop, hget]
  · have hstop : checkedAdd 64 offset n = none := if_neg hsum
    simp only [okOrIo, bind, Except.bind, hstop]
  · rfl

include hc

theorem readSliceExact_outcome (offset : ℕ) (dst : Bytes) :
    readOutcome (readSliceExact c offset dst) = positionedRead c offset dst.length := by
  unfold readSliceExact positionedRead
  split_ifs with hle
  · rw [sliceRange_of_le hc hle]
    rfl
  · rw [sliceRange_of_lt (by omega)]
    rfl

/-- **The source of the readers** that takes bytes in memory reads them with `read_slice_exact`. -/
theorem sliceSource_readExactAt (hoffset : offset < 2 ^ 64) (dst : Bytes) :
    sliceSource.readExactAt c offset dst =
      ((readSliceExact c offset dst).1, (readSliceExact c offset dst).2, c) := by
  rcases Nat.lt_or_ge c.length (offset + dst.length) with hlt | hle
  · have hget : getRange c offset (offset + dst.length) = none := if_neg (by omega)
    simp only [sliceSource, hget, readSliceExact, sliceRange_of_lt hlt, sliceMessage,
      if_pos hoffset]
  · simp only [sliceSource_read hle, readSliceExact, sliceRange_of_le hc hle]

end Slice

/-! ## Short reads and interrupts -/

/-- The read of `n` bytes at `offset` is interrupted in the state `w` and left in `w'`. -/
def PositionedFile.Interrupts (F : PositionedFile W) (offset n : ℕ) (w' w : W) : Prop :=
  ∃ dst e dst', dst.length = n ∧ F.readAt w offset dst = (.error e, dst', w')

/-- The file holds the bytes `c`. A read gives some of them, none exactly at or past the end, or is
interrupted; no read is interrupted for ever. -/
structure PositionedFile.Scheduled (F : PositionedFile W) (c : Bytes) : Prop where
  content : ∀ w offset dst read dst' w', dst ≠ [] → F.readAt w offset dst = (.ok read, dst', w') →
    dst'.take read = c.extract offset (offset + read)
  atEnd : ∀ w offset dst read dst' w', dst ≠ [] → F.readAt w offset dst = (.ok read, dst', w') →
    (read = 0 ↔ c.length ≤ offset)
  interrupted : ∀ w offset dst e dst' w', F.readAt w offset dst = (.error e, dst', w') →
    e.kind = .interrupted
  finite : ∀ offset n w, Acc (F.Interrupts offset n) w

theorem length_of_readAt_eq (F : PositionedFile W) {w w' : W} {offset : ℕ} {dst dst' : Bytes}
    {result : Except IoError ℕ} (hr : F.readAt w offset dst = (result, dst', w')) :
    dst'.length = dst.length := by
  have hlen := F.length_readAt w offset dst
  rwa [hr] at hlen

theorem readAt_le_of_eq (F : PositionedFile W) {w w' : W} {offset read : ℕ} {dst dst' : Bytes}
    (hr : F.readAt w offset dst = (.ok read, dst', w')) : read ≤ dst.length :=
  F.readAt_le w offset dst read (by rw [hr])

/-- A read of some bytes does not go past the end of the content. -/
theorem le_length_of_take_eq {c dst dst' : Bytes} {offset read : ℕ} (hpos : 0 < read)
    (hread : read ≤ dst.length) (hlen : dst'.length = dst.length)
    (hcontent : dst'.take read = c.extract offset (offset + read)) :
    offset + read ≤ c.length := by
  have hcount := congrArg List.length hcontent
  simp only [List.length_take, List.extract_eq_take_drop, List.length_drop] at hcount
  omega

/-- The loop, with any number of turns from some number on, leaves the outcome of one positioned
read in the buffer. -/
def File.Settles (F : PositionedFile W) (c : Bytes) (offset : ℕ) (dst : Bytes) (w : W) : Prop :=
  ∃ enough, ∀ turns, enough ≤ turns → ∃ result dst' w',
    File.readExactAt F turns offset dst w = some (result, dst', w') ∧
    readOutcome (result, dst') = positionedRead c offset dst.length

section Scheduled

variable {F : PositionedFile W} {c : Bytes} (h : F.Scheduled c)

theorem File.settles_nil {offset : ℕ} (hle : offset ≤ c.length) (w : W) :
    File.Settles F c offset [] w := by
  refine ⟨1, fun turns hturns => ⟨.ok (), [], w, ?_, ?_⟩⟩
  · obtain ⟨turns, rfl⟩ := Nat.exists_eq_add_of_le' hturns
    exact if_pos rfl
  · have hempty : c.extract offset offset = [] := by simp [List.extract_eq_take_drop]
    simp only [positionedRead, List.length_nil, Nat.add_zero, if_pos hle, hempty]
    rfl

/-- An interrupted read is made again. -/
theorem File.settles_of_interrupted {offset : ℕ} {dst dst' : Bytes} {w w' : W} {e : IoError}
    (hdst : dst ≠ []) (hr : F.readAt w offset dst = (.error e, dst', w'))
    (he : e.kind = .interrupted) (hnext : File.Settles F c offset dst' w') :
    File.Settles F c offset dst w := by
  obtain ⟨enough, hnext⟩ := hnext
  refine ⟨enough + 1, fun turns hturns => ?_⟩
  obtain ⟨turns, rfl⟩ := Nat.exists_eq_add_of_le' (Nat.le_of_add_left_le hturns)
  obtain ⟨result, last, w₁, hrun, hout⟩ := hnext turns (by omega)
  refine ⟨result, last, w₁, ?_, ?_⟩
  · simp only [File.readExactAt, if_neg hdst, hr, if_pos he, hrun]
  · rw [hout, length_of_readAt_eq F hr]

/-- A read without bytes is at the end of the file. -/
theorem File.settles_of_zero {offset : ℕ} {dst dst' : Bytes} {w w' : W} (hdst : dst ≠ [])
    (hr : F.readAt w offset dst = (.ok 0, dst', w')) (hend : c.length ≤ offset) :
    File.Settles F c offset dst w := by
  refine ⟨1, fun turns hturns => ?_⟩
  obtain ⟨turns, rfl⟩ := Nat.exists_eq_add_of_le' hturns
  refine ⟨_, dst', w', by simp only [File.readExactAt, if_neg hdst, hr]; rfl, ?_⟩
  have hpos := List.length_pos_iff.mpr hdst
  unfold positionedRead
  rw [if_neg (by omega)]
  rfl

/-- After a short read the rest of the buffer is read from behind it. -/
theorem File.settles_of_read (hc : c.length < 2 ^ 64) {offset read : ℕ} {dst dst' : Bytes}
    {w w' : W} (hdst : dst ≠ []) (hr : F.readAt w offset dst = (.ok read, dst', w'))
    (hpos : 0 < read) (hcontent : dst'.take read = c.extract offset (offset + read))
    (hnext : File.Settles F c (offset + read) (dst'.drop read) w') :
    File.Settles F c offset dst w := by
  have hlen := length_of_readAt_eq F hr
  have hread := readAt_le_of_eq F hr
  have hfits := le_length_of_take_eq hpos hread hlen hcontent
  have hadvance : advanceOffset offset read = .ok (offset + read) := by
    have hsum : checkedAdd 64 offset read = some (offset + read) := if_pos (by omega)
    have hsize : tryFrom 64 read = some read := if_pos (by omega)
    unfold advanceOffset
    rw [hsize]
    simp only [okOrIo, bind, Except.bind, hsum]
  obtain ⟨enough, hnext⟩ := hnext
  refine ⟨enough + 1, fun turns hturns => ?_⟩
  obtain ⟨turns, rfl⟩ := Nat.exists_eq_add_of_le' (Nat.le_of_add_left_le hturns)
  obtain ⟨result, rest, w₁, hrun, hout⟩ := hnext turns (by omega)
  refine ⟨result, dst'.take read ++ rest, w₁, ?_, ?_⟩
  · simp only [File.readExactAt, if_neg hdst, hr, if_neg (Nat.pos_iff_ne_zero.mp hpos), hadvance,
      hrun, Option.map_some]
  · -- the two windows side by side are the one that was asked for
    have hrest : offset + read + (dst'.drop read).length = offset + dst.length := by
      rw [List.length_drop]
      omega
    unfold positionedRead at hout ⊢
    rw [hrest] at hout
    split_ifs at hout ⊢ with hle
    · cases result with
      | error e => cases hout
      | ok u =>
        cases hout
        have hjoin : c.extract offset (offset + read) ++
            c.extract (offset + read) (offset + dst.length) =
              c.extract offset (offset + dst.length) :=
          extract_append_extract (by omega) (by omega)
        rw [hcontent, hjoin]
        rfl
    · cases result with
      | error e => exact hout
      | ok u => cases hout

include h

/-- **The loop over short reads and interrupts** ends, and its outcome is that of one positioned
read. -/
theorem File.readExactAt_scheduled (hc : c.length < 2 ^ 64) {offset : ℕ} {dst : Bytes}
    (hreq : dst ≠ [] ∨ offset ≤ c.length) (w : W) : File.Settles F c offset dst w := by
  -- on the number of bytes to read, and for one number on the interrupts of the next read
  induction hn : dst.length using Nat.strong_induction_on generalizing offset dst w with
  | _ n ihread =>
    induction h.finite offset n w generalizing dst with
    | intro w _ ihretry =>
      rcases Decidable.em (dst = []) with rfl | hdst
      · exact File.settles_nil (hreq.resolve_left (by simp)) w
      · rcases hr : F.readAt w offset dst with ⟨e | read, dst', w'⟩
        · have hlen := length_of_readAt_eq F hr
          have hdst' : dst' ≠ [] := List.length_pos_iff.mp (by
            rw [hlen]
            exact List.length_pos_iff.mpr hdst)
          have hnext := ihretry w' ⟨dst, e, dst', hn, hr⟩ (Or.inl hdst') (hlen.trans hn)
          exact File.settles_of_interrupted hdst hr (h.interrupted _ _ _ _ _ _ hr) hnext
        · rcases Nat.eq_zero_or_pos read with rfl | hpos
          · exact File.settles_of_zero hdst hr ((h.atEnd _ _ _ _ _ _ hdst hr).mp rfl)
          · have hcontent := h.content _ _ _ _ _ _ hdst hr
            have hfits := le_length_of_take_eq hpos (readAt_le_of_eq F hr)
              (length_of_readAt_eq F hr) hcontent
            have hlen : (dst'.drop read).length < n := by
              rw [List.length_drop, length_of_readAt_eq F hr, hn]
              have := List.length_pos_iff.mpr hdst
              omega
            have hnext := ihread _ hlen (Or.inr hfits) w' rfl
            exact File.settles_of_read hc hdst hr hpos hcontent hnext

end Scheduled

/-- **One positioned read.** A file that answers with short reads and interrupts, bytes in memory,
a cursor over them, and the sources of the C interface all give the window of the content that was
asked for, or all fail at its end. -/
theorem sources_agree {F : PositionedFile W} {c : Bytes} (hc : c.length < 2 ^ 64)
    (h : F.Scheduled c) (offset : ℕ) {dst : Bytes} (hdst : dst ≠ []) (w : W) :
    (∃ enough, ∀ turns, enough ≤ turns → ∃ result dst' w',
      File.readExactAt F turns offset dst w = some (result, dst', w') ∧
      BufReader.readExactAt F turns offset dst w = some (result, dst', w') ∧
      (FfiSource.file F).readExactAt turns offset dst w = some (result, dst', w') ∧
      readOutcome (result, dst') = positionedRead c offset dst.length) ∧
    (∀ position, readOutcome (IoCursor.readExactAt ⟨c, position⟩ offset dst) =
      positionedRead c offset dst.length) ∧
    readOutcome (Slice.readExactAt c offset dst) = positionedRead c offset dst.length ∧
    readOutcome (Arc.readExactAt c offset dst) = positionedRead c offset dst.length ∧
    (∀ turns, ∃ result dst',
      (FfiSource.memory c).readExactAt turns offset dst w = some (result, dst', w) ∧
      readOutcome (result, dst') = positionedRead c offset dst.length) := by
  have hslice := readSliceExact_outcome hc offset dst
  have hcursor : ∀ position, readOutcome (IoCursor.readExactAt ⟨c, position⟩ offset dst) =
      positionedRead c offset dst.length := by
    intro position
    rw [IoCursor.readExactAt_eq]
    exact hslice
  refine ⟨?_, hcursor, hslice, hslice, fun _ => ⟨_, _, rfl, hslice⟩⟩
  obtain ⟨enough, hrun⟩ := File.readExactAt_scheduled h hc (Or.inl hdst) w
  refine ⟨enough, fun turns hturns => ?_⟩
  obtain ⟨result, dst', w', hr, hout⟩ := hrun turns hturns
  exact ⟨result, dst', w', hr, hr, hr, hout⟩

/-- A file that is interrupted as often as its state says, and gives one byte with each read after
that. -/
def byteFile (c : Bytes) : PositionedFile ℕ where
  readAt w offset dst :=
    match w with
    | w + 1 => (.error ⟨.interrupted, "operation interrupted"⟩, dst, w)
    | 0 =>
      let bytes := c.extract offset (offset + min 1 dst.length)
      (.ok bytes.length, overwrite dst 0 bytes, 0)
  length_readAt w offset dst := by
    cases w with
    | succ w => rfl
    | zero =>
      have hlen : (c.extract offset (offset + min 1 dst.length)).length ≤ dst.length := by
        simp only [List.extract_eq_take_drop, List.length_take, List.length_drop]
        omega
      exact length_overwrite (by omega)
  readAt_le w offset dst n hr := by
    cases w with
    | succ w => cases hr
    | zero =>
      cases hr
      simp only [List.extract_eq_take_drop, List.length_take, List.length_drop]
      omega

theorem byteFile_scheduled (c : Bytes) : (byteFile c).Scheduled c where
  content w offset dst read dst' w' _ hr := by
    cases w with
    | succ w => cases hr
    | zero =>
      cases hr
      rw [overwrite_zero, List.take_left]
      simp only [List.extract_eq_take_drop, List.length_take, List.length_drop,
        Nat.add_sub_cancel_left]
      rw [List.take_eq_take_iff, List.length_drop]
      omega
  atEnd w offset dst read dst' w' hdst hr := by
    have hpos := List.length_pos_iff.mpr hdst
    cases w with
    | succ w => cases hr
    | zero =>
      cases hr
      simp only [List.extract_eq_take_drop, List.length_take, List.length_drop]
      omega
  interrupted w offset dst e dst' w' hr := by
    cases w with
    | succ w =>
      cases hr
      rfl
    | zero => cases hr
  finite offset n w := by
    refine Subrelation.accessible ?_ (wellFounded_lt.apply w)
    rintro w' w ⟨dst, e, dst', -, hr⟩
    cases w with
    | succ w =>
      cases hr
      exact Nat.lt_succ_self _
    | zero => cases hr

theorem sources_agree_byteFile :
    (∃ enough, ∀ turns, enough ≤ turns → ∃ result dst' w',
      File.readExactAt (byteFile [10, 20, 30]) turns 1 [0, 0] 5 = some (result, dst', w') ∧
      readOutcome (result, dst') = .ok [20, 30]) ∧
    readOutcome (Slice.readExactAt [10, 20, 30] 1 [0, 0]) = .ok [20, 30] := by
  obtain ⟨⟨enough, hrun⟩, -, hslice, -⟩ := sources_agree (show [10, 20, 30].length < 2 ^ 64 by decide)
    (byteFile_scheduled [10, 20, 30]) 1 (show [0, 0] ≠ [] by decide) 5
  refine ⟨⟨enough, fun turns hturns => ?_⟩, hslice⟩
  obtain ⟨result, dst', w', hr, -, -, hout⟩ := hrun turns hturns
  exact ⟨result, dst', w', hr, hout⟩

end RasenArchive
