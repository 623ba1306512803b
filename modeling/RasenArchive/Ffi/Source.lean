import RasenArchive.Archive.File

/-!
# The sources of the C interface

What an archive that was opened through the C interface reads from: bytes in memory, a file, or the
callbacks of the caller. All of them act on one state, of the system and of the caller.

## Main definitions

* `StdFile`: a file whose reads end
* `RasenSource`: the callbacks of the caller
* `ArchiveSource`, `ArchiveSource.access`: the sources, as what an archive reads from

## Main results

* `ArchiveSource.readExactAt_eq`: reads are those of `FfiSource`
* `memory_presents`, `file_presents`, `callback_presents`: bytes in memory, files with short reads and
  interrupts, and callbacks present their bytes alike
-/

namespace RasenArchive

variable {U : Type}

/-! ## Files -/

section File

variable (F : PositionedFile U)

theorem length_of_fileReadExactAt {turns offset : ℕ} {dst dst' : Bytes} {u u' : U}
    {result : Except IoError Unit}
    (h : File.readExactAt F turns offset dst u = some (result, dst', u')) :
    dst'.length = dst.length := by
  induction turns generalizing offset dst dst' u u' result with
  | zero => cases h
  | succ turns ih =>
    unfold File.readExactAt at h
    split_ifs at h with hempty
    · cases h
      rfl
    rcases hr : F.readAt u offset dst with ⟨e | read, dst₁, u₁⟩
    · have hlen := length_of_readAt_eq F hr
      simp only [hr] at h
      split_ifs at h with he
      · exact (ih h).trans hlen
      · cases h
        exact hlen
    · have hlen := length_of_readAt_eq F hr
      simp only [hr] at h
      split_ifs at h with hzero
      · cases h
        exact hlen
      · cases hadvance : advanceOffset offset read with
        | error e =>
          simp only [hadvance, Option.some.injEq, Prod.mk.injEq] at h
          rw [← h.2.1]
          exact hlen
        | ok offset' =>
          simp only [hadvance, Option.map_eq_some_iff] at h
          obtain ⟨⟨result', rest, u₂⟩, hrest, heq⟩ := h
          have hrestlen := ih hrest
          have hread := readAt_le_of_eq F hr
          cases heq
          rw [List.length_append, hrestlen, List.length_take, List.length_drop]
          omega

/-- More turns do not change a read that has ended. -/
theorem fileReadExactAt_succ {turns offset : ℕ} {dst : Bytes} {u : U}
    {r : Except IoError Unit × Bytes × U} (h : File.readExactAt F turns offset dst u = some r) :
    File.readExactAt F (turns + 1) offset dst u = some r := by
  induction turns generalizing offset dst u r with
  | zero => cases h
  | succ turns ih =>
    unfold File.readExactAt at h ⊢
    split_ifs at h ⊢ with hempty
    · exact h
    rcases hr : F.readAt u offset dst with ⟨e | read, dst₁, u₁⟩
    · simp only [hr] at h ⊢
      split_ifs at h ⊢ with he
      · exact ih h
      · exact h
    · simp only [hr] at h ⊢
      split_ifs at h ⊢ with hzero
      · exact h
      · cases hadvance : advanceOffset offset read with
        | error e => simpa only [hadvance] using h
        | ok offset' =>
          simp only [hadvance, Option.map_eq_some_iff] at h ⊢
          obtain ⟨rest, hrest, heq⟩ := h
          exact ⟨rest, ih hrest, heq⟩

theorem fileReadExactAt_of_le {turns turns' offset : ℕ} {dst : Bytes} {u : U}
    {r : Except IoError Unit × Bytes × U} (h : File.readExactAt F turns offset dst u = some r)
    (hle : turns ≤ turns') : File.readExactAt F turns' offset dst u = some r := by
  induction turns', hle using Nat.le_induction with
  | base => exact h
  | succ turns' _ ih => exact fileReadExactAt_succ F ih

/-- What every positioned read keeps is kept by the loop. -/
theorem keeps_of_fileReadExactAt {P : U → Prop} (hkeeps : ∀ u offset dst, P u →
    P (F.readAt u offset dst).2.2) {turns offset : ℕ} {dst dst' : Bytes} {u u' : U}
    {result : Except IoError Unit} (hu : P u)
    (h : File.readExactAt F turns offset dst u = some (result, dst', u')) : P u' := by
  induction turns generalizing offset dst dst' u u' result with
  | zero => cases h
  | succ turns ih =>
    unfold File.readExactAt at h
    split_ifs at h with hempty
    · cases h
      exact hu
    have hnext := hkeeps u offset dst hu
    rcases hr : F.readAt u offset dst with ⟨e | read, dst₁, u₁⟩
    · rw [hr] at hnext
      simp only [hr] at h
      split_ifs at h with he
      · exact ih hnext h
      · cases h
        exact hnext
    · rw [hr] at hnext
      simp only [hr] at h
      split_ifs at h with hzero
      · cases h
        exact hnext
      · cases hadvance : advanceOffset offset read with
        | error e =>
          simp only [hadvance, Option.some.injEq, Prod.mk.injEq] at h
          exact h.2.2 ▸ hnext
        | ok offset' =>
          simp only [hadvance, Option.map_eq_some_iff] at h
          obtain ⟨⟨result', rest, u₂⟩, hrest, heq⟩ := h
          cases heq
          exact ih hnext hrest

end File

/-- `File`: the loop of every read ends, since no read is interrupted for ever. -/
structure StdFile (U : Type) extends PositionedFile U where
  len : U → Except IoError ℕ × U
  ends : ∀ offset dst u, ∃ turns, (File.readExactAt toPositionedFile turns offset dst u).isSome

/-- `read_exact_at` of `File`, with as many turns as it takes. -/
def StdFile.readExactAt (file : StdFile U) (u : U) (offset : ℕ) (dst : Bytes) :
    Except IoError Unit × Bytes × U :=
  (File.readExactAt file.toPositionedFile (Nat.find (file.ends offset dst u)) offset dst u).get
    (Nat.find_spec (file.ends offset dst u))

theorem StdFile.readExactAt_eq (file : StdFile U) (u : U) (offset : ℕ) (dst : Bytes) :
    ∃ turns, File.readExactAt file.toPositionedFile turns offset dst u =
      some (file.readExactAt u offset dst) :=
  ⟨_, (Option.some_get _).symm⟩

/-- A read that ends in some number of turns is the read of the file. -/
theorem StdFile.readExactAt_of_some {file : StdFile U} {turns offset : ℕ} {dst : Bytes} {u : U}
    {r : Except IoError Unit × Bytes × U}
    (h : File.readExactAt file.toPositionedFile turns offset dst u = some r) :
    file.readExactAt u offset dst = r := by
  obtain ⟨turns', h'⟩ := file.readExactAt_eq u offset dst
  have hmax := fileReadExactAt_of_le _ h (Nat.le_max_left turns turns')
  rw [fileReadExactAt_of_le _ h' (Nat.le_max_right turns turns')] at hmax
  exact Option.some.inj hmax

/-! ## Sources -/

/-- `RasenSource`. A callback writes to the buffer that it is given, and nowhere else. -/
structure RasenSource (U : Type) extends CallbackSource U where
  len : ℕ
  destroy : Option (U → U)
  len_lt : len < 2 ^ 64
  length_readAt : ∀ {f}, readAt = some f → ∀ u offset dst,
    (f u offset dst).2.1.length = dst.length

theorem okOrIo_bind_eq_ok {α β : Type} {x : Option α} {kind : IoErrorKind} {message : String}
    {f : α → Except IoError β} {b : β} :
    (okOrIo x kind message >>= f) = .ok b ↔ ∃ a, x = some a ∧ f a = .ok b := by
  cases x <;> simp [okOrIo, bind, Except.bind]

theorem length_of_sliceRange {source bytes : Bytes} {offset n : ℕ}
    (h : sliceRange source offset n = .ok bytes) : bytes.length = n := by
  simp only [sliceRange, okOrIo_bind_eq_ok, tryFrom_eq_some_iff, checkedAdd_eq_some_iff] at h
  obtain ⟨_, ⟨-, rfl⟩, _, ⟨-, rfl⟩, h⟩ := h
  cases hget : getRange source offset (offset + n) with
  | none =>
    rw [hget] at h
    cases h
  | some found =>
    rw [hget] at h
    obtain rfl := Except.ok.inj h
    obtain ⟨⟨-, hle⟩, rfl⟩ := getRange_eq_some_iff.mp hget
    rw [length_extract hle, Nat.add_sub_cancel_left]

/-- `FfiSource`, with the length of each source. -/
inductive ArchiveSource (U : Type) where
  | memory (bytes : Bytes)
  | file (file : StdFile U)
  | callback (source : RasenSource U)

/-- The source without its length. -/
def ArchiveSource.toFfi : ArchiveSource U → FfiSource U
  | .memory bytes => .memory bytes
  | .file f => .file f.toPositionedFile
  | .callback source => .callback source.toCallbackSource

/-- `RandomAccessRead` for `FfiSource::Memory`. -/
def memorySource (bytes : Bytes) : RandomAccessRead U where
  len u := (okOrIo (tryFrom 64 bytes.length) .other "source length overflow", u)
  readExactAt u offset dst :=
    ((readSliceExact bytes offset dst).1, (readSliceExact bytes offset dst).2, u)
  length_readExactAt u offset dst := by
    unfold readSliceExact
    cases hr : sliceRange bytes offset dst.length with
    | error e => rfl
    | ok found => exact length_of_sliceRange hr

/-- `RandomAccessRead` for `FfiSource::File`. -/
def fileSource (file : StdFile U) : RandomAccessRead U where
  len := file.len
  readExactAt := file.readExactAt
  length_readExactAt u offset dst := by
    obtain ⟨turns, h⟩ := file.readExactAt_eq u offset dst
    exact length_of_fileReadExactAt _ h

/-- `RandomAccessRead` for `FfiSource::Callback`. -/
def callbackSource (source : RasenSource U) : RandomAccessRead U where
  len u := (.ok source.len, u)
  readExactAt u offset dst := source.toCallbackSource.readExactAt offset dst u
  length_readExactAt u offset dst := by
    unfold CallbackSource.readExactAt
    cases hread : source.readAt with
    | none => rfl
    | some f => exact source.length_readAt hread u offset dst

/-- `RandomAccessRead` for `FfiSource`. -/
def ArchiveSource.access : ArchiveSource U → RandomAccessRead U
  | .memory bytes => memorySource bytes
  | .file f => fileSource f
  | .callback source => callbackSource source

/-- **Reads are those of `FfiSource`.** -/
theorem ArchiveSource.readExactAt_eq (source : ArchiveSource U) (u : U) (offset : ℕ)
    (dst : Bytes) : ∃ turns, source.toFfi.readExactAt turns offset dst u =
      some (source.access.readExactAt u offset dst) := by
  cases source with
  | memory bytes => exact ⟨0, rfl⟩
  | file f => exact f.readExactAt_eq u offset dst
  | callback source => exact ⟨0, rfl⟩

/-! ## Sources that present bytes -/

section Presents

variable {P : U → Prop} {c : Bytes}

/-- **Bytes in memory** present themselves. -/
theorem memory_presents (hlt : c.length < 2 ^ 64) :
    Presents (ArchiveSource.memory c).access P c where
  len u hu := by
    have hlen : tryFrom 64 c.length = some c.length := if_pos hlt
    refine ⟨u, ?_, hu⟩
    show (okOrIo (tryFrom 64 c.length) _ _, u) = _
    rw [hlen]
    rfl
  read u offset dst hu hle := by
    refine ⟨u, ?_, hu⟩
    show ((readSliceExact c offset dst).1, (readSliceExact c offset dst).2, u) = _
    rw [readSliceExact, sliceRange_of_le hlt hle]
  eof u offset dst hu _ hend := by
    refine ⟨⟨.unexpectedEof, sliceMessage offset dst.length⟩, dst, u, ?_, hu⟩
    show ((readSliceExact c offset dst).1, (readSliceExact c offset dst).2, u) = _
    rw [readSliceExact, sliceRange_of_lt hend]

/-- In the states of `P`, the file holds the bytes `c`: it answers with short reads and interrupts,
and stays in `P`. -/
structure StdFile.Holds (file : StdFile U) (P : U → Prop) (c : Bytes) : Prop where
  scheduled : file.Scheduled c
  len : ∀ u, P u → ∃ u', file.len u = (.ok c.length, u') ∧ P u'
  keeps : ∀ u offset dst, P u → P (file.readAt u offset dst).2.2

/-- **A file** presents what it holds, whatever its reads are. -/
theorem file_presents {file : StdFile U} (hlt : c.length < 2 ^ 64) (h : file.Holds P c) :
    Presents (ArchiveSource.file file).access P c := by
  have hread : ∀ u offset dst, P u → dst ≠ [] ∨ offset ≤ c.length → ∃ result dst' u',
      file.readExactAt u offset dst = (result, dst', u') ∧ P u' ∧
        readOutcome (result, dst') = positionedRead c offset dst.length := by
    intro u offset dst hu hreq
    obtain ⟨enough, hsettles⟩ := File.readExactAt_scheduled h.scheduled hlt hreq u
    obtain ⟨result, dst', u', hrun, hout⟩ := hsettles enough le_rfl
    exact ⟨result, dst', u', StdFile.readExactAt_of_some hrun,
      keeps_of_fileReadExactAt _ h.keeps hu hrun, hout⟩
  refine ⟨h.len, fun u offset dst hu hle => ?_, fun u offset dst hu hne hend => ?_⟩
  · obtain ⟨result, dst', u', hr, hu', hout⟩ := hread u offset dst hu (Or.inr (by omega))
    rw [positionedRead, if_pos hle] at hout
    obtain e | ⟨⟨⟩⟩ := result
    · cases hout
    · cases hout
      exact ⟨u', hr, hu'⟩
  · obtain ⟨result, dst', u', hr, hu', hout⟩ := hread u offset dst hu (Or.inl hne)
    rw [positionedRead, if_neg (by omega)] at hout
    obtain e | ⟨⟨⟩⟩ := result
    · exact ⟨e, dst', u', hr, hu'⟩
    · cases hout

/-- In the states of `P`, the callbacks give the bytes `c`, and fail past their end. -/
structure RasenSource.Gives (source : RasenSource U) (P : U → Prop) (c : Bytes) : Prop where
  len : source.len = c.length
  read : ∃ f, source.readAt = some f ∧ ∀ u offset dst, P u →
    (offset + dst.length ≤ c.length →
      ∃ u', f u offset dst = (0, c.extract offset (offset + dst.length), u') ∧ P u') ∧
    (c.length < offset + dst.length → ∃ status dst' u', status ≠ 0 ∧
      f u offset dst = (status, dst', u') ∧ P u')

/-- **Callbacks** present what they give. -/
theorem callback_presents {source : RasenSource U} (h : source.Gives P c) :
    Presents (ArchiveSource.callback source).access P c := by
  obtain ⟨hlen, f, hf, hgives⟩ := h
  refine ⟨fun u hu => ⟨u, ?_, hu⟩, fun u offset dst hu hle => ?_, fun u offset dst hu _ hend => ?_⟩
  · show (Except.ok source.len, u) = _
    rw [hlen]
  · obtain ⟨u', hr, hu'⟩ := (hgives u offset dst hu).1 hle
    refine ⟨u', ?_, hu'⟩
    show source.toCallbackSource.readExactAt offset dst u = _
    simp only [CallbackSource.readExactAt, hf, hr, if_true]
  · obtain ⟨status, dst', u', hstatus, hr, hu'⟩ := (hgives u offset dst hu).2 hend
    have hrun : (ArchiveSource.callback source).access.readExactAt u offset dst =
        source.toCallbackSource.readExactAt offset dst u := rfl
    simp only [CallbackSource.readExactAt, hf, hr, if_neg hstatus] at hrun
    exact ⟨_, dst', u', hrun, hu'⟩

end Presents

end RasenArchive
