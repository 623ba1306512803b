import RasenArchive.Error
import RasenArchive.Library.Window

/-!
# Sources of archive bytes

`RandomAccessRead`, the device that an archive is read from. A source has a state of its own, so
that it may answer differently each time.

## Main definitions

* `RandomAccessRead W`: a source with states `W`
* `readExactAt`, `readAt`: a read into a buffer, and into a fresh one
* `sliceSource`: the source `&[u8]`
* `Presents R P c`: in the states of `P`, the source `R` holds the bytes `c`
* `Stays R P`: the source `R` stays in the states of `P`

## Main results

* `readExactAt_presents`, `readAt_presents_iff`: what a source of unchanging bytes answers
* `sliceSource_presents`: bytes in memory are such a source
-/

namespace RasenArchive

/-- `RandomAccessRead`. A read fills the buffer it is given, or fails and leaves anything there. -/
structure RandomAccessRead (W : Type) where
  len : W → Except IoError ℕ × W
  readExactAt : W → (offset : ℕ) → (dst : Bytes) → Except IoError Unit × Bytes × W
  length_readExactAt : ∀ w offset dst, (readExactAt w offset dst).2.1.length = dst.length

variable {W : Type} (R : RandomAccessRead W)

/-- `source.len()?`. -/
def sourceLen : Fallible W Fault ℕ := fun w =>
  match R.len w with
  | (.ok n, w') => (.ok n, w')
  | (.error e, w') => (.error (.error (.io e)), w')

/-- `source.read_exact_at(offset, dst)?`, with the buffer beside the source. -/
def readExactAt (offset : ℕ) : Fallible (W × Bytes) Fault Unit := fun s =>
  match R.readExactAt s.1 offset s.2 with
  | (.ok (), dst, w') => (.ok (), w', dst)
  | (.error e, dst, w') => (.error (.error (.io e)), w', dst)

/-- `source.read_exact_at(offset, dst)?` into a fresh buffer of `n` zeroes. -/
def readAt (offset n : ℕ) : Fallible W Fault Bytes := fun w =>
  match readExactAt R offset (w, List.replicate n 0) with
  | (.ok (), w', dst) => (.ok dst, w')
  | (.error e, w', _) => (.error e, w')

theorem length_readExactAt_snd (offset : ℕ) (s : W × Bytes) :
    (readExactAt R offset s).2.2.length = s.2.length := by
  have h := R.length_readExactAt s.1 offset s.2
  unfold readExactAt
  rcases hr : R.readExactAt s.1 offset s.2 with ⟨_ | ⟨⟨⟩⟩, dst, w'⟩ <;> rw [hr] at h <;> exact h

theorem length_of_readAt {offset n : ℕ} {w w' : W} {bs : Bytes}
    (h : readAt R offset n w = (.ok bs, w')) : bs.length = n := by
  have hlen := length_readExactAt_snd R offset (w, List.replicate n 0)
  unfold readAt at h
  rcases hr : readExactAt R offset (w, List.replicate n 0) with ⟨_ | ⟨⟨⟩⟩, w₁, dst⟩
  · rw [hr] at h
    cases h
  · rw [hr] at h hlen
    cases h
    simpa using hlen

theorem readExactAt_error {offset : ℕ} {s s' : W × Bytes} {f : Fault}
    (h : readExactAt R offset s = (.error f, s')) : ∃ e, f = .error (.io e) := by
  unfold readExactAt at h
  rcases hr : R.readExactAt s.1 offset s.2 with ⟨e | ⟨⟨⟩⟩, dst, w'⟩ <;> rw [hr] at h <;> cases h
  exact ⟨e, rfl⟩

theorem readAt_runsSafe (offset n : ℕ) : RunsSafe (readAt R offset n) := by
  intro w p h
  unfold readAt at h
  rcases hr : readExactAt R offset (w, List.replicate n 0) with ⟨f | ⟨⟨⟩⟩, w₁, dst⟩
  · rw [hr] at h
    obtain ⟨e, rfl⟩ := readExactAt_error R hr
    cases h
  · rw [hr] at h
    cases h

theorem sourceLen_runsSafe : RunsSafe (sourceLen R) := by
  intro w p h
  unfold sourceLen at h
  rcases hr : R.len w with ⟨e | n, w'⟩ <;> rw [hr] at h <;> cases h

/-! ## Sources of unchanging bytes -/

/-- In the states of `P`, the source holds the bytes `c`: it gives their windows, fails past their
end, and stays in `P`. A read into an empty buffer past the end may end either way. -/
structure Presents (P : W → Prop) (c : Bytes) : Prop where
  len : ∀ w, P w → ∃ w', R.len w = (.ok c.length, w') ∧ P w'
  read : ∀ w offset dst, P w → offset + dst.length ≤ c.length →
    ∃ w', R.readExactAt w offset dst = (.ok (), c.extract offset (offset + dst.length), w') ∧ P w'
  eof : ∀ w offset dst, P w → dst ≠ [] → c.length < offset + dst.length →
    ∃ e dst' w', R.readExactAt w offset dst = (.error e, dst', w') ∧ P w'

section Presents

variable {R} {P : W → Prop} {c : Bytes} (h : Presents R P c) {w : W}

include h

theorem sourceLen_presents (hw : P w) : ∃ w', sourceLen R w = (.ok c.length, w') ∧ P w' := by
  obtain ⟨w', hr, hw'⟩ := h.len w hw
  refine ⟨w', ?_, hw'⟩
  unfold sourceLen
  rw [hr]

theorem readExactAt_presents {offset : ℕ} {dst : Bytes} (hw : P w)
    (hle : offset + dst.length ≤ c.length) :
    ∃ w', readExactAt R offset (w, dst) =
      (.ok (), w', c.extract offset (offset + dst.length)) ∧ P w' := by
  obtain ⟨w', hr, hw'⟩ := h.read w offset dst hw hle
  refine ⟨w', ?_, hw'⟩
  unfold readExactAt
  rw [hr]

/-- **A read from a source that presents bytes** gives their window. -/
theorem readAt_presents {offset n : ℕ} (hw : P w) (hle : offset + n ≤ c.length) :
    ∃ w', readAt R offset n w = (.ok (c.extract offset (offset + n)), w') ∧ P w' := by
  have hfits : offset + (List.replicate n (0 : UInt8)).length ≤ c.length := by simpa using hle
  obtain ⟨w', hr, hw'⟩ := readExactAt_presents h hw hfits
  refine ⟨w', ?_, hw'⟩
  unfold readAt
  rw [hr]
  simp

theorem readAt_presents_eof {offset n : ℕ} (hw : P w) (hpos : 0 < n)
    (hlt : c.length < offset + n) :
    ∃ e w', readAt R offset n w = (.error (.error (.io e)), w') ∧ P w' := by
  have hne : List.replicate n (0 : UInt8) ≠ [] := by
    rw [Ne, List.replicate_eq_nil_iff]
    omega
  obtain ⟨e, dst', w', hr, hw'⟩ := h.eof w offset _ hw hne (by simpa using hlt)
  refine ⟨e, w', ?_, hw'⟩
  unfold readAt readExactAt
  rw [hr]

/-- **A read that is not empty** gives the window of the bytes, or fails at their end. -/
theorem readAt_presents_iff {offset n : ℕ} (hw : P w) (hpos : 0 < n) {bs : Bytes} :
    (readAt R offset n w).1 = .ok bs ↔
      offset + n ≤ c.length ∧ bs = c.extract offset (offset + n) := by
  by_cases hle : offset + n ≤ c.length
  · obtain ⟨w', hr, -⟩ := readAt_presents h hw hle
    rw [hr, Except.ok.injEq]
    constructor
    · rintro rfl
      exact ⟨hle, rfl⟩
    · rintro ⟨-, rfl⟩
      rfl
  · obtain ⟨e, w', hr, -⟩ := readAt_presents_eof h hw hpos (not_le.mp hle)
    rw [hr]
    simp [hle]

end Presents

/-! ## Sources that stay in some states -/

/-- From a state of `P`, the source goes to states of `P`, however it answers. -/
structure Stays (P : W → Prop) : Prop where
  len : ∀ w, P w → P (R.len w).2
  read : ∀ w offset dst, P w → P (R.readExactAt w offset dst).2.2

section Stays

variable {R} {P : W → Prop} (h : Stays R P)

include h

theorem sourceLen_stays {w : W} (hw : P w) : P (sourceLen R w).2 := by
  have hlen := h.len w hw
  unfold sourceLen
  rcases hr : R.len w with ⟨e | n, w'⟩ <;> rw [hr] at hlen <;> exact hlen

theorem readExactAt_stays (offset : ℕ) {s : W × Bytes} (hs : P s.1) :
    P (readExactAt R offset s).2.1 := by
  have hread := h.read s.1 offset s.2 hs
  unfold readExactAt
  rcases hr : R.readExactAt s.1 offset s.2 with ⟨e | ⟨⟨⟩⟩, dst, w'⟩ <;> rw [hr] at hread <;>
    exact hread

theorem readAt_stays (offset n : ℕ) {w : W} (hw : P w) : P (readAt R offset n w).2 := by
  have hread := readExactAt_stays h offset (s := (w, List.replicate n 0)) hw
  unfold readAt
  rcases hr : readExactAt R offset (w, List.replicate n 0) with ⟨e | ⟨⟨⟩⟩, w', dst⟩ <;>
    rw [hr] at hread <;> exact hread

end Stays

/-- `RandomAccessRead for &[u8]`. -/
def sliceSource : RandomAccessRead Bytes where
  len source := (.ok source.length, source)
  readExactAt source offset dst :=
    match getRange source offset (offset + dst.length) with
    | some bytes => (.ok (), bytes, source)
    | none =>
      -- the sum of offset and length is checked first; an overflow is past every end
      let message := if offset + dst.length < 2 ^ 64 then "failed to fill whole buffer"
        else "read range overflow"
      (.error ⟨.unexpectedEof, message⟩, dst, source)
  length_readExactAt source offset dst := by
    cases h : getRange source offset (offset + dst.length) with
    | none => rfl
    | some bytes =>
      obtain ⟨⟨-, hle⟩, rfl⟩ := getRange_eq_some_iff.mp h
      simp only [length_extract hle]
      omega

theorem sliceSource_read {c : Bytes} {offset : ℕ} {dst : Bytes}
    (hle : offset + dst.length ≤ c.length) :
    sliceSource.readExactAt c offset dst =
      (.ok (), c.extract offset (offset + dst.length), c) := by
  have h : getRange c offset (offset + dst.length) =
      some (c.extract offset (offset + dst.length)) :=
    getRange_eq_some_iff.mpr ⟨⟨by omega, hle⟩, rfl⟩
  simp only [sliceSource, h]

/-- A read past the end leaves the buffer as it is. -/
theorem sliceSource_eof {c : Bytes} {offset : ℕ} {dst : Bytes}
    (hlt : c.length < offset + dst.length) :
    ∃ e, sliceSource.readExactAt c offset dst = (.error e, dst, c) := by
  cases h : getRange c offset (offset + dst.length) with
  | none => exact ⟨_, by simp only [sliceSource, h]; rfl⟩
  | some bytes =>
    obtain ⟨⟨-, hle⟩, -⟩ := getRange_eq_some_iff.mp h
    omega

/-- **Bytes in memory** are a source of themselves, with one state. -/
theorem sliceSource_presents (c : Bytes) : Presents sliceSource (fun x => x = c) c where
  len w hw := ⟨w, by rw [hw]; rfl, hw⟩
  read w offset dst hw hle := ⟨w, by rw [hw, sliceSource_read hle], hw⟩
  eof w offset dst hw _ hlt := by
    subst hw
    obtain ⟨e, he⟩ := sliceSource_eof hlt
    exact ⟨e, dst, w, he, rfl⟩

end RasenArchive
