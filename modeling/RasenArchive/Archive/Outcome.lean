import RasenArchive.Archive.Access

/-!
# What reading a chunk comes to

Over a source that does not change, reading a chunk of an open archive comes to one result, content
or failure, that the bytes of its block determine. A source may be watched: `recorded R` is the
source `R` with a record of the windows that were read from it. Every reading of a chunk reads one
window, that of its block, so the record tells which chunks were decoded, and how often.

## Main definitions

* `chunkOutcome`: the result of reading a chunk, from the bytes of an unchanging source
* `HoldsBlocks`: the bytes hold the blocks of all chunks
* `recorded`: a source with a record of its reads
* `windowOf`: the window of the block of a chunk

## Main results

* `holds_of_open`: the bytes of an open archive hold its blocks
* `chunkOutcome_eq_ok_iff`: the outcome is a content where there is one
* `deciding`, `recording`: what is known about single chunks, without and with a record
-/

namespace RasenArchive

variable (D : Dependencies) {W : Type} (R : RandomAccessRead W) (a : Archive)

/-- The result of reading chunk `g` from the bytes `c`, under the label and the number that a
failed checksum is reported with. -/
def chunkOutcome (c : Bytes) (label : ChecksumLabel) (l g : ℕ) : Result Bytes := do
  let chunk ← chunkAt a g
  let content ← openBlock D a.aeadKey chunk g
    (c.extract chunk.offset.toNat (chunk.offset.toNat + blockLength a chunk))
  ensure (checksum D content = chunk.checksum) (.checksumMismatch label.toErrorString l)
  pure content

/-- The bytes `c` hold the blocks of all chunks. -/
def HoldsBlocks (c : Bytes) : Prop :=
  ∀ chunk ∈ a.chunks, chunk.offset.toNat + blockLength a chunk ≤ c.length

/-- The source `R`, with a record of the windows that were read from it. -/
def recorded : RandomAccessRead (W × List (ℕ × ℕ)) where
  len s := ((R.len s.1).1, ((R.len s.1).2, s.2))
  readExactAt s offset dst :=
    ((R.readExactAt s.1 offset dst).1, (R.readExactAt s.1 offset dst).2.1,
      ((R.readExactAt s.1 offset dst).2.2, s.2 ++ [(offset, dst.length)]))
  length_readExactAt s offset dst := R.length_readExactAt s.1 offset dst

/-- The window of the source that holds the block of chunk `g`: its offset and its length. -/
def windowOf (g : ℕ) : ℕ × ℕ :=
  match a.chunks[g]? with
  | some chunk => (chunk.offset.toNat, blockLength a chunk)
  | none => (0, 0)

/-! ## The outcome of a chunk -/

section Outcome

variable {D R a} {c : Bytes} {chunk : Chunk} {g l : ℕ} {label : ChecksumLabel} {w : W}

/-- **The outcome is the content** of the chunk, where there is one. -/
theorem chunkOutcome_eq_ok_iff (hin : HoldsBlocks a c) {d : Bytes} :
    chunkOutcome D a c label l g = .ok d ↔ chunkContent D a c g = some d := by
  unfold chunkOutcome chunkContent chunkAt
  cases hchunk : a.chunks[g]? with
  | none => simp [okOr, failWith]
  | some chunk =>
    have hle := hin chunk (List.mem_of_getElem? hchunk)
    have hget : getRange c chunk.offset.toNat (chunk.offset.toNat + blockLength a chunk) =
        some (c.extract chunk.offset.toNat (chunk.offset.toNat + blockLength a chunk)) :=
      getRange_eq_some_iff.mpr ⟨⟨Nat.le_add_right _ _, hle⟩, rfl⟩
    simp only [okOr, ok_bind, Option.bind_eq_bind, Option.bind_some, hget]
    cases hopen : openBlock D a.aeadKey chunk g
        (c.extract chunk.offset.toNat (chunk.offset.toNat + blockLength a chunk)) with
    | error f => simp [Except.toOption]
    | ok content =>
      by_cases hsum : checksum D content = chunk.checksum
      · simp [Except.toOption, hsum, ensure, pure, Except.pure]
      · simp [Except.toOption, hsum, ensure, failWith]

/-- **The first failure is determined** by the outcomes of the chunks from number `start` on, and so
is how it fails. -/
theorem firstErr_unique {c₁ c₂ : Bytes} (hin₁ : HoldsBlocks a c₁) (hin₂ : HoldsBlocks a c₂) {entry : Entry}
    {start stop i j : ℕ} {f₁ f₂ : Fault} (hi : start ≤ i ∧ i < stop) (hj : start ≤ j ∧ j < stop)
    (hsame : ∀ k, start ≤ k → k < stop → ∀ l,
      chunkOutcome D a c₁ label l (entry.firstChunk.toNat + k) =
        chunkOutcome D a c₂ label l (entry.firstChunk.toNat + k))
    (h₁ : FirstErr (fun g d => chunkContent D a c₁ g = some d)
      (fun label l g f => chunkOutcome D a c₁ label l g = .error f) entry start label i
      (entry.firstChunk.toNat + i) f₁)
    (h₂ : FirstErr (fun g d => chunkContent D a c₂ g = some d)
      (fun label l g f => chunkOutcome D a c₂ label l g = .error f) entry start label j
      (entry.firstChunk.toNat + j) f₂) : f₁ = f₂ := by
  have hone := hsame i hi.1 hi.2 i
  have htwo := hsame j hj.1 hj.2 j
  rcases lt_trichotomy i j with hlt | rfl | hlt
  · -- the chunk that fails first in the one has a content in the other
    obtain ⟨d, hd⟩ := h₂.2 i hi.1 hlt
    rw [h₁.1, (chunkOutcome_eq_ok_iff hin₂).mpr hd] at hone
    cases hone
  · rw [h₁.1, h₂.1] at hone
    cases hone
    rfl
  · obtain ⟨d, hd⟩ := h₁.2 j hj.1 hlt
    rw [h₂.1, (chunkOutcome_eq_ok_iff hin₁).mpr hd] at htwo
    cases htwo

/-- **Reading a chunk** from a source that answers with the bytes `c`, and goes to a state in `P`,
comes to its outcome. -/
theorem readChunkByIndexInto_outcome {s : BlockState W} {P : W → Prop}
    (hlimit : 1 ≤ a.maxChunksPerOperation) (hchunk : a.chunks[g]? = some chunk)
    (hdst : s.dst.length = chunk.originalSize.toNat)
    (hread : ∀ buffer : Bytes, buffer.length = blockLength a chunk →
      ∃ w', readExactAt R chunk.offset.toNat (s.source, buffer) =
        (.ok (), w', c.extract chunk.offset.toNat (chunk.offset.toNat + blockLength a chunk)) ∧
          P w') :
    Fallible.Post (readChunkByIndexInto D R a label l g) s
      (fun _ s' => P s'.source ∧ chunkOutcome D a c label l g = .ok s'.dst)
      (fun f s' => P s'.source ∧ s'.dst.length = s.dst.length ∧
        chunkOutcome D a c label l g = .error f) := by
  have hat : chunkAt a g = .ok chunk := okOr_eq_ok_iff.mpr hchunk
  unfold Fallible.Post chunkOutcome
  rw [readChunkByIndexInto_eq hlimit hchunk hdst, hat, ok_bind]
  obtain ⟨buffer, hbuffer, hcases⟩ :=
    readBlock_cases (D := D) (R := R) (a := a) (g := g) hdst
  obtain ⟨w', hr', hw'⟩ := hread buffer hbuffer
  rw [hr'] at hcases
  rcases hcases with ⟨f, w'', b, s', hr, -⟩ | ⟨w'', block, hr, -, hopened⟩
  · cases hr
  cases hr
  rcases hopened with ⟨content, s', ho, hrun, rfl, hd⟩ | ⟨f, s', ho, hrun, rfl, hlen⟩
  · rw [Fallible.bind_of_ok hrun, Fallible.gets_bind_apply, id, ho, ok_bind, hd]
    have hsize := openBlock_length ho
    by_cases hsum : checksum D content = chunk.checksum
    · rw [ensure_of hsum]
      exact ⟨hw', by rw [hd]; rfl⟩
    · rw [ensure, if_neg hsum]
      exact ⟨hw', by rw [hd, hsize, hdst], rfl⟩
  · rw [Fallible.bind_of_error hrun, ho]
    exact ⟨hw', hlen, rfl⟩

end Outcome

/-! ## What is known about single chunks -/

section Spec

variable {D R a} {c : Bytes} {w : W}

/-- Reading a chunk from a source that presents its bytes comes to its outcome. -/
theorem readChunkByIndexInto_presented {P : W → Prop} (hp : Presents R P c)
    (hin : HoldsBlocks a c) {s : BlockState W} {label : ChecksumLabel} {l g : ℕ} {chunk : Chunk}
    (hlimit : 1 ≤ a.maxChunksPerOperation) (hchunk : a.chunks[g]? = some chunk)
    (hdst : s.dst.length = chunk.originalSize.toNat) (hw : P s.source) :
    Fallible.Post (readChunkByIndexInto D R a label l g) s
      (fun _ s' => P s'.source ∧ chunkOutcome D a c label l g = .ok s'.dst)
      (fun f s' => P s'.source ∧ s'.dst.length = s.dst.length ∧
        chunkOutcome D a c label l g = .error f) := by
  have hle := hin chunk (List.mem_of_getElem? hchunk)
  refine readChunkByIndexInto_outcome hlimit hchunk hdst fun buffer hbuffer => ?_
  rw [← hbuffer]
  exact readExactAt_presents hp hw (by rw [hbuffer]; exact hle)

variable {P : W → Prop} (hp : Presents R P c) (hin : HoldsBlocks a c)

include hp hin

/-- What is known about single chunks over a source of unchanging bytes, failures included. -/
theorem deciding :
    TraceSpec D R a (fun _ w' => P w') (fun g d => chunkContent D a c g = some d)
      fun label l g f => chunkOutcome D a c label l g = .error f where
  length_eq := length_of_chunkContent
  read {label l g chunk s done} hlimit hchunk hdst hinv := by
    refine (readChunkByIndexInto_presented hp hin hlimit hchunk hdst hinv).mono ?_ ?_
    · rintro _ s' ⟨hw, hd⟩
      exact ⟨hw, (chunkOutcome_eq_ok_iff hin).mp hd⟩
    · rintro f s' ⟨hw, hlen, hf⟩
      exact ⟨hw, hlen, hf⟩

/-- **What is known about single chunks** over a source of unchanging bytes that is watched: every
reading of a chunk adds its window to the record. -/
theorem recording (log : List (ℕ × ℕ)) :
    TraceSpec D (recorded R) a (fun done s => P s.1 ∧ s.2 = log ++ done.map (windowOf a))
      (fun g d => chunkContent D a c g = some d)
      fun label l g f => chunkOutcome D a c label l g = .error f where
  length_eq := length_of_chunkContent
  read {label l g chunk s done} hlimit hchunk hdst hinv := by
    obtain ⟨hw, hlog⟩ := hinv
    have hle := hin chunk (List.mem_of_getElem? hchunk)
    have hwindow : windowOf a g = (chunk.offset.toNat, blockLength a chunk) := by
      rw [windowOf, hchunk]
    have hread : ∀ buffer : Bytes, buffer.length = blockLength a chunk →
        ∃ w', readExactAt (recorded R) chunk.offset.toNat (s.source, buffer) =
          (.ok (), w', c.extract chunk.offset.toNat (chunk.offset.toNat + blockLength a chunk)) ∧
            P w'.1 ∧ w'.2 = log ++ (done ++ [g]).map (windowOf a) := by
      intro buffer hbuffer
      obtain ⟨w', hplain, hw'⟩ :=
        hp.read s.source.1 chunk.offset.toNat buffer hw (by rw [hbuffer]; exact hle)
      refine ⟨(w', log ++ (done ++ [g]).map (windowOf a)), ?_, hw', rfl⟩
      rw [readExactAt, recorded]
      simp only [hplain, hbuffer, hlog, List.map_append, List.map_singleton, hwindow,
        List.append_assoc]
    refine (readChunkByIndexInto_outcome hlimit hchunk hdst hread).mono ?_ ?_
    · rintro _ s' ⟨hs', hd⟩
      exact ⟨hs', (chunkOutcome_eq_ok_iff hin).mp hd⟩
    · rintro f s' ⟨hs', hlen, hf⟩
      exact ⟨hs', hlen, hf⟩

end Spec

/-! ## The blocks of an open archive -/

/-- **The bytes of an open archive** hold the blocks of all of its chunks. -/
theorem holds_of_open {D : Dependencies} {R : RandomAccessRead W} {a : Archive} {key : Bytes}
    {limits : ArchiveLimits} {w w' : W} {c : Bytes} {P : W → Prop} (hp : Presents R P c) (hw : P w)
    (hopen : openWithLimits D R key limits w = (.ok a, w')) : HoldsBlocks a c := by
  obtain ⟨-, -, header, -, -, hrange, htoc⟩ :=
    (openWithLimits_presents_iff hp hw).mp (congrArg Prod.fst hopen)
  obtain ⟨-, -, hend, -⟩ := checkTocRange_eq_ok_iff.mp hrange
  obtain ⟨block, plain, entries, chunks, -, -, -, -, -, hlayout, -, rfl⟩ := openToc_eq_ok_iff.mp htoc
  intro chunk hchunk
  have hvalid := hlayout.chunk chunk hchunk
  -- a block that is neither encrypted nor compressed is stored in its own length
  have hblock : blockLength (assemble D limits.clamped key header entries chunks) chunk ≤
      chunk.storedSize.toNat := by
    unfold blockLength
    split_ifs with hraw
    · rw [hvalid.raw_eq hraw.2]
      exact Nat.le_add_right _ _
    · exact le_rfl
  have hstop := hvalid.stop_le
  calc chunk.offset.toNat + blockLength (assemble D limits.clamped key header entries chunks) chunk
    _ ≤ chunk.stop := Nat.add_le_add_left hblock _
    _ ≤ header.tocOffset.toNat := hstop
    _ ≤ c.length := (Nat.le_add_right _ _).trans hend

end RasenArchive
