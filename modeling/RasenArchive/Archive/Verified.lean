import RasenArchive.Archive.Access
import RasenArchive.Reference

/-!
# Reading hostile archives

What holds of every archive that was opened, over a source that may answer differently each time:
the bytes that a call returns are the checked contents of the chunks it touched, and a call fails
for one of a few reasons only.

## Main definitions

* `VerifiedAt`: the bytes are the checked content of a chunk
* `LookupFault`, `FailsOn`: how a lookup and a call on the entry of a path fail

## Main results

* `reads_verified`: a call that succeeds returns verified bytes
* `reads_fail_only_by`: opening does not panic, and how calls on an open archive fail
-/

namespace RasenArchive

/-! ## A small archive -/

/-- The key of the small archive. -/
def smallKey : Bytes := [7, 9]

/-- One asset of three bytes, in chunks of two. -/
def smallEntries : List TocEntry := [⟨"a", foldHash [97], 3, 3, 0, 2⟩]

def smallChunks : List Chunk :=
  [⟨60, 2, 2, foldHash [1, 2], false⟩, ⟨62, 1, 1, foldHash [3], false⟩]

/-- The table of contents of the small archive. -/
def smallToc : Bytes := tocImage smallEntries [[97]] smallChunks

def smallHeader : Header where
  version := version
  flags := requiredHeaderFlags ||| headerFlagTocXor
  headerSize := 60
  alignment := 1
  chunkSize := 2
  entryCount := 1
  chunkCount := 2
  tocOffset := 63
  tocSize := UInt64.ofNat (Lz4.literals smallToc).length
  tocRawSize := UInt64.ofNat smallToc.length
  tocHash := foldHash smallToc

/-- The bytes of the small archive. -/
def smallBytes : Bytes :=
  encodeHeader smallHeader ++ [1, 2, 3] ++ xorBytes (Lz4.literals smallToc) smallKey

/-- The small archive, open. -/
def smallArchive : Archive :=
  assemble reference (ArchiveLimits.clamped .runtimeDefault) smallKey smallHeader smallEntries
    smallChunks

theorem openWithLimits_small :
    openWithLimits reference sliceSource smallKey .runtimeDefault smallBytes =
      (.ok smallArchive, smallBytes) := by decide +kernel

/-- The nonce of the small archive under AEAD. -/
def smallNonce : Nonce := ⟨List.replicate 24 5, by decide⟩

/-- A block of the small archive under AEAD. -/
def smallSealed (aad plain : Bytes) : Bytes :=
  let key := deriveKey reference smallKey
  smallNonce.1 ++ (reference.aeadEncrypt key smallNonce plain aad).getD []

/-- One asset of two bytes. -/
def sealedEntries : List TocEntry := [⟨"a", foldHash [97], 2, 42, 0, 1⟩]

def sealedChunks : List Chunk := [⟨60, 42, 2, foldHash [1, 2], false⟩]

def sealedToc : Bytes := tocImage sealedEntries [[97]] sealedChunks

def sealedHeader : Header where
  version := version
  flags := requiredHeaderFlags ||| headerFlagAead
  headerSize := 60
  alignment := 1
  chunkSize := 2
  entryCount := 1
  chunkCount := 1
  tocOffset := 102
  tocSize := UInt64.ofNat (smallSealed tocAad (Lz4.literals sealedToc)).length
  tocRawSize := UInt64.ofNat sealedToc.length
  tocHash := foldHash sealedToc

/-- The bytes of the small archive under AEAD. -/
def sealedBytes : Bytes :=
  encodeHeader sealedHeader ++ smallSealed (chunkAad 0) [1, 2] ++
    smallSealed tocAad (Lz4.literals sealedToc)

/-- The small archive under AEAD, open. -/
def sealedArchive : Archive :=
  assemble reference (ArchiveLimits.clamped .runtimeDefault) smallKey sealedHeader sealedEntries
    sealedChunks

theorem openWithLimits_sealed :
    openWithLimits reference sliceSource smallKey .runtimeDefault sealedBytes =
      (.ok sealedArchive, sealedBytes) := by decide +kernel

/-! ## Knowledge about single chunks -/

variable (D : Dependencies) {W : Type} (R : RandomAccessRead W) (a : Archive)

/-- The bytes `d` are the checked content of chunk `g`. -/
def VerifiedAt (g : ℕ) (d : Bytes) : Prop :=
  ∃ chunk, a.chunks[g]? = some chunk ∧ Verified D a g chunk d

/-- What is known about single chunks over any source. -/
theorem anySource :
    ChunkSpec D R a (fun _ => True) (VerifiedAt D a) fun label l _ f => ChunkFault label l f where
  length_eq hchunk h := by
    obtain ⟨chunk, hc, hv⟩ := h
    cases hchunk.symm.trans hc
    exact hv.length_eq
  read hlimit hchunk hdst _ := (readChunkByIndexInto_post hlimit hchunk hdst).mono
    (fun _ _ h => ⟨trivial, _, hchunk, h⟩) fun _ _ h => ⟨trivial, h⟩

section Verified

variable {D R a} {key : Bytes} {limits : ArchiveLimits} {w₀ w₁ : W}

/-- **No unverified bytes are returned**, by any call on an open archive, from any state of the
source, of the destination and of the scratch space. The mode of the archive is that of the header
it was opened from, and under AEAD its key is the one of the opening. -/
theorem reads_verified (hopen : openWithLimits D R key limits w₀ = (.ok a, w₁)) :
    ((∃ header w, readAt R 0 headerSize w₀ = (.ok (encodeHeader header), w) ∧
        a.protection = header.protection) ∧
      (a.protection = .aead → a.aeadKey = some (deriveKey D key))) ∧
    (∀ path w w' d, read D R a path w = (.ok d, w') →
      ∃ e, entry D a path = .ok e ∧ IsWhole (VerifiedAt D a) e d) ∧
    (∀ id w w' d, readById D R a id w = (.ok d, w') →
      ∃ e, entryById a id = .ok e ∧ IsWhole (VerifiedAt D a) e d) ∧
    (∀ path s s', readIntoWithScratch D R a path s = (.ok (), s') →
      ∃ e, entry D a path = .ok e ∧ IsWhole (VerifiedAt D a) e s'.dst) ∧
    (∀ path s s', readInto D R a path s = (.ok (), s') →
      ∃ e, entry D a path = .ok e ∧ IsWhole (VerifiedAt D a) e s'.2) ∧
    (∀ path i w w' d, readChunk D R a path i w = (.ok d, w') →
      ∃ e, entry D a path = .ok e ∧ i.toNat < e.chunkCount.toNat ∧
        VerifiedAt D a (e.firstChunk.toNat + i.toNat) d) ∧
    (∀ path i s s', readChunkIntoWithScratch D R a path i s = (.ok (), s') →
      ∃ e, entry D a path = .ok e ∧ i.toNat < e.chunkCount.toNat ∧
        VerifiedAt D a (e.firstChunk.toNat + i.toNat) s'.dst) ∧
    (∀ path i s s', readChunkInto D R a path i s = (.ok (), s') →
      ∃ e, entry D a path = .ok e ∧ i.toNat < e.chunkCount.toNat ∧
        VerifiedAt D a (e.firstChunk.toNat + i.toNat) s'.2) ∧
    (∀ path offset len w w' d, readRange D R a path offset len w = (.ok d, w') →
      ∃ e, entry D a path = .ok e ∧
        RangeAccepted a e offset.toNat len.toNat false d.length ∧
        IsRange a (VerifiedAt D a) e offset.toNat d.length d) ∧
    (∀ path offset len w w' d, readRangeExact D R a path offset len w = (.ok d, w') →
      ∃ e, entry D a path = .ok e ∧ d.length = len.toNat ∧
        offset.toNat + len.toNat ≤ e.originalSize.toNat ∧
        IsRange a (VerifiedAt D a) e offset.toNat len.toNat d) ∧
    (∀ path offset s n s', s.dst.length < 2 ^ 64 →
      readRangeWithScratch D R a path offset s = (.ok n, s') →
      ∃ e d, entry D a path = .ok e ∧
        RangeAccepted a e offset.toNat s.dst.length false n ∧ d.length = n ∧
        IsRange a (VerifiedAt D a) e offset.toNat n d ∧ s'.dst = d ++ s.dst.drop n) ∧
    ∀ path offset s n s', s.2.length < 2 ^ 64 →
      readRangeInto D R a path offset s = (.ok n, s') →
      ∃ e d, entry D a path = .ok e ∧
        RangeAccepted a e offset.toNat s.2.length false n ∧ d.length = n ∧
        IsRange a (VerifiedAt D a) e offset.toNat n d ∧ s'.2 = d ++ s.2.drop n := by
  have h := openWithLimits_wellFormed hopen
  -- what each call leaves behind is known for any `ChunkSpec`; here only that chunks are verified
  have spec := (anySource D R a).trace
  refine ⟨openWithLimits_key hopen, ?_, ?_, ?_, ?_, ?_, ?_, ?_, ?_, ?_, ?_, ?_⟩
  · intro path w w' d hr
    obtain ⟨e, he, -, -, hd⟩ := (read_post spec h trivial).of_ok hr
    exact ⟨e, he, hd⟩
  · intro id w w' d hr
    obtain ⟨e, he, -, -, hd⟩ := (readById_post spec h trivial id).of_ok hr
    exact ⟨e, he, hd⟩
  · intro path s s' hr
    obtain ⟨e, he, -, -, hd⟩ := (readIntoWithScratch_post spec h trivial).of_ok hr
    exact ⟨e, he, hd⟩
  · intro path s s' hr
    -- the call with a default scratch space is a run of the one with a scratch space
    obtain ⟨t, hrun, rfl⟩ := withDefaultScratch_run hr
    obtain ⟨e, he, -, -, hd⟩ := (readIntoWithScratch_post spec h trivial).of_ok hrun
    exact ⟨e, he, hd⟩
  · intro path i w w' d hr
    obtain ⟨e, he, hi, -, hd⟩ := (readChunk_post spec h trivial i).of_ok hr
    exact ⟨e, he, hi, hd⟩
  · intro path i s s' hr
    obtain ⟨e, he, hi, -, hd⟩ := (readChunkIntoWithScratch_post spec h trivial i).of_ok hr
    exact ⟨e, he, hi, hd⟩
  · intro path i s s' hr
    obtain ⟨t, hrun, rfl⟩ := withDefaultScratch_run hr
    obtain ⟨e, he, hi, -, hd⟩ := (readChunkIntoWithScratch_post spec h trivial i).of_ok hrun
    exact ⟨e, he, hi, hd⟩
  · intro path offset len w w' d hr
    obtain ⟨e, he, -, hacc, hd⟩ := (readRange_post spec h trivial offset len false).of_ok hr
    exact ⟨e, he, hacc, hd⟩
  · intro path offset len w w' d hr
    obtain ⟨e, he, -, hacc, hd⟩ := (readRange_post spec h trivial offset len true).of_ok hr
    -- an exact range is accepted only up to the end of the entry, so it is as long as asked
    have hstop := hacc.stop_le rfl
    have hlen : d.length = len.toNat := by
      have := hacc.length_eq
      omega
    exact ⟨e, he, hlen, hstop, hlen ▸ hd⟩
  · intro path offset s n s' hlt hr
    obtain ⟨e, he, -, hacc, d, hlen, hd, hdst⟩ :=
      (readRangeWithScratch_post spec h trivial offset hlt).of_ok hr
    exact ⟨e, d, he, hacc, hlen, hd, hdst⟩
  · intro path offset s n s' hlt hr
    obtain ⟨t, hrun, rfl⟩ := withDefaultScratch_run hr
    obtain ⟨e, he, -, hacc, d, hlen, hd, hdst⟩ :=
      (readRangeWithScratch_post spec h trivial offset hlt).of_ok hrun
    exact ⟨e, d, he, hacc, hlen, hd, hdst⟩

/-- Reading the small archive, and the one under AEAD. -/
theorem reads_verified_small :
    (∃ e, entry reference smallArchive "a" = .ok e ∧
      IsWhole (VerifiedAt reference smallArchive) e [1, 2, 3]) ∧
    sealedArchive.aeadKey = some (deriveKey reference smallKey) ∧
    ∃ e, entry reference sealedArchive "a" = .ok e ∧
      IsWhole (VerifiedAt reference sealedArchive) e [1, 2] := by
  obtain ⟨-, hread, -⟩ := reads_verified openWithLimits_small
  obtain ⟨⟨-, hkey⟩, hreadSealed, -⟩ := reads_verified openWithLimits_sealed
  refine ⟨?_, hkey rfl, ?_⟩
  · exact hread "a" smallBytes smallBytes [1, 2, 3] (by decide +kernel)
  · exact hreadSealed "a" sealedBytes sealedBytes [1, 2] (by decide +kernel)

/-! ## How calls fail -/

/-- How the lookup of a path fails. -/
def LookupFault (f : Fault) : Prop := f = .error .invalidPath ∨ ∃ q, f = .error (.notFound q)

/-- A failed chunk, whatever its number in the whole table. -/
def AnyChunkFault (label : ChecksumLabel) (l _ : ℕ) (f : Fault) : Prop := ChunkFault label l f

/-- How a call on the entry of a path fails: at the lookup, or as `Fails` says of the entry. -/
def FailsOn (D : Dependencies) (a : Archive) (path : String)
    (Fails : Entry → ChecksumLabel → Fault → Prop) (f : Fault) : Prop :=
  LookupFault f ∨ ∃ e q, entry D a path = .ok e ∧ Fails e (.path q) f

/-- How a call for a range fails. -/
def RangeFails (a : Archive) (offset len : ℕ) (exact : Bool) (e : Entry) (label : ChecksumLabel)
    (f : Fault) : Prop :=
  RangeRefused a e offset len exact f ∨
    ∃ n, RangeAccepted a e offset len exact n ∧ RangeFault a AnyChunkFault e label offset n f

/-- How a call for a chunk with a destination of `len` bytes fails: as a call without one, or because
the chunk does not have that length. -/
def PieceIntoFails (a : Archive) (i len : ℕ) (e : Entry) (label : ChecksumLabel) (f : Fault) :
    Prop :=
  PieceFault a AnyChunkFault e label i f ∨ PieceSizeFault a e i len f

/-- **Hostile input cannot break the reader**: opening does not panic, and a call on an open archive
fails at the lookup, for its range, chunk number, destination or limit, or at a chunk it touches. -/
theorem reads_fail_only_by (D : Dependencies) (R : RandomAccessRead W) :
    (∀ key limits, RunsSafe (openWithLimits D R key limits)) ∧
    ∀ key limits w₀ w₁ a, openWithLimits D R key limits w₀ = (.ok a, w₁) →
      (∀ path w f w', read D R a path w = (.error f, w') →
        FailsOn D a path (WholeFault a AnyChunkFault) f) ∧
      (∀ id w f w', readById D R a id w = (.error f, w') →
        f = .error (.notFound ("hash:" ++ hex16 id.get)) ∨ f = .error (.hashCollision id.get) ∨
          ∃ e, entryById a id = .ok e ∧ WholeFault a AnyChunkFault e (labelOf a e id) f) ∧
      (∀ path s f s', readIntoWithScratch D R a path s = (.error f, s') →
        FailsOn D a path (fun e l => EntryFault a AnyChunkFault e l s.dst) f) ∧
      (∀ path s f s', readInto D R a path s = (.error f, s') →
        FailsOn D a path (fun e l => EntryFault a AnyChunkFault e l s.2) f) ∧
      (∀ path i w f w', readChunk D R a path i w = (.error f, w') →
        FailsOn D a path (fun e l => PieceFault a AnyChunkFault e l i.toNat) f) ∧
      (∀ path i s f s', readChunkIntoWithScratch D R a path i s = (.error f, s') →
        FailsOn D a path (PieceIntoFails a i.toNat s.dst.length) f) ∧
      (∀ path i s f s', readChunkInto D R a path i s = (.error f, s') →
        FailsOn D a path (PieceIntoFails a i.toNat s.2.length) f) ∧
      (∀ path offset len w f w', readRange D R a path offset len w = (.error f, w') →
        FailsOn D a path (RangeFails a offset.toNat len.toNat false) f) ∧
      (∀ path offset len w f w', readRangeExact D R a path offset len w = (.error f, w') →
        FailsOn D a path (RangeFails a offset.toNat len.toNat true) f) ∧
      (∀ path offset s f s', s.dst.length < 2 ^ 64 →
        readRangeWithScratch D R a path offset s = (.error f, s') →
        FailsOn D a path (RangeFails a offset.toNat s.dst.length false) f) ∧
      (∀ path offset s f s', s.2.length < 2 ^ 64 →
        readRangeInto D R a path offset s = (.error f, s') →
        FailsOn D a path (RangeFails a offset.toNat s.2.length false) f) ∧
      ∀ w f w', verify D R a w = (.error f, w') →
        f = .error .tooManyChunks ∨ ∃ e ∈ a.entries, ∃ i < e.chunkCount.toNat,
          ChunkFault (labelOf a e (AssetId.fromRaw e.pathHash)) i f := by
  refine ⟨fun key limits => openWithLimits_runsSafe, fun key limits w₀ w₁ a hopen => ?_⟩
  have h := openWithLimits_wellFormed hopen
  have spec := (anySource D R a).trace
  -- the specifications of the calls say where they fail; only the lookup is named otherwise here
  have hon : ∀ {path : String} {f : Fault} {Fails Fails' : Entry → ChecksumLabel → Fault → Prop},
      (entry D a path = .error f ∨ ∃ e q, entry D a path = .ok e ∧ Fails e (.path q) f) →
      (∀ e label, Fails e label f → Fails' e label f) → FailsOn D a path Fails' f := by
    intro path f Fails Fails' hf himp
    rcases hf with hf | ⟨e, q, he, hf⟩
    · exact Or.inl (entry_error h hf)
    · exact Or.inr ⟨e, q, he, himp e _ hf⟩
  have hrange : ∀ (offset len : ℕ) (exact : Bool) (f : Fault) (e : Entry) (label : ChecksumLabel),
      RangeFailsAt a (VerifiedAt D a) (fun label l _ f => ChunkFault label l f) e label offset len
        exact f → RangeFails a offset len exact e label f := by
    intro offset len exact f e label hf
    -- where the failed chunk lies is forgotten
    exact hf.imp_right fun ⟨n, hacc, hf⟩ => ⟨n, hacc, hf.mono fun _ _ => And.left⟩
  refine ⟨?_, ?_, ?_, ?_, ?_, ?_, ?_, ?_, ?_, ?_, ?_, ?_⟩
  · intro path w f w' hr
    exact hon ((read_post spec h trivial).of_error hr).2 fun _ _ hf => hf.mono fun _ _ => And.left
  · intro id w f w' hr
    rcases ((readById_post spec h trivial id).of_error hr).2 with hf | ⟨e, he, hf⟩
    · -- a missing and an ambiguous identifier are told apart
      exact (entryById_error h hf).imp_right Or.inl
    · exact Or.inr (Or.inr ⟨e, he, hf.mono fun _ _ => And.left⟩)
  · intro path s f s' hr
    rcases ((readIntoWithScratch_post spec h trivial).of_error hr).2.2 with hf | ⟨e, q, he, hf⟩
    · exact Or.inl (entry_error h hf)
    · exact Or.inr ⟨e, q, he, hf.mono fun _ _ => And.left⟩
  · intro path s f s' hr
    obtain ⟨t, hrun, rfl⟩ := withDefaultScratch_run hr
    rcases ((readIntoWithScratch_post spec h trivial).of_error hrun).2.2 with hf | ⟨e, q, he, hf⟩
    · exact Or.inl (entry_error h hf)
    · exact Or.inr ⟨e, q, he, hf.mono fun _ _ => And.left⟩
  · intro path i w f w' hr
    exact hon ((readChunk_post spec h trivial i).of_error hr).2 fun _ _ hf => hf
  · intro path i s f s' hr
    exact hon ((readChunkIntoWithScratch_post spec h trivial i).of_error hr).2.2 fun _ _ hf => hf
  · intro path i s f s' hr
    obtain ⟨t, hrun, rfl⟩ := withDefaultScratch_run hr
    exact hon ((readChunkIntoWithScratch_post spec h trivial i).of_error hrun).2.2 fun _ _ hf => hf
  · intro path offset len w f w' hr
    exact hon ((readRange_post spec h trivial offset len false).of_error hr).2 (hrange _ _ _ f)
  · intro path offset len w f w' hr
    exact hon ((readRange_post spec h trivial offset len true).of_error hr).2 (hrange _ _ _ f)
  · intro path offset s f s' hlt hr
    exact hon ((readRangeWithScratch_post spec h trivial offset hlt).of_error hr).2.2
      (hrange _ _ _ f)
  · intro path offset s f s' hlt hr
    obtain ⟨t, hrun, rfl⟩ := withDefaultScratch_run hr
    exact hon ((readRangeWithScratch_post spec h trivial offset hlt).of_error hrun).2.2
      (hrange _ _ _ f)
  · intro w f w' hr
    rcases (verify_post spec h trivial).of_error hr with ⟨-, hf, -⟩ |
      -- the loop over the entries stops at the entry `e`, at its chunk `n`
      ⟨-, front, e, back, hentries, -, n, hn, -, hf, -⟩
    · exact Or.inl hf
    · exact Or.inr ⟨e, by simp [hentries], n, hn, hf⟩

/-- A failed lookup, a range past the end, and a chunk of two bytes with a destination of three, in
the small archive. -/
theorem reads_fail_only_by_small :
    FailsOn reference smallArchive "b" (WholeFault smallArchive AnyChunkFault)
        (.error (.notFound "b")) ∧
      FailsOn reference smallArchive "a" (RangeFails smallArchive 4 1 false)
        (.error .invalidRange) ∧
      FailsOn reference smallArchive "a" (PieceIntoFails smallArchive 0 3)
        (.error (.bufferSizeMismatch 2 3)) := by
  obtain ⟨hread, -, -, -, -, -, hchunkInto, hrange, -⟩ :=
    (reads_fail_only_by reference sliceSource).2 smallKey .runtimeDefault smallBytes smallBytes
      smallArchive openWithLimits_small
  refine ⟨?_, ?_, ?_⟩
  · exact hread "b" smallBytes _ smallBytes (by decide +kernel)
  · exact hrange "a" 4 1 smallBytes _ smallBytes (by decide +kernel)
  · exact hchunkInto "a" 0 (smallBytes, [0, 0, 0]) _ (smallBytes, [0, 0, 0]) (by decide +kernel)

end Verified

end RasenArchive
