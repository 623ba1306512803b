import RasenArchive.Archive.ReadRange

/-!
# The reading calls

The public calls that return bytes: whole entries, single chunks and ranges, into fresh buffers or
into those of the caller. Each of them looks an entry up, and has a part for the entry it found.

## Main definitions

* `read`, `readById`, `readInto`, `readChunk`, `readChunkInto`, `readRange`, `readRangeExact`,
  `readRangeInto`, with their variants that take a scratch space
* `verify`: reading every chunk

## Main results

* `readFound_post`, `readChunkFound_post`, `readChunkIntoFound_post`, `readRangeFound_post`,
  `readRangeIntoFound_post`: what the parts for a found entry return
* `verify_post`: how `verify` fails
-/

namespace RasenArchive

variable (D : Dependencies) {W : Type} (R : RandomAccessRead W) (a : Archive)

/-- A call with a fresh destination of `n` bytes and a default scratch space. -/
def intoFresh (n : ℕ) (x : Fallible (ReadState W) Fault Unit) : Fallible W Fault Bytes := fun w =>
  match x ⟨w, List.replicate n 0, {}⟩ with
  | (.ok (), s) => (.ok s.dst, s.source)
  | (.error f, s) => (.error f, s.source)

/-- A call with a default scratch space. -/
def withDefaultScratch {α : Type} (x : Fallible (ReadState W) Fault α) :
    Fallible (W × Bytes) Fault α :=
  Fallible.focus (fun s => ⟨s.1, s.2, {}⟩) (fun t _ => (t.source, t.dst)) x

/-- Read a chunk into the whole destination. -/
def onWhole (x : Fallible (BlockState W) Fault Unit) : Fallible (ReadState W) Fault Unit :=
  Fallible.focus (fun s => ⟨s.source, s.dst, s.scratch.stored⟩)
    (fun t s => ⟨t.source, t.dst, ⟨t.stored, s.scratch.decoded⟩⟩) x

/-- Read into `dst[..n]`. -/
def onPrefix (n : ℕ) (x : Fallible (ReadState W) Fault Unit) : Fallible (ReadState W) Fault Unit :=
  Fallible.focus (fun s => ⟨s.source, s.dst.extract 0 n, s.scratch⟩)
    (fun t s => ⟨t.source, overwrite s.dst 0 t.dst, t.scratch⟩) x

/-! ## The parts for a found entry -/

/-- `read` and `read_by_id`, from the number of the entry on. -/
def readFound (idx : ℕ) (label : ChecksumLabel) : Fallible W Fault Bytes := do
  let entry ← index a.entries idx
  ensureChunkOperationLimit a entry.chunkCount.toNat
  let size ← u64ToUsize entry.originalSize.toNat "original entry size"
  intoFresh size (readEntryInto D R a idx label)

/-- The number in the whole table of a chunk of an entry. -/
def chunkOfEntry (idx : ℕ) (chunkIndex : UInt32) : Result ℕ := do
  let entry ← index a.entries idx
  ensure (chunkIndex.toNat < entry.chunkCount.toNat)
    (.chunkOutOfRange chunkIndex.toNat entry.chunkCount.toNat)
  globalChunkOf entry chunkIndex.toNat

/-- `read_chunk`, from the number of the entry on. -/
def readChunkFound (idx : ℕ) (label : ChecksumLabel) (chunkIndex : UInt32) :
    Fallible W Fault Bytes := do
  let globalChunk ← chunkOfEntry a idx chunkIndex
  ensureChunkOperationLimit a 1
  let chunk ← chunkAt a globalChunk
  let len ← u64ToUsize chunk.originalSize.toNat "original chunk size"
  intoFresh len (onWhole (readChunkByIndexInto D R a label chunkIndex.toNat globalChunk))

/-- `read_chunk_into_with_scratch`, from the number of the entry on. -/
def readChunkIntoFound (idx : ℕ) (label : ChecksumLabel) (chunkIndex : UInt32) :
    Fallible (ReadState W) Fault Unit := do
  let globalChunk ← chunkOfEntry a idx chunkIndex
  onWhole (readChunkByIndexInto D R a label chunkIndex.toNat globalChunk)

/-- `read_range` and `read_range_exact`, from the number of the entry on. -/
def readRangeFound (idx : ℕ) (label : ChecksumLabel) (offset len : ℕ) (exact : Bool) :
    Fallible W Fault Bytes := do
  let actualLen ← rangeLen a idx offset len exact
  intoFresh actualLen (readRangeIndexInto D R a idx label offset)

/-- `read_range_with_scratch`, from the number of the entry on. -/
def readRangeIntoFound (idx : ℕ) (label : ChecksumLabel) (offset : ℕ) :
    Fallible (ReadState W) Fault ℕ := do
  let s ← Fallible.gets id
  let actualLen ← rangeLen a idx offset s.dst.length false
  let _ ← slice s.dst 0 actualLen
  onPrefix actualLen (readRangeIndexInto D R a idx label offset)
  pure actualLen

/-! ## The calls -/

/-- `Archive::read`. -/
def read (path : String) : Fallible W Fault Bytes := do
  let (normalized, idx) ← locate D a path
  readFound D R a idx (.path normalized)

/-- The label that `read_by_id` reports a chunk under. -/
def labelOf (entry : Entry) (id : AssetId) : ChecksumLabel :=
  if a.pathsStripped then .hash id else .path entry.path

/-- `Archive::read_by_id`. -/
def readById (id : AssetId) : Fallible W Fault Bytes := do
  let idx ← findEntryIndexById a id
  let entry ← index a.entries idx
  readFound D R a idx (labelOf a entry id)

/-- `Archive::read_by_hash`. -/
def readByHash (pathHash : UInt64) : Fallible W Fault Bytes :=
  readById D R a (AssetId.fromRaw pathHash)

/-- `Archive::read_into_with_scratch`. -/
def readIntoWithScratch (path : String) : Fallible (ReadState W) Fault Unit := do
  let (normalized, idx) ← locate D a path
  readEntryInto D R a idx (.path normalized)

/-- `Archive::read_into`. -/
def readInto (path : String) : Fallible (W × Bytes) Fault Unit :=
  withDefaultScratch (readIntoWithScratch D R a path)

/-- `Archive::read_chunk`. -/
def readChunk (path : String) (chunkIndex : UInt32) : Fallible W Fault Bytes := do
  let (normalized, idx) ← locate D a path
  readChunkFound D R a idx (.path normalized) chunkIndex

/-- `Archive::read_chunk_into_with_scratch`. -/
def readChunkIntoWithScratch (path : String) (chunkIndex : UInt32) :
    Fallible (ReadState W) Fault Unit := do
  let (normalized, idx) ← locate D a path
  readChunkIntoFound D R a idx (.path normalized) chunkIndex

/-- `Archive::read_chunk_into`. -/
def readChunkInto (path : String) (chunkIndex : UInt32) : Fallible (W × Bytes) Fault Unit :=
  withDefaultScratch (readChunkIntoWithScratch D R a path chunkIndex)

/-- `Archive::read_range`. -/
def readRange (path : String) (offset len : UInt64) : Fallible W Fault Bytes := do
  let (normalized, idx) ← locate D a path
  readRangeFound D R a idx (.path normalized) offset.toNat len.toNat false

/-- `Archive::read_range_exact`. -/
def readRangeExact (path : String) (offset len : UInt64) : Fallible W Fault Bytes := do
  let (normalized, idx) ← locate D a path
  readRangeFound D R a idx (.path normalized) offset.toNat len.toNat true

/-- `Archive::read_range_with_scratch`. -/
def readRangeWithScratch (path : String) (offset : UInt64) :
    Fallible (ReadState W) Fault ℕ := do
  let (normalized, idx) ← locate D a path
  readRangeIntoFound D R a idx (.path normalized) offset.toNat

/-- `Archive::read_range_into`. -/
def readRangeInto (path : String) (offset : UInt64) : Fallible (W × Bytes) Fault ℕ :=
  withDefaultScratch (readRangeWithScratch D R a path offset)

/-- One turn of the inner loop of `verify`. -/
def verifyChunk (entry : Entry) (label : ChecksumLabel) (localChunk : ℕ) :
    Fallible (ReadState W) Fault Unit := do
  let globalChunk ← globalChunkOf entry localChunk
  let chunk ← chunkAt a globalChunk
  let len ← u64ToUsize chunk.originalSize.toNat "original chunk size"
  Fallible.modify fun s => { s with scratch.decoded := resize s.scratch.decoded len }
  onDecoded (readChunkByIndexInto D R a label localChunk globalChunk)

/-- The inner loop of `verify`, with the number of turns left. -/
def verifyChunks (entry : Entry) (label : ChecksumLabel) :
    ℕ → ℕ → Fallible (ReadState W) Fault Unit
  | 0, _ => pure ()
  | turns + 1, localChunk => do
    verifyChunk D R a entry label localChunk
    verifyChunks entry label turns (localChunk + 1)

/-- The outer loop of `verify`. -/
def verifyEntries : List Entry → Fallible (ReadState W) Fault Unit
  | [] => pure ()
  | entry :: entries => do
    verifyChunks D R a entry (labelOf a entry (AssetId.fromRaw entry.pathHash))
      entry.chunkCount.toNat 0
    verifyEntries entries

/-- `Archive::verify`. -/
def verify : Fallible W Fault Unit := do
  let count ← okOr (tryFrom 32 a.chunks.length) .tooManyChunks
  ensureChunkOperationLimit a count
  Fallible.focus (fun w => ⟨w, [], {}⟩) (fun t _ => t.source) (verifyEntries D R a a.entries)

/-! ## What they return -/

section Post

variable {D R a} {Inv : List ℕ → W → Prop} {Rel : ℕ → Bytes → Prop}
  {Err : ChecksumLabel → ℕ → ℕ → Fault → Prop} {entry : Entry} {idx : ℕ} {label : ChecksumLabel}
  {chunk : Chunk} {w : W} {s : ReadState W}

theorem post_intoFresh (n : ℕ) (x : Fallible (ReadState W) Fault Unit) {Q : Bytes → W → Prop}
    {E : Fault → W → Prop} :
    Fallible.Post (intoFresh n x) w Q E ↔
      Fallible.Post x ⟨w, List.replicate n 0, {}⟩ (fun _ s => Q s.dst s.source)
        (fun f s => E f s.source) := by
  unfold Fallible.Post intoFresh
  rcases x ⟨w, List.replicate n 0, {}⟩ with ⟨_ | ⟨⟨⟩⟩, s⟩ <;> rfl

variable (spec : TraceSpec D R a Inv Rel Err) (h : WellFormed D a)
  (hidx : a.entries[idx]? = some entry)

/-- How a call that takes no destination fails to read a whole entry. -/
def WholeFault (a : Archive) (Err : ChecksumLabel → ℕ → ℕ → Fault → Prop) (entry : Entry)
    (label : ChecksumLabel) (f : Fault) : Prop :=
  (a.maxChunksPerOperation < entry.chunkCount.toNat ∧ f = .error .tooManyChunks) ∨
    (entry.chunkCount.toNat ≤ a.maxChunksPerOperation ∧
      ∃ i, i < entry.chunkCount.toNat ∧ Err label i (entry.firstChunk.toNat + i) f)

omit spec h hidx in
theorem WholeFault.mono {Err' : ChecksumLabel → ℕ → ℕ → Fault → Prop} {f : Fault}
    (h : WholeFault a Err entry label f) (himp : ∀ l g, Err label l g f → Err' label l g f) :
    WholeFault a Err' entry label f := by
  rcases h with hlim | ⟨hlimit, i, hi, herr⟩
  · exact Or.inl hlim
  · exact Or.inr ⟨hlimit, i, hi, himp _ _ herr⟩

include spec h hidx

/-- **A whole entry** in a fresh buffer. -/
theorem readFound_post (hinv : Inv [] w) :
    Fallible.Post (readFound D R a idx label) w
      (fun d w' => entry.chunkCount.toNat ≤ a.maxChunksPerOperation ∧
        Inv entry.chunkNumbers w' ∧ IsWhole Rel entry d)
      (fun f w' => Bounded a Inv w' ∧
        WholeFault a (FirstErr Rel Err entry 0) entry label f) := by
  unfold readFound
  rw [Fallible.post_liftM_bind_of_ok (index_eq_ok_iff.mpr hidx)]
  by_cases hlimit : entry.chunkCount.toNat ≤ a.maxChunksPerOperation
  swap
  · rw [ensureChunkOperationLimit, ensure, if_neg hlimit]
    exact ⟨.of_nil hinv, Or.inl ⟨by omega, rfl⟩⟩
  rw [ensureChunkOperationLimit, Fallible.post_liftM_bind_of_ok (ensure_of hlimit),
    Fallible.post_liftM_bind_of_ok (u64ToUsize_toNat _ _), post_intoFresh]
  refine (readEntryInto_post spec h hidx hinv).mono ?_ ?_
  · rintro _ s' ⟨hle, -, hs', hwhole⟩
    exact ⟨hle, hs', hwhole⟩
  · rintro f s' ⟨hs', -, hlim | hsize | ⟨hle, -, hchunk⟩⟩
    · exact ⟨hs', Or.inl hlim⟩
    · exact absurd (by simp) hsize.1
    · exact ⟨hs', Or.inr ⟨hle, hchunk⟩⟩

omit spec in
/-- The number of a chunk of a found entry. -/
theorem chunkOfEntry_cases (i : UInt32) :
    (entry.chunkCount.toNat ≤ i.toNat ∧ chunkOfEntry a idx i =
        .error (.error (.chunkOutOfRange i.toNat entry.chunkCount.toNat))) ∨
      (i.toNat < entry.chunkCount.toNat ∧
        chunkOfEntry a idx i = .ok (entry.firstChunk.toNat + i.toNat) ∧
        ∃ chunk, a.chunks[entry.firstChunk.toNat + i.toNat]? = some chunk) := by
  obtain ⟨hrange, -, -, -, -⟩ := h.ownedChunks_spec (List.mem_of_getElem? hidx)
  have hchunks := h.chunks_lt
  unfold chunkOfEntry
  rw [index_eq_ok_iff.mpr hidx, ok_bind]
  by_cases hi : i.toNat < entry.chunkCount.toNat
  · refine Or.inr ⟨hi, ?_, _, List.getElem?_eq_getElem (by omega)⟩
    rw [ensure_of hi, ok_bind]
    exact globalChunkOf_of_lt (by omega)
  · refine Or.inl ⟨by omega, ?_⟩
    rw [ensure, if_neg hi]
    rfl

/-- How reading one chunk of an entry fails, apart from the length of the destination. -/
def PieceFault (a : Archive) (Err : ChecksumLabel → ℕ → ℕ → Fault → Prop) (entry : Entry)
    (label : ChecksumLabel) (i : ℕ) (f : Fault) : Prop :=
  (entry.chunkCount.toNat ≤ i ∧ f = .error (.chunkOutOfRange i entry.chunkCount.toNat)) ∨
    (a.maxChunksPerOperation = 0 ∧ f = .error .tooManyChunks) ∨
    (i < entry.chunkCount.toNat ∧ Err label i (entry.firstChunk.toNat + i) f)

/-- The destination for chunk `i` of an entry has `len` bytes, and the chunk has not. -/
def PieceSizeFault (a : Archive) (entry : Entry) (i len : ℕ) (f : Fault) : Prop :=
  1 ≤ a.maxChunksPerOperation ∧ i < entry.chunkCount.toNat ∧ ∃ chunk,
    a.chunks[entry.firstChunk.toNat + i]? = some chunk ∧ len ≠ chunk.originalSize.toNat ∧
      f = .error (.bufferSizeMismatch chunk.originalSize.toNat len)

/-- **One chunk** in a fresh buffer. -/
theorem readChunkFound_post (hinv : Inv [] w) (i : UInt32) :
    Fallible.Post (readChunkFound D R a idx label i) w
      (fun d w' => i.toNat < entry.chunkCount.toNat ∧
        Inv [entry.firstChunk.toNat + i.toNat] w' ∧ Rel (entry.firstChunk.toNat + i.toNat) d)
      (fun f w' => Bounded a Inv w' ∧ PieceFault a Err entry label i.toNat f) := by
  unfold readChunkFound
  rcases chunkOfEntry_cases h hidx i with ⟨hi, hc⟩ | ⟨hi, hc, chunk, hchunk⟩
  · rw [hc]
    exact ⟨.of_nil hinv, Or.inl ⟨hi, rfl⟩⟩
  rw [Fallible.post_liftM_bind_of_ok hc]
  by_cases hlimit : 1 ≤ a.maxChunksPerOperation
  swap
  · rw [ensureChunkOperationLimit, ensure, if_neg hlimit]
    exact ⟨.of_nil hinv, Or.inr (Or.inl ⟨by omega, rfl⟩)⟩
  have hat : chunkAt a (entry.firstChunk.toNat + i.toNat) = .ok chunk :=
    okOr_eq_ok_iff.mpr hchunk
  rw [ensureChunkOperationLimit, Fallible.post_liftM_bind_of_ok (ensure_of hlimit),
    Fallible.post_liftM_bind_of_ok hat, Fallible.post_liftM_bind_of_ok (u64ToUsize_toNat _ _),
    post_intoFresh, onWhole, Fallible.post_focus]
  refine (spec.read hlimit hchunk (by simp) hinv).mono ?_ ?_
  · rintro _ t ⟨ht, hrel⟩
    exact ⟨hi, ht, hrel⟩
  · rintro f t ⟨ht, -, herr⟩
    exact ⟨.of_single hlimit ht, Or.inr (Or.inr ⟨hi, herr⟩)⟩

/-- **One chunk** in the buffer of the caller. -/
theorem readChunkIntoFound_post (hinv : Inv [] s.source) (i : UInt32) :
    Fallible.Post (readChunkIntoFound D R a idx label i) s
      (fun _ s' => i.toNat < entry.chunkCount.toNat ∧
        Inv [entry.firstChunk.toNat + i.toNat] s'.source ∧
        Rel (entry.firstChunk.toNat + i.toNat) s'.dst ∧ s'.dst.length = s.dst.length)
      (fun f s' => Bounded a Inv s'.source ∧ s'.dst.length = s.dst.length ∧
        (PieceFault a Err entry label i.toNat f ∨
          PieceSizeFault a entry i.toNat s.dst.length f)) := by
  unfold readChunkIntoFound
  rcases chunkOfEntry_cases h hidx i with ⟨hi, hc⟩ | ⟨hi, hc, chunk, hchunk⟩
  · rw [hc]
    exact ⟨.of_nil hinv, rfl, Or.inl (Or.inl ⟨hi, rfl⟩)⟩
  rw [Fallible.post_liftM_bind_of_ok hc, onWhole, Fallible.post_focus]
  by_cases hlimit : 1 ≤ a.maxChunksPerOperation
  swap
  · unfold Fallible.Post
    rw [readChunkByIndexInto_of_limit (by omega)]
    exact ⟨.of_nil hinv, rfl, Or.inl (Or.inr (Or.inl ⟨by omega, rfl⟩))⟩
  by_cases hdst : s.dst.length = chunk.originalSize.toNat
  swap
  · unfold Fallible.Post
    rw [readChunkByIndexInto_of_length_ne hlimit hchunk hdst]
    exact ⟨.of_nil hinv, rfl, Or.inr ⟨hlimit, hi, chunk, hchunk, hdst, rfl⟩⟩
  refine (spec.read hlimit hchunk hdst hinv).mono ?_ ?_
  · rintro _ t ⟨ht, hrel⟩
    exact ⟨hi, ht, hrel, (spec.length_eq hchunk hrel).trans hdst.symm⟩
  · rintro f t ⟨ht, hlen, herr⟩
    exact ⟨.of_single hlimit ht, hlen, Or.inl (Or.inr (Or.inr ⟨hi, herr⟩))⟩

/-- **A range** in a fresh buffer. -/
theorem readRangeFound_post (hinv : Inv [] w) (offset : ℕ) {len : ℕ} (hlt : len < 2 ^ 64)
    (exact : Bool) :
    Fallible.Post (readRangeFound D R a idx label offset len exact) w
      (fun d w' => Inv (touchedNumbers a entry offset d.length) w' ∧
        RangeAccepted a entry offset len exact d.length ∧ IsRange a Rel entry offset d.length d)
      (fun f w' => Bounded a Inv w' ∧ (RangeRefused a entry offset len exact f ∨
        ∃ n, RangeAccepted a entry offset len exact n ∧
          RangeFault a (FirstErr Rel Err entry (offset / a.chunkSize.toNat)) entry label offset n
            f)) := by
  unfold readRangeFound
  rcases rangeLen_cases h hidx hlt with ⟨n, hlen, hacc⟩ | ⟨f, hlen, href⟩
  swap
  · rw [hlen]
    exact ⟨.of_nil hinv, Or.inl href⟩
  have ⟨hle, _, _, hn, hlimit⟩ := hacc
  rw [Fallible.post_liftM_bind_of_ok hlen, post_intoFresh]
  have hpost : Fallible.Post (readRangeIndexInto D R a idx label offset)
      ⟨w, List.replicate n 0, {}⟩ _ _ :=
    readRangeIndexInto_post spec h hidx (by simp only [List.length_replicate]; omega)
      (by simpa using hlimit) hinv
  rw [List.length_replicate] at hpost
  refine hpost.mono ?_ ?_
  · rintro _ s' ⟨hs', hlen', hrange⟩
    exact ⟨by rwa [hlen'], by rwa [hlen'], by rwa [hlen']⟩
  · rintro f s' ⟨hs', -, hf⟩
    exact ⟨hs', Or.inr ⟨n, hacc, hf⟩⟩

/-- **A range** at the front of the buffer of the caller. -/
theorem readRangeIntoFound_post (hinv : Inv [] s.source) (offset : ℕ)
    (hlt : s.dst.length < 2 ^ 64) :
    Fallible.Post (readRangeIntoFound D R a idx label offset) s
      (fun n s' => Inv (touchedNumbers a entry offset n) s'.source ∧
        RangeAccepted a entry offset s.dst.length false n ∧
        ∃ d, d.length = n ∧ IsRange a Rel entry offset n d ∧ s'.dst = d ++ s.dst.drop n)
      (fun f s' => Bounded a Inv s'.source ∧ s'.dst.length = s.dst.length ∧
        (RangeRefused a entry offset s.dst.length false f ∨
          ∃ n, RangeAccepted a entry offset s.dst.length false n ∧
            RangeFault a (FirstErr Rel Err entry (offset / a.chunkSize.toNat)) entry label offset n
              f)) := by
  unfold readRangeIntoFound
  rw [Fallible.post_bind, Fallible.post_gets, id]
  rcases rangeLen_cases h hidx hlt with ⟨n, hlen, hacc⟩ | ⟨f, hlen, href⟩
  swap
  · rw [hlen]
    exact ⟨.of_nil hinv, rfl, Or.inl href⟩
  have ⟨hle, _, _, hn, hlimit⟩ := hacc
  have hprefix : n ≤ s.dst.length := by omega
  have hwindow : (s.dst.extract 0 n).length = n := length_extract hprefix
  rw [Fallible.post_liftM_bind_of_ok hlen,
    Fallible.post_liftM_bind_of_ok (slice_of_le (Nat.zero_le n) hprefix), Fallible.post_bind,
    onPrefix, Fallible.post_focus]
  have hpost : Fallible.Post (readRangeIndexInto D R a idx label offset)
      ⟨s.source, s.dst.extract 0 n, s.scratch⟩ _ _ :=
    readRangeIndexInto_post spec h hidx (by simp only [hwindow]; omega)
      (by rw [hwindow]; exact hlimit) hinv
  rw [hwindow] at hpost
  refine hpost.mono ?_ ?_
  · rintro _ t ⟨ht, htlen, hrange⟩
    refine ⟨ht, hacc, t.dst, htlen, hrange, ?_⟩
    show overwrite s.dst 0 t.dst = _
    rw [overwrite_zero, htlen]
  · rintro f t ⟨ht, htlen, hf⟩
    exact ⟨ht, length_overwrite (by rw [htlen]; omega), Or.inr ⟨n, hacc, hf⟩⟩

/-! ## Reading everything -/

omit h hidx in
/-- **One turn** of `verify`. -/
theorem verifyChunk_post {l : ℕ} {done : List ℕ} (hlimit : 1 ≤ a.maxChunksPerOperation)
    (hglobal : entry.firstChunk.toNat + l < 2 ^ 32)
    (hchunk : a.chunks[entry.firstChunk.toNat + l]? = some chunk) (hinv : Inv done s.source) :
    Fallible.Post (verifyChunk D R a entry label l) s
      (fun _ s' => Inv (done ++ [entry.firstChunk.toNat + l]) s'.source ∧
        ∃ d, Rel (entry.firstChunk.toNat + l) d)
      (fun f s' => Inv (done ++ [entry.firstChunk.toNat + l]) s'.source ∧
        Err label l (entry.firstChunk.toNat + l) f) := by
  have hat : chunkAt a (entry.firstChunk.toNat + l) = .ok chunk := okOr_eq_ok_iff.mpr hchunk
  unfold verifyChunk
  rw [Fallible.post_liftM_bind_of_ok (globalChunkOf_of_lt hglobal),
    Fallible.post_liftM_bind_of_ok hat, Fallible.post_liftM_bind_of_ok (u64ToUsize_toNat _ _),
    Fallible.post_bind, Fallible.post_modify, onDecoded, Fallible.post_focus]
  refine (spec.read hlimit hchunk (length_resize _ _) hinv).mono ?_ ?_
  · rintro _ t ⟨ht, hrel⟩
    exact ⟨ht, t.dst, hrel⟩
  · rintro f t ⟨ht, -, herr⟩
    exact ⟨ht, herr⟩

omit h hidx in
/-- **The inner loop** of `verify` reads the chunks of an entry, up to the first that fails. -/
theorem verifyChunks_post {turns l : ℕ} {done : List ℕ} (hlimit : turns ≤ a.maxChunksPerOperation)
    (hglobal : entry.firstChunk.toNat + l + turns ≤ 2 ^ 32)
    (hchunks : entry.firstChunk.toNat + l + turns ≤ a.chunks.length) (hinv : Inv done s.source) :
    Fallible.Post (verifyChunks D R a entry label turns l) s
      (fun _ s' => Inv (done ++ List.range' (entry.firstChunk.toNat + l) turns) s'.source ∧
        ∀ i, l ≤ i → i < l + turns → ∃ d, Rel (entry.firstChunk.toNat + i) d)
      (fun f s' => ∃ n, n < turns ∧
        Inv (done ++ List.range' (entry.firstChunk.toNat + l) (n + 1)) s'.source ∧
        FirstErr Rel Err entry l label (l + n) (entry.firstChunk.toNat + (l + n)) f) := by
  induction turns generalizing l s done with
  | zero => exact ⟨by simpa using hinv, fun i hl hi => by omega⟩
  | succ turns ih =>
    refine ((verifyChunk_post spec (by omega) (by omega) (List.getElem?_eq_getElem (by omega))
      hinv).mono (fun _ _ hQ => hQ) ?_).bind ?_
    · rintro f s' ⟨hs', herr⟩
      exact ⟨0, by omega, hs', herr, fun j hl hj => by omega⟩
    · rintro _ s' ⟨hs', d, hd⟩
      refine (ih (by omega) (by omega) (by omega) hs').mono ?_ ?_
      · rintro _ t ⟨ht, hall⟩
        rw [← Nat.add_assoc, append_range'] at ht
        refine ⟨ht, fun i hl hi => ?_⟩
        rcases Nat.eq_or_lt_of_le hl with rfl | hlt
        · exact ⟨d, hd⟩
        · exact hall i hlt (by omega)
      · rintro f t ⟨n, hn, ht, herr⟩
        rw [← Nat.add_assoc, append_range'] at ht
        exact ⟨n + 1, by omega, ht, herr.behind hd⟩

/-- Every chunk of the entry has a content. -/
def HasContents (Rel : ℕ → Bytes → Prop) (entry : Entry) : Prop :=
  ∀ i, i < entry.chunkCount.toNat → ∃ d, Rel (entry.firstChunk.toNat + i) d

/-- How `verify` fails at a chunk: the first that fails of the first of `entries` with such a chunk.
The chunks in front of it and the chunk itself are added to the record. -/
def VerifyFault (a : Archive) (Inv : List ℕ → W → Prop) (Rel : ℕ → Bytes → Prop)
    (Err : ChecksumLabel → ℕ → ℕ → Fault → Prop) (done : List ℕ) (entries : List Entry) (f : Fault)
    (w : W) : Prop :=
  ∃ front e back, entries = front ++ e :: back ∧ (∀ e' ∈ front, HasContents Rel e') ∧
    ∃ n, n < e.chunkCount.toNat ∧
      Inv (done ++ front.flatMap TocEntry.chunkNumbers ++
        List.range' e.firstChunk.toNat (n + 1)) w ∧
      FirstErr Rel Err e 0 (labelOf a e (AssetId.fromRaw e.pathHash)) n (e.firstChunk.toNat + n) f

omit hidx in
/-- **The outer loop** of `verify` reads the chunks entry by entry, up to the first that fails. -/
theorem verifyEntries_post (hlimit : a.chunks.length ≤ a.maxChunksPerOperation)
    {entries : List Entry} {done : List ℕ} (hsub : ∀ e ∈ entries, e ∈ a.entries)
    (hinv : Inv done s.source) :
    Fallible.Post (verifyEntries D R a entries) s
      (fun _ s' => Inv (done ++ entries.flatMap TocEntry.chunkNumbers) s'.source ∧
        ∀ e ∈ entries, HasContents Rel e)
      (fun f s' => VerifyFault a Inv Rel Err done entries f s'.source) := by
  induction entries generalizing s done with
  | nil => exact ⟨by simpa using hinv, by simp⟩
  | cons e entries ih =>
    rw [List.forall_mem_cons] at hsub
    obtain ⟨hrange, -, -, -, -⟩ := h.ownedChunks_spec hsub.1
    have hchunks := h.chunks_lt
    refine ((verifyChunks_post spec (by omega) (by omega) (by omega) hinv).mono
      (fun _ _ hQ => hQ) ?_).bind ?_
    · rintro f s' ⟨n, hn, hs', herr⟩
      rw [Nat.zero_add] at herr
      exact ⟨[], e, entries, rfl, by simp, n, hn, by simpa using hs', herr⟩
    · rintro _ s' ⟨hs', hall⟩
      have hcontents : HasContents Rel e := fun i hi => hall i (Nat.zero_le _) (by omega)
      refine (ih hsub.2 hs').mono ?_ ?_
      · rintro _ t ⟨ht, hrest⟩
        rw [List.flatMap_cons, ← List.append_assoc]
        exact ⟨ht, List.forall_mem_cons.mpr ⟨hcontents, hrest⟩⟩
      · rintro f t ⟨front, e', back, rfl, hfront, n, hn, ht, herr⟩
        refine ⟨e :: front, e', back, rfl, List.forall_mem_cons.mpr ⟨hcontents, hfront⟩, n, hn, ?_,
          herr⟩
        rw [List.flatMap_cons, ← List.append_assoc]
        exact ht

omit hidx in
/-- **Reading everything**: every chunk of every entry has a content, or one of them fails. -/
theorem verify_post (hinv : Inv [] w) :
    Fallible.Post (verify D R a) w
      (fun _ w' => a.chunks.length ≤ a.maxChunksPerOperation ∧
        Inv (a.entries.flatMap TocEntry.chunkNumbers) w' ∧ ∀ e ∈ a.entries, HasContents Rel e)
      (fun f w' =>
        (a.maxChunksPerOperation < a.chunks.length ∧ f = .error .tooManyChunks ∧ Inv [] w') ∨
          (a.chunks.length ≤ a.maxChunksPerOperation ∧
            VerifyFault a Inv Rel Err [] a.entries f w')) := by
  have hcount : okOr (tryFrom 32 a.chunks.length) .tooManyChunks = .ok a.chunks.length :=
    okOr_eq_ok_iff.mpr (tryFrom_eq_some_iff.mpr ⟨h.chunks_lt, rfl⟩)
  unfold verify
  rw [Fallible.post_liftM_bind_of_ok hcount]
  by_cases hlimit : a.chunks.length ≤ a.maxChunksPerOperation
  swap
  · rw [ensureChunkOperationLimit, ensure, if_neg hlimit]
    exact Or.inl ⟨by omega, rfl, hinv⟩
  rw [ensureChunkOperationLimit, Fallible.post_liftM_bind_of_ok (ensure_of hlimit),
    Fallible.post_focus]
  refine (verifyEntries_post spec h hlimit (fun _ he => he) hinv).mono ?_ ?_
  · rintro _ t ⟨ht, hall⟩
    exact ⟨hlimit, ht, hall⟩
  · rintro f t herr
    exact Or.inr ⟨hlimit, herr⟩

end Post

/-! ## The calls -/

section Calls

variable {D R a} {Inv : List ℕ → W → Prop} {Rel : ℕ → Bytes → Prop}
  {Err : ChecksumLabel → ℕ → ℕ → Fault → Prop} (spec : TraceSpec D R a Inv Rel Err)
  (h : WellFormed D a) {path : String} {w : W} {s : ReadState W}

include h

omit h in
/-- What the lookup by path gives is an entry of the archive. -/
theorem entry_of_locate (h : WellFormed D a) {q : String} {idx : ℕ}
    (hl : locate D a path = .ok (q, idx)) :
    ∃ e, entry D a path = .ok e ∧ a.entries[idx]? = some e := by
  have hidx : findEntryIndexNormalized D a q = .ok idx := by
    simp only [locate, bind_eq_ok, pure_eq_ok_iff, Prod.mk.injEq] at hl
    obtain ⟨_, -, _, hf, rfl, rfl⟩ := hl
    exact hf
  obtain ⟨hi, -⟩ := (findEntryIndexNormalized_eq_ok_iff h).mp hidx
  refine ⟨a.entries[idx], ?_, List.getElem?_eq_getElem hi⟩
  rw [entry, hl, ok_bind]
  exact index_of_lt hi

/-- **The lookup in front of a call by path** finds the entry of the path, or fails as `entry`
does. -/
theorem post_locate {σ β : Type} {k : String × ℕ → Fallible σ Fault β} {t : σ}
    {Q : β → σ → Prop} {E : Fault → σ → Prop}
    (hok : ∀ q idx e, entry D a path = .ok e → a.entries[idx]? = some e →
      Fallible.Post (k (q, idx)) t Q E)
    (herr : ∀ f, entry D a path = .error f → E f t) :
    Fallible.Post (liftM (locate D a path) >>= k) t Q E := by
  cases hl : locate D a path with
  | error f =>
    have he : entry D a path = .error f := by rw [entry, hl]; rfl
    unfold Fallible.Post
    rw [Fallible.liftM_bind_of_error rfl]
    exact herr f he
  | ok r =>
    obtain ⟨q, idx⟩ := r
    obtain ⟨e, he, hidx⟩ := entry_of_locate h hl
    rw [Fallible.post_liftM_bind_of_ok rfl]
    exact hok q idx e he hidx

include spec

theorem read_post (hinv : Inv [] w) :
    Fallible.Post (read D R a path) w
      (fun d w' => ∃ e, entry D a path = .ok e ∧ e.chunkCount.toNat ≤ a.maxChunksPerOperation ∧
        Inv e.chunkNumbers w' ∧ IsWhole Rel e d)
      (fun f w' => Bounded a Inv w' ∧ (entry D a path = .error f ∨
        ∃ e q, entry D a path = .ok e ∧ WholeFault a (FirstErr Rel Err e 0) e (.path q) f)) := by
  refine post_locate h (fun q idx e he hidx => ?_) fun f hf => ⟨.of_nil hinv, Or.inl hf⟩
  refine (readFound_post spec h hidx hinv).mono ?_ ?_
  · rintro d w' ⟨hlimit, hw', hd⟩
    exact ⟨e, he, hlimit, hw', hd⟩
  · rintro f w' ⟨hw', hf⟩
    exact ⟨hw', Or.inr ⟨e, q, he, hf⟩⟩

theorem readById_post (hinv : Inv [] w) (id : AssetId) :
    Fallible.Post (readById D R a id) w
      (fun d w' => ∃ e, entryById a id = .ok e ∧ e.chunkCount.toNat ≤ a.maxChunksPerOperation ∧
        Inv e.chunkNumbers w' ∧ IsWhole Rel e d)
      (fun f w' => Bounded a Inv w' ∧ (entryById a id = .error f ∨
        ∃ e, entryById a id = .ok e ∧
          WholeFault a (FirstErr Rel Err e 0) e (labelOf a e id) f)) := by
  unfold readById
  cases hl : findEntryIndexById a id with
  | error f =>
    have he : entryById a id = .error f := by rw [entryById, hl]; rfl
    unfold Fallible.Post
    rw [Fallible.liftM_bind_of_error rfl]
    exact ⟨.of_nil hinv, Or.inl he⟩
  | ok idx =>
    have hidx : ∃ hi : idx < a.entries.length, True := by
      rcases findEntryIndexById_cases h id with ⟨-, hf⟩ | ⟨i, hi, hf, -⟩ | ⟨-, hf⟩
      · cases hl.symm.trans hf
      · cases hl.symm.trans hf
        exact ⟨hi, trivial⟩
      · cases hl.symm.trans hf
    obtain ⟨hi, -⟩ := hidx
    have he : entryById a id = .ok a.entries[idx] := by
      rw [entryById, hl, ok_bind]
      exact index_of_lt hi
    rw [Fallible.post_liftM_bind_of_ok rfl, Fallible.post_liftM_bind_of_ok (index_of_lt hi)]
    refine (readFound_post spec h (List.getElem?_eq_getElem hi) hinv).mono ?_ ?_
    · rintro d w' ⟨hlimit, hw', hd⟩
      exact ⟨_, he, hlimit, hw', hd⟩
    · rintro f w' ⟨hw', hf⟩
      exact ⟨hw', Or.inr ⟨_, he, hf⟩⟩

theorem readIntoWithScratch_post (hinv : Inv [] s.source) :
    Fallible.Post (readIntoWithScratch D R a path) s
      (fun _ s' => ∃ e, entry D a path = .ok e ∧ e.chunkCount.toNat ≤ a.maxChunksPerOperation ∧
        Inv e.chunkNumbers s'.source ∧ IsWhole Rel e s'.dst)
      (fun f s' => Bounded a Inv s'.source ∧ s'.dst.length = s.dst.length ∧
        (entry D a path = .error f ∨ ∃ e q, entry D a path = .ok e ∧
          EntryFault a (FirstErr Rel Err e 0) e (.path q) s.dst f)) := by
  refine post_locate h (fun q idx e he hidx => ?_) fun f hf => ⟨.of_nil hinv, rfl, Or.inl hf⟩
  refine (readEntryInto_post spec h hidx hinv).mono ?_ ?_
  · rintro _ s' ⟨hlimit, -, hs', hd⟩
    exact ⟨e, he, hlimit, hs', hd⟩
  · rintro f s' ⟨hs', hlen, hf⟩
    exact ⟨hs', hlen, Or.inr ⟨e, q, he, hf⟩⟩

theorem readChunk_post (hinv : Inv [] w) (i : UInt32) :
    Fallible.Post (readChunk D R a path i) w
      (fun d w' => ∃ e, entry D a path = .ok e ∧ i.toNat < e.chunkCount.toNat ∧
        Inv [e.firstChunk.toNat + i.toNat] w' ∧ Rel (e.firstChunk.toNat + i.toNat) d)
      (fun f w' => Bounded a Inv w' ∧ (entry D a path = .error f ∨
        ∃ e q, entry D a path = .ok e ∧ PieceFault a Err e (.path q) i.toNat f)) := by
  refine post_locate h (fun q idx e he hidx => ?_) fun f hf => ⟨.of_nil hinv, Or.inl hf⟩
  refine (readChunkFound_post spec h hidx hinv i).mono ?_ ?_
  · rintro d w' ⟨hi, hw', hd⟩
    exact ⟨e, he, hi, hw', hd⟩
  · rintro f w' ⟨hw', hf⟩
    exact ⟨hw', Or.inr ⟨e, q, he, hf⟩⟩

theorem readChunkIntoWithScratch_post (hinv : Inv [] s.source) (i : UInt32) :
    Fallible.Post (readChunkIntoWithScratch D R a path i) s
      (fun _ s' => ∃ e, entry D a path = .ok e ∧ i.toNat < e.chunkCount.toNat ∧
        Inv [e.firstChunk.toNat + i.toNat] s'.source ∧
        Rel (e.firstChunk.toNat + i.toNat) s'.dst)
      (fun f s' => Bounded a Inv s'.source ∧ s'.dst.length = s.dst.length ∧
        (entry D a path = .error f ∨
          ∃ e q, entry D a path = .ok e ∧ (PieceFault a Err e (.path q) i.toNat f ∨
            PieceSizeFault a e i.toNat s.dst.length f))) := by
  refine post_locate h (fun q idx e he hidx => ?_) fun f hf => ⟨.of_nil hinv, rfl, Or.inl hf⟩
  refine (readChunkIntoFound_post spec h hidx hinv i).mono ?_ ?_
  · rintro _ s' ⟨hi, hs', hd, -⟩
    exact ⟨e, he, hi, hs', hd⟩
  · rintro f s' ⟨hs', hlen, hf⟩
    exact ⟨hs', hlen, Or.inr ⟨e, q, he, hf⟩⟩

/-- How a call for a range fails: it is refused, or at the first chunk that fails of those that it
overlaps. -/
def RangeFailsAt (a : Archive) (Rel : ℕ → Bytes → Prop)
    (Err : ChecksumLabel → ℕ → ℕ → Fault → Prop) (e : Entry) (label : ChecksumLabel)
    (offset len : ℕ) (exact : Bool) (f : Fault) : Prop :=
  RangeRefused a e offset len exact f ∨ ∃ n, RangeAccepted a e offset len exact n ∧
    RangeFault a (FirstErr Rel Err e (offset / a.chunkSize.toNat)) e label offset n f

/-- `read_range` and `read_range_exact`. -/
theorem readRange_post (hinv : Inv [] w) (offset len : UInt64) (exact : Bool) :
    Fallible.Post (if exact then readRangeExact D R a path offset len
        else readRange D R a path offset len) w
      (fun d w' => ∃ e, entry D a path = .ok e ∧
        Inv (touchedNumbers a e offset.toNat d.length) w' ∧
        RangeAccepted a e offset.toNat len.toNat exact d.length ∧
        IsRange a Rel e offset.toNat d.length d)
      (fun f w' => Bounded a Inv w' ∧ (entry D a path = .error f ∨
        ∃ e q, entry D a path = .ok e ∧
          RangeFailsAt a Rel Err e (.path q) offset.toNat len.toNat exact f)) := by
  have hfound : ∀ q idx e, entry D a path = .ok e → a.entries[idx]? = some e →
      Fallible.Post (readRangeFound D R a idx (.path q) offset.toNat len.toNat exact) w
        (fun d w' => ∃ e, entry D a path = .ok e ∧
          Inv (touchedNumbers a e offset.toNat d.length) w' ∧
          RangeAccepted a e offset.toNat len.toNat exact d.length ∧
          IsRange a Rel e offset.toNat d.length d)
        (fun f w' => Bounded a Inv w' ∧ (entry D a path = .error f ∨
          ∃ e q, entry D a path = .ok e ∧
            RangeFailsAt a Rel Err e (.path q) offset.toNat len.toNat exact f)) := by
    intro q idx e he hidx
    refine (readRangeFound_post spec h hidx hinv _ len.toNat_lt exact).mono ?_ ?_
    · rintro d w' ⟨hw', hd⟩
      exact ⟨e, he, hw', hd⟩
    · rintro f w' ⟨hw', hf⟩
      exact ⟨hw', Or.inr ⟨e, q, he, hf⟩⟩
  cases exact <;> exact post_locate h hfound fun f hf => ⟨.of_nil hinv, Or.inl hf⟩

theorem readRangeWithScratch_post (hinv : Inv [] s.source) (offset : UInt64)
    (hlt : s.dst.length < 2 ^ 64) :
    Fallible.Post (readRangeWithScratch D R a path offset) s
      (fun n s' => ∃ e, entry D a path = .ok e ∧
        Inv (touchedNumbers a e offset.toNat n) s'.source ∧
        RangeAccepted a e offset.toNat s.dst.length false n ∧
        ∃ d, d.length = n ∧ IsRange a Rel e offset.toNat n d ∧ s'.dst = d ++ s.dst.drop n)
      (fun f s' => Bounded a Inv s'.source ∧ s'.dst.length = s.dst.length ∧
        (entry D a path = .error f ∨ ∃ e q, entry D a path = .ok e ∧
          RangeFailsAt a Rel Err e (.path q) offset.toNat s.dst.length false f)) := by
  refine post_locate h (fun q idx e he hidx => ?_) fun f hf => ⟨.of_nil hinv, rfl, Or.inl hf⟩
  refine (readRangeIntoFound_post spec h hidx hinv _ hlt).mono ?_ ?_
  · rintro n s' ⟨hs', hd⟩
    exact ⟨e, he, hs', hd⟩
  · rintro f s' ⟨hs', hlen, hf⟩
    exact ⟨hs', hlen, Or.inr ⟨e, q, he, hf⟩⟩

end Calls

/-- A call with a default scratch space is a call with a scratch space. -/
theorem withDefaultScratch_run {α : Type} {x : Fallible (ReadState W) Fault α} {s s' : W × Bytes}
    {r : Except Fault α} (hr : withDefaultScratch x s = (r, s')) :
    ∃ t, x ⟨s.1, s.2, {}⟩ = (r, t) ∧ s' = (t.source, t.dst) := by
  rw [withDefaultScratch, Fallible.focus_apply] at hr
  cases hr
  exact ⟨_, rfl, rfl⟩

/-- A call that fails at once with any scratch space changes nothing with a default one. -/
theorem withDefaultScratch_of_error {α : Type} {x : Fallible (ReadState W) Fault α} {f : Fault}
    (hx : ∀ s, x s = (.error f, s)) (s : W × Bytes) :
    withDefaultScratch x s = (.error f, s) := by
  rw [withDefaultScratch, Fallible.focus_apply, hx]

end RasenArchive
