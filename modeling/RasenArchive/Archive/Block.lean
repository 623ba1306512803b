import RasenArchive.Archive.Lookup

/-!
# Reading one chunk

`read_chunk_by_index_into`: the stored block is read from the source, decrypted, decompressed and
checked against its checksum. The destination and the block buffer of the scratch space are part
of the state, and keep whatever a failed read left there.

## Main definitions

* `BlockState`: the source, the destination and the block buffer
* `readChunkByIndexInto`: the function, with its part `readBlock`
* `Verified`: the bytes are the checked content of a chunk
* `ChunkFault`: how reading a chunk fails
* `chunkContent`: the content of a chunk in the bytes of an unchanging source

## Main results

* `readChunkByIndexInto_post`: over any source, a chunk is verified or the read fails
* `length_of_chunkContent`: the content of a chunk has its recorded size
-/

namespace RasenArchive

/-- `ChecksumLabel`. -/
inductive ChecksumLabel where
  | path (path : String)
  | hash (id : AssetId)

/-- `ChecksumLabel::to_error_string`. -/
def ChecksumLabel.toErrorString : ChecksumLabel → String
  | .path p => p
  | .hash id => "hash:" ++ hex16 id.get

/-- The state of reading a chunk. -/
structure BlockState (W : Type) where
  source : W
  dst : Bytes
  stored : Bytes

/-- `Vec::resize` with zeroes. -/
def resize (buffer : Bytes) (len : ℕ) : Bytes :=
  buffer.take len ++ List.replicate (len - buffer.length) 0

@[simp] theorem length_resize (buffer : Bytes) (len : ℕ) : (resize buffer len).length = len := by
  simp only [resize, List.length_append, List.length_take, List.length_replicate]
  omega

variable (D : Dependencies) {W : Type} (R : RandomAccessRead W) (a : Archive)

/-- `ensure_chunk_operation_limit`. -/
def ensureChunkOperationLimit (count : ℕ) : Result Unit :=
  ensure (count ≤ a.maxChunksPerOperation) .tooManyChunks

/-- `Archive::chunk`. -/
def chunkAt (globalChunk : ℕ) : Result Chunk :=
  okOr a.chunks[globalChunk]? (.corrupt "chunk index outside TOC")

/-- `copy_from_slice`, which panics when the lengths differ. -/
def copyFromSlice (src : Bytes) : Fallible Bytes Fault Unit := fun dst =>
  if dst.length = src.length then (.ok (), src) else (.error (.panic .copyLengthMismatch), dst)

/-- The destination of a `BlockState`, with the source. -/
def onDst (x : Fallible (W × Bytes) Fault Unit) : Fallible (BlockState W) Fault Unit :=
  Fallible.focus (fun s => (s.source, s.dst))
    (fun t s => { s with source := t.1, dst := t.2 }) x

/-- The block buffer of a `BlockState`, with the source. -/
def onStored (x : Fallible (W × Bytes) Fault Unit) : Fallible (BlockState W) Fault Unit :=
  Fallible.focus (fun s => (s.source, s.stored))
    (fun t s => { s with source := t.1, stored := t.2 }) x

/-- The destination of a `BlockState` alone. -/
def onBytes (x : Fallible Bytes Fault Unit) : Fallible (BlockState W) Fault Unit :=
  Fallible.focus BlockState.dst (fun dst s => { s with dst }) x

/-- The stored block without its encryption. -/
def decryptBlock (aeadKey : Option Bytes) (globalChunk : ℕ) (block : Bytes) : Result Bytes :=
  match aeadKey with
  | some key => decrypt D block key (chunkAad globalChunk)
  | none => pure block

/-- The branch of `read_chunk_by_index_into` that reads through the block buffer. -/
def readStoredBlock (chunk : Chunk) (globalChunk : ℕ) :
    Fallible (BlockState W) Fault Unit := do
  let storedLen ← u64ToUsize chunk.storedSize.toNat "stored chunk size"
  Fallible.modify fun s => { s with stored := resize s.stored storedLen }
  let s ← Fallible.gets id
  let _ ← slice s.stored 0 storedLen
  onStored (readExactAt R chunk.offset.toNat)
  let s ← Fallible.gets id
  let block ← slice s.stored 0 storedLen
  let plain ← decryptBlock D a.aeadKey globalChunk block
  -- the LZ4 block is unpacked straight into the destination
  if chunk.compressed then
    onBytes (decompressIntoExact D plain "decompressed chunk size mismatch")
  else do
    let s ← Fallible.gets id
    ensure (plain.length = s.dst.length) (.corrupt "decrypted chunk size mismatch")
    onBytes (copyFromSlice plain)

/-- The bytes of a chunk, brought into the destination. -/
def readBlock (chunk : Chunk) (globalChunk : ℕ) : Fallible (BlockState W) Fault Unit :=
  match a.aeadKey, chunk.compressed with
  -- a raw block without encryption needs no buffer
  | none, false => onDst (readExactAt R chunk.offset.toNat)
  | _, _ => readStoredBlock D R a chunk globalChunk

/-- `read_chunk_by_index_into`. -/
def readChunkByIndexInto (label : ChecksumLabel) (localChunk globalChunk : ℕ) :
    Fallible (BlockState W) Fault Unit := do
  ensureChunkOperationLimit a 1
  let chunk ← chunkAt a globalChunk
  let originalLen ← u64ToUsize chunk.originalSize.toNat "original chunk size"
  let s ← Fallible.gets id
  ensure (s.dst.length = originalLen) (.bufferSizeMismatch originalLen s.dst.length)
  readBlock D R a chunk globalChunk
  let s ← Fallible.gets id
  ensure (checksum D s.dst = chunk.checksum) (.checksumMismatch label.toErrorString localChunk)

/-! ## What a read chunk is -/

/-- The form of a chunk's content that is stored, before encryption: compressed or raw. -/
def IsPlainOf (chunk : Chunk) (content plain : Bytes) : Prop :=
  if chunk.compressed then
    D.decompressInto plain chunk.originalSize.toNat = .ok content ∧
      content.length = chunk.originalSize.toNat
  else plain = content

/-- **The bytes `d` are verified** as the content of chunk `g`: they have its size and its
checksum, and under AEAD they come from a block that decrypted under the key of the archive with
the associated data of `g`. -/
structure Verified (g : ℕ) (chunk : Chunk) (d : Bytes) : Prop where
  length_eq : d.length = chunk.originalSize.toNat
  checksum_eq : checksum D d = chunk.checksum
  decrypted : ∀ key, a.aeadKey = some key → ∃ block plain,
    block.length = chunk.storedSize.toNat ∧
      decrypt D block key (chunkAad g) = .ok plain ∧ IsPlainOf D chunk d plain

/-- **How reading a chunk fails**: the source, the decryption, the decompression, a size or the
checksum. -/
inductive ChunkFault (label : ChecksumLabel) (localChunk : ℕ) : Fault → Prop
  | io (e : IoError) : ChunkFault label localChunk (.error (.io e))
  | crypto (what : String) : ChunkFault label localChunk (.error (.crypto what))
  | lz4 (message : String) : ChunkFault label localChunk (.error (.lz4 message))
  | decompressedSize :
      ChunkFault label localChunk (.error (.corrupt "decompressed chunk size mismatch"))
  | decryptedSize :
      ChunkFault label localChunk (.error (.corrupt "decrypted chunk size mismatch"))
  | checksum :
      ChunkFault label localChunk
        (.error (.checksumMismatch label.toErrorString localChunk))

/-- The content that the plain form of a block stands for. -/
def contentOf (chunk : Chunk) (plain : Bytes) : Result Bytes :=
  if chunk.compressed then
    decompressExact D plain chunk.originalSize.toNat "decompressed chunk size mismatch"
  else do
    ensure (plain.length = chunk.originalSize.toNat) (.corrupt "decrypted chunk size mismatch")
    pure plain

/-- What a stored block stands for: decryption, then decompression. -/
def openBlock (D : Dependencies) (aeadKey : Option Bytes) (chunk : Chunk) (g : ℕ)
    (block : Bytes) : Result Bytes := do
  let plain ← decryptBlock D aeadKey g block
  contentOf D chunk plain

/-- How many bytes of the source hold a chunk. -/
def blockLength (a : Archive) (chunk : Chunk) : ℕ :=
  if a.aeadKey = none ∧ chunk.compressed = false then chunk.originalSize.toNat
  else chunk.storedSize.toNat

/-- The content of chunk `g` in the bytes `c` of an unchanging source. -/
def chunkContent (c : Bytes) (g : ℕ) : Option Bytes := do
  let chunk ← a.chunks[g]?
  let block ← getRange c chunk.offset.toNat (chunk.offset.toNat + blockLength a chunk)
  let content ← (openBlock D a.aeadKey chunk g block).toOption
  if checksum D content = chunk.checksum then some content else none

/-! ## The stored block -/

section Stored

variable {D R a} {chunk : Chunk} {g : ℕ}

theorem contentOf_length {plain content : Bytes} (h : contentOf D chunk plain = .ok content) :
    content.length = chunk.originalSize.toNat := by
  unfold contentOf at h
  split_ifs at h
  · exact ((decompressExact_eq_ok_iff D).mp h).2
  · simp only [bind_eq_ok, ensure_eq_ok_iff, exists_const, pure_eq_ok_iff] at h
    obtain ⟨hlen, rfl⟩ := h
    exact hlen

theorem openBlock_length {aeadKey : Option Bytes} {block content : Bytes}
    (h : openBlock D aeadKey chunk g block = .ok content) :
    content.length = chunk.originalSize.toNat := by
  obtain ⟨plain, -, hc⟩ := bind_eq_ok.mp h
  exact contentOf_length hc

/-- The end of the branch through the block buffer: the plain form of the block goes to the
destination. -/
def unpackInto (D : Dependencies) (chunk : Chunk) (plain : Bytes) :
    Fallible (BlockState W) Fault Unit :=
  if chunk.compressed then
    onBytes (decompressIntoExact D plain "decompressed chunk size mismatch")
  else do
    let s ← Fallible.gets id
    ensure (plain.length = s.dst.length) (.corrupt "decrypted chunk size mismatch")
    onBytes (copyFromSlice plain)

theorem unpackInto_cases (w : W) (dst block plain : Bytes)
    (hdst : dst.length = chunk.originalSize.toNat) :
    ∃ r dst', unpackInto D chunk plain ⟨w, dst, block⟩ = (r, ⟨w, dst', block⟩) ∧
      dst'.length = dst.length ∧
      ((r = .ok () ∧ contentOf D chunk plain = .ok dst') ∨
        ∃ f, r = .error f ∧ contentOf D chunk plain = .error f) := by
  unfold contentOf unpackInto
  cases chunk.compressed with
  | true =>
    simp only [if_true, onBytes, Fallible.focus_apply, ← hdst]
    rcases decompressIntoExact_eq D plain dst "decompressed chunk size mismatch" with
      ⟨content, he, hi⟩ | ⟨f, residue, he, hlen, hi⟩
    · have hlen := ((decompressExact_eq_ok_iff D).mp he).2
      exact ⟨.ok (), content, by rw [hi], hlen, Or.inl ⟨rfl, he⟩⟩
    · exact ⟨.error f, residue, by rw [hi], hlen, Or.inr ⟨f, rfl, he⟩⟩
  | false =>
    simp only [Bool.false_eq_true, if_false, Fallible.gets_bind_apply, id, ← hdst]
    by_cases hlen : plain.length = dst.length
    · refine ⟨.ok (), plain, ?_, hlen, Or.inl ⟨rfl, ?_⟩⟩
      · rw [Fallible.bind_of_ok (Fallible.liftM_eq_ok.mpr ⟨ensure_of hlen, rfl⟩)]
        simp [onBytes, Fallible.focus_apply, copyFromSlice, hlen]
      · rw [ensure_of hlen]
        rfl
    · have he : ensure (plain.length = dst.length) (.corrupt "decrypted chunk size mismatch") =
          failWith (.corrupt "decrypted chunk size mismatch") := if_neg hlen
      refine ⟨failWith (.corrupt "decrypted chunk size mismatch"), dst, ?_, rfl,
        Or.inr ⟨_, rfl, by rw [he]; rfl⟩⟩
      rw [he]
      rfl

theorem readStoredBlock_of_error {s : BlockState W} {f : Fault} {w' : W} {block : Bytes}
    (hr : readExactAt R chunk.offset.toNat (s.source, resize s.stored chunk.storedSize.toNat) =
      (.error f, w', block)) :
    readStoredBlock D R a chunk g s = (.error f, ⟨w', s.dst, block⟩) := by
  have hu : u64ToUsize chunk.storedSize.toNat "stored chunk size" = .ok chunk.storedSize.toNat :=
    u64ToUsize_eq_ok_iff.mpr ⟨chunk.storedSize.toNat_lt, rfl⟩
  have hslice : slice (resize s.stored chunk.storedSize.toNat) 0 chunk.storedSize.toNat =
      .ok (resize s.stored chunk.storedSize.toNat) := by
    rw [slice_of_le (Nat.zero_le _) (by simp), extract_zero_length (by simp)]
  have hread : onStored (readExactAt R chunk.offset.toNat)
      { s with stored := resize s.stored chunk.storedSize.toNat } =
        (.error f, ⟨w', s.dst, block⟩) := by
    rw [onStored, Fallible.focus_apply]
    simp only [hr]
  unfold readStoredBlock
  simp only [Fallible.liftM_bind_of_ok hu, Fallible.modify_bind_apply, Fallible.gets_bind_apply,
    id, Fallible.liftM_bind_of_ok hslice]
  exact Fallible.bind_of_error hread

theorem readStoredBlock_of_ok {s : BlockState W} {w' : W} {block : Bytes}
    (hr : readExactAt R chunk.offset.toNat (s.source, resize s.stored chunk.storedSize.toNat) =
      (.ok (), w', block)) :
    block.length = chunk.storedSize.toNat ∧
      readStoredBlock D R a chunk g s = (do
        let plain ← decryptBlock D a.aeadKey g block
        unpackInto D chunk plain : Fallible (BlockState W) Fault Unit) ⟨w', s.dst, block⟩ := by
  have hu : u64ToUsize chunk.storedSize.toNat "stored chunk size" = .ok chunk.storedSize.toNat :=
    u64ToUsize_eq_ok_iff.mpr ⟨chunk.storedSize.toNat_lt, rfl⟩
  have hslice : ∀ b : Bytes, b.length = chunk.storedSize.toNat →
      slice b 0 chunk.storedSize.toNat = .ok b := fun b hb => by
    rw [slice_of_le (Nat.zero_le _) hb.ge, extract_zero_length hb.symm]
  have hlen := length_readExactAt_snd R chunk.offset.toNat
    (s.source, resize s.stored chunk.storedSize.toNat)
  rw [hr, length_resize] at hlen
  have hread : onStored (readExactAt R chunk.offset.toNat)
      { s with stored := resize s.stored chunk.storedSize.toNat } =
        (.ok (), ⟨w', s.dst, block⟩) := by
    rw [onStored, Fallible.focus_apply]
    simp only [hr]
  refine ⟨hlen, ?_⟩
  unfold readStoredBlock
  simp only [Fallible.liftM_bind_of_ok hu, Fallible.modify_bind_apply, Fallible.gets_bind_apply,
    id, Fallible.liftM_bind_of_ok (hslice _ (length_resize _ _)), Fallible.bind_of_ok hread,
    Fallible.liftM_bind_of_ok (hslice block hlen)]
  rfl

/-- **The branch through the block buffer**: it reads the block, and then answers as `openBlock`
does. -/
theorem readStoredBlock_cases {s : BlockState W} (hdst : s.dst.length = chunk.originalSize.toNat) :
    (∃ f w' stored, readExactAt R chunk.offset.toNat
          (s.source, resize s.stored chunk.storedSize.toNat) = (.error f, w', stored) ∧
        readStoredBlock D R a chunk g s = (.error f, ⟨w', s.dst, stored⟩)) ∨
      ∃ w' block, readExactAt R chunk.offset.toNat
          (s.source, resize s.stored chunk.storedSize.toNat) = (.ok (), w', block) ∧
        block.length = chunk.storedSize.toNat ∧
        ((∃ content, openBlock D a.aeadKey chunk g block = .ok content ∧
            readStoredBlock D R a chunk g s = (.ok (), ⟨w', content, block⟩)) ∨
          ∃ f dst', openBlock D a.aeadKey chunk g block = .error f ∧ dst'.length = s.dst.length ∧
            readStoredBlock D R a chunk g s = (.error f, ⟨w', dst', block⟩)) := by
  rcases hr : readExactAt R chunk.offset.toNat
    (s.source, resize s.stored chunk.storedSize.toNat) with ⟨f | ⟨⟨⟩⟩, w', block⟩
  · exact Or.inl ⟨f, w', block, rfl, readStoredBlock_of_error hr⟩
  obtain ⟨hlen, hrun⟩ := readStoredBlock_of_ok (D := D) (a := a) (g := g) hr
  refine Or.inr ⟨w', block, rfl, hlen, ?_⟩
  rw [hrun]
  cases hd : decryptBlock D a.aeadKey g block with
  | error f =>
    refine Or.inr ⟨f, s.dst, by rw [openBlock, hd]; rfl, rfl, ?_⟩
    exact Fallible.liftM_bind_of_error rfl _ _
  | ok plain =>
    have hopen : openBlock D a.aeadKey chunk g block = contentOf D chunk plain := by
      rw [openBlock, hd]
      rfl
    rw [Fallible.liftM_bind_of_ok rfl, hopen]
    obtain ⟨r, dst', hrun, hdl, ⟨rfl, hc⟩ | ⟨f, rfl, hc⟩⟩ :=
      unpackInto_cases w' s.dst block plain hdst
    · exact Or.inl ⟨dst', hc, hrun⟩
    · exact Or.inr ⟨f, dst', hc, hdl, hrun⟩

theorem readBlock_of_raw (hraw : a.aeadKey = none ∧ chunk.compressed = false) :
    readBlock D R a chunk g = onDst (readExactAt R chunk.offset.toNat) := by
  simp only [readBlock, hraw.1, hraw.2]

theorem readBlock_of_stored (hraw : ¬ (a.aeadKey = none ∧ chunk.compressed = false)) :
    readBlock D R a chunk g = readStoredBlock D R a chunk g := by
  unfold readBlock
  split
  · exact absurd ⟨‹_›, ‹_›⟩ hraw
  · rfl

/-- **The bytes of a chunk**: the block is read, and then opened. -/
theorem readBlock_cases {s : BlockState W} (hdst : s.dst.length = chunk.originalSize.toNat) :
    ∃ buffer : Bytes, buffer.length = blockLength a chunk ∧
      ((∃ f w' b s', readExactAt R chunk.offset.toNat (s.source, buffer) = (.error f, w', b) ∧
          readBlock D R a chunk g s = (.error f, s') ∧ s'.source = w' ∧
          s'.dst.length = s.dst.length) ∨
        ∃ w' block, readExactAt R chunk.offset.toNat (s.source, buffer) = (.ok (), w', block) ∧
          block.length = blockLength a chunk ∧
          ((∃ content s', openBlock D a.aeadKey chunk g block = .ok content ∧
              readBlock D R a chunk g s = (.ok (), s') ∧ s'.source = w' ∧ s'.dst = content) ∨
            ∃ f s', openBlock D a.aeadKey chunk g block = .error f ∧
              readBlock D R a chunk g s = (.error f, s') ∧ s'.source = w' ∧
              s'.dst.length = s.dst.length)) := by
  by_cases hraw : a.aeadKey = none ∧ chunk.compressed = false
  · have hlen := length_readExactAt_snd R chunk.offset.toNat (s.source, s.dst)
    refine ⟨s.dst, by rw [hdst, blockLength, if_pos hraw], ?_⟩
    rw [readBlock_of_raw hraw, onDst, Fallible.focus_apply]
    rcases hr : readExactAt R chunk.offset.toNat (s.source, s.dst) with ⟨f | ⟨⟨⟩⟩, w', block⟩
    · rw [hr] at hlen
      exact Or.inl ⟨f, w', block, _, rfl, rfl, rfl, hlen⟩
    · rw [hr] at hlen
      have hsize : block.length = chunk.originalSize.toNat := hlen.trans hdst
      refine Or.inr ⟨w', block, rfl, by rw [hsize, blockLength, if_pos hraw],
        Or.inl ⟨block, _, ?_, rfl, rfl, rfl⟩⟩
      simp [openBlock, decryptBlock, contentOf, hraw.1, hraw.2, ensure_of hsize, pure, Except.pure]
  · have hlen : blockLength a chunk = chunk.storedSize.toNat := if_neg hraw
    rw [readBlock_of_stored hraw, hlen]
    refine ⟨resize s.stored chunk.storedSize.toNat, length_resize _ _, ?_⟩
    rcases readStoredBlock_cases (a := a) (g := g) (D := D) (R := R) hdst with
      ⟨f, w', b, hr, hrun⟩ |
      ⟨w', block, hr, hl, ⟨content, ho, hrun⟩ | ⟨f, dst', ho, hd, hrun⟩⟩
    · exact Or.inl ⟨f, w', b, _, hr, hrun, rfl, rfl⟩
    · exact Or.inr ⟨w', block, hr, hl, Or.inl ⟨content, _, ho, hrun, rfl, rfl⟩⟩
    · exact Or.inr ⟨w', block, hr, hl, Or.inr ⟨f, _, ho, hrun, rfl, hd⟩⟩

/-- What an opened block is under AEAD. -/
theorem openBlock_decrypted {key block content : Bytes}
    (h : openBlock D (some key) chunk g block = .ok content) :
    ∃ plain, decrypt D block key (chunkAad g) = .ok plain ∧ IsPlainOf D chunk content plain := by
  obtain ⟨plain, hd, hc⟩ := bind_eq_ok.mp h
  refine ⟨plain, hd, ?_⟩
  unfold contentOf at hc
  unfold IsPlainOf
  split_ifs at hc ⊢
  · exact (decompressExact_eq_ok_iff D).mp hc
  · simp only [bind_eq_ok, ensure_eq_ok_iff, exists_const, pure_eq_ok_iff] at hc
    exact hc.2

theorem openBlock_fault {aeadKey : Option Bytes} {block : Bytes} {f : Fault}
    (h : openBlock D aeadKey chunk g block = .error f) (label : ChecksumLabel) (l : ℕ) :
    ChunkFault label l f := by
  unfold openBlock at h
  cases hd : decryptBlock D aeadKey g block with
  | error f' =>
    rw [hd] at h
    cases h
    cases aeadKey with
    | none => cases hd
    | some key =>
      rcases decrypt_eq D block key (chunkAad g) with ⟨plain, he⟩ | ⟨what, he⟩
      · cases hd.symm.trans he
      · cases hd.symm.trans he
        exact .crypto what
  | ok plain =>
    rw [hd, ok_bind] at h
    unfold contentOf at h
    split_ifs at h with hc
    · rcases decompressExact_error D h with ⟨message, rfl⟩ | rfl
      · exact .lz4 message
      · exact .decompressedSize
    · by_cases hlen : plain.length = chunk.originalSize.toNat
      · rw [ensure_of hlen] at h
        cases h
      · simp only [ensure, hlen, if_false] at h
        cases h
        exact .decryptedSize

end Stored

/-! ## One chunk -/

section Chunk

variable {D R a} {chunk : Chunk} {g l : ℕ} {label : ChecksumLabel} {s : BlockState W}

/-- The checks around `readBlock`. -/
theorem readChunkByIndexInto_eq (hlimit : 1 ≤ a.maxChunksPerOperation)
    (hchunk : a.chunks[g]? = some chunk) (hdst : s.dst.length = chunk.originalSize.toNat) :
    readChunkByIndexInto D R a label l g s = (do
      readBlock D R a chunk g
      let s ← Fallible.gets id
      ensure (checksum D s.dst = chunk.checksum)
        (.checksumMismatch label.toErrorString l) : Fallible (BlockState W) Fault Unit) s := by
  have hu : u64ToUsize chunk.originalSize.toNat "original chunk size" =
      .ok chunk.originalSize.toNat := u64ToUsize_eq_ok_iff.mpr ⟨chunk.originalSize.toNat_lt, rfl⟩
  have hat : chunkAt a g = .ok chunk := okOr_eq_ok_iff.mpr hchunk
  have hop : ensureChunkOperationLimit a 1 = .ok () := ensure_of hlimit
  unfold readChunkByIndexInto
  simp only [Fallible.liftM_bind_of_ok hop, Fallible.liftM_bind_of_ok hat,
    Fallible.liftM_bind_of_ok hu, Fallible.gets_bind_apply, id, Fallible.liftM_bind_of_ok
      (ensure_of (e := .bufferSizeMismatch chunk.originalSize.toNat s.dst.length) hdst)]

theorem readChunkByIndexInto_of_limit (hlimit : a.maxChunksPerOperation = 0) :
    readChunkByIndexInto D R a label l g s = (failWith .tooManyChunks, s) := by
  have hop : ensureChunkOperationLimit a 1 = .error (.error .tooManyChunks) := by
    rw [ensureChunkOperationLimit, ensure, if_neg (by omega)]
    rfl
  exact Fallible.liftM_bind_of_error hop _ _

theorem readChunkByIndexInto_of_length_ne (hlimit : 1 ≤ a.maxChunksPerOperation)
    (hchunk : a.chunks[g]? = some chunk) (hdst : s.dst.length ≠ chunk.originalSize.toNat) :
    readChunkByIndexInto D R a label l g s =
      (failWith (.bufferSizeMismatch chunk.originalSize.toNat s.dst.length), s) := by
  have hu : u64ToUsize chunk.originalSize.toNat "original chunk size" =
      .ok chunk.originalSize.toNat := u64ToUsize_eq_ok_iff.mpr ⟨chunk.originalSize.toNat_lt, rfl⟩
  have hat : chunkAt a g = .ok chunk := okOr_eq_ok_iff.mpr hchunk
  have hop : ensureChunkOperationLimit a 1 = .ok () := ensure_of hlimit
  have hlen : ensure (s.dst.length = chunk.originalSize.toNat)
      (.bufferSizeMismatch chunk.originalSize.toNat s.dst.length) =
      .error (.error (.bufferSizeMismatch chunk.originalSize.toNat s.dst.length)) := if_neg hdst
  unfold readChunkByIndexInto
  rw [Fallible.liftM_bind_of_ok hop, Fallible.liftM_bind_of_ok hat, Fallible.liftM_bind_of_ok hu,
    Fallible.gets_bind_apply, id, Fallible.liftM_bind_of_error hlen]
  rfl

/-- **Reading a chunk over any source**: its content is verified, or the read fails. -/
theorem readChunkByIndexInto_post (hlimit : 1 ≤ a.maxChunksPerOperation)
    (hchunk : a.chunks[g]? = some chunk) (hdst : s.dst.length = chunk.originalSize.toNat) :
    Fallible.Post (readChunkByIndexInto D R a label l g) s
      (fun _ s' => Verified D a g chunk s'.dst)
      (fun f s' => s'.dst.length = s.dst.length ∧ ChunkFault label l f) := by
  unfold Fallible.Post
  rw [readChunkByIndexInto_eq hlimit hchunk hdst]
  obtain ⟨buffer, -, ⟨f, w', b, s', hr, hrun, -, hlen⟩ | ⟨w', block, -, hblock,
    ⟨content, s', ho, hrun, -, hd⟩ | ⟨f, s', ho, hrun, -, hlen⟩⟩⟩ :=
    readBlock_cases (D := D) (R := R) (a := a) (g := g) hdst
  · rw [Fallible.bind_of_error hrun]
    obtain ⟨e, rfl⟩ := readExactAt_error R hr
    exact ⟨hlen, .io e⟩
  · have hsize := openBlock_length ho
    rw [Fallible.bind_of_ok hrun, Fallible.gets_bind_apply, id]
    by_cases hsum : checksum D s'.dst = chunk.checksum
    · rw [ensure_of hsum]
      refine ⟨by rw [hd]; exact hsize, hsum, fun key hkey => ?_⟩
      rw [hkey] at ho
      obtain ⟨plain, hdec, hplain⟩ := openBlock_decrypted ho
      rw [blockLength, if_neg (by simp [hkey])] at hblock
      exact ⟨block, plain, hblock, hdec, hd ▸ hplain⟩
    · rw [ensure, if_neg hsum]
      exact ⟨by rw [hd, hsize, hdst], .checksum⟩
  · rw [Fallible.bind_of_error hrun]
    exact ⟨hlen, openBlock_fault ho label l⟩

/-- The content of a chunk has its recorded size. -/
theorem length_of_chunkContent {c d : Bytes} (hchunk : a.chunks[g]? = some chunk)
    (h : chunkContent D a c g = some d) : d.length = chunk.originalSize.toNat := by
  simp only [chunkContent, hchunk, Option.bind_eq_bind, Option.bind_some,
    Option.bind_eq_some_iff] at h
  obtain ⟨block, -, content, ho, hd⟩ := h
  split_ifs at hd
  cases hd
  cases hopen : openBlock D a.aeadKey chunk g block with
  | error f =>
    rw [hopen] at ho
    cases ho
  | ok d' =>
    rw [hopen] at ho
    cases ho
    exact openBlock_length hopen

end Chunk

end RasenArchive
