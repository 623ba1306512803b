import RasenArchive.Archive.Block
import RasenArchive.Library.Pieces

/-!
# Reading entries and ranges

`read_entry_into` and `read_range_index_into`: the loops over the chunks of an entry, and over the
chunks that a range overlaps. Both are followed once, for anything that is known about the reading
of single chunks, in `Archive.ReadEntry` and `Archive.ReadRange`.

## Main definitions

* `ReadState`: the source, the destination and the scratch space
* `readEntryInto`, `rangeLen`, `readRangeIndexInto`: the functions
* `ChunkSpec`, `TraceSpec`, `RunSpec`: what is known about the reading of single chunks
* `IsWhole`, `IsRange`: the data of an entry and of a range, in terms of that knowledge
* `touched`: how many chunks a range overlaps

## Main results

* `RunSpec.length_flatten`: contents of chunks are as long as the table says
-/

namespace RasenArchive

/-- `ArchiveScratch`. -/
structure ArchiveScratch where
  stored : Bytes := []
  decoded : Bytes := []

/-- The state of reading into a destination. -/
structure ReadState (W : Type) where
  source : W
  dst : Bytes
  scratch : ArchiveScratch

variable (D : Dependencies) {W : Type} (R : RandomAccessRead W) (a : Archive)

/-- Read into the window `dst[start..stop]` of the destination. -/
def onWindow (start stop : ℕ) (x : Fallible (BlockState W) Fault Unit) :
    Fallible (ReadState W) Fault Unit :=
  Fallible.focus (fun s => ⟨s.source, s.dst.extract start stop, s.scratch.stored⟩)
    (fun t s => ⟨t.source, overwrite s.dst start t.dst, ⟨t.stored, s.scratch.decoded⟩⟩) x

/-- Read into the buffer for decoded chunks. -/
def onDecoded (x : Fallible (BlockState W) Fault Unit) : Fallible (ReadState W) Fault Unit :=
  Fallible.focus (fun s => ⟨s.source, s.scratch.decoded, s.scratch.stored⟩)
    (fun t s => ⟨t.source, s.dst, ⟨t.stored, t.dst⟩⟩) x

/-- `entry.first_chunk.checked_add(local_chunk)`, on `u32`. -/
def globalChunkOf (entry : Entry) (localChunk : ℕ) : Result ℕ :=
  okOr (checkedAdd 32 entry.firstChunk.toNat localChunk) (.corrupt "chunk index overflow")

/-! ## Whole entries -/

/-- One turn of the loop of `read_entry_into`. -/
def readEntryChunk (entry : Entry) (label : ChecksumLabel) (localChunk written : ℕ) :
    Fallible (ReadState W) Fault ℕ := do
  let globalChunk ← globalChunkOf entry localChunk
  let chunk ← chunkAt a globalChunk
  let len ← u64ToUsize chunk.originalSize.toNat "original chunk size"
  let stop ← okOr (checkedAdd 64 written len) (.corrupt "entry decompressed size overflow")
  let s ← Fallible.gets id
  -- `dst.get_mut(written..end)`
  let _ ← okOr (getRange s.dst written stop) (.corrupt "entry decompressed size mismatch")
  onWindow written stop (readChunkByIndexInto D R a label localChunk globalChunk)
  pure stop

/-- The loop of `read_entry_into`, with the number of turns left. -/
def readEntryChunks (entry : Entry) (label : ChecksumLabel) :
    ℕ → ℕ → ℕ → Fallible (ReadState W) Fault ℕ
  | 0, _, written => pure written
  | turns + 1, localChunk, written => do
    let written ← readEntryChunk D R a entry label localChunk written
    readEntryChunks entry label turns (localChunk + 1) written

/-- `read_entry_into`. -/
def readEntryInto (idx : ℕ) (label : ChecksumLabel) : Fallible (ReadState W) Fault Unit := do
  let entry ← okOr a.entries[idx]? (.corrupt "entry index outside TOC")
  ensureChunkOperationLimit a entry.chunkCount.toNat
  let expected ← u64ToUsize entry.originalSize.toNat "original entry size"
  let s ← Fallible.gets id
  ensure (s.dst.length = expected) (.bufferSizeMismatch expected s.dst.length)
  let written ← readEntryChunks D R a entry label entry.chunkCount.toNat 0 0
  let s ← Fallible.gets id
  ensure (written = s.dst.length) (.corrupt "entry decompressed size mismatch")

/-! ## Ranges -/

/-- The part of `range_len` that counts the chunks which a range overlaps. -/
def countRangeChunks (offset actualLen : ℕ) : Result Unit := do
  let len ← usizeToU64 actualLen "range length"
  let stop ← okOr (checkedAdd 64 offset len) .invalidRange
  let first ← div offset a.chunkSize.toNat
  -- `end - 1`, which the source leaves unchecked for a range that is not empty
  let inside ← sub stop 1
  let last ← div inside a.chunkSize.toNat
  let count ← okOr ((checkedSub last first).bind fun value => (checkedAdd 64 value 1).bind (tryFrom 32))
    .tooManyChunks
  ensureChunkOperationLimit a count

/-- The check of `range_len` on the number of chunks. -/
def checkRangeChunks (offset actualLen : ℕ) : Result Unit :=
  if actualLen ≠ 0 then countRangeChunks a offset actualLen else pure ()

/-- The part of `range_len` for a range that begins inside the entry. -/
def rangeLenInside (size offset len : ℕ) (exact : Bool) : Result ℕ := do
  let len ← usizeToU64 len "range length"
  let requestedEnd ← okOr (checkedAdd 64 offset len) .invalidRange
  ensure (exact = false ∨ requestedEnd ≤ size) .invalidRange
  let inside ← sub (min requestedEnd size) offset
  let actualLen ← u64ToUsize inside "range result size"
  checkRangeChunks a offset actualLen
  pure actualLen

/-- `range_len`. -/
def rangeLen (idx offset len : ℕ) (exact : Bool) : Result ℕ := do
  let entry ← index a.entries idx
  let size := entry.originalSize.toNat
  -- an exact range with bytes in it cannot begin at the end of the entry
  if size < offset ∨ (offset = size ∧ len ≠ 0 ∧ exact = true) then
    failWith .invalidRange
  else if len = 0 ∨ (offset = size ∧ exact = false) then
    pure 0
  else
    rangeLenInside a size offset len exact

/-- The part of a turn of `read_range_index_into` that copies from the decoded chunk. -/
def copyRange (written takeStart takeEnd : ℕ) : Fallible (ReadState W) Fault ℕ := do
  let amount ← okOr (checkedSub takeEnd takeStart) (.corrupt "range slice order")
  let writtenEnd ← okOr (checkedAdd 64 written amount) (.corrupt "range output size overflow")
  let s ← Fallible.gets id
  let _ ← okOr (getRange s.dst written writtenEnd) (.corrupt "range output size mismatch")
  let decoded ← okOr (getRange s.scratch.decoded takeStart takeEnd)
    (.corrupt "range chunk slice mismatch")
  onWindow written writtenEnd (onBytes (copyFromSlice decoded))
  pure writtenEnd

/-- One turn of the loop of `read_range_index_into`, for the range from `offset` to `stop`. -/
def readRangeChunk (entry : Entry) (label : ChecksumLabel) (offset stop localChunk written : ℕ) :
    Fallible (ReadState W) Fault ℕ := do
  ensure (localChunk < entry.chunkCount.toNat) (.corrupt "entry chunk range mismatch")
  let globalChunk ← globalChunkOf entry localChunk
  let chunk ← chunkAt a globalChunk
  let chunkLen ← u64ToUsize chunk.originalSize.toNat "original chunk size"
  -- the buffer is resized to the chunk, which is then read into all of it
  Fallible.modify fun s => { s with scratch.decoded := resize s.scratch.decoded chunkLen }
  onDecoded (readChunkByIndexInto D R a label localChunk globalChunk)
  let chunkStart ← okOr (checkedMul 64 localChunk a.chunkSize.toNat)
    (.corrupt "range chunk offset overflow")
  let chunkEnd ← okOr (checkedAdd 64 chunkStart chunk.originalSize.toNat)
    (.corrupt "range chunk end overflow")
  -- `offset.max(chunk_start) - chunk_start`
  let takeStart ← sub (max offset chunkStart) chunkStart
  let takeStart ← u64ToUsize takeStart "range slice start"
  -- `end.min(chunk_end) - chunk_start`
  let takeEnd ← sub (min stop chunkEnd) chunkStart
  let takeEnd ← u64ToUsize takeEnd "range slice end"
  copyRange written takeStart takeEnd

/-- The loop of `read_range_index_into`, with the number of turns left. -/
def readRangeChunks (entry : Entry) (label : ChecksumLabel) (offset stop : ℕ) :
    ℕ → ℕ → ℕ → Fallible (ReadState W) Fault ℕ
  | 0, _, written => pure written
  | turns + 1, localChunk, written => do
    let written ← readRangeChunk D R a entry label offset stop localChunk written
    readRangeChunks entry label offset stop turns (localChunk + 1) written

/-- The part of `read_range_index_into` for a destination that is not empty. -/
def readNonemptyRange (idx : ℕ) (label : ChecksumLabel) (offset : ℕ) :
    Fallible (ReadState W) Fault Unit := do
  let entry ← index a.entries idx
  let s ← Fallible.gets id
  let len ← usizeToU64 s.dst.length "range length"
  let stop ← okOr (checkedAdd 64 offset len) .invalidRange
  let first ← div offset a.chunkSize.toNat
  let firstLocal ← okOr (tryFrom 32 first) (.tooLarge "range chunk index")
  let inside ← sub stop 1
  let last ← div inside a.chunkSize.toNat
  let lastLocal ← okOr (tryFrom 32 last) (.tooLarge "range chunk index")
  let written ← readRangeChunks D R a entry label offset stop (lastLocal + 1 - firstLocal)
    firstLocal 0
  let s ← Fallible.gets id
  ensure (written = s.dst.length) (.corrupt "range decompressed size mismatch")

/-- `read_range_index_into`. -/
def readRangeIndexInto (idx : ℕ) (label : ChecksumLabel) (offset : ℕ) :
    Fallible (ReadState W) Fault Unit := do
  let s ← Fallible.gets id
  if s.dst = [] then pure ()
  else readNonemptyRange D R a idx label offset

/-! ## Knowledge about single chunks -/

/-- What is known about the reading of single chunks: it keeps `Inv`, a success leaves bytes in the
destination that are in the relation `Rel` to the number of the chunk, and a failure has a reason
`Err`. -/
structure ChunkSpec (Inv : W → Prop) (Rel : ℕ → Bytes → Prop)
    (Err : ChecksumLabel → ℕ → ℕ → Fault → Prop) : Prop where
  length_eq : ∀ {g : ℕ} {chunk : Chunk} {d : Bytes}, a.chunks[g]? = some chunk → Rel g d →
    d.length = chunk.originalSize.toNat
  read : ∀ {label : ChecksumLabel} {l g : ℕ} {chunk : Chunk} {s : BlockState W},
    1 ≤ a.maxChunksPerOperation → a.chunks[g]? = some chunk →
    s.dst.length = chunk.originalSize.toNat → Inv s.source →
    Fallible.Post (readChunkByIndexInto D R a label l g) s
      (fun _ s' => Inv s'.source ∧ Rel g s'.dst)
      (fun f s' => Inv s'.source ∧ s'.dst.length = s.dst.length ∧ Err label l g f)

/-- What is known about the reading of single chunks, with the record of the numbers of the chunks
that were read so far: every reading adds its chunk to the record, whether it succeeds or fails. -/
structure TraceSpec (Inv : List ℕ → W → Prop) (Rel : ℕ → Bytes → Prop)
    (Err : ChecksumLabel → ℕ → ℕ → Fault → Prop) : Prop where
  length_eq : ∀ {g : ℕ} {chunk : Chunk} {d : Bytes}, a.chunks[g]? = some chunk → Rel g d →
    d.length = chunk.originalSize.toNat
  read : ∀ {label : ChecksumLabel} {l g : ℕ} {chunk : Chunk} {s : BlockState W} {done : List ℕ},
    1 ≤ a.maxChunksPerOperation → a.chunks[g]? = some chunk →
    s.dst.length = chunk.originalSize.toNat → Inv done s.source →
    Fallible.Post (readChunkByIndexInto D R a label l g) s
      (fun _ s' => Inv (done ++ [g]) s'.source ∧ Rel g s'.dst)
      (fun f s' => Inv (done ++ [g]) s'.source ∧ s'.dst.length = s.dst.length ∧ Err label l g f)

/-- What is known about readings in a row that end at the first failure: a success adds its chunk to
the record and keeps `Inv`, and a failure leaves `Stop` behind. -/
structure RunSpec (Inv Stop : List ℕ → W → Prop) (Rel : ℕ → Bytes → Prop)
    (Err : ChecksumLabel → ℕ → ℕ → Fault → Prop) : Prop where
  length_eq : ∀ {g : ℕ} {chunk : Chunk} {d : Bytes}, a.chunks[g]? = some chunk → Rel g d →
    d.length = chunk.originalSize.toNat
  read : ∀ {label : ChecksumLabel} {l g : ℕ} {chunk : Chunk} {s : BlockState W} {done : List ℕ},
    1 ≤ a.maxChunksPerOperation → a.chunks[g]? = some chunk →
    s.dst.length = chunk.originalSize.toNat → Inv done s.source →
    Fallible.Post (readChunkByIndexInto D R a label l g) s
      (fun _ s' => Inv (done ++ [g]) s'.source ∧ Rel g s'.dst)
      (fun f s' => Stop (done ++ [g]) s'.source ∧ s'.dst.length = s.dst.length ∧ Err label l g f)

/-- The source after no more chunks than one operation may read. -/
def Bounded (Inv : List ℕ → W → Prop) (w : W) : Prop :=
  ∃ done, done.length ≤ a.maxChunksPerOperation ∧ Inv done w

/-- The failure of a chunk of an entry behind others that have a content, from number `start` on. -/
def FirstErr (Rel : ℕ → Bytes → Prop) (Err : ChecksumLabel → ℕ → ℕ → Fault → Prop) (entry : Entry)
    (start : ℕ) (label : ChecksumLabel) (l g : ℕ) (f : Fault) : Prop :=
  Err label l g f ∧ ∀ j, start ≤ j → j < l → ∃ d, Rel (entry.firstChunk.toNat + j) d

section

variable {D R a} {Rel : ℕ → Bytes → Prop} {Err : ChecksumLabel → ℕ → ℕ → Fault → Prop}

/-- Knowledge without a record. -/
theorem ChunkSpec.trace {Inv : W → Prop} (spec : ChunkSpec D R a Inv Rel Err) :
    TraceSpec D R a (fun _ => Inv) Rel Err where
  length_eq := spec.length_eq
  read hlimit hchunk hdst hinv := spec.read hlimit hchunk hdst hinv

/-- A record of all readings is one of readings in a row. -/
theorem TraceSpec.run {Inv : List ℕ → W → Prop} (spec : TraceSpec D R a Inv Rel Err) :
    RunSpec D R a Inv Inv Rel Err where
  length_eq := spec.length_eq
  read hlimit hchunk hdst hinv := spec.read hlimit hchunk hdst hinv

/-- A failure behind one more chunk that has a content. -/
theorem FirstErr.behind {entry : Entry} {label : ChecksumLabel} {l n : ℕ} {f : Fault} {d : Bytes}
    (hd : Rel (entry.firstChunk.toNat + l) d)
    (h : FirstErr Rel Err entry (l + 1) label (l + 1 + n) (entry.firstChunk.toNat + (l + 1 + n)) f) :
    FirstErr Rel Err entry l label (l + (n + 1)) (entry.firstChunk.toNat + (l + (n + 1))) f := by
  rw [show l + (n + 1) = l + 1 + n by omega]
  refine ⟨h.1, fun j hl hj => ?_⟩
  rcases Nat.eq_or_lt_of_le hl with rfl | hlt
  · exact ⟨d, hd⟩
  · exact h.2 j hlt hj

theorem Bounded.of_nil {Inv : List ℕ → W → Prop} {w : W} (h : Inv [] w) : Bounded a Inv w :=
  ⟨[], Nat.zero_le _, h⟩

theorem Bounded.of_single {Inv : List ℕ → W → Prop} {w : W} {g : ℕ}
    (hlimit : 1 ≤ a.maxChunksPerOperation) (h : Inv ([] ++ [g]) w) : Bounded a Inv w :=
  ⟨[g], hlimit, h⟩

end

variable {D R a} {Inv Stop : List ℕ → W → Prop} {Rel : ℕ → Bytes → Prop}
  {Err : ChecksumLabel → ℕ → ℕ → Fault → Prop} (spec : RunSpec D R a Inv Stop Rel Err)
  {entry : Entry} {label : ChecksumLabel} {chunk : Chunk} {l written : ℕ} {s : ReadState W}
  {done : List ℕ}

/-- The data of a whole entry: the contents of its chunks, in order. -/
def IsWhole (Rel : ℕ → Bytes → Prop) (entry : Entry) (data : Bytes) : Prop :=
  ∃ ds, List.Forall₂ Rel (List.range' entry.firstChunk.toNat entry.chunkCount.toNat) ds ∧
    data = ds.flatten

/-- How many chunks of `n` bytes a range overlaps. -/
def touched (n offset len : ℕ) : ℕ :=
  if len = 0 then 0 else (offset + len - 1) / n + 1 - offset / n

/-- The numbers of the chunks that a range overlaps. -/
def touchedNumbers (a : Archive) (entry : Entry) (offset len : ℕ) : List ℕ :=
  List.range' (entry.firstChunk.toNat + offset / a.chunkSize.toNat)
    (touched a.chunkSize.toNat offset len)

/-- The data of a range: its window of the contents of the chunks it overlaps, in order. -/
def IsRange (a : Archive) (Rel : ℕ → Bytes → Prop) (entry : Entry) (offset len : ℕ)
    (data : Bytes) : Prop :=
  ∃ ds, List.Forall₂ Rel (List.range' (entry.firstChunk.toNat + offset / a.chunkSize.toNat)
      (touched a.chunkSize.toNat offset len)) ds ∧
    data = ds.flatten.extract (offset % a.chunkSize.toNat) (offset % a.chunkSize.toNat + len)

/-- The total of the sizes of some chunks. -/
def totalSize (cs : List Chunk) : ℕ := (cs.map fun c => c.originalSize.toNat).sum

@[simp] theorem totalSize_nil : totalSize [] = 0 := rfl

@[simp] theorem totalSize_cons (c : Chunk) (cs : List Chunk) :
    totalSize (c :: cs) = c.originalSize.toNat + totalSize cs := by
  simp [totalSize]

theorem totalSize_append (cs ds : List Chunk) :
    totalSize (cs ++ ds) = totalSize cs + totalSize ds := by
  simp [totalSize]

theorem totalSize_of_full {n : ℕ} {cs : List Chunk} (h : ∀ c ∈ cs, c.originalSize.toNat = n) :
    totalSize cs = cs.length * n := by
  induction cs with
  | nil => simp
  | cons c cs ih =>
    rw [List.forall_mem_cons] at h
    rw [totalSize_cons, h.1, ih h.2, List.length_cons]
    ring

theorem totalSize_le {n : ℕ} {cs : List Chunk} (h : ∀ c ∈ cs, c.originalSize.toNat ≤ n) :
    totalSize cs ≤ cs.length * n := by
  induction cs with
  | nil => simp
  | cons c cs ih =>
    rw [List.forall_mem_cons] at h
    have hsum := Nat.add_le_add h.1 (ih h.2)
    rw [totalSize_cons, List.length_cons]
    linarith

theorem u64ToUsize_toNat (n : UInt64) (what : String) : u64ToUsize n.toNat what = .ok n.toNat :=
  u64ToUsize_eq_ok_iff.mpr ⟨n.toNat_lt, rfl⟩

theorem globalChunkOf_of_lt (h : entry.firstChunk.toNat + l < 2 ^ 32) :
    globalChunkOf entry l = .ok (entry.firstChunk.toNat + l) :=
  okOr_eq_ok_iff.mpr (checkedAdd_eq_some_iff.mpr ⟨h, rfl⟩)

include spec

/-- The contents of chunks are as long as the table says. -/
theorem RunSpec.length_flatten {g : ℕ} {cs rest : List Chunk} {ds : List Bytes}
    (hcs : a.chunks.drop g = cs ++ rest)
    (hds : List.Forall₂ Rel (List.range' g cs.length) ds) : ds.flatten.length = totalSize cs := by
  induction cs generalizing g ds with
  | nil =>
    cases hds
    rfl
  | cons c cs ih =>
    rw [List.length_cons, List.range'_succ] at hds
    obtain ⟨d, ds', hd, htail, rfl⟩ := List.forall₂_cons_left_iff.mp hds
    have hc := getElem?_of_drop_eq hcs
    have hrest := drop_succ_of_drop_eq hcs
    rw [List.flatten_cons, List.length_append, ih hrest htail, spec.length_eq hc hd, totalSize_cons]

end RasenArchive
