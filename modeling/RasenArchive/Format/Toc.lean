import RasenArchive.Format.Header
import RasenArchive.Crypto

/-!
# The table of contents

Entry records of variable length followed by chunk records of fixed length, delimited only by the
counts of the header. The encoder, and the decoder with its cursor and its checks.

## Main definitions

* `TocEntry`, `Chunk`: the records
* `encodeToc`, `decodeToc`: the encoder and the decoder
* `tocImage es paths cs`: the bytes of the records with these stored paths
* `Accepts`: when the decoder accepts the record of an entry with a stored path
* `OwnPath`: the path of a decoded entry belongs to its hash

## Main results

* `encodeToc_eq_ok_iff`: what the encoder writes
* `decodeToc_eq_ok_iff`: which bytes the decoder accepts, and as what
* `decodeToc_safe`: the decoder does not panic
-/

namespace RasenArchive

/-- An entry of the table of contents. -/
structure TocEntry where
  path : String
  pathHash : UInt64
  originalSize : UInt64
  storedSize : UInt64
  firstChunk : UInt32
  chunkCount : UInt32
  deriving DecidableEq, Repr

/-- A chunk of the table of contents. -/
structure Chunk where
  offset : UInt64
  storedSize : UInt64
  originalSize : UInt64
  checksum : UInt64
  compressed : Bool
  deriving DecidableEq, Repr

/-! ## Encoding -/

/-- The size of the raw table so far, counted up over the entries. -/
def addEntrySizes : ℕ → List TocEntry → Result ℕ
  | size, [] => pure size
  | size, entry :: entries => do
    ensure (entry.path.utf8ByteSize ≤ maxPathLen) (.tooLarge "path")
    let size ← okOr ((checkedAdd 64 size tocEntryFixedSize).bind
      fun value => checkedAdd 64 value entry.path.utf8ByteSize) (.tooLarge "raw TOC")
    addEntrySizes size entries

/-- The record of an entry with the given bytes as its path. -/
def entryRecord (entry : TocEntry) (path : Bytes) : Bytes :=
  u64ToLeBytes entry.pathHash ++ (u64ToLeBytes entry.originalSize ++
    (u64ToLeBytes entry.storedSize ++ (u32ToLeBytes entry.firstChunk ++
      (u32ToLeBytes entry.chunkCount ++ (u16ToLeBytes (UInt16.ofNat path.length) ++
        (u16ToLeBytes 0 ++ path))))))

/-- The record that `encode_toc` appends for an entry. -/
def encodeEntry (entry : TocEntry) : Result Bytes := do
  let _ ← okOr (tryFrom 16 (asBytes entry.path).length) (.tooLarge "path")
  pure (entryRecord entry (asBytes entry.path))

/-- The record that `encode_toc` appends for a chunk. -/
def encodeChunk (chunk : Chunk) : Bytes :=
  u64ToLeBytes chunk.offset ++ (u64ToLeBytes chunk.storedSize ++
    (u64ToLeBytes chunk.originalSize ++ (u64ToLeBytes chunk.checksum ++
      (u16ToLeBytes (if chunk.compressed then chunkFlagLz4 else 0) ++ u16ToLeBytes 0))))

/-- `encode_toc`. -/
def encodeToc (entries : List TocEntry) (chunks : List Chunk) : Result Bytes := do
  let size ← addEntrySizes 4 entries
  let chunkBytes ← okOr (checkedMul 64 chunks.length tocChunkFixedSize) (.tooLarge "raw TOC")
  let size ← okOr (checkedAdd 64 size chunkBytes) (.tooLarge "raw TOC")
  ensure (size ≤ maxTocRawSize) (.tooLarge "raw TOC")
  let records ← entries.mapM encodeEntry
  pure (tocMagic ++ (records.flatten ++ (chunks.map encodeChunk).flatten))

/-- The bytes of a table whose entries have these stored paths. -/
def tocImage (entries : List TocEntry) (paths : List Bytes) (chunks : List Chunk) : Bytes :=
  tocMagic ++ ((List.zipWith entryRecord entries paths).flatten ++
    (chunks.map encodeChunk).flatten)

@[simp] theorem length_entryRecord (entry : TocEntry) (path : Bytes) :
    (entryRecord entry path).length = tocEntryFixedSize + path.length := by
  simp [entryRecord, tocEntryFixedSize]
  omega

@[simp] theorem length_encodeChunk (chunk : Chunk) :
    (encodeChunk chunk).length = tocChunkFixedSize := by
  simp [encodeChunk, tocChunkFixedSize]

theorem length_entryRecords {entries : List TocEntry} {paths : List Bytes}
    (h : entries.length = paths.length) :
    (List.zipWith entryRecord entries paths).flatten.length =
      tocEntryFixedSize * entries.length + (paths.map List.length).sum := by
  induction entries generalizing paths with
  | nil =>
    cases paths with
    | nil => rfl
    | cons => simp at h
  | cons entry entries ih =>
    cases paths with
    | nil => simp at h
    | cons path paths =>
      have hrest := ih (show entries.length = paths.length by simpa using h)
      simp only [List.zipWith_cons_cons, List.flatten_cons, List.length_append,
        length_entryRecord, List.length_cons, List.map_cons, List.sum_cons, hrest]
      ring

theorem length_encodeChunks (chunks : List Chunk) :
    (chunks.map encodeChunk).flatten.length = tocChunkFixedSize * chunks.length := by
  induction chunks with
  | nil => rfl
  | cons chunk chunks ih =>
    simp only [List.map_cons, List.flatten_cons, List.length_append, length_encodeChunk, ih,
      List.length_cons]
    ring

/-- The length of a table. -/
theorem length_tocImage (entries : List TocEntry) (paths : List Bytes) (chunks : List Chunk)
    (h : entries.length = paths.length) :
    (tocImage entries paths chunks).length =
      4 + tocEntryFixedSize * entries.length + (paths.map List.length).sum +
        tocChunkFixedSize * chunks.length := by
  simp only [tocImage, List.length_append, length_entryRecords h, length_encodeChunks]
  simp only [tocMagic, List.length_cons, List.length_nil]
  omega

theorem addEntrySizes_eq_ok_iff {entries : List TocEntry} {size total : ℕ}
    (hsize : size < 2 ^ 64) :
    addEntrySizes size entries = .ok total ↔
      (∀ e ∈ entries, e.path.utf8ByteSize ≤ maxPathLen) ∧ total < 2 ^ 64 ∧
        total = size + tocEntryFixedSize * entries.length +
          ((entries.map fun e => asBytes e.path).map List.length).sum := by
  induction entries generalizing size with
  | nil =>
    simp only [addEntrySizes, pure_eq_ok_iff, List.not_mem_nil, false_implies, implies_true,
      List.length_nil, List.map_nil, List.sum_nil, true_and]
    omega
  | cons entry entries ih =>
    simp only [addEntrySizes, bind_eq_ok, ensure_eq_ok_iff, exists_const, okOr_eq_ok_iff,
      Option.bind_eq_some_iff, checkedAdd_eq_some_iff, List.forall_mem_cons, List.map_cons,
      List.sum_cons, length_asBytes, List.length_cons]
    constructor
    · rintro ⟨hp, _, ⟨_, ⟨h₁, rfl⟩, h₂, rfl⟩, h⟩
      obtain ⟨hall, hlt, heq⟩ := (ih h₂).mp h
      exact ⟨⟨hp, hall⟩, hlt, by rw [heq]; ring⟩
    · rintro ⟨⟨hp, hall⟩, hlt, heq⟩
      have heq' : total = size + tocEntryFixedSize + entry.path.utf8ByteSize +
          tocEntryFixedSize * entries.length +
          ((entries.map fun e => asBytes e.path).map List.length).sum := by
        rw [heq]
        ring
      have h₂ : size + tocEntryFixedSize + entry.path.utf8ByteSize < 2 ^ 64 := by omega
      exact ⟨hp, _, ⟨_, ⟨by omega, rfl⟩, h₂, rfl⟩, (ih h₂).mpr ⟨hall, hlt, heq'⟩⟩

theorem mapM_encodeEntry_eq_ok_iff {entries : List TocEntry} {records : List Bytes} :
    entries.mapM encodeEntry = .ok records ↔
      (∀ e ∈ entries, e.path.utf8ByteSize ≤ maxPathLen) ∧
        records = List.zipWith entryRecord entries (entries.map fun e => asBytes e.path) := by
  induction entries generalizing records with
  | nil =>
    simp only [List.mapM_nil, pure_eq_ok_iff, List.not_mem_nil, false_implies, implies_true,
      List.map_nil, List.zipWith_nil_left, true_and]
    exact eq_comm
  | cons entry entries ih =>
    simp only [List.mapM_cons, bind_eq_ok, encodeEntry, okOr_eq_ok_iff, tryFrom_eq_some_iff,
      pure_eq_ok_iff, ih, List.forall_mem_cons, List.map_cons, List.zipWith_cons_cons,
      length_asBytes, maxPathLen]
    constructor
    · rintro ⟨_, ⟨_, ⟨hlt, -⟩, rfl⟩, _, ⟨hall, rfl⟩, rfl⟩
      exact ⟨⟨by omega, hall⟩, rfl⟩
    · rintro ⟨⟨hp, hall⟩, rfl⟩
      exact ⟨_, ⟨_, ⟨by omega, rfl⟩, rfl⟩, _, ⟨hall, rfl⟩, rfl⟩

/-- **What the encoder writes.** -/
theorem encodeToc_eq_ok_iff {entries : List TocEntry} {chunks : List Chunk} {out : Bytes} :
    encodeToc entries chunks = .ok out ↔
      (∀ e ∈ entries, e.path.utf8ByteSize ≤ maxPathLen) ∧ out.length ≤ maxTocRawSize ∧
        out = tocImage entries (entries.map fun e => asBytes e.path) chunks := by
  have hlen := length_tocImage entries (entries.map fun e => asBytes e.path) chunks (by simp)
  simp only [encodeToc, bind_eq_ok, addEntrySizes_eq_ok_iff (show 4 < 2 ^ 64 by omega),
    okOr_eq_ok_iff, checkedMul_eq_some_iff, checkedAdd_eq_some_iff, ensure_eq_ok_iff,
    exists_const, mapM_encodeEntry_eq_ok_iff, pure_eq_ok_iff]
  constructor
  · rintro ⟨_, ⟨hall, hlt, rfl⟩, _, ⟨-, rfl⟩, _, ⟨-, rfl⟩, hmax, _, ⟨-, rfl⟩, rfl⟩
    refine ⟨hall, ?_, rfl⟩
    rw [show tocMagic ++ _ = tocImage entries (entries.map fun e => asBytes e.path) chunks
      from rfl, hlen]
    rw [mul_comm chunks.length] at hmax
    exact hmax
  · rintro ⟨hall, hmax, rfl⟩
    rw [hlen] at hmax
    have hmax' : maxTocRawSize < 2 ^ 64 := by decide
    have hcomm := mul_comm chunks.length tocChunkFixedSize
    exact ⟨_, ⟨hall, by omega, rfl⟩, _, ⟨by omega, rfl⟩, _, ⟨by omega, rfl⟩, by omega, _,
      ⟨hall, rfl⟩, rfl⟩

/-! ## The cursor -/

/-- `Cursor`: a read position in the bytes of the table. -/
structure Cursor where
  data : Bytes
  pos : ℕ

namespace Cursor

/-- `Cursor::new`. -/
def new (data : Bytes) : Cursor := ⟨data, 0⟩

/-- `Cursor::take`. -/
def take (n : ℕ) : Fallible Cursor Fault Bytes := do
  let cursor ← Fallible.gets id
  let stop ← okOr (checkedAdd 64 cursor.pos n) (.corrupt "TOC cursor overflow")
  let bytes ← okOr (getRange cursor.data cursor.pos stop) (.corrupt "truncated TOC")
  Fallible.modify fun cursor => { cursor with pos := stop }
  pure bytes

/-- `Cursor::u16`. -/
def u16 : Fallible Cursor Fault UInt16 := do
  let b ← take 2
  ensure (b.length = 2) (.corrupt "truncated TOC")
  pure (u16FromLeBytes b)

/-- `Cursor::u32`. -/
def u32 : Fallible Cursor Fault UInt32 := do
  let b ← take 4
  ensure (b.length = 4) (.corrupt "truncated TOC")
  pure (u32FromLeBytes b)

/-- `Cursor::u64`. -/
def u64 : Fallible Cursor Fault UInt64 := do
  let b ← take 8
  ensure (b.length = 8) (.corrupt "truncated TOC")
  pure (u64FromLeBytes b)

/-- `Cursor::is_empty`. -/
def isEmpty (cursor : Cursor) : Bool := cursor.pos == cursor.data.length

/-- The cursor has moved over the bytes `bs`. -/
structure Consumes (c : Cursor) (bs : Bytes) (c' : Cursor) : Prop where
  data_eq : c'.data = c.data
  pos_eq : c'.pos = c.pos + bs.length
  extract_eq : c.data.extract c.pos c'.pos = bs
  le : c'.pos ≤ c.data.length
  lt : c'.pos < 2 ^ 64

/-- A position inside the data. -/
structure Valid (c : Cursor) : Prop where
  le : c.pos ≤ c.data.length
  lt : c.pos < 2 ^ 64

variable {c c' : Cursor} {a b bs : Bytes}

theorem Consumes.valid (h : Consumes c bs c') : c'.Valid :=
  ⟨h.data_eq ▸ h.le, h.lt⟩

theorem consumes_nil (hc : c.Valid) : Consumes c [] c' ↔ c' = c := by
  constructor
  · intro h
    have hp := h.pos_eq
    have hd := h.data_eq
    cases c
    cases c'
    simp_all
  · rintro rfl
    exact ⟨rfl, rfl, by simp, hc.le, hc.lt⟩

/-- **Consecutive bytes** are consumed one part after the other. -/
theorem consumes_append :
    Consumes c (a ++ b) c' ↔ ∃ c₁, Consumes c a c₁ ∧ Consumes c₁ b c' := by
  constructor
  · intro h
    have hpos := h.pos_eq
    have hle := h.le
    have hlt := h.lt
    rw [List.length_append] at hpos
    have hext := h.extract_eq
    rw [List.extract_eq_take_drop] at hext
    have hsub : c'.pos - c.pos = a.length + b.length := by omega
    rw [hsub] at hext
    refine ⟨⟨c.data, c.pos + a.length⟩, ⟨rfl, rfl, ?_, by simp; omega, by simp; omega⟩,
      ⟨h.data_eq, by simp; omega, ?_, hle, hlt⟩⟩
    · have := congrArg (List.take a.length) hext
      simpa [List.extract_eq_take_drop, List.take_take] using this
    · have := congrArg (List.drop a.length) hext
      simp only [List.drop_take, List.drop_drop, List.drop_left] at this
      rw [List.extract_eq_take_drop]
      rw [← this]
      congr 1
      simp only
      omega
  · rintro ⟨c₁, h₁, h₂⟩
    have hp₁ := h₁.pos_eq
    have hp₂ := h₂.pos_eq
    refine ⟨h₂.data_eq.trans h₁.data_eq, by simp; omega, ?_, h₁.data_eq ▸ h₂.le, h₂.lt⟩
    have e₁ := h₁.extract_eq
    have e₂ := h₂.extract_eq
    rw [h₁.data_eq] at e₂
    rw [← e₁, ← e₂]
    simp only [List.extract_eq_take_drop]
    have hs₁ : c₁.pos - c.pos = a.length := by omega
    have hs₂ : c'.pos - c₁.pos = b.length := by omega
    have hs₃ : c'.pos - c.pos = a.length + b.length := by omega
    rw [hs₁, hs₂, hs₃, List.take_add, List.drop_drop, hp₁]

theorem take_eq_ok_iff {n : ℕ} :
    take n c = (.ok bs, c') ↔ bs.length = n ∧ Consumes c bs c' := by
  simp only [take, Fallible.gets_bind_apply, id, Fallible.bind_eq_ok, Fallible.liftM_eq_ok,
    okOr_eq_ok_iff, checkedAdd_eq_some_iff, getRange_eq_some_iff, Fallible.modify_apply,
    Fallible.pure_apply, Prod.mk.injEq]
  constructor
  · rintro ⟨_, _, ⟨⟨hlt, rfl⟩, rfl⟩, _, _, ⟨⟨⟨-, hbound⟩, rfl⟩, rfl⟩, -, _, ⟨-, rfl⟩, he, rfl⟩
    cases he
    have hlen : (c.data.extract c.pos (c.pos + n)).length = n := by
      simp [List.extract_eq_take_drop]
      omega
    exact ⟨hlen, rfl, by simp only [hlen], rfl, hbound, hlt⟩
  · rintro ⟨rfl, h⟩
    have hpos := h.pos_eq
    have hle := h.le
    have hlt := h.lt
    refine ⟨c.pos + bs.length, c, ⟨⟨by omega, rfl⟩, rfl⟩, bs, c,
      ⟨⟨⟨by omega, by omega⟩, hpos ▸ h.extract_eq⟩, rfl⟩, (), _, ⟨trivial, rfl⟩, rfl, ?_⟩
    rw [← h.data_eq, ← hpos]

theorem u16_eq_ok_iff {n : UInt16} :
    u16 c = (.ok n, c') ↔ Consumes c (u16ToLeBytes n) c' := by
  simp only [u16, Fallible.bind_eq_ok, take_eq_ok_iff, Fallible.liftM_eq_ok, ensure_eq_ok_iff,
    Fallible.pure_apply]
  constructor
  · rintro ⟨b, c₁, ⟨hb, h⟩, -, _, ⟨-, rfl⟩, he⟩
    cases he
    rwa [← (u16FromLeBytes_eq_iff hb).mp rfl]
  · intro h
    have hb := length_u16ToLeBytes n
    exact ⟨_, _, ⟨hb, h⟩, (), _, ⟨hb, rfl⟩, by rw [(u16FromLeBytes_eq_iff hb).mpr rfl]⟩

theorem u32_eq_ok_iff {n : UInt32} :
    u32 c = (.ok n, c') ↔ Consumes c (u32ToLeBytes n) c' := by
  simp only [u32, Fallible.bind_eq_ok, take_eq_ok_iff, Fallible.liftM_eq_ok, ensure_eq_ok_iff,
    Fallible.pure_apply]
  constructor
  · rintro ⟨b, c₁, ⟨hb, h⟩, -, _, ⟨-, rfl⟩, he⟩
    cases he
    rwa [← (u32FromLeBytes_eq_iff hb).mp rfl]
  · intro h
    have hb := length_u32ToLeBytes n
    exact ⟨_, _, ⟨hb, h⟩, (), _, ⟨hb, rfl⟩, by rw [(u32FromLeBytes_eq_iff hb).mpr rfl]⟩

theorem u64_eq_ok_iff {n : UInt64} :
    u64 c = (.ok n, c') ↔ Consumes c (u64ToLeBytes n) c' := by
  simp only [u64, Fallible.bind_eq_ok, take_eq_ok_iff, Fallible.liftM_eq_ok, ensure_eq_ok_iff,
    Fallible.pure_apply]
  constructor
  · rintro ⟨b, c₁, ⟨hb, h⟩, -, _, ⟨-, rfl⟩, he⟩
    cases he
    rwa [← (u64FromLeBytes_eq_iff hb).mp rfl]
  · intro h
    have hb := length_u64ToLeBytes n
    exact ⟨_, _, ⟨hb, h⟩, (), _, ⟨hb, rfl⟩, by rw [(u64FromLeBytes_eq_iff hb).mpr rfl]⟩

end Cursor

/-! ## Decoding -/

variable (D : Dependencies)

/-- The path of an entry, from the stored bytes of its record. -/
def decodePath (pathsStripped : Bool) (pathHash : UInt64) (pathBytes : Bytes) : Result String :=
  match pathsStripped, pathBytes.length with
  | true, 0 => pure ""
  | true, _ + 1 => failWith (.corrupt "production TOC contains an entry path")
  | false, 0 => failWith (.corrupt "debug TOC contains an empty entry path")
  | false, _ + 1 => do
    let path ← okOr (fromUtf8 pathBytes) (.corrupt "entry path is not UTF-8")
    let path ← normalizePath path
    ensure (checksum D (asBytes path) = pathHash) (.corrupt "entry path hash mismatch")
    pure path

/-- The limits that `decode_toc` is called with. -/
structure TocLimits where
  maxPathBytes : ℕ
  maxTotalPathBytes : ℕ
  maxSingleAssetBytes : ℕ

/-- One turn of the loop over the entries, with the path bytes counted so far. -/
def decodeEntry (pathsStripped : Bool) (limits : TocLimits) (totalPathBytes : ℕ) :
    Fallible Cursor Fault (TocEntry × ℕ) := do
  let pathHash ← Cursor.u64
  let originalSize ← Cursor.u64
  let storedSize ← Cursor.u64
  let firstChunk ← Cursor.u32
  let chunkCount ← Cursor.u32
  let pathLen ← Cursor.u16
  let reserved ← Cursor.u16
  -- the record is refused before its path is read
  ensure (originalSize.toNat ≤ limits.maxSingleAssetBytes) .assetTooLarge
  ensure (reserved = 0) (.corrupt "non-zero entry reserved field")
  ensure (pathLen.toNat ≤ limits.maxPathBytes) (.tooLarge "path length limit")
  let totalPathBytes ← okOr (checkedAdd 64 totalPathBytes pathLen.toNat)
    (.tooLarge "total path bytes")
  ensure (totalPathBytes ≤ limits.maxTotalPathBytes) .metadataLimitExceeded
  let pathBytes ← Cursor.take pathLen.toNat
  let path ← decodePath D pathsStripped pathHash pathBytes
  pure ({ path, pathHash, originalSize, storedSize, firstChunk, chunkCount }, totalPathBytes)

/-- The loop over the entries. -/
def decodeEntries (pathsStripped : Bool) (limits : TocLimits) :
    ℕ → ℕ → Fallible Cursor Fault (List TocEntry)
  | 0, _ => pure []
  | n + 1, totalPathBytes => do
    let (entry, totalPathBytes) ← decodeEntry D pathsStripped limits totalPathBytes
    let entries ← decodeEntries pathsStripped limits n totalPathBytes
    pure (entry :: entries)

/-- One turn of the loop over the chunks. -/
def decodeChunk : Fallible Cursor Fault Chunk := do
  let offset ← Cursor.u64
  let storedSize ← Cursor.u64
  let originalSize ← Cursor.u64
  let checksum ← Cursor.u64
  let flags ← Cursor.u16
  let reserved ← Cursor.u16
  ensure (flags &&& ~~~chunkFlagLz4 = 0) (.corrupt "unknown chunk flags")
  ensure (reserved = 0) (.corrupt "non-zero chunk reserved field")
  pure { offset, storedSize, originalSize, checksum,
         compressed := decide (flags &&& chunkFlagLz4 ≠ 0) }

/-- The loop over the chunks. -/
def decodeChunks : ℕ → Fallible Cursor Fault (List Chunk)
  | 0 => pure []
  | n + 1 => do
    let chunk ← decodeChunk
    let chunks ← decodeChunks n
    pure (chunk :: chunks)

/-- The least size of a table with these counts. -/
def minTocBytes (entriesCount chunksCount : ℕ) : Option ℕ :=
  ((checkedMul 64 entriesCount tocEntryFixedSize).bind fun v =>
    (checkedMul 64 chunksCount tocChunkFixedSize).bind fun w => checkedAdd 64 v w).bind
      fun v => checkedAdd 64 v 4

/-- The body of `decode_toc`, on the cursor. -/
def decodeRecords (entriesCount chunksCount : ℕ) (pathsStripped : Bool) (limits : TocLimits) :
    Fallible Cursor Fault (List TocEntry × List Chunk) := do
  let m ← Cursor.take 4
  ensure (m = tocMagic) .badTocMagic
  let minBytes ← okOr (minTocBytes entriesCount chunksCount) (.tooLarge "TOC record counts")
  -- the counts are checked against the size before anything is allocated for them
  let cursor ← Fallible.gets id
  ensure (minBytes ≤ cursor.data.length) (.corrupt "TOC counts exceed TOC size")
  let entries ← decodeEntries D pathsStripped limits entriesCount 0
  let chunks ← decodeChunks chunksCount
  let cursor ← Fallible.gets id
  ensure (cursor.isEmpty = true) (.corrupt "trailing bytes in TOC")
  pure (entries, chunks)

/-- `decode_toc`. -/
def decodeToc (data : Bytes) (entryCount chunkCount : UInt32) (pathsStripped : Bool)
    (limits : TocLimits) : Result (List TocEntry × List Chunk) :=
  (decodeRecords D entryCount.toNat chunkCount.toNat pathsStripped limits (Cursor.new data)).1

/-- The decoder takes the stored path `path` as the path of `entry`. -/
def AcceptsPath (pathsStripped : Bool) (entry : TocEntry) (path : Bytes) : Prop :=
  if pathsStripped then path = [] ∧ entry.path = ""
  else path ≠ [] ∧ ∃ s, fromUtf8 path = some s ∧ normalizePath s = .ok entry.path ∧
    checksum D (asBytes entry.path) = entry.pathHash

/-- The decoder accepts the record of `entry` with the stored path `path`. -/
structure Accepts (pathsStripped : Bool) (limits : TocLimits) (entry : TocEntry)
    (path : Bytes) : Prop where
  size_le : entry.originalSize.toNat ≤ limits.maxSingleAssetBytes
  length_le : path.length ≤ limits.maxPathBytes
  length_lt : path.length < 2 ^ 16
  path : AcceptsPath D pathsStripped entry path

/-- The path of an entry is empty in a stripped archive; otherwise it is in normal form, and its
hash is the recorded one. -/
def OwnPath (pathsStripped : Bool) (entry : TocEntry) : Prop :=
  if pathsStripped then entry.path = ""
  else normalizePath entry.path = .ok entry.path ∧
    checksum D (asBytes entry.path) = entry.pathHash

theorem decodePath_eq_ok_iff {pathsStripped : Bool} {pathHash : UInt64} {pathBytes : Bytes}
    {path : String} :
    decodePath D pathsStripped pathHash pathBytes = .ok path ↔
      if pathsStripped then pathBytes = [] ∧ path = ""
      else pathBytes ≠ [] ∧ ∃ s, fromUtf8 pathBytes = some s ∧ normalizePath s = .ok path ∧
        checksum D (asBytes path) = pathHash := by
  cases pathsStripped <;> cases pathBytes
  · simp [decodePath]
  · simp only [decodePath, List.length_cons, bind_eq_ok, okOr_eq_ok_iff, ensure_eq_ok_iff,
      exists_const, pure_eq_ok_iff, Bool.false_eq_true, if_false, ne_eq, reduceCtorEq,
      not_false_eq_true, true_and]
    constructor
    · rintro ⟨s, hs, q, hq, hc, rfl⟩
      exact ⟨s, hs, hq, hc⟩
    · rintro ⟨s, hs, hq, hc⟩
      exact ⟨s, hs, path, hq, hc, rfl⟩
  · simp only [decodePath, List.length_nil, pure_eq_ok_iff, if_true, true_and]
    exact eq_comm
  · simp [decodePath]

variable {D} {pathsStripped : Bool} {limits : TocLimits}

theorem decodeEntry_eq_ok_iff {total total' : ℕ} {c c' : Cursor} {entry : TocEntry} :
    decodeEntry D pathsStripped limits total c = (.ok (entry, total'), c') ↔
      ∃ path, Accepts D pathsStripped limits entry path ∧ total' = total + path.length ∧
        total' < 2 ^ 64 ∧ total' ≤ limits.maxTotalPathBytes ∧
        c.Consumes (entryRecord entry path) c' := by
  simp only [decodeEntry, Fallible.bind_eq_ok, Fallible.liftM_eq_ok, Cursor.u64_eq_ok_iff,
    Cursor.u32_eq_ok_iff, Cursor.u16_eq_ok_iff, Cursor.take_eq_ok_iff, ensure_eq_ok_iff,
    okOr_eq_ok_iff, checkedAdd_eq_some_iff, decodePath_eq_ok_iff, Fallible.pure_apply,
    Prod.mk.injEq, Except.ok.injEq]
  constructor
  · rintro ⟨_, c₁, h₁, _, c₂, h₂, _, c₃, h₃, _, c₄, h₄, _, c₅, h₅, len, c₆, h₆, _, c₇, h₇,
      -, _, ⟨hsize, rfl⟩, -, _, ⟨rfl, rfl⟩, -, _, ⟨hlen, rfl⟩, _, _, ⟨⟨htotal, rfl⟩, rfl⟩,
      -, _, ⟨hmax, rfl⟩, path, c₈, ⟨hpath, h₈⟩, _, _, ⟨haccept, rfl⟩, ⟨rfl, rfl⟩, rfl⟩
    have hlt : path.length < 2 ^ 16 := by
      rw [hpath]
      exact len.toNat_lt
    refine ⟨path, ⟨hsize, by omega, hlt, haccept⟩, by rw [hpath], htotal, hmax, ?_⟩
    have hlen' : UInt16.ofNat path.length = len := by rw [hpath, UInt16.ofNat_toNat]
    simp only [entryRecord, Cursor.consumes_append, hlen']
    exact ⟨_, h₁, _, h₂, _, h₃, _, h₄, _, h₅, _, h₆, _, h₇, h₈⟩
  · rintro ⟨path, haccept, rfl, htotal, hmax, h⟩
    simp only [entryRecord, Cursor.consumes_append] at h
    obtain ⟨c₁, h₁, c₂, h₂, c₃, h₃, c₄, h₄, c₅, h₅, c₆, h₆, c₇, h₇, h₈⟩ := h
    have hlen : (UInt16.ofNat path.length).toNat = path.length :=
      UInt16.toNat_ofNat_of_lt' haccept.length_lt
    refine ⟨_, c₁, h₁, _, c₂, h₂, _, c₃, h₃, _, c₄, h₄, _, c₅, h₅, _, c₆, h₆, 0, c₇, h₇,
      (), _, ⟨haccept.size_le, rfl⟩, (), _, ⟨rfl, rfl⟩, (), _, ⟨?_, rfl⟩,
      total + path.length, _, ⟨⟨?_, ?_⟩, rfl⟩, (), _, ⟨hmax, rfl⟩, path, c', ⟨?_, h₈⟩,
      entry.path, _, ⟨haccept.path, rfl⟩, ⟨rfl, rfl⟩, rfl⟩
    · rw [hlen]
      exact haccept.length_le
    · rw [hlen]
      exact htotal
    · rw [hlen]
    · exact hlen.symm

/-- **The loop over the entries** reads the records of its result, with the stored paths it
accepts. -/
theorem decodeEntries_eq_ok_iff {n total : ℕ} {c c' : Cursor} (hc : c.Valid)
    {entries : List TocEntry} (htotal : total < 2 ^ 64) (hmax : total ≤ limits.maxTotalPathBytes) :
    decodeEntries D pathsStripped limits n total c = (.ok entries, c') ↔
      entries.length = n ∧ ∃ paths,
        List.Forall₂ (Accepts D pathsStripped limits) entries paths ∧
        total + (paths.map List.length).sum < 2 ^ 64 ∧
        total + (paths.map List.length).sum ≤ limits.maxTotalPathBytes ∧
        c.Consumes (List.zipWith entryRecord entries paths).flatten c' := by
  induction n generalizing total c entries with
  | zero =>
    simp only [decodeEntries, Fallible.pure_apply, Prod.mk.injEq, Except.ok.injEq]
    constructor
    · rintro ⟨rfl, rfl⟩
      exact ⟨rfl, [], .nil, by simpa using htotal, by simpa using hmax,
        (Cursor.consumes_nil hc).mpr rfl⟩
    · rintro ⟨hlen, paths, hall, -, -, h⟩
      obtain rfl := List.length_eq_zero_iff.mp hlen
      cases hall
      exact ⟨rfl, ((Cursor.consumes_nil hc).mp h).symm⟩
  | succ n ih =>
    simp only [decodeEntries, Fallible.bind_eq_ok, Prod.exists, decodeEntry_eq_ok_iff,
      Fallible.pure_apply, Prod.mk.injEq, Except.ok.injEq]
    constructor
    · rintro ⟨entry, total', c₁, ⟨path, haccept, rfl, hlt, hle, h₁⟩, rest, c₂, h₂, rfl, rfl⟩
      obtain ⟨hlen, paths, hall, hlt', hle', h₂⟩ := (ih h₁.valid hlt hle).mp h₂
      refine ⟨by simp [hlen], path :: paths, .cons haccept hall, ?_, ?_, ?_⟩
      · simp only [List.map_cons, List.sum_cons]
        omega
      · simp only [List.map_cons, List.sum_cons]
        omega
      · exact Cursor.consumes_append.mpr ⟨c₁, h₁, h₂⟩
    · rintro ⟨hlen, paths, hall, hlt, hle, h⟩
      cases hall with
      | nil => simp at hlen
      | @cons entry path rest paths haccept hall =>
        obtain ⟨c₁, h₁, h₂⟩ := Cursor.consumes_append.mp h
        simp only [List.map_cons, List.sum_cons] at hlt hle
        refine ⟨entry, total + path.length, c₁, ⟨path, haccept, rfl, by omega, by omega, h₁⟩,
          rest, c', (ih h₁.valid (by omega) (by omega)).mpr ?_, rfl, rfl⟩
        exact ⟨by simpa using hlen, paths, hall, by omega, by omega, h₂⟩

/-- A chunk has no flag besides `CHUNK_FLAG_LZ4`. -/
theorem eq_zero_or_lz4_of_known {flags : UInt16} (h : flags &&& ~~~chunkFlagLz4 = 0) :
    flags = 0 ∨ flags = chunkFlagLz4 := by
  have hlt : flags.toNat < 2 ^ 1 := by
    apply Nat.lt_pow_two_of_testBit
    intro i hi
    have hb := congrArg (fun x : UInt16 => x.toNat.testBit i) h
    by_cases h16 : i < 16
    · have hmask : ∀ j : Fin 16, 1 ≤ j.val → (~~~chunkFlagLz4).toNat.testBit j.val = true := by
        decide
      simpa [UInt16.toNat_and, Nat.testBit_and, hmask ⟨i, h16⟩ hi, -UInt16.toNat_not] using hb
    · have hpow : 2 ^ 16 ≤ 2 ^ i := Nat.pow_le_pow_right (by omega) (by omega)
      exact Nat.testBit_lt_two_pow (lt_of_lt_of_le flags.toNat_lt hpow)
  have h01 : flags.toNat = 0 ∨ flags.toNat = 1 := by omega
  rcases h01 with h | h
  · exact Or.inl (UInt16.toNat_inj.mp h)
  · exact Or.inr (UInt16.toNat_inj.mp h)

theorem decodeChunk_eq_ok_iff {c c' : Cursor} {chunk : Chunk} :
    decodeChunk c = (.ok chunk, c') ↔ c.Consumes (encodeChunk chunk) c' := by
  simp only [decodeChunk, Fallible.bind_eq_ok, Fallible.liftM_eq_ok, Cursor.u64_eq_ok_iff,
    Cursor.u16_eq_ok_iff, ensure_eq_ok_iff, Fallible.pure_apply, Prod.mk.injEq,
    Except.ok.injEq, encodeChunk, Cursor.consumes_append]
  constructor
  · rintro ⟨_, c₁, h₁, _, c₂, h₂, _, c₃, h₃, _, c₄, h₄, flags, c₅, h₅, _, c₆, h₆,
      -, _, ⟨hflags, rfl⟩, -, _, ⟨rfl, rfl⟩, rfl, rfl⟩
    refine ⟨_, h₁, _, h₂, _, h₃, _, h₄, c₅, ?_, h₆⟩
    rcases eq_zero_or_lz4_of_known hflags with rfl | rfl <;> exact h₅
  · rintro ⟨c₁, h₁, c₂, h₂, c₃, h₃, c₄, h₄, c₅, h₅, h₆⟩
    refine ⟨_, c₁, h₁, _, c₂, h₂, _, c₃, h₃, _, c₄, h₄, _, c₅, h₅, 0, c', h₆, (), _, ⟨?_, rfl⟩,
      (), _, ⟨rfl, rfl⟩, ?_, rfl⟩
    · cases chunk.compressed <;> decide
    · have hflag : decide ((if chunk.compressed then chunkFlagLz4 else 0) &&& chunkFlagLz4 ≠ 0) =
          chunk.compressed := by
        cases chunk.compressed <;> decide
      rw [hflag]

/-- **The loop over the chunks** reads the records of its result. -/
theorem decodeChunks_eq_ok_iff {n : ℕ} {c c' : Cursor} (hc : c.Valid) {chunks : List Chunk} :
    decodeChunks n c = (.ok chunks, c') ↔
      chunks.length = n ∧ c.Consumes (chunks.map encodeChunk).flatten c' := by
  induction n generalizing c chunks with
  | zero =>
    simp only [decodeChunks, Fallible.pure_apply, Prod.mk.injEq, Except.ok.injEq]
    constructor
    · rintro ⟨rfl, rfl⟩
      exact ⟨rfl, (Cursor.consumes_nil hc).mpr rfl⟩
    · rintro ⟨hlen, h⟩
      obtain rfl := List.length_eq_zero_iff.mp hlen
      exact ⟨rfl, ((Cursor.consumes_nil hc).mp h).symm⟩
  | succ n ih =>
    simp only [decodeChunks, Fallible.bind_eq_ok, decodeChunk_eq_ok_iff, Fallible.pure_apply,
      Prod.mk.injEq, Except.ok.injEq]
    constructor
    · rintro ⟨chunk, c₁, h₁, rest, c₂, h₂, rfl, rfl⟩
      obtain ⟨hlen, h₂⟩ := (ih h₁.valid).mp h₂
      exact ⟨by simp [hlen], Cursor.consumes_append.mpr ⟨c₁, h₁, h₂⟩⟩
    · rintro ⟨hlen, h⟩
      cases chunks with
      | nil => simp at hlen
      | cons chunk rest =>
        obtain ⟨c₁, h₁, h₂⟩ := Cursor.consumes_append.mp h
        exact ⟨chunk, c₁, h₁, rest, c', (ih h₁.valid).mpr ⟨by simpa using hlen, h₂⟩, rfl, rfl⟩

/-- Consuming all of the data. -/
theorem Cursor.consumes_new_iff {data bs : Bytes} {c : Cursor} :
    (Cursor.new data).Consumes bs c ∧ c.isEmpty = true ↔
      bs = data ∧ data.length < 2 ^ 64 ∧ c = ⟨data, data.length⟩ := by
  constructor
  · rintro ⟨h, he⟩
    have hd := h.data_eq
    have hlt := h.lt
    have hext := h.extract_eq
    have hp : c.pos = c.data.length := by simpa [Cursor.isEmpty] using he
    simp only [Cursor.new] at hd hext
    rw [hp, hd] at hext hlt
    refine ⟨by simpa using hext.symm, hlt, ?_⟩
    cases c
    simp_all
  · rintro ⟨rfl, hlt, rfl⟩
    refine ⟨⟨rfl, by simp [Cursor.new], by simp [Cursor.new], le_rfl, hlt⟩, ?_⟩
    simp [Cursor.isEmpty]

/-- **What the decoder accepts**: the records of its result, each with a stored path it accepts,
and nothing else. -/
theorem decodeToc_eq_ok_iff {data : Bytes} {entryCount chunkCount : UInt32}
    {entries : List TocEntry} {chunks : List Chunk} :
    decodeToc D data entryCount chunkCount pathsStripped limits = .ok (entries, chunks) ↔
      entries.length = entryCount.toNat ∧ chunks.length = chunkCount.toNat ∧
        data.length < 2 ^ 64 ∧ ∃ paths,
          List.Forall₂ (Accepts D pathsStripped limits) entries paths ∧
          (paths.map List.length).sum ≤ limits.maxTotalPathBytes ∧
          data = tocImage entries paths chunks := by
  have hfst : ∀ {α : Type} {x : Result α × Cursor} {a : α}, x.1 = .ok a ↔ ∃ c, x = (.ok a, c) :=
    fun {α x a} => ⟨fun h => ⟨x.2, by rw [← h]⟩, fun ⟨c, h⟩ => by rw [h]⟩
  simp only [decodeToc, hfst, decodeRecords, Fallible.bind_eq_ok, Cursor.take_eq_ok_iff,
    Fallible.liftM_eq_ok, ensure_eq_ok_iff, Fallible.gets_bind_apply, id, Fallible.pure_apply,
    Prod.mk.injEq, Except.ok.injEq]
  constructor
  · rintro ⟨_, _, c₁, ⟨-, h₁⟩, -, _, ⟨rfl, rfl⟩, _, _, ⟨-, rfl⟩, -, _, ⟨-, rfl⟩, entries, c₂, h₂,
      chunks, c₃, h₃, -, _, ⟨hempty, rfl⟩, ⟨rfl, rfl⟩, rfl⟩
    obtain ⟨hes, paths, hall, -, hmax, h₂⟩ :=
      (decodeEntries_eq_ok_iff h₁.valid (by omega) (Nat.zero_le _)).mp h₂
    obtain ⟨hcs, h₃⟩ := (decodeChunks_eq_ok_iff h₂.valid).mp h₃
    have h : (Cursor.new data).Consumes (tocImage entries paths chunks) c₃ :=
      Cursor.consumes_append.mpr ⟨c₁, h₁, Cursor.consumes_append.mpr ⟨c₂, h₂, h₃⟩⟩
    obtain ⟨hdata, hlt, -⟩ := Cursor.consumes_new_iff.mp ⟨h, hempty⟩
    exact ⟨hes, hcs, hlt, paths, hall, by simpa using hmax, hdata.symm⟩
  · rintro ⟨hes, hcs, hlt, paths, hall, hmax, hdata⟩
    obtain ⟨h, hempty⟩ := Cursor.consumes_new_iff.mpr ⟨hdata.symm, hlt, rfl⟩
    obtain ⟨c₁, h₁, h'⟩ := Cursor.consumes_append.mp h
    obtain ⟨c₂, h₂, h₃⟩ := Cursor.consumes_append.mp h'
    have hlen := length_tocImage _ _ chunks hall.length_eq
    rw [← hdata] at hlen
    have hbytes : c₁.data.length = data.length := by rw [h₁.data_eq]; rfl
    refine ⟨_, tocMagic, c₁, ⟨rfl, h₁⟩, (), c₁, ⟨rfl, rfl⟩,
      entryCount.toNat * tocEntryFixedSize + chunkCount.toNat * tocChunkFixedSize + 4, c₁,
      ⟨?_, rfl⟩, (), c₁, ⟨?_, rfl⟩, entries, c₂, ?_, chunks, _, ?_, (), _, ⟨hempty, rfl⟩,
      ⟨rfl, rfl⟩, rfl⟩
    · simp only [okOr_eq_ok_iff, minTocBytes, Option.bind_eq_some_iff, checkedMul_eq_some_iff,
        checkedAdd_eq_some_iff]
      rw [← hes, ← hcs, mul_comm entries.length, mul_comm chunks.length]
      exact ⟨_, ⟨_, ⟨by omega, rfl⟩, _, ⟨by omega, rfl⟩, by omega, rfl⟩, by omega, rfl⟩
    · rw [hbytes, ← hes, ← hcs, mul_comm entries.length, mul_comm chunks.length]
      omega
    · exact (decodeEntries_eq_ok_iff h₁.valid (by omega) (Nat.zero_le _)).mpr
        ⟨hes, paths, hall, by omega, by omega, h₂⟩
    · exact (decodeChunks_eq_ok_iff h₂.valid).mpr ⟨hcs, h₃⟩

/-! ## Accepted entries -/

theorem accepts_of_ownPath {entry : TocEntry} (h : OwnPath D pathsStripped entry)
    (hsize : entry.originalSize.toNat ≤ limits.maxSingleAssetBytes)
    (hpath : entry.path.utf8ByteSize ≤ limits.maxPathBytes) :
    Accepts D pathsStripped limits entry (asBytes entry.path) := by
  cases pathsStripped with
  | true =>
    have hp : entry.path = "" := h
    exact ⟨hsize, hpath, by simp [hp], by simp [AcceptsPath, hp]⟩
  | false =>
    obtain ⟨hn, hh⟩ : normalizePath entry.path = .ok entry.path ∧
      checksum D (asBytes entry.path) = entry.pathHash := h
    have hle := utf8ByteSize_le_maxPathLen hn
    have hne : asBytes entry.path ≠ [] := fun he =>
      ne_empty_of_normalizePath hn (asBytes_injective (by rw [he, asBytes_empty]))
    refine ⟨hsize, hpath, by simp only [length_asBytes, maxPathLen] at *; omega, ?_⟩
    simp only [AcceptsPath, Bool.false_eq_true, if_false]
    exact ⟨hne, entry.path, fromUtf8_eq_some_iff.mpr rfl, hn, hh⟩

theorem Accepts.ownPath {entry : TocEntry} {path : Bytes}
    (h : Accepts D pathsStripped limits entry path) : OwnPath D pathsStripped entry := by
  have hp := h.path
  cases pathsStripped with
  | true =>
    simp only [AcceptsPath, if_true] at hp
    exact hp.2
  | false =>
    simp only [AcceptsPath, Bool.false_eq_true, if_false] at hp
    obtain ⟨-, s, -, hn, hh⟩ := hp
    exact ⟨normalizePath_idempotent hn, hh⟩

/-! ## Absence of panics -/

theorem Cursor.take_runsSafe (n : ℕ) : RunsSafe (Cursor.take n) :=
  (RunsSafe.gets _).bind fun _ => (RunsSafe.liftM (by simp)).bind fun _ =>
    (RunsSafe.liftM (by simp)).bind fun _ => (RunsSafe.modify _).bind fun _ => .pure _

theorem Cursor.u16_runsSafe : RunsSafe Cursor.u16 :=
  (Cursor.take_runsSafe 2).bind fun _ => (RunsSafe.liftM (by simp)).bind fun _ => .pure _

theorem Cursor.u32_runsSafe : RunsSafe Cursor.u32 :=
  (Cursor.take_runsSafe 4).bind fun _ => (RunsSafe.liftM (by simp)).bind fun _ => .pure _

theorem Cursor.u64_runsSafe : RunsSafe Cursor.u64 :=
  (Cursor.take_runsSafe 8).bind fun _ => (RunsSafe.liftM (by simp)).bind fun _ => .pure _

theorem normalizePath_safe (path : String) : Safe (normalizePath path) := by
  intro p h
  cases normalizePath_error h

theorem decodePath_safe (pathHash : UInt64) (pathBytes : Bytes) :
    Safe (decodePath D pathsStripped pathHash pathBytes) := by
  cases pathsStripped <;> cases pathBytes <;> simp only [decodePath, List.length_nil,
    List.length_cons, safe_failWith, safe_pure]
  exact (safe_okOr _).bind fun _ _ => (normalizePath_safe _).bind fun _ _ =>
    (safe_ensure _).bind fun _ _ => safe_pure _

theorem decodeEntry_runsSafe (total : ℕ) :
    RunsSafe (decodeEntry D pathsStripped limits total) := by
  refine Cursor.u64_runsSafe.bind fun pathHash => Cursor.u64_runsSafe.bind fun _ =>
    Cursor.u64_runsSafe.bind fun _ => Cursor.u32_runsSafe.bind fun _ =>
    Cursor.u32_runsSafe.bind fun _ => Cursor.u16_runsSafe.bind fun pathLen =>
    Cursor.u16_runsSafe.bind fun _ => ?_
  refine (RunsSafe.liftM (safe_ensure _)).bind fun _ =>
    (RunsSafe.liftM (safe_ensure _)).bind fun _ => (RunsSafe.liftM (safe_ensure _)).bind fun _ =>
    (RunsSafe.liftM (safe_okOr _)).bind fun _ => (RunsSafe.liftM (safe_ensure _)).bind fun _ => ?_
  exact (Cursor.take_runsSafe _).bind fun _ =>
    (RunsSafe.liftM (decodePath_safe _ _)).bind fun _ => .pure _

theorem decodeEntries_runsSafe (n total : ℕ) :
    RunsSafe (decodeEntries D pathsStripped limits n total) := by
  induction n generalizing total with
  | zero => exact .pure _
  | succ n ih =>
    exact (decodeEntry_runsSafe total).bind fun _ => (ih _).bind fun _ => .pure _

theorem decodeChunk_runsSafe : RunsSafe decodeChunk :=
  Cursor.u64_runsSafe.bind fun _ => Cursor.u64_runsSafe.bind fun _ =>
    Cursor.u64_runsSafe.bind fun _ => Cursor.u64_runsSafe.bind fun _ =>
    Cursor.u16_runsSafe.bind fun _ => Cursor.u16_runsSafe.bind fun _ =>
    (RunsSafe.liftM (safe_ensure _)).bind fun _ => (RunsSafe.liftM (safe_ensure _)).bind fun _ =>
    .pure _

theorem decodeChunks_runsSafe (n : ℕ) : RunsSafe (decodeChunks n) := by
  induction n with
  | zero => exact .pure _
  | succ n ih => exact decodeChunk_runsSafe.bind fun _ => ih.bind fun _ => .pure _

/-- **The decoder does not panic**, whatever the bytes. -/
theorem decodeToc_safe (data : Bytes) (entryCount chunkCount : UInt32) :
    Safe (decodeToc D data entryCount chunkCount pathsStripped limits) := by
  have h : RunsSafe
      (decodeRecords D entryCount.toNat chunkCount.toNat pathsStripped limits) := by
    refine (Cursor.take_runsSafe 4).bind fun _ => (RunsSafe.liftM (safe_ensure _)).bind fun _ =>
      (RunsSafe.liftM (safe_okOr _)).bind fun _ => (RunsSafe.gets _).bind fun _ =>
      (RunsSafe.liftM (safe_ensure _)).bind fun _ => (decodeEntries_runsSafe _ _).bind fun _ =>
      (decodeChunks_runsSafe _).bind fun _ => (RunsSafe.gets _).bind fun _ =>
      (RunsSafe.liftM (safe_ensure _)).bind fun _ => .pure _
  exact h _

end RasenArchive
