import RasenArchive.Archive.Verified
import RasenArchive.Ffi.Boundary

/-!
# Reading through the C interface

The functions of the C interface that read from an archive: into a fresh buffer that is handed to
the caller, or into memory of the caller.

## Main definitions

* `FfiState`: the source of the archive, and what the caller's pointers point to
* `rasenArchiveRead`, and the other functions under their names
* `ReadCall`, `ReadCall.run`: the calls of these functions
* `LeadsTo`: the entry that a path of the caller leads to
-/

namespace RasenArchive

/-- The source of an archive and the memory of the caller: a buffer for the result, a destination,
the number of bytes read, and a scratch space. -/
structure FfiState (W : Type) where
  source : W
  out : RasenBuffer
  dst : Bytes
  outRead : ℕ
  scratch : ArchiveScratch

/-- The memory of the caller that a read gives its result in. -/
def FfiState.outputs {W : Type} (s : FfiState W) : RasenBuffer × Bytes × ℕ :=
  (s.out, s.dst, s.outRead)

variable (D : Dependencies) {W : Type} (R : RandomAccessRead W)

/-! ## The functions -/

/-- A call of the library on the source of the archive. -/
def onArchive {α : Type} (x : Fallible W Fault α) : Fallible (FfiState W) FfiFault α :=
  Fallible.focus FfiState.source (fun w s => { s with source := w })
    (Fallible.mapError FfiFault.ofFault x)

/-- A call of the library that reads into the destination of the caller. -/
def onCaller {α : Type} (dst : MutBytes) (x : Fallible (W × Bytes) Fault α) :
    Fallible (FfiState W) FfiFault α :=
  Fallible.focus (fun s => (s.source, dst.view s.dst))
    (fun t s => { s with source := t.1, dst := dst.store t.2 s.dst })
    (Fallible.mapError FfiFault.ofFault x)

/-- A call of the library that reads into the destination and uses the scratch space of the
caller. -/
def onScratch {α : Type} (dst : MutBytes) (x : Fallible (ReadState W) Fault α) :
    Fallible (FfiState W) FfiFault α :=
  Fallible.focus (fun s => ⟨s.source, dst.view s.dst, s.scratch⟩)
    (fun t s => { s with source := t.source, dst := dst.store t.dst s.dst, scratch := t.scratch })
    (Fallible.mapError FfiFault.ofFault x)

/-- `read_buffer`. -/
def readBuffer (archive : Option Archive) (out : Pointer) (read : Archive → Fallible W Fault Bytes) :
    Fallible (FfiState W) FfiFault Unit := do
  let archive ← requiredRef archive "archive"
  requiredMut out "out"
  let value ← onArchive (read archive)
  Fallible.modify fun s => { s with out := intoBuffer value }

/-- The functions that read into the destination of the caller. -/
def readCaller {α : Type} (archive : Option Archive) (path : ConstBytes) (dst : MutBytes)
    (read : Archive → String → Fallible (W × Bytes) Fault α) :
    Fallible (FfiState W) FfiFault α := do
  let archive ← requiredRef archive "archive"
  let path ← path.utf8 "path"
  dst.bytesMut "dst"
  onCaller dst (read archive path)

/-- The functions that read into the destination and use the scratch space of the caller. -/
def readCallerWithScratch {α : Type} (archive : Option Archive) (path : ConstBytes)
    (dst : MutBytes) (scratch : Pointer)
    (read : Archive → String → Fallible (ReadState W) Fault α) :
    Fallible (FfiState W) FfiFault α := do
  let archive ← requiredRef archive "archive"
  let path ← path.utf8 "path"
  dst.bytesMut "dst"
  requiredMut scratch "scratch"
  onScratch dst (read archive path)

/-- `*required_mut(out_read, "out_read")? = read`. -/
def storeRead (outRead : Pointer) (read : ℕ) : Fallible (FfiState W) FfiFault Unit := do
  requiredMut outRead "out_read"
  Fallible.modify fun s => { s with outRead := read }

variable (archive : Option Archive) (path : ConstBytes)

/-- `rasen_archive_read`. -/
def rasenArchiveRead (out : Pointer) : Fallible (FfiState W) FfiFault Unit := do
  let path ← path.utf8 "path"
  readBuffer archive out fun archive => read D R archive path

/-- `rasen_archive_read_by_id`. -/
def rasenArchiveReadById (assetId : UInt64) (out : Pointer) :
    Fallible (FfiState W) FfiFault Unit :=
  readBuffer archive out fun archive => readById D R archive (AssetId.fromRaw assetId)

/-- `rasen_archive_read_into`. -/
def rasenArchiveReadInto (dst : MutBytes) : Fallible (FfiState W) FfiFault Unit :=
  readCaller archive path dst fun archive path => readInto D R archive path

/-- `rasen_archive_read_chunk`. -/
def rasenArchiveReadChunk (chunkIndex : UInt32) (out : Pointer) :
    Fallible (FfiState W) FfiFault Unit := do
  let path ← path.utf8 "path"
  readBuffer archive out fun archive => readChunk D R archive path chunkIndex

/-- `rasen_archive_read_chunk_into`. -/
def rasenArchiveReadChunkInto (chunkIndex : UInt32) (dst : MutBytes) :
    Fallible (FfiState W) FfiFault Unit :=
  readCaller archive path dst fun archive path => readChunkInto D R archive path chunkIndex

/-- `rasen_archive_read_range`. -/
def rasenArchiveReadRange (offset len : UInt64) (out : Pointer) :
    Fallible (FfiState W) FfiFault Unit := do
  let path ← path.utf8 "path"
  readBuffer archive out fun archive => readRange D R archive path offset len

/-- `rasen_archive_read_range_exact`. -/
def rasenArchiveReadRangeExact (offset len : UInt64) (out : Pointer) :
    Fallible (FfiState W) FfiFault Unit := do
  let path ← path.utf8 "path"
  readBuffer archive out fun archive => readRangeExact D R archive path offset len

/-- `rasen_archive_read_range_into`. The place for the number is checked after the read. -/
def rasenArchiveReadRangeInto (offset : UInt64) (dst : MutBytes) (outRead : Pointer) :
    Fallible (FfiState W) FfiFault Unit := do
  let read ← readCaller archive path dst fun archive path => readRangeInto D R archive path offset
  storeRead outRead read

/-- `rasen_archive_read_into_with_scratch`. -/
def rasenArchiveReadIntoWithScratch (dst : MutBytes) (scratch : Pointer) :
    Fallible (FfiState W) FfiFault Unit :=
  readCallerWithScratch archive path dst scratch fun archive path =>
    readIntoWithScratch D R archive path

/-- `rasen_archive_read_chunk_into_with_scratch`. -/
def rasenArchiveReadChunkIntoWithScratch (chunkIndex : UInt32) (dst : MutBytes)
    (scratch : Pointer) : Fallible (FfiState W) FfiFault Unit :=
  readCallerWithScratch archive path dst scratch fun archive path =>
    readChunkIntoWithScratch D R archive path chunkIndex

/-- `rasen_archive_read_range_with_scratch`. The place for the number is checked after the read. -/
def rasenArchiveReadRangeWithScratch (offset : UInt64) (dst : MutBytes) (scratch outRead : Pointer) :
    Fallible (FfiState W) FfiFault Unit := do
  let read ← readCallerWithScratch archive path dst scratch fun archive path =>
    readRangeWithScratch D R archive path offset
  storeRead outRead read

/-- A call of one of the functions. -/
inductive ReadCall where
  | read (path : ConstBytes) (out : Pointer)
  | readById (assetId : UInt64) (out : Pointer)
  | readInto (path : ConstBytes) (dst : MutBytes)
  | readChunk (path : ConstBytes) (chunkIndex : UInt32) (out : Pointer)
  | readChunkInto (path : ConstBytes) (chunkIndex : UInt32) (dst : MutBytes)
  | readRange (path : ConstBytes) (offset len : UInt64) (out : Pointer)
  | readRangeExact (path : ConstBytes) (offset len : UInt64) (out : Pointer)
  | readRangeInto (path : ConstBytes) (offset : UInt64) (dst : MutBytes) (outRead : Pointer)
  | readIntoWithScratch (path : ConstBytes) (dst : MutBytes) (scratch : Pointer)
  | readChunkIntoWithScratch (path : ConstBytes) (chunkIndex : UInt32) (dst : MutBytes)
    (scratch : Pointer)
  | readRangeWithScratch (path : ConstBytes) (offset : UInt64) (dst : MutBytes)
    (scratch outRead : Pointer)

/-- The body of the function that is called. -/
def ReadCall.body : ReadCall → Fallible (FfiState W) FfiFault Unit
  | .read path out => rasenArchiveRead D R archive path out
  | .readById assetId out => rasenArchiveReadById D R archive assetId out
  | .readInto path dst => rasenArchiveReadInto D R archive path dst
  | .readChunk path chunkIndex out => rasenArchiveReadChunk D R archive path chunkIndex out
  | .readChunkInto path chunkIndex dst => rasenArchiveReadChunkInto D R archive path chunkIndex dst
  | .readRange path offset len out => rasenArchiveReadRange D R archive path offset len out
  | .readRangeExact path offset len out => rasenArchiveReadRangeExact D R archive path offset len out
  | .readRangeInto path offset dst outRead =>
    rasenArchiveReadRangeInto D R archive path offset dst outRead
  | .readIntoWithScratch path dst scratch =>
    rasenArchiveReadIntoWithScratch D R archive path dst scratch
  | .readChunkIntoWithScratch path chunkIndex dst scratch =>
    rasenArchiveReadChunkIntoWithScratch D R archive path chunkIndex dst scratch
  | .readRangeWithScratch path offset dst scratch outRead =>
    rasenArchiveReadRangeWithScratch D R archive path offset dst scratch outRead

/-- The call across the boundary. -/
def ReadCall.run (call : ReadCall) : Thread (FfiState W) → RasenStatus × Thread (FfiState W) :=
  ffiCall (call.body D R archive)

/-- The path that a pointer points to leads to an entry. -/
def LeadsTo (a : Archive) (path : ConstBytes) (e : Entry) : Prop :=
  ∃ p, path.Holds (asBytes p) ∧ entry D a p = .ok e

/-- The caller of the small archive, with a destination of two bytes. -/
def smallCaller : Thread (FfiState Bytes) := ⟨⟨smallBytes, {}, [5, 6], 0, {}⟩, ""⟩

end RasenArchive
