import RasenArchive.Ffi.Delivery
import RasenArchive.Ffi.Pack
import RasenArchive.Ffi.Source

/-!
# Archives behind the C interface

Opening and freeing archives, and the functions of the C interface that ask an open archive for its
entries. Archives and scratch spaces are given out as pointers; a pointer to one of them is the
number under which the interface holds it.

## Main definitions

* `RasenHandle`: an open archive and what it reads from
* `FfiMemory`: the places of the caller that results go to
* `ArchiveCall`: the calls on an open archive, with `ArchiveCall.body`
* `Session`: what the interface holds, and the state of the system and of the caller
* `rasenArchiveOpenMemory`, `rasenArchiveOpenFile`, `rasenArchiveOpenSource`, `rasenArchiveFree`
-/

namespace RasenArchive

variable (D : Dependencies)

/-! ## The places of the caller -/

/-- `RasenArchiveInfo`. -/
structure RasenArchiveInfo where
  entryCount : ℕ := 0
  chunkSize : UInt32 := 0
  alignment : UInt32 := 0
  pathsStripped : UInt8 := 0
  protection : UInt32 := 0
  deriving DecidableEq, Repr

/-- `RasenEntry`, with the bytes that its path points to. -/
structure RasenEntry where
  path : Option Bytes := none
  pathLen : ℕ := 0
  pathHash : UInt64 := 0
  originalSize : UInt64 := 0
  storedSize : UInt64 := 0
  firstChunk : UInt32 := 0
  chunkCount : UInt32 := 0
  deriving DecidableEq, Repr

/-- `RasenArchiveLimits` has the fields of `ArchiveLimits`. -/
abbrev RasenArchiveLimits : Type := ArchiveLimits

/-- The places of the caller that results go to. A pointer to an archive or to a scratch space is
null or the number of it. -/
structure FfiMemory where
  out : RasenBuffer := {}
  dst : Bytes := []
  outRead : ℕ := 0
  outInfo : RasenArchiveInfo := {}
  outEntry : RasenEntry := {}
  outContains : UInt8 := 0
  outHash : UInt64 := 0
  outArchive : Option ℕ := none
  outScratch : Option ℕ := none
  deriving DecidableEq, Repr

/-- `Entry::path`. -/
def Entry.path? (entry : Entry) : Option String :=
  if entry.path = "" then none else some entry.path

/-- `ffi_entry`. -/
def ffiEntry (entry : Entry) : RasenEntry where
  path := (Entry.path? entry).map asBytes
  pathLen := ((Entry.path? entry).map String.utf8ByteSize).getD 0
  pathHash := entry.pathHash
  originalSize := entry.originalSize
  storedSize := entry.storedSize
  firstChunk := entry.firstChunk
  chunkCount := entry.chunkCount

/-- `limits`, of a pointer that may be null. -/
def ffiLimits (limits : Option RasenArchiveLimits) : ArchiveLimits :=
  limits.getD .runtimeDefault

/-- The info that `rasen_archive_info` gives. -/
def archiveInfo (archive : Archive) : RasenArchiveInfo where
  entryCount := archive.entries.length
  chunkSize := archive.chunkSize
  alignment := archive.alignment
  pathsStripped := if archive.pathsStripped then 1 else 0
  protection := match archive.protection with
    | .xor => protectionXor
    | .aead => protectionAead

/-- The failure of `rasen_archive_entry_at`. -/
def indexOutOfRange (index : ℕ) : FfiFailure :=
  ⟨.outOfRange, "entry index out of range: " ++ toString index, by decide⟩

/-! ## Calls on an open archive -/

/-- The state of a call on an archive: its source, the memory of the caller and a scratch space. -/
structure CallState (W : Type) where
  source : W
  memory : FfiMemory
  scratch : ArchiveScratch

/-- What the functions that read work on. -/
def CallState.reading {W : Type} (s : CallState W) : FfiState W :=
  ⟨s.source, s.memory.out, s.memory.dst, s.memory.outRead, s.scratch⟩

/-- The state after one of the functions that read. -/
def CallState.afterReading {W : Type} (t : FfiState W) (s : CallState W) : CallState W where
  source := t.source
  memory := { s.memory with out := t.out, dst := t.dst, outRead := t.outRead }
  scratch := t.scratch

section Calls

variable {W : Type} (R : RandomAccessRead W) (archive : Option Archive)

/-- `*required_mut(out, name)? = value`, for the place that `put` writes to. -/
def storeOut (out : Pointer) (name : String) (put : FfiMemory → FfiMemory) :
    Fallible (CallState W) FfiFault Unit := do
  requiredMut out name
  Fallible.modify fun s => { s with memory := put s.memory }

/-- The result of a part of the library that reads nothing. -/
def ofLibrary {α : Type} (x : Result α) : FfiResult α := x.mapError FfiFault.ofFault

/-- `rasen_archive_info`. -/
def rasenArchiveInfo (out : Pointer) : Fallible (CallState W) FfiFault Unit := do
  let archive ← requiredRef archive "archive"
  storeOut out "out" fun m => { m with outInfo := archiveInfo archive }

/-- `archive.inner.entries().get(index).ok_or_else(..)?`. -/
def entryAt (archive : Archive) (index : ℕ) : FfiResult Entry :=
  match archive.entries[index]? with
  | some entry => .ok entry
  | none => failAcross (indexOutOfRange index)

/-- `rasen_archive_entry_at`. -/
def rasenArchiveEntryAt (index : ℕ) (out : Pointer) : Fallible (CallState W) FfiFault Unit := do
  let archive ← requiredRef archive "archive"
  let entry ← RasenArchive.entryAt archive index
  storeOut out "out" fun m => { m with outEntry := ffiEntry entry }

/-- `rasen_archive_entry`. -/
def rasenArchiveEntry (path : ConstBytes) (out : Pointer) :
    Fallible (CallState W) FfiFault Unit := do
  let archive ← requiredRef archive "archive"
  let path ← path.utf8 "path"
  let entry ← ofLibrary (entry D archive path)
  storeOut out "out" fun m => { m with outEntry := ffiEntry entry }

/-- `rasen_archive_entry_by_id`. -/
def rasenArchiveEntryById (assetId : UInt64) (out : Pointer) :
    Fallible (CallState W) FfiFault Unit := do
  let archive ← requiredRef archive "archive"
  let entry ← ofLibrary (entryById archive (AssetId.fromRaw assetId))
  storeOut out "out" fun m => { m with outEntry := ffiEntry entry }

/-- `rasen_archive_contains`. -/
def rasenArchiveContains (path : ConstBytes) (outContains : Pointer) :
    Fallible (CallState W) FfiFault Unit := do
  let archive ← requiredRef archive "archive"
  let path ← path.utf8 "path"
  let found ← ofLibrary (tryContains D archive path)
  storeOut outContains "out_contains" fun m => { m with outContains := if found then 1 else 0 }

/-- `rasen_archive_contains_id`. -/
def rasenArchiveContainsId (assetId : UInt64) (outContains : Pointer) :
    Fallible (CallState W) FfiFault Unit := do
  let archive ← requiredRef archive "archive"
  let found := containsId archive (AssetId.fromRaw assetId)
  storeOut outContains "out_contains" fun m => { m with outContains := if found then 1 else 0 }

/-- `rasen_archive_verify`. -/
def rasenArchiveVerify : Fallible (CallState W) FfiFault Unit := do
  let archive ← requiredRef archive "archive"
  Fallible.focus CallState.source (fun w s => { s with source := w })
    (Fallible.mapError FfiFault.ofFault (verify D R archive))

/-- A call of one of the functions on an archive. -/
inductive ArchiveCall where
  | info (out : Pointer)
  | entryAt (index : ℕ) (out : Pointer)
  | entry (path : ConstBytes) (out : Pointer)
  | entryById (assetId : UInt64) (out : Pointer)
  | contains (path : ConstBytes) (outContains : Pointer)
  | containsId (assetId : UInt64) (outContains : Pointer)
  | verify
  | reading (call : ReadCall)

/-- The body of the function that is called. -/
def ArchiveCall.body : ArchiveCall → Fallible (CallState W) FfiFault Unit
  | .info out => rasenArchiveInfo archive out
  | .entryAt index out => rasenArchiveEntryAt archive index out
  | .entry path out => rasenArchiveEntry D archive path out
  | .entryById assetId out => rasenArchiveEntryById archive assetId out
  | .contains path outContains => rasenArchiveContains D archive path outContains
  | .containsId assetId outContains => rasenArchiveContainsId archive assetId outContains
  | .verify => rasenArchiveVerify D R archive
  | .reading call => Fallible.focus CallState.reading CallState.afterReading (call.body D R archive)

/-- The scratch space that a call is given. -/
def ReadCall.scratch : ReadCall → Pointer
  | .readIntoWithScratch _ _ scratch | .readChunkIntoWithScratch _ _ _ scratch
  | .readRangeWithScratch _ _ _ scratch _ => scratch
  | _ => .null

/-- The scratch space that a call is given. -/
def ArchiveCall.scratch : ArchiveCall → Pointer
  | .reading call => call.scratch
  | _ => .null

end Calls

/-! ## What the interface holds -/

section Sessions

variable {U : Type}

/-- `RasenArchive`: an open archive and what it reads from. -/
structure RasenHandle (U : Type) where
  inner : Archive
  source : ArchiveSource U

/-- `drop`. Only the callbacks of the caller are told. -/
def ArchiveSource.drop : ArchiveSource U → U → U
  | .callback source => source.destroy.getD id
  | _ => id

/-- What the interface holds, by number, and the state of the system and of the caller. What was
freed is `none`. -/
structure Session (U : Type) where
  user : U
  archives : List (Option (RasenHandle U))
  scratches : List (Option ArchiveScratch)

/-- What the system does for the interface. -/
structure FfiSystem (U : Type) where
  openFile : (path : String) → U → Except IoError (StdFile U) × U

/-- The session and the memory of the caller. -/
abbrev SessionState (U : Type) : Type := Session U × FfiMemory

/-- `Box::into_raw(Box::new(..))` of an open archive, into the place for it. -/
def giveArchive (handle : RasenHandle U) : Fallible (SessionState U) FfiFault Unit :=
  Fallible.modify fun s =>
    ({ s.1 with archives := s.1.archives ++ [some handle] },
      { s.2 with outArchive := some s.1.archives.length })

/-- A run that owns the source, which is dropped when the run fails. -/
def owning {α : Type} (source : ArchiveSource U) (x : Fallible (SessionState U) FfiFault α) :
    Fallible (SessionState U) FfiFault α := fun s =>
  match x s with
  | (.ok a, s) => (.ok a, s)
  | (.error f, s) => (.error f, ({ s.1 with user := source.drop s.1.user }, s.2))

/-- `open_archive`, into the place for the archive. -/
def openInto (source : ArchiveSource U) (key : Bytes) (limits : Option RasenArchiveLimits) :
    Fallible (SessionState U) FfiFault Unit := do
  let inner ← Fallible.focus (fun s => s.1.user) (fun u s => ({ s.1 with user := u }, s.2))
    (Fallible.mapError FfiFault.ofFault
      (openWithLimits D source.access key (ffiLimits limits)))
  giveArchive ⟨inner, source⟩

/-- `File::open(Path::new(path))?`. -/
def openFile (sys : FfiSystem U) (path : String) :
    Fallible (SessionState U) FfiFault (StdFile U) := fun s =>
  match sys.openFile path s.1.user with
  | (.ok file, u) => (.ok file, ({ s.1 with user := u }, s.2))
  | (.error e, u) => (.error (.failure (.ofError (.io e))), ({ s.1 with user := u }, s.2))

variable (key : ConstBytes) (limits : Option RasenArchiveLimits) (out : Pointer)

/-- `rasen_archive_open_memory`. -/
def rasenArchiveOpenMemory (data : ConstBytes) : Fallible (SessionState U) FfiFault Unit := do
  requiredMut out "out"
  let data ← data.bytes "data"
  let key ← key.bytes "key"
  owning (.memory data) (openInto D (.memory data) key limits)

/-- `rasen_archive_open_file`. -/
def rasenArchiveOpenFile (sys : FfiSystem U) (path : ConstBytes) :
    Fallible (SessionState U) FfiFault Unit := do
  requiredMut out "out"
  let path ← path.utf8 "path"
  let key ← key.bytes "key"
  let file ← openFile sys path
  owning (.file file) (openInto D (.file file) key limits)

/-- `rasen_archive_open_source`. The source is owned from the first line on. -/
def rasenArchiveOpenSource (source : RasenSource U) : Fallible (SessionState U) FfiFault Unit :=
  owning (.callback source) do
    requiredMut out "out"
    let key ← key.bytes "key"
    openInto D (.callback source) key limits

/-- `rasen_archive_free`. -/
def rasenArchiveFree (archive : Option (ℕ × RasenHandle U)) :
    Fallible (SessionState U) FfiFault Unit :=
  match archive with
  | none => pure ()
  | some (n, handle) => Fallible.modify fun s =>
    ({ s.1 with user := handle.source.drop s.1.user, archives := s.1.archives.set n none }, s.2)

/-- `rasen_scratch_new`. -/
def rasenScratchNew : Fallible (SessionState U) FfiFault Unit := do
  let n ← Fallible.gets fun s => s.1.scratches.length
  -- the space is made before its place is checked, and lost when there is none
  Fallible.modify fun s => ({ s.1 with scratches := s.1.scratches ++ [some {}] }, s.2)
  requiredMut out "out"
  Fallible.modify fun s => (s.1, { s.2 with outScratch := some n })

/-- `rasen_scratch_free`. -/
def rasenScratchFree (scratch : Option ℕ) : Fallible (SessionState U) FfiFault Unit :=
  match scratch with
  | none => pure ()
  | some n => Fallible.modify fun s => ({ s.1 with scratches := s.1.scratches.set n none }, s.2)

/-- `rasen_hash_path`. -/
def rasenHashPath (path : ConstBytes) : Fallible (SessionState U) FfiFault Unit := do
  let path ← path.utf8 "path"
  let hash ← ofLibrary (hashPath D path)
  requiredMut out "out_hash"
  Fallible.modify fun s => (s.1, { s.2 with outHash := hash })

/-- `rasen_normalize_path`. -/
def rasenNormalizePath (path : ConstBytes) : Fallible (SessionState U) FfiFault Unit := do
  requiredMut out "out"
  let path ← path.utf8 "path"
  let normalized ← ofLibrary (normalizePath path)
  Fallible.modify fun s => (s.1, { s.2 with out := intoBuffer (asBytes normalized) })

end Sessions

end RasenArchive
