import RasenArchive.Crypto
import RasenArchive.Format.Toc
import RasenArchive.Pack.Destination
import RasenArchive.Pack.Options
import RasenArchive.Pack.Reader

/-!
# The packer

`Packer`: assets are read chunk by chunk and stored as they come, with their records kept in
memory; `finish` appends the table of contents and writes the header over the zeroes that hold its
place.

## Main definitions

* `Packer`, `PackState`: the packer, and the packer beside what it works on
* `newPacker`, `addReader`, `finish`: its functions
* `packReaders`: a run from the first to the last of them, as `pack_with_options` makes it
-/

namespace RasenArchive

/-- `Packer`, without its writer. -/
structure Packer where
  key : Bytes
  aeadKey : Option Bytes
  options : PackOptions
  entries : List TocEntry
  chunks : List Chunk
  seenHashes : Finset UInt64
  raw : Bytes
  compressed : Bytes
  offset : ℕ
  failed : Bool
  deriving DecidableEq

structure PackSummary where
  archiveLen : ℕ
  entryCount : UInt32
  chunkCount : UInt32
  deriving DecidableEq

/-- A packer with its writer, the random source, and the reader of the asset that is being
added. -/
structure PackState (W : Type) where
  packer : Packer
  writer : W
  entropy : Entropy
  reader : List ReadEvent

variable {W : Type}

/-- A computation on the writer. -/
def onWriter {α : Type} (x : Fallible W Fault α) : Fallible (PackState W) Fault α :=
  Fallible.focus (fun s => s.writer) (fun w s => { s with writer := w }) x

/-- A computation on the random source. -/
def onEntropy {α : Type} (x : Fallible Entropy Fault α) : Fallible (PackState W) Fault α :=
  Fallible.focus (fun s => s.entropy) (fun e s => { s with entropy := e }) x

/-- A computation on the buffer of raw bytes and the reader. -/
def onReader {α : Type} (x : Fallible (Bytes × List ReadEvent) Fault α) :
    Fallible (PackState W) Fault α :=
  Fallible.focus (fun s => (s.packer.raw, s.reader))
    (fun r s => { s with packer := { s.packer with raw := r.1 }, reader := r.2 }) x

variable (D : Dependencies) (R : Destination W)

/-- `Packer::new`. -/
def newPacker (key : Bytes) (options : PackOptions) : Fallible W Fault Packer := do
  ensure (key ≠ []) .emptyXorKey
  let options ← options.validate
  -- the key of the archive, which XOR does without
  let aeadKey := if options.protection = .aead then some (deriveKey D key) else none
  let len ← seekTo R (.fromEnd 0)
  ensure (len = 0) .nonEmptyDestination
  let _ ← seekTo R (.start 0)
  writeAll R (List.replicate headerSize 0)
  pure { key, aeadKey, options, entries := [], chunks := [], seenHashes := ∅,
         raw := List.replicate options.chunkSize 0,
         compressed := List.replicate (D.getMaximumOutputSize options.chunkSize) 0,
         offset := headerSize, failed := false }

/-! ## Padding -/

/-- The length of `ZEROES`. -/
def zeroesLen : ℕ := 4096

/-- The loop of `align`, with the number of turns left. -/
def writeZeroes : ℕ → ℕ → Fallible W Fault Unit
  | 0, _ => pure ()
  | turns + 1, remaining =>
    -- a turn writes no more than the constant holds
    if remaining ≠ 0 then do
      let amount := min remaining zeroesLen
      writeAll R (List.replicate amount 0)
      let remaining ← okOr (checkedSub remaining amount) (.tooLarge "padding")
      writeZeroes turns remaining
    else
      pure ()

/-- `Packer::align`. -/
def align : Fallible (PackState W) Fault Unit := do
  let s ← Fallible.gets id
  let aligned ← alignUp s.packer.offset s.packer.options.alignment.toNat
  let remaining ← sub aligned s.packer.offset
  onWriter (writeZeroes R remaining remaining)
  Fallible.modify fun s => { s with packer := { s.packer with offset := aligned } }

/-! ## Adding an asset -/

/-- The bytes of the source that are compressed or stored. -/
def rawInput (p : Packer) (rawLen : ℕ) : Result Bytes := slice p.raw 0 rawLen

/-- `compress_into(&self.raw[..raw_len], &mut self.compressed)`. -/
def compressRaw (rawLen : ℕ) : Fallible (PackState W) Fault ℕ := do
  let s ← Fallible.gets id
  let input ← rawInput s.packer rawLen
  match D.compressInto input s.packer.compressed.length with
  | .error message => failWith (.lz4 message)
  | .ok block =>
    Fallible.modify fun s =>
      { s with packer := { s.packer with compressed := overwrite s.packer.compressed 0 block } }
    pure block.length

/-- `(plain_stored, is_compressed)`. -/
def plainStored (p : Packer) (rawLen compressedLen : ℕ) : Result (Bytes × Bool) := do
  -- a block that LZ4 does not shorten is stored as it is
  if compressedLen < rawLen then
    let stored ← slice p.compressed 0 compressedLen
    pure (stored, true)
  else
    let stored ← rawInput p rawLen
    pure (stored, false)

/-- The stored form of a plain block: encrypted under the key of the packer, where it has one. -/
def protect (aeadKey : Option Bytes) (plain aad : Bytes) : Fallible (PackState W) Fault Bytes :=
  match aeadKey with
  | some key => onEntropy (encrypt D plain key aad)
  | none => pure plain

/-- The sizes of the asset so far, as `add_reader_inner` adds them up. -/
structure Totals where
  original : ℕ
  stored : ℕ
  deriving DecidableEq

/-- The part of a turn of the loop of `add_reader_inner` that follows the write: the offset, the
totals and the record of the chunk. -/
def recordChunk (chunkOffset : ℕ) (rawLen storedLen : ℕ) (chunkChecksum : UInt64)
    (isCompressed : Bool) (totals : Totals) : Fallible (PackState W) Fault Totals := do
  let s ← Fallible.gets id
  let storedSize ← usizeToU64 storedLen "stored chunk size"
  let offset ← okOr (checkedAdd 64 s.packer.offset storedSize) (.tooLarge "archive offset")
  -- the offset is moved before the totals are added up
  Fallible.modify fun s => { s with packer := { s.packer with offset := offset } }
  let originalSize ← usizeToU64 rawLen "original chunk size"
  let original ← okOr (checkedAdd 64 totals.original originalSize)
    (.tooLarge "entry original size")
  let stored ← okOr (checkedAdd 64 totals.stored storedSize) (.tooLarge "entry stored size")
  let chunk : Chunk := ⟨UInt64.ofNat chunkOffset, UInt64.ofNat storedSize,
    UInt64.ofNat originalSize, chunkChecksum, isCompressed⟩
  Fallible.modify fun s => { s with packer := { s.packer with chunks := s.packer.chunks ++ [chunk] } }
  let s ← Fallible.gets id
  let _ ← usizeToU32 s.packer.chunks.length "chunk count"
  pure ⟨original, stored⟩

/-- One turn of the loop of `add_reader_inner`, for `rawLen` bytes in the buffer. -/
def addChunk (rawLen : ℕ) (totals : Totals) : Fallible (PackState W) Fault Totals := do
  let compressedLen ← compressRaw D rawLen
  align R
  let s ← Fallible.gets id
  let (plain, isCompressed) ← plainStored s.packer rawLen compressedLen
  let input ← rawInput s.packer rawLen
  let globalChunk ← usizeToU32 s.packer.chunks.length "chunk index"
  let stored ← protect D s.packer.aeadKey plain (chunkAad globalChunk)
  onWriter (writeAll R stored)
  recordChunk s.packer.offset rawLen stored.length (checksum D input) isCompressed totals

/-- The loop of `add_reader_inner`, with a bound on the number of turns left. -/
def addChunks : ℕ → Totals → Fallible (PackState W) Fault Totals
  | 0, totals => pure totals
  | turns + 1, totals => do
    let rawLen ← onReader Pack.readChunk
    if rawLen = 0 then
      pure totals
    else do
      let totals ← addChunk D R rawLen totals
      addChunks turns totals

/-- The part of `add_reader_inner` that looks for an asset with the same path or hash. -/
def checkSeen (normalizedPath : String) (pathHash : UInt64) : Fallible (PackState W) Fault Unit := do
  let s ← Fallible.gets id
  -- the source makes this comparison only behind a hash that was seen
  let duplicate := s.packer.entries.any fun entry =>
    decide (entry.pathHash = pathHash) && decide (entry.path = normalizedPath)
  Fallible.modify fun s =>
    { s with packer := { s.packer with seenHashes := insert pathHash s.packer.seenHashes } }
  if pathHash ∈ s.packer.seenHashes then do
    ensure (duplicate = false) (.duplicatePath normalizedPath)
    -- a debug archive takes other paths with the same hash
    ensure (s.packer.options.mode.stripsPaths = false) (.hashCollision pathHash)
  else
    pure ()

/-- `Packer::add_reader_inner`, for the reader in the state. -/
def addReaderInner (path : String) : Fallible (PackState W) Fault Unit := do
  let normalizedPath ← normalizePath path
  let pathHash := checksum D (asBytes normalizedPath)
  checkSeen normalizedPath pathHash
  let s ← Fallible.gets id
  let firstChunkIndex := s.packer.chunks.length
  let firstChunk ← usizeToU32 firstChunkIndex "chunk index"
  -- every turn but the last takes something from the reader
  let totals ← addChunks D R (readerSize s.reader + 1) ⟨0, 0⟩
  let s ← Fallible.gets id
  let count ← okOr (checkedSub s.packer.chunks.length firstChunkIndex)
    (.tooLarge "entry chunk count")
  let chunkCount ← usizeToU32 count "entry chunk count"
  let entry : TocEntry := ⟨normalizedPath, pathHash, UInt64.ofNat totals.original,
    UInt64.ofNat totals.stored, UInt32.ofNat firstChunk, UInt32.ofNat chunkCount⟩
  Fallible.modify fun s =>
    { s with packer := { s.packer with entries := s.packer.entries ++ [entry] } }
  let s ← Fallible.gets id
  let _ ← usizeToU32 s.packer.entries.length "entry count"
  pure ()

/-- A computation that leaves a mark on the packer when it fails. -/
def marking (x : Fallible (PackState W) Fault Unit) : Fallible (PackState W) Fault Unit := fun s =>
  match x s with
  | (.ok (), s') => (.ok (), s')
  -- from now on every call answers `IncompletePack`
  | (.error f, s') => (.error f, { s' with packer := { s'.packer with failed := true } })

/-- `Packer::add_reader`. -/
def addReader (path : String) (reader : List ReadEvent) : Fallible (PackState W) Fault Unit := do
  let s ← Fallible.gets id
  ensure (s.packer.failed = false) .incompletePack
  Fallible.modify fun s => { s with reader := reader }
  marking (addReaderInner D R path)

/-! ## Finishing -/

/-- The flags of the header. -/
def headerFlags (options : PackOptions) : UInt16 :=
  requiredHeaderFlags ||| (match options.protection with
    | .xor => headerFlagTocXor
    | .aead => headerFlagAead) |||
    (headerFlagPathsStripped * if options.mode.stripsPaths then 1 else 0)

/-- `write_header`. -/
def writeHeader (header : Header) : Fallible W Fault Unit :=
  (headerFields header).forM fun field => writeAll R field

/-- The protection of the stored table of contents. -/
def protectToc (p : Packer) (block : Bytes) : Fallible (PackState W) Fault Bytes :=
  match p.aeadKey with
  | some key => onEntropy (encrypt D block key tocAad)
  | none => liftM (xorInPlace block p.key)

/-- The part of `finish` that makes the stored table of contents, with the length and the hash of
the raw one. -/
def storeToc (p : Packer) : Fallible (PackState W) Fault (Bytes × ℕ × UInt64) := do
  -- a production archive lists no paths
  let entries := if p.options.mode.stripsPaths then p.entries.map fun e => { e with path := "" }
    else p.entries
  let tocPlain ← encodeToc entries p.chunks
  let tocRawSize ← usizeToU64 tocPlain.length "raw TOC size"
  ensure (tocRawSize ≤ maxTocRawSize) (.tooLarge "raw TOC")
  match D.compressInto tocPlain (D.getMaximumOutputSize tocPlain.length) with
  | .error message => failWith (.lz4 message)
  | .ok block =>
    let tocStored ← protectToc D p block
    let tocSize ← usizeToU64 tocStored.length "stored TOC size"
    ensure (tocSize ≤ maxTocStoredSize) (.tooLarge "stored TOC")
    pure (tocStored, tocRawSize, checksum D tocPlain)

/-- The part of `finish` that fills in the header. -/
def finishHeader (p : Packer) (tocOffset tocSize tocRawSize : ℕ) (tocHash : UInt64) :
    Result Header := do
  let chunkSize ← usizeToU32 p.options.chunkSize "chunk size"
  let entryCount ← usizeToU32 p.entries.length "entry count"
  let chunkCount ← usizeToU32 p.chunks.length "chunk count"
  pure { version := version, flags := headerFlags p.options,
         headerSize := UInt32.ofNat headerSize, alignment := p.options.alignment,
         chunkSize := UInt32.ofNat chunkSize, entryCount := UInt32.ofNat entryCount,
         chunkCount := UInt32.ofNat chunkCount, tocOffset := UInt64.ofNat tocOffset,
         tocSize := UInt64.ofNat tocSize, tocRawSize := UInt64.ofNat tocRawSize,
         tocHash := tocHash }

/-- `Packer::finish`. -/
def finish : Fallible (PackState W) Fault PackSummary := do
  let s ← Fallible.gets id
  ensure (s.packer.failed = false) .incompletePack
  align R
  let s ← Fallible.gets id
  let tocOffset := s.packer.offset
  let (tocStored, tocRawSize, tocHash) ← storeToc D s.packer
  onWriter (writeAll R tocStored)
  let archiveLen ← okOr (checkedAdd 64 tocOffset tocStored.length) (.tooLarge "archive length")
  Fallible.modify fun s => { s with packer := { s.packer with offset := archiveLen } }
  let header ← finishHeader s.packer tocOffset tocStored.length tocRawSize tocHash
  -- only now the header replaces the zeroes
  let _ ← onWriter (seekTo R (.start 0))
  onWriter (writeHeader R header)
  let _ ← onWriter (seekTo R (.start archiveLen))
  pure ⟨archiveLen, header.entryCount, header.chunkCount⟩

/-! ## Runs -/

/-- An asset to add: the path and the reader of its bytes. -/
structure Input where
  path : String
  reader : List ReadEvent
  deriving DecidableEq

/-- One call of `add_reader` after the other, up to the first that fails. -/
def addReaders : List Input → Fallible (PackState W) Fault Unit
  | [] => pure ()
  | input :: inputs => do
    addReader D R input.path input.reader
    addReaders inputs

/-- What a run has besides the packer. -/
structure PackEnv (W : Type) where
  writer : W
  entropy : Entropy

/-- The call of `Packer::new` of a run, which leaves the packer beside its environment. -/
def startPacker (key : Bytes) (options : PackOptions) :
    Fallible (PackEnv W) Fault Packer :=
  Fallible.focus (fun s => s.writer) (fun w s => { s with writer := w }) (newPacker D R key options)

/-- A run with a packer: the calls `x` on a fresh packer. -/
def withPacker {α : Type} (key : Bytes) (options : PackOptions)
    (x : Fallible (PackState W) Fault α) : Fallible (PackEnv W) Fault α := do
  let packer ← startPacker D R key options
  fun env =>
    let r := x ⟨packer, env.writer, env.entropy, []⟩
    (r.1, ⟨r.2.writer, r.2.entropy⟩)

/-- `pack_with_options`, for readers of any kind. -/
def packReaders (key : Bytes) (options : PackOptions) (inputs : List Input) :
    Fallible (PackEnv W) Fault PackSummary :=
  withPacker D R key options do
    addReaders D R inputs
    finish D R

end RasenArchive
