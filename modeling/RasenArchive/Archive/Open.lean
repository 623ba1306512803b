import RasenArchive.Archive.Index
import RasenArchive.Archive.Source
import RasenArchive.Format.Layout
import RasenArchive.Pack.Options

/-!
# Opening an archive

`open_with_limits`: the header, the stored table of contents and the index, with every check in
between.

## Main definitions

* `Archive`: an open archive
* `openWithLimits`: the function, and its parts `checkHeader`, `checkTocRange` and `openToc`
* `WellFormed`: what an open archive satisfies

## Main results

* `openToc_eq_ok_iff`: which table of contents is opened, and as what
* `openWithLimits_wellFormed`: every open archive is well formed
* `openWithLimits_presents_iff`: which bytes are opened, and as what
* `openWithLimits_runsSafe`: opening does not panic
-/

namespace RasenArchive

/-- `Archive`, without its source. -/
structure Archive where
  entries : List Entry
  chunks : List Chunk
  index : List IndexItem
  chunkSize : UInt32
  alignment : UInt32
  pathsStripped : Bool
  protection : Protection
  aeadKey : Option Bytes
  maxChunksPerOperation : ℕ
  deriving DecidableEq

variable (D : Dependencies)

/-- The protection that the flags of a header announce. -/
def Header.protection (header : Header) : Protection :=
  if header.flags &&& headerFlagAead ≠ 0 then .aead else .xor

/-- `(protection == Protection::Aead).then(|| derive_key(key))`. -/
def aeadKeyFor (protection : Protection) (key : Bytes) : Option Bytes :=
  match protection with
  | .aead => some (deriveKey D key)
  | .xor => none

/-- The part of `open_with_limits` that reads the header from its bytes and checks it. -/
def checkHeader (limits : ArchiveLimits) (headerBytes : Bytes) : Result Header := do
  let header ← (readHeader headerBytes).1
  validateHeader header
  validateLimits header limits
  pure header

/-- The part of `open_with_limits` that locates the table of contents in the file. -/
def checkTocRange (header : Header) (fileLen : ℕ) : Result Unit := do
  let tocEnd ← okOr (checkedAdd 64 header.tocOffset.toNat header.tocSize.toNat)
    (.corrupt "TOC range overflow")
  ensure (headerSize ≤ header.tocOffset.toNat ∧ tocEnd ≤ fileLen) (.corrupt "TOC outside archive")
  ensure (header.alignment.toNat ∣ header.tocOffset.toNat) (.corrupt "TOC is not aligned")

/-- The stored table of contents without its protection. -/
def unprotectToc (aeadKey : Option Bytes) (key tocStored : Bytes) : Result Bytes :=
  match aeadKey with
  | some aeadKey => decrypt D tocStored aeadKey tocAad
  | none => xorInPlace tocStored key

/-- The limits that `decode_toc` is called with. -/
def ArchiveLimits.toc (limits : ArchiveLimits) : TocLimits :=
  ⟨limits.maxPathBytes, limits.maxTotalPathBytes, limits.maxSingleAssetBytes⟩

/-- What `validate_layout` is called with. -/
def Header.layout (header : Header) (limits : ArchiveLimits) : LayoutParams where
  tocOffset := header.tocOffset
  chunkSize := header.chunkSize
  alignment := header.alignment
  aead := decide (header.protection = .aead)
  maxTotalDecompressedBytes := limits.maxTotalDecompressedBytes

/-- The index of the entries. -/
def buildIndex (entries : List Entry) : List IndexItem :=
  D.sortUnstableByKey (indexItems entries)

/-- The part of `open_with_limits` from the stored table of contents on. -/
def openToc (limits : ArchiveLimits) (key : Bytes) (header : Header) (tocStored : Bytes) :
    Result Archive := do
  let aeadKey := aeadKeyFor D header.protection key
  let tocStored ← unprotectToc D aeadKey key tocStored
  let tocRawLen ← u64ToUsize header.tocRawSize.toNat "raw TOC size"
  -- the raw size is the one that the header says
  let tocPlain ← decompressBlockExact D tocStored tocRawLen "decompressed TOC size mismatch"
  ensure (checksum D tocPlain = header.tocHash) (.corrupt "TOC checksum mismatch")
  let (entries, chunks) ← decodeToc D tocPlain header.entryCount header.chunkCount
    header.pathsStripped limits.toc
  validateLayout (header.layout limits) entries chunks
  let index := buildIndex D entries
  validateIndex entries index header.pathsStripped
  pure { entries, chunks, index, aeadKey, chunkSize := header.chunkSize,
         alignment := header.alignment, pathsStripped := header.pathsStripped,
         protection := header.protection,
         maxChunksPerOperation := limits.maxChunksPerOperation }

variable {W : Type} (R : RandomAccessRead W)

/-- `Archive::open_with_limits`. -/
def openWithLimits (key : Bytes) (limits : ArchiveLimits) : Fallible W Fault Archive := do
  ensure (key ≠ []) .emptyXorKey
  -- no caller gets past the hard limits
  let limits := limits.clamped
  let headerBytes ← readAt R 0 headerSize
  let header ← checkHeader limits headerBytes
  let fileLen ← sourceLen R
  checkTocRange header fileLen
  let tocLen ← u64ToUsize header.tocSize.toNat "TOC size"
  let tocStored ← readAt R header.tocOffset.toNat tocLen
  openToc D limits key header tocStored

/-- `Archive::open`. -/
def openArchive (key : Bytes) : Fallible W Fault Archive :=
  openWithLimits D R key .runtimeDefault

/-! ## What the parts accept -/

/-- The header passes the checks that depend on it alone. -/
structure AcceptedHeader (limits : ArchiveLimits) (header : Header) : Prop where
  valid : validateHeader header = .ok ()
  limited : validateLimits header limits = .ok ()

/-- The archive with these records. -/
def assemble (limits : ArchiveLimits) (key : Bytes) (header : Header) (entries : List Entry)
    (chunks : List Chunk) : Archive where
  entries := entries
  chunks := chunks
  index := buildIndex D entries
  chunkSize := header.chunkSize
  alignment := header.alignment
  pathsStripped := header.pathsStripped
  protection := header.protection
  aeadKey := aeadKeyFor D header.protection key
  maxChunksPerOperation := limits.maxChunksPerOperation

section Parts

variable {D} {limits : ArchiveLimits} {header : Header} {key : Bytes}

theorem fst_readHeader_eq_ok_iff {bs : Bytes} (hlen : bs.length = headerSize) :
    (readHeader bs).1 = .ok header ↔ bs = encodeHeader header := by
  constructor
  · intro h
    have h' : readHeader bs = (.ok header, (readHeader bs).2) := by rw [← h]
    have hbs := readHeader_eq_ok_iff.mp h'
    have hl := congrArg List.length hbs
    rw [List.length_append, length_encodeHeader, hlen] at hl
    rwa [List.length_eq_zero_iff.mp (show (readHeader bs).2.length = 0 by omega),
      List.append_nil] at hbs
  · rintro rfl
    have h : readHeader (encodeHeader header) = (.ok header, []) :=
      readHeader_eq_ok_iff.mpr (List.append_nil _).symm
    rw [h]

/-- **The header is accepted** from its own bytes. -/
theorem checkHeader_eq_ok_iff {bs : Bytes} (hlen : bs.length = headerSize) :
    checkHeader limits bs = .ok header ↔
      bs = encodeHeader header ∧ AcceptedHeader limits header := by
  simp only [checkHeader, bind_eq_ok, pure_eq_ok_iff, fst_readHeader_eq_ok_iff hlen]
  constructor
  · rintro ⟨h, hbs, ⟨⟩, hv, ⟨⟩, hl, rfl⟩
    exact ⟨hbs, hv, hl⟩
  · rintro ⟨hbs, hv, hl⟩
    exact ⟨header, hbs, (), hv, (), hl, rfl⟩

theorem checkTocRange_eq_ok_iff {fileLen : ℕ} {u : Unit} :
    checkTocRange header fileLen = .ok u ↔
      header.tocOffset.toNat + header.tocSize.toNat < 2 ^ 64 ∧
        headerSize ≤ header.tocOffset.toNat ∧
        header.tocOffset.toNat + header.tocSize.toNat ≤ fileLen ∧
        header.alignment.toNat ∣ header.tocOffset.toNat := by
  simp only [checkTocRange, bind_eq_ok, okOr_eq_ok_iff, checkedAdd_eq_some_iff,
    ensure_eq_ok_iff, exists_const]
  constructor
  · rintro ⟨_, ⟨hlt, rfl⟩, ⟨hle, hend⟩, hdvd⟩
    exact ⟨hlt, hle, hend, hdvd⟩
  · rintro ⟨hlt, hle, hend, hdvd⟩
    exact ⟨_, ⟨hlt, rfl⟩, ⟨hle, hend⟩, hdvd⟩

theorem buildIndex_isIndex (entries : List Entry) : IsIndex entries (buildIndex D entries) :=
  ⟨D.sort_perm _, D.sort_sorted _⟩

/-- **Which table of contents is opened**, and as what. -/
theorem openToc_eq_ok_iff {tocStored : Bytes} {a : Archive} :
    openToc D limits key header tocStored = .ok a ↔
      ∃ block plain entries chunks,
        unprotectToc D (aeadKeyFor D header.protection key) key tocStored = .ok block ∧
        D.decompressInto block header.tocRawSize.toNat = .ok plain ∧
        plain.length = header.tocRawSize.toNat ∧
        checksum D plain = header.tocHash ∧
        decodeToc D plain header.entryCount header.chunkCount header.pathsStripped limits.toc =
          .ok (entries, chunks) ∧
        ValidLayout (header.layout limits) entries chunks ∧
        DistinctEntries entries header.pathsStripped ∧
        a = assemble D limits key header entries chunks := by
  have hlt := header.tocRawSize.toNat_lt
  simp only [openToc, bind_eq_ok, u64ToUsize_eq_ok_iff, decompressBlockExact_eq,
    decompressExact_eq_ok_iff, ensure_eq_ok_iff, exists_const, Prod.exists,
    validateLayout_eq_ok_iff, validateIndex_eq_ok_iff (buildIndex_isIndex _), pure_eq_ok_iff]
  constructor
  · rintro ⟨block, hb, _, ⟨-, rfl⟩, plain, ⟨hd, hlen⟩, hc, entries, chunks, ht, hl, hi, rfl⟩
    exact ⟨block, plain, entries, chunks, hb, hd, hlen, hc, ht, hl, hi, rfl⟩
  · rintro ⟨block, plain, entries, chunks, hb, hd, hlen, hc, ht, hl, hi, rfl⟩
    exact ⟨block, hb, _, ⟨hlt, rfl⟩, plain, ⟨hd, hlen⟩, hc, entries, chunks, ht, hl, hi, rfl⟩

/-! ## Open archives -/

/-- **An open archive is well formed**: a valid layout, an index of distinct entries, and paths
that belong to their hashes. -/
structure WellFormed (D : Dependencies) (a : Archive) : Prop where
  layout : ∃ p : LayoutParams, p.chunkSize = a.chunkSize ∧ p.alignment = a.alignment ∧
    p.aead = a.aeadKey.isSome ∧
    p.maxTotalDecompressedBytes ≤ ArchiveLimits.hardMaxTotalDecompressedBytes ∧
    ValidLayout p a.entries a.chunks
  chunkSize_pos : 0 < a.chunkSize.toNat
  chunkSize_le : a.chunkSize.toNat ≤ maxChunkSize
  chunks_lt : a.chunks.length < 2 ^ 32
  key_iff : a.aeadKey.isSome = true ↔ a.protection = .aead
  index : IsIndex a.entries a.index
  distinct : DistinctEntries a.entries a.pathsStripped
  ownPath : ∀ e ∈ a.entries, OwnPath D a.pathsStripped e

theorem isSome_aeadKeyFor (protection : Protection) :
    (aeadKeyFor D protection key).isSome = decide (protection = .aead) := by
  cases protection <;> rfl

theorem openToc_wellFormed {tocStored : Bytes} {a : Archive}
    (hheader : AcceptedHeader limits.clamped header)
    (h : openToc D limits.clamped key header tocStored = .ok a) : WellFormed D a := by
  obtain ⟨block, plain, entries, chunks, -, -, -, -, ht, hl, hi, rfl⟩ := openToc_eq_ok_iff.mp h
  obtain ⟨-, -, -, ⟨hpos, hle⟩, -⟩ := validateHeader_eq_ok_iff.mp hheader.valid
  obtain ⟨-, hcs, -, paths, hall, -, -⟩ := decodeToc_eq_ok_iff.mp ht
  refine ⟨⟨header.layout limits.clamped, rfl, rfl, ?_, ?_, hl⟩, hpos, hle, ?_, ?_,
    buildIndex_isIndex entries, hi, ?_⟩
  · exact (isSome_aeadKeyFor _).symm
  · exact min_le_right _ _
  · show chunks.length < 2 ^ 32
    rw [hcs]
    exact header.chunkCount.toNat_lt
  · show (aeadKeyFor D header.protection key).isSome = true ↔ _
    rw [isSome_aeadKeyFor, decide_eq_true_iff]
    rfl
  · intro e he
    obtain ⟨i, hi, rfl⟩ := List.mem_iff_getElem.mp he
    exact (hall.get hi (hall.length_eq ▸ hi)).ownPath

end Parts

/-! ## The whole function -/

section Open

variable {D R} {limits : ArchiveLimits} {key : Bytes} {a : Archive} {w w' : W}

/-- **What an opening consists of**, over any source. -/
theorem openWithLimits_eq_ok_iff :
    openWithLimits D R key limits w = (.ok a, w') ↔
      key ≠ [] ∧ ∃ headerBytes w₁ header fileLen w₂ tocStored,
        readAt R 0 headerSize w = (.ok headerBytes, w₁) ∧
        checkHeader limits.clamped headerBytes = .ok header ∧
        sourceLen R w₁ = (.ok fileLen, w₂) ∧ checkTocRange header fileLen = .ok () ∧
        readAt R header.tocOffset.toNat header.tocSize.toNat w₂ = (.ok tocStored, w') ∧
        openToc D limits.clamped key header tocStored = .ok a := by
  simp only [openWithLimits, Fallible.bind_eq_ok, Fallible.liftM_eq_ok, ensure_eq_ok_iff,
    u64ToUsize_eq_ok_iff]
  constructor
  · rintro ⟨-, _, ⟨hkey, rfl⟩, headerBytes, w₁, h₁, header, _, ⟨hh, rfl⟩, fileLen, w₂, h₂, ⟨⟩, _,
      ⟨hr, rfl⟩, _, _, ⟨⟨-, rfl⟩, rfl⟩, tocStored, w₃, h₃, ht, rfl⟩
    exact ⟨hkey, headerBytes, w₁, header, fileLen, w₂, tocStored, h₁, hh, h₂, hr, h₃, ht⟩
  · rintro ⟨hkey, headerBytes, w₁, header, fileLen, w₂, tocStored, h₁, hh, h₂, hr, h₃, ht⟩
    exact ⟨(), _, ⟨hkey, rfl⟩, headerBytes, w₁, h₁, header, _, ⟨hh, rfl⟩, fileLen, w₂, h₂, (), _,
      ⟨hr, rfl⟩, _, _, ⟨⟨header.tocSize.toNat_lt, rfl⟩, rfl⟩, tocStored, w', h₃, ht, rfl⟩

/-- **Every open archive is well formed**, whatever the source answered. -/
theorem openWithLimits_wellFormed (h : openWithLimits D R key limits w = (.ok a, w')) :
    WellFormed D a := by
  obtain ⟨-, headerBytes, w₁, header, fileLen, w₂, tocStored, h₁, hh, -, -, -, ht⟩ :=
    openWithLimits_eq_ok_iff.mp h
  have hlen := length_of_readAt R h₁
  exact openToc_wellFormed ((checkHeader_eq_ok_iff hlen).mp hh).2 ht

/-- **The mode of an open archive** is that of the header that the source answered with, and its key
is the one derived from the key of the opening. -/
theorem openWithLimits_key (h : openWithLimits D R key limits w = (.ok a, w')) :
    (∃ header w₁, readAt R 0 headerSize w = (.ok (encodeHeader header), w₁) ∧
      a.protection = header.protection) ∧
    (a.protection = .aead → a.aeadKey = some (deriveKey D key)) := by
  obtain ⟨-, headerBytes, w₁, header, fileLen, w₂, tocStored, h₁, hh, -, -, -, ht⟩ :=
    openWithLimits_eq_ok_iff.mp h
  obtain ⟨rfl, -⟩ := (checkHeader_eq_ok_iff (length_of_readAt R h₁)).mp hh
  obtain ⟨-, -, -, -, -, -, -, -, -, -, -, rfl⟩ := openToc_eq_ok_iff.mp ht
  refine ⟨⟨header, w₁, h₁, rfl⟩, fun haead => ?_⟩
  have hprotection : header.protection = .aead := haead
  show aeadKeyFor D header.protection key = some (deriveKey D key)
  rw [hprotection]
  rfl

/-- An opening under other limits goes through the same states of the source. -/
theorem snd_eq_of_open {limits' : ArchiveLimits} {a' : Archive} {w'' : W}
    (h : openWithLimits D R key limits w = (.ok a, w'))
    (h' : openWithLimits D R key limits' w = (.ok a', w'')) : w' = w'' := by
  obtain ⟨-, headerBytes, w₁, header, fileLen, w₂, tocStored, h₁, hh, h₂, -, h₃, -⟩ :=
    openWithLimits_eq_ok_iff.mp h
  obtain ⟨-, _, _, header', _, _, _, h₁', hh', h₂', -, h₃', -⟩ := openWithLimits_eq_ok_iff.mp h'
  cases h₁.symm.trans h₁'
  cases h₂.symm.trans h₂'
  -- both openings decode the same header
  have hlen := length_of_readAt R h₁
  obtain rfl := ((checkHeader_eq_ok_iff hlen).mp hh).1
  have hheader := (fst_readHeader_eq_ok_iff hlen).mpr ((checkHeader_eq_ok_iff hlen).mp hh').1
  rw [(fst_readHeader_eq_ok_iff hlen).mpr rfl] at hheader
  cases hheader
  cases h₃.symm.trans h₃'
  rfl

section Presents

variable {P : W → Prop} {c : Bytes} (hp : Presents R P c) (hw : P w)

include hp hw

/-- **Which bytes are opened**, and as what. -/
theorem openWithLimits_presents_iff :
    (openWithLimits D R key limits w).1 = .ok a ↔
      key ≠ [] ∧ headerSize ≤ c.length ∧ ∃ header,
        c.extract 0 headerSize = encodeHeader header ∧ AcceptedHeader limits.clamped header ∧
        checkTocRange header c.length = .ok () ∧
        openToc D limits.clamped key header (c.extract header.tocOffset.toNat
          (header.tocOffset.toNat + header.tocSize.toNat)) = .ok a := by
  constructor
  · intro h
    obtain ⟨hkey, headerBytes, w₁, header, fileLen, w₂, tocStored, h₁, hh, h₂, hr, h₃, ht⟩ :=
      openWithLimits_eq_ok_iff.mp (Prod.ext h rfl)
    obtain ⟨hle, hbytes⟩ := (readAt_presents_iff hp hw (show 0 < headerSize by decide)).mp
      (congrArg Prod.fst h₁)
    obtain ⟨w₁', hr₁, hw₁⟩ := readAt_presents hp hw hle
    cases h₁.symm.trans hr₁
    obtain ⟨w₂', hr₂, hw₂⟩ := sourceLen_presents hp hw₁
    cases h₂.symm.trans hr₂
    obtain ⟨-, -, hend, -⟩ := checkTocRange_eq_ok_iff.mp hr
    obtain ⟨w₃, hr₃, -⟩ := readAt_presents hp hw₂ hend
    rw [h₃, Prod.mk.injEq, Except.ok.injEq] at hr₃
    rw [hr₃.1] at ht
    rw [zero_add] at hle hh
    obtain ⟨hbs, ha⟩ := (checkHeader_eq_ok_iff (by rw [length_extract hle]; rfl)).mp hh
    exact ⟨hkey, hle, header, hbs, ha, hr, ht⟩
  · rintro ⟨hkey, hle, header, hbs, ha, hr, ht⟩
    obtain ⟨-, -, hend, -⟩ := checkTocRange_eq_ok_iff.mp hr
    obtain ⟨w₁, h₁, hw₁⟩ := readAt_presents hp hw (show 0 + headerSize ≤ c.length by omega)
    obtain ⟨w₂, h₂, hw₂⟩ := sourceLen_presents hp hw₁
    obtain ⟨w₃, h₃, -⟩ := readAt_presents hp hw₂ hend
    have hh : checkHeader limits.clamped (c.extract 0 (0 + headerSize)) = .ok header := by
      rw [zero_add]
      exact (checkHeader_eq_ok_iff (by rw [length_extract hle]; rfl)).mpr ⟨hbs, ha⟩
    have hopen : openWithLimits D R key limits w = (.ok a, w₃) := openWithLimits_eq_ok_iff.mpr
      ⟨hkey, _, w₁, header, c.length, w₂, _, h₁, hh, h₂, hr, h₃, ht⟩
    rw [hopen]

/-- An archive that opens leaves its source in a state in `P`. -/
theorem state_of_open (h : openWithLimits D R key limits w = (.ok a, w')) : P w' := by
  obtain ⟨-, headerBytes, w₁, header, fileLen, w₂, tocStored, h₁, hh, h₂, hr, h₃, -⟩ :=
    openWithLimits_eq_ok_iff.mp h
  obtain ⟨hle, -⟩ := (readAt_presents_iff hp hw (show 0 < headerSize by decide)).mp
    (congrArg Prod.fst h₁)
  obtain ⟨w₁', hr₁, hw₁⟩ := readAt_presents hp hw hle
  cases h₁.symm.trans hr₁
  obtain ⟨w₂', hr₂, hw₂⟩ := sourceLen_presents hp hw₁
  cases h₂.symm.trans hr₂
  obtain ⟨-, -, hend, -⟩ := checkTocRange_eq_ok_iff.mp hr
  obtain ⟨w₃, hr₃, hw₃⟩ := readAt_presents hp hw₂ hend
  cases h₃.symm.trans hr₃
  exact hw₃

/-- **An opening comes to the same** from every state in `P`. -/
theorem openWithLimits_settles (h : (openWithLimits D R key limits w).1 = .ok a) :
    Fallible.Settles P (openWithLimits D R key limits) (.ok a) := by
  intro v hv
  have hopen := (openWithLimits_presents_iff hp hv).mpr ((openWithLimits_presents_iff hp hw).mp h)
  have hrun : openWithLimits D R key limits v = (.ok a, (openWithLimits D R key limits v).2) :=
    Prod.ext hopen rfl
  exact ⟨_, hrun, state_of_open hp hv hrun⟩

end Presents

/-! ## Absence of panics -/

theorem readExact_runsSafe (n : ℕ) : RunsSafe (readExact n) :=
  (RunsSafe.gets _).bind fun _ => (RunsSafe.liftM (safe_ensure _)).bind fun _ =>
    (RunsSafe.modify _).bind fun _ => .pure _

theorem readHeader_runsSafe : RunsSafe readHeader := by
  have h16 : RunsSafe readU16 := (readExact_runsSafe 2).bind fun _ => .pure _
  have h32 : RunsSafe readU32 := (readExact_runsSafe 4).bind fun _ => .pure _
  have h64 : RunsSafe readU64 := (readExact_runsSafe 8).bind fun _ => .pure _
  exact (readExact_runsSafe 4).bind fun _ => (RunsSafe.liftM (safe_ensure _)).bind fun _ =>
    h16.bind fun _ => h16.bind fun _ => h32.bind fun _ => h32.bind fun _ => h32.bind fun _ =>
    h32.bind fun _ => h32.bind fun _ => h64.bind fun _ => h64.bind fun _ => h64.bind fun _ =>
    h64.bind fun _ => .pure _

theorem validateHeader_safe (header : Header) : Safe (validateHeader header) := by
  have hc : Safe (validateChunkSize header.chunkSize.toNat) := by
    unfold validateChunkSize
    split_ifs <;> simp
  have ha : Safe (validateAlignment header.alignment) := by
    unfold validateAlignment
    split_ifs <;> simp
  exact (safe_ensure _).bind fun _ _ => (safe_ensure _).bind fun _ _ =>
    (safe_ensure _).bind fun _ _ => hc.bind fun _ _ => ha.bind fun _ _ =>
    (safe_ensure _).bind fun _ _ => safe_ensure _

theorem decrypt_safe (stored key aad : Bytes) : Safe (decrypt D stored key aad) := by
  intro p h
  rcases decrypt_eq D stored key aad with ⟨plain, he⟩ | ⟨what, he⟩ <;> rw [he] at h <;> cases h

theorem decompressExact_safe (data : Bytes) (n : ℕ) (mismatch : String) :
    Safe (decompressExact D data n mismatch) := by
  intro p h
  rcases decompressExact_error D h with ⟨message, he⟩ | he <;> cases he

theorem unprotectToc_safe (aeadKey : Option Bytes) (hkey : key ≠ []) (tocStored : Bytes) :
    Safe (unprotectToc D aeadKey key tocStored) := by
  cases aeadKey with
  | some k => exact decrypt_safe _ _ _
  | none =>
    rw [unprotectToc, xorInPlace_eq _ hkey]
    exact safe_ok _

theorem openToc_safe (hkey : key ≠ []) (header : Header) (tocStored : Bytes) :
    Safe (openToc D limits key header tocStored) :=
  (unprotectToc_safe _ hkey _).bind fun _ _ => (safe_u64ToUsize _ _).bind fun _ _ => by
    rw [decompressBlockExact_eq]
    exact (decompressExact_safe _ _ _).bind fun _ _ => (safe_ensure _).bind fun _ _ =>
      (decodeToc_safe _ _ _).bind fun _ _ => (validateLayout_safe _ _).bind fun _ _ =>
      (validateIndex_safe (buildIndex_isIndex _)).bind fun _ _ => safe_pure _

/-- **Opening does not panic**, whatever the source, the key and the limits. -/
theorem openWithLimits_runsSafe : RunsSafe (openWithLimits D R key limits) := by
  by_cases hkey : key = []
  · intro w p h
    simp [openWithLimits, Fallible.bind_apply, ensure, hkey, failWith] at h
  · refine (RunsSafe.liftM (safe_ensure _)).bind fun _ => (readAt_runsSafe R _ _).bind fun bs =>
      (RunsSafe.liftM ?_).bind fun _ => (sourceLen_runsSafe R).bind fun _ =>
      (RunsSafe.liftM ?_).bind fun _ => (RunsSafe.liftM (safe_u64ToUsize _ _)).bind fun _ =>
      (readAt_runsSafe R _ _).bind fun _ => RunsSafe.liftM (openToc_safe hkey _ _)
    · exact Safe.bind (readHeader_runsSafe bs) fun _ _ => (validateHeader_safe _).bind fun _ _ =>
        (validateLimits_safe _ _).bind fun _ _ => safe_pure _
    · exact (safe_okOr _).bind fun _ _ => (safe_ensure _).bind fun _ _ => safe_ensure _

end Open

end RasenArchive
