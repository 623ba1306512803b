import RasenArchive.Format.Header
import RasenArchive.Path

/-!
# The limits of a reader

`ArchiveLimits` and the checks that hold the header against them. The hard limits bound whatever
the caller asks for.

## Main definitions

* `ArchiveLimits`, `ArchiveLimits.clamped`: the limits of a caller, and what is left of them
* `permissiveV1`: the largest limits of the format
* `validateLimits`, `estimatedMetadataBytes`: the checks on a header

## Main results

* `validateLimits_eq_ok_iff`: what the checks accept
* `metadataEstimate_le`: the estimate never binds under the hard limits
-/

namespace RasenArchive

/-- The limits of a caller. -/
structure ArchiveLimits where
  maxTocStoredBytes : ℕ
  maxTocRawBytes : ℕ
  maxEntries : ℕ
  maxChunks : ℕ
  maxChunksPerOperation : ℕ
  maxPathBytes : ℕ
  maxTotalPathBytes : ℕ
  maxTotalDecompressedBytes : ℕ
  maxSingleAssetBytes : ℕ
  maxMetadataBytes : ℕ
  deriving DecidableEq, Repr

namespace ArchiveLimits

def hardMaxTocStoredBytes : ℕ := maxTocStoredSize

def hardMaxTocRawBytes : ℕ := maxTocRawSize

def hardMaxEntries : ℕ := 1000000

def hardMaxChunks : ℕ := 8000000

def hardMaxChunksPerOperation : ℕ := hardMaxChunks

def hardMaxPathBytes : ℕ := maxPathLen

def hardMaxTotalPathBytes : ℕ := 64 * 1024 * 1024

def hardMaxTotalDecompressedBytes : ℕ := 8 * 1024 * 1024 * 1024

def hardMaxSingleAssetBytes : ℕ := hardMaxTotalDecompressedBytes

def hardMaxMetadataBytes : ℕ := 2 * 1024 * 1024 * 1024

def hardMaxIdentifierBucketEntries : ℕ := 64

/-- `ArchiveLimits::runtime_default`. -/
def runtimeDefault : ArchiveLimits where
  maxTocStoredBytes := 64 * 1024 * 1024
  maxTocRawBytes := 128 * 1024 * 1024
  maxEntries := 100000
  maxChunks := 500000
  maxChunksPerOperation := 65536
  maxPathBytes := hardMaxPathBytes
  maxTotalPathBytes := 64 * 1024 * 1024
  maxTotalDecompressedBytes := 4 * 1024 * 1024 * 1024
  maxSingleAssetBytes := 512 * 1024 * 1024
  maxMetadataBytes := 512 * 1024 * 1024

/-- `ArchiveLimits::tooling_default`. -/
def toolingDefault : ArchiveLimits where
  maxTocStoredBytes := hardMaxTocStoredBytes
  maxTocRawBytes := hardMaxTocRawBytes
  maxEntries := hardMaxEntries
  maxChunks := hardMaxChunks
  maxChunksPerOperation := hardMaxChunksPerOperation
  maxPathBytes := hardMaxPathBytes
  maxTotalPathBytes := hardMaxTotalPathBytes
  maxTotalDecompressedBytes := hardMaxTotalDecompressedBytes
  maxSingleAssetBytes := hardMaxSingleAssetBytes
  maxMetadataBytes := hardMaxMetadataBytes

/-- `ArchiveLimits::permissive_v1`. -/
def permissiveV1 : ArchiveLimits := toolingDefault

/-- `ArchiveLimits::clamped`. -/
def clamped (limits : ArchiveLimits) : ArchiveLimits where
  maxTocStoredBytes := min limits.maxTocStoredBytes hardMaxTocStoredBytes
  maxTocRawBytes := min limits.maxTocRawBytes hardMaxTocRawBytes
  maxEntries := min limits.maxEntries hardMaxEntries
  maxChunks := min limits.maxChunks hardMaxChunks
  maxChunksPerOperation := min limits.maxChunksPerOperation hardMaxChunksPerOperation
  maxPathBytes := min limits.maxPathBytes hardMaxPathBytes
  maxTotalPathBytes := min limits.maxTotalPathBytes hardMaxTotalPathBytes
  maxTotalDecompressedBytes := min limits.maxTotalDecompressedBytes hardMaxTotalDecompressedBytes
  maxSingleAssetBytes := min limits.maxSingleAssetBytes hardMaxSingleAssetBytes
  maxMetadataBytes := min limits.maxMetadataBytes hardMaxMetadataBytes

/-- Clamping leaves the largest limits as they are. -/
theorem clamped_permissiveV1 : permissiveV1.clamped = permissiveV1 := by decide

/-- Clamping is idempotent. -/
theorem clamped_clamped (limits : ArchiveLimits) : limits.clamped.clamped = limits.clamped := by
  simp [clamped]

end ArchiveLimits

/-- `std::mem::size_of::<TocEntry>()`. -/
def sizeOfTocEntry : ℕ := 56

/-- `std::mem::size_of::<Entry>()`. -/
def sizeOfEntry : ℕ := 56

/-- `std::mem::size_of::<(AssetId, usize)>()`. -/
def sizeOfIndexItem : ℕ := 16

/-- `std::mem::size_of::<Chunk>()`. -/
def sizeOfChunk : ℕ := 40

/-- `std::mem::size_of::<bool>()`. -/
def sizeOfBool : ℕ := 1

/-- `estimated_metadata_bytes`. -/
def estimatedMetadataBytes (header : Header) : Result ℕ := do
  let entryBytes ← okOr (((checkedAdd 64 sizeOfTocEntry sizeOfEntry).bind
    fun value => checkedAdd 64 value sizeOfIndexItem).bind (tryFrom 64)) .metadataLimitExceeded
  let chunkBytes ← okOr ((checkedAdd 64 sizeOfChunk sizeOfBool).bind (tryFrom 64))
    .metadataLimitExceeded
  okOr ((((checkedAdd 64 header.tocSize.toNat header.tocRawSize.toNat).bind
    fun value => checkedAdd 64 value header.tocRawSize.toNat).bind
    fun value => (checkedMul 64 header.entryCount.toNat entryBytes).bind
      fun entries => checkedAdd 64 value entries).bind
    fun value => (checkedMul 64 header.chunkCount.toNat chunkBytes).bind
      fun chunks => checkedAdd 64 value chunks) .metadataLimitExceeded

/-- The flag `HEADER_FLAG_PATHS_STRIPPED` is set. -/
def Header.pathsStripped (header : Header) : Bool :=
  decide (header.flags &&& headerFlagPathsStripped ≠ 0)

/-- The least size of a raw table with the counts of the header, as `validate_limits` adds it
up. -/
def minRawSize (header : Header) : Result ℕ := do
  let minimum ← okOr ((((checkedMul 64 header.entryCount.toNat tocEntryFixedSize).bind
    fun value => (checkedMul 64 header.chunkCount.toNat tocChunkFixedSize).bind
      fun chunks => checkedAdd 64 value chunks).bind
    fun value => checkedAdd 64 value 4)) (.tooLarge "TOC record counts")
  if header.pathsStripped then
    pure minimum
  else
    okOr (checkedAdd 64 minimum header.entryCount.toNat) (.tooLarge "TOC record counts")

/-- `validate_limits`. -/
def validateLimits (header : Header) (limits : ArchiveLimits) : Result Unit := do
  ensure (header.tocSize.toNat ≤ limits.maxTocStoredBytes) (.tooLarge "stored TOC limit")
  ensure (header.tocRawSize.toNat ≤ limits.maxTocRawBytes) (.tooLarge "raw TOC limit")
  ensure (header.entryCount.toNat ≤ limits.maxEntries) .tooManyEntries
  ensure (header.chunkCount.toNat ≤ limits.maxChunks) .tooManyChunks
  ensure (header.pathsStripped = true ∨ header.entryCount.toNat ≤ limits.maxTotalPathBytes)
    .metadataLimitExceeded
  let minimum ← minRawSize header
  ensure (minimum ≤ header.tocRawSize.toNat) (.corrupt "TOC counts exceed raw TOC size")
  let estimate ← estimatedMetadataBytes header
  ensure (estimate ≤ limits.maxMetadataBytes) .metadataLimitExceeded

/-- The estimate, without its overflow checks. -/
def metadataEstimate (header : Header) : ℕ :=
  header.tocSize.toNat + 2 * header.tocRawSize.toNat + 128 * header.entryCount.toNat +
    41 * header.chunkCount.toNat

/-- The least raw size, without its overflow checks. -/
def leastRawSize (header : Header) : ℕ :=
  4 + tocEntryFixedSize * header.entryCount.toNat + tocChunkFixedSize * header.chunkCount.toNat +
    if header.pathsStripped then 0 else header.entryCount.toNat

section

variable {header : Header} {n : ℕ}

theorem minRawSize_eq_ok_iff : minRawSize header = .ok n ↔ n = leastRawSize header := by
  have h₁ := header.entryCount.toNat_lt
  have h₂ := header.chunkCount.toNat_lt
  simp only [minRawSize, leastRawSize, bind_eq_ok, okOr_eq_ok_iff, Option.bind_eq_some_iff,
    checkedMul_eq_some_iff, checkedAdd_eq_some_iff, tocEntryFixedSize, tocChunkFixedSize]
  constructor
  · rintro ⟨_, ⟨_, ⟨_, ⟨-, rfl⟩, _, ⟨-, rfl⟩, -, rfl⟩, -, rfl⟩, h⟩
    cases hs : header.pathsStripped with
    | true =>
      simp only [hs, if_true, pure_eq_ok_iff] at h ⊢
      omega
    | false =>
      simp only [hs, Bool.false_eq_true, if_false, okOr_eq_ok_iff, checkedAdd_eq_some_iff]
        at h ⊢
      omega
  · intro h
    refine ⟨_, ⟨_, ⟨_, ⟨by omega, rfl⟩, _, ⟨by omega, rfl⟩, by omega, rfl⟩, by omega, rfl⟩, ?_⟩
    cases hs : header.pathsStripped with
    | true =>
      simp only [hs, if_true, pure_eq_ok_iff] at h ⊢
      omega
    | false =>
      simp only [hs, Bool.false_eq_true, if_false, okOr_eq_ok_iff, checkedAdd_eq_some_iff]
        at h ⊢
      omega

theorem estimatedMetadataBytes_eq_ok_iff :
    estimatedMetadataBytes header = .ok n ↔
      metadataEstimate header < 2 ^ 64 ∧ n = metadataEstimate header := by
  have h₁ := header.entryCount.toNat_lt
  have h₂ := header.chunkCount.toNat_lt
  simp only [estimatedMetadataBytes, metadataEstimate, bind_eq_ok, okOr_eq_ok_iff,
    Option.bind_eq_some_iff, checkedMul_eq_some_iff, checkedAdd_eq_some_iff, tryFrom_eq_some_iff,
    sizeOfTocEntry, sizeOfEntry, sizeOfIndexItem, sizeOfChunk, sizeOfBool]
  constructor
  · rintro ⟨_, ⟨_, ⟨_, ⟨-, rfl⟩, -, rfl⟩, -, rfl⟩, _, ⟨_, ⟨-, rfl⟩, -, rfl⟩, _,
      ⟨_, ⟨_, ⟨-, rfl⟩, -, rfl⟩, _, ⟨-, rfl⟩, -, rfl⟩, _, ⟨-, rfl⟩, hlt, rfl⟩
    omega
  · rintro ⟨hlt, rfl⟩
    exact ⟨_, ⟨_, ⟨_, ⟨by omega, rfl⟩, by omega, rfl⟩, by omega, rfl⟩, _,
      ⟨_, ⟨by omega, rfl⟩, by omega, rfl⟩, _, ⟨_, ⟨_, ⟨by omega, rfl⟩, by omega, rfl⟩, _,
      ⟨by omega, rfl⟩, by omega, rfl⟩, _, ⟨by omega, rfl⟩, by omega, by omega⟩

/-- **What the checks of the limits accept.** -/
theorem validateLimits_eq_ok_iff {limits : ArchiveLimits} {u : Unit} :
    validateLimits header limits = .ok u ↔
      header.tocSize.toNat ≤ limits.maxTocStoredBytes ∧
      header.tocRawSize.toNat ≤ limits.maxTocRawBytes ∧
      header.entryCount.toNat ≤ limits.maxEntries ∧
      header.chunkCount.toNat ≤ limits.maxChunks ∧
      (header.pathsStripped = true ∨ header.entryCount.toNat ≤ limits.maxTotalPathBytes) ∧
      leastRawSize header ≤ header.tocRawSize.toNat ∧
      metadataEstimate header < 2 ^ 64 ∧ metadataEstimate header ≤ limits.maxMetadataBytes := by
  simp only [validateLimits, bind_eq_ok, ensure_eq_ok_iff, exists_const, minRawSize_eq_ok_iff,
    estimatedMetadataBytes_eq_ok_iff, exists_eq_left, and_assoc, exists_and_left]

/-- **The estimate never binds** under the hard limits. -/
theorem metadataEstimate_le (h₁ : header.tocSize.toNat ≤ ArchiveLimits.hardMaxTocStoredBytes)
    (h₂ : header.tocRawSize.toNat ≤ ArchiveLimits.hardMaxTocRawBytes)
    (h₃ : header.entryCount.toNat ≤ ArchiveLimits.hardMaxEntries)
    (h₄ : header.chunkCount.toNat ≤ ArchiveLimits.hardMaxChunks) :
    metadataEstimate header ≤ ArchiveLimits.hardMaxMetadataBytes := by
  simp only [ArchiveLimits.hardMaxTocStoredBytes, ArchiveLimits.hardMaxTocRawBytes,
    ArchiveLimits.hardMaxEntries, ArchiveLimits.hardMaxChunks, ArchiveLimits.hardMaxMetadataBytes,
    maxTocStoredSize, maxTocRawSize, metadataEstimate] at *
  omega

theorem validateLimits_safe (header : Header) (limits : ArchiveLimits) :
    Safe (validateLimits header limits) := by
  have hmin : Safe (minRawSize header) := by
    refine (safe_okOr _).bind fun _ _ => ?_
    cases header.pathsStripped <;> simp
  have hest : Safe (estimatedMetadataBytes header) :=
    (safe_okOr _).bind fun _ _ => (safe_okOr _).bind fun _ _ => safe_okOr _
  exact (safe_ensure _).bind fun _ _ => (safe_ensure _).bind fun _ _ =>
    (safe_ensure _).bind fun _ _ => (safe_ensure _).bind fun _ _ => (safe_ensure _).bind fun _ _ =>
    hmin.bind fun _ _ => (safe_ensure _).bind fun _ _ => hest.bind fun _ _ => safe_ensure _

end

end RasenArchive
