import RasenArchive.Archive.Verified
import RasenArchive.Format.Codec

/-!
# Limits filter exactly

The limits of a caller decide about an archive by nothing but a comparison of nine measured
quantities with nine fields. An archive that the largest limits accept is opened under any limits
that its quantities keep to, with the same entries and chunks.

## Main definitions

* `headerOf`, `rawToc`: the header and the raw table of contents in a file
* `Within`: the measured quantities of an archive keep to the limits
* `ArchiveLimits.Le`: limits that are nowhere larger

## Main results

* `openWithLimits_filter`, `openArchive_filter`: an opening under any limits, or under those of a
  running program, from one under the largest
* `limits_filter`: the limits filter exactly, raising them loses nothing, and what lies above the
  hard limits has no effect
-/

namespace RasenArchive

variable (D : Dependencies)

/-- The header at the front of a file. -/
def headerOf (c : Bytes) : Result Header := (readHeader (c.extract 0 headerSize)).1

/-- The stored table of contents of a file with this header. -/
def storedToc (header : Header) (c : Bytes) : Bytes :=
  c.extract header.tocOffset.toNat (header.tocOffset.toNat + header.tocSize.toNat)

/-- The raw table of contents behind the stored one. -/
def rawToc (key : Bytes) (header : Header) (stored : Bytes) : Result Bytes := do
  let block ← unprotectToc D (aeadKeyFor D header.protection key) key stored
  decompressBlockExact D block header.tocRawSize.toNat "decompressed TOC size mismatch"

/-- The paths as the raw table of contents encodes them. -/
def encodedPaths (header : Header) (plain : Bytes) : List Bytes :=
  storedPaths header.entryCount.toNat (plain.drop 4)

/-- The quantities of the header keep to the limits. -/
structure HeaderWithin (limits : ArchiveLimits) (header : Header) : Prop where
  storedToc : header.tocSize.toNat ≤ limits.maxTocStoredBytes
  rawToc : header.tocRawSize.toNat ≤ limits.maxTocRawBytes
  entries : header.entryCount.toNat ≤ limits.maxEntries
  chunks : header.chunkCount.toNat ≤ limits.maxChunks
  metadata : metadataEstimate header ≤ limits.maxMetadataBytes

/-- The quantities of the table of contents keep to the limits. -/
structure TocWithin (limits : ArchiveLimits) (paths : List Bytes) (entries : List Entry)
    (chunks : List Chunk) : Prop where
  path : ∀ p ∈ paths, p.length ≤ limits.maxPathBytes
  totalPath : (paths.map List.length).sum ≤ limits.maxTotalPathBytes
  singleAsset : ∀ e ∈ entries, e.originalSize.toNat ≤ limits.maxSingleAssetBytes
  totalDecompressed :
    (chunks.map fun c => c.originalSize.toNat).sum ≤ limits.maxTotalDecompressedBytes

/-- **The measured quantities** of an archive keep to the limits. -/
structure Within (limits : ArchiveLimits) (header : Header) (plain : Bytes) (a : Archive) :
    Prop where
  inHeader : HeaderWithin limits header
  inToc : TocWithin limits (encodedPaths header plain) a.entries a.chunks

/-- The limits are nowhere larger than the others. -/
structure ArchiveLimits.Le (l l' : ArchiveLimits) : Prop where
  maxTocStoredBytes : l.maxTocStoredBytes ≤ l'.maxTocStoredBytes
  maxTocRawBytes : l.maxTocRawBytes ≤ l'.maxTocRawBytes
  maxEntries : l.maxEntries ≤ l'.maxEntries
  maxChunks : l.maxChunks ≤ l'.maxChunks
  maxChunksPerOperation : l.maxChunksPerOperation ≤ l'.maxChunksPerOperation
  maxPathBytes : l.maxPathBytes ≤ l'.maxPathBytes
  maxTotalPathBytes : l.maxTotalPathBytes ≤ l'.maxTotalPathBytes
  maxTotalDecompressedBytes : l.maxTotalDecompressedBytes ≤ l'.maxTotalDecompressedBytes
  maxSingleAssetBytes : l.maxSingleAssetBytes ≤ l'.maxSingleAssetBytes
  maxMetadataBytes : l.maxMetadataBytes ≤ l'.maxMetadataBytes

theorem ArchiveLimits.clamped_le (l : ArchiveLimits) : l.clamped.Le l where
  maxTocStoredBytes := min_le_left _ _
  maxTocRawBytes := min_le_left _ _
  maxEntries := min_le_left _ _
  maxChunks := min_le_left _ _
  maxChunksPerOperation := min_le_left _ _
  maxPathBytes := min_le_left _ _
  maxTotalPathBytes := min_le_left _ _
  maxTotalDecompressedBytes := min_le_left _ _
  maxSingleAssetBytes := min_le_left _ _
  maxMetadataBytes := min_le_left _ _

theorem ArchiveLimits.clamped_le_permissiveV1 (l : ArchiveLimits) : l.clamped.Le permissiveV1 where
  maxTocStoredBytes := min_le_right _ _
  maxTocRawBytes := min_le_right _ _
  maxEntries := min_le_right _ _
  maxChunks := min_le_right _ _
  maxChunksPerOperation := min_le_right _ _
  maxPathBytes := min_le_right _ _
  maxTotalPathBytes := min_le_right _ _
  maxTotalDecompressedBytes := min_le_right _ _
  maxSingleAssetBytes := min_le_right _ _
  maxMetadataBytes := min_le_right _ _

/-- Clamping keeps limits that are under the largest ones. -/
theorem ArchiveLimits.clamped_mono {l l' : ArchiveLimits} (h : l.Le l') :
    l.clamped.Le l'.clamped where
  maxTocStoredBytes := min_le_min_right _ h.maxTocStoredBytes
  maxTocRawBytes := min_le_min_right _ h.maxTocRawBytes
  maxEntries := min_le_min_right _ h.maxEntries
  maxChunks := min_le_min_right _ h.maxChunks
  maxChunksPerOperation := min_le_min_right _ h.maxChunksPerOperation
  maxPathBytes := min_le_min_right _ h.maxPathBytes
  maxTotalPathBytes := min_le_min_right _ h.maxTotalPathBytes
  maxTotalDecompressedBytes := min_le_min_right _ h.maxTotalDecompressedBytes
  maxSingleAssetBytes := min_le_min_right _ h.maxSingleAssetBytes
  maxMetadataBytes := min_le_min_right _ h.maxMetadataBytes

section

variable {D} {limits l l' : ArchiveLimits} {header : Header} {key : Bytes} {a : Archive}

theorem HeaderWithin.mono (h : HeaderWithin l header) (hle : l.Le l') : HeaderWithin l' header :=
  ⟨h.storedToc.trans hle.maxTocStoredBytes, h.rawToc.trans hle.maxTocRawBytes,
    h.entries.trans hle.maxEntries, h.chunks.trans hle.maxChunks,
    h.metadata.trans hle.maxMetadataBytes⟩

theorem TocWithin.mono {paths : List Bytes} {entries : List Entry} {chunks : List Chunk}
    (h : TocWithin l paths entries chunks) (hle : l.Le l') : TocWithin l' paths entries chunks :=
  ⟨fun p hp => (h.path p hp).trans hle.maxPathBytes, h.totalPath.trans hle.maxTotalPathBytes,
    fun e he => (h.singleAsset e he).trans hle.maxSingleAssetBytes,
    h.totalDecompressed.trans hle.maxTotalDecompressedBytes⟩

theorem Within.mono {plain : Bytes} (h : Within l header plain a) (hle : l.Le l') :
    Within l' header plain a := ⟨h.inHeader.mono hle, h.inToc.mono hle⟩

/-- To keep to limits and to the hard ones is to keep to the clamped limits. -/
theorem Within.clamped {plain : Bytes} (h : Within l header plain a)
    (hhard : Within .permissiveV1 header plain a) : Within l.clamped header plain a := by
  obtain ⟨h₁, h₂⟩ := h
  obtain ⟨h₃, h₄⟩ := hhard
  refine ⟨⟨?_, ?_, ?_, ?_, ?_⟩, ⟨fun p hp => ?_, ?_, fun e he => ?_, ?_⟩⟩
  · exact le_min h₁.storedToc h₃.storedToc
  · exact le_min h₁.rawToc h₃.rawToc
  · exact le_min h₁.entries h₃.entries
  · exact le_min h₁.chunks h₃.chunks
  · exact le_min h₁.metadata h₃.metadata
  · exact le_min (h₂.path p hp) (h₄.path p hp)
  · exact le_min h₂.totalPath h₄.totalPath
  · exact le_min (h₂.singleAsset e he) (h₄.singleAsset e he)
  · exact le_min h₂.totalDecompressed h₄.totalDecompressed

/-! ## The table of contents under two limits -/

theorem rawToc_eq_ok_iff {stored plain : Bytes} :
    rawToc D key header stored = .ok plain ↔
      ∃ block, unprotectToc D (aeadKeyFor D header.protection key) key stored = .ok block ∧
        D.decompressInto block header.tocRawSize.toNat = .ok plain ∧
        plain.length = header.tocRawSize.toNat := by
  simp only [rawToc, bind_eq_ok, decompressBlockExact_eq, decompressExact_eq_ok_iff]

/-- The encoded paths of a table are those that it was decoded from. -/
theorem encodedPaths_tocImage {limits : TocLimits} {entries : List Entry} {paths : List Bytes}
    (chunks : List Chunk) (hcount : entries.length = header.entryCount.toNat)
    (hall : List.Forall₂ (Accepts D header.pathsStripped limits) entries paths) :
    encodedPaths header (tocImage entries paths chunks) = paths := by
  rw [encodedPaths, ← hcount, storedPaths_tocImage chunks hall.length_eq]
  intro p hp
  obtain ⟨i, hi, rfl⟩ := List.mem_iff_getElem.mp hp
  exact (hall.get (hall.length_eq ▸ hi) hi).length_lt

/-- The raw table of contents of what is opened is the one it was decoded from. -/
theorem rawToc_unique {stored block plain plain' : Bytes}
    (hplain : rawToc D key header stored = .ok plain)
    (hb : unprotectToc D (aeadKeyFor D header.protection key) key stored = .ok block)
    (hd : D.decompressInto block header.tocRawSize.toNat = .ok plain')
    (hlen : plain'.length = header.tocRawSize.toNat) : plain = plain' :=
  Except.ok.inj (hplain.symm.trans (rawToc_eq_ok_iff.mpr ⟨block, hb, hd, hlen⟩))

/-- **What is opened keeps to the limits.** -/
theorem openToc_within {stored : Bytes} (h : openToc D l key header stored = .ok a) :
    ∃ plain, rawToc D key header stored = .ok plain ∧
      TocWithin l (encodedPaths header plain) a.entries a.chunks := by
  obtain ⟨block, plain, entries, chunks, hb, hd, hlen, -, ht, hl, -, rfl⟩ :=
    openToc_eq_ok_iff.mp h
  obtain ⟨hes, -, -, paths, hall, htotal, rfl⟩ := decodeToc_eq_ok_iff.mp ht
  refine ⟨_, rawToc_eq_ok_iff.mpr ⟨block, hb, hd, hlen⟩, ?_⟩
  rw [encodedPaths_tocImage chunks hes hall]
  refine ⟨fun p hp => ?_, htotal, fun e he => ?_, hl.total_le⟩
  · obtain ⟨i, hi, rfl⟩ := List.mem_iff_getElem.mp hp
    exact (hall.get (hall.length_eq ▸ hi) hi).length_le
  · obtain ⟨i, hi, rfl⟩ := List.mem_iff_getElem.mp he
    exact (hall.get hi (hall.length_eq ▸ hi)).size_le

/-- The layout checks look at the limits for the total size only. -/
theorem ValidLayout.change_limits {entries : List TocEntry} {chunks : List Chunk}
    (h : ValidLayout (header.layout l) entries chunks)
    (htotal : (chunks.map fun c => c.originalSize.toNat).sum ≤ l'.maxTotalDecompressedBytes) :
    ValidLayout (header.layout l') entries chunks where
  chunk c hc := by
    obtain ⟨h₁, h₂, h₃, h₄, h₅, h₆, h₇, h₈⟩ := h.chunk c hc
    exact ⟨h₁, h₂, h₃, h₄, h₅, h₆, h₇, h₈⟩
  ordered := h.ordered
  total_le := htotal
  total_lt := h.total_lt
  entry e he := by
    obtain ⟨h₁, h₂, h₃, h₄, h₅⟩ := h.entry e he
    exact ⟨h₁, h₂, h₃, h₄, h₅⟩
  owned := h.owned

/-- **What keeps to other limits** is opened under them, as the same records. -/
theorem openToc_change_limits {stored plain : Bytes} (h : openToc D l key header stored = .ok a)
    (hplain : rawToc D key header stored = .ok plain)
    (hin : TocWithin l' (encodedPaths header plain) a.entries a.chunks) :
    openToc D l' key header stored =
      .ok { a with maxChunksPerOperation := l'.maxChunksPerOperation } := by
  obtain ⟨block, plain', entries, chunks, hb, hd, hlen, hc, ht, hl, hi, rfl⟩ :=
    openToc_eq_ok_iff.mp h
  obtain rfl := rawToc_unique hplain hb hd hlen
  obtain ⟨hes, hcs, hlt, paths, hall, -, rfl⟩ := decodeToc_eq_ok_iff.mp ht
  rw [encodedPaths_tocImage chunks hes hall] at hin
  refine openToc_eq_ok_iff.mpr ⟨block, _, entries, chunks, hb, hd, hlen, hc, ?_,
    hl.change_limits hin.totalDecompressed, hi, rfl⟩
  refine decodeToc_eq_ok_iff.mpr ⟨hes, hcs, hlt, paths, ?_, hin.totalPath, rfl⟩
  -- each record is accepted under the other limits, as its size and its path keep to them
  refine List.forall₂_iff_get.mpr ⟨hall.length_eq, fun i hi hi' => ?_⟩
  have ha := hall.get hi hi'
  exact ⟨hin.singleAsset _ (List.get_mem _ _), hin.path _ (List.get_mem _ _), ha.length_lt, ha.path⟩

/-! ## The header under two limits -/

theorem AcceptedHeader.within (h : AcceptedHeader l header) : HeaderWithin l header := by
  obtain ⟨h₁, h₂, h₃, h₄, -, -, -, h₅⟩ := validateLimits_eq_ok_iff.mp h.limited
  exact ⟨h₁, h₂, h₃, h₄, h₅⟩

/-- A header that keeps to other limits is accepted under them. Its entry count is held against the
limit on all paths together, which is no check of its own as no stored path is empty. -/
theorem AcceptedHeader.change_limits (h : AcceptedHeader l header) (hin : HeaderWithin l' header)
    (hcount : header.pathsStripped = true ∨ header.entryCount.toNat ≤ l'.maxTotalPathBytes) :
    AcceptedHeader l' header := by
  obtain ⟨-, -, -, -, -, hleast, hlt, -⟩ := validateLimits_eq_ok_iff.mp h.limited
  exact ⟨h.valid, validateLimits_eq_ok_iff.mpr ⟨hin.storedToc, hin.rawToc, hin.entries, hin.chunks,
    hcount, hleast, hlt, hin.metadata⟩⟩

/-- There are no more entries than bytes of paths, where there are paths. -/
theorem entryCount_le {stored plain : Bytes} (h : openToc D l key header stored = .ok a)
    (hplain : rawToc D key header stored = .ok plain)
    (hin : TocWithin l' (encodedPaths header plain) a.entries a.chunks) :
    header.pathsStripped = true ∨ header.entryCount.toNat ≤ l'.maxTotalPathBytes := by
  cases hs : header.pathsStripped with
  | true => exact Or.inl rfl
  | false =>
    right
    obtain ⟨block, plain', entries, chunks, hb, hd, hlen, -, ht, -, -, rfl⟩ :=
      openToc_eq_ok_iff.mp h
    obtain rfl := rawToc_unique hplain hb hd hlen
    obtain ⟨hes, -, -, paths, hall, -, rfl⟩ := decodeToc_eq_ok_iff.mp ht
    rw [encodedPaths_tocImage chunks hes hall] at hin
    have hpos : ∀ n ∈ paths.map List.length, 1 ≤ n := by
      simp only [List.forall_mem_map]
      intro p hp
      obtain ⟨i, hi, rfl⟩ := List.mem_iff_getElem.mp hp
      have hpath := (hall.get (hall.length_eq ▸ hi) hi).path
      simp only [AcceptsPath, hs, Bool.false_eq_true, if_false] at hpath
      exact List.length_pos_iff.mpr hpath.1
    calc header.entryCount.toNat = (paths.map List.length).length := by
          rw [List.length_map, ← hes, hall.length_eq]
      _ ≤ (paths.map List.length).sum := List.length_le_sum_of_one_le _ hpos
      _ ≤ l'.maxTotalPathBytes := hin.totalPath

end

/-! ## Openings -/

section

variable {W : Type} {D} {R : RandomAccessRead W} {P : W → Prop} {w : W} {c : Bytes} {key : Bytes}

theorem headerOf_eq_ok_iff {header : Header} (hle : headerSize ≤ c.length) :
    headerOf c = .ok header ↔ c.extract 0 headerSize = encodeHeader header :=
  fst_readHeader_eq_ok_iff (by rw [length_extract hle]; rfl)

section Opened

variable (hp : Presents R P c) (hw : P w) {l : ArchiveLimits} {a : Archive} {w' : W}

include hp hw

/-- **Limits only filter**: what is opened under some limits, and keeps to others, is opened under
the others too. -/
theorem openWithLimits_change_limits {l' : ArchiveLimits} {header : Header} {plain : Bytes}
    (h : openWithLimits D R key l w = (.ok a, w')) (hheader : headerOf c = .ok header)
    (hplain : rawToc D key header (storedToc header c) = .ok plain)
    (hin : Within l'.clamped header plain a) :
    openWithLimits D R key l' w =
      (.ok { a with maxChunksPerOperation := l'.clamped.maxChunksPerOperation }, w') := by
  obtain ⟨hkey, hle, header', hbs, ha, hr, ht⟩ :=
    (openWithLimits_presents_iff hp hw).mp (congrArg Prod.fst h)
  obtain rfl : header = header' :=
    Except.ok.inj (hheader.symm.trans ((headerOf_eq_ok_iff hle).mpr hbs))
  have hopen : (openWithLimits D R key l' w).1 =
      .ok { a with maxChunksPerOperation := l'.clamped.maxChunksPerOperation } :=
    (openWithLimits_presents_iff hp hw).mpr ⟨hkey, hle, header, hbs,
      ha.change_limits hin.inHeader (entryCount_le ht hplain hin.inToc), hr,
      openToc_change_limits ht hplain hin.inToc⟩
  -- the two openings read the same, so they leave the source in one state
  refine Prod.ext hopen ?_
  exact (snd_eq_of_open h (Prod.ext hopen rfl)).symm

/-- What is opened keeps to its limits, and to the hard ones. -/
theorem openWithLimits_within (h : openWithLimits D R key l w = (.ok a, w')) :
    ∃ header plain, headerOf c = .ok header ∧
      rawToc D key header (storedToc header c) = .ok plain ∧
      Within l.clamped header plain a ∧
      a.maxChunksPerOperation = l.clamped.maxChunksPerOperation := by
  obtain ⟨-, hle, header, hbs, ha, -, ht⟩ :=
    (openWithLimits_presents_iff hp hw).mp (congrArg Prod.fst h)
  obtain ⟨plain, hplain, hin⟩ := openToc_within ht
  refine ⟨header, plain, (headerOf_eq_ok_iff hle).mpr hbs, hplain, ⟨ha.within, hin⟩, ?_⟩
  obtain ⟨-, -, -, -, -, -, -, -, -, -, -, rfl⟩ := openToc_eq_ok_iff.mp ht
  rfl

/-- **An opening under any limits** from one under the largest limits of the format. -/
theorem openWithLimits_filter :
    openWithLimits D R key l w = (.ok a, w') ↔
      ∃ header plain a', headerOf c = .ok header ∧
        rawToc D key header (storedToc header c) = .ok plain ∧
        openWithLimits D R key .permissiveV1 w = (.ok a', w') ∧ Within l header plain a' ∧
        a = { a' with maxChunksPerOperation := l.clamped.maxChunksPerOperation } := by
  constructor
  · intro h
    obtain ⟨header, plain, hheader, hplain, hin, hmax⟩ := openWithLimits_within hp hw h
    have hhard : Within ArchiveLimits.permissiveV1.clamped header plain a := by
      rw [ArchiveLimits.clamped_permissiveV1]
      exact hin.mono l.clamped_le_permissiveV1
    have hopen := openWithLimits_change_limits hp hw h hheader hplain hhard
    refine ⟨header, plain, _, hheader, hplain, hopen, ?_, ?_⟩
    · obtain ⟨h₁, h₂⟩ := hin.mono l.clamped_le
      exact ⟨h₁, h₂⟩
    · rw [← hmax]
  · rintro ⟨header, plain, a', hheader, hplain, hopen, hin, rfl⟩
    obtain ⟨header', plain', hheader', hplain', hhard, -⟩ := openWithLimits_within hp hw hopen
    cases hheader.symm.trans hheader'
    cases hplain.symm.trans hplain'
    rw [ArchiveLimits.clamped_permissiveV1] at hhard
    exact openWithLimits_change_limits hp hw hopen hheader hplain (hin.clamped hhard)

/-- **An opening without limits of the caller** is one under the largest limits of an archive that
keeps to those of a running program. -/
theorem openArchive_filter :
    openArchive D R key w = (.ok a, w') ↔
      ∃ header plain a', headerOf c = .ok header ∧
        rawToc D key header (storedToc header c) = .ok plain ∧
        openWithLimits D R key .permissiveV1 w = (.ok a', w') ∧
        Within .runtimeDefault header plain a' ∧
        a = { a' with maxChunksPerOperation :=
          ArchiveLimits.runtimeDefault.clamped.maxChunksPerOperation } :=
  openWithLimits_filter hp hw

end Opened

end

/-- **Limits filter exactly**, over a source of unchanging bytes: an opening under any limits is one
under the largest limits of an archive that keeps to them; raising limits loses no archive; what
lies above the hard limits has no effect; and an opening comes to the same from every state. -/
theorem limits_filter (D : Dependencies) {W : Type} (R : RandomAccessRead W) (P : W → Prop)
    (c : Bytes) (hp : Presents R P c) (key : Bytes) :
    (∀ l a w w', P w → (openWithLimits D R key l w = (.ok a, w') ↔
      ∃ header plain a', headerOf c = .ok header ∧
        rawToc D key header (storedToc header c) = .ok plain ∧
        openWithLimits D R key .permissiveV1 w = (.ok a', w') ∧ Within l header plain a' ∧
        a = { a' with maxChunksPerOperation := l.clamped.maxChunksPerOperation })) ∧
    (∀ l l' a w w', P w → l.Le l' → openWithLimits D R key l w = (.ok a, w') →
      openWithLimits D R key l' w =
        (.ok { a with maxChunksPerOperation := l'.clamped.maxChunksPerOperation }, w')) ∧
    (∀ l, openWithLimits D R key l = openWithLimits D R key l.clamped) ∧
    (∀ l a w w', P w → openWithLimits D R key l w = (.ok a, w') →
      Fallible.Settles P (openWithLimits D R key l) (.ok a)) := by
  refine ⟨fun l a w w' hw => openWithLimits_filter hp hw, ?_, fun l => ?_,
    fun l a w w' hw h => openWithLimits_settles hp hw (congrArg Prod.fst h)⟩
  · intro l l' a w w' hw hle h
    obtain ⟨header, plain, hheader, hplain, hin, -⟩ := openWithLimits_within hp hw h
    exact openWithLimits_change_limits hp hw h hheader hplain
      (hin.mono (ArchiveLimits.clamped_mono hle))
  · simp only [openWithLimits, ArchiveLimits.clamped_clamped]

/-- The small archive under its limits, and under the largest ones. -/
theorem limits_filter_small :
    (∃ header plain a', headerOf smallBytes = .ok header ∧
      rawToc reference smallKey header (storedToc header smallBytes) = .ok plain ∧
      openWithLimits reference sliceSource smallKey .permissiveV1 smallBytes =
        (.ok a', smallBytes) ∧
      Within .runtimeDefault header plain a' ∧
      smallArchive = { a' with maxChunksPerOperation :=
        (ArchiveLimits.clamped .runtimeDefault).maxChunksPerOperation }) ∧
    openWithLimits reference sliceSource smallKey .toolingDefault smallBytes =
      (.ok { smallArchive with maxChunksPerOperation :=
        (ArchiveLimits.clamped .toolingDefault).maxChunksPerOperation }, smallBytes) :=
  have h := limits_filter reference sliceSource _ smallBytes (sliceSource_presents _) smallKey
  ⟨(h.1 _ _ _ _ rfl).mp openWithLimits_small,
    h.2.1 _ _ _ _ _ rfl (by constructor <;> decide) openWithLimits_small⟩

end RasenArchive
