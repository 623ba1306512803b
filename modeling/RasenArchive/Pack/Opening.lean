import RasenArchive.Archive.Agreement
import RasenArchive.Format.Codec
import RasenArchive.Pack.Layout
import RasenArchive.Pack.Serialise

/-!
# Opening a packed archive

The reader on the bytes of a packer. Its header is accepted, its table of contents is the one that
was encoded, and its layout is valid, as long as the archive keeps to the hard limits of the
reader, which the packer does not look at.

## Main definitions

* `HardLimited D mode assets`: the assets keep to the hard limits
* `packedArchive`: the open archive of some assets

## Main results

* `Archived.acceptedHeader_iff`, `Archived.openToc_iff`: what the parts of an opening accept
* `Archived.open_iff`: when an archive of the packer is opened, and as what
-/

namespace RasenArchive

variable {D : Dependencies} {B : Sealing} {assets : List Asset} {toc block stored : Bytes}

/-! ## The header -/

/-- The numbers in a header. -/
structure Numbers (B : Sealing) (assets : List Asset) (toc stored : Bytes) (header : Header) :
    Prop where
  chunkSize : header.chunkSize.toNat = B.options.chunkSize
  entryCount : header.entryCount.toNat = assets.length
  chunkCount : header.chunkCount.toNat = (allBlocks assets).length
  tocOffset : header.tocOffset.toNat = tocStart B assets
  tocSize : header.tocSize.toNat = stored.length
  tocRawSize : header.tocRawSize.toNat = toc.length

/-- No number in the header of an archive is cut off. -/
theorem Archived.numbers (h : Archived D B assets toc block stored) :
    Numbers B assets toc stored (packHeader D B assets toc stored) where
  chunkSize := UInt32.toNat_ofNat_of_lt' (lt_of_le_of_lt h.valid.chunkSize_le (by decide))
  entryCount := UInt32.toNat_ofNat_of_lt' h.assets_lt
  chunkCount := UInt32.toNat_ofNat_of_lt' h.blocks_lt
  tocOffset := UInt64.toNat_ofNat_of_lt' (lt_of_le_of_lt (Nat.le_add_right _ _) h.fits)
  tocSize := UInt64.toNat_ofNat_of_lt' (lt_of_le_of_lt h.toc.stored_le (by decide))
  tocRawSize := UInt64.toNat_ofNat_of_lt' (lt_of_le_of_lt h.toc.raw_le (by decide))

theorem pathsStripped_packHeader :
    (packHeader D B assets toc stored).pathsStripped = B.options.mode.stripsPaths := by
  rw [Bool.eq_iff_iff, ← (headerFlags_spec B.options).2]
  exact decide_eq_true_iff

theorem headerFlags_valid (options : PackOptions) :
    headerFlags options &&& requiredHeaderFlags = requiredHeaderFlags ∧
      headerFlags options &&& ~~~knownHeaderFlags = 0 ∧
      countOnes 16 (headerFlags options &&& (headerFlagTocXor ||| headerFlagAead)).toNat = 1 := by
  have h : ∀ (protection : Protection) (mode : PackMode),
      headerFlags ⟨0, 0, mode, protection⟩ &&& requiredHeaderFlags = requiredHeaderFlags ∧
        headerFlags ⟨0, 0, mode, protection⟩ &&& ~~~knownHeaderFlags = 0 ∧
        countOnes 16 (headerFlags ⟨0, 0, mode, protection⟩ &&&
          (headerFlagTocXor ||| headerFlagAead)).toNat = 1 := by
    intro protection mode
    cases protection <;> cases mode <;> decide
  exact h options.protection options.mode

/-- **The header of an archive** passes the checks of the format. -/
theorem Archived.validateHeader_eq (h : Archived D B assets toc block stored) :
    validateHeader (packHeader D B assets toc stored) = .ok () := by
  obtain ⟨hchunk, -, -, -, hsize, hraw⟩ := h.numbers
  rw [validateHeader_eq_ok_iff, hchunk, hsize, hraw]
  exact ⟨rfl, rfl, headerFlags_valid B.options, ⟨h.valid.chunkSize_pos, h.valid.chunkSize_le⟩,
    ⟨h.valid.alignment_pow, h.valid.alignment_le⟩, h.toc.stored_le, h.toc.raw_le⟩

/-! ## Listed entries -/

/-- The paths of the listed entries, as they are stored. -/
theorem map_path_listedEntries (mode : PackMode) (assets : List Asset) :
    ((listedEntries mode (entryTable D 0 assets)).map fun e => asBytes e.path) =
      if mode.stripsPaths then assets.map fun _ => [] else assets.map fun a => asBytes a.path := by
  have hpaths := (@map_path_entryTable D 0 assets).1
  unfold listedEntries
  cases mode.stripsPaths with
  | true =>
    have hlen : (entryTable D 0 assets).length = assets.length := by
      rw [← List.length_map (f := TocEntry.path), hpaths, List.length_map]
    rw [if_pos rfl, if_pos rfl, List.map_map]
    show (entryTable D 0 assets).map (fun _ => ([] : Bytes)) = _
    rw [List.map_const', List.map_const', hlen]
  | false =>
    rw [if_neg (by decide), if_neg (by decide)]
    have := congrArg (List.map asBytes) hpaths
    rwa [List.map_map, List.map_map] at this

/-- The number of bytes of the paths of an archive. -/
def storedPathBytes (mode : PackMode) (assets : List Asset) : ℕ :=
  if mode.stripsPaths then 0 else (assets.map fun a => a.path.utf8ByteSize).sum

theorem sum_path_listedEntries (mode : PackMode) (assets : List Asset) :
    (((listedEntries mode (entryTable D 0 assets)).map fun e => asBytes e.path).map
      List.length).sum = storedPathBytes mode assets := by
  rw [map_path_listedEntries, storedPathBytes]
  cases mode.stripsPaths with
  | true =>
    rw [if_pos rfl, if_pos rfl, List.map_map]
    exact List.sum_eq_zero (by simp)
  | false =>
    rw [if_neg (by decide), if_neg (by decide), List.map_map]
    rfl

theorem length_listedEntries (mode : PackMode) (assets : List Asset) :
    (listedEntries mode (entryTable D 0 assets)).length = assets.length := by
  have h := congrArg List.length (@map_path_listedEntries D mode assets)
  rw [List.length_map] at h
  rw [h]
  split_ifs <;> rw [List.length_map]

/-- The hashes of the listed entries are those of the normal paths. -/
theorem map_pathHash_listedEntries (mode : PackMode) (assets : List Asset) :
    (listedEntries mode (entryTable D 0 assets)).map TocEntry.pathHash =
      (assets.map Asset.path).map (pathHash D) := by
  rw [← (@map_path_entryTable D 0 assets).2, listedEntries]
  split_ifs
  · rw [List.map_map]
    rfl
  · rfl

/-- The listed entries are those of the assets, with or without their paths. -/
theorem mem_listedEntries {mode : PackMode} {e : TocEntry} :
    e ∈ listedEntries mode (entryTable D 0 assets) ↔ ∃ front a back, assets = front ++ a :: back ∧
      e = { assetEntry D (allBlocks front).length a with
        path := if mode.stripsPaths then "" else a.path } := by
  unfold listedEntries
  cases mode.stripsPaths with
  | true =>
    rw [if_pos rfl, List.mem_map]
    constructor
    · rintro ⟨e', he', rfl⟩
      obtain ⟨front, a, back, happ, rfl⟩ := mem_entryTable.mp he'
      exact ⟨front, a, back, happ, by rw [Nat.zero_add]; rfl⟩
    · rintro ⟨front, a, back, happ, rfl⟩
      exact ⟨_, mem_entryTable.mpr ⟨front, a, back, happ, rfl⟩, by rw [Nat.zero_add]; rfl⟩
  | false =>
    rw [if_neg (by decide), mem_entryTable]
    simp only [Nat.zero_add]
    rfl

/-- **The paths of the listed entries** belong to their hashes. -/
theorem Packable.ownPath (h : Packable D B assets) :
    ∀ e ∈ listedEntries B.options.mode (entryTable D 0 assets),
      OwnPath D B.options.mode.stripsPaths e := by
  intro e he
  obtain ⟨front, a, back, happ, rfl⟩ := mem_listedEntries.mp he
  unfold OwnPath
  cases B.options.mode.stripsPaths with
  | true => rfl
  | false => exact ⟨h.normal a (by rw [happ]; simp), rfl⟩

/-! ## Hard limits -/

/-- The assets keep to the hard limits of the reader. -/
structure HardLimited (D : Dependencies) (mode : PackMode) (assets : List Asset) : Prop where
  entries_le : assets.length ≤ ArchiveLimits.hardMaxEntries
  chunks_le : (allBlocks assets).length ≤ ArchiveLimits.hardMaxChunks
  paths_le : storedPathBytes mode assets ≤ ArchiveLimits.hardMaxTotalPathBytes
  total_le : contentSize assets ≤ ArchiveLimits.hardMaxTotalDecompressedBytes
  bucket_le : ∀ hash, ((assets.map Asset.path).countP fun q => decide (pathHash D q = hash)) ≤
    ArchiveLimits.hardMaxIdentifierBucketEntries

/-- The raw table of contents of an archive, and its length. -/
theorem Archived.toc_eq (h : Archived D B assets toc block stored) :
    toc = tocImage (listedEntries B.options.mode (entryTable D 0 assets))
        ((listedEntries B.options.mode (entryTable D 0 assets)).map fun e => asBytes e.path)
        (packChunks D B assets) ∧
      toc.length = 4 + tocEntryFixedSize * assets.length +
        storedPathBytes B.options.mode assets + tocChunkFixedSize * (allBlocks assets).length := by
  obtain ⟨-, -, htoc⟩ := encodeToc_eq_ok_iff.mp h.toc.encoded
  refine ⟨htoc, ?_⟩
  rw [htoc, length_tocImage _ _ _ (by rw [List.length_map]), length_listedEntries,
    sum_path_listedEntries, packChunks, length_chunkTable]

/-- There are no more entries than bytes of their paths. -/
theorem Packable.length_le_storedPathBytes (h : Packable D B assets) :
    B.options.mode.stripsPaths = true ∨
      assets.length ≤ storedPathBytes B.options.mode assets := by
  cases hs : B.options.mode.stripsPaths with
  | true => exact Or.inl rfl
  | false =>
    right
    rw [storedPathBytes, hs, if_neg (by decide),
      ← List.length_map (f := fun a : Asset => a.path.utf8ByteSize)]
    refine List.length_le_sum_of_one_le _ ?_
    rw [List.forall_mem_map]
    intro a ha
    have hne := ne_empty_of_normalizePath (h.normal a ha)
    rw [← length_asBytes, Nat.one_le_iff_ne_zero, Ne, List.length_eq_zero_iff, ← asBytes_empty]
    exact fun he => hne (asBytes_injective he)

/-- **The header of an archive is accepted** when the counts of its records are. -/
theorem Archived.acceptedHeader_iff (h : Archived D B assets toc block stored) :
    AcceptedHeader .permissiveV1 (packHeader D B assets toc stored) ↔
      assets.length ≤ ArchiveLimits.hardMaxEntries ∧
        (allBlocks assets).length ≤ ArchiveLimits.hardMaxChunks := by
  obtain ⟨-, hentries, hchunks, -, hsize, hraw⟩ := h.numbers
  constructor
  · intro hh
    obtain ⟨-, -, he, hc, -⟩ := validateLimits_eq_ok_iff.mp hh.limited
    exact ⟨hentries ▸ he, hchunks ▸ hc⟩
  · rintro ⟨he, hc⟩
    have hestimate : metadataEstimate (packHeader D B assets toc stored) ≤
        ArchiveLimits.hardMaxMetadataBytes := by
      apply metadataEstimate_le
      · rw [hsize]
        exact h.toc.stored_le
      · rw [hraw]
        exact h.toc.raw_le
      · rw [hentries]
        exact he
      · rw [hchunks]
        exact hc
    have hpaths : assets.length ≤ ArchiveLimits.hardMaxTotalPathBytes := he.trans (by decide)
    refine ⟨h.validateHeader_eq, validateLimits_eq_ok_iff.mpr ⟨?_, ?_, ?_, ?_, Or.inr ?_, ?_,
      lt_of_le_of_lt hestimate (by decide), hestimate⟩⟩
    · rw [hsize]
      exact h.toc.stored_le
    · rw [hraw]
      exact h.toc.raw_le
    · rw [hentries]
      exact he
    · rw [hchunks]
      exact hc
    · rw [hentries]
      exact hpaths
    · have hlen := h.toc_eq.2
      rw [leastRawSize, hentries, hchunks, hraw, hlen, pathsStripped_packHeader]
      rcases h.length_le_storedPathBytes with hs | hle
      · rw [if_pos hs]
        omega
      · split_ifs <;> omega

/-- **The table of contents is in the file**, behind the header and aligned. -/
theorem Archived.checkTocRange_eq (h : Archived D B assets toc block stored) :
    checkTocRange (packHeader D B assets toc stored) (image D B assets toc stored).length =
      .ok () := by
  obtain ⟨-, -, -, hoffset, hsize, -⟩ := h.numbers
  have hpos := Nat.pos_of_isPowerOfTwo h.valid.alignment_pow
  have hbody : headerSize ≤ bodyEnd B.alignment headerSize (allBlocks assets) := le_bodyEnd hpos
  have hstart := le_alignedAt hpos (bodyEnd B.alignment headerSize (allBlocks assets))
  have hlen := @length_image D B assets h.valid toc stored
  rw [checkTocRange_eq_ok_iff, hoffset, hsize, hlen]
  exact ⟨h.fits, hbody.trans hstart, le_rfl, dvd_alignedAt _ _⟩

/-! ## The table of contents -/

/-- Decryption undoes the protection of a block. -/
theorem Sealing.Protects.decrypt_eq (hA : D.AeadLawful) {g : ℕ} {plain aad stored : Bytes}
    (h : B.Protects D g plain aad stored) (hp : B.options.protection = .aead) :
    decrypt D stored (deriveKey D B.key) aad = .ok plain := by
  unfold Sealing.Protects at h
  rw [hp] at h
  obtain ⟨nonce, ciphertext, -, hc, rfl⟩ := h
  exact decrypt_block hA ((encrypt_eq_ok_iff D (s := ⟨fun _ => some nonce, 0, []⟩)).mpr
    ⟨nonce, ciphertext, rfl, hc, rfl, rfl⟩)

/-- **The stored table of contents** without its protection. -/
theorem Archived.unprotectToc_eq (hA : D.AeadLawful) (h : Archived D B assets toc block stored) :
    unprotectToc D (aeadKeyFor D B.options.protection B.key) B.key stored = .ok block := by
  have hprotects := h.toc.protects
  cases hp : B.options.protection with
  | xor =>
    have hstored : stored = xorBytes block B.key := by
      rw [(Sealing.protects_xor_iff hp).mp hprotects, Sealing.maskToc, hp]
    rw [hstored]
    exact (xorInPlace_eq _ h.key).trans (congrArg _ (xorBytes_xorBytes block B.key))
  | aead =>
    rw [Sealing.maskToc, hp] at hprotects
    exact hprotects.decrypt_eq hA hp

theorem ValidEntry.originalSize_le {p : LayoutParams} {chunks : List Chunk} {e : TocEntry}
    (h : ValidEntry p chunks e) :
    e.originalSize.toNat ≤ (chunks.map fun c => c.originalSize.toNat).sum := by
  have hsub : (e.ownedChunks chunks).Sublist chunks := by
    rw [TocEntry.ownedChunks, List.extract_eq_take_drop]
    exact (List.take_sublist _ _).trans (List.drop_sublist _ _)
  rw [← h.original_sum]
  exact (hsub.map fun c : Chunk => c.originalSize.toNat).sum_le_sum fun _ _ => Nat.zero_le _

/-- The records of an archive are decoded under limits that they keep to. -/
theorem Archived.decodeToc_eq (h : Archived D B assets toc block stored) {limits : TocLimits}
    (hpath : maxPathLen ≤ limits.maxPathBytes)
    (htotal : storedPathBytes B.options.mode assets ≤ limits.maxTotalPathBytes)
    (hsize : ∀ e ∈ listedEntries B.options.mode (entryTable D 0 assets),
      e.originalSize.toNat ≤ limits.maxSingleAssetBytes) :
    decodeToc D toc (packHeader D B assets toc stored).entryCount
        (packHeader D B assets toc stored).chunkCount B.options.mode.stripsPaths limits =
      .ok (listedEntries B.options.mode (entryTable D 0 assets), packChunks D B assets) := by
  obtain ⟨-, hentries, hchunks, -, -, -⟩ := h.numbers
  obtain ⟨hpaths, -, -⟩ := encodeToc_eq_ok_iff.mp h.toc.encoded
  refine decodeToc_eq_ok_iff.mpr ⟨?_, ?_, lt_of_le_of_lt h.toc.raw_le (by decide), _,
    forall₂_accepts_map fun e he => ?_, ?_, h.toc_eq.1⟩
  · rw [hentries, length_listedEntries]
  · rw [hchunks, packChunks, length_chunkTable]
  · exact accepts_of_ownPath (h.ownPath e he) (hsize e he) ((hpaths e he).trans hpath)
  · rw [sum_path_listedEntries]
    exact htotal

/-- **What is decoded under any limits** are the records of the archive, within the limit on their
paths. -/
theorem Archived.of_decodeToc (h : Archived D B assets toc block stored) {limits : TocLimits}
    {entries : List Entry} {chunks : List Chunk}
    (hd : decodeToc D toc (packHeader D B assets toc stored).entryCount
      (packHeader D B assets toc stored).chunkCount B.options.mode.stripsPaths limits =
        .ok (entries, chunks)) :
    entries = listedEntries B.options.mode (entryTable D 0 assets) ∧
      chunks = packChunks D B assets ∧
      storedPathBytes B.options.mode assets ≤ limits.maxTotalPathBytes := by
  -- the same bytes are decoded under limits that nothing reaches
  have hall := @Archived.decodeToc_eq D B assets toc block stored h
    ⟨max maxPathLen limits.maxPathBytes,
      max (storedPathBytes B.options.mode assets) limits.maxTotalPathBytes, 2 ^ 64⟩
    (le_max_left _ _) (le_max_left _ _) fun e _ => e.originalSize.toNat_lt.le
  obtain ⟨hes, hcs, hlt, paths, haccept, htotal, himage⟩ := decodeToc_eq_ok_iff.mp hd
  have hwide := decodeToc_eq_ok_iff.mpr ⟨hes, hcs, hlt, paths, haccept.imp fun e p ha =>
    (⟨e.originalSize.toNat_lt.le, ha.length_le.trans (le_max_right _ _), ha.length_lt, ha.path⟩ :
      Accepts D B.options.mode.stripsPaths ⟨max maxPathLen limits.maxPathBytes,
        max (storedPathBytes B.options.mode assets) limits.maxTotalPathBytes, 2 ^ 64⟩ e p),
    htotal.trans (le_max_right _ _), himage⟩
  obtain ⟨rfl, rfl⟩ := Prod.mk.inj (Except.ok.inj (hwide.symm.trans hall))
  refine ⟨rfl, rfl, ?_⟩
  have hsum := sum_utf8ByteSize_le haccept
  rw [sum_path_listedEntries] at hsum
  exact hsum.trans htotal

/-- **The entries of an archive** are distinct when no hash has too many of them. -/
theorem Packable.distinctEntries_iff (h : Packable D B assets) :
    DistinctEntries (listedEntries B.options.mode (entryTable D 0 assets))
        B.options.mode.stripsPaths ↔
      ∀ hash, ((assets.map Asset.path).countP fun q => decide (pathHash D q = hash)) ≤
        ArchiveLimits.hardMaxIdentifierBucketEntries := by
  have hhashes := @map_pathHash_listedEntries D B.options.mode assets
  have hcount : ∀ hash, ((listedEntries B.options.mode (entryTable D 0 assets)).countP
      fun e => decide (e.pathHash = hash)) =
      (assets.map Asset.path).countP fun q => decide (pathHash D q = hash) := by
    intro hash
    have hc := congrArg (List.countP fun x => decide (x = hash)) hhashes
    rw [List.countP_map, List.countP_map] at hc
    exact hc
  constructor
  · intro hd hash
    rw [← hcount]
    exact hd.bucket_le hash
  · intro hbucket
    refine ⟨fun hash => (hcount hash).trans_le (hbucket hash), fun hs => ?_, ?_⟩
    · rw [hhashes]
      refine h.hashes ?_
      cases hm : B.options.mode with
      | debug =>
        rw [hm] at hs
        cases hs
      | production => rfl
    · -- the hashes are distinct without paths, and the paths are with them
      cases hs : B.options.mode.stripsPaths with
      | true =>
        have hmode : B.options.mode = .production := by
          cases hm : B.options.mode with
          | debug =>
            rw [hm] at hs
            cases hs
          | production => rfl
        have hnodup := h.hashes hmode
        rw [← hhashes] at hnodup
        exact List.Nodup.of_map Prod.fst (by rw [List.map_map]; exact hnodup)
      | false =>
        have hpaths : (listedEntries B.options.mode (entryTable D 0 assets)).map TocEntry.path =
            assets.map Asset.path := by
          rw [listedEntries, hs, if_neg (by decide)]
          exact (map_path_entryTable 0 assets).1
        have hnodup := h.paths
        rw [← hpaths] at hnodup
        exact List.Nodup.of_map Prod.snd (by rw [List.map_map]; exact hnodup)

/-! ## The whole archive -/

/-- The open archive of these assets. -/
def packedArchive (D : Dependencies) (B : Sealing) (assets : List Asset)
    (limits : ArchiveLimits) : Archive where
  entries := listedEntries B.options.mode (entryTable D 0 assets)
  chunks := packChunks D B assets
  index := buildIndex D (listedEntries B.options.mode (entryTable D 0 assets))
  chunkSize := UInt32.ofNat B.options.chunkSize
  alignment := B.options.alignment
  pathsStripped := B.options.mode.stripsPaths
  protection := B.options.protection
  aeadKey := aeadKeyFor D B.options.protection B.key
  maxChunksPerOperation := limits.maxChunksPerOperation

theorem assemble_packHeader (limits : ArchiveLimits) :
    assemble D limits B.key (packHeader D B assets toc stored)
        (listedEntries B.options.mode (entryTable D 0 assets)) (packChunks D B assets) =
      packedArchive D B assets limits := by
  rw [assemble, protection_packHeader, pathsStripped_packHeader]
  rfl

/-- **The table of contents is opened** when the limits on its records are kept. -/
theorem Archived.openToc_iff (hL : D.Lz4Lawful) (hA : D.AeadLawful)
    (h : Archived D B assets toc block stored) {a : Archive} :
    openToc D .permissiveV1 B.key (packHeader D B assets toc stored) stored = .ok a ↔
      (storedPathBytes B.options.mode assets ≤ ArchiveLimits.hardMaxTotalPathBytes ∧
        contentSize assets ≤ ArchiveLimits.hardMaxTotalDecompressedBytes ∧
        ∀ hash, ((assets.map Asset.path).countP fun q => decide (pathHash D q = hash)) ≤
          ArchiveLimits.hardMaxIdentifierBucketEntries) ∧
      (∀ a ∈ assets, FullButLast B.options.chunkSize (a.blocks.map Block.content)) ∧
      a = packedArchive D B assets .permissiveV1 := by
  obtain ⟨-, -, -, -, -, hraw⟩ := h.numbers
  have hblock := h.unprotectToc_eq hA
  have hplain := hL.decompress_compress h.toc.compressed
  rw [openToc_eq_ok_iff, protection_packHeader, pathsStripped_packHeader, hraw,
    layout_packHeader]
  constructor
  · rintro ⟨block', plain, entries, chunks, hb, hd, -, -, ht, hl, hi, rfl⟩
    cases hblock.symm.trans hb
    cases hplain.symm.trans hd
    obtain ⟨rfl, rfl, hpaths⟩ := h.of_decodeToc ht
    obtain ⟨htotal, hfull⟩ := (h.validLayout_iff hL hA _).mp hl
    exact ⟨⟨hpaths, htotal, h.distinctEntries_iff.mp hi⟩, hfull, assemble_packHeader _⟩
  · rintro ⟨⟨hpaths, htotal, hbucket⟩, hfull, rfl⟩
    have hl := (h.validLayout_iff hL hA
      (ArchiveLimits.maxTotalDecompressedBytes .permissiveV1)).mpr ⟨htotal, hfull⟩
    refine ⟨block, toc, _, _, hblock, hplain, rfl, rfl, h.decodeToc_eq le_rfl hpaths ?_, hl,
      h.distinctEntries_iff.mpr hbucket, (assemble_packHeader _).symm⟩
    -- no asset is larger than all of them together, and both limits are the same
    exact fun e he => (hl.entry e he).originalSize_le.trans hl.total_le

section

variable {W : Type} {R : RandomAccessRead W} {P : W → Prop} {w : W} {a : Archive}

/-- The stored table of contents in the bytes of an archive, whatever its header. -/
theorem Archived.extract_stored (h : Archived D B assets toc block stored) {front : Bytes}
    (hfront : front.length = headerSize) : (front ++ payload B assets stored).extract
      (tocStart B assets) (tocStart B assets + stored.length) = stored := by
  have hpos : 0 < B.alignment := Nat.pos_of_isPowerOfTwo h.valid.alignment_pow
  have hbody := @length_body B.alignment headerSize (allBlocks assets) hpos
  have hstart := le_alignedAt hpos (bodyEnd B.alignment headerSize (allBlocks assets))
  have hsplit : front ++ payload B assets stored =
      (front ++ (body B.alignment headerSize (allBlocks assets) ++ List.replicate
        (tocStart B assets - bodyEnd B.alignment headerSize (allBlocks assets)) 0)) ++ stored := by
    simp only [payload, List.append_assoc]
  have hlength : tocStart B assets =
      (front ++ (body B.alignment headerSize (allBlocks assets) ++ List.replicate
        (tocStart B assets - bodyEnd B.alignment headerSize (allBlocks assets)) 0)).length := by
    unfold tocStart at *
    simp only [List.length_append, List.length_replicate, hfront]
    omega
  rw [hsplit]
  exact extract_last hlength (by rw [← hlength])

/-- The header and the stored table of contents in the bytes of an archive. -/
theorem Archived.extract_image (h : Archived D B assets toc block stored) :
    (image D B assets toc stored).extract 0 headerSize =
        encodeHeader (packHeader D B assets toc stored) ∧
      (image D B assets toc stored).extract (tocStart B assets)
        (tocStart B assets + stored.length) = stored := by
  have hheader := length_encodeHeader (packHeader D B assets toc stored)
  refine ⟨?_, h.extract_stored hheader⟩
  rw [image, extract_append_of_le hheader.ge, extract_zero_length hheader.symm]

/-- **When an archive of the packer is opened**: it keeps to the hard limits, and all pieces of an
asset but the last are full. -/
theorem Archived.open_iff (hL : D.Lz4Lawful) (hA : D.AeadLawful)
    (h : Archived D B assets toc block stored) (hp : Presents R P (image D B assets toc stored))
    (hw : P w) :
    (openWithLimits D R B.key .permissiveV1 w).1 = .ok a ↔
      HardLimited D B.options.mode assets ∧
        (∀ a ∈ assets, FullButLast B.options.chunkSize (a.blocks.map Block.content)) ∧
        a = packedArchive D B assets .permissiveV1 := by
  obtain ⟨-, -, -, hoffset, hsize, -⟩ := h.numbers
  obtain ⟨hheader, hstored⟩ := h.extract_image
  have hlen := @length_image D B assets h.valid toc stored
  have hrange := h.checkTocRange_eq
  have hle : headerSize ≤ (image D B assets toc stored).length := by
    rw [image, List.length_append, length_encodeHeader]
    exact Nat.le_add_right _ _
  have htoc := @Archived.openToc_iff D B assets toc block stored hL hA h
  rw [openWithLimits_presents_iff hp hw, ArchiveLimits.clamped_permissiveV1]
  constructor
  · rintro ⟨-, -, header, hh, haccept, -, hopen⟩
    obtain rfl : header = packHeader D B assets toc stored :=
      encodeHeader_injective (hh.symm.trans hheader)
    rw [hoffset, hsize, hstored] at hopen
    obtain ⟨hentries, hchunks⟩ := h.acceptedHeader_iff.mp haccept
    obtain ⟨⟨hpaths, htotal, hbucket⟩, hfull, ha⟩ := htoc.mp hopen
    exact ⟨⟨hentries, hchunks, hpaths, htotal, hbucket⟩, hfull, ha⟩
  · rintro ⟨hlimits, hfull, ha⟩
    refine ⟨h.key, hle, packHeader D B assets toc stored, hheader,
      h.acceptedHeader_iff.mpr ⟨hlimits.entries_le, hlimits.chunks_le⟩, hrange, ?_⟩
    rw [hoffset, hsize, hstored]
    exact htoc.mpr ⟨⟨hlimits.paths_le, hlimits.total_le, hlimits.bucket_le⟩, hfull, ha⟩

end

end RasenArchive
