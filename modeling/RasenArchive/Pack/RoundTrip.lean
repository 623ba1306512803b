import RasenArchive.Pack.Opening

/-!
# Reading back what was packed

The blocks of a packed archive open to the pieces they were made from, so that each entry decodes
to the pieces of its asset. With readers that deliver files, the opened archive lists the files and
reads return their bytes.

## Main definitions

* `FilesLimited D options files`: the files keep to the hard limits of the reader
* `IsEntryOf D mode file e`: the entry is that of the file

## Main results

* `Archived.chunkContent_eq`: the content of each chunk
* `pack_open_read`: packing, opening and reading give the files back
* `pack_open_iff`: a packed archive is opened exactly when its files keep to the hard limits
-/

namespace RasenArchive

variable {D : Dependencies} {B : Sealing} {assets : List Asset} {toc block stored : Bytes}
  {limits : ArchiveLimits}

/-! ## Contents of chunks -/

/-- A sealed block opens to its content. -/
theorem Sealing.Seals.openBlock_eq (hL : D.Lz4Lawful) (hA : D.AeadLawful) {g : ℕ} {b : Block}
    (h : B.Seals D g b) {c : Chunk} (hsize : c.originalSize.toNat = b.content.length)
    (hflag : c.compressed = b.compressed) :
    openBlock D (aeadKeyFor D B.options.protection B.key) c g b.stored = .ok b.content := by
  have hplain : decryptBlock D (aeadKeyFor D B.options.protection B.key) g b.stored =
      .ok b.plain := by
    cases hp : B.options.protection with
    | xor =>
      rw [(Sealing.protects_xor_iff hp).mp h.stored]
      rfl
    | aead => exact h.stored.decrypt_eq hA hp
  obtain ⟨lz4, hlz4, hform⟩ := h.plain
  have hcontent : contentOf D c b.plain = .ok b.content := by
    unfold contentOf
    unfold plainForm at hform
    rw [hflag, hsize]
    split_ifs at hform with hshort
    · obtain ⟨hp, hc⟩ := Prod.mk.inj hform
      rw [hc, if_pos rfl, hp]
      exact (decompressExact_eq_ok_iff D).mpr ⟨hL.decompress_compress hlz4, rfl⟩
    · obtain ⟨hp, hc⟩ := Prod.mk.inj hform
      rw [hc, if_neg (by decide), hp, ensure_of rfl]
      rfl
  rw [openBlock, hplain, ok_bind, hcontent]

/-- How many bytes of the file hold a sealed block. -/
theorem Sealing.Seals.blockLength_eq {g : ℕ} {b : Block} (h : B.Seals D g b) {c : Chunk}
    (hsize : c.originalSize.toNat = b.content.length)
    (hstored : c.storedSize.toNat = b.stored.length) (hflag : c.compressed = b.compressed) :
    blockLength (packedArchive D B assets limits) c = b.stored.length := by
  unfold blockLength
  split_ifs with hraw
  · obtain ⟨hkey, hcompressed⟩ := hraw
    have hp : B.options.protection = .xor := by
      cases hp : B.options.protection with
      | xor => rfl
      | aead =>
        have hkey' : aeadKeyFor D B.options.protection B.key = none := hkey
        rw [hp] at hkey'
        cases hkey'
    obtain ⟨lz4, -, hform⟩ := h.plain
    -- without a key and a compressed form, the block is stored as it is
    have hplain : b.plain = b.content := by
      unfold plainForm at hform
      split_ifs at hform with hshort
      · rw [hflag, (Prod.mk.inj hform).2] at hcompressed
        cases hcompressed
      · exact (Prod.mk.inj hform).1
    rw [hsize, (Sealing.protects_xor_iff hp).mp h.stored, hplain]
  · exact hstored

/-- **The content of each chunk** of an archive is the piece it was made from. -/
theorem Archived.chunkContent_eq (hL : D.Lz4Lawful) (hA : D.AeadLawful)
    (h : Archived D B assets toc block stored) {g : ℕ} {b : Block}
    (hg : (allBlocks assets)[g]? = some b) :
    chunkContent D (packedArchive D B assets limits) (image D B assets toc stored) g =
      some b.content := by
  have hpos : 0 < B.alignment := Nat.pos_of_isPowerOfTwo h.valid.alignment_pow
  have hseals := h.seals g b hg
  obtain ⟨c, hc, hdesc⟩ := h.describes hg
  have hlen := @Sealing.Seals.blockLength_eq D B assets limits g b hseals c hdesc.originalSize
    hdesc.storedSize hdesc.compressed
  have hopen := hseals.openBlock_eq hL hA hdesc.originalSize hdesc.compressed
  have hstop := ((@chunkTable_ordered D B.alignment headerSize hpos _ h.offset_lt).2 c
    (List.mem_of_getElem? hc)).2.2
  have hbody := le_alignedAt hpos (bodyEnd B.alignment headerSize (allBlocks assets))
  have htotal := @length_image D B assets h.valid toc stored
  have hget : getRange (image D B assets toc stored) c.offset.toNat
      (c.offset.toNat + b.stored.length) = some b.stored := by
    rw [getRange_eq_some_iff, ← hdesc.storedSize]
    refine ⟨⟨Nat.le_add_right _ _, ?_⟩, hdesc.bytes⟩
    rw [htotal, packSummary]
    exact (hstop.trans hbody).trans (Nat.le_add_right _ _)
  have hchunk : (packedArchive D B assets limits).chunks[g]? = some c := hc
  have hkey : (packedArchive D B assets limits).aeadKey =
    aeadKeyFor D B.options.protection B.key := rfl
  simp only [chunkContent, hchunk, Option.bind_eq_bind, Option.bind_some, hlen, hget, hkey, hopen,
    Except.toOption, hdesc.checksum, if_true]

/-- **Each entry decodes** to the pieces of its asset. -/
theorem Archived.decodes (hL : D.Lz4Lawful) (hA : D.AeadLawful)
    (h : Archived D B assets toc block stored) {front back : List Asset} {a : Asset}
    (happ : assets = front ++ a :: back) {e : Entry}
    (he : e.firstChunk = UInt32.ofNat (allBlocks front).length ∧
      e.chunkCount = UInt32.ofNat a.blocks.length) :
    Decodes D (packedArchive D B assets limits) (image D B assets toc stored) e
      (a.blocks.map Block.content) := by
  have hcount := h.blocks_lt
  rw [happ, allBlocks_append_cons, List.length_append, List.length_append] at hcount
  obtain ⟨hfirst, hchunks⟩ := @toNat_assetEntry D (allBlocks front).length a (by omega)
  refine ⟨?_, fun i hi => ?_⟩
  · rw [he.2, List.length_map]
    exact hchunks.symm
  · rw [List.length_map] at hi
    have hg : (allBlocks assets)[(allBlocks front).length + i]? = some a.blocks[i] := by
      rw [happ, allBlocks_append_cons, List.getElem?_append_right (Nat.le_add_right _ _),
        Nat.add_sub_cancel_left, List.getElem?_append_left hi, List.getElem?_eq_getElem hi]
    have hnumber : e.firstChunk.toNat = (allBlocks front).length := by
      rw [he.1]
      exact hfirst
    rw [hnumber, h.chunkContent_eq hL hA hg, List.getElem_map]

/-! ## Files and their assets -/

/-- The asset is that of the file: under its normal path, with the pieces of its bytes. -/
structure Asset.OfFile (chunkSize : ℕ) (file : InputFile) (a : Asset) : Prop where
  path : normalizePath file.path = .ok a.path
  pieces : a.blocks.map Block.content = cut chunkSize file.data

/-- The assets of a run are those of the files that its readers deliver. -/
theorem Packed.ofFiles {files : List InputFile} {inputs : List Input}
    (hfeeds : List.Forall₂ Feeds files inputs) (h : Packed D B inputs assets toc block stored) :
    List.Forall₂ (Asset.OfFile B.options.chunkSize) files assets := by
  have hpos := h.valid.chunkSize_pos
  have hinputs := h.inputs
  clear h
  induction hfeeds generalizing assets with
  | nil =>
    cases hinputs
    exact .nil
  | cons hfeed _ ih =>
    cases hinputs with
    | cons ha hassets =>
      refine .cons ⟨?_, ?_⟩ (ih hassets)
      · rw [← hfeed.path]
        exact ha.path
      · exact ha.fills.unique (hfeed.delivers.fills hpos)

/-- The length of the normal form of a path. -/
def normalLength (path : String) : ℕ :=
  match normalizePath path with
  | .ok normal => normal.utf8ByteSize
  | .error _ => 0

/-- **The files keep to the hard limits** of the reader. -/
structure FilesLimited (D : Dependencies) (options : PackOptions) (files : List InputFile) :
    Prop where
  entries_le : files.length ≤ ArchiveLimits.hardMaxEntries
  chunks_le : (files.map fun file =>
    (file.data.length + options.chunkSize - 1) / options.chunkSize).sum ≤
      ArchiveLimits.hardMaxChunks
  paths_le : options.mode = .debug → (files.map fun file => normalLength file.path).sum ≤
    ArchiveLimits.hardMaxTotalPathBytes
  total_le : (files.map fun file => file.data.length).sum ≤
    ArchiveLimits.hardMaxTotalDecompressedBytes
  bucket_le : ∀ hash, (files.countP fun file => decide (hashPath D file.path = .ok hash)) ≤
    ArchiveLimits.hardMaxIdentifierBucketEntries

section Files

variable {files : List InputFile} (h : List.Forall₂ (Asset.OfFile B.options.chunkSize) files assets)

include h

theorem exists_asset_of_mem {file : InputFile} (hfile : file ∈ files) :
    ∃ a ∈ assets, Asset.OfFile B.options.chunkSize file a := by
  obtain ⟨i, hi, rfl⟩ := List.mem_iff_getElem.mp hfile
  exact ⟨_, List.getElem_mem (h.length_eq ▸ hi), h.get hi (h.length_eq ▸ hi)⟩

theorem exists_file_of_mem {a : Asset} (ha : a ∈ assets) :
    ∃ file ∈ files, Asset.OfFile B.options.chunkSize file a := by
  obtain ⟨i, hi, rfl⟩ := List.mem_iff_getElem.mp ha
  exact ⟨_, List.getElem_mem (h.length_eq.symm ▸ hi), h.get (h.length_eq.symm ▸ hi) hi⟩

/-- The pieces of a file are full but the last. -/
theorem fullButLast_ofFiles (hpos : 0 < B.options.chunkSize) :
    ∀ a ∈ assets, FullButLast B.options.chunkSize (a.blocks.map Block.content) := by
  intro a ha
  obtain ⟨file, -, hfile⟩ := exists_file_of_mem h ha
  rw [hfile.pieces]
  exact cut_fullButLast hpos _

/-- A number of each asset that is a number of its file has the same sum. -/
theorem sum_map_ofFiles {f : InputFile → ℕ} {g : Asset → ℕ}
    (hfg : ∀ file a, Asset.OfFile B.options.chunkSize file a → f file = g a) :
    (files.map f).sum = (assets.map g).sum := by
  induction h with
  | nil => rfl
  | cons ha _ ih => rw [List.map_cons, List.map_cons, List.sum_cons, List.sum_cons, hfg _ _ ha, ih]

theorem countP_ofFiles (hash : UInt64) :
    (files.countP fun file => decide (hashPath D file.path = .ok hash)) =
      (assets.map Asset.path).countP fun q => decide (pathHash D q = hash) := by
  induction h with
  | nil => rfl
  | @cons file a files assets ha _ ih =>
    have hhash : hashPath D file.path = .ok (pathHash D a.path) := by
      rw [hashPath, ha.path]
      rfl
    rw [List.map_cons, List.countP_cons, List.countP_cons, ih, hhash]
    simp only [Except.ok.injEq]

/-- The numbers of the files are those of their assets. -/
theorem numbers_ofFiles (hpos : 0 < B.options.chunkSize) :
    files.length = assets.length ∧
      (files.map fun file =>
        (file.data.length + B.options.chunkSize - 1) / B.options.chunkSize).sum =
        (allBlocks assets).length ∧
      (files.map fun file => normalLength file.path).sum =
        (assets.map fun a => a.path.utf8ByteSize).sum ∧
      (files.map fun file => file.data.length).sum = contentSize assets := by
  refine ⟨h.length_eq, ?_, ?_, ?_⟩
  · rw [allBlocks, List.length_flatMap]
    refine sum_map_ofFiles h fun file a ha => ?_
    rw [← length_cut hpos, ← ha.pieces, List.length_map]
  · refine sum_map_ofFiles h fun file a ha => ?_
    rw [normalLength, ha.path]
  · have hflat : contentSize assets =
        (assets.map fun a => (a.blocks.map fun b => b.content.length).sum).sum := by
      rw [contentSize, allBlocks, List.map_flatMap, List.flatMap_def, List.sum_flatten,
        List.map_map]
      rfl
    rw [hflat]
    refine sum_map_ofFiles h fun file a ha => ?_
    rw [← flatten_cut hpos file.data, ← ha.pieces, List.length_flatten, List.map_map]
    rfl

/-- **The limits on the files** are those on their assets. -/
theorem filesLimited_iff (hpos : 0 < B.options.chunkSize) :
    FilesLimited D B.options files ↔ HardLimited D B.options.mode assets := by
  obtain ⟨hlength, hchunks, hpaths, htotal⟩ := numbers_ofFiles h hpos
  have hmode : B.options.mode = .debug ↔ B.options.mode.stripsPaths = false := by
    cases B.options.mode <;> simp [PackMode.stripsPaths]
  constructor
  · rintro ⟨h₁, h₂, h₃, h₄, h₅⟩
    refine ⟨hlength ▸ h₁, hchunks ▸ h₂, ?_, htotal ▸ h₄, fun hash => ?_⟩
    · unfold storedPathBytes
      split_ifs with hs
      · exact Nat.zero_le _
      · rw [← hpaths]
        exact h₃ (hmode.mpr (by simpa using hs))
    · rw [← countP_ofFiles h]
      exact h₅ hash
  · rintro ⟨h₁, h₂, h₃, h₄, h₅⟩
    refine ⟨hlength.symm ▸ h₁, hchunks.symm ▸ h₂, fun hdebug => ?_, htotal.symm ▸ h₄,
      fun hash => ?_⟩
    · rw [storedPathBytes, hmode.mp hdebug, if_neg (by decide), ← hpaths] at h₃
      exact h₃
    · rw [countP_ofFiles h]
      exact h₅ hash

/-- The entry is that of the file: its normal path where paths are kept, its hash and its size. -/
def IsEntryOf (D : Dependencies) (mode : PackMode) (file : InputFile) (e : Entry) : Prop :=
  ∃ q, normalizePath file.path = .ok q ∧ e.path = (if mode.stripsPaths then "" else q) ∧
    e.pathHash = checksum D (asBytes q) ∧ e.originalSize.toNat = file.data.length

/-- **The listed entries** are those of the files. -/
theorem forall₂_listedEntries (hpos : 0 < B.options.chunkSize)
    (hsizes : ∀ a ∈ assets, a.totals.original < 2 ^ 64) (first : ℕ) :
    List.Forall₂ (IsEntryOf D B.options.mode) files
      (listedEntries B.options.mode (entryTable D first assets)) := by
  induction h generalizing first with
  | nil =>
    rw [listedEntries, entryTable]
    split_ifs <;> exact .nil
  | @cons file a files assets ha _ ih =>
    rw [List.forall_mem_cons] at hsizes
    have hcons : listedEntries B.options.mode (entryTable D first (a :: assets)) =
        { assetEntry D first a with path := if B.options.mode.stripsPaths then "" else a.path } ::
          listedEntries B.options.mode (entryTable D (first + a.blocks.length) assets) := by
      unfold listedEntries
      cases B.options.mode.stripsPaths <;> rfl
    have hsize : (a.blocks.map fun b => b.content.length).sum = file.data.length := by
      rw [← flatten_cut hpos file.data, ← ha.pieces, List.length_flatten, List.map_map]
      rfl
    have hlt := hsizes.1
    simp only [Asset.totals, Totals.add, Nat.zero_add, hsize] at hlt
    rw [hcons]
    refine .cons ⟨a.path, ha.path, rfl, rfl, ?_⟩ (ih hsizes.2 _)
    rw [assetEntry, hsize]
    exact UInt64.toNat_ofNat_of_lt' hlt

end Files

/-! ## The round trip -/

section RoundTrip

variable {W : Type} {R : RandomAccessRead W} {P : W → Prop} {w : W} {a : Archive}
  {path q : String}

/-- A valid path that no entry matches is not found. -/
theorem entry_notFound (h : WellFormed D a) (hq : normalizePath path = .ok q)
    (hnone : ∀ e ∈ a.entries, ¬ Matches D a.pathsStripped q e) :
    entry D a path = failWith (.notFound q) := by
  have hfind := (findEntryIndexNormalized_eq_error_iff h).mpr ⟨rfl, hnone⟩
  rw [entry, locate, normalizeLookupPath, hq, ok_bind, hfind]
  rfl

/-- **Reading an asset** of an open archive gives its pieces. -/
theorem Archived.read_asset (hL : D.Lz4Lawful) (hA : D.AeadLawful)
    (h : Archived D B assets toc block stored) (hp : Presents R P (image D B assets toc stored))
    (hwell : WellFormed D (packedArchive D B assets .permissiveV1))
    (hin : HoldsBlocks (packedArchive D B assets .permissiveV1) (image D B assets toc stored))
    (hlimits : HardLimited D B.options.mode assets) {x : Asset} (hx : x ∈ assets)
    (hpath : normalizePath path = .ok x.path) :
    Fallible.Settles P (read D R (packedArchive D B assets .permissiveV1) path)
      (.ok (x.blocks.map Block.content).flatten) := by
  obtain ⟨front, back, happ⟩ := List.append_of_mem hx
  have hcount := hlimits.chunks_le
  have hblocks := h.blocks_lt
  rw [happ, allBlocks_append_cons, List.length_append, List.length_append] at hcount hblocks
  -- the entry of the asset, with its path or without
  have hmem : { assetEntry D (allBlocks front).length x with
      path := if B.options.mode.stripsPaths then "" else x.path } ∈
      listedEntries B.options.mode (entryTable D 0 assets) :=
    mem_listedEntries.mpr ⟨front, x, back, happ, rfl⟩
  have he : EntryOf D (packedArchive D B assets .permissiveV1) path
      { assetEntry D (allBlocks front).length x with
        path := if B.options.mode.stripsPaths then "" else x.path } := by
    refine ⟨x.path, hpath, hmem, ?_⟩
    show if B.options.mode.stripsPaths = true then _ else _
    cases B.options.mode.stripsPaths <;> rfl
  have hd := @Archived.decodes D B assets toc block stored
    .permissiveV1 hL hA h front back x happ { assetEntry D (allBlocks front).length x with
      path := if B.options.mode.stripsPaths then "" else x.path } ⟨rfl, rfl⟩
  -- its number of chunks is within the hard limit
  refine read_eq hp hin hwell ((entry_eq_ok_iff hwell).mpr he) hd ?_
  have hnumber := (@toNat_assetEntry D (allBlocks front).length x (by omega)).2
  show (assetEntry D (allBlocks front).length x).chunkCount.toNat ≤ ArchiveLimits.hardMaxChunks
  omega

/-- **Packing, opening and reading** give the files back: the entries are those of the files in
their order, every file is read back, and in a debug archive no other path is found. The source is
any that presents the bytes of the archive, and opening and reading come to the same from each of
its states. -/
theorem pack_open_read (hL : D.Lz4Lawful) (hA : D.AeadLawful) {key : Bytes} {options : PackOptions}
    {entropy : Entropy} {d : Device} {files : List InputFile} {inputs : List Input}
    {summary : PackSummary} {env : PackEnv Device} (hfeeds : List.Forall₂ Feeds files inputs)
    (hpack : packReaders D deviceDestination key options inputs ⟨d, entropy⟩ = (.ok summary, env))
    (hlimits : FilesLimited D options files) (hp : Presents R P env.writer.bytes) (hw : P w) :
    ∃ a, Fallible.Settles P (openWithLimits D R key .permissiveV1) (.ok a) ∧
      List.Forall₂ (IsEntryOf D options.mode) files a.entries ∧
      (∀ file ∈ files, Fallible.Settles P (read D R a file.path) (.ok file.data)) ∧
      (options.mode = .debug → ∀ path q, normalizePath path = .ok q →
        (∀ file ∈ files, normalizePath file.path ≠ .ok q) →
        ∀ v, read D R a path v = (failWith (.notFound q), v)) := by
  obtain ⟨assets, toc, block, stored, hpacked, -, hbytes, -⟩ := packReaders_ok hpack
  rw [hbytes] at hp
  have hpos := hpacked.valid.chunkSize_pos
  have hfiles := hpacked.ofFiles hfeeds
  -- the archive that the run left, under limits that its files keep to
  have hhard := (filesLimited_iff hfiles hpos).mp hlimits
  have hsettles := openWithLimits_settles hp hw
    ((hpacked.open_iff hL hA hp hw).mpr ⟨hhard, fullButLast_ofFiles hfiles hpos, rfl⟩)
  obtain ⟨w', hopen, -⟩ := hsettles w hw
  have hwell := openWithLimits_wellFormed hopen
  have hin := holds_of_open hp hw hopen
  refine ⟨_, hsettles, forall₂_listedEntries hfiles hpos (fun a ha => (hpacked.sizes a ha).1) 0,
    fun file hfile => ?_, fun hdebug path q hq hnew => ?_⟩
  · -- a file is read back through its asset
    obtain ⟨x, hx, hof⟩ := exists_asset_of_mem hfiles hfile
    have hread := hpacked.read_asset hL hA hp hwell hin hhard hx hof.path
    rwa [hof.pieces, flatten_cut hpos] at hread
  · have hstripped : (packedArchive D ⟨key, options, entropy⟩ assets .permissiveV1).pathsStripped =
        false := by
      show options.mode.stripsPaths = false
      rw [hdebug]
      rfl
    intro v
    -- a path that is listed is the normal path of a file
    refine (failsEverywhere hwell (entry_notFound hwell hq fun e he hm => ?_)).1 v
    have hpath := (matches_iff_of_paths hwell hstripped he).mp hm
    obtain ⟨front, x, back, happ, rfl⟩ := mem_listedEntries.mp he
    obtain ⟨file, hfile, hof⟩ := exists_file_of_mem hfiles (show x ∈ assets by rw [happ]; simp)
    refine hnew file hfile (hof.path.trans ?_)
    rw [← hpath]
    show _ = Except.ok (if options.mode.stripsPaths then "" else _)
    rw [hdebug]
    rfl

/-- **A packed archive is opened** under the largest limits exactly when its files keep to the hard
limits. -/
theorem pack_open_iff (hL : D.Lz4Lawful) (hA : D.AeadLawful) {key : Bytes} {options : PackOptions}
    {entropy : Entropy} {d : Device} {files : List InputFile} {inputs : List Input}
    {summary : PackSummary} {env : PackEnv Device} (hfeeds : List.Forall₂ Feeds files inputs)
    (hpack : packReaders D deviceDestination key options inputs ⟨d, entropy⟩ = (.ok summary, env))
    (hp : Presents R P env.writer.bytes) (hw : P w) :
    (∃ a w', openWithLimits D R key .permissiveV1 w = (.ok a, w') ∧ P w') ↔
      FilesLimited D options files := by
  obtain ⟨assets, toc, block, stored, hpacked, -, hbytes, -⟩ := packReaders_ok hpack
  rw [hbytes] at hp
  have hpos := hpacked.valid.chunkSize_pos
  have hfiles := hpacked.ofFiles hfeeds
  have hlimits : FilesLimited D options files ↔ HardLimited D options.mode assets :=
    filesLimited_iff hfiles hpos
  rw [hlimits]
  constructor
  · rintro ⟨a, w', ha, -⟩
    exact ((hpacked.open_iff hL hA hp hw).mp (congrArg Prod.fst ha)).1
  · intro hhard
    exact ⟨_, openWithLimits_settles hp hw
      ((hpacked.open_iff hL hA hp hw).mpr ⟨hhard, fullButLast_ofFiles hfiles hpos, rfl⟩) w hw⟩

end RoundTrip

/-! ## A small run -/

/-- A run on one file of three bytes, in two reads, with chunks of two bytes. -/
def smallRun : Result PackSummary × PackEnv Device :=
  packReaders reference deviceDestination [7] ⟨2, 4, .debug, .xor⟩
    [⟨"./a", [.data [1], .interrupted, .data [2, 3]]⟩]
    ⟨Device.empty none none, ⟨fun _ => none, 0, []⟩⟩

theorem smallRun_ok : packReaders reference deviceDestination [7] ⟨2, 4, .debug, .xor⟩
    [⟨"./a", [.data [1], .interrupted, .data [2, 3]]⟩]
    ⟨Device.empty none none, ⟨fun _ => none, 0, []⟩⟩ = (.ok ⟨183, 1, 2⟩, smallRun.2) := by
  have hrun : smallRun.1 = .ok ⟨183, 1, 2⟩ := by decide +kernel
  rw [← smallRun]
  exact Prod.ext hrun rfl

theorem smallRun_feeds : List.Forall₂ Feeds [⟨"./a", [1, 2, 3]⟩]
    [⟨"./a", [.data [1], .interrupted, .data [2, 3]]⟩] :=
  .cons ⟨rfl, .data (by simp) (.interrupted rfl (.data (by simp) (.atEnd nofun)))⟩ .nil

theorem smallRun_limited :
    FilesLimited reference ⟨2, 4, .debug, .xor⟩ [⟨"./a", [1, 2, 3]⟩] where
  entries_le := by decide
  chunks_le := by decide
  paths_le _ := by decide +kernel
  total_le := by decide
  bucket_le _ := List.countP_le_length.trans (by decide)

/-- The file of the small run is read back under its path, and no other path is found. -/
theorem pack_open_read_small :
    ∃ a, openWithLimits reference sliceSource [7] .permissiveV1 smallRun.2.writer.bytes =
        (.ok a, smallRun.2.writer.bytes) ∧
      read reference sliceSource a "./a" smallRun.2.writer.bytes =
        (.ok [1, 2, 3], smallRun.2.writer.bytes) ∧
      read reference sliceSource a "b" smallRun.2.writer.bytes =
        (failWith (.notFound "b"), smallRun.2.writer.bytes) := by
  obtain ⟨a, hopen, -, hread, hnone⟩ := pack_open_read reference_lz4Lawful reference_aeadLawful
    smallRun_feeds smallRun_ok smallRun_limited (sliceSource_presents smallRun.2.writer.bytes) rfl
  refine ⟨a, Fallible.settles_eq_iff.mp hopen,
    Fallible.settles_eq_iff.mp (hread ⟨"./a", [1, 2, 3]⟩ List.mem_cons_self),
    hnone rfl "b" "b" (by decide +kernel) ?_ _⟩
  intro file hfile
  obtain rfl := List.mem_singleton.mp hfile
  decide +kernel

/-- The small run keeps to the hard limits. -/
theorem pack_open_iff_small :
    ∃ a, openWithLimits reference sliceSource [7] .permissiveV1 smallRun.2.writer.bytes =
      (.ok a, smallRun.2.writer.bytes) := by
  obtain ⟨a, w, hopen, hw⟩ := (pack_open_iff reference_lz4Lawful reference_aeadLawful
    smallRun_feeds smallRun_ok (sliceSource_presents smallRun.2.writer.bytes) rfl).mpr
    smallRun_limited
  rw [show w = smallRun.2.writer.bytes from hw] at hopen
  exact ⟨a, hopen⟩

end RasenArchive
