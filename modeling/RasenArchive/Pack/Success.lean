import RasenArchive.Pack.RoundTrip

/-!
# Runs that have to succeed

Where compression and encryption succeed, the destination does not fail and the table of contents
keeps to its size limits, a run over files with distinct paths succeeds. There is no other limit on
the packer, so it makes archives that no reader opens.

## Main definitions

* `rawTocSize options files`: the size of the raw table of contents

## Main results

* `Sealing.Ready.archived`: assets whose table of contents is not too large make up an archive
* `packReaders_of_ready`: a run that succeeds
* `pack_open_large`: an archive of the packer that is not opened
-/

namespace RasenArchive

variable {D : Dependencies} {B : Sealing} {assets : List Asset}

/-- Assets for some files, whose blocks are sealed from number `g` on. -/
theorem Sealing.Ready.seal_files (hready : B.Ready D) (hpos : 0 < B.options.chunkSize)
    {files : List InputFile} {normals : List String}
    (hnormals : List.Forall₂ (fun (file : InputFile) q => normalizePath file.path = .ok q) files
      normals) (g : ℕ) :
    ∃ assets : List Asset, List.Forall₂ (Asset.OfFile B.options.chunkSize) files assets ∧
      assets.map Asset.path = normals ∧
      ∀ i b, (allBlocks assets)[i]? = some b → B.Seals D (g + i) b := by
  induction hnormals generalizing g with
  | nil => exact ⟨[], .nil, rfl, fun i b hi => by cases hi⟩
  | @cons file q files normals hq _ ih =>
    obtain ⟨blocks, hcontents, hblocks⟩ := hready.seal_all (forall_mem_cut hpos file.data) g
    obtain ⟨assets, hfiles, rfl, hassets⟩ := ih (g + blocks.length)
    refine ⟨⟨q, blocks⟩ :: assets, .cons ⟨hq, hcontents⟩ hfiles, rfl, fun i b hi => ?_⟩
    have happ : allBlocks (⟨q, blocks⟩ :: assets) = blocks ++ allBlocks assets := rfl
    rw [happ] at hi
    rcases Nat.lt_or_ge i blocks.length with hlt | hge
    · rw [List.getElem?_append_left hlt] at hi
      exact hblocks i b hi
    · rw [List.getElem?_append_right hge] at hi
      have hb := hassets _ b hi
      rwa [Nat.add_assoc, Nat.add_sub_cancel' hge] at hb

/-- **Sealed blocks fit** one archive as long as their count does. -/
theorem Packable.of_seals (hA : D.AeadLawful) (hv : B.options.Valid)
    (hseals : ∀ g b, (allBlocks assets)[g]? = some b → B.Seals D g b)
    (hnormal : ∀ a ∈ assets, normalizePath a.path = .ok a.path)
    (hpaths : (assets.map Asset.path).Nodup)
    (hhashes : B.options.mode = .production → ((assets.map Asset.path).map (pathHash D)).Nodup)
    (hassets : assets.length < 2 ^ 32) (hblocks : (allBlocks assets).length < 2 ^ 32) :
    Packable D B assets := by
  refine ⟨hseals, bodyEnd_lt hA hv hseals hblocks, fun a ha => ?_, hnormal, hpaths, hhashes,
    hassets, hblocks⟩
  -- every block takes less than 2^27 bytes
  have hchunk : B.options.chunkSize ≤ 2 ^ 26 := hv.chunkSize_le
  have hsub : a.blocks.Sublist (allBlocks assets) := List.sublist_flatten_of_mem
    (List.mem_map_of_mem ha)
  have hlength := hsub.length_le
  have hmul : a.blocks.length * 2 ^ 27 ≤ 2 ^ 32 * 2 ^ 27 := Nat.mul_le_mul_right _ (by omega)
  -- the blocks of an asset are some of all blocks
  have hseal : ∀ b ∈ a.blocks, ∃ g, B.Seals D g b := by
    intro b hb
    obtain ⟨g, hg⟩ := List.getElem?_of_mem (List.mem_flatMap_of_mem ha hb : b ∈ allBlocks assets)
    exact ⟨g, hseals g b hg⟩
  have hcontents : (a.blocks.map fun b => b.content.length).sum ≤ a.blocks.length * 2 ^ 27 := by
    refine sum_map_le fun b hb => ?_
    obtain ⟨g, hg⟩ := hseal b hb
    have := hg.length_le
    omega
  have hstored : (a.blocks.map fun b => b.stored.length).sum ≤ a.blocks.length * 2 ^ 27 := by
    refine sum_map_le fun b hb => ?_
    obtain ⟨g, hg⟩ := hseal b hb
    have := hg.stored_le hA
    unfold aeadOverhead at this
    omega
  simp only [Asset.totals, Totals.add, Nat.zero_add]
  omega

/-- The size of the raw table of contents of some assets. -/
def rawTocLength (mode : PackMode) (assets : List Asset) : ℕ :=
  4 + tocEntryFixedSize * assets.length + storedPathBytes mode assets +
    tocChunkFixedSize * (allBlocks assets).length

/-- **Assets whose table of contents is not too large** make up an archive. -/
theorem Sealing.Ready.archived (hready : B.Ready D) (hkey : B.key ≠ []) (hv : B.options.Valid)
    (h : Packable D B assets) (hraw : rawTocLength B.options.mode assets ≤ maxTocRawSize)
    (hstored : D.getMaximumOutputSize (rawTocLength B.options.mode assets) + aeadOverhead ≤
      maxTocStoredSize) :
    ∃ toc block stored, Archived D B assets toc block stored := by
  -- the table that the packer encodes
  obtain ⟨toc, htoc⟩ : ∃ toc, toc = tocImage
    (listedEntries B.options.mode (entryTable D 0 assets))
    ((listedEntries B.options.mode (entryTable D 0 assets)).map fun e => asBytes e.path)
    (packChunks D B assets) := ⟨_, rfl⟩
  have hlength : toc.length = rawTocLength B.options.mode assets := by
    rw [htoc, length_tocImage _ _ _ (by rw [List.length_map]), length_listedEntries,
      sum_path_listedEntries, packChunks, length_chunkTable, rawTocLength]
  have hencoded : encodeToc (listedEntries B.options.mode (entryTable D 0 assets))
      (packChunks D B assets) = .ok toc := by
    -- normal paths are short enough to be encoded
    refine encodeToc_eq_ok_iff.mpr ⟨fun e he => ?_, hlength ▸ hraw, htoc⟩
    obtain ⟨front, a, back, happ, rfl⟩ := mem_listedEntries.mp he
    have hle := utf8ByteSize_le_maxPathLen (h.normal a (by rw [happ]; simp))
    show (if B.options.mode.stripsPaths = true then "" else a.path).utf8ByteSize ≤ _
    split_ifs
    · exact Nat.zero_le _
    · exact hle
  obtain ⟨block, hblock⟩ := hready.lz4.compress_ok toc _ le_rfl
  -- protection succeeds with the next nonce
  obtain ⟨stored, hprotects⟩ : ∃ stored,
      B.Protects D (allBlocks assets).length (B.maskToc block) tocAad stored := by
    unfold Sealing.Protects
    cases hp : B.options.protection with
    | xor => exact ⟨_, rfl⟩
    | aead =>
      obtain ⟨nonce, hn⟩ := hready.nonces hp (B.entropy.drawn + (allBlocks assets).length)
      obtain ⟨ciphertext, hct⟩ := hready.encrypts hp nonce (B.maskToc block) tocAad
      exact ⟨_, nonce, ciphertext, hn, hct, rfl⟩
  -- masking keeps the length
  have hmask : (B.maskToc block).length = block.length := by
    unfold Sealing.maskToc
    cases B.options.protection with
    | xor => exact length_xorBytes _ _
    | aead => rfl
  -- the stored table is at most as long as LZ4 and encryption make it
  have hle : stored.length ≤ maxTocStoredSize := by
    have h₁ := hprotects.length_le hready.aead
    have h₂ := D.compress_le hblock
    rw [hlength] at h₂
    omega
  refine ⟨toc, block, stored, h, hkey, hv, ⟨hencoded, hlength ▸ hraw, hblock, hprotects, hle⟩, ?_⟩
  have hpos : 0 < B.alignment := Nat.pos_of_isPowerOfTwo hv.alignment_pow
  have hsize : B.options.chunkSize + aeadOverhead + B.alignment ≤ 2 ^ 27 := by
    have := hv.chunkSize_le
    have := hv.alignment_le
    unfold aeadOverhead Sealing.alignment
    simp only [maxChunkSize, maxAlignment] at *
    omega
  -- the table lists the blocks, so the limit on it bounds their number
  have hblocks : (allBlocks assets).length ≤ 2 ^ 29 := by
    unfold rawTocLength tocChunkFixedSize maxTocRawSize at hraw
    omega
  have hend := @bodyEnd_le B.alignment (B.options.chunkSize + aeadOverhead) headerSize hpos
    (allBlocks assets) fun b hb => by
      obtain ⟨g, hg⟩ := List.getElem?_of_mem hb
      exact (h.seals g b hg).stored_le hready.aead
  -- the body is far below 2^64
  have hmul : (allBlocks assets).length * (B.options.chunkSize + aeadOverhead + B.alignment) ≤
      2 ^ 29 * 2 ^ 27 := Nat.mul_le_mul hblocks hsize
  have hstart := alignedAt_lt hpos (bodyEnd B.alignment headerSize (allBlocks assets))
  unfold tocStart
  simp only [headerSize, maxTocStoredSize] at *
  omega

/-- The size of the raw table of contents of some files. -/
def rawTocSize (options : PackOptions) (files : List InputFile) : ℕ :=
  4 + tocEntryFixedSize * files.length +
    (if options.mode.stripsPaths then 0 else (files.map fun file => normalLength file.path).sum) +
    tocChunkFixedSize * (files.map fun file =>
      (file.data.length + options.chunkSize - 1) / options.chunkSize).sum

/-- The numbers of files are those of assets with the same paths and pieces. -/
theorem rawTocSize_eq {files : List InputFile}
    (h : List.Forall₂ (Asset.OfFile B.options.chunkSize) files assets)
    (hpos : 0 < B.options.chunkSize) :
    rawTocSize B.options files = rawTocLength B.options.mode assets := by
  obtain ⟨hlength, hchunks, hpaths, -⟩ := numbers_ofFiles h hpos
  rw [rawTocSize, rawTocLength, storedPathBytes, hlength, hchunks, hpaths]

/-- **A run succeeds** over files with distinct normal paths, and distinct hashes in a production
archive, where compression and encryption succeed, the destination does not fail and the table of
contents is not too large. -/
theorem packReaders_of_ready {key : Bytes} {options : PackOptions} {entropy : Entropy} {d : Device}
    {files : List InputFile} {inputs : List Input} {normals : List String}
    (hready : Sealing.Ready D ⟨key, options, entropy⟩) (hkey : key ≠ []) (hv : options.Valid)
    (hempty : d.bytes = []) (hhealthy : d.Healthy) (hfeeds : List.Forall₂ Feeds files inputs)
    (hnormals : List.Forall₂ (fun (file : InputFile) q => normalizePath file.path = .ok q) files
      normals)
    (hnodup : normals.Nodup)
    (hhashes : options.mode = .production → (normals.map (pathHash D)).Nodup)
    (hraw : rawTocSize options files ≤ maxTocRawSize)
    (hstored : D.getMaximumOutputSize (rawTocSize options files) + aeadOverhead ≤
      maxTocStoredSize) :
    ∃ summary env, packReaders D deviceDestination key options inputs ⟨d, entropy⟩ =
      (.ok summary, env) := by
  have hpos := hv.chunkSize_pos
  -- the blocks that the run would store, sealed in their order
  obtain ⟨assets, hfiles, hpaths, hseals⟩ := hready.seal_files hpos hnormals 0
  simp only [Nat.zero_add] at hseals
  have hlength : rawTocSize options files = rawTocLength options.mode assets :=
    rawTocSize_eq hfiles hpos
  rw [hlength] at hraw hstored
  -- the limit on the table bounds the counts
  have hcounts : assets.length < 2 ^ 32 ∧ (allBlocks assets).length < 2 ^ 32 := by
    unfold rawTocLength tocEntryFixedSize tocChunkFixedSize maxTocRawSize at hraw
    omega
  have hnormal : ∀ a ∈ assets, normalizePath a.path = .ok a.path := by
    intro a ha
    obtain ⟨file, -, hof⟩ := exists_file_of_mem hfiles ha
    exact normalizePath_idempotent hof.path
  have hpackable := Packable.of_seals hready.aead hv hseals hnormal (hpaths.symm ▸ hnodup)
    (fun hmode => hpaths.symm ▸ hhashes hmode) hcounts.1 hcounts.2
  obtain ⟨toc, block, stored, harchived⟩ := hready.archived hkey hv hpackable hraw hstored
  -- the readers give the pieces of the assets
  have hinputs : List.Forall₂ (Asset.Of options.chunkSize) inputs assets := by
    clear * - hfeeds hfiles hpos
    induction hfeeds generalizing assets with
    | nil =>
      cases hfiles
      exact .nil
    | cons hfeed _ ih =>
      cases hfiles with
      | cons hof hrest =>
        refine .cons ⟨hfeed.path ▸ hof.path, ?_⟩ (ih _ hrest)
        rw [hof.pieces]
        exact hfeed.delivers.fills hpos
  -- and packing an archive from these assets succeeds
  obtain ⟨env, hrun, -⟩ := packReaders_of_packed hempty hhealthy ⟨harchived, hinputs⟩
  exact ⟨_, env, hrun⟩

/-- **A file that is too large** for every reader: the run on it succeeds, and the reader refuses
what it left even under the largest limits. -/
theorem exists_unopened {data : Bytes} (hdata : data.length = 2 ^ 33 + 1) :
    ∃ summary env, packReaders reference deviceDestination [7] ⟨2 ^ 26, 16, .debug, .xor⟩
        [⟨"a", [.data data]⟩] ⟨Device.empty none none, ⟨fun _ => none, 0, []⟩⟩ =
          (.ok summary, env) ∧
      ∀ a, openWithLimits reference sliceSource [7] .permissiveV1 env.writer.bytes ≠
        (.ok a, env.writer.bytes) := by
  have hv : PackOptions.Valid ⟨2 ^ 26, 16, .debug, .xor⟩ :=
    ⟨by decide, by decide, by decide, by decide⟩
  have hready : Sealing.Ready reference ⟨[7], ⟨2 ^ 26, 16, .debug, .xor⟩, ⟨fun _ => none, 0, []⟩⟩ :=
    ⟨reference_lz4Lawful, reference_aeadLawful, nofun, nofun⟩
  have hfeeds : List.Forall₂ Feeds [⟨"a", data⟩] [⟨"a", [.data data]⟩] := by
    refine .cons ⟨rfl, ?_⟩ .nil
    have hne : data ≠ [] := by
      rw [← List.length_pos_iff, hdata]
      decide
    have hdelivers : Delivers [.data data] (data ++ []) := .data hne (.atEnd nofun)
    rwa [List.append_nil] at hdelivers
  have hnormal : normalizePath "a" = .ok "a" := by decide +kernel
  have hsize : rawTocSize ⟨2 ^ 26, 16, .debug, .xor⟩ [⟨"a", data⟩] = 4685 := by
    unfold rawTocSize normalLength
    simp only [List.map_singleton, List.sum_singleton, hdata, hnormal]
    rfl
  obtain ⟨summary, env, hrun⟩ := packReaders_of_ready hready (by decide) hv
    (show (Device.empty none none).bytes = [] from rfl) ⟨rfl, rfl⟩ hfeeds (.cons hnormal .nil)
    (List.nodup_singleton _) nofun (by rw [hsize]; decide) (by rw [hsize]; decide)
  refine ⟨summary, env, hrun, fun a ha => ?_⟩
  -- opening it would need the size within the hard limit
  obtain ⟨assets, toc, block, stored, hpacked, -, hbytes, -⟩ := packReaders_ok hrun
  have hpresents := sliceSource_presents env.writer.bytes
  have hfiles := hpacked.ofFiles hfeeds
  rw [hbytes] at hpresents ha
  have htotal := ((hpacked.open_iff reference_lz4Lawful reference_aeadLawful hpresents rfl).mp
    (congrArg Prod.fst ha)).1.total_le
  -- all assets together are as large as the one file
  rw [← (numbers_ofFiles hfiles (show 0 < 2 ^ 26 by decide)).2.2.2] at htotal
  simp only [List.map_singleton, List.sum_singleton, hdata] at htotal
  exact absurd htotal (by decide)

/-- **An archive that is not opened**: that of a file of 8 GiB and one byte. -/
theorem pack_open_large :
    ∃ summary env, packReaders reference deviceDestination [7] ⟨2 ^ 26, 16, .debug, .xor⟩
        [⟨"a", [.data (List.replicate (2 ^ 33 + 1) 0)]⟩]
        ⟨Device.empty none none, ⟨fun _ => none, 0, []⟩⟩ = (.ok summary, env) ∧
      ∀ a, openWithLimits reference sliceSource [7] .permissiveV1 env.writer.bytes ≠
        (.ok a, env.writer.bytes) :=
  exists_unopened List.length_replicate

end RasenArchive
