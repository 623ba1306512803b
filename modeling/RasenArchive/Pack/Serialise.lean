import RasenArchive.Pack.Run

/-!
# The serialisation of an XOR archive

In XOR mode the bytes of an archive are a function of the key, the options and the files: the
pieces that each file is cut into, in order, whatever the sizes of the reads that delivered them.

## Main definitions

* `InputFile`: a path and its bytes
* `serialise D key options files`: the archive of these files and its summary
* `Feeds file input`: the reader of the input delivers the bytes of the file

## Main results

* `serialise_of_packed`: the archive of a run is the serialisation of its files
* `xor_packing`: a run that succeeds leaves the serialisation of its files
-/

namespace RasenArchive

structure InputFile where
  path : String
  data : Bytes
  deriving DecidableEq

variable (D : Dependencies)

/-- The LZ4 form of a piece where it is shorter than the piece, and otherwise the piece itself. -/
def lz4Form (options : PackOptions) (piece : Bytes) : Bytes × Bool :=
  match D.compressInto piece (D.getMaximumOutputSize options.chunkSize) with
  | .ok block => plainForm piece block
  | .error _ => (piece, false)

/-- The block of a piece. -/
def pieceBlock (options : PackOptions) (piece : Bytes) : Block :=
  ⟨piece, (lz4Form D options piece).1, (lz4Form D options piece).1, (lz4Form D options piece).2⟩

/-- The asset of a file: one block for each piece of its bytes. -/
def fileAsset (options : PackOptions) (file : InputFile) : Result Asset := do
  let path ← normalizePath file.path
  pure ⟨path, (cut options.chunkSize file.data).map (pieceBlock D options)⟩

/-- What an XOR archive is sealed with. -/
def xorSealing (key : Bytes) (options : PackOptions) : Sealing :=
  ⟨key, options, ⟨fun _ => none, 0, []⟩⟩

/-- **The serialisation** of an XOR archive, with its summary. -/
def serialise (key : Bytes) (options : PackOptions) (files : List InputFile) :
    Result (Bytes × PackSummary) := do
  let assets ← files.mapM (fileAsset D options)
  let B := xorSealing key options
  let toc ← encodeToc (listedEntries options.mode (entryTable D 0 assets)) (packChunks D B assets)
  match D.compressInto toc (D.getMaximumOutputSize toc.length) with
  | .error message => failWith (.lz4 message)
  | .ok block => pure (image D B assets toc (xorBytes block key),
      packSummary B assets (xorBytes block key))

/-- The input has the path of the file, and its reader delivers the bytes of the file. -/
structure Feeds (file : InputFile) (input : Input) : Prop where
  path : input.path = file.path
  delivers : Delivers input.reader file.data

variable {D} {B : Sealing}

/-! ## Blocks -/

theorem Sealing.protects_xor_iff (hp : B.options.protection = .xor) {g : ℕ}
    {plain aad stored : Bytes} : B.Protects D g plain aad stored ↔ stored = plain := by
  unfold Sealing.Protects
  rw [hp]

/-- A sealed block of an XOR archive is that of its content. -/
theorem Sealing.Seals.eq_pieceBlock (hp : B.options.protection = .xor) {g : ℕ} {b : Block}
    (h : B.Seals D g b) : b = pieceBlock D B.options b.content := by
  obtain ⟨block, hc, hform⟩ := h.plain
  have hstored := (Sealing.protects_xor_iff hp).mp h.stored
  have hlz4 : lz4Form D B.options b.content = (b.plain, b.compressed) := by
    rw [Sealing.capacity] at hc
    rw [lz4Form, hc, hform]
  cases b
  simp only at hstored hlz4
  rw [pieceBlock, hlz4, hstored]

theorem map_pieceBlock (hp : B.options.protection = .xor) {blocks : List Block}
    (h : ∀ b ∈ blocks, ∃ g, B.Seals D g b) :
    blocks = (blocks.map Block.content).map (pieceBlock D B.options) := by
  rw [List.map_map]
  conv_lhs => rw [← List.map_id blocks]
  refine List.map_congr_left fun b hb => ?_
  obtain ⟨g, hg⟩ := h b hb
  exact hg.eq_pieceBlock hp

/-! ## Assets -/

theorem Packable.seals_mem {assets : List Asset} (h : Packable D B assets) {a : Asset}
    (ha : a ∈ assets) : ∀ b ∈ a.blocks, ∃ g, B.Seals D g b := by
  intro b hb
  obtain ⟨g, hg⟩ := List.getElem?_of_mem (List.mem_flatMap_of_mem ha hb : b ∈ allBlocks assets)
  exact ⟨g, h.seals g b hg⟩

/-- **The assets** of an XOR archive are those of the files that were delivered. -/
theorem mapM_fileAsset (hp : B.options.protection = .xor) (hv : B.options.Valid)
    {files : List InputFile} {inputs : List Input} {assets : List Asset}
    (hfeeds : List.Forall₂ Feeds files inputs)
    (hinputs : List.Forall₂ (Asset.Of B.options.chunkSize) inputs assets)
    (hseals : ∀ a ∈ assets, ∀ b ∈ a.blocks, ∃ g, B.Seals D g b) :
    files.mapM (fileAsset D B.options) = .ok assets := by
  induction hfeeds generalizing assets with
  | nil =>
    cases hinputs
    rfl
  | @cons file input files inputs hfeed hrest ih =>
    cases hinputs with
    | @cons _ a _ assets ha hassets =>
      rw [List.forall_mem_cons] at hseals
      have hpieces := ha.fills.unique (hfeed.delivers.fills hv.chunkSize_pos)
      have hblocks := map_pieceBlock hp hseals.1
      rw [hpieces] at hblocks
      have hasset : fileAsset D B.options file = .ok a := by
        unfold fileAsset
        rw [← hfeed.path, ha.path, ok_bind, ← hblocks]
        rfl
      rw [List.mapM_cons, hasset, ok_bind, ih hassets hseals.2]
      rfl

/-- **The archive of a run** is the serialisation of its files. -/
theorem serialise_of_packed {files : List InputFile} {inputs : List Input} {assets : List Asset}
    {toc block stored : Bytes} (hp : B.options.protection = .xor)
    (hfeeds : List.Forall₂ Feeds files inputs) (h : Packed D B inputs assets toc block stored) :
    files.mapM (fileAsset D B.options) = .ok assets ∧
      serialise D B.key B.options files =
        .ok (image D B assets toc stored, packSummary B assets stored) := by
  have hassets := mapM_fileAsset hp h.valid hfeeds h.inputs fun a ha => h.seals_mem ha
  have hstored : stored = xorBytes block B.key := by
    rw [(Sealing.protects_xor_iff hp).mp h.toc.protects, Sealing.maskToc, hp]
  refine ⟨hassets, ?_⟩
  have htoc : encodeToc (listedEntries B.options.mode (entryTable D 0 assets))
      (packChunks D (xorSealing B.key B.options) assets) = .ok toc := h.toc.encoded
  unfold serialise
  rw [hassets, ok_bind]
  simp only [htoc, ok_bind, h.toc.compressed]
  rw [hstored]
  rfl

/-! ## Other entropy -/

/-- An XOR archive does not depend on the random source. -/
theorem Packed.of_xor {key : Bytes} {options : PackOptions} {entropy : Entropy}
    {inputs : List Input} {assets : List Asset} {toc block stored : Bytes}
    (hp : options.protection = .xor)
    (h : Packed D ⟨key, options, entropy⟩ inputs assets toc block stored) (entropy' : Entropy) :
    Packed D ⟨key, options, entropy'⟩ inputs assets toc block stored := by
  have hprotects : ∀ {g plain aad stored},
      Sealing.Protects D ⟨key, options, entropy⟩ g plain aad stored →
        Sealing.Protects D ⟨key, options, entropy'⟩ g plain aad stored := by
    intro g plain aad stored hs
    exact (Sealing.protects_xor_iff (B := ⟨key, options, entropy'⟩) hp).mpr
      ((Sealing.protects_xor_iff (B := ⟨key, options, entropy⟩) hp).mp hs)
  have hseals : ∀ g b, (allBlocks assets)[g]? = some b →
      Sealing.Seals D ⟨key, options, entropy'⟩ g b := fun g b hg =>
    have hb := h.seals g b hg
    ⟨hb.nonempty, hb.length_le, hb.plain, hprotects hb.stored⟩
  exact ⟨⟨⟨hseals, h.offset_lt, h.sizes, h.normal, h.paths, h.hashes, h.assets_lt, h.blocks_lt⟩,
    h.key, h.valid, ⟨h.toc.encoded, h.toc.raw_le, h.toc.compressed, hprotects h.toc.protects,
      h.toc.stored_le⟩, h.fits⟩, h.inputs⟩

/-- The same assets are made from any readers that deliver the same files. -/
theorem Packed.of_feeds {files : List InputFile} {inputs inputs' : List Input}
    {assets : List Asset} {toc block stored : Bytes} (hfeeds : List.Forall₂ Feeds files inputs)
    (hfeeds' : List.Forall₂ Feeds files inputs') (h : Packed D B inputs assets toc block stored) :
    Packed D B inputs' assets toc block stored := by
  refine ⟨h.toArchived, ?_⟩
  have hpos := h.valid.chunkSize_pos
  have hinputs := h.inputs
  clear h
  induction hfeeds generalizing inputs' assets with
  | nil =>
    cases hfeeds'
    cases hinputs
    exact .nil
  | cons hfeed _ ih =>
    cases hfeeds' with
    | cons hfeed' hrest' =>
      cases hinputs with
      | cons ha hassets =>
        refine .cons ⟨?_, ?_⟩ (ih hrest' hassets)
        · rw [hfeed'.path, ← hfeed.path]
          exact ha.path
        · rw [ha.fills.unique (hfeed.delivers.fills hpos)]
          exact hfeed'.delivers.fills hpos

/-- **XOR packing is the serialisation of the files**, delivered in any reads: the bytes and the
summary, with chunks that describe the bytes at their places. Other readers of the same files lead
to the same bytes and the same summary. -/
theorem xor_packing {key : Bytes} {options : PackOptions} {entropy : Entropy} {d : Device}
    {files : List InputFile} {inputs : List Input} {summary : PackSummary}
    {env : PackEnv Device} (hp : options.protection = .xor)
    (hfeeds : List.Forall₂ Feeds files inputs)
    (h : packReaders D deviceDestination key options inputs ⟨d, entropy⟩ = (.ok summary, env)) :
    serialise D key options files = .ok (env.writer.bytes, summary) ∧
      (∃ assets toc, files.mapM (fileAsset D options) = .ok assets ∧
        encodeToc (listedEntries options.mode (entryTable D 0 assets))
          (packChunks D (xorSealing key options) assets) = .ok toc ∧
        (packChunks D (xorSealing key options) assets).length = (allBlocks assets).length ∧
        ∀ (i : ℕ) (b : Block), (allBlocks assets)[i]? = some b →
          ∃ c, (packChunks D (xorSealing key options) assets)[i]? = some c ∧
            Describes D options.alignment.toNat env.writer.bytes c b) ∧
      ∀ (inputs' : List Input) (d' : Device) (entropy' : Entropy),
        List.Forall₂ Feeds files inputs' → d'.bytes = [] → d'.Healthy →
        ∃ env', packReaders D deviceDestination key options inputs' ⟨d', entropy'⟩ =
            (.ok summary, env') ∧ env'.writer.bytes = env.writer.bytes := by
  obtain ⟨assets, toc, block, stored, hpacked, rfl, hbytes, -⟩ := packReaders_ok h
  obtain ⟨hassets, hserialise⟩ := serialise_of_packed hp hfeeds hpacked
  refine ⟨?_, ⟨assets, toc, hassets, hpacked.toc.encoded, ?_, fun i b hi => ?_⟩,
    fun inputs' d' entropy' hfeeds' hempty hhealthy => ?_⟩
  · rw [hbytes]
    exact hserialise
  · rw [packChunks, length_chunkTable]
  · rw [hbytes]
    exact hpacked.toArchived.describes hi
  · obtain ⟨env', hrun, hbytes', -⟩ := packReaders_of_packed hempty hhealthy
      ((hpacked.of_feeds hfeeds hfeeds').of_xor hp entropy')
    exact ⟨env', hrun, hbytes'.trans hbytes.symm⟩

/-- Three bytes in two pieces, read in two ways. -/
theorem xor_packing_small :
    ∃ archive, serialise reference [7] ⟨2, 4, .debug, .xor⟩ [⟨"a", [1, 2, 3]⟩] =
        .ok (archive, ⟨183, 1, 2⟩) ∧
      ∃ env, packReaders reference deviceDestination [7] ⟨2, 4, .debug, .xor⟩
          [⟨"a", [.data [1, 2, 3]]⟩] ⟨Device.empty none none, ⟨fun _ => none, 0, []⟩⟩ =
          (.ok ⟨183, 1, 2⟩, env) ∧ env.writer.bytes = archive := by
  have hrun : (packReaders reference deviceDestination [7] ⟨2, 4, .debug, .xor⟩
      [⟨"a", [.data [1], .interrupted, .data [2, 3]]⟩]
      ⟨Device.empty none none, ⟨fun _ => none, 0, []⟩⟩).1 = .ok ⟨183, 1, 2⟩ := by decide +kernel
  have hsplit : Delivers [.data [1], .interrupted, .data [2, 3]] [1, 2, 3] :=
    .data (by simp) (.interrupted rfl (.data (by simp) (.atEnd nofun)))
  have hwhole : Delivers [.data [1, 2, 3]] [1, 2, 3] := .data (by simp) (.atEnd nofun)
  rcases hr : packReaders reference deviceDestination [7] ⟨2, 4, .debug, .xor⟩
    [⟨"a", [.data [1], .interrupted, .data [2, 3]]⟩]
    ⟨Device.empty none none, ⟨fun _ => none, 0, []⟩⟩ with ⟨x, env₁⟩
  rw [hr] at hrun
  cases hrun
  have hfeeds : List.Forall₂ Feeds [⟨"a", [1, 2, 3]⟩]
      [⟨"a", [.data [1], .interrupted, .data [2, 3]]⟩] := .cons ⟨rfl, hsplit⟩ .nil
  have h := xor_packing rfl hfeeds hr
  obtain ⟨env, henv, hbytes⟩ := h.2.2 [⟨"a", [.data [1, 2, 3]]⟩] (Device.empty none none)
    ⟨fun _ => none, 0, []⟩ (.cons ⟨rfl, hwhole⟩ .nil) rfl ⟨rfl, rfl⟩
  exact ⟨_, h.1, env, henv, hbytes⟩

end RasenArchive
