import RasenArchive.Pack.Adding

/-!
# Finishing an archive

`finish` appends the table of contents behind the blocks and writes the header over the zeroes that
hold its place. Until it begins with the header, the place of the header holds zeroes; while it
writes it, a prefix of the header stands in front of the rest of them.

## Main definitions

* `StoredToc D B assets toc block stored`: the table of contents of these assets, raw, compressed
  and as it is stored
* `packHeader`, `payload`, `image`: the header, the rest and the whole of an archive
* `Packable D B assets`: there is room for these assets in one archive
* `Archived D B assets toc block stored`: these make up an archive of the packer

## Main results

* `writeHeader_post`, `placeHeader_post`: the header is written over the zeroes in front
* `finish_post`: what `finish` leaves in the file, when it succeeds and when it fails
-/

namespace RasenArchive

/-- The entries that `finish` encodes. -/
def listedEntries (mode : PackMode) (entries : List TocEntry) : List TocEntry :=
  if mode.stripsPaths then entries.map fun e => { e with path := "" } else entries

variable (D : Dependencies) (B : Sealing) (assets : List Asset)

/-- The compressed table of contents with the XOR layer, where the options ask for it. -/
def Sealing.maskToc (block : Bytes) : Bytes :=
  match B.options.protection with
  | .xor => xorBytes block B.key
  | .aead => block

/-- The chunks of the assets. -/
def packChunks : List Chunk := chunkTable D B.alignment headerSize (allBlocks assets)

/-- Where the table of contents is stored. -/
def tocStart : ℕ := alignedAt B.alignment (bodyEnd B.alignment headerSize (allBlocks assets))

/-- The table of contents of these assets, raw, compressed and as it is stored. -/
structure StoredToc (toc block stored : Bytes) : Prop where
  encoded : encodeToc (listedEntries B.options.mode (entryTable D 0 assets))
    (packChunks D B assets) = .ok toc
  raw_le : toc.length ≤ maxTocRawSize
  compressed : D.compressInto toc (D.getMaximumOutputSize toc.length) = .ok block
  protects : B.Protects D (allBlocks assets).length (B.maskToc block) tocAad stored
  stored_le : stored.length ≤ maxTocStoredSize

/-- The header of an archive. -/
def packHeader (toc stored : Bytes) : Header :=
  ⟨version, headerFlags B.options, UInt32.ofNat headerSize, B.options.alignment,
    UInt32.ofNat B.options.chunkSize, UInt32.ofNat assets.length,
    UInt32.ofNat (allBlocks assets).length, UInt64.ofNat (tocStart B assets),
    UInt64.ofNat stored.length, UInt64.ofNat toc.length, checksum D toc⟩

/-- What follows the header: the blocks, the padding and the stored table of contents. -/
def payload (stored : Bytes) : Bytes :=
  body B.alignment headerSize (allBlocks assets) ++
    List.replicate (tocStart B assets - bodyEnd B.alignment headerSize (allBlocks assets)) 0 ++
      stored

/-- **The bytes of an archive.** -/
def image (toc stored : Bytes) : Bytes :=
  encodeHeader (packHeader D B assets toc stored) ++ payload B assets stored

/-- The bytes of an archive whose header is written up to its first `n` bytes. -/
def cutImage (toc stored : Bytes) (n : ℕ) : Bytes :=
  (encodeHeader (packHeader D B assets toc stored)).take n ++ List.replicate (headerSize - n) 0 ++
    payload B assets stored

/-- What `finish` returns. -/
def packSummary (stored : Bytes) : PackSummary :=
  ⟨tocStart B assets + stored.length, UInt32.ofNat assets.length,
    UInt32.ofNat (allBlocks assets).length⟩

/-- The random source after a whole run. -/
def Sealing.entropyDone (blocks : List Block) (block stored : Bytes) : Entropy :=
  match B.options.protection with
  | .xor => B.entropyAfter blocks
  | .aead => { B.entropyAfter blocks with
      drawn := (B.entropyAfter blocks).drawn + 1,
      calls := (B.entropyAfter blocks).calls ++ [⟨block, tocAad, stored⟩] }

/-- There is room for these assets in one archive, and none gets in the way of another. -/
structure Packable : Prop where
  seals : ∀ g b, (allBlocks assets)[g]? = some b → B.Seals D g b
  offset_lt : bodyEnd B.alignment headerSize (allBlocks assets) < 2 ^ 64
  sizes : ∀ a ∈ assets, a.totals.original < 2 ^ 64 ∧ a.totals.stored < 2 ^ 64
  normal : ∀ a ∈ assets, normalizePath a.path = .ok a.path
  paths : (assets.map Asset.path).Nodup
  hashes : B.options.mode = .production → ((assets.map Asset.path).map (pathHash D)).Nodup
  assets_lt : assets.length < 2 ^ 32
  blocks_lt : (allBlocks assets).length < 2 ^ 32

/-- These assets and their table of contents make up an archive of the packer. -/
structure Archived (toc block stored : Bytes) : Prop extends Packable D B assets where
  key : B.key ≠ []
  valid : B.options.Valid
  toc : StoredToc D B assets toc block stored
  fits : tocStart B assets + stored.length < 2 ^ 64

variable {D B assets} in
/-- The stored table of contents is determined by the assets. -/
theorem StoredToc.unique {toc block stored toc' block' stored' : Bytes}
    (h : StoredToc D B assets toc block stored) (h' : StoredToc D B assets toc' block' stored') :
    toc = toc' ∧ block = block' ∧ stored = stored' := by
  cases h.encoded.symm.trans h'.encoded
  cases h.compressed.symm.trans h'.compressed
  exact ⟨rfl, rfl, h.protects.unique h'.protects⟩

/-! ## The header -/

variable {D B assets} {d : Device} {s : PackState Device}

/-- A write anywhere in the file takes effect as a prefix of its bytes. -/
theorem writeAll_put (d : Device) (bytes : Bytes) :
    Fallible.Post (writeAll deviceDestination bytes) d (fun _ d' => d' = d.put bytes)
      (fun _ d' => (∃ n, d' = d.put (bytes.take n)) ∧ ¬ d.Healthy) := by
  unfold Fallible.Post
  -- the device takes all bytes, or stops after a prefix of them
  by_cases hall : d.accepted bytes.length = bytes.length
  · simp only [writeAll, deviceDestination, hall, if_true, List.take_length]
  · simp only [writeAll, deviceDestination, if_neg hall]
    exact ⟨⟨_, rfl⟩, fun h => hall (h.accepted_eq _)⟩

/-- Some writes one after the other take effect as a prefix of all their bytes. -/
theorem writeFields_post {fields : List Bytes} (hpos : d.pos ≤ d.bytes.length) :
    Fallible.Post (fields.forM fun field => writeAll deviceDestination field) d
      (fun _ d' => d'.bytes = overwrite d.bytes d.pos fields.flatten ∧
        (d.Healthy → d'.Healthy))
      (fun _ d' => (∃ n, d'.bytes = overwrite d.bytes d.pos (fields.flatten.take n)) ∧
        ¬ d.Healthy) := by
  -- induction over the fields that are left
  induction fields generalizing d with
  | nil => exact ⟨by simp [overwrite], id⟩
  | cons field fields ih =>
    show Fallible.Post (writeAll deviceDestination field >>= fun _ =>
      fields.forM fun field => writeAll deviceDestination field) d _ _
    refine ((writeAll_put d field).mono (fun _ _ h => h) ?_).bind ?_
    · -- a field is cut off: what took effect is a prefix of that field
      rintro f _ ⟨⟨n, rfl⟩, hbad⟩
      refine ⟨⟨min n field.length, ?_⟩, hbad⟩
      rw [List.flatten_cons, List.take_append_of_le_length (min_le_right _ _)]
      have htake : field.take (min n field.length) = field.take n := by
        rw [List.take_eq_take_iff]
        omega
      rw [htake]
      rfl
    · -- a whole field is behind the position, and the rest follows it
      rintro _ _ rfl
      have hput : (d.put field).pos ≤ (d.put field).bytes.length := by
        simp only [Device.put, overwrite, List.length_append, List.length_take, List.length_drop]
        omega
      refine (ih hput).mono ?_ ?_
      · rintro _ d' ⟨hbytes, hhealthy⟩
        refine ⟨?_, fun h => hhealthy (h.put _)⟩
        rw [hbytes, List.flatten_cons]
        exact overwrite_overwrite hpos
      · -- a later field is cut off
        rintro f d' ⟨⟨n, hbytes⟩, hbad⟩
        refine ⟨⟨field.length + n, ?_⟩, fun h => hbad (h.put _)⟩
        rw [hbytes, List.flatten_cons, List.take_length_add_append]
        exact overwrite_overwrite hpos

/-- **The header** is written over the zeroes in front of the rest. -/
theorem writeHeader_post {rest : Bytes} (header : Header) (hpos : d.pos = 0)
    (hbytes : d.bytes = List.replicate headerSize 0 ++ rest) :
    Fallible.Post (writeHeader deviceDestination header) d
      (fun _ d' => d'.bytes = encodeHeader header ++ rest ∧ (d.Healthy → d'.Healthy))
      (fun _ d' => (∃ n ≤ headerSize, d'.bytes = (encodeHeader header).take n ++
        List.replicate (headerSize - n) 0 ++ rest) ∧ ¬ d.Healthy) := by
  -- over the zeroes, a prefix of the header leaves a shorter run of zeroes behind it
  have hover : ∀ ys : Bytes, ys.length ≤ headerSize → overwrite d.bytes d.pos ys =
      ys ++ List.replicate (headerSize - ys.length) 0 ++ rest := by
    intro ys hys
    rw [hpos, hbytes, overwrite_append_left (by rw [List.length_replicate]; omega), overwrite_zero,
      List.drop_replicate]
  have hlen := length_encodeHeader header
  unfold writeHeader
  refine (writeFields_post (by omega)).mono ?_ ?_
  · rintro _ d' ⟨hd', hhealthy⟩
    refine ⟨?_, hhealthy⟩
    rw [hd']
    show overwrite d.bytes d.pos (encodeHeader header) = _
    rw [hover _ hlen.le, hlen, Nat.sub_self, List.replicate_zero, List.append_nil]
  · -- the header is cut off at one of its bytes
    rintro f d' ⟨⟨n, hd'⟩, hbad⟩
    refine ⟨⟨((encodeHeader header).take n).length, ?_, ?_⟩, hbad⟩
    · rw [List.length_take, hlen]
      exact min_le_right _ _
    · have htake : (encodeHeader header).take ((encodeHeader header).take n).length =
          (encodeHeader header).take n := by
        rw [List.length_take, List.take_eq_take_iff]
        omega
      have hle : ((encodeHeader header).take n).length ≤ headerSize := by
        rw [List.length_take, hlen]
        exact min_le_right _ _
      rw [hd', htake]
      exact hover _ hle

/-! ## The table of contents -/

/-- What the table of contents is made from. -/
structure Holds (D : Dependencies) (B : Sealing) (assets : List Asset)
    (s : PackState Device) : Prop where
  key : s.packer.key = B.key
  aeadKey : s.packer.aeadKey = packKey D B.key B.options
  options : s.packer.options = B.options
  entries : s.packer.entries = entryTable D 0 assets
  chunks : s.packer.chunks = packChunks D B assets
  entropy : s.entropy = B.entropyAfter (allBlocks assets)

theorem Packs.packable (h : Packs D B assets s) : Packable D B assets :=
  ⟨h.stores.seals, h.stores.offset_lt, h.sizes, h.normal, h.paths, h.hashes, h.count_lt,
    h.stores.count_lt⟩

theorem Packs.holds (h : Packs D B assets s) (w : Device) (offset : ℕ) :
    Holds D B assets (s.advance w offset) :=
  ⟨h.stores.key, h.stores.aeadKey, h.stores.options, h.entries, h.stores.chunks, h.stores.entropy⟩

theorem protectToc_post (hkey : B.key ≠ []) (h : Holds D B assets s) (block : Bytes) :
    Fallible.Post (protectToc D s.packer block) s
      (fun stored s' => B.Protects D (allBlocks assets).length (B.maskToc block) tocAad stored ∧
        s' = { s with entropy := B.entropyDone (allBlocks assets) block stored })
      (fun _ s' => (∃ e, s' = { s with entropy := e }) ∧
        ¬ ∃ stored, B.Protects D (allBlocks assets).length (B.maskToc block) tocAad stored) := by
  have hentropy := h.entropy
  unfold protectToc Sealing.Protects Sealing.maskToc Sealing.entropyDone
  rw [h.aeadKey, h.key, packKey]
  cases hp : B.options.protection with
  -- under XOR the block is masked with the key
  | xor =>
    rw [xorInPlace_eq block hkey]
    refine ⟨rfl, ?_⟩
    rw [← hentropy]
  | aead =>
    rw [if_pos rfl]
    dsimp only
    rw [onEntropy, Fallible.post_focus, Fallible.post_iff]
    -- the nonce is drawn behind those of all blocks
    have hafter : s.entropy.fill = B.entropy.fill ∧
        s.entropy.drawn = B.entropy.drawn + (allBlocks assets).length := by
      rw [hentropy, Sealing.entropyAfter, hp]
      exact ⟨rfl, rfl⟩
    constructor
    · intro stored e henc
      obtain ⟨nonce, ciphertext, hn, hc, hst, rfl⟩ := (encrypt_eq_ok_iff D).mp henc
      rw [hafter.1, hafter.2] at hn
      refine ⟨⟨nonce, ciphertext, hn, hc, hst⟩, ?_⟩
      rw [hentropy]
    · rintro f e henc
      refine ⟨⟨e, rfl⟩, ?_⟩
      rintro ⟨stored, nonce, ciphertext, hn, hc, hst⟩
      rw [← hafter.1, ← hafter.2] at hn
      rw [(encrypt_eq_ok_iff D).mpr ⟨nonce, ciphertext, hn, hc, rfl, rfl⟩] at henc
      cases henc

/-- **The stored table of contents** is that of the assets, and is made wherever there is one. -/
theorem storeToc_post (hkey : B.key ≠ []) (h : Holds D B assets s) :
    Fallible.Post (storeToc D s.packer) s
      (fun r s' => ∃ toc block, StoredToc D B assets toc block r.1 ∧
        r.2 = (toc.length, checksum D toc) ∧
        s' = { s with entropy := B.entropyDone (allBlocks assets) block r.1 })
      (fun _ s' => (∃ e, s' = { s with entropy := e }) ∧
        ¬ ∃ toc block stored, StoredToc D B assets toc block stored) := by
  -- the recorded entries are stripped of their paths in production
  have hentries : (if s.packer.options.mode.stripsPaths = true then
      s.packer.entries.map fun e => { e with path := "" } else s.packer.entries) =
      listedEntries B.options.mode (entryTable D 0 assets) := by
    rw [h.options, h.entries, listedEntries]
  have hsame : ∃ e, s = { s with entropy := e } := ⟨s.entropy, rfl⟩
  unfold storeToc
  simp only [hentries, h.chunks]
  rw [Fallible.post_liftM_bind]
  refine ⟨fun toc htoc => ?_, fun f htoc => ⟨hsame, ?_⟩⟩
  swap
  · -- the table cannot be encoded
    rintro ⟨toc, block, stored, hst⟩
    rw [hst.encoded] at htoc
    cases htoc
  have hraw := (encodeToc_eq_ok_iff.mp htoc).2.1
  have hsize : usizeToU64 toc.length "raw TOC size" = .ok toc.length :=
    -- the raw size is limited, so it is a number of 64 bits
    usizeToU64_eq_ok_iff.mpr ⟨lt_of_le_of_lt hraw (by decide), rfl⟩
  rw [Fallible.post_liftM_bind_of_ok hsize, Fallible.post_liftM_bind_of_ok (ensure_of hraw)]
  cases hc : D.compressInto toc (D.getMaximumOutputSize toc.length) with
  | error message =>
    -- compression fails
    refine ⟨hsame, ?_⟩
    rintro ⟨toc', block, stored, hst⟩
    cases htoc.symm.trans hst.encoded
    rw [hst.compressed] at hc
    cases hc
  | ok block =>
    simp only
    rw [Fallible.post_bind]
    refine (protectToc_post hkey h block).mono ?_ ?_
    swap
    · -- protection fails
      rintro f s₁ ⟨hs₁, hbad⟩
      refine ⟨hs₁, ?_⟩
      rintro ⟨toc', block', stored, hst⟩
      cases htoc.symm.trans hst.encoded
      cases hc.symm.trans hst.compressed
      exact hbad ⟨stored, hst.protects⟩
    rintro stored _ ⟨hstored, rfl⟩
    -- a table that is too large as it is stored is no stored table
    have hlarge : ¬ stored.length ≤ maxTocStoredSize →
        ¬ ∃ toc block stored, StoredToc D B assets toc block stored := by
      rintro hlt ⟨toc', block', stored', hst⟩
      cases htoc.symm.trans hst.encoded
      cases hc.symm.trans hst.compressed
      rw [hstored.unique hst.protects] at hlt
      exact hlt hst.stored_le
    rw [Fallible.post_liftM_bind]
    refine ⟨fun tocSize hlen => ?_, fun f hlen => ⟨⟨_, rfl⟩, hlarge fun hle => ?_⟩⟩
    swap
    · -- the stored size is too large for a number of 64 bits only if it is over the limit
      rw [usizeToU64_eq_ok_iff.mpr ⟨lt_of_le_of_lt hle (by decide), rfl⟩] at hlen
      cases hlen
    obtain ⟨-, rfl⟩ := usizeToU64_eq_ok_iff.mp hlen
    rw [Fallible.post_liftM_bind]
    refine ⟨fun _ hmax => ?_, fun f hmax => ⟨⟨_, rfl⟩, hlarge (ensure_eq_error_iff.mp hmax).1⟩⟩
    have hst : StoredToc D B assets toc block stored :=
      ⟨htoc, hraw, hc, hstored, ensure_eq_ok_iff.mp hmax⟩
    exact ⟨toc, block, hst, rfl, rfl⟩

/-! ## The whole archive -/

theorem finishHeader_eq (hv : B.options.Valid) (h : Holds D B assets s)
    (hassets : assets.length < 2 ^ 32) (hblocks : (allBlocks assets).length < 2 ^ 32)
    (toc stored : Bytes) :
    finishHeader s.packer (tocStart B assets) stored.length toc.length (checksum D toc) =
      .ok (packHeader D B assets toc stored) := by
  -- the counts and the chunk size are numbers of 32 bits
  have hchunk : usizeToU32 s.packer.options.chunkSize "chunk size" = .ok B.options.chunkSize := by
    rw [h.options]
    exact usizeToU32_eq_ok_iff.mpr ⟨lt_of_le_of_lt hv.chunkSize_le (by decide), rfl⟩
  have hentries : usizeToU32 s.packer.entries.length "entry count" = .ok assets.length := by
    rw [h.entries, length_entryTable]
    exact usizeToU32_eq_ok_iff.mpr ⟨hassets, rfl⟩
  have hchunks : usizeToU32 s.packer.chunks.length "chunk count" =
      .ok (allBlocks assets).length := by
    rw [h.chunks, packChunks, length_chunkTable]
    exact usizeToU32_eq_ok_iff.mpr ⟨hblocks, rfl⟩
  unfold finishHeader
  rw [hchunk, ok_bind, hentries, ok_bind, hchunks, ok_bind, h.options]
  rfl

/-- **The header** goes over the zeroes in its place. Up to its first byte they are still there, and
behind its last the archive is whole. -/
theorem placeHeader_post {toc stored : Bytes} {stop : ℕ}
    (hfile : s.writer.bytes = List.replicate headerSize 0 ++ payload B assets stored) :
    Fallible.Post (do
        let _ ← onWriter (seekTo deviceDestination (.start 0))
        onWriter (writeHeader deviceDestination (packHeader D B assets toc stored))
        let _ ← onWriter (seekTo deviceDestination (.start stop))
        pure (packSummary B assets stored) : Fallible (PackState Device) Fault PackSummary) s
      (fun summary s' => summary = packSummary B assets stored ∧
        s'.writer.bytes = image D B assets toc stored ∧ s'.entropy = s.entropy)
      (fun _ s' => (List.replicate headerSize 0 <+: s'.writer.bytes ∨
          ∃ n, n ≤ headerSize ∧ s'.writer.bytes = cutImage D B assets toc stored n) ∧
        ¬ s.writer.Healthy) := by
  rw [Fallible.post_bind, onWriter, Fallible.post_focus]
  refine (seekTo_post s.writer (.start 0)).mono ?_ ?_
  swap
  · -- the seek fails: the zeroes are still there
    rintro f _ ⟨rfl, hbad⟩
    refine ⟨Or.inl ?_, hbad⟩
    rw [hfile]
    exact List.prefix_append _ _
  -- the header goes to the front
  rintro _ _ rfl
  rw [Fallible.post_bind, onWriter, Fallible.post_focus]
  refine (writeHeader_post (d := s.writer.move (.start 0)) _ rfl hfile).mono ?_ ?_
  swap
  · -- the header is cut off
    rintro f w ⟨hcut, hbad⟩
    exact ⟨Or.inr hcut, fun hhealthy => hbad (hhealthy.move _)⟩
  rintro _ w ⟨hwhole, hhealthy⟩
  rw [Fallible.post_bind, onWriter, Fallible.post_focus]
  refine (seekTo_post w _).mono ?_ ?_
  swap
  · -- the last seek fails, behind a header that is whole
    rintro f w' ⟨hsame, hbad⟩
    refine ⟨Or.inr ⟨headerSize, le_rfl, ?_⟩, fun h => hbad (hhealthy (h.move _))⟩
    show w'.bytes = _
    rw [hsame, hwhole, cutImage, List.take_of_length_le (length_encodeHeader _).le, Nat.sub_self,
      List.replicate_zero, List.append_nil]
  rintro _ _ rfl
  exact ⟨rfl, hwhole, rfl⟩

/-- **What `finish` leaves in the file**: the archive when it succeeds. When it fails, the place of
the header still holds zeroes, or the archive is there but for a part of its header. -/
theorem finish_post (hkey : B.key ≠ []) (hv : B.options.Valid) (h : Packs D B assets s) :
    Fallible.Post (finish D deviceDestination) s
      (fun summary s' => ∃ toc block stored, Archived D B assets toc block stored ∧
        summary = packSummary B assets stored ∧ s'.writer.bytes = image D B assets toc stored ∧
        s'.entropy = B.entropyDone (allBlocks assets) block stored)
      (fun _ s' => (List.replicate headerSize 0 <+: s'.writer.bytes ∨
          ∃ toc block stored n, Archived D B assets toc block stored ∧ n ≤ headerSize ∧
            s'.writer.bytes = cutImage D B assets toc stored n) ∧
        ¬ (s.writer.Healthy ∧ ∃ toc block stored, Archived D B assets toc block stored)) := by
  have halign : s.packer.options.alignment.toNat = B.alignment := by
    rw [h.stores.options, Sealing.alignment]
  -- the file begins with the place of the header
  have hzeroes : List.replicate headerSize 0 <+: s.writer.bytes := by
    rw [h.stores.bytes]
    exact List.prefix_append _ _
  unfold finish
  rw [Fallible.post_bind, Fallible.post_gets, id,
    Fallible.post_liftM_bind_of_ok (ensure_of h.failed), Fallible.post_bind]
  refine (align_post halign hv.alignment_pow h.stores.pos).mono ?_ ?_
  swap
  · -- alignment fails: the zeroes are still there
    rintro f _ ⟨hkeeps, hbad⟩
    refine ⟨Or.inl (hzeroes.trans hkeeps), ?_⟩
    rintro ⟨hhealthy, toc, block, stored, hdone⟩
    refine hbad ⟨hhealthy, ?_⟩
    rw [h.stores.offset]
    exact fits_of_alignedAt_lt hv.alignment_pow (lt_of_le_of_lt hv.alignment_le (by decide))
      (lt_of_le_of_lt (Nat.le_add_right _ _) hdone.fits)
  -- the table of contents begins behind the padding
  rintro _ s₁ ⟨w, hpad, hs₁⟩
  rw [h.stores.offset] at hpad hs₁
  have hholds : Holds D B assets s₁ := hs₁ ▸ h.holds _ _
  have hwriter₁ : s₁.writer = w := by rw [hs₁]; rfl
  have hoffset₁ : s₁.packer.offset = tocStart B assets := by rw [hs₁]; rfl
  have hzeroes₁ := hzeroes.trans hpad.keeps
  rw [Fallible.post_bind, Fallible.post_gets, id, Fallible.post_bind]
  refine (storeToc_post hkey hholds).mono ?_ ?_
  swap
  · -- there is no table of contents for these assets
    rintro f _ ⟨⟨e, rfl⟩, hbad⟩
    refine ⟨Or.inl (by rw [hwriter₁]; exact hzeroes₁), ?_⟩
    rintro ⟨-, toc, block, stored, hdone⟩
    exact hbad ⟨toc, block, stored, hdone.toc⟩
  rintro ⟨stored, rawSize, tocHash⟩ s₂ ⟨toc, block, htoc, hraw, hs₂⟩
  cases hraw
  simp only at hs₂ htoc ⊢
  have hwriter₂ : s₂.writer = w := by rw [hs₂]; exact hwriter₁
  -- the table is stored behind the padding
  rw [Fallible.post_bind, onWriter, Fallible.post_focus, hwriter₂]
  refine (writeAll_post hpad.pos_eq stored).mono ?_ ?_
  swap
  · -- the device refuses some of its bytes
    intro f w' htorn
    exact ⟨Or.inl (hzeroes₁.trans htorn.keeps), fun hbad => htorn.unhealthy (hpad.healthy hbad.1)⟩
  intro _ w' happ
  have hfile : w'.bytes = List.replicate headerSize 0 ++ payload B assets stored := by
    rw [happ.bytes_eq, hpad.bytes_eq, h.stores.bytes, payload]
    simp only [List.append_assoc]
    rfl
  rw [Fallible.post_liftM_bind]
  refine ⟨fun archiveLen hlen => ?_, fun f hlen => ⟨Or.inl (hzeroes₁.trans happ.keeps), ?_⟩⟩
  swap
  · -- the archive would be longer than a number of 64 bits
    rintro ⟨-, toc', block', stored', hdone⟩
    have hsame := htoc.unique hdone.toc
    rw [okOr_eq_error_iff, checkedAdd, hoffset₁, hsame.2.2, if_pos hdone.fits] at hlen
    cases hlen.1
  rw [okOr_eq_ok_iff, checkedAdd_eq_some_iff, hoffset₁] at hlen
  obtain ⟨hlt, rfl⟩ := hlen
  -- everything but the header is in the file
  have hdone : Archived D B assets toc block stored :=
    ⟨h.packable, hkey, hv, htoc, hlt⟩
  have hhealthy : s.writer.Healthy → w'.Healthy := fun hh => happ.healthy (hpad.healthy hh)
  have hheader : finishHeader s₁.packer s₁.packer.offset stored.length toc.length
      (checksum D toc) = .ok (packHeader D B assets toc stored) := by
    rw [hoffset₁]
    exact finishHeader_eq hv hholds h.count_lt h.stores.count_lt toc stored
  rw [Fallible.post_bind, Fallible.post_modify, Fallible.post_liftM_bind_of_ok hheader]
  refine (placeHeader_post hfile).mono ?_ ?_
  · rintro summary s' ⟨rfl, himage, hentropy⟩
    refine ⟨toc, block, stored, hdone, rfl, himage, hentropy.trans ?_⟩
    show s₂.entropy = _
    rw [hs₂]
  · -- only the header can be missing
    rintro f s' ⟨hleft, hbad⟩
    refine ⟨hleft.imp_right ?_, fun hb => hbad (hhealthy hb.1)⟩
    rintro ⟨n, hn, hcut⟩
    exact ⟨toc, block, stored, n, hdone, hn, hcut⟩

end RasenArchive
