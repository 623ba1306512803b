import RasenArchive.Archive.Open
import RasenArchive.Pack.Run

/-!
# The layout of packed archives

The entries of an archive follow each other through the chunk table, and its chunks through the
file. All checks of `validate_layout` pass but one: that all chunks of an entry but its last are
full is up to the readers.

## Main definitions

* `packLayout`: what `validate_layout` is called with for an archive
* `checkPacked`: the check of the records of a finished packer under its header

## Main results

* `ownedChunks_assetEntry`: the chunks of an entry are those of its asset
* `flatMap_chunkNumbers`: the entries share the chunk table out in order
* `Archived.validLayout_iff`: when the layout of an archive is valid
* `packed_layout`: the records of a finished packer are accepted when no reader resumes
-/

namespace RasenArchive

variable {D : Dependencies} {B : Sealing} {assets : List Asset}

/-! ## Entries and their assets -/

theorem mem_entryTable {first : ℕ} {e : TocEntry} :
    e ∈ entryTable D first assets ↔ ∃ front a back, assets = front ++ a :: back ∧
      e = assetEntry D (first + (allBlocks front).length) a := by
  induction assets generalizing first with
  | nil => simp [entryTable]
  | cons a assets ih =>
    rw [entryTable, List.mem_cons, ih]
    constructor
    · rintro (rfl | ⟨front, b, back, rfl, rfl⟩)
      · exact ⟨[], a, assets, rfl, rfl⟩
      · refine ⟨a :: front, b, back, rfl, ?_⟩
        simp only [allBlocks, List.flatMap_cons, List.length_append, Nat.add_assoc]
    · rintro ⟨front, b, back, happ, rfl⟩
      cases front with
      | nil =>
        cases happ
        exact Or.inl rfl
      | cons c front =>
        cases happ
        refine Or.inr ⟨front, b, back, rfl, ?_⟩
        simp only [allBlocks, List.flatMap_cons, List.length_append, Nat.add_assoc]

theorem toNat_assetEntry {first : ℕ} {a : Asset} (h : first + a.blocks.length < 2 ^ 32) :
    (assetEntry D first a).firstChunk.toNat = first ∧
      (assetEntry D first a).chunkCount.toNat = a.blocks.length :=
  ⟨UInt32.toNat_ofNat_of_lt' (by unfold UInt32.size; omega),
    UInt32.toNat_ofNat_of_lt' (by unfold UInt32.size; omega)⟩

/-- **The chunks of an entry** are those of the blocks of its asset. -/
theorem ownedChunks_assetEntry {alignment offset : ℕ} {front back : List Asset} {a : Asset}
    (h : (allBlocks front).length + a.blocks.length < 2 ^ 32) :
    (assetEntry D (allBlocks front).length a).ownedChunks
        (chunkTable D alignment offset (allBlocks (front ++ a :: back))) =
      chunkTable D alignment (bodyEnd alignment offset (allBlocks front)) a.blocks := by
  obtain ⟨hfirst, hcount⟩ := toNat_assetEntry (D := D) h
  rw [TocEntry.ownedChunks, hfirst, hcount, allBlocks_append_cons, chunkTable_append,
    chunkTable_append]
  apply extract_middle
  · simp
  · simp

/-- **The entries share the chunk table out** in order. -/
theorem flatMap_chunkNumbers {first : ℕ} (h : first + (allBlocks assets).length < 2 ^ 32) :
    (entryTable D first assets).flatMap TocEntry.chunkNumbers =
      List.range' first (allBlocks assets).length := by
  induction assets generalizing first with
  | nil => rfl
  | cons a assets ih =>
    have hblocks : allBlocks (a :: assets) = a.blocks ++ allBlocks assets := rfl
    rw [hblocks, List.length_append] at h ⊢
    obtain ⟨hfirst, hcount⟩ := @toNat_assetEntry D first a (by omega)
    rw [entryTable, List.flatMap_cons, ih (by omega), TocEntry.chunkNumbers, hfirst, hcount]
    exact List.range'_append_1

/-! ## Chunks and their blocks -/

/-- The sizes in the records of blocks. -/
theorem map_sizes_chunkTable {alignment offset : ℕ} {bs : List Block}
    (h : ∀ b ∈ bs, b.content.length < 2 ^ 64 ∧ b.stored.length < 2 ^ 64) :
    ((chunkTable D alignment offset bs).map fun c => c.originalSize.toNat) =
        bs.map (fun b => b.content.length) ∧
      ((chunkTable D alignment offset bs).map fun c => c.storedSize.toNat) =
        bs.map (fun b => b.stored.length) := by
  induction bs generalizing offset with
  | nil => exact ⟨rfl, rfl⟩
  | cons b bs ih =>
    rw [List.forall_mem_cons] at h
    obtain ⟨ho, hs⟩ := @ih (alignedAt alignment offset + b.stored.length) h.2
    have horiginal : (UInt64.ofNat b.content.length).toNat = b.content.length :=
      UInt64.toNat_ofNat_of_lt' h.1.1
    have hstored : (UInt64.ofNat b.stored.length).toNat = b.stored.length :=
      UInt64.toNat_ofNat_of_lt' h.1.2
    simp only [chunkTable, List.map_cons, ho, hs, blockChunk, horiginal, hstored]
    exact ⟨trivial, trivial⟩

/-- What `validate_layout` is called with for an archive, with this limit on the total size. -/
def packLayout (B : Sealing) (assets : List Asset) (cap : ℕ) : LayoutParams where
  tocOffset := UInt64.ofNat (tocStart B assets)
  chunkSize := UInt32.ofNat B.options.chunkSize
  alignment := B.options.alignment
  aead := decide (B.options.protection = .aead)
  maxTotalDecompressedBytes := cap

/-- The stored form of a block carries what encryption adds to its plain form. -/
theorem Sealing.Protects.length_eq (hA : D.AeadLawful) {g : ℕ} {plain aad stored : Bytes}
    (h : B.Protects D g plain aad stored) :
    stored.length = plain.length + overhead (decide (B.options.protection = .aead)) := by
  unfold Sealing.Protects at h
  cases hp : B.options.protection with
  | xor =>
    rw [hp] at h
    exact congrArg List.length h
  | aead =>
    rw [hp] at h
    obtain ⟨nonce, ciphertext, -, hc, rfl⟩ := h
    have hlen := hA.encrypt_length hc
    have hn := nonce.2
    simp only [List.length_append, overhead, decide_true, if_true, aeadOverhead]
    omega

/-- **The chunk of a sealed block** is consistent in itself. -/
theorem Archived.validChunk (hL : D.Lz4Lawful) (hA : D.AeadLawful) {toc block stored : Bytes}
    (h : Archived D B assets toc block stored) (cap : ℕ) {c : Chunk}
    (hc : c ∈ packChunks D B assets) : ValidChunk (packLayout B assets cap) c := by
  -- the chunk is that of some block
  have hpos := Nat.pos_of_isPowerOfTwo h.valid.alignment_pow
  obtain ⟨i, hi⟩ := List.getElem?_of_mem hc
  have hlt : i < (allBlocks assets).length := by
    have := (List.getElem?_eq_some_iff.mp hi).1
    rwa [packChunks, length_chunkTable] at this
  obtain ⟨b, hb⟩ : ∃ b, (allBlocks assets)[i]? = some b := ⟨_, List.getElem?_eq_getElem hlt⟩
  obtain ⟨c', hc', hdesc⟩ := h.describes hb
  cases hi.symm.trans hc'
  have hseals := h.seals i b hb
  obtain ⟨lz4, hlz4, hform⟩ := hseals.plain
  have hstored := hseals.stored.length_eq hA
  -- the block lies between the header and the table of contents
  obtain ⟨-, hinside⟩ := @chunkTable_ordered D B.alignment headerSize hpos _ h.offset_lt
  obtain ⟨hheader, -, hstop⟩ := hinside c hc
  have hstart : (UInt64.ofNat (tocStart B assets)).toNat = tocStart B assets :=
    UInt64.toNat_ofNat_of_lt' (lt_of_le_of_lt (Nat.le_add_right _ _) h.fits)
  have hle := le_alignedAt hpos (bodyEnd B.alignment headerSize (allBlocks assets))
  have hchunk : (UInt32.ofNat B.options.chunkSize).toNat = B.options.chunkSize :=
    UInt32.toNat_ofNat_of_lt' (lt_of_le_of_lt h.valid.chunkSize_le (by decide))
  have hcontent := List.length_pos_iff.mpr hseals.nonempty
  have hblock := List.length_pos_iff.mpr (hL.compress_ne_nil hlz4)
  have hcontent_le := hseals.length_le
  -- the plain form is shorter than the content, or of the same length
  unfold plainForm at hform
  have hplain : 0 < b.plain.length ∧ (b.compressed = true → b.plain.length < b.content.length) ∧
      (b.compressed = false → b.plain.length = b.content.length) := by
    split_ifs at hform with hshort
    · obtain ⟨hplain, hflag⟩ := Prod.mk.inj hform
      rw [hplain, hflag]
      exact ⟨hblock, fun _ => hshort, fun hflag => absurd hflag (by decide)⟩
    · obtain ⟨hplain, hflag⟩ := Prod.mk.inj hform
      rw [hplain, hflag]
      exact ⟨hcontent, fun hflag => absurd hflag (by decide), fun _ => rfl⟩
  have hover : overhead (packLayout B assets cap).aead =
      overhead (decide (B.options.protection = .aead)) := rfl
  -- the sizes, the place and the alignment of the chunk
  refine ⟨?_, ?_, ?_, fun hflag => ?_, fun hflag => ?_, hheader, hdesc.aligned, ?_⟩
  · rw [hdesc.originalSize]
    exact hcontent
  · rw [hdesc.originalSize, packLayout, hchunk]
    exact hcontent_le
  · rw [hdesc.storedSize, hstored, hover]
    omega
  · have := hplain.2.1 (hdesc.compressed ▸ hflag)
    rw [hdesc.storedSize, hdesc.originalSize, hstored, hover]
    omega
  · have := hplain.2.2 (hdesc.compressed ▸ hflag)
    rw [hdesc.storedSize, hdesc.originalSize, hstored, hover]
    omega
  · rw [packLayout, hstart]
    exact hstop.trans hle

/-! ## Layouts -/

theorem flatMap_chunkNumbers_listed (mode : PackMode) (entries : List TocEntry) :
    -- stripped entries keep their numbers
    (listedEntries mode entries).flatMap TocEntry.chunkNumbers =
      entries.flatMap TocEntry.chunkNumbers := by
  unfold listedEntries
  cases mode.stripsPaths with
  | false => rfl
  | true =>
    rw [if_pos rfl, List.flatMap_map]
    rfl

theorem le_sum_map {α : Type} {f : α → ℕ} {bs : List α} {b : α} (hb : b ∈ bs) :
    f b ≤ (bs.map f).sum :=
  List.single_le_sum (fun _ _ => Nat.zero_le _) _ (List.mem_map_of_mem hb)

/-- All pieces but the last are full, by their lengths. -/
theorem fullButLast_iff_lengths {n : ℕ} {ps : List Bytes} :
    FullButLast n ps ↔ ∀ m ∈ (ps.map List.length).dropLast, m = n := by
  rw [← List.map_dropLast, List.forall_mem_map]
  rfl

/-- The entry of an asset is valid where all pieces but the last are full. -/
theorem Archived.validEntry_iff {toc block stored : Bytes}
    (h : Archived D B assets toc block stored) (cap : ℕ) {front back : List Asset} {a : Asset}
    (ha : assets = front ++ a :: back) :
    ValidEntry (packLayout B assets cap) (packChunks D B assets)
        (assetEntry D (allBlocks front).length a) ↔
      FullButLast B.options.chunkSize (a.blocks.map Block.content) := by
  have hcount := h.blocks_lt
  rw [ha, allBlocks_append_cons, List.length_append, List.length_append] at hcount
  -- the chunks that the entry owns are those of its asset
  have howned := @ownedChunks_assetEntry D B.alignment headerSize front back a (by omega)
  rw [← ha, show chunkTable D B.alignment headerSize (allBlocks assets) = packChunks D B assets
    from rfl] at howned
  obtain ⟨hfirst, hchunks⟩ := @toNat_assetEntry D (allBlocks front).length a (by omega)
  obtain ⟨horiginal, hstored⟩ := h.sizes a (by rw [ha]; simp)
  simp only [Asset.totals, Totals.add, Nat.zero_add] at horiginal hstored
  have hmem : ∀ b ∈ a.blocks, b ∈ allBlocks assets := by
    intro b hb
    rw [ha, allBlocks_append_cons]
    simp [hb]
  have hnonempty : ∀ b ∈ a.blocks, b.content ≠ [] := by
    intro b hb
    obtain ⟨g, hg⟩ := List.getElem?_of_mem (hmem b hb)
    exact (h.seals g b hg).nonempty
  -- the sums of the entry bound each of its blocks
  have hlengths : ∀ b ∈ a.blocks, b.content.length < 2 ^ 64 ∧ b.stored.length < 2 ^ 64 :=
    fun b hb => ⟨lt_of_le_of_lt (le_sum_map (f := fun b => b.content.length) hb) horiginal,
      lt_of_le_of_lt (le_sum_map (f := fun b => b.stored.length) hb) hstored⟩
  obtain ⟨hcontents, hstoreds⟩ := @map_sizes_chunkTable D B.alignment
    (bodyEnd B.alignment headerSize (allBlocks front)) a.blocks hlengths
  have hchunk : (UInt32.ofNat B.options.chunkSize).toNat = B.options.chunkSize :=
    UInt32.toNat_ofNat_of_lt' (lt_of_le_of_lt h.valid.chunkSize_le (by decide))
  -- pieces and chunks have the same sizes
  have hfull : FullButLast B.options.chunkSize (a.blocks.map Block.content) ↔
      ∀ c ∈ (chunkTable D B.alignment (bodyEnd B.alignment headerSize (allBlocks front))
        a.blocks).dropLast, c.originalSize.toNat = B.options.chunkSize := by
    rw [fullButLast_iff_lengths, List.map_map]
    show (∀ m ∈ (a.blocks.map fun b => b.content.length).dropLast, m = _) ↔ _
    rw [← hcontents, ← List.map_dropLast, List.forall_mem_map]
  constructor
  · intro hv
    have hv' := hv.full
    rw [howned] at hv'
    exact hfull.mpr fun c hc => (hv' c hc).trans hchunk
  · intro hf
    refine ⟨?_, ?_, ?_, ?_, ?_⟩
    · rw [hfirst, hchunks, packChunks, length_chunkTable, ha, allBlocks_append_cons,
        List.length_append, List.length_append]
      omega
    · rw [chunkCount_eq_zero_iff, hchunks, ← UInt64.toNat_inj, List.length_eq_zero_iff]
      show (UInt64.ofNat (a.blocks.map fun b => b.content.length).sum).toNat = 0 ↔ _
      rw [UInt64.toNat_ofNat_of_lt' horiginal]
      constructor
      · -- an asset with no content has no blocks, as no block is empty
        intro hzero
        rw [List.eq_nil_iff_forall_not_mem]
        intro b hb
        have hle := le_sum_map (f := fun b => b.content.length) hb
        have hpos := List.length_pos_iff.mpr (hnonempty b hb)
        omega
      · intro hnil
        rw [hnil]
        rfl
    · rw [howned]
      exact fun c hc => (hfull.mp hf c hc).trans hchunk.symm
    · rw [howned, hcontents]
      exact (UInt64.toNat_ofNat_of_lt' horiginal).symm
    · rw [howned, hstoreds]
      exact (UInt64.toNat_ofNat_of_lt' hstored).symm

/-- The total size of the contents of an archive. -/
def contentSize (assets : List Asset) : ℕ :=
  ((allBlocks assets).map fun b => b.content.length).sum

/-- The total size of an archive is far below 2 ^ 64. -/
theorem Packable.contentSize_le (hv : B.options.Valid) (h : Packable D B assets) :
    contentSize assets ≤ 2 ^ 58 := by
  have hblocks := h.blocks_lt
  have hchunk : B.options.chunkSize ≤ 2 ^ 26 := hv.chunkSize_le
  have hle : contentSize assets ≤ (allBlocks assets).length * 2 ^ 26 := by
    refine sum_map_le fun b hb => ?_
    obtain ⟨g, hg⟩ := List.getElem?_of_mem hb
    exact ((h.seals g b hg).length_le).trans hchunk
  have hmul : (allBlocks assets).length * 2 ^ 26 ≤ 2 ^ 32 * 2 ^ 26 :=
    Nat.mul_le_mul_right _ hblocks.le
  omega

/-- A validity check looks at the place and the sizes of an entry only. -/
theorem validEntry_listed {p : LayoutParams} {chunks : List Chunk} {mode : PackMode}
    {entries : List TocEntry} : (∀ e ∈ listedEntries mode entries, ValidEntry p chunks e) ↔
      ∀ e ∈ entries, ValidEntry p chunks e := by
  unfold listedEntries
  cases mode.stripsPaths with
  | false => exact Iff.rfl
  | true =>
    rw [if_pos rfl, List.forall_mem_map]
    exact forall₂_congr fun e _ =>
      ⟨fun h => ⟨h.range_le, h.empty_iff, h.full, h.original_sum, h.stored_sum⟩,
        fun h => ⟨h.range_le, h.empty_iff, h.full, h.original_sum, h.stored_sum⟩⟩

/-- **When the layout of an archive is valid**: within the limit on the total size, and with all
pieces of an asset but the last full. -/
theorem Archived.validLayout_iff (hL : D.Lz4Lawful) (hA : D.AeadLawful) {toc block stored : Bytes}
    (h : Archived D B assets toc block stored) (cap : ℕ) :
    ValidLayout (packLayout B assets cap) (listedEntries B.options.mode (entryTable D 0 assets))
        (packChunks D B assets) ↔
      contentSize assets ≤ cap ∧
        ∀ a ∈ assets, FullButLast B.options.chunkSize (a.blocks.map Block.content) := by
  have hpos := Nat.pos_of_isPowerOfTwo h.valid.alignment_pow
  have hoffset_lt := h.offset_lt
  -- no block is as long as a number of 64 bits
  have hlengths : ∀ b ∈ allBlocks assets, b.content.length < 2 ^ 64 ∧ b.stored.length < 2 ^ 64 := by
    intro b hb
    obtain ⟨g, hg⟩ := List.getElem?_of_mem hb
    have hcontent := (h.seals g b hg).length_le
    have hstored := (h.seals g b hg).stored_le hA
    have hchunk : B.options.chunkSize ≤ 2 ^ 26 := h.valid.chunkSize_le
    unfold aeadOverhead at hstored
    omega
  -- the recorded sizes add up to the size of the contents
  have htotal : ((packChunks D B assets).map fun c => c.originalSize.toNat).sum =
      contentSize assets := congrArg List.sum (map_sizes_chunkTable hlengths).1
  -- each entry is valid where its asset is full but for the last piece
  have hentries : (∀ e ∈ listedEntries B.options.mode (entryTable D 0 assets),
      ValidEntry (packLayout B assets cap) (packChunks D B assets) e) ↔
      ∀ a ∈ assets, FullButLast B.options.chunkSize (a.blocks.map Block.content) := by
    rw [validEntry_listed]
    constructor
    · intro hall a ha
      obtain ⟨front, back, happ⟩ := List.append_of_mem ha
      refine (h.validEntry_iff cap happ).mp (hall _ ?_)
      rw [mem_entryTable]
      exact ⟨front, a, back, happ, by rw [Nat.zero_add]⟩
    · intro hall e he
      obtain ⟨front, a, back, happ, rfl⟩ := mem_entryTable.mp he
      rw [Nat.zero_add]
      exact (h.validEntry_iff cap happ).mpr (hall a (by rw [happ]; simp))
  constructor
  · intro hv
    exact ⟨htotal ▸ hv.total_le, hentries.mp hv.entry⟩
  · rintro ⟨hcap, hfull⟩
    refine ⟨fun c hc => h.validChunk hL hA cap hc,
      (@chunkTable_ordered D B.alignment headerSize hpos _ hoffset_lt).1, htotal.symm ▸ hcap, ?_,
      hentries.mpr hfull, ?_⟩
    · rw [htotal]
      exact lt_of_le_of_lt (h.contentSize_le h.valid) (by decide)
    · -- the entries own the chunks of the table, one after the other
      rw [flatMap_chunkNumbers_listed, flatMap_chunkNumbers (by rw [Nat.zero_add]; exact h.blocks_lt),
        packChunks, length_chunkTable, List.range_eq_range']

/-! ## The records of a finished packer -/

/-- The flags of a header say what the options ask for. -/
theorem headerFlags_spec (options : PackOptions) :
    (headerFlags options &&& headerFlagAead ≠ 0 ↔ options.protection = .aead) ∧
      (headerFlags options &&& headerFlagPathsStripped ≠ 0 ↔ options.mode.stripsPaths = true) := by
  have h : ∀ (protection : Protection) (mode : PackMode),
      (headerFlags ⟨0, 0, mode, protection⟩ &&& headerFlagAead ≠ 0 ↔ protection = .aead) ∧
        (headerFlags ⟨0, 0, mode, protection⟩ &&& headerFlagPathsStripped ≠ 0 ↔
          mode.stripsPaths = true) := by
    intro protection mode
    cases protection <;> cases mode <;> decide
  exact h options.protection options.mode

/-- The protection in the header is that of the options. -/
theorem protection_packHeader (toc stored : Bytes) :
    (packHeader D B assets toc stored).protection = B.options.protection := by
  have hflags := (headerFlags_spec B.options).1
  unfold Header.protection
  cases hp : B.options.protection with
  | xor => exact if_neg fun h => by rw [hp] at hflags; cases hflags.mp h
  | aead => exact if_pos (hflags.mpr hp)

theorem layout_packHeader (toc stored : Bytes) (limits : ArchiveLimits) :
    (packHeader D B assets toc stored).layout limits =
      packLayout B assets limits.maxTotalDecompressedBytes := by
  rw [Header.layout, protection_packHeader]
  rfl

/-- Limits that do not limit the total size. -/
def unlimitedTotal : ArchiveLimits :=
  { ArchiveLimits.permissiveV1 with maxTotalDecompressedBytes := 2 ^ 64 - 1 }

/-- `validate_layout` on the entries and chunks of a finished packer, under the header that is in
the file, and with no limit on the total size. -/
def checkPacked (p : Packer) (archive : Bytes) : Result Unit := do
  let header ← (readHeader archive).1
  validateLayout (header.layout unlimitedTotal) (listedEntries p.options.mode p.entries) p.chunks

/-- All pieces of the assets but the last of each are full exactly when no reader resumes. -/
theorem forall_fullButLast_iff {n : ℕ} (hn : 0 < n) {inputs : List Input}
    (h : List.Forall₂ (Asset.Of n) inputs assets) :
    (∀ a ∈ assets, FullButLast n (a.blocks.map Block.content)) ↔
      ∀ input ∈ inputs, resumes n input.reader = false := by
  induction h with
  | nil => simp
  | cons ha _ ih => rw [List.forall_mem_cons, List.forall_mem_cons, ih, ha.fills.fullButLast_iff hn]

/-- **The records of a finished packer** are accepted by the check of its reader exactly when no
reader of its assets gives bytes again after a read without bytes in the middle of a chunk. The
length that is returned is that of the file in any case. -/
theorem packed_layout (hL : D.Lz4Lawful) (hA : D.AeadLawful) {key : Bytes} {options : PackOptions}
    {entropy : Entropy} {inputs : List Input} {d d' : Device} {p : Packer}
    {s s' : PackState Device} {summary : PackSummary}
    (hnew : newPacker D deviceDestination key options d = (.ok p, d'))
    (hadd : (addEach D deviceDestination inputs ⟨p, d', entropy, []⟩).2 = s)
    (hfin : finish D deviceDestination s = (.ok summary, s')) :
    (checkPacked s.packer s'.writer.bytes = .ok () ∧
        summary.archiveLen = s'.writer.bytes.length) ↔
      ∀ input ∈ inputs, resumes options.chunkSize input.reader = false := by
  obtain ⟨assets, toc, block, stored, hpacked, hpacks, rfl, hbytes⟩ := finish_ok hnew hadd hfin
  have hlength := @length_image D ⟨key, options, entropy⟩ assets hpacked.valid toc stored
  have hheader : (readHeader s'.writer.bytes).1 =
      .ok (packHeader D ⟨key, options, entropy⟩ assets toc stored) := by
    have h : readHeader s'.writer.bytes =
        (.ok (packHeader D ⟨key, options, entropy⟩ assets toc stored),
          payload ⟨key, options, entropy⟩ assets stored) :=
      readHeader_eq_ok_iff.mpr hbytes
    rw [h]
  have htotal := hpacked.contentSize_le hpacked.valid
  have hcap : contentSize assets ≤ unlimitedTotal.maxTotalDecompressedBytes :=
    htotal.trans (by decide)
  rw [checkPacked, hheader, ok_bind, layout_packHeader, hpacks.stores.options, hpacks.entries,
    show s.packer.chunks = packChunks D ⟨key, options, entropy⟩ assets from hpacks.stores.chunks,
    validateLayout_eq_ok_iff, hpacked.validLayout_iff hL hA, and_iff_right hcap,
    forall_fullButLast_iff hpacked.valid.chunkSize_pos hpacked.inputs, hbytes]
  exact and_iff_left hlength.symm

/-- A packer for chunks of four bytes, after one asset from this reader. -/
def packerAfter (reader : List ReadEvent) : PackState Device :=
  (addEach reference deviceDestination [⟨"a", reader⟩]
    ⟨freshPacker reference [7] ⟨4, 4, .debug, .xor⟩, ⟨List.replicate 60 0, 60, none, none⟩,
      ⟨fun _ => none, 0, []⟩, []⟩).2

/-- A reader without bytes at the end of a chunk only. -/
theorem packed_layout_small : ∃ done,
    finish reference deviceDestination (packerAfter [.data [1, 2], .data [3, 4], .data [5]]) =
        (.ok ⟨183, 1, 2⟩, done) ∧
      checkPacked (packerAfter [.data [1, 2], .data [3, 4], .data [5]]).packer done.writer.bytes =
        .ok () := by
  have hrun : (finish reference deviceDestination
      (packerAfter [.data [1, 2], .data [3, 4], .data [5]])).1 = .ok ⟨183, 1, 2⟩ := by decide +kernel
  rcases hr : finish reference deviceDestination
    (packerAfter [.data [1, 2], .data [3, 4], .data [5]]) with ⟨x, done⟩
  rw [hr] at hrun
  cases hrun
  refine ⟨done, rfl, ?_⟩
  have hnew : newPacker reference deviceDestination [7] ⟨4, 4, .debug, .xor⟩
      (Device.empty none none) = (.ok (freshPacker reference [7] ⟨4, 4, .debug, .xor⟩),
        ⟨List.replicate 60 0, 60, none, none⟩) := rfl
  have hadd : (addEach reference deviceDestination [⟨"a", [.data [1, 2], .data [3, 4], .data [5]]⟩]
      ⟨freshPacker reference [7] ⟨4, 4, .debug, .xor⟩, ⟨List.replicate 60 0, 60, none, none⟩,
        ⟨fun _ => none, 0, []⟩, []⟩).2 = packerAfter [.data [1, 2], .data [3, 4], .data [5]] := by
    rw [packerAfter]
  exact ((packed_layout reference_lz4Lawful reference_aeadLawful hnew hadd hr).mpr
    (by decide)).1

/-- **A reader that resumes** in the middle of a chunk: the packer reports success, and its records
are refused. -/
theorem packed_layout_resumed :
    (finish reference deviceDestination
        (packerAfter [.data [1, 2], .data [], .data [3]])).1 = .ok ⟨183, 1, 2⟩ ∧
      checkPacked (packerAfter [.data [1, 2], .data [], .data [3]]).packer
          (finish reference deviceDestination
            (packerAfter [.data [1, 2], .data [], .data [3]])).2.writer.bytes =
        failWith (.corrupt "non-final chunk has unexpected size") := by
  constructor
  · decide +kernel
  · decide +kernel

end RasenArchive
