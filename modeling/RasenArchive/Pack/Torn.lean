import RasenArchive.Pack.RoundTrip

/-!
# Torn archives

What a packer leaves in the file when it stops anywhere: at a failing call, or because the file
takes no more bytes. The place of the header is written last and in order, so that the reader
refuses everything but a whole archive: zeroes have no magic bytes, a header without the size of the
raw table of contents allows no table, and a part of that size or of the hash does not go with the
table that is there.

## Main definitions

* `LeftBy`: the bytes in the file at a point where a run stops
* `Header.front`: the bytes of a header in front of the size and the hash of the raw table

## Main results

* `LeftBy.interrupted`: what a run leaves when it stops
* `torn_archive`: what is opened was left by a complete run
-/

namespace RasenArchive

variable {D : Dependencies} {B : Sealing} {assets : List Asset} {inputs : List Input}
  {toc block stored : Bytes}

/-! ## Where a run stops -/

/-- **The bytes in the file** when a run on the file `d` stops: at its start, after any calls of
`add_reader`, or in `finish`. The point inside a call is the one where the budgets of the file end. -/
inductive LeftBy (D : Dependencies) (key : Bytes) (options : PackOptions) (entropy : Entropy)
    (inputs : List Input) (d : Device) : Bytes → Prop
  | start {r : Result Packer} {d' : Device} :
      newPacker D deviceDestination key options d = (r, d') → LeftBy D key options entropy inputs d d'.bytes
  | adding {p : Packer} {d' : Device} :
      newPacker D deviceDestination key options d = (.ok p, d') →
      LeftBy D key options entropy inputs d
        (addEach D deviceDestination inputs ⟨p, d', entropy, []⟩).2.writer.bytes
  | finishing {p : Packer} {d' : Device} :
      newPacker D deviceDestination key options d = (.ok p, d') →
      LeftBy D key options entropy inputs d (finish D deviceDestination
        (addEach D deviceDestination inputs ⟨p, d', entropy, []⟩).2).2.writer.bytes

/-- Calls of `add_reader` leave the zeroes in the place of the header. -/
theorem addEach_keeps {s : PackState Device} (hv : B.options.Valid) (h : Packs D B assets s) :
    List.replicate headerSize 0 <+: (addEach D deviceDestination inputs s).2.writer.bytes := by
  induction inputs generalizing s assets with
  | nil =>
    rw [addEach, h.stores.bytes]
    exact List.prefix_append _ _
  | cons input inputs ih =>
    have hpost := addReader_post hv h input.path input.reader
    rw [addEach]
    rcases hr : addReader D deviceDestination input.path input.reader s with ⟨f | u, s₁⟩
    · obtain ⟨hkeeps, hfailed, -⟩ := hpost.of_error hr
      rw [addEach_failed hfailed]
      refine List.IsPrefix.trans ?_ hkeeps
      rw [h.stores.bytes]
      exact List.prefix_append _ _
    · obtain ⟨a, -, -, -, hpacks, -⟩ := hpost.of_ok hr
      exact ih hpacks

/-- A whole archive is one whose header is written to its end. -/
theorem cutImage_headerSize : cutImage D B assets toc stored headerSize =
    image D B assets toc stored := by
  rw [cutImage, List.take_of_length_le (length_encodeHeader _).le, Nat.sub_self,
    List.replicate_zero, List.append_nil, image]

/-- **What a run leaves** when it stops anywhere. -/
theorem LeftBy.interrupted {key : Bytes} {options : PackOptions} {entropy : Entropy} {d : Device}
    {bytes : Bytes} (hempty : d.bytes = []) (h : LeftBy D key options entropy inputs d bytes) :
    Interrupted D ⟨key, options, entropy⟩ inputs bytes := by
  cases h with
  | @start r d' hnew =>
    rcases r with f | p
    · exact Or.inl ((newPacker_post hempty).of_error hnew).1
    · obtain ⟨-, -, -, hpacks⟩ := packs_newPacker hnew entropy []
      refine Or.inr (Or.inl ?_)
      have hbytes := hpacks.stores.bytes
      show List.replicate headerSize 0 <+: d'.bytes
      rw [show d'.bytes = _ from hbytes]
      exact List.prefix_append _ _
  | adding hnew =>
    obtain ⟨-, hv, -, hpacks⟩ := packs_newPacker hnew entropy []
    exact Or.inr (Or.inl (addEach_keeps hv hpacks))
  | @finishing p d' hnew =>
    obtain ⟨hkey, hv, -, hpacks⟩ := packs_newPacker hnew entropy []
    cases hfailed : (addEach D deviceDestination inputs
        (⟨p, d', entropy, []⟩ : PackState Device)).2.packer.failed with
    | true =>
      rw [finish_failed hfailed]
      exact Or.inr (Or.inl (addEach_keeps hv hpacks))
    | false =>
      obtain ⟨assets, hassets, hall⟩ := addReaders_packs hv hpacks (addReaders_of_not_failed hfailed)
      rw [List.nil_append] at hassets
      have hpost := finish_post hkey hv hassets
      rcases hfin : finish D deviceDestination (addEach D deviceDestination inputs
        (⟨p, d', entropy, []⟩ : PackState Device)).2 with ⟨f | summary, s'⟩
      · rcases (hpost.of_error hfin).1 with hzeroes | ⟨toc, block, stored, n, hdone, hn, hbytes⟩
        · exact Or.inr (Or.inl hzeroes)
        · exact Or.inr (Or.inr ⟨assets, toc, block, stored, n, ⟨hdone, hall⟩, hn, hbytes⟩)
      · obtain ⟨toc, block, stored, hdone, -, hbytes, -⟩ := hpost.of_ok hfin
        exact Or.inr (Or.inr ⟨assets, toc, block, stored, headerSize, ⟨hdone, hall⟩, le_rfl,
          hbytes.trans cutImage_headerSize.symm⟩)

/-! ## Headers that are not written to their end -/

/-- The bytes of a header in front of the size and the hash of the raw table. -/
def Header.front (h : Header) : Bytes := ((headerFields h).take 10).flatten

theorem encodeHeader_eq (h : Header) :
    encodeHeader h = h.front ++ (u64ToLeBytes h.tocRawSize ++ u64ToLeBytes h.tocHash) := by
  simp [encodeHeader, Header.front, headerFields]

@[simp] theorem Header.length_front (h : Header) : h.front.length = 44 := by
  simp [Header.front, headerFields, magic]

/-- A header is that of its front, with the size and the hash of the raw table. -/
theorem eq_of_front {h h' : Header} (heq : h.front = h'.front) :
    h' = { h with tocRawSize := h'.tocRawSize, tocHash := h'.tocHash } := by
  apply encodeHeader_injective
  rw [encodeHeader_eq, encodeHeader_eq, ← heq]
  rfl

/-- Zeroes are no header. -/
theorem ne_zeroes (h : Header) : encodeHeader h ≠ List.replicate headerSize 0 := by
  intro heq
  have hmagic := congrArg (List.take 4) heq
  have hfront : (encodeHeader h).take 4 = magic := by
    rw [encodeHeader, headerFields, List.flatten_cons]
    exact List.take_left' rfl
  rw [hfront] at hmagic
  exact absurd hmagic (by decide)

/-- A header that ends in front of the size of the raw table allows no table. -/
theorem not_accepted_of_cut {h h' : Header} {n : ℕ} (hn : n ≤ 44) (limits : ArchiveLimits)
    (heq : encodeHeader h' = (encodeHeader h).take n ++ List.replicate (headerSize - n) 0) :
    ¬ AcceptedHeader limits h' := by
  intro haccept
  obtain ⟨-, -, -, -, -, hleast, -⟩ := validateLimits_eq_ok_iff.mp haccept.limited
  have hzero : u64ToLeBytes h'.tocRawSize = List.replicate 8 0 := by
    have htail := congrArg (fun bs => (bs.drop 44).take 8) heq
    rw [encodeHeader_eq h', List.drop_left' h'.length_front,
      List.take_left' (length_u64ToLeBytes _)] at htail
    have hlen : ((encodeHeader h).take n).length = n := by
      rw [List.length_take, length_encodeHeader]
      exact min_eq_left (hn.trans (by decide))
    rw [htail, List.drop_append, List.drop_eq_nil_of_le (by omega), List.nil_append, hlen,
      List.drop_replicate, List.take_replicate]
    congr 1
    unfold headerSize
    omega
  have hraw : h'.tocRawSize = 0 := by
    rw [← (u64FromLeBytes_eq_iff (length_u64ToLeBytes _)).mpr (rfl : u64ToLeBytes h'.tocRawSize = _),
      hzero]
    decide
  rw [hraw, leastRawSize] at hleast
  have hz : (0 : UInt64).toNat = 0 := rfl
  omega

/-- A header with the place of the table: only the size and the hash of the raw table are open. -/
theorem eq_of_cut {h h' : Header} {n : ℕ} (hn : 44 < n)
    (heq : encodeHeader h' = (encodeHeader h).take n ++ List.replicate (headerSize - n) 0) :
    h' = { h with tocRawSize := h'.tocRawSize, tocHash := h'.tocHash } := by
  apply eq_of_front
  have hfront := congrArg (List.take 44) heq
  rw [encodeHeader_eq h', List.take_left' h'.length_front, List.take_append_of_le_length (by
    rw [List.length_take, length_encodeHeader, headerSize]
    omega), List.take_take, min_eq_left hn.le, encodeHeader_eq h,
    List.take_left' h.length_front] at hfront
  exact hfront.symm

/-! ## What is opened -/

section

variable {W : Type} {R : RandomAccessRead W} {P : W → Prop} {w w' : W} {a : Archive}
  {limits : ArchiveLimits}

/-- **What is opened** of an archive with a part of its header is the whole archive. -/
theorem Archived.eq_image_of_open (hL : D.Lz4Lawful) (hA : D.AeadLawful)
    (h : Archived D B assets toc block stored) {n : ℕ} (hn : n ≤ headerSize)
    (hp : Presents R P (cutImage D B assets toc stored n)) (hw : P w)
    (hopen : openWithLimits D R B.key limits w = (.ok a, w')) :
    cutImage D B assets toc stored n = image D B assets toc stored := by
  obtain ⟨-, hle, header, hheader, haccept, -, htoc⟩ :=
    (openWithLimits_presents_iff hp hw).mp (congrArg Prod.fst hopen)
  have hfront : ((encodeHeader (packHeader D B assets toc stored)).take n ++
      List.replicate (headerSize - n) 0).length = headerSize := by
    rw [List.length_append, List.length_take, length_encodeHeader, List.length_replicate]
    omega
  have hcut : encodeHeader header = (encodeHeader (packHeader D B assets toc stored)).take n ++
      List.replicate (headerSize - n) 0 := by
    rw [← hheader, cutImage, extract_append_of_le hfront.ge, extract_zero_length hfront.symm]
  have hlast : 44 < n := by
    by_contra hlt
    exact not_accepted_of_cut (not_lt.mp hlt) _ hcut haccept
  obtain ⟨raw, hash, rfl⟩ : ∃ raw hash, header =
      { packHeader D B assets toc stored with tocRawSize := raw, tocHash := hash } :=
    ⟨_, _, eq_of_cut hlast hcut⟩
  obtain ⟨-, -, -, hoffset, hsize, hraw⟩ := h.numbers
  -- the table of contents is that of the archive, so its size and its hash are
  obtain ⟨block', plain, entries, chunks, hb, hd, hlen, hsum, -⟩ := openToc_eq_ok_iff.mp htoc
  have hprotection : Header.protection { packHeader D B assets toc stored with
      tocRawSize := raw, tocHash := hash } = B.options.protection :=
    @protection_packHeader D B assets toc stored
  rw [hprotection, cutImage, hoffset, hsize, h.extract_stored hfront] at hb
  cases (h.unprotectToc_eq hA).symm.trans hb
  obtain rfl := hL.decompress_unique h.toc.compressed hd
  have hrawEq : raw = (packHeader D B assets plain stored).tocRawSize := by
    rw [← UInt64.toNat_inj, hraw]
    exact hlen.symm
  have hhashEq : hash = (packHeader D B assets plain stored).tocHash := hsum.symm
  rw [hrawEq, hhashEq] at hcut
  rw [cutImage, ← hcut]
  rfl

/-- **No torn archive opens**: what a run that stops anywhere leaves in an empty file is refused
under its key, or it is the whole archive that a run without an interruption makes of the inputs. -/
theorem torn_archive (hL : D.Lz4Lawful) (hA : D.AeadLawful) {key : Bytes} {options : PackOptions}
    {entropy : Entropy} {d : Device} {bytes : Bytes} (hempty : d.bytes = [])
    (h : LeftBy D key options entropy inputs d bytes) (hp : Presents R P bytes) (hw : P w)
    (hopen : openWithLimits D R key limits w = (.ok a, w')) :
    ∃ summary env, packReaders D deviceDestination key options inputs ⟨d.unlimited, entropy⟩ =
      (.ok summary, env) ∧ env.writer.bytes = bytes := by
  -- a file without a header is refused by its first bytes
  have hnone : ¬ List.replicate headerSize 0 <+: bytes := by
    rintro ⟨rest, rfl⟩
    obtain ⟨-, -, header, hheader, -⟩ :=
      (openWithLimits_presents_iff hp hw).mp (congrArg Prod.fst hopen)
    rw [extract_append_of_le (List.length_replicate).ge,
      extract_zero_length (List.length_replicate).symm] at hheader
    exact ne_zeroes header hheader.symm
  rcases h.interrupted hempty with ⟨n, hbytes⟩ | hzeroes |
    ⟨assets, toc, block, stored, n, hpacked, hn, hbytes⟩
  · exfalso
    obtain ⟨-, hle, -⟩ := (openWithLimits_presents_iff hp hw).mp (congrArg Prod.fst hopen)
    refine hnone ⟨[], ?_⟩
    rw [hbytes, List.length_take, List.length_replicate] at hle
    rw [hbytes, List.append_nil, List.take_of_length_le]
    rw [List.length_replicate]
    omega
  · exact absurd hzeroes hnone
  · rw [hbytes] at hp
    have himage := hpacked.eq_image_of_open hL hA hn hp hw hopen
    obtain ⟨env, hrun, hdone, -⟩ := packReaders_of_packed (d := d.unlimited) hempty
      d.healthy_unlimited hpacked
    exact ⟨_, env, hrun, hdone.trans (himage.symm.trans hbytes.symm)⟩

end

/-- The file of `torn_archive_small` before its packer: it takes as many bytes as its run writes. -/
def tornDevice : Device := Device.empty (some 243) none

/-- That file in the hands of its packer, with the zeroes for the header. -/
def tornState : PackState Device :=
  ⟨freshPacker reference [7] ⟨2, 4, .debug, .xor⟩,
    ⟨List.replicate 60 0, 60, some 183, none⟩, ⟨fun _ => none, 0, []⟩, []⟩

/-- The bytes of that file when `finish` has ended. -/
def tornBytes : Bytes :=
  (finish reference deviceDestination
    (addEach reference deviceDestination [⟨"./a", [.data [1], .interrupted, .data [2, 3]]⟩]
      tornState).2).2.writer.bytes

theorem tornBytes_leftBy : LeftBy reference [7] ⟨2, 4, .debug, .xor⟩ ⟨fun _ => none, 0, []⟩
    [⟨"./a", [.data [1], .interrupted, .data [2, 3]]⟩] tornDevice tornBytes := by
  have hnew : newPacker reference deviceDestination [7] ⟨2, 4, .debug, .xor⟩ tornDevice =
    (.ok (freshPacker reference [7] ⟨2, 4, .debug, .xor⟩),
      ⟨List.replicate 60 0, 60, some 183, none⟩) := rfl
  rw [tornBytes, tornState]
  exact .finishing hnew

/-- The file takes just what the small run writes, and what it has at the end is opened. -/
theorem torn_archive_small : ∃ summary env,
    packReaders reference deviceDestination [7] ⟨2, 4, .debug, .xor⟩
      [⟨"./a", [.data [1], .interrupted, .data [2, 3]]⟩]
      ⟨tornDevice.unlimited, ⟨fun _ => none, 0, []⟩⟩ = (.ok summary, env) ∧
    env.writer.bytes = tornBytes := by
  have hok : (openWithLimits reference sliceSource [7] .permissiveV1 tornBytes).1.isOk = true := by
    decide +kernel
  rcases hopen : openWithLimits reference sliceSource [7] .permissiveV1 tornBytes with ⟨f | a, w⟩
  · rw [hopen] at hok
    cases hok
  · exact torn_archive reference_lz4Lawful reference_aeadLawful rfl tornBytes_leftBy
      (sliceSource_presents tornBytes) rfl hopen

end RasenArchive
