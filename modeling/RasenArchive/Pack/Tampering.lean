import RasenArchive.Archive.Independence
import RasenArchive.Format.Unique
import RasenArchive.Pack.RoundTrip

/-!
# Tampering with AEAD archives

The header of an archive is not authenticated, and the bytes that are can be stored anywhere. Let
decryption under the key of a packing run accept nothing but the blocks of that run. Whatever is made
of the archive, when it is opened with AEAD it lists the entries of the run, and a request on it
fails or returns the bytes that were packed.

## Main definitions

* `Authentic D key calls`: decryption accepts the blocks of these calls only
* `Request.Answers`: what a request returns of an entry with these contents
* `Request.Names`: a request is for an asset

## Main results

* `Request.run_answers`: requests on any open archive, where its chunks have one content each
* `Archived.opened_unique`: what an archive can be made to open to
* `tamper_evidence`: the entries and the answers to all requests
-/

namespace RasenArchive

/-- Under this key, decryption accepts nothing but the blocks of these calls of `encrypt`, each with
its associated data, and gives back what was encrypted. -/
def Authentic (D : Dependencies) (key : Bytes) (calls : List SealedBlock) : Prop :=
  ∀ stored aad plain, decrypt D stored (deriveKey D key) aad = .ok plain →
    ⟨plain, aad, stored⟩ ∈ calls

/-- What is compressed to a block is all that the block is decompressed to. -/
def OneContent (D : Dependencies) : Prop :=
  ∀ input capacity block length output, D.compressInto input capacity = .ok block →
    D.decompressInto block length = .ok output → output = input

/-! ## Answers -/

/-- **The answer to a request** for an entry whose chunks have these contents: the number of bytes,
and those of the fresh buffer or of the destination. -/
def Request.Answers : Request → List Bytes → ℕ × Bytes → Prop
  | .whole _ | .wholeById _ | .wholeInto _ _ _ => fun ds r =>
    r = (ds.flatten.length, ds.flatten)
  | .chunk _ i | .chunkInto _ i _ _ => fun ds r =>
    ds[i.toNat]? = some r.2 ∧ r.1 = r.2.length
  | .range _ offset len exact => fun ds r =>
    r.2 = ds.flatten.extract offset.toNat (offset.toNat + len.toNat) ∧ r.1 = r.2.length ∧
      (exact = true → r.1 = len.toNat)
  | .rangeInto _ offset dst _ _ => fun ds r =>
    r.1 = (ds.flatten.extract offset.toNat (offset.toNat + dst.length)).length ∧
      r.2 = ds.flatten.extract offset.toNat (offset.toNat + dst.length) ++ dst.drop r.1

section Answers

variable {D : Dependencies} {W : Type} {R : RandomAccessRead W} {a : Archive} {w : W}
  {Q : ℕ × Bytes → Prop}

/-- A call into a fresh buffer. -/
theorem post_fresh {x : Fallible W Fault Bytes}
    (h : Fallible.Post x w (fun d _ => Q (d.length, d)) fun _ _ => True) :
    Fallible.Post (x >>= fun d => pure (d.length, d)) w (fun r _ => Q r) fun _ _ => True :=
  h.bind fun _ _ hd => hd

/-- A call into a destination of the caller. -/
theorem post_into {x : Fallible (ReadState W) Fault Unit} {dst : Bytes} {scratch : ArchiveScratch}
    (h : Fallible.Post x ⟨w, dst, scratch⟩ (fun _ s => Q (s.dst.length, s.dst)) fun _ _ => True) :
    Fallible.Post (withDst dst scratch x >>= fun r => pure (r.2.length, r.2)) w (fun r _ => Q r)
      fun _ _ => True := by
  have hpost : Fallible.Post (withDst dst scratch x) w (fun r _ => Q (r.2.length, r.2))
      fun _ _ => True := post_withDst.mpr h
  refine hpost.bind ?_
  intro r s hd
  exact hd

/-- The window that a range comes to. -/
theorem Contents.window (h : WellFormed D a) {Rel : ℕ → Bytes → Prop} {e : Entry} {ds : List Bytes}
    (hc : Contents a Rel e ds) (he : e ∈ a.entries) {offset len n : ℕ} {exact : Bool}
    (hacc : RangeAccepted a e offset len exact n) {data : Bytes}
    (hdata : IsRange a Rel e offset n data) :
    data = ds.flatten.extract offset (offset + len) ∧ (exact = true → n = len) := by
  have hn := hacc.length_eq
  have hle := hacc.offset_le
  obtain ⟨-, -, htotal⟩ := hc.fullButLast h he
  refine ⟨?_, fun hexact => ?_⟩
  · rw [hc.range h he (by omega) hdata, ← extract_min_length (j := offset + len), htotal]
    congr 1
    omega
  · have hstop := hacc.stop_le hexact
    omega

/-- **What a request returns**, wherever the checks leave one content for each chunk. -/
theorem Request.run_answers (h : WellFormed D a) (request : Request) :
    Fallible.Post (request.run D R a) w
      (fun r _ => ∃ e, request.entry D a = .ok e ∧
        ∀ ds, Contents a (VerifiedAt D a) e ds → request.Answers ds r)
      fun _ _ => True := by
  -- verified content is all that is known of the chunks
  have spec := (anySource D R a).trace
  have hmem : ∀ {path : String} {e : Entry}, RasenArchive.entry D a path = .ok e →
      e ∈ a.entries := fun he => mem_of_entry h he
  cases request with
  | whole path =>
    refine post_fresh ((read_post spec h trivial).mono ?_ fun _ _ _ => trivial)
    rintro d _ ⟨e, he, -, -, hd⟩
    refine ⟨e, he, fun ds hc => ?_⟩
    -- the pieces are determined by the checks
    rw [hc.whole hd]
    rfl
  | wholeById id =>
    refine post_fresh ((readById_post spec h trivial id).mono ?_ fun _ _ _ => trivial)
    rintro d _ ⟨e, he, -, -, hd⟩
    refine ⟨e, he, fun ds hc => ?_⟩
    rw [hc.whole hd]
    rfl
  | wholeInto path dst scratch =>
    rw [Request.run_wholeInto]
    refine post_into ((readIntoWithScratch_post spec h trivial).mono ?_ fun _ _ _ => trivial)
    rintro _ s ⟨e, he, -, -, hd⟩
    refine ⟨e, he, fun ds hc => ?_⟩
    rw [hc.whole hd]
    rfl
  | chunk path i =>
    refine post_fresh ((readChunk_post spec h trivial i).mono ?_ fun _ _ _ => trivial)
    rintro d _ ⟨e, he, hi, -, hd⟩
    refine ⟨e, he, fun ds hc => ⟨?_, rfl⟩⟩
    rw [← hc.length_eq] at hi
    -- the returned chunk is the piece of that number
    rw [List.getElem?_eq_getElem hi, hc.unique _ hi d hd]
  | chunkInto path i dst scratch =>
    rw [Request.run_chunkInto]
    refine post_into ((readChunkIntoWithScratch_post spec h trivial i).mono ?_ fun _ _ _ => trivial)
    rintro _ s ⟨e, he, hi, -, hd⟩
    refine ⟨e, he, fun ds hc => ⟨?_, rfl⟩⟩
    rw [← hc.length_eq] at hi
    rw [List.getElem?_eq_getElem hi, hc.unique _ hi s.dst hd]
  | range path offset len exact =>
    have hpost : Fallible.Post (if exact then readRangeExact D R a path offset len
        else readRange D R a path offset len) w (fun d _ => ∃ e,
          RasenArchive.entry D a path = .ok e ∧ ∀ ds, Contents a (VerifiedAt D a) e ds →
            (Request.range path offset len exact).Answers ds (d.length, d)) fun _ _ => True := by
      refine (readRange_post spec h trivial offset len exact).mono ?_ fun _ _ _ => trivial
      rintro d _ ⟨e, he, -, hacc, hd⟩
      refine ⟨e, he, fun ds hc => ?_⟩
      obtain ⟨hdata, hexact⟩ := hc.window h (hmem he) hacc hd
      exact ⟨hdata, rfl, hexact⟩
    -- both calls for a range are the same one
    cases exact with
    | true => exact post_fresh hpost
    | false => exact post_fresh hpost
  | rangeInto path offset dst hdst scratch =>
    rw [Request.run_rangeInto]
    refine post_withDst.mpr ?_
    refine (readRangeWithScratch_post spec h trivial offset hdst).mono ?_ fun _ _ _ => trivial
    rintro n s ⟨e, he, -, hacc, d, hlen, hd, hs⟩
    refine ⟨e, he, fun ds hc => ?_⟩
    -- the window of the pieces that the range asks for
    have hdata : d = ds.flatten.extract offset.toNat (offset.toNat + dst.length) :=
      (hc.window h (hmem he) hacc hd).1
    refine ⟨?_, ?_⟩
    · rw [← hdata]
      exact hlen.symm
    · rw [← hdata]
      exact hs

end Answers

/-! ## What decryption accepts -/

section Opened

variable {D : Dependencies} {B : Sealing} {assets : List Asset} {toc block stored : Bytes}

/-- The calls of `encrypt` in a run that leaves this archive: one for each block, and one for the
table of contents. -/
def sealedBlocks (assets : List Asset) (block stored : Bytes) : List SealedBlock :=
  (allBlocks assets).mapIdx Sealing.call ++ [⟨block, tocAad, stored⟩]

/-- The record of the calls after a run. -/
theorem Sealing.calls_entropyDone (hp : B.options.protection = .aead) :
    (B.entropyDone (allBlocks assets) block stored).calls =
      B.entropy.calls ++ sealedBlocks assets block stored := by
  unfold Sealing.entropyDone Sealing.entropyAfter sealedBlocks
  rw [hp, ← List.append_assoc]

/-- What has the associated data of the table of contents is the table of contents. -/
theorem toc_of_mem_sealedBlocks {plain stored' : Bytes}
    (h : ⟨plain, tocAad, stored'⟩ ∈ sealedBlocks assets block stored) : plain = block := by
  rcases List.mem_append.mp h with hchunk | htoc
  · obtain ⟨g, _, hg⟩ := List.mem_mapIdx.mp hchunk
    exact absurd (congrArg SealedBlock.aad hg) (chunkAad_ne_tocAad g)
  · rw [List.mem_singleton] at htoc
    exact congrArg SealedBlock.plain htoc

/-- What has the associated data of a chunk is the block of this number. -/
theorem block_of_mem_sealedBlocks (hlt : (allBlocks assets).length < 2 ^ 32) {g : ℕ} {b : Block}
    (hg : (allBlocks assets)[g]? = some b) {plain stored' : Bytes}
    (h : ⟨plain, chunkAad g, stored'⟩ ∈ sealedBlocks assets block stored) : plain = b.plain := by
  obtain ⟨hbound, hb⟩ := List.getElem?_eq_some_iff.mp hg
  rcases List.mem_append.mp h with hchunk | htoc
  · obtain ⟨i, hi, hcall⟩ := List.mem_mapIdx.mp hchunk
    have hsame := chunkAad_injective (by omega) (by omega) (congrArg SealedBlock.aad hcall)
    subst hsame
    rw [← hb]
    exact (congrArg SealedBlock.plain hcall).symm
  · rw [List.mem_singleton] at htoc
    exact absurd (congrArg SealedBlock.aad htoc) (chunkAad_ne_tocAad g)

/-! ## What an archive can be made to open to -/

/-- The entries of an archive share its chunks out. -/
theorem Packable.sharedOut (h : Packable D B assets) :
    SharedOut (listedEntries B.options.mode (entryTable D 0 assets)) (packChunks D B assets) := by
  have hnumbers := @flatMap_chunkNumbers D assets 0 (by simpa using h.blocks_lt)
  have hlen := congrArg List.length hnumbers
  rw [length_flatMap_chunkNumbers, List.length_range'] at hlen
  rw [SharedOut, packChunks, length_chunkTable, ← hlen, listedEntries]
  split_ifs
  · rw [List.map_map]
    rfl
  · rfl

section Authentic

variable (h : Archived D B assets toc block stored) (hlz4 : OneContent D)
  (hauth : Authentic D B.key (sealedBlocks assets block stored))

include h hlz4 hauth

/-- **What an archive can be made to open to**: the entries and chunks that were packed, whatever
the header says about the table of contents. -/
theorem Archived.opened_unique {limits : ArchiveLimits} {header : Header} {bytes : Bytes}
    {a : Archive} (hopen : openToc D limits B.key header bytes = .ok a)
    (ha : a.protection = .aead) :
    a.entries = listedEntries B.options.mode (entryTable D 0 assets) ∧
      a.chunks = packChunks D B assets ∧ a.aeadKey = some (deriveKey D B.key) ∧
      (a.entries ≠ [] → a.pathsStripped = B.options.mode.stripsPaths) := by
  obtain ⟨block', plain, entries, chunks, hb, hd, -, -, ht, hl, -, rfl⟩ :=
    openToc_eq_ok_iff.mp hopen
  have hprotection : header.protection = .aead := ha
  rw [hprotection] at hb
  have hblock : block' = block := toc_of_mem_sealedBlocks (hauth _ _ _ hb)
  rw [hblock] at hd
  have hplain : plain = toc := hlz4 _ _ _ _ _ h.toc.compressed hd
  obtain ⟨-, -, -, paths, haccepts, -, himage⟩ := decodeToc_eq_ok_iff.mp ht
  rw [hplain, h.toc_eq.1] at himage
  -- the entries that were packed are accepted under limits that nothing reaches
  have hown : List.Forall₂ (Accepts D B.options.mode.stripsPaths ⟨maxPathLen, 0, 2 ^ 64⟩)
      (listedEntries B.options.mode (entryTable D 0 assets))
      ((listedEntries B.options.mode (entryTable D 0 assets)).map fun e => asBytes e.path) := by
    obtain ⟨hpaths, -, -⟩ := encodeToc_eq_ok_iff.mp h.toc.encoded
    refine forall₂_accepts_map fun e he => ?_
    exact accepts_of_ownPath (h.ownPath e he) e.originalSize.toNat_lt.le (hpaths e he)
  obtain ⟨hentries, hchunks, hstripped⟩ := decoded_unique haccepts hown hl.sharedOut
    h.toPackable.sharedOut himage.symm
  refine ⟨hentries, hchunks, ?_, hstripped⟩
  show aeadKeyFor D header.protection B.key = _
  rw [hprotection]
  rfl

variable {a : Archive} (hchunks : a.chunks = packChunks D B assets)
  (hkey : a.aeadKey = some (deriveKey D B.key))

include hchunks hkey

/-- **What a chunk can be made to open to**: the content that was packed. -/
theorem Archived.content_unique {g : ℕ} {b : Block} (hg : (allBlocks assets)[g]? = some b)
    {d : Bytes} (hv : VerifiedAt D a g d) : d = b.content := by
  obtain ⟨chunk, hchunk, hverified⟩ := hv
  obtain ⟨c, hc, hdesc⟩ := h.describes hg
  rw [hchunks, hc] at hchunk
  obtain rfl := Option.some.inj hchunk
  obtain ⟨stored', plain, -, hd, hplain⟩ := hverified.decrypted _ hkey
  rw [block_of_mem_sealedBlocks h.blocks_lt hg (hauth _ _ _ hd)] at hplain
  obtain ⟨lz4, hcompressed, hform⟩ := (h.seals g b hg).plain
  unfold IsPlainOf at hplain
  rw [hdesc.compressed] at hplain
  unfold plainForm at hform
  split_ifs at hform with hshort
  · obtain ⟨hp', hc'⟩ := Prod.mk.inj hform
    rw [hc', if_pos rfl, hp'] at hplain
    exact hlz4 _ _ _ _ _ hcompressed hplain.1
  · obtain ⟨hp', hc'⟩ := Prod.mk.inj hform
    rw [hc', if_neg (by decide), hp'] at hplain
    exact hplain.symm

/-- **The contents of the chunks of an entry** are the pieces of its asset. -/
theorem Archived.contents {front back : List Asset} {x : Asset}
    (happ : assets = front ++ x :: back) {e : Entry}
    (he : e.firstChunk = UInt32.ofNat (allBlocks front).length ∧
      e.chunkCount = UInt32.ofNat x.blocks.length) :
    Contents a (VerifiedAt D a) e (x.blocks.map Block.content) := by
  have hcount := h.blocks_lt
  rw [happ, allBlocks_append_cons, List.length_append, List.length_append] at hcount
  obtain ⟨hfirst, hlength⟩ := @toNat_assetEntry D (allBlocks front).length x (by omega)
  have hnumber : e.firstChunk.toNat = (allBlocks front).length := by
    rw [he.1]
    exact hfirst
  have hblock : ∀ i (hi : i < x.blocks.length),
      (allBlocks assets)[e.firstChunk.toNat + i]? = some x.blocks[i] := by
    intro i hi
    rw [hnumber, happ, allBlocks_append_cons, List.getElem?_append_right (Nat.le_add_right _ _),
      Nat.add_sub_cancel_left, List.getElem?_append_left hi, List.getElem?_eq_getElem hi]
  refine ⟨?_, fun i hi d hd => ?_, fun i hi chunk hchunk => ?_⟩
  · rw [he.2, List.length_map]
    exact hlength.symm
  · rw [List.getElem_map]
    rw [List.length_map] at hi
    exact h.content_unique hlz4 hauth hchunks hkey (hblock i hi) hd
  · rw [List.length_map] at hi
    obtain ⟨c, hc, hdesc⟩ := h.describes (hblock i hi)
    rw [hchunks, hc] at hchunk
    rw [List.getElem_map, ← hdesc.originalSize, Option.some.inj hchunk]

end Authentic

/-! ## Assets and the requests for them -/

/-- The path leads to the asset: by its normal form, or in an archive without paths by its hash. -/
def Asset.IsAt (D : Dependencies) (mode : PackMode) (path : String) (x : Asset) : Prop :=
  ∃ q, normalizePath path = .ok q ∧
    if mode.stripsPaths then pathHash D x.path = pathHash D q else x.path = q

/-- **The request is for the asset.** -/
def Request.Names (D : Dependencies) (mode : PackMode) (x : Asset) : Request → Prop
  | .whole path | .wholeInto path _ _ | .chunk path _ | .chunkInto path _ _ _
  | .range path _ _ _ | .rangeInto path _ _ _ _ => x.IsAt D mode path
  | .wholeById id => pathHash D x.path = id.get

/-- Assets whose entries have the same path and hash are the same. -/
theorem Packable.eq_of_same (h : Packable D B assets) {x y : Asset} (hx : x ∈ assets)
    (hy : y ∈ assets) (hhash : pathHash D y.path = pathHash D x.path)
    (hpath : B.options.mode.stripsPaths = false → y.path = x.path) : y = x := by
  cases hmode : B.options.mode with
  | debug =>
    rw [hmode] at hpath
    exact List.inj_on_of_nodup_map h.paths hy hx (hpath rfl)
  | production =>
    have hhashes := h.hashes hmode
    rw [List.map_map] at hhashes
    exact List.inj_on_of_nodup_map hhashes hy hx hhash

section Requests

variable {a : Archive} {e : Entry} (h : Packable D B assets) (hwell : WellFormed D a)
  (hentries : a.entries = listedEntries B.options.mode (entryTable D 0 assets))

include h hwell hentries

/-- The entry that a path leads to is that of the one asset that it leads to. -/
theorem Packable.asset_of_entry
    (hstripped : a.entries ≠ [] → a.pathsStripped = B.options.mode.stripsPaths) {path : String}
    (he : entry D a path = .ok e) : ∃ front x back, assets = front ++ x :: back ∧
      (e.firstChunk = UInt32.ofNat (allBlocks front).length ∧
        e.chunkCount = UInt32.ofNat x.blocks.length) ∧
      ∀ y ∈ assets, y.IsAt D B.options.mode path ↔ y = x := by
  obtain ⟨q, hq, hmem, hm⟩ := (entry_eq_ok_iff hwell).mp he
  rw [hstripped (List.ne_nil_of_mem hmem)] at hm
  rw [hentries] at hmem
  -- an entry of the archive is that of an asset
  obtain ⟨front, x, back, happ, rfl⟩ := mem_listedEntries.mp hmem
  have hx : x ∈ assets := by
    rw [happ]
    exact List.mem_append_right _ (List.mem_cons_self ..)
  have hat : x.IsAt D B.options.mode path := by
    refine ⟨q, hq, ?_⟩
    split_ifs at hm ⊢ with hs
    · exact hm
    · exact hm
  refine ⟨front, x, back, happ, ⟨rfl, rfl⟩, fun y hy => ⟨?_, ?_⟩⟩
  · -- another asset at the path is this one
    rintro ⟨q', hq', hm'⟩
    obtain ⟨q₀, hq₀, hm₀⟩ := hat
    obtain rfl : q' = q₀ := Except.ok.inj (hq'.symm.trans hq₀)
    refine h.eq_of_same hx hy ?_ ?_
    · split_ifs at hm₀ hm'
      · exact hm'.trans hm₀.symm
      · rw [hm₀, hm']
    · intro hs
      rw [hs, if_neg (by decide)] at hm₀ hm'
      exact hm'.trans hm₀.symm
  · rintro rfl
    exact hat

/-- The entry with an identifier is that of the one asset with it. -/
theorem Packable.asset_of_entryById {id : AssetId} (he : entryById a id = .ok e) :
    ∃ front x back, assets = front ++ x :: back ∧
      (e.firstChunk = UInt32.ofNat (allBlocks front).length ∧
        e.chunkCount = UInt32.ofNat x.blocks.length) ∧
      ∀ y ∈ assets, pathHash D y.path = id.get ↔ y = x := by
  have hone := (entryById_eq_ok_iff hwell).mp he
  have hmem : e ∈ a.entries.filter fun e => decide (e.pathHash = id.get) := by
    rw [hone]
    -- the entry is the only one with the identifier
    exact List.mem_singleton_self e
  obtain ⟨hlisted, hhash⟩ := List.mem_filter.mp hmem
  rw [decide_eq_true_iff] at hhash
  rw [hentries] at hlisted
  obtain ⟨front, x, back, happ, hx⟩ := mem_listedEntries.mp hlisted
  have hxmem : x ∈ assets := by
    rw [happ]
    exact List.mem_append_right _ (List.mem_cons_self ..)
  rw [hx] at hhash
  refine ⟨front, x, back, happ, by rw [hx]; exact ⟨rfl, rfl⟩, fun y hy => ⟨fun hid => ?_, ?_⟩⟩
  · -- the entry of another asset with this identifier is found as well
    obtain ⟨front', back', happ'⟩ := List.append_of_mem hy
    have hother : { assetEntry D (allBlocks front').length y with
        path := if B.options.mode.stripsPaths then "" else y.path } ∈
        a.entries.filter fun e => decide (e.pathHash = id.get) := by
      refine List.mem_filter.mpr ⟨?_, decide_eq_true hid⟩
      rw [hentries]
      exact mem_listedEntries.mpr ⟨front', y, back', happ', rfl⟩
    rw [hone, List.mem_singleton, hx] at hother
    refine h.eq_of_same hxmem hy (hid.trans hhash.symm) fun hs => ?_
    have hpath := congrArg TocEntry.path hother
    simpa only [hs, Bool.false_eq_true, if_false] using hpath
  · rintro rfl
    exact hhash

/-- **The entry of a request** is that of the one asset that the request is for. -/
theorem Packable.asset_of_request
    (hstripped : a.entries ≠ [] → a.pathsStripped = B.options.mode.stripsPaths)
    {request : Request} (he : request.entry D a = .ok e) :
    ∃ front x back, assets = front ++ x :: back ∧
      (e.firstChunk = UInt32.ofNat (allBlocks front).length ∧
        e.chunkCount = UInt32.ofNat x.blocks.length) ∧
      ∀ y ∈ assets, request.Names D B.options.mode y ↔ y = x := by
  cases request with
  | wholeById id => exact h.asset_of_entryById hwell hentries he
  | whole path => exact h.asset_of_entry hwell hentries hstripped he
  | wholeInto path dst scratch => exact h.asset_of_entry hwell hentries hstripped he
  | chunk path i => exact h.asset_of_entry hwell hentries hstripped he
  | chunkInto path i dst scratch => exact h.asset_of_entry hwell hentries hstripped he
  | range path offset len exact => exact h.asset_of_entry hwell hentries hstripped he
  | rangeInto path offset dst hdst scratch => exact h.asset_of_entry hwell hentries hstripped he

end Requests

end Opened

/-- **Tamper evidence.** Let a packing run with AEAD succeed, and let decryption under its key
accept nothing but what this run encrypted. Then any bytes that are opened with AEAD under this key,
under any limits, list the entries of the archive that the run left. Every request that succeeds is
for one of its assets, and returns what the request asks for of the pieces that were read from the
reader of this asset. -/
theorem tamper_evidence {D : Dependencies} {key : Bytes} {options : PackOptions}
    {inputs : List Input} {d : Device} {entropy : Entropy} {summary : PackSummary}
    {env : PackEnv Device} (hp : options.protection = .aead)
    (hrun : packReaders D deviceDestination key options inputs ⟨d, entropy⟩ = (.ok summary, env))
    (hlz4 : OneContent D)
    (hauth : Authentic D key (env.entropy.calls.drop entropy.calls.length)) :
    ∃ assets toc block stored,
      Packed D ⟨key, options, entropy⟩ inputs assets toc block stored ∧
      env.writer.bytes = image D ⟨key, options, entropy⟩ assets toc stored ∧
      ∀ (W : Type) (R : RandomAccessRead W) (P : W → Prop) (c : Bytes), Presents R P c →
        ∀ w, P w → ∀ limits a w', openWithLimits D R key limits w = (.ok a, w') → a.protection = .aead →
          a.entries = listedEntries options.mode (entryTable D 0 assets) ∧
          ∀ request w₁ r w₂, Request.run D R a request w₁ = (.ok r, w₂) →
            ∃ x ∈ assets, (∀ y ∈ assets, request.Names D options.mode y ↔ y = x) ∧
              request.Answers (x.blocks.map Block.content) r := by
  obtain ⟨assets, toc, block, stored, hpacked, -, hbytes, hentropy⟩ := packReaders_ok hrun
  -- the run encrypted one block for each chunk, and the table of contents
  have hcalls : env.entropy.calls.drop entropy.calls.length =
      sealedBlocks assets block stored := by
    rw [hentropy, Sealing.calls_entropyDone hp]
    exact List.drop_left
  rw [hcalls] at hauth
  refine ⟨assets, toc, block, stored, hpacked, hbytes, ?_⟩
  intro W R P c hp w hw limits a w' hopen ha
  have hwell := openWithLimits_wellFormed hopen
  -- what opened is a header and a table that decrypts under the key
  obtain ⟨-, -, header, -, -, -, htoc⟩ :=
    (openWithLimits_presents_iff hp hw).mp (congrArg Prod.fst hopen)
  obtain ⟨hentries, hchunks, hkey, hstripped⟩ :=
    -- that table is the one of the run, as nothing else decrypts
    hpacked.toArchived.opened_unique hlz4 hauth htoc ha
  refine ⟨hentries, ?_⟩
  intro request w₁ r w₂ hr
  obtain ⟨e, he, hanswer⟩ := (Request.run_answers hwell request).of_ok hr
  obtain ⟨front, x, back, happ, hnumbers, hnames⟩ :=
    hpacked.toPackable.asset_of_request hwell hentries hstripped he
  -- so is every chunk that is read
  have hcontents := hpacked.toArchived.contents hlz4 hauth hchunks hkey happ hnumbers
  refine ⟨x, ?_, hnames, hanswer _ hcontents⟩
  rw [happ]
  exact List.mem_append_right _ (List.mem_cons_self ..)

/-! ## A small archive, tampered with -/

/-- The reference dependencies, with a decryption that knows nothing but some calls of `encrypt`. -/
def recalling (calls : List SealedBlock) : Dependencies :=
  { reference with
    aeadDecrypt := fun _ nonce ciphertext aad => SealedBlock.plain <$>
      calls.find? fun s => decide (s.aad = aad ∧ s.block = nonce.1 ++ ciphertext) }

theorem authentic_recalling (key : Bytes) (calls : List SealedBlock) :
    Authentic (recalling calls) key calls := by
  intro stored aad plain h
  unfold decrypt at h
  split_ifs at h with hshort hlen
  · cases h
  obtain ⟨s, hfind, rfl⟩ := Option.map_eq_some_iff.mp (okOr_eq_ok_iff.mp h)
  have hfound := List.find?_some hfind
  rw [decide_eq_true_iff] at hfound
  obtain ⟨haad, hblock⟩ := hfound
  have hsame : s = ⟨s.plain, aad, stored⟩ := by
    cases s
    simp only at haad hblock
    rw [haad, hblock, List.take_append_drop]
  rw [← hsame]
  exact List.mem_of_find?_eq_some hfind

/-- A run over one file of three bytes. -/
def sealedRun (D : Dependencies) : Result PackSummary × PackEnv Device :=
  packReaders D deviceDestination [7] ⟨2, 4, .debug, .aead⟩ [⟨"a", [.data [1, 2, 3]]⟩]
    ⟨Device.empty none none, ⟨fun i => some ⟨List.replicate 24 (UInt8.ofNat i), by simp⟩, 0, []⟩⟩

/-- Decryption accepts the blocks of this run only. -/
def smallRecalling : Dependencies := recalling (sealedRun reference).2.entropy.calls

/-- The archive of the run, with another alignment in its header. -/
def smallTampered : Bytes := overwrite (sealedRun smallRecalling).2.writer.bytes 12 [2]

theorem sealedRun_ok : packReaders smallRecalling deviceDestination [7] ⟨2, 4, .debug, .aead⟩
    [⟨"a", [.data [1, 2, 3]]⟩] ⟨Device.empty none none,
      ⟨fun i => some ⟨List.replicate 24 (UInt8.ofNat i), by simp⟩, 0, []⟩⟩ =
      (.ok ⟨303, 1, 2⟩, (sealedRun smallRecalling).2) := by
  have hrun : (sealedRun smallRecalling).1 = .ok ⟨303, 1, 2⟩ := by decide +kernel
  rw [← sealedRun]
  exact Prod.ext hrun rfl

/-- The archive with another alignment is opened and read. -/
theorem openWithLimits_tampered :
    ∃ a, openWithLimits smallRecalling sliceSource [7] .runtimeDefault smallTampered =
        (.ok a, smallTampered) ∧ a.alignment = 2 ∧ a.protection = .aead ∧
      Request.run smallRecalling sliceSource a (.whole "a") smallTampered =
        (.ok (3, [1, 2, 3]), smallTampered) := by
  have hsource : (openWithLimits smallRecalling sliceSource [7] .runtimeDefault
      smallTampered).2 = smallTampered := by decide +kernel
  have hread : (openWithLimits smallRecalling sliceSource [7] .runtimeDefault
      smallTampered).1.toOption.any (fun a => decide (a.alignment = 2 ∧ a.protection = .aead ∧
        Request.run smallRecalling sliceSource a (.whole "a") smallTampered =
          (.ok (3, [1, 2, 3]), smallTampered))) = true := by decide +kernel
  rcases hopen : openWithLimits smallRecalling sliceSource [7] .runtimeDefault smallTampered with
    ⟨f | a, w⟩
  · rw [hopen] at hread
    cases hread
  · rw [hopen] at hread hsource
    obtain ⟨halignment, ha, hrun⟩ := of_decide_eq_true hread
    exact ⟨a, by rw [← hsource], halignment, ha, hrun⟩

theorem sealedRun_authentic : Authentic smallRecalling [7]
    ((sealedRun smallRecalling).2.entropy.calls.drop ([] : List SealedBlock).length) := by
  have hcalls : (sealedRun smallRecalling).2.entropy.calls.drop ([] : List SealedBlock).length =
      (sealedRun reference).2.entropy.calls := by decide +kernel
  rw [hcalls]
  exact authentic_recalling _ _

theorem oneContent_recalling (calls : List SealedBlock) : OneContent (recalling calls) :=
  fun _ _ _ _ _ => reference_lz4Lawful.decompress_unique

/-- An archive with another alignment, read back. -/
theorem tamper_evidence_small :
    ∃ a assets, openWithLimits smallRecalling sliceSource [7] .runtimeDefault smallTampered =
        (.ok a, smallTampered) ∧ a.alignment = 2 ∧
      a.entries = listedEntries .debug (entryTable smallRecalling 0 assets) ∧
      ∃ x ∈ assets, (x.blocks.map Block.content).flatten = [1, 2, 3] := by
  obtain ⟨a, hopen, halignment, ha, hread⟩ := openWithLimits_tampered
  obtain ⟨assets, toc, block, stored, -, -, hopened⟩ :=
    tamper_evidence rfl sealedRun_ok (oneContent_recalling _) sealedRun_authentic
  obtain ⟨hentries, hrequests⟩ := hopened Bytes sliceSource _ smallTampered
    (sliceSource_presents _) smallTampered rfl .runtimeDefault a smallTampered hopen ha
  obtain ⟨x, hx, -, hanswer⟩ := hrequests (.whole "a") smallTampered _ smallTampered hread
  refine ⟨a, assets, hopen, halignment, hentries, x, hx, ?_⟩
  simp only [Request.Answers, Prod.mk.injEq] at hanswer
  exact hanswer.2.symm

end RasenArchive
