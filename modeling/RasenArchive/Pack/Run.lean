import RasenArchive.Pack.Duplicates
import RasenArchive.Pack.Finish

/-!
# Whole packing runs

What a run from `Packer::new` over the calls of `add_reader` to `finish` leaves in the file.

## Main definitions

* `Packed D B inputs assets toc block stored`: the archive of these inputs

## Main results

* `packReaders_ok`: a run that succeeds leaves the archive of its inputs
* `packReaders_of_packed`: a run succeeds wherever the inputs make up an archive
* `packReaders_error`: a run that fails leaves zeroes in the place of the header, or the archive but
  for a part of its header
-/

namespace RasenArchive

/-- These assets, one for each input, and their table of contents make up an archive. -/
structure Packed (D : Dependencies) (B : Sealing) (inputs : List Input) (assets : List Asset)
    (toc block stored : Bytes) : Prop extends Archived D B assets toc block stored where
  inputs : List.Forall₂ (Asset.Of B.options.chunkSize) inputs assets

variable {D : Dependencies} {key : Bytes} {options : PackOptions} {entropy : Entropy}
  {inputs : List Input} {d : Device} {env : PackEnv Device}

section

variable {W : Type} {R : Destination W} {α : Type} {w w' : W}

/-- A run whose packer does not start ends there. -/
theorem withPacker_of_error {f : Fault} (x : Fallible (PackState W) Fault α)
    (h : newPacker D R key options w = (.error f, w')) :
    withPacker D R key options x ⟨w, entropy⟩ = (.error f, ⟨w', entropy⟩) := by
  have hstart : startPacker D R key options ⟨w, entropy⟩ = (.error f, ⟨w', entropy⟩) := by
    rw [startPacker, Fallible.focus_apply, h]
  exact Fallible.bind_of_error hstart

/-- A run makes its calls on a fresh packer. -/
theorem withPacker_of_ok {p : Packer} (x : Fallible (PackState W) Fault α)
    (h : newPacker D R key options w = (.ok p, w')) :
    withPacker D R key options x ⟨w, entropy⟩ = ((x ⟨p, w', entropy, []⟩).1,
      ⟨(x ⟨p, w', entropy, []⟩).2.writer, (x ⟨p, w', entropy, []⟩).2.entropy⟩) := by
  have hstart : startPacker D R key options ⟨w, entropy⟩ = (.ok p, ⟨w', entropy⟩) := by
    rw [startPacker, Fallible.focus_apply, h]
  exact Fallible.bind_of_ok hstart

end

/-- **A run that succeeds** leaves the archive of its inputs. -/
theorem packReaders_ok {summary : PackSummary}
    (h : packReaders D deviceDestination key options inputs ⟨d, entropy⟩ = (.ok summary, env)) :
    ∃ assets toc block stored, Packed D ⟨key, options, entropy⟩ inputs assets toc block stored ∧
      summary = packSummary ⟨key, options, entropy⟩ assets stored ∧
      env.writer.bytes = image D ⟨key, options, entropy⟩ assets toc stored ∧
      env.entropy =
        Sealing.entropyDone ⟨key, options, entropy⟩ (allBlocks assets) block stored := by
  rcases hnew : newPacker D deviceDestination key options d with ⟨f | p, d'⟩
  · rw [packReaders, withPacker_of_error _ hnew] at h
    cases h
  rw [packReaders, withPacker_of_ok _ hnew, Prod.mk.injEq] at h
  obtain ⟨hok, rfl⟩ := h
  obtain ⟨hkey, hv, -, hpacks⟩ := packs_newPacker hnew entropy []
  obtain ⟨_, s₁, hadd, hfin⟩ := Fallible.bind_eq_ok.mp (Prod.ext hok rfl)
  obtain ⟨assets, hassets, hall⟩ := addReaders_packs hv hpacks hadd
  rw [List.nil_append] at hassets
  obtain ⟨toc, block, stored, hdone, hsummary, hbytes, hentropy⟩ :=
    (finish_post hkey hv hassets).of_ok hfin
  exact ⟨assets, toc, block, stored, ⟨hdone, hall⟩, hsummary, hbytes, hentropy⟩

/-! ## Runs that succeed -/

/-- **A packer that finishes** leaves the archive of the inputs of all its calls. -/
theorem finish_ok {d' : Device} {p : Packer} {s s' : PackState Device} {summary : PackSummary}
    (hnew : newPacker D deviceDestination key options d = (.ok p, d'))
    (hadd : (addEach D deviceDestination inputs ⟨p, d', entropy, []⟩).2 = s)
    (hfin : finish D deviceDestination s = (.ok summary, s')) :
    ∃ assets toc block stored, Packed D ⟨key, options, entropy⟩ inputs assets toc block stored ∧
      Packs D ⟨key, options, entropy⟩ assets s ∧
      summary = packSummary ⟨key, options, entropy⟩ assets stored ∧
      s'.writer.bytes = image D ⟨key, options, entropy⟩ assets toc stored := by
  obtain ⟨hkey, hv, -, hpacks⟩ := packs_newPacker hnew entropy []
  have hfine : s.packer.failed = false := by
    cases hfailed : s.packer.failed with
    | false => rfl
    | true =>
      rw [finish_failed hfailed] at hfin
      cases hfin
  have hrun := addReaders_of_not_failed (hadd ▸ hfine)
  rw [hadd] at hrun
  obtain ⟨assets, hassets, hall⟩ := addReaders_packs hv hpacks hrun
  rw [List.nil_append] at hassets
  obtain ⟨toc, block, stored, hdone, hsummary, hbytes, -⟩ :=
    (finish_post hkey hv hassets).of_ok hfin
  exact ⟨assets, toc, block, stored, ⟨hdone, hall⟩, hassets, hsummary, hbytes⟩

/-- The length of an archive is the one that is returned. -/
theorem length_image {B : Sealing} {assets : List Asset} (hv : B.options.Valid)
    (toc stored : Bytes) :
    (image D B assets toc stored).length = (packSummary B assets stored).archiveLen := by
  have hpos : 0 < B.alignment := Nat.pos_of_isPowerOfTwo hv.alignment_pow
  have hbody := @length_body B.alignment headerSize (allBlocks assets) hpos
  have hle := le_alignedAt hpos (bodyEnd B.alignment headerSize (allBlocks assets))
  simp only [image, payload, packSummary, tocStart, List.length_append, List.length_replicate,
    length_encodeHeader]
  omega

section

variable {B : Sealing} {assets new : List Asset} {s : PackState Device}

theorem allBlocks_append_cons (assets new : List Asset) (a : Asset) :
    allBlocks (assets ++ a :: new) = allBlocks assets ++ (a.blocks ++ allBlocks new) := by
  simp [allBlocks]

/-- Where there is room for some assets, there is room for each of them after those in front. -/
theorem Packable.storable {a : Asset} (hv : B.options.Valid)
    (h : Packable D B (assets ++ a :: new)) :
    Storable D B (allBlocks assets) ⟨0, 0⟩ a.blocks := by
  have hblocks := allBlocks_append_cons assets new a
  have hend := h.offset_lt
  have hcount := h.blocks_lt
  obtain ⟨horiginal, hstored⟩ := h.sizes a (by simp)
  rw [hblocks, ← List.append_assoc, bodyEnd_append] at hend
  rw [hblocks, ← List.append_assoc, List.length_append] at hcount
  refine ⟨fun i b hi => ?_, ?_, by omega, horiginal, hstored⟩
  · apply h.seals
    rw [hblocks, List.getElem?_append_right (Nat.le_add_right _ _), Nat.add_sub_cancel_left]
    exact List.getElem?_append_left (List.getElem?_eq_some_iff.mp hi).1 ▸ hi
  · exact lt_of_le_of_lt (le_bodyEnd (Nat.pos_of_isPowerOfTwo hv.alignment_pow)) hend

/-- Where none of some assets gets in the way of another, none is refused after those in front. -/
theorem Packable.refusal_eq_none {a : Asset} {path : String}
    (h : Packable D B (assets ++ a :: new)) (hpath : normalizePath path = .ok a.path) :
    refusal D B.options.mode (assets.map Asset.path) path = none := by
  have hpaths := h.paths
  rw [List.map_append, List.map_cons] at hpaths
  have hnew : a.path ∉ assets.map Asset.path := fun hmem =>
    (List.nodup_append.mp hpaths).2.2 _ hmem _ List.mem_cons_self rfl
  rw [refusal, hpath]
  simp only [refusalNormal, if_neg hnew]
  refine if_neg ?_
  rintro ⟨hmode, hmem⟩
  have hhashes := h.hashes hmode
  rw [List.map_append, List.map_append, List.map_cons, List.map_cons] at hhashes
  exact (List.nodup_append.mp hhashes).2.2 _ hmem _ List.mem_cons_self rfl

/-- **Where there is room for the assets** of some inputs, they are all added. -/
theorem addReaders_of_packable (hv : B.options.Valid) (h : Packs D B assets s)
    (hhealthy : s.writer.Healthy)
    (hall : List.Forall₂ (Asset.Of B.options.chunkSize) inputs new)
    (hroom : Packable D B (assets ++ new)) :
    ∃ s', addReaders D deviceDestination inputs s = (.ok (), s') ∧ Packs D B (assets ++ new) s' ∧
      s'.writer.Healthy := by
  induction hall generalizing assets s with
  | nil => exact ⟨s, rfl, by simpa using h, hhealthy⟩
  | @cons input a inputs new ha hrest ih =>
    have hpost := addReader_post hv h input.path input.reader
    rcases hr : addReader D deviceDestination input.path input.reader s with ⟨f | u, s₁⟩
    · exfalso
      obtain ⟨-, -, ⟨e, href, -⟩ | ⟨-, hbad⟩⟩ := hpost.of_error hr
      · rw [hroom.refusal_eq_none ha.path] at href
        cases href
      · have hcount := hroom.assets_lt
        rw [List.length_append, List.length_cons] at hcount
        exact hbad ⟨hhealthy, by omega, a.blocks, ha.fills, hroom.storable hv⟩
    · obtain ⟨a', hpath, -, hfills, hpacks, hkept⟩ := hpost.of_ok hr
      -- the asset that was added is the one there is room for
      have hsame : a' = a := by
        have hpaths : a'.path = a.path := Except.ok.inj (hpath.symm.trans ha.path)
        have hseals := (Packable.storable hv (show Packable D B (assets ++ a' :: []) from hpacks.packable)).seals
        have hblocks := Sealing.seals_unique hseals (hroom.storable hv).seals
          (hfills.unique ha.fills)
        cases a
        cases a'
        simp only at hpaths hblocks
        rw [hpaths, hblocks]
      subst hsame
      have hassoc : assets ++ [a'] ++ new = assets ++ a' :: new := by simp
      obtain ⟨s₂, hadd, hpacks₂, hhealthy₂⟩ := ih hpacks (hkept hhealthy) (hassoc ▸ hroom)
      exact ⟨s₂, by rw [addReaders, Fallible.bind_of_ok hr, hadd], hassoc ▸ hpacks₂, hhealthy₂⟩

end

/-- **A run succeeds** on an empty file that does not fail, where the inputs make up an archive. -/
theorem packReaders_of_packed {assets : List Asset} {toc block stored : Bytes}
    (hempty : d.bytes = []) (hhealthy : d.Healthy)
    (h : Packed D ⟨key, options, entropy⟩ inputs assets toc block stored) :
    ∃ env, packReaders D deviceDestination key options inputs ⟨d, entropy⟩ =
        (.ok (packSummary ⟨key, options, entropy⟩ assets stored), env) ∧
      env.writer.bytes = image D ⟨key, options, entropy⟩ assets toc stored ∧
      env.entropy =
        Sealing.entropyDone ⟨key, options, entropy⟩ (allBlocks assets) block stored := by
  rcases hnew : newPacker D deviceDestination key options d with ⟨f | p, d'⟩
  · exact absurd ⟨h.key, h.valid, hhealthy⟩ ((newPacker_post hempty).of_error hnew).2
  obtain ⟨hkey, hv, hkept, hpacks⟩ := packs_newPacker hnew entropy []
  obtain ⟨s₁, hadd, hpacks₁, hhealthy₁⟩ := addReaders_of_packable hv hpacks (hkept hhealthy)
    h.inputs (by simpa using h.toPackable)
  rw [List.nil_append] at hpacks₁
  rw [packReaders, withPacker_of_ok _ hnew, Fallible.bind_of_ok hadd]
  rcases hfin : finish D deviceDestination s₁ with ⟨f | summary, s₂⟩
  · exact absurd ⟨hhealthy₁, toc, block, stored, h.toArchived⟩
      ((finish_post hkey hv hpacks₁).of_error hfin).2
  obtain ⟨toc', block', stored', hdone, rfl, hbytes, hentropy⟩ :=
    (finish_post hkey hv hpacks₁).of_ok hfin
  obtain ⟨rfl, rfl, rfl⟩ := h.toc.unique hdone.toc
  exact ⟨_, rfl, hbytes, hentropy⟩

/-! ## Chunks and their bytes -/

/-- The chunk describes the bytes of the block, at its place in an archive. -/
structure Describes (D : Dependencies) (alignment : ℕ) (archive : Bytes) (c : Chunk)
    (b : Block) : Prop where
  storedSize : c.storedSize.toNat = b.stored.length
  originalSize : c.originalSize.toNat = b.content.length
  checksum : c.checksum = checksum D b.content
  compressed : c.compressed = b.compressed
  aligned : alignment ∣ c.offset.toNat
  bytes : archive.extract c.offset.toNat c.stop = b.stored

/-- **Each chunk describes the bytes at its place.** -/
theorem Archived.describes {B : Sealing} {assets : List Asset} {toc block stored : Bytes}
    (h : Archived D B assets toc block stored) {i : ℕ} {b : Block}
    (hi : (allBlocks assets)[i]? = some b) :
    ∃ c, (packChunks D B assets)[i]? = some c ∧
      Describes D B.alignment (image D B assets toc stored) c b := by
  obtain ⟨o, hc, -, hdvd, hstop, hbytes⟩ := @extract_body D B.alignment headerSize
    (Nat.pos_of_isPowerOfTwo h.valid.alignment_pow) _ i b hi
    (encodeHeader (packHeader D B assets toc stored))
    (List.replicate (tocStart B assets - bodyEnd B.alignment headerSize (allBlocks assets)) 0 ++
      stored) (length_encodeHeader _) h.offset_lt
  have hoffset_lt := h.offset_lt
  have hcontent := (h.seals i b hi).length_le
  have hchunk : B.options.chunkSize ≤ 2 ^ 26 := h.valid.chunkSize_le
  have hoffset : (UInt64.ofNat o).toNat = o :=
    UInt64.toNat_ofNat_of_lt' (by unfold UInt64.size; omega)
  have hstored : (UInt64.ofNat b.stored.length).toNat = b.stored.length :=
    UInt64.toNat_ofNat_of_lt' (by unfold UInt64.size; omega)
  have horiginal : (UInt64.ofNat b.content.length).toNat = b.content.length :=
    UInt64.toNat_ofNat_of_lt' (by unfold UInt64.size; omega)
  have himage : image D B assets toc stored = encodeHeader (packHeader D B assets toc stored) ++
      body B.alignment headerSize (allBlocks assets) ++
      (List.replicate (tocStart B assets - bodyEnd B.alignment headerSize (allBlocks assets)) 0 ++
        stored) := by
    simp [image, payload]
  refine ⟨_, hc, ⟨hstored, horiginal, rfl, rfl, ?_, ?_⟩⟩
  · rw [blockChunk, hoffset]
    exact hdvd
  · rw [himage, Chunk.stop, blockChunk]
    simp only [hoffset, hstored]
    exact hbytes

/-! ## Runs that fail -/

/-- What a run leaves in the file when it stops on the way: a part of the place of the header, a
place of zeroes in front of anything, or an archive but for a part of its header. -/
def Interrupted (D : Dependencies) (B : Sealing) (inputs : List Input) (bytes : Bytes) : Prop :=
  (∃ n, bytes = (List.replicate headerSize 0).take n) ∨ List.replicate headerSize 0 <+: bytes ∨
    ∃ assets toc block stored n, Packed D B inputs assets toc block stored ∧ n ≤ headerSize ∧
      bytes = cutImage D B assets toc stored n

/-- The failure of one of the calls leaves zeroes in the place of the header. -/
theorem addReaders_error {B : Sealing} {assets : List Asset} {s s' : PackState Device} {f : Fault}
    (hv : B.options.Valid) (h : Packs D B assets s)
    (hrun : addReaders D deviceDestination inputs s = (.error f, s')) :
    List.replicate headerSize 0 <+: s'.writer.bytes := by
  induction inputs generalizing s assets with
  | nil => cases hrun
  | cons input inputs ih =>
    have hpost := addReader_post hv h input.path input.reader
    rw [addReaders] at hrun
    rcases hr : addReader D deviceDestination input.path input.reader s with ⟨f' | u, s₁⟩
    · rw [Fallible.bind_of_error hr] at hrun
      cases hrun
      refine List.IsPrefix.trans ?_ (hpost.of_error hr).1
      rw [h.stores.bytes]
      exact List.prefix_append _ _
    · rw [Fallible.bind_of_ok hr] at hrun
      obtain ⟨a, -, -, -, hpacks, -⟩ := hpost.of_ok hr
      exact ih hpacks hrun

/-- **A run that fails** is interrupted. -/
theorem packReaders_error {f : Fault} (hempty : d.bytes = [])
    (h : packReaders D deviceDestination key options inputs ⟨d, entropy⟩ = (.error f, env)) :
    Interrupted D ⟨key, options, entropy⟩ inputs env.writer.bytes := by
  rcases hnew : newPacker D deviceDestination key options d with ⟨f' | p, d'⟩
  · rw [packReaders, withPacker_of_error _ hnew] at h
    cases h
    exact Or.inl ((newPacker_post hempty).of_error hnew).1
  rw [packReaders, withPacker_of_ok _ hnew, Prod.mk.injEq] at h
  obtain ⟨hfail, rfl⟩ := h
  obtain ⟨hkey, hv, -, hpacks⟩ := packs_newPacker hnew entropy []
  refine Or.inr ?_
  rcases hadd : addReaders D deviceDestination inputs
    (⟨p, d', entropy, []⟩ : PackState Device) with ⟨f' | u, s₁⟩
  · rw [Fallible.bind_of_error hadd]
    exact Or.inl (addReaders_error hv hpacks hadd)
  · rw [Fallible.bind_of_ok hadd] at hfail ⊢
    obtain ⟨assets, hassets, hall⟩ := addReaders_packs hv hpacks hadd
    rw [List.nil_append] at hassets
    rcases hfin : finish D deviceDestination s₁ with ⟨f' | summary, s₂⟩
    · rcases ((finish_post hkey hv hassets).of_error hfin).1 with
        hzeroes | ⟨toc, block, stored, n, hdone, hn, hbytes⟩
      · exact Or.inl hzeroes
      · exact Or.inr ⟨assets, toc, block, stored, n, ⟨hdone, hall⟩, hn, hbytes⟩
    · rw [hfin] at hfail
      cases hfail

end RasenArchive
