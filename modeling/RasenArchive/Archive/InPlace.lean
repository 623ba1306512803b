import RasenArchive.Archive.Block

/-!
# What reading a chunk leaves in its place

Reading a chunk may write to its destination before it fails. This module says from which states a
chunk reads back, and from which the destination holds behind the call what it held in front of it,
in terms of what the source, the decryption and the decompression answer.

## Main definitions

* `ReadsBack`: the block of a chunk is read and opens to a content with the recorded checksum
* `PlainInPlace`, `InPlace`: what is left in the destination stands there already

## Main results

* `readChunkByIndexInto_eq_ok_iff`: a chunk is read where it reads back
* `readChunkByIndexInto_dst_iff`: its destination stays as it is where what is left is in place
-/

namespace RasenArchive

variable (D : Dependencies) {W : Type} (R : RandomAccessRead W) (a : Archive)

/-- From the state `s`, chunk `g` reads back, and `t` is the state behind it. The block goes to the
destination itself, or to the block buffer. -/
def ReadsBack (g : ℕ) (s t : BlockState W) : Prop :=
  ∃ chunk block, a.chunks[g]? = some chunk ∧
    openBlock D a.aeadKey chunk g block = .ok t.dst ∧ checksum D t.dst = chunk.checksum ∧
    if a.aeadKey = none ∧ chunk.compressed = false then
      readExactAt R chunk.offset.toNat (s.source, s.dst) = (.ok (), t.source, block) ∧
        t.stored = s.stored
    else
      readExactAt R chunk.offset.toNat (s.source, resize s.stored chunk.storedSize.toNat) =
        (.ok (), t.source, block) ∧ t.stored = block

/-- Unpacking the plain form of a block leaves the bytes `dst` of a destination as they are. -/
def PlainInPlace (chunk : Chunk) (plain dst : Bytes) : Prop :=
  if chunk.compressed then
    match D.decompressInto plain dst.length with
    | .error _ => D.decompressResidue plain dst = dst
    | .ok decoded => decoded <+: dst
  else plain.length = dst.length → plain = dst

/-- From the state `s`, reading chunk `g` leaves the destination as it is, whether it fails or not:
what the source leaves there, or what the block unpacks to, stands there already. -/
def InPlace (g : ℕ) (s : BlockState W) : Prop :=
  ∃ chunk, a.chunks[g]? = some chunk ∧
    if a.aeadKey = none ∧ chunk.compressed = false then
      (readExactAt R chunk.offset.toNat (s.source, s.dst)).2.2 = s.dst
    else
      ∀ w block plain,
        readExactAt R chunk.offset.toNat (s.source, resize s.stored chunk.storedSize.toNat) =
          (.ok (), w, block) →
        decryptBlock D a.aeadKey g block = .ok plain → PlainInPlace D chunk plain s.dst

section Chunk

variable {D R a} {g l : ℕ} {label : ChecksumLabel} {chunk : Chunk} {s t : BlockState W} {w : W}

/-- **Unpacking** leaves the destination as it is where the plain form is in place. -/
theorem unpackInto_dst_iff {dst block plain : Bytes} :
    (unpackInto D chunk plain ⟨w, dst, block⟩).2.dst = dst ↔ PlainInPlace D chunk plain dst := by
  unfold unpackInto PlainInPlace
  split_ifs with hc
  · rw [onBytes, Fallible.focus_apply, decompressIntoExact_apply]
    -- a decoder that fails leaves its residue, one that returns leaves what it decoded
    cases D.decompressInto plain dst.length with
    | error message => rfl
    | ok decoded =>
      -- of the right length or not, what was decoded stands in front of the destination
      show _ ↔ decoded <+: dst
      rw [← append_drop_eq_iff]
      by_cases hlen : decoded.length = dst.length
      · simp [hlen]
      · simp [hlen]
  · -- an uncompressed block of the right length is copied
    rw [Fallible.gets_bind_apply, id]
    by_cases hlen : plain.length = dst.length
    · rw [Fallible.liftM_bind_of_ok (ensure_of hlen), onBytes, Fallible.focus_apply, copyFromSlice,
        if_pos hlen.symm]
      simp [hlen]
    · -- of another length, it is refused
      have hne : ensure (plain.length = dst.length) (.corrupt "decrypted chunk size mismatch") =
          .error (.error (.corrupt "decrypted chunk size mismatch")) := if_neg hlen
      rw [Fallible.liftM_bind_of_error hne]
      simp [hlen]

/-- The checks around a block do not touch the destination. -/
theorem readChunkByIndexInto_snd (hlimit : 1 ≤ a.maxChunksPerOperation)
    (hchunk : a.chunks[g]? = some chunk) (hdst : s.dst.length = chunk.originalSize.toNat) :
    (readChunkByIndexInto D R a label l g s).2 = (readBlock D R a chunk g s).2 := by
  rw [readChunkByIndexInto_eq hlimit hchunk hdst]
  exact Fallible.snd_bind_of_checks (fun _ _ => rfl) s

/-- **A block** that is brought into the destination. -/
theorem readBlock_eq_ok_iff (hdst : s.dst.length = chunk.originalSize.toNat) :
    readBlock D R a chunk g s = (.ok (), t) ↔
      ∃ block, openBlock D a.aeadKey chunk g block = .ok t.dst ∧
        if a.aeadKey = none ∧ chunk.compressed = false then
          readExactAt R chunk.offset.toNat (s.source, s.dst) = (.ok (), t.source, block) ∧
            t.stored = s.stored
        else
          readExactAt R chunk.offset.toNat (s.source, resize s.stored chunk.storedSize.toNat) =
            (.ok (), t.source, block) ∧ t.stored = block := by
  obtain ⟨w, dst, stored⟩ := t
  -- a raw block goes straight into the destination
  split_ifs with hraw
  · have hlen := length_readExactAt_snd R chunk.offset.toNat (s.source, s.dst)
    have hopen : ∀ block : Bytes, block.length = chunk.originalSize.toNat →
        openBlock D a.aeadKey chunk g block = .ok block := by
      intro block hblock
      simp [openBlock, decryptBlock, contentOf, hraw.1, hraw.2, ensure_of hblock, pure, Except.pure]
    rw [readBlock_of_raw hraw, onDst, Fallible.focus_apply]
    rcases hr : readExactAt R chunk.offset.toNat (s.source, s.dst) with ⟨f | ⟨⟨⟩⟩, w', block⟩
    · simp
    · rw [hr] at hlen
      have hself := hopen block (hlen.trans hdst)
      constructor
      · rintro ⟨⟩
        exact ⟨block, hself, rfl, rfl⟩
      · rintro ⟨block', ho, ⟨⟩, rfl⟩
        rw [hself] at ho
        cases ho
        rfl
  · -- any other block is brought into the stored scratch space first
    rw [readBlock_of_stored hraw]
    rcases readStoredBlock_cases (a := a) (g := g) (D := D) (R := R) hdst with
      -- the source fails, the block opens, or it does not open
      ⟨f, w', b, hr, hrun⟩ | ⟨w', block, hr, -, ⟨content, ho, hrun⟩ | ⟨f, dst', ho, -, hrun⟩⟩
    · rw [hrun, hr]
      simp
    · rw [hrun, hr]
      constructor
      · rintro ⟨⟩
        exact ⟨stored, ho, rfl, rfl⟩
      · rintro ⟨block', ho', ⟨⟩, rfl⟩
        rw [ho] at ho'
        cases ho'
        rfl
    · rw [hrun, hr]
      constructor
      · rintro ⟨⟩
      · rintro ⟨block', ho', ⟨⟩, rfl⟩
        rw [ho] at ho'
        cases ho'

/-- **A chunk is read** exactly where it reads back. -/
theorem readChunkByIndexInto_eq_ok_iff (hlimit : 1 ≤ a.maxChunksPerOperation)
    (hchunk : a.chunks[g]? = some chunk) (hdst : s.dst.length = chunk.originalSize.toNat) :
    readChunkByIndexInto D R a label l g s = (.ok (), t) ↔ ReadsBack D R a g s t := by
  rw [readChunkByIndexInto_eq hlimit hchunk hdst, Fallible.bind_eq_ok]
  constructor
  · -- the checksum is checked behind the block
    rintro ⟨_, t', hblock, hrest⟩
    rw [Fallible.gets_bind_apply, id] at hrest
    obtain ⟨hsum, rfl⟩ := Fallible.liftM_eq_ok.mp hrest
    rw [ensure_eq_ok_iff] at hsum
    obtain ⟨block, ho, hread⟩ := (readBlock_eq_ok_iff hdst).mp hblock
    exact ⟨chunk, block, hchunk, ho, hsum, hread⟩
  · rintro ⟨chunk', block, hchunk', ho, hsum, hread⟩
    cases hchunk.symm.trans hchunk'
    refine ⟨(), t, (readBlock_eq_ok_iff hdst).mpr ⟨block, ho, hread⟩, ?_⟩
    rw [Fallible.gets_bind_apply, id, ensure_of hsum]
    rfl

/-- What reads back has the size of the chunk. -/
theorem ReadsBack.length_eq (h : ReadsBack D R a g s t) (hchunk : a.chunks[g]? = some chunk) :
    t.dst.length = chunk.originalSize.toNat := by
  obtain ⟨chunk', block, hchunk', ho, -⟩ := h
  cases hchunk.symm.trans hchunk'
  exact openBlock_length ho

/-- **The destination of a chunk** stays as it is exactly where what is left there is in place. -/
theorem readChunkByIndexInto_dst_iff (hlimit : 1 ≤ a.maxChunksPerOperation)
    (hchunk : a.chunks[g]? = some chunk) (hdst : s.dst.length = chunk.originalSize.toNat) :
    (readChunkByIndexInto D R a label l g s).2.dst = s.dst ↔ InPlace D R a g s := by
  rw [readChunkByIndexInto_snd hlimit hchunk hdst]
  unfold InPlace
  simp only [hchunk, Option.some.injEq, exists_eq_left']
  -- a raw block is read over the destination, whatever comes of it
  split_ifs with hraw
  · rw [readBlock_of_raw hraw, onDst, Fallible.focus_apply]
  · -- any other block touches the destination only when it is unpacked
    rw [readBlock_of_stored hraw]
    rcases hr : readExactAt R chunk.offset.toNat
      (s.source, resize s.stored chunk.storedSize.toNat) with ⟨f | ⟨⟨⟩⟩, w', block⟩
    · rw [readStoredBlock_of_error hr]
      simp
    obtain ⟨-, hrun⟩ := readStoredBlock_of_ok (D := D) (a := a) (g := g) hr
    rw [hrun]
    -- a block that does not decrypt is not unpacked
    cases hd : decryptBlock D a.aeadKey g block with
    | error f =>
      rw [Fallible.liftM_bind_of_error rfl]
      simp only [true_iff]
      rintro w'' block' plain ⟨⟩ hplain
      cases hd.symm.trans hplain
    | ok plain =>
      rw [Fallible.liftM_bind_of_ok rfl, unpackInto_dst_iff]
      constructor
      · rintro hplace w'' block' plain' ⟨⟩ hplain
        cases hd.symm.trans hplain
        exact hplace
      · exact fun h => h w' block plain rfl hd

end Chunk

end RasenArchive
