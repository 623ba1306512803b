import RasenArchive.Archive.UnchangedRange

/-!
# What a failed read leaves in any destination

A caller does not know what stands in its destination. This module says when a call that fails has
not written to it yet, whatever the destination holds: over any source these calls leave it as it
is, and over sources that fill their buffers there are no others.

## Main definitions

* `FillsBuffers R`: a read that succeeds fills its buffer
* `Readable`, `Reads`: the chunks that read back, one by one and in a row
* `Unreadable`: a chunk that never reads back
* `Unwritten`: a chunk that fails before a byte of it is in the destination
* `SparesWhole`, `SparesPiece`, `SparesRange`: the calls that leave the destination alone when they
  fail

## Main results

* `SparesWhole.unchanged`, `sparesWhole_of_unchanged`: when reading an entry leaves every
  destination as it is
* `SparesPiece.unchanged`, `sparesPiece_of_unchanged`: when reading a chunk does
* `SparesRange.unchanged`, `sparesRange_of_unchanged`: when reading a range does
-/

namespace RasenArchive

variable (D : Dependencies) {W : Type} (R : RandomAccessRead W) (a : Archive)

/-! ## Definitions -/

/-- **A read that succeeds fills its buffer**: what it gives does not depend on what the buffer
held. -/
def FillsBuffers : Prop :=
  ∀ {w w' : W} {offset : ℕ} {dst dst' block : Bytes}, dst'.length = dst.length →
    readExactAt R offset (w, dst) = (.ok (), w', block) →
    readExactAt R offset (w, dst') = (.ok (), w', block)

/-- In state `w` of the source, chunk `g` reads back as `d`, and leaves the source in `w'`. -/
def Readable (g : ℕ) (w : W) (d : Bytes) (w' : W) : Prop :=
  ∃ chunk block, a.chunks[g]? = some chunk ∧
    (∀ buffer : Bytes, buffer.length = blockLength a chunk →
      readExactAt R chunk.offset.toNat (w, buffer) = (.ok (), w', block)) ∧
    openBlock D a.aeadKey chunk g block = .ok d ∧ checksum D d = chunk.checksum

/-- From state `w` of the source, the chunks read back one after the other. -/
def Reads : List ℕ → W → W → Prop
  | [], w, w' => w' = w
  | g :: gs, w, w' => ∃ d w₁, Readable D R a g w d w₁ ∧ Reads gs w₁ w'

/-- In state `w` of the source, chunk `g` does not read back: the source fails, the block does not
open, or the checksum differs. -/
def Unreadable (g : ℕ) (w : W) : Prop :=
  ∃ chunk, a.chunks[g]? = some chunk ∧ ∀ (buffer block d : Bytes) (w' : W),
    buffer.length = blockLength a chunk →
    readExactAt R chunk.offset.toNat (w, buffer) = (.ok (), w', block) →
    openBlock D a.aeadKey chunk g block = .ok d → checksum D d ≠ chunk.checksum

/-- The plain form of a block is refused before a byte of it is in the destination. -/
def RefusedPlain (chunk : Chunk) (plain : Bytes) : Prop :=
  if chunk.compressed then
    (∃ message, D.decompressInto plain chunk.originalSize.toNat = .error message ∧
      ∀ dst : Bytes, dst.length = chunk.originalSize.toNat → D.decompressResidue plain dst = dst) ∨
    D.decompressInto plain chunk.originalSize.toNat = .ok []
  else plain.length ≠ chunk.originalSize.toNat

/-- In state `w` of the source, chunk `g` fails before a byte of it is in the destination. -/
def Unwritten (g : ℕ) (w : W) : Prop :=
  ∃ chunk, a.chunks[g]? = some chunk ∧
    if a.aeadKey = none ∧ chunk.compressed = false then
      ∀ dst : Bytes, dst.length = chunk.originalSize.toNat → ∃ f w',
        readExactAt R chunk.offset.toNat (w, dst) = (.error f, w', dst)
    else
      ∀ (buffer block plain : Bytes) (w' : W), buffer.length = chunk.storedSize.toNat →
        readExactAt R chunk.offset.toNat (w, buffer) = (.ok (), w', block) →
        decryptBlock D a.aeadKey g block = .ok plain → RefusedPlain D chunk plain

instance nontrivialUInt8 : Nontrivial UInt8 := ⟨0, 1, by decide⟩

/-- Bytes in memory fill the buffers that they are read into. -/
theorem sliceSource_fillsBuffers : FillsBuffers sliceSource := by
  intro w w' offset dst dst' block hlen hread
  unfold readExactAt at hread ⊢
  by_cases hle : offset + dst.length ≤ w.length
  · have hle' : offset + dst'.length ≤ w.length := by omega
    rw [sliceSource_read hle] at hread
    rw [sliceSource_read hle', hlen]
    exact hread
  · obtain ⟨e, he⟩ := sliceSource_eof (by omega : w.length < offset + dst.length)
    rw [he] at hread
    cases hread

/-! ## One chunk -/

section Chunk

variable {D R a} {g : ℕ} {chunk : Chunk} {s t : BlockState W} {w w' : W} {d stored : Bytes}

/-- **A chunk that reads back** does so into every destination of its size. -/
theorem Readable.readsBack (h : Readable D R a g w d w') (hchunk : a.chunks[g]? = some chunk)
    {dst : Bytes} (hdst : dst.length = chunk.originalSize.toNat) (stored : Bytes) :
    ∃ stored', ReadsBack D R a g ⟨w, dst, stored⟩ ⟨w', d, stored'⟩ := by
  obtain ⟨chunk', block, hchunk', hread, ho, hsum⟩ := h
  cases hchunk.symm.trans hchunk'
  by_cases hraw : a.aeadKey = none ∧ chunk.compressed = false
  · refine ⟨stored, chunk, block, hchunk, ho, hsum, ?_⟩
    rw [if_pos hraw]
    exact ⟨hread dst (by rw [blockLength, if_pos hraw, hdst]), rfl⟩
  · refine ⟨block, chunk, block, hchunk, ho, hsum, ?_⟩
    rw [if_neg hraw]
    exact ⟨hread _ (by rw [blockLength, if_neg hraw, length_resize]), rfl⟩

/-- What a chunk that reads back went through. -/
theorem ReadsBack.exists_block (h : ReadsBack D R a g s t) (hchunk : a.chunks[g]? = some chunk)
    (hdst : s.dst.length = chunk.originalSize.toNat) :
    ∃ buffer block : Bytes, buffer.length = blockLength a chunk ∧
      readExactAt R chunk.offset.toNat (s.source, buffer) = (.ok (), t.source, block) ∧
      openBlock D a.aeadKey chunk g block = .ok t.dst ∧ checksum D t.dst = chunk.checksum := by
  obtain ⟨chunk', block, hchunk', ho, hsum, hread⟩ := h
  cases hchunk.symm.trans hchunk'
  split_ifs at hread with hraw
  · exact ⟨s.dst, block, by rw [blockLength, if_pos hraw, hdst], hread.1, ho, hsum⟩
  · exact ⟨_, block, by rw [blockLength, if_neg hraw, length_resize], hread.1, ho, hsum⟩

/-- Over a source that fills its buffers, a chunk that reads back into one destination reads back
into every other. -/
theorem ReadsBack.readable (h : ReadsBack D R a g s t) (hfills : FillsBuffers R)
    (hchunk : a.chunks[g]? = some chunk) (hdst : s.dst.length = chunk.originalSize.toNat) :
    Readable D R a g s.source t.dst t.source := by
  obtain ⟨buffer, block, hbuffer, hread, ho, hsum⟩ := h.exists_block hchunk hdst
  exact ⟨chunk, block, hchunk, fun b hb => hfills (hb.trans hbuffer.symm) hread, ho, hsum⟩

/-- **A chunk that never reads back** does so into no destination. -/
theorem Unreadable.not_readsBack (h : Unreadable D R a g s.source)
    (hdst : ∀ chunk, a.chunks[g]? = some chunk → s.dst.length = chunk.originalSize.toNat) :
    ¬ ReadsBack D R a g s t := by
  intro hback
  obtain ⟨chunk, hchunk, hnever⟩ := h
  obtain ⟨buffer, block, hbuffer, hread, ho, hsum⟩ := hback.exists_block hchunk (hdst chunk hchunk)
  exact hnever buffer block _ _ hbuffer hread ho hsum

/-- Over a source that fills its buffers, a chunk reads back or never does. -/
theorem readable_of_not_unreadable (hfills : FillsBuffers R) (hchunk : a.chunks[g]? = some chunk)
    (h : ¬ Unreadable D R a g w) : ∃ d w', Readable D R a g w d w' := by
  simp only [Unreadable, not_exists, not_and, not_forall, not_not] at h
  obtain ⟨buffer, block, d, w', hbuffer, hread, ho, hsum⟩ := h chunk hchunk
  exact ⟨d, w', chunk, block, hchunk, fun b hb => hfills (hb.trans hbuffer.symm) hread, ho, hsum⟩

/-- What a refused plain form leaves is in place. -/
theorem RefusedPlain.plainInPlace {plain dst : Bytes} (h : RefusedPlain D chunk plain)
    (hdst : dst.length = chunk.originalSize.toNat) : PlainInPlace D chunk plain dst := by
  unfold RefusedPlain at h
  unfold PlainInPlace
  split_ifs at h ⊢ with hc
  · rw [hdst]
    rcases h with ⟨message, hd, hresidue⟩ | hd
    · rw [hd]
      exact hresidue dst hdst
    · rw [hd]
      exact List.nil_prefix
  · intro hlen
    exact absurd (hlen.trans hdst) h

/-- A refused plain form has no content. -/
theorem RefusedPlain.contentOf_ne_ok {plain content : Bytes} (h : RefusedPlain D chunk plain)
    (hpos : 0 < chunk.originalSize.toNat) : contentOf D chunk plain ≠ .ok content := by
  intro hcontent
  have hlen := contentOf_length hcontent
  unfold RefusedPlain at h
  unfold contentOf at hcontent
  split_ifs at h hcontent with hc
  · obtain ⟨hd, -⟩ := (decompressExact_eq_ok_iff D).mp hcontent
    rcases h with ⟨message, hd', -⟩ | hd'
    · cases hd.symm.trans hd'
    · -- nothing is too short for a chunk
      cases hd.symm.trans hd'
      rw [List.length_nil] at hlen
      omega
  · obtain ⟨_, hsize, -⟩ := bind_eq_ok.mp hcontent
    exact h (ensure_eq_ok_iff.mp hsize)

/-- **A chunk that fails unwritten** does not read back, and what it leaves is in place. -/
theorem Unwritten.inPlace (h : Unwritten D R a g w) (hchunk : a.chunks[g]? = some chunk)
    (hpos : 0 < chunk.originalSize.toNat) {dst : Bytes}
    (hdst : dst.length = chunk.originalSize.toNat) (stored : Bytes) :
    InPlace D R a g ⟨w, dst, stored⟩ ∧ ∀ t, ¬ ReadsBack D R a g ⟨w, dst, stored⟩ t := by
  obtain ⟨chunk', hchunk', h⟩ := h
  cases hchunk.symm.trans hchunk'
  by_cases hraw : a.aeadKey = none ∧ chunk.compressed = false
  · rw [if_pos hraw] at h
    obtain ⟨f, w', hread⟩ := h dst hdst
    refine ⟨⟨chunk, hchunk, ?_⟩, ?_⟩
    · rw [if_pos hraw, hread]
    · rintro t ⟨chunk', block, hchunk', -, -, hback⟩
      cases hchunk.symm.trans hchunk'
      rw [if_pos hraw, hread] at hback
      cases hback.1
  · rw [if_neg hraw] at h
    refine ⟨⟨chunk, hchunk, ?_⟩, ?_⟩
    · rw [if_neg hraw]
      intro w' block plain hread hplain
      exact (h _ block plain w' (length_resize _ _) hread hplain).plainInPlace hdst
    · rintro t ⟨chunk', block, hchunk', ho, -, hback⟩
      cases hchunk.symm.trans hchunk'
      rw [if_neg hraw] at hback
      obtain ⟨plain, hplain, hcontent⟩ := bind_eq_ok.mp ho
      exact (h _ block plain _ (length_resize _ _) hback.1 hplain).contentOf_ne_ok hpos hcontent

/-- **A plain form that is in place in every destination** is refused. -/
theorem refusedPlain_of_plainInPlace {plain : Bytes} (hpos : 0 < chunk.originalSize.toNat)
    (h : ∀ dst : Bytes, dst.length = chunk.originalSize.toNat → PlainInPlace D chunk plain dst) :
    RefusedPlain D chunk plain := by
  unfold PlainInPlace at h
  unfold RefusedPlain
  split_ifs at h ⊢ with hc
  · cases hd : D.decompressInto plain chunk.originalSize.toNat with
    | error message =>
      refine Or.inl ⟨message, rfl, fun dst hdst => ?_⟩
      simpa only [hdst, hd] using h dst hdst
    | ok decoded =>
      -- what was decoded stands in front of every destination
      have hnil : decoded = [] := by
        refine eq_nil_of_forall_prefix (D.decompress_le hd) fun dst hdst => ?_
        simpa only [hdst, hd] using h dst hdst
      exact Or.inr (by rw [hnil])
  · intro hlen
    have hnil : plain = [] := by
      refine eq_nil_of_forall_prefix hlen.le fun dst hdst => ?_
      rw [h dst hdst (hlen.trans hdst.symm)]
    rw [hnil, List.length_nil] at hlen
    omega

/-- **A chunk that is in place in every destination** fails unwritten. -/
theorem unwritten_of_inPlace (hfills : FillsBuffers R) (hchunk : a.chunks[g]? = some chunk)
    (hpos : 0 < chunk.originalSize.toNat)
    (h : ∀ dst : Bytes, dst.length = chunk.originalSize.toNat →
      InPlace D R a g ⟨w, dst, stored⟩) : Unwritten D R a g w := by
  simp only [InPlace, hchunk, Option.some.injEq, exists_eq_left'] at h
  refine ⟨chunk, hchunk, ?_⟩
  split_ifs at h ⊢ with hraw
  · intro dst hdst
    have hleft := h dst hdst
    rcases hread : readExactAt R chunk.offset.toNat (w, dst) with ⟨f | ⟨⟨⟩⟩, w', block⟩
    · rw [hread] at hleft
      exact ⟨f, w', by rw [← hleft]⟩
    · -- a success would give the same bytes in every buffer
      have hlen : block.length = dst.length := by
        rw [hread] at hleft
        rw [← hleft]
      have hnil : block = [] := by
        refine eq_nil_of_forall_prefix (hlen.trans hdst).le fun dst' hdst' => ?_
        have hleft' := h dst' hdst'
        rw [hfills (hdst'.trans hdst.symm) hread] at hleft'
        rw [← hleft']
      rw [hnil, List.length_nil] at hlen
      omega
  · intro buffer block plain w' hbuffer hread hplain
    refine refusedPlain_of_plainInPlace hpos fun dst hdst => ?_
    exact h dst hdst w' block plain (hfills (by rw [hbuffer, length_resize]) hread) hplain

end Chunk

/-! ## Chunks in a row -/

section Row

variable {D R a} {entry : Entry} {g l turns : ℕ} {cs rest : List Chunk} {dst stored : Bytes}
  {scratch : ArchiveScratch} {w w' : W}

/-- **Chunks that read back** do so over every destination with room for them. -/
theorem Reads.readsOver (hcs : a.chunks.drop g = cs ++ rest) (hroom : totalSize cs ≤ dst.length)
    (h : Reads D R a (List.range' g cs.length) w w') :
    ReadsOver D R a (List.range' g cs.length) dst w stored := by
  induction cs generalizing g w dst stored with
  | nil => trivial
  | cons c cs ih =>
    rw [totalSize_cons] at hroom
    rw [List.length_cons, List.range'_succ] at h ⊢
    obtain ⟨d, w₁, hd, hgo⟩ := h
    have hc := getElem?_of_drop_eq hcs
    have hwindow : (dst.take c.originalSize.toNat).length = c.originalSize.toNat := by
      rw [List.length_take]
      omega
    obtain ⟨stored', hback⟩ := hd.readsBack hc hwindow stored
    refine ⟨c, _, hc, hback, ih (drop_succ_of_drop_eq hcs) ?_ hgo⟩
    rw [List.length_drop]
    omega

/-- Over a source that fills its buffers, chunks that read back over one destination read back. -/
theorem ReadsOver.reads (hfills : FillsBuffers R) (hcs : a.chunks.drop g = cs ++ rest)
    (hroom : totalSize cs ≤ dst.length)
    (h : ReadsOver D R a (List.range' g cs.length) dst w stored) :
    ∃ w', Reads D R a (List.range' g cs.length) w w' := by
  induction cs generalizing g w dst stored with
  | nil => exact ⟨w, rfl⟩
  | cons c cs ih =>
    rw [totalSize_cons] at hroom
    rw [List.length_cons, List.range'_succ] at h ⊢
    obtain ⟨chunk, t, hchunk, hback, hgo⟩ := h
    have hc := getElem?_of_drop_eq hcs
    cases hc.symm.trans hchunk
    have hwindow : (dst.take c.originalSize.toNat).length = c.originalSize.toNat := by
      rw [List.length_take]
      omega
    have hfits : totalSize cs ≤ (dst.drop c.originalSize.toNat).length := by
      rw [List.length_drop]
      omega
    obtain ⟨w', hw'⟩ := ih (drop_succ_of_drop_eq hcs) hfits hgo
    exact ⟨w', t.dst, t.source, hback.readable hfills hc hwindow, hw'⟩

/-- Chunks that read back do so into the scratch space. -/
theorem Reads.rangeReads (h : Reads D R a (List.range' (entry.firstChunk.toNat + l) turns) w w') :
    RangeReads D R a entry turns l w scratch := by
  induction turns generalizing l w scratch with
  | zero => trivial
  | succ turns ih =>
    rw [List.range'_succ] at h
    obtain ⟨d, w₁, hd, hgo⟩ := h
    have ⟨chunk, _, hchunk, _⟩ := hd
    obtain ⟨stored', hback⟩ := hd.readsBack hchunk
      (length_resize scratch.decoded chunk.originalSize.toNat) scratch.stored
    exact ⟨chunk, _, hchunk, hback, ih hgo⟩

/-- Over a source that fills its buffers, chunks that read back into one scratch space read back. -/
theorem RangeReads.reads (hfills : FillsBuffers R)
    (h : RangeReads D R a entry turns l w scratch) :
    ∃ w', Reads D R a (List.range' (entry.firstChunk.toNat + l) turns) w w' := by
  induction turns generalizing l w scratch with
  | zero => exact ⟨w, rfl⟩
  | succ turns ih =>
    obtain ⟨chunk, t, hchunk, hback, hgo⟩ := h
    obtain ⟨w', hw'⟩ := ih hgo
    rw [List.range'_succ]
    exact ⟨w', t.dst, t.source, hback.readable hfills hchunk (length_resize _ _), hw'⟩

end Row

/-! ## The calls -/

/-- **A call that reads chunks straight into its destination** leaves it alone when it fails: all of
the chunks read back, or the first of them fails unwritten. -/
def SparesInto (gs : List ℕ) (w : W) : Prop :=
  (∃ w', Reads D R a gs w w') ∨ ∃ g, gs.head? = some g ∧ Unwritten D R a g w

/-- **Reading an entry into `len` bytes** leaves them alone when it fails. -/
def SparesWhole (entry : Entry) (len : ℕ) (w : W) : Prop :=
  entry.chunkCount.toNat ≤ a.maxChunksPerOperation → len = entry.originalSize.toNat →
    SparesInto D R a entry.chunkNumbers w

/-- **Reading a chunk of an entry into `len` bytes** leaves them alone when it fails. -/
def SparesPiece (entry : Entry) (i : UInt32) (len : ℕ) (w : W) : Prop :=
  1 ≤ a.maxChunksPerOperation → i.toNat < entry.chunkCount.toNat →
    (∃ chunk, a.chunks[entry.firstChunk.toNat + i.toNat]? = some chunk ∧
      len = chunk.originalSize.toNat) →
    SparesInto D R a [entry.firstChunk.toNat + i.toNat] w

/-- **Reading a range of an entry into `len` bytes** leaves them alone when it fails, or when the
number of bytes that were read is not `stored`: the range is empty, or its chunks read back, or the
first of them never does. -/
def SparesRange (entry : Entry) (offset len : ℕ) (stored : Prop) (w : W) : Prop :=
  ∀ n, RangeAccepted a entry offset len false n →
    n = 0 ∨ (stored ∧ ∃ w', Reads D R a (touchedNumbers a entry offset n) w w') ∨
      Unreadable D R a (entry.firstChunk.toNat + offset / a.chunkSize.toNat) w

section Found

variable {D R a} {entry : Entry} {offset len g : ℕ} {cs rest : List Chunk}
  {stored : Bytes} {scratch : ArchiveScratch} {s : ReadState W} {w : W}

/-- No chunk is empty. -/
theorem WellFormed.chunk_pos (h : WellFormed D a) {chunk : Chunk}
    (hchunk : a.chunks[g]? = some chunk) : 0 < chunk.originalSize.toNat := by
  obtain ⟨p, -, -, -, -, hlayout⟩ := h.layout
  exact (hlayout.chunk chunk (List.mem_of_getElem? hchunk)).original_pos

/-- **Chunks that are spared** leave every destination with room for them as it is. -/
theorem SparesInto.readsOver_or (h : WellFormed D a) (hcs : a.chunks.drop g = cs ++ rest)
    {dst : Bytes} (hroom : totalSize cs ≤ dst.length)
    (hs : SparesInto D R a (List.range' g cs.length) w) :
    ReadsOver D R a (List.range' g cs.length) dst w stored ∨
      InPlaceOver D R a (List.range' g cs.length) dst w stored := by
  rcases hs with ⟨w', hreads⟩ | ⟨g', hhead, hunwritten⟩
  · exact Or.inl (hreads.readsOver hcs hroom)
  · cases cs with
    | nil => cases hhead
    | cons c cs =>
      rw [totalSize_cons] at hroom
      rw [List.length_cons, List.range'_succ] at hhead ⊢
      cases hhead
      have hc := getElem?_of_drop_eq hcs
      have hwindow : (dst.take c.originalSize.toNat).length = c.originalSize.toNat := by
        rw [List.length_take]
        omega
      -- the first chunk fails, so the others do not matter
      obtain ⟨hplace, hnot⟩ := hunwritten.inPlace hc (h.chunk_pos hc) hwindow stored
      exact Or.inr ⟨c, hc, hplace, fun t ht => absurd ht (hnot t)⟩

/-- **Chunks that leave every destination as it is** are spared, over a source that fills its
buffers. -/
theorem sparesInto_of_forall (h : WellFormed D a) (hfills : FillsBuffers R)
    (hcs : a.chunks.drop g = cs ++ rest)
    (hall : ∀ dst : Bytes, dst.length = totalSize cs →
      ReadsOver D R a (List.range' g cs.length) dst w stored ∨
        InPlaceOver D R a (List.range' g cs.length) dst w stored) :
    SparesInto D R a (List.range' g cs.length) w := by
  by_cases hreads : ∃ w', Reads D R a (List.range' g cs.length) w w'
  · exact Or.inl hreads
  have hplace : ∀ dst : Bytes, dst.length = totalSize cs →
      InPlaceOver D R a (List.range' g cs.length) dst w stored := fun dst hdst =>
    (hall dst hdst).resolve_left fun hover => hreads (hover.reads hfills hcs hdst.ge)
  cases cs with
  | nil => exact absurd ⟨w, rfl⟩ hreads
  | cons c cs =>
    rw [List.length_cons, List.range'_succ] at hplace ⊢
    have hc := getElem?_of_drop_eq hcs
    have hfirst : ∀ dst : Bytes, dst.length = c.originalSize.toNat →
        InPlace D R a g ⟨w, dst, stored⟩ := by
      intro dst hdst
      -- the destination is continued to one for all of the chunks
      obtain ⟨chunk, hchunk, hhead, -⟩ := hplace (dst ++ List.replicate (totalSize cs) 0) (by
        rw [List.length_append, List.length_replicate, totalSize_cons, hdst])
      cases hc.symm.trans hchunk
      rwa [List.take_left' hdst] at hhead
    exact Or.inr ⟨g, rfl, unwritten_of_inPlace hfills hc (h.chunk_pos hc) hfirst⟩

section Whole

variable (h : WellFormed D a) (he : entry ∈ a.entries)

include h he

theorem SparesWhole.unchanged (hs : SparesWhole D R a entry s.dst.length s.source) :
    WholeUnchanged D R a entry s := by
  intro hlimit hdst
  obtain ⟨-, hlen, -, -, htotal⟩ := h.ownedChunks_spec he
  have hinto := hs hlimit hdst
  rw [TocEntry.chunkNumbers, ← hlen] at hinto ⊢
  exact hinto.readsOver_or h (entry.drop_eq_ownedChunks_append a.chunks) (by omega)

theorem sparesWhole_of_unchanged (hfills : FillsBuffers R)
    (hall : ∀ dst : Bytes, dst.length = len → WholeUnchanged D R a entry ⟨w, dst, scratch⟩) :
    SparesWhole D R a entry len w := by
  rintro hlimit rfl
  obtain ⟨-, hlen, -, -, htotal⟩ := h.ownedChunks_spec he
  have hover : ∀ dst : Bytes, dst.length = totalSize (entry.ownedChunks a.chunks) →
      ReadsOver D R a entry.chunkNumbers dst w scratch.stored ∨
        InPlaceOver D R a entry.chunkNumbers dst w scratch.stored := by
    intro dst hdst
    exact hall dst (hdst.trans htotal) hlimit (hdst.trans htotal)
  rw [TocEntry.chunkNumbers, ← hlen] at hover ⊢
  exact sparesInto_of_forall h hfills (entry.drop_eq_ownedChunks_append a.chunks) hover

end Whole

theorem SparesPiece.unchanged {i : UInt32} (h : WellFormed D a)
    (hs : SparesPiece D R a entry i s.dst.length s.source) : PieceUnchanged D R a entry i s := by
  intro hlimit hi hsize
  obtain ⟨chunk, hchunk, hdst⟩ := hsize
  rcases hs hlimit hi ⟨chunk, hchunk, hdst⟩ with ⟨w', d, w₁, hd, -⟩ | ⟨g, hhead, hunwritten⟩
  · obtain ⟨stored', hback⟩ := hd.readsBack hchunk hdst s.scratch.stored
    exact Or.inl ⟨_, hback⟩
  · cases hhead
    exact Or.inr (hunwritten.inPlace hchunk (h.chunk_pos hchunk) hdst s.scratch.stored).1

theorem sparesPiece_of_unchanged {i : UInt32} (h : WellFormed D a) (hfills : FillsBuffers R)
    (hall : ∀ dst : Bytes, dst.length = len → PieceUnchanged D R a entry i ⟨w, dst, scratch⟩) :
    SparesPiece D R a entry i len w := by
  rintro hlimit hi ⟨chunk, hchunk, rfl⟩
  by_cases hreads : ∃ d w', Readable D R a (entry.firstChunk.toNat + i.toNat) w d w'
  · obtain ⟨d, w', hd⟩ := hreads
    exact Or.inl ⟨w', d, w', hd, rfl⟩
  have hplace : ∀ dst : Bytes, dst.length = chunk.originalSize.toNat →
      InPlace D R a (entry.firstChunk.toNat + i.toNat) ⟨w, dst, scratch.stored⟩ := by
    intro dst hdst
    refine (hall dst hdst hlimit hi ⟨chunk, hchunk, hdst⟩).resolve_left ?_
    rintro ⟨t, ht⟩
    exact hreads ⟨_, _, ht.readable hfills hchunk hdst⟩
  exact Or.inr ⟨_, rfl, unwritten_of_inPlace hfills hchunk (h.chunk_pos hchunk) hplace⟩

theorem SparesRange.unchanged {c : Prop}
    (hs : SparesRange D R a entry offset s.dst.length c s.source) :
    RangeUnchanged D R a entry offset c s := by
  intro n hacc
  rcases hs n hacc with rfl | ⟨hc, w', hreads⟩ | hunreadable
  · rw [touched, if_pos rfl]
    exact Or.inr trivial
  · exact Or.inl ⟨hc, hreads.rangeReads⟩
  · obtain ⟨turns, hturns⟩ | hzero : (∃ turns, touched a.chunkSize.toNat offset n = turns + 1) ∨
        touched a.chunkSize.toNat offset n = 0 := by
      cases touched a.chunkSize.toNat offset n with
      | zero => exact Or.inr rfl
      | succ turns => exact Or.inl ⟨turns, rfl⟩
    · -- the first chunk never reads back, so nothing is copied
      have hfirst := hunreadable
      obtain ⟨chunk, hchunk, -⟩ := hfirst
      rw [hturns]
      refine Or.inr ⟨chunk, hchunk, fun t ht => absurd ht (hunreadable.not_readsBack ?_)⟩
      intro chunk' hchunk'
      cases hchunk.symm.trans hchunk'
      exact length_resize _ _
    · rw [hzero]
      exact Or.inr trivial

/-- The part of a range in its first chunk is not empty, and no longer than the range. -/
theorem RangeRest.piece_pos {c : Chunk} {stop : ℕ} {d : Bytes}
    (hrest : RangeRest a entry offset stop (offset / a.chunkSize.toNat) (c :: cs) rest)
    (horder : offset < stop) (hd : d.length = c.originalSize.toNat) :
    0 < (rangePiece a offset stop (offset / a.chunkSize.toNat) d).length ∧
      (rangePiece a offset stop (offset / a.chunkSize.toNat) d).length ≤ stop - offset := by
  have hbase : offset / a.chunkSize.toNat * a.chunkSize.toNat ≤ offset := Nat.div_mul_le_self _ _
  have hstop := hrest.stop_le
  have hoffset := hrest.offset_lt
  have hsucc : (offset / a.chunkSize.toNat + 1) * a.chunkSize.toNat =
    offset / a.chunkSize.toNat * a.chunkSize.toNat + a.chunkSize.toNat := by ring
  rw [totalSize_cons] at hstop
  rw [length_rangePiece, hd]
  rcases hrest.cases with rfl | ⟨hfull, -, -⟩
  · rw [totalSize_nil] at hstop
    omega
  · omega

theorem sparesRange_of_unchanged {c : Prop} (h : WellFormed D a)
    (he : entry ∈ a.entries) (hfills : FillsBuffers R)
    (hall : ∀ dst : Bytes, dst.length = len → RangeUnchanged D R a entry offset c
      ⟨w, dst, scratch⟩) : SparesRange D R a entry offset len c w := by
  intro n hacc
  have ⟨hle, _, _, hn, hlimit⟩ := hacc
  rcases Nat.eq_zero_or_pos n with hzero | hpos
  · exact Or.inl hzero
  by_cases hreads : c ∧ ∃ w', Reads D R a (touchedNumbers a entry offset n) w w'
  · exact Or.inr (Or.inl hreads)
  refine Or.inr (Or.inr ?_)
  have hplace : ∀ dst : Bytes, dst.length = n → RangeInPlace D R a entry offset (offset + n)
      (touched a.chunkSize.toNat offset n) (offset / a.chunkSize.toNat) dst w scratch := by
    intro dst hdst
    -- the destination begins with the bytes that the range is read into
    have hlen : (dst ++ List.replicate (len - n) 0).length = len := by
      rw [List.length_append, List.length_replicate]
      omega
    have hrange := hall _ hlen n (by rw [hlen]; exact hacc)
    rw [List.take_left' hdst] at hrange
    refine hrange.resolve_left ?_
    rintro ⟨hc, hover⟩
    exact hreads ⟨hc, hover.reads hfills⟩
  obtain ⟨cs, rest, hcs, hrest⟩ := h.rangeRest he
    (show offset < offset + n by omega) (by omega)
  rw [Nat.add_sub_cancel_left] at hcs
  rw [← hcs] at hplace
  cases cs with
  | nil =>
    have hstop := hrest.stop_le
    have hbase : offset / a.chunkSize.toNat * a.chunkSize.toNat ≤ offset :=
      Nat.div_mul_le_self _ _
    rw [totalSize_nil] at hstop
    omega
  | cons chunk cs =>
    have hchunk := hrest.getElem?_eq
    by_contra hno
    obtain ⟨d, w', hd⟩ := readable_of_not_unreadable hfills hchunk hno
    obtain ⟨stored', hback⟩ := hd.readsBack hchunk
      (length_resize scratch.decoded chunk.originalSize.toNat) scratch.stored
    obtain ⟨hpiece, hfits⟩ := hrest.piece_pos (by omega) (hback.length_eq hchunk)
    -- the part in the first chunk would stand in front of every destination
    refine hpiece.ne' (List.length_eq_zero_iff.mpr ?_)
    refine eq_nil_of_forall_prefix (n := n) (by omega) fun dst hdst => ?_
    obtain ⟨chunk', hchunk', hstands⟩ := hplace dst hdst
    cases hchunk.symm.trans hchunk'
    exact (hstands _ hback).1

end Found

end RasenArchive
