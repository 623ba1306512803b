import RasenArchive.Pack.Blocks

/-!
# One turn of a packer

What one turn of the loop of `add_reader` does: the chunk in the buffer is compressed where that
makes it shorter, encrypted where the options ask for it, written behind its padding and recorded.
The packer, its writer and the random source then hold one block more.

## Main definitions

* `PackState.withBlock`, `PackState.withStored`: the states on the way

## Main results

* `protect_post`, `recordChunk_post`: the parts of a turn
* `storeChunk_post`: the turn behind the padding
* `addChunk_post`: one turn of the loop stores one block more, where there is room for it
-/

namespace RasenArchive

section

variable {D : Dependencies} {B : Sealing} {blocks : List Block} {s s' : PackState Device}

/-! ## The parts of a turn -/

/-- The bytes in front of the buffer of raw bytes. -/
theorem rawInput_eq {p : Packer} {content : Bytes}
    (hraw : p.raw.take content.length = content) :
    rawInput p content.length = .ok content := by
  have hle : content.length ≤ p.raw.length := by
    have := congrArg List.length hraw
    rw [List.length_take] at this
    omega
  unfold rawInput
  rw [slice_of_le (Nat.zero_le _) hle, List.extract_eq_take_drop]
  simp [hraw]

/-- The state with the block in the compression buffer. -/
def PackState.withBlock (s : PackState Device) (block : Bytes) : PackState Device :=
  { s with packer := { s.packer with compressed := overwrite s.packer.compressed 0 block } }

theorem compressRaw_post {content : Bytes}
    (hraw : s.packer.raw.take content.length = content) :
    Fallible.Post (compressRaw D content.length) s
      (fun n s' => ∃ block, D.compressInto content s.packer.compressed.length = .ok block ∧
        n = block.length ∧ s' = s.withBlock block)
      (fun _ s' => s' = s ∧
        ∃ message, D.compressInto content s.packer.compressed.length = .error message) := by
  unfold compressRaw
  rw [Fallible.post_bind, Fallible.post_gets, id, Fallible.post_liftM_bind_of_ok (rawInput_eq hraw)]
  cases hc : D.compressInto content s.packer.compressed.length with
  | error message => exact ⟨rfl, message, rfl⟩
  | ok block => exact ⟨block, rfl, rfl, rfl⟩

theorem plainStored_eq {p : Packer} {content block : Bytes}
    (hraw : p.raw.take content.length = content) (hblock : p.compressed.take block.length = block) :
    plainStored p content.length block.length = .ok (plainForm content block) := by
  -- the block fits the buffer that it was written to
  have hle : block.length ≤ p.compressed.length := by
    have := congrArg List.length hblock
    rw [List.length_take] at this
    omega
  have hslice : slice p.compressed 0 block.length = .ok block := by
    rw [slice_of_le (Nat.zero_le _) hle, List.extract_eq_take_drop]
    simp [hblock]
  unfold plainStored plainForm
  -- the block is stored where it is shorter, and the raw bytes are otherwise
  split_ifs with hlt
  · rw [hslice]
    rfl
  · rw [rawInput_eq hraw]
    rfl

/-- The random source after one block more. -/
theorem Sealing.entropyAfter_append (blocks : List Block) (b : Block) :
    B.entropyAfter (blocks ++ [b]) = match B.options.protection with
      | .xor => B.entropyAfter blocks
      | .aead => { B.entropyAfter blocks with
          drawn := (B.entropyAfter blocks).drawn + 1,
          calls := (B.entropyAfter blocks).calls ++ [Sealing.call blocks.length b] } := by
  unfold Sealing.entropyAfter
  cases B.options.protection with
  | xor => rfl
  | aead => simp [List.mapIdx_append, Nat.add_assoc]

/-- **Protection** of the plain bytes after some blocks. -/
theorem protect_post {plain aad : Bytes} (hs : s.entropy = B.entropyAfter blocks) :
    Fallible.Post (protect D (packKey D B.key B.options) plain aad) s
      (fun stored s' => B.Protects D blocks.length plain aad stored ∧
        s' = { s with entropy := match B.options.protection with
          | .xor => s.entropy
          | .aead => { s.entropy with drawn := s.entropy.drawn + 1,
                                      calls := s.entropy.calls ++ [⟨plain, aad, stored⟩] } })
      (fun _ s' => (∃ e, s' = { s with entropy := e }) ∧
        ¬ ∃ stored, B.Protects D blocks.length plain aad stored) := by
  unfold packKey Sealing.Protects
  -- XOR masks the table only, and needs no random bytes
  cases hp : B.options.protection with
  | xor => exact ⟨rfl, rfl⟩
  | aead =>
    rw [if_pos rfl, protect, onEntropy, Fallible.post_focus, Fallible.post_iff]
    -- the nonce drawn next is that of the block's number
    have hafter : s.entropy.fill = B.entropy.fill ∧
        s.entropy.drawn = B.entropy.drawn + blocks.length := by
      rw [hs, Sealing.entropyAfter, hp]
      exact ⟨rfl, rfl⟩
    constructor
    · intro stored e henc
      obtain ⟨nonce, ciphertext, hn, hc, hst, rfl⟩ := (encrypt_eq_ok_iff D).mp henc
      rw [hafter.1, hafter.2] at hn
      exact ⟨⟨nonce, ciphertext, hn, hc, hst⟩, rfl⟩
    · intro f e henc
      refine ⟨⟨e, rfl⟩, ?_⟩
      rintro ⟨stored, nonce, ciphertext, hn, hc, hst⟩
      rw [← hafter.1, ← hafter.2] at hn
      rw [(encrypt_eq_ok_iff D).mpr ⟨nonce, ciphertext, hn, hc, rfl, rfl⟩] at henc
      cases henc

/-- The state with the record of a chunk. -/
def PackState.withChunk (s : PackState Device) (offset : ℕ) (chunk : Chunk) : PackState Device :=
  { s with packer := { s.packer with offset := offset, chunks := s.packer.chunks ++ [chunk] } }

/-- **The record of a chunk**, after its bytes. -/
theorem recordChunk_post {at' rawLen storedLen : ℕ} {sum : UInt64} {isCompressed : Bool}
    {totals : Totals} :
    Fallible.Post (recordChunk at' rawLen storedLen sum isCompressed totals) s
      (fun totals' s' => s.packer.offset + storedLen < 2 ^ 64 ∧
        s.packer.chunks.length + 1 < 2 ^ 32 ∧ totals.original + rawLen < 2 ^ 64 ∧
        totals.stored + storedLen < 2 ^ 64 ∧
        totals' = ⟨totals.original + rawLen, totals.stored + storedLen⟩ ∧
        s' = s.withChunk (s.packer.offset + storedLen) ⟨UInt64.ofNat at', UInt64.ofNat storedLen,
          UInt64.ofNat rawLen, sum, isCompressed⟩)
      (fun _ s' => s'.writer = s.writer ∧ ¬ (s.packer.offset + storedLen < 2 ^ 64 ∧
        rawLen < 2 ^ 64 ∧ totals.original + rawLen < 2 ^ 64 ∧
        totals.stored + storedLen < 2 ^ 64 ∧ s.packer.chunks.length + 1 < 2 ^ 32)) := by
  unfold recordChunk
  rw [Fallible.post_bind, Fallible.post_gets, id, Fallible.post_liftM_bind]
  refine ⟨fun storedSize hstored => ?_, fun f hstored => ⟨rfl, fun h => ?_⟩⟩
  swap
  · -- the stored size is within the sum that is said to fit
    rw [usizeToU64_eq_ok_iff.mpr ⟨by omega, rfl⟩] at hstored
    cases hstored
  obtain ⟨-, rfl⟩ := usizeToU64_eq_ok_iff.mp hstored
  rw [Fallible.post_liftM_bind]
  refine ⟨fun offset hoffset => ?_, fun f hoffset => ⟨rfl, fun h => ?_⟩⟩
  swap
  · -- the offset overflows
    rw [okOr_eq_error_iff, checkedAdd, if_pos h.1] at hoffset
    cases hoffset.1
  rw [okOr_eq_ok_iff, checkedAdd_eq_some_iff] at hoffset
  obtain ⟨hfits, rfl⟩ := hoffset
  rw [Fallible.post_bind, Fallible.post_modify, Fallible.post_liftM_bind]
  refine ⟨fun originalSize hraw => ?_, fun f hraw => ⟨rfl, fun h => ?_⟩⟩
  swap
  · -- the raw size is no number of 64 bits
    rw [usizeToU64_eq_ok_iff.mpr ⟨h.2.1, rfl⟩] at hraw
    cases hraw
  obtain ⟨-, rfl⟩ := usizeToU64_eq_ok_iff.mp hraw
  rw [Fallible.post_liftM_bind]
  refine ⟨fun original horiginal => ?_, fun f horiginal => ⟨rfl, fun h => ?_⟩⟩
  swap
  · -- the sizes of the entry overflow
    rw [okOr_eq_error_iff, checkedAdd, if_pos h.2.2.1] at horiginal
    cases horiginal.1
  rw [okOr_eq_ok_iff, checkedAdd_eq_some_iff] at horiginal
  obtain ⟨horiginal, rfl⟩ := horiginal
  rw [Fallible.post_liftM_bind]
  refine ⟨fun stored htotal => ?_, fun f htotal => ⟨rfl, fun h => ?_⟩⟩
  swap
  · rw [okOr_eq_error_iff, checkedAdd, if_pos h.2.2.2.1] at htotal
    -- and those in storage
    cases htotal.1
  rw [okOr_eq_ok_iff, checkedAdd_eq_some_iff] at htotal
  obtain ⟨htotal, rfl⟩ := htotal
  -- the chunk is recorded before its number is checked
  rw [Fallible.post_bind, Fallible.post_modify, Fallible.post_bind, Fallible.post_gets,
    Fallible.post_liftM_bind]
  refine ⟨fun n hn => ?_, fun f hn => ⟨rfl, fun h => ?_⟩⟩
  · -- the number of chunks is checked with the new one among them
    obtain ⟨hcount, -⟩ := usizeToU32_eq_ok_iff.mp hn
    rw [id, List.length_append] at hcount
    exact ⟨hfits, hcount, horiginal, htotal, rfl, rfl⟩
  · rw [id, usizeToU32_eq_ok_iff.mpr ⟨by rw [List.length_append]; exact h.2.2.2.2, rfl⟩] at hn
    cases hn

/-! ## A whole turn -/

/-- The block that follows some others in the image. -/
theorem body_singleton {alignment offset : ℕ} (b : Block) : body alignment offset [b] =
    List.replicate (alignedAt alignment offset - offset) 0 ++ b.stored := by
  simp [body]

/-- The state with one block more, whose LZ4 block went through the compression buffer. -/
def PackState.withStored (s : PackState Device) (block : Bytes) (offset : ℕ) (chunk : Chunk)
    (w : Device) (e : Entropy) : PackState Device :=
  { s with
    packer := { s.packer with
      compressed := overwrite s.packer.compressed 0 block
      offset := offset
      chunks := s.packer.chunks ++ [chunk] }
    writer := w
    entropy := e }

/-- **One block more**: its padding and its stored form went to the end of the file. -/
theorem Stores.append (h : Stores D B blocks s) {b : Block}
    (hb : B.Seals D blocks.length b) {block : Bytes}
    (hblock : block.length ≤ s.packer.compressed.length) {w : Device}
    (happ : Appended s.writer (List.replicate (alignedAt B.alignment s.packer.offset -
      s.packer.offset) 0 ++ b.stored) w)
    (hoffset : alignedAt B.alignment s.packer.offset + b.stored.length < 2 ^ 64)
    (hcount : blocks.length + 1 < 2 ^ 32) :
    Stores D B (blocks ++ [b]) (s.withStored block
      (alignedAt B.alignment s.packer.offset + b.stored.length)
      (blockChunk D (alignedAt B.alignment s.packer.offset) b) w
      (B.entropyAfter (blocks ++ [b]))) := by
  -- the block ends where the next one may begin
  have hend : bodyEnd B.alignment headerSize (blocks ++ [b]) =
      alignedAt B.alignment s.packer.offset + b.stored.length := by
    rw [bodyEnd_append, ← h.offset]
    rfl
  refine ⟨h.key, h.aeadKey, h.options, h.raw_length, ?_, ?_, hend.symm, hend ▸ hoffset, ?_,
    happ.pos_eq, rfl, ?_, by rw [List.length_append]; exact hcount⟩
  · rw [← h.compressed_length]
    exact length_overwrite (by omega)
  · rw [chunkTable_append, ← h.offset, ← h.chunks]
    rfl
  · -- the file grew by the padding and the block
    show w.bytes = _
    rw [happ.bytes_eq, h.bytes, body_append, body_singleton, ← h.offset, List.append_assoc]
  · -- the blocks stored before keep their numbers, and the new one gets the next
    intro g c hg
    rcases Nat.lt_trichotomy g blocks.length with hlt | rfl | hgt
    · rw [List.getElem?_append_left hlt] at hg
      exact h.seals g c hg
    · rw [List.getElem?_append_right le_rfl, Nat.sub_self] at hg
      cases hg
      exact hb
    · rw [List.getElem?_eq_none (by simp; omega)] at hg
      cases hg

/-- **The record of a block** that was written behind its padding, with the random source behind its
encryption. -/
theorem recordBlock_post (h : Stores D B blocks s) {b : Block} {block : Bytes} {w : Device}
    (hseals : B.Seals D blocks.length b) (hblock : block.length ≤ s.packer.compressed.length)
    (hall : Appended s.writer (List.replicate (alignedAt B.alignment s.packer.offset -
      s.packer.offset) 0 ++ b.stored) w) (totals : Totals) :
    Fallible.Post (recordChunk (alignedAt B.alignment s.packer.offset) b.content.length
        b.stored.length (checksum D b.content) b.compressed totals)
      { (s.withBlock block).advance w (alignedAt B.alignment s.packer.offset) with
        entropy := B.entropyAfter (blocks ++ [b]) }
      (fun totals' s' => Storable D B blocks totals [b] ∧ Stores D B (blocks ++ [b]) s' ∧
        SameAssets s s' ∧ s'.reader = s.reader ∧ totals' = totals.add [b])
      (fun _ s' => s.writer.bytes <+: s'.writer.bytes ∧ ¬ Storable D B blocks totals [b]) := by
  have hchunks : s.packer.chunks.length = blocks.length := by
    rw [h.chunks, length_chunkTable]
  -- the checks of the record are those of the room for the block
  refine recordChunk_post.mono ?_ ?_
  · rintro totals' s' ⟨hoffset, hcount, horiginal, htotal, rfl, rfl⟩
    have hcount' : blocks.length + 1 < 2 ^ 32 := by
      rw [← hchunks]
      exact hcount
    refine ⟨h.storable_singleton_iff.mpr ⟨hseals, hoffset, hcount', horiginal, htotal⟩,
      h.append hseals hblock hall hoffset hcount', ⟨rfl, rfl, rfl, hall.healthy⟩, rfl, ?_⟩
    rw [Totals.add_singleton]
  · -- behind a record that is refused, the file still begins with what it held
    rintro f s' ⟨hwriter, hbad⟩
    refine ⟨by rw [hwriter]; exact hall.keeps, fun hroom => ?_⟩
    obtain ⟨-, hoffset, hcount, horiginal, htotal⟩ := h.storable_singleton_iff.mp hroom
    rw [← hchunks] at hcount
    exact hbad ⟨hoffset, lt_of_le_of_lt (Nat.le_add_left _ _) horiginal, horiginal, htotal, hcount⟩

/-- **Sealing and recording** the chunk whose LZ4 block went through the compression buffer, behind
its padding. -/
theorem storeChunk_post (h : Stores D B blocks s) {content block : Bytes} {w : Device}
    (hne : content ≠ []) (hlen : content.length ≤ B.options.chunkSize)
    (hc : D.compressInto content (B.capacity D) = .ok block)
    (hpad : Appended s.writer
      (List.replicate (alignedAt B.alignment s.packer.offset - s.packer.offset) 0) w)
    (totals : Totals) :
    Fallible.Post (do
        let stored ← protect D (packKey D B.key B.options) (plainForm content block).1
          (chunkAad blocks.length)
        onWriter (writeAll deviceDestination stored)
        recordChunk (alignedAt B.alignment s.packer.offset) content.length stored.length
          (checksum D content) (plainForm content block).2 totals :
        Fallible (PackState Device) Fault Totals)
      ((s.withBlock block).advance w (alignedAt B.alignment s.packer.offset))
      (fun totals' s' => ∃ b, b.content = content ∧ Storable D B blocks totals [b] ∧
        Stores D B (blocks ++ [b]) s' ∧ SameAssets s s' ∧ s'.reader = s.reader ∧
        totals' = totals.add [b])
      (fun _ s' => s.writer.bytes <+: s'.writer.bytes ∧
        ¬ (s.writer.Healthy ∧ ∃ b, b.content = content ∧ Storable D B blocks totals [b])) := by
  -- compression and padding drew no random bytes
  have hentropy : ((s.withBlock block).advance w
      (alignedAt B.alignment s.packer.offset)).entropy = B.entropyAfter blocks := h.entropy
  rw [Fallible.post_bind]
  refine (protect_post hentropy).mono ?_ ?_
  swap
  · -- encryption fails: no block can be stored for the content
    rintro f _ ⟨⟨e, rfl⟩, hbad⟩
    refine ⟨hpad.keeps, ?_⟩
    rintro ⟨-, b, rfl, hb⟩
    rw [← hb.seals_singleton.plain_eq hc] at hbad
    exact hbad ⟨_, hb.seals_singleton.stored⟩
  -- the plain form is protected
  rintro stored s₂ ⟨hstored, hs₂⟩
  have hwriter : s₂.writer = w := by
    rw [hs₂]
    rfl
  rw [Fallible.post_bind, onWriter, Fallible.post_focus, hwriter]
  refine (writeAll_post hpad.pos_eq stored).mono ?_ ?_
  swap
  · -- the device refuses some bytes, so it was not healthy
    intro f w' htorn
    exact ⟨hpad.keeps.trans htorn.keeps, fun hbad => htorn.unhealthy (hpad.healthy hbad.1)⟩
  intro _ w' happ
  -- the block that the run stores for the content
  have hseals : B.Seals D blocks.length ⟨content, (plainForm content block).1, stored,
      (plainForm content block).2⟩ := ⟨hne, hlen, ⟨block, hc, rfl⟩, hstored⟩
  have hblock : block.length ≤ s.packer.compressed.length := by
    rw [h.compressed_length]
    exact D.compress_le hc
  have hstate : ({ s₂ with writer := w' } : PackState Device) =
      { (s.withBlock block).advance w' (alignedAt B.alignment s.packer.offset) with
        entropy := B.entropyAfter (blocks ++ [⟨content, (plainForm content block).1, stored,
          (plainForm content block).2⟩]) } := by
    rw [Sealing.entropyAfter_append, ← hentropy, hs₂]
    rfl
  rw [hstate]
  refine (recordBlock_post h hseals hblock (hpad.trans happ) totals).mono ?_ ?_
  · rintro totals' s' ⟨hroom, hstores, hsame, hreader, rfl⟩
    exact ⟨_, rfl, hroom, hstores, hsame, hreader, rfl⟩
  · rintro f s' ⟨hkeeps, hbad⟩
    refine ⟨hkeeps, ?_⟩
    rintro ⟨-, c, hcontent, hroom⟩
    -- the block there is room for is the one that was written
    rw [hroom.seals_singleton.unique hseals hcontent] at hroom
    exact hbad hroom

/-- **One turn of the loop** stores one block more, where there is room for it. It fails only where
there is none, or the file fails, and leaves what the file held before. -/
theorem addChunk_post (hv : B.options.Valid) (h : Stores D B blocks s) {content : Bytes}
    (hne : content ≠ []) (hraw : s.packer.raw.take content.length = content) (totals : Totals) :
    Fallible.Post (addChunk D deviceDestination content.length totals) s
      (fun totals' s' => ∃ b, b.content = content ∧ Storable D B blocks totals [b] ∧
        Stores D B (blocks ++ [b]) s' ∧ SameAssets s s' ∧ s'.reader = s.reader ∧
        totals' = totals.add [b])
      (fun _ s' => s.writer.bytes <+: s'.writer.bytes ∧
        ¬ (s.writer.Healthy ∧ ∃ b, b.content = content ∧ Storable D B blocks totals [b])) := by
  -- the chunk was read into the raw buffer, so it is no longer
  have hlen : content.length ≤ B.options.chunkSize := by
    have := congrArg List.length hraw
    rw [List.length_take, h.raw_length] at this
    omega
  have halign : s.packer.options.alignment.toNat = B.alignment := by
    rw [h.options, Sealing.alignment]
  unfold addChunk
  rw [Fallible.post_bind]
  refine (compressRaw_post hraw).mono ?_ ?_
  swap
  · -- compression fails, and it would for any block with this content
    rintro f _ ⟨rfl, message, hc⟩
    refine ⟨List.prefix_rfl, ?_⟩
    rintro ⟨-, b, rfl, hb⟩
    obtain ⟨block, hok, -⟩ := hb.seals_singleton.plain
    rw [h.compressed_length, hok] at hc
    cases hc
  rintro _ _ ⟨block, hc, rfl, rfl⟩
  rw [h.compressed_length] at hc
  rw [Fallible.post_bind]
  refine (align_post (s := s.withBlock block) halign hv.alignment_pow h.pos).mono ?_ ?_
  swap
  · -- alignment fails: the padding overflows or the device refuses it
    rintro f s₁ ⟨hkeeps, hbad⟩
    refine ⟨hkeeps, ?_⟩
    rintro ⟨hhealthy, b, rfl, hb⟩
    have hfits := h.fits_of_storable hv hb
    exact hbad ⟨hhealthy, hfits⟩
  rintro _ s₁ ⟨w, hpad, hs₁⟩
  -- what the turn reads from the packer behind the padding
  have hraw₁ : s₁.packer.raw.take content.length = content := by
    rw [hs₁]
    exact hraw
  -- the LZ4 block is at the front of the compression buffer
  have htake₁ : s₁.packer.compressed.take block.length = block := by
    have htake : (overwrite s.packer.compressed 0 block).take (0 + block.length) = _ :=
      take_overwrite (Nat.zero_le _)
    rw [Nat.zero_add] at htake
    rw [hs₁]
    exact htake
  have hkey₁ : s₁.packer.aeadKey = packKey D B.key B.options := by
    rw [hs₁]
    exact h.aeadKey
  have hchunks₁ : s₁.packer.chunks.length = blocks.length := by
    rw [hs₁, ← @length_chunkTable D B.alignment headerSize blocks, ← h.chunks]
    rfl
  have hindex : usizeToU32 s₁.packer.chunks.length "chunk index" = .ok blocks.length :=
    usizeToU32_eq_ok_iff.mpr ⟨hchunks₁ ▸ h.count_lt, hchunks₁⟩
  have hoffset₁ : s₁.packer.offset = alignedAt B.alignment s.packer.offset := by
    rw [hs₁]
    rfl
  -- the source computes the index before it protects the chunk
  rw [Fallible.post_bind, Fallible.post_gets, id,
    Fallible.post_liftM_bind_of_ok (plainStored_eq hraw₁ htake₁)]
  simp only
  rw [Fallible.post_liftM_bind_of_ok (rawInput_eq hraw₁), Fallible.post_liftM_bind_of_ok hindex,
    hkey₁, hoffset₁, hs₁]
  exact storeChunk_post h hne hlen hc hpad totals

end

end RasenArchive
