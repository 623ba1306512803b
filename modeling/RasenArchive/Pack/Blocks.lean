import RasenArchive.Pack.Writing

/-!
# The blocks a packer stores

A block is a chunk in its stored form: compressed where that makes it shorter, and encrypted where
the options ask for it. This module says what a run seals its blocks with, what a packer that holds
some blocks looks like, and when there is room for more.

## Main definitions

* `plainForm`: the plain form of a chunk
* `Sealing`: what a run seals its blocks with
* `Sealing.Seals g b`: the block `b` is what the run stores for its content, as block `g`
* `Stores D B blocks s`: the state holds these blocks
* `Storable D B blocks totals new`: there is room for these blocks behind some others
* `Sealing.Ready`: compression and encryption succeed

## Main results

* `storable_cons`, `Stores.storable_singleton_iff`: room for one block after the other
* `Sealing.Ready.storable`: where compression and encryption succeed, there is room for all blocks
  that 32 bits can count
-/

namespace RasenArchive

/-- The plain form of a chunk whose LZ4 block is `block`, and whether it is compressed. -/
def plainForm (content block : Bytes) : Bytes × Bool :=
  if block.length < content.length then (block, true) else (content, false)

/-- What the blocks of a run are sealed with: its key and options, and the random source at its
start. -/
structure Sealing where
  key : Bytes
  options : PackOptions
  entropy : Entropy

namespace Sealing

variable (D : Dependencies) (B : Sealing)

/-- The alignment of the blocks. -/
def alignment : ℕ := B.options.alignment.toNat

/-- The size of the compression buffer. -/
def capacity : ℕ := D.getMaximumOutputSize B.options.chunkSize

/-- The stored form of plain bytes that are protected as those of block number `g`. -/
def Protects (g : ℕ) (plain aad stored : Bytes) : Prop :=
  match B.options.protection with
  | .xor => stored = plain
  | .aead => ∃ nonce ciphertext, B.entropy.fill (B.entropy.drawn + g) = some nonce ∧
      D.aeadEncrypt (deriveKey D B.key) nonce plain aad = some ciphertext ∧
      stored = nonce.1 ++ ciphertext

/-- The block is what the run stores for its content, as block number `g`. -/
structure Seals (g : ℕ) (b : Block) : Prop where
  nonempty : b.content ≠ []
  length_le : b.content.length ≤ B.options.chunkSize
  plain : ∃ block, D.compressInto b.content (B.capacity D) = .ok block ∧
    (b.plain, b.compressed) = plainForm b.content block
  stored : B.Protects D g b.plain (chunkAad g) b.stored

/-- The record of the encryption of a block. -/
def call (g : ℕ) (b : Block) : SealedBlock := ⟨b.plain, chunkAad g, b.stored⟩

/-- The random source after these blocks. -/
def entropyAfter (blocks : List Block) : Entropy :=
  match B.options.protection with
  | .xor => B.entropy
  | .aead => { B.entropy with drawn := B.entropy.drawn + blocks.length,
                              calls := B.entropy.calls ++ blocks.mapIdx call }

/-- Compression and encryption succeed in this run. -/
structure Ready : Prop where
  lz4 : D.Lz4Lawful
  aead : D.AeadLawful
  nonces : B.options.protection = .aead → ∀ i, ∃ nonce, B.entropy.fill i = some nonce
  encrypts : B.options.protection = .aead → ∀ nonce plain aad,
    ∃ ciphertext, D.aeadEncrypt (deriveKey D B.key) nonce plain aad = some ciphertext

end Sealing

/-- The state holds these blocks: their bytes are in the file behind the place of the header, and
their chunks in memory. -/
structure Stores (D : Dependencies) (B : Sealing) (blocks : List Block)
    (s : PackState Device) : Prop where
  key : s.packer.key = B.key
  aeadKey : s.packer.aeadKey = packKey D B.key B.options
  options : s.packer.options = B.options
  raw_length : s.packer.raw.length = B.options.chunkSize
  compressed_length : s.packer.compressed.length = B.capacity D
  chunks : s.packer.chunks = chunkTable D B.alignment headerSize blocks
  offset : s.packer.offset = bodyEnd B.alignment headerSize blocks
  offset_lt : bodyEnd B.alignment headerSize blocks < 2 ^ 64
  bytes : s.writer.bytes = List.replicate headerSize 0 ++ body B.alignment headerSize blocks
  pos : s.writer.pos = s.writer.bytes.length
  entropy : s.entropy = B.entropyAfter blocks
  seals : ∀ g b, blocks[g]? = some b → B.Seals D g b
  count_lt : blocks.length < 2 ^ 32

/-- The sizes of an asset with these blocks more. -/
def Totals.add (totals : Totals) (blocks : List Block) : Totals :=
  ⟨totals.original + (blocks.map fun b => b.content.length).sum,
    totals.stored + (blocks.map fun b => b.stored.length).sum⟩

/-- There is room for the new blocks, of an asset with these sizes so far: the run seals them, and
all numbers fit. -/
structure Storable (D : Dependencies) (B : Sealing) (blocks : List Block) (totals : Totals)
    (new : List Block) : Prop where
  seals : ∀ i b, new[i]? = some b → B.Seals D (blocks.length + i) b
  offset_lt : bodyEnd B.alignment headerSize (blocks ++ new) < 2 ^ 64
  count_lt : (blocks ++ new).length < 2 ^ 32
  original_lt : (totals.add new).original < 2 ^ 64
  stored_lt : (totals.add new).stored < 2 ^ 64

/-- What storing a block leaves alone. -/
structure SameAssets (s s' : PackState Device) : Prop where
  entries : s'.packer.entries = s.packer.entries
  seenHashes : s'.packer.seenHashes = s.packer.seenHashes
  failed : s'.packer.failed = s.packer.failed
  healthy : s.writer.Healthy → s'.writer.Healthy

section

variable {D : Dependencies} {B : Sealing} {blocks : List Block} {s s' : PackState Device}

/-! ## Sizes -/

/-- A plain form is no longer than its content. -/
theorem plainForm_length_le (content block : Bytes) :
    (plainForm content block).1.length ≤ content.length := by
  unfold plainForm
  split_ifs with h
  · exact h.le
  · exact le_rfl

/-- A block is not longer than its content by more than the overhead of the protection. -/
theorem Sealing.Protects.length_le (hA : D.AeadLawful) {g : ℕ} {plain aad stored : Bytes}
    (h : B.Protects D g plain aad stored) : stored.length ≤ plain.length + aeadOverhead := by
  unfold Sealing.Protects at h
  cases hp : B.options.protection with
  | xor =>
    rw [hp] at h
    simp only at h
    rw [h]
    exact Nat.le_add_right _ _
  | aead =>
    rw [hp] at h
    obtain ⟨nonce, ciphertext, -, hc, rfl⟩ := h
    have hlen := hA.encrypt_length hc
    have hn := nonce.2
    rw [List.length_append, aeadOverhead]
    omega

/-- Protection is determined by the number of the block, with the nonces of the run. -/
theorem Sealing.Protects.unique {g : ℕ} {plain aad stored stored' : Bytes}
    (h : B.Protects D g plain aad stored) (h' : B.Protects D g plain aad stored') :
    stored = stored' := by
  unfold Sealing.Protects at h h'
  cases hp : B.options.protection with
  | xor =>
    rw [hp] at h h'
    exact Eq.trans h (Eq.symm h')
  | aead =>
    rw [hp] at h h'
    obtain ⟨nonce, ciphertext, hn, hc, rfl⟩ := h
    obtain ⟨nonce', ciphertext', hn', hc', rfl⟩ := h'
    cases hn.symm.trans hn'
    cases hc.symm.trans hc'
    rfl

theorem Sealing.Seals.stored_le (hA : D.AeadLawful) {g : ℕ} {b : Block} (h : B.Seals D g b) :
    b.stored.length ≤ B.options.chunkSize + aeadOverhead := by
  obtain ⟨block, -, hform⟩ := h.plain
  have hplain : b.plain.length ≤ b.content.length := by
    have := plainForm_length_le b.content block
    rwa [← hform] at this
  have hstored := h.stored.length_le hA
  have hle := h.length_le
  omega

/-- **The image of `n` blocks** of limited length is limited. -/
theorem bodyEnd_le {alignment m offset : ℕ} (ha : 0 < alignment) {bs : List Block}
    (h : ∀ b ∈ bs, b.stored.length ≤ m) :
    bodyEnd alignment offset bs ≤ offset + bs.length * (m + alignment) := by
  induction bs generalizing offset with
  | nil => simp [bodyEnd]
  | cons b bs ih =>
    rw [List.forall_mem_cons] at h
    have hnext := alignedAt_lt ha offset
    have htail := @ih (alignedAt alignment offset + b.stored.length) h.2
    rw [bodyEnd, List.length_cons, Nat.succ_mul]
    omega

/-- **Offsets fit** as long as the count of the blocks does. -/
theorem bodyEnd_lt (hA : D.AeadLawful) (hv : B.options.Valid)
    (hseals : ∀ g b, blocks[g]? = some b → B.Seals D g b) (hcount : blocks.length < 2 ^ 32) :
    bodyEnd B.alignment headerSize blocks < 2 ^ 64 := by
  have hstored : ∀ b ∈ blocks, b.stored.length ≤ B.options.chunkSize + aeadOverhead := by
    intro b hb
    obtain ⟨g, hg⟩ := List.getElem?_of_mem hb
    exact (hseals g b hg).stored_le hA
  have hend := @bodyEnd_le B.alignment (B.options.chunkSize + aeadOverhead) headerSize
    (Nat.pos_of_isPowerOfTwo hv.alignment_pow) blocks hstored
  have hsize : B.options.chunkSize + aeadOverhead + B.alignment ≤ 2 ^ 27 := by
    have := hv.chunkSize_le
    have := hv.alignment_le
    unfold aeadOverhead Sealing.alignment
    simp only [maxChunkSize, maxAlignment] at *
    omega
  have hmul : blocks.length * (B.options.chunkSize + aeadOverhead + B.alignment) ≤
      (2 ^ 32 - 1) * 2 ^ 27 := Nat.mul_le_mul (by omega) hsize
  simp only [headerSize] at *
  omega

/-! ## Room for blocks -/

/-- An aligned offset fits 64 bits only where rounding up does not overflow. -/
theorem fits_of_alignedAt_lt {alignment n : ℕ} (ha : alignment.isPowerOfTwo)
    (hlt : alignment < 2 ^ 64) (h : alignedAt alignment n < 2 ^ 64) :
    n + (alignment - 1) < 2 ^ 64 := by
  have hpos := Nat.pos_of_isPowerOfTwo ha
  obtain ⟨k, rfl⟩ := ha
  have hk : k ≤ 64 := (Nat.pow_lt_pow_iff_right (by decide)).mp hlt |>.le
  have hdvd : 2 ^ 64 / 2 ^ k * 2 ^ k = 2 ^ 64 := Nat.div_mul_cancel (Nat.pow_dvd_pow 2 hk)
  by_contra hge
  have hdiv : 2 ^ 64 / 2 ^ k ≤ (n + (2 ^ k - 1)) / 2 ^ k := Nat.div_le_div_right (by omega)
  have hmul := Nat.mul_le_mul_right (2 ^ k) hdiv
  unfold alignedAt at h
  omega

theorem bodyEnd_concat {alignment offset : ℕ} (bs : List Block) (b : Block) :
    bodyEnd alignment offset (bs ++ [b]) =
      alignedAt alignment (bodyEnd alignment offset bs) + b.stored.length := by
  rw [bodyEnd_append]
  rfl

/-- The plain form of a block is determined by its LZ4 block. -/
theorem Sealing.Seals.plain_eq {g : ℕ} {b : Block} (h : B.Seals D g b) {block : Bytes}
    (hc : D.compressInto b.content (B.capacity D) = .ok block) :
    b.plain = (plainForm b.content block).1 := by
  obtain ⟨block', hc', hform⟩ := h.plain
  cases hc.symm.trans hc'
  rw [← hform]

/-- **A sealed block** is determined by its content and its number. -/
theorem Sealing.Seals.unique {g : ℕ} {b c : Block} (hb : B.Seals D g b) (hc : B.Seals D g c)
    (h : b.content = c.content) : b = c := by
  obtain ⟨block, hblock, hform⟩ := hb.plain
  obtain ⟨block', hblock', hform'⟩ := hc.plain
  rw [← h] at hblock' hform'
  cases hblock.symm.trans hblock'
  obtain ⟨hplain, hcompressed⟩ := Prod.mk.inj (hform.trans hform'.symm)
  have hstored := hb.stored
  rw [hplain] at hstored
  have hsame := hstored.unique hc.stored
  cases b
  cases c
  simp only at h hplain hcompressed hsame
  rw [h, hplain, hcompressed, hsame]

/-- **Sealed blocks** are determined by their contents and the number of the first. -/
theorem Sealing.seals_unique {new new' : List Block} {g : ℕ}
    (h : ∀ i b, new[i]? = some b → B.Seals D (g + i) b)
    (h' : ∀ i b, new'[i]? = some b → B.Seals D (g + i) b)
    (hcontents : new.map Block.content = new'.map Block.content) : new = new' := by
  apply List.ext_getElem?
  intro i
  have hi := congrArg (fun l => l[i]?) hcontents
  simp only [List.getElem?_map] at hi
  cases hb : new[i]? with
  | none =>
    rw [hb] at hi
    exact (Option.map_eq_none_iff.mp hi.symm).symm
  | some b =>
    rw [hb] at hi
    obtain ⟨c, hc, hcontent⟩ := Option.map_eq_some_iff.mp hi.symm
    rw [hc, (h i b hb).unique (h' i c hc) hcontent.symm]

theorem Storable.seals_singleton {totals : Totals} {b : Block}
    (h : Storable D B blocks totals [b]) : B.Seals D blocks.length b := h.seals 0 b rfl

theorem Totals.add_singleton (totals : Totals) (b : Block) : totals.add [b] =
    ⟨totals.original + b.content.length, totals.stored + b.stored.length⟩ := by
  simp [Totals.add]

/-- **Room for one block** behind those that are stored. -/
theorem Stores.storable_singleton_iff (h : Stores D B blocks s) {totals : Totals} {b : Block} :
    Storable D B blocks totals [b] ↔ B.Seals D blocks.length b ∧
      alignedAt B.alignment s.packer.offset + b.stored.length < 2 ^ 64 ∧
      blocks.length + 1 < 2 ^ 32 ∧ totals.original + b.content.length < 2 ^ 64 ∧
      totals.stored + b.stored.length < 2 ^ 64 := by
  -- with this block the body ends where the record says
  have hend : bodyEnd B.alignment headerSize (blocks ++ [b]) =
      alignedAt B.alignment s.packer.offset + b.stored.length := by
    rw [bodyEnd_concat, ← h.offset]
  constructor
  · rintro hb
    have ⟨_, hoffset, hcount, horiginal, hstored⟩ := hb
    rw [Totals.add_singleton] at horiginal hstored
    rw [List.length_append] at hcount
    exact ⟨hb.seals_singleton, hend ▸ hoffset, hcount, horiginal, hstored⟩
  · rintro ⟨hseals, hoffset, hcount, horiginal, hstored⟩
    refine ⟨fun i c hi => ?_, hend ▸ hoffset, ?_, ?_, ?_⟩
    · -- a list of one block has it at its front
      obtain ⟨rfl, rfl⟩ : i = 0 ∧ b = c := by simpa [List.getElem?_singleton] using hi
      exact hseals
    · rw [List.length_append]
      exact hcount
    · rw [Totals.add_singleton]
      exact horiginal
    · rw [Totals.add_singleton]
      exact hstored

/-- Where there is room for a block, rounding up does not overflow. -/
theorem Stores.fits_of_storable (hv : B.options.Valid) (h : Stores D B blocks s) {totals : Totals}
    {b : Block} (hb : Storable D B blocks totals [b]) :
    s.packer.offset + (B.alignment - 1) < 2 ^ 64 := by
  obtain ⟨-, hoffset, -⟩ := h.storable_singleton_iff.mp hb
  exact fits_of_alignedAt_lt hv.alignment_pow (lt_of_le_of_lt hv.alignment_le (by decide))
    (lt_of_le_of_lt (Nat.le_add_right _ _) hoffset)

/-- **Room for some blocks** is room for the first, and then for the others. -/
theorem storable_cons (hv : B.options.Valid) {totals : Totals} {b : Block} {new : List Block} :
    Storable D B blocks totals (b :: new) ↔
      Storable D B blocks totals [b] ∧ Storable D B (blocks ++ [b]) (totals.add [b]) new := by
  have happend : blocks ++ b :: new = blocks ++ [b] ++ new := by simp
  have htotals : totals.add (b :: new) = (totals.add [b]).add new := by
    simp [Totals.add, Nat.add_assoc]
  constructor
  · -- the sums over all blocks bound those over the first one
    intro h
    refine ⟨⟨fun i c hi => ?_, ?_, ?_, ?_, ?_⟩, ⟨fun i c hi => ?_, ?_, ?_, ?_, ?_⟩⟩
    · obtain ⟨rfl, rfl⟩ : i = 0 ∧ b = c := by simpa [List.getElem?_singleton] using hi
      exact h.seals 0 _ rfl
    · have hend := h.offset_lt
      rw [happend, bodyEnd_append] at hend
      exact lt_of_le_of_lt (le_bodyEnd (Nat.pos_of_isPowerOfTwo hv.alignment_pow)) hend
    · have hcount := h.count_lt
      rw [happend, List.length_append] at hcount
      omega
    · have horiginal := h.original_lt
      rw [htotals] at horiginal
      exact lt_of_le_of_lt (Nat.le_add_right _ _) horiginal
    · have hstored := h.stored_lt
      rw [htotals] at hstored
      exact lt_of_le_of_lt (Nat.le_add_right _ _) hstored
    · have hseals := h.seals (i + 1) c hi
      rwa [List.length_append, List.length_singleton, Nat.add_assoc, Nat.add_comm 1 i]
    · exact happend ▸ h.offset_lt
    · exact happend ▸ h.count_lt
    · exact htotals ▸ h.original_lt
    · exact htotals ▸ h.stored_lt
  · -- the first block seals at its number, the others behind it
    rintro ⟨h, hnew⟩
    refine ⟨fun i c hi => ?_, happend ▸ hnew.offset_lt, happend ▸ hnew.count_lt,
      htotals ▸ hnew.original_lt, htotals ▸ hnew.stored_lt⟩
    cases i with
    | zero =>
      cases hi
      exact h.seals_singleton
    | succ i =>
      have hseals := hnew.seals i c hi
      rwa [List.length_append, List.length_singleton, Nat.add_assoc, Nat.add_comm 1 i] at hseals

/-- A chunk is sealed where compression and encryption succeed. -/
theorem Sealing.Ready.seal (hready : B.Ready D) {content : Bytes} (hne : content ≠ [])
    (hle : content.length ≤ B.options.chunkSize) (g : ℕ) :
    ∃ b, b.content = content ∧ B.Seals D g b := by
  obtain ⟨block, hc⟩ := hready.lz4.compress_ok content (B.capacity D)
    (hready.lz4.maximumOutputSize_mono hle)
  -- the plain form is stored as it is, or encrypted
  have hstored : ∃ stored, B.Protects D g (plainForm content block).1 (chunkAad g) stored := by
    unfold Sealing.Protects
    cases hp : B.options.protection with
    | xor => exact ⟨_, rfl⟩
    | aead =>
      obtain ⟨nonce, hn⟩ := hready.nonces hp (B.entropy.drawn + g)
      obtain ⟨ciphertext, hct⟩ := hready.encrypts hp nonce (plainForm content block).1 (chunkAad g)
      exact ⟨_, nonce, ciphertext, hn, hct, rfl⟩
  obtain ⟨stored, hstored⟩ := hstored
  exact ⟨⟨content, (plainForm content block).1, stored, (plainForm content block).2⟩, rfl, hne, hle,
    ⟨block, hc, rfl⟩, hstored⟩

theorem Sealing.Ready.seal_all (hready : B.Ready D) {pieces : List Bytes}
    (hpieces : ∀ p ∈ pieces, p ≠ [] ∧ p.length ≤ B.options.chunkSize) (g : ℕ) :
    ∃ new : List Block, new.map Block.content = pieces ∧
      ∀ i b, new[i]? = some b → B.Seals D (g + i) b := by
  induction pieces generalizing g with
  | nil => exact ⟨[], rfl, nofun⟩
  -- induction on the pieces, sealed at the numbers from `g` on
  | cons p pieces ih =>
    rw [List.forall_mem_cons] at hpieces
    obtain ⟨b, rfl, hb⟩ := hready.seal hpieces.1.1 hpieces.1.2 g
    obtain ⟨new, rfl, hnew⟩ := ih hpieces.2 (g + 1)
    refine ⟨b :: new, rfl, fun i c hi => ?_⟩
    cases i with
    | zero =>
      cases hi
      exact hb
    | succ i =>
      have hc := hnew i c hi
      rwa [Nat.add_assoc, Nat.add_comm 1 i] at hc

/-- A sum of limited numbers is limited. -/
theorem sum_map_le {f : Block → ℕ} {m : ℕ} {bs : List Block} (h : ∀ b ∈ bs, f b ≤ m) :
    (bs.map f).sum ≤ bs.length * m := by
  rw [← List.length_map (f := f), ← smul_eq_mul]
  exact List.sum_le_card_nsmul _ _ (by simpa using h)

/-- **Where compression and encryption succeed**, there is room for all blocks that 32 bits can
count. -/
theorem Sealing.Ready.storable (hready : B.Ready D) (hv : B.options.Valid)
    (h : Stores D B blocks s) {pieces : List Bytes}
    (hpieces : ∀ p ∈ pieces, p ≠ [] ∧ p.length ≤ B.options.chunkSize)
    (hcount : blocks.length + pieces.length < 2 ^ 32) :
    ∃ new, new.map Block.content = pieces ∧ Storable D B blocks ⟨0, 0⟩ new := by
  obtain ⟨new, rfl, hnew⟩ := hready.seal_all hpieces blocks.length
  rw [List.length_map] at hcount
  -- the blocks so far and the new ones together
  have hall : ∀ g b, (blocks ++ new)[g]? = some b → B.Seals D g b := by
    intro g b hg
    rcases Nat.lt_or_ge g blocks.length with hlt | hge
    · rw [List.getElem?_append_left hlt] at hg
      exact h.seals g b hg
    · rw [List.getElem?_append_right hge] at hg
      have hb := hnew _ _ hg
      rwa [Nat.add_sub_cancel' hge] at hb
  have hlength : (blocks ++ new).length < 2 ^ 32 := by
    rw [List.length_append]
    exact hcount
  have hchunk : B.options.chunkSize ≤ 2 ^ 26 := hv.chunkSize_le
  -- every chunk is below 2^27 bytes, so 2^32 of them stay below 2^64
  have hmul : new.length * 2 ^ 27 ≤ 2 ^ 32 * 2 ^ 27 := Nat.mul_le_mul_right _ (by omega)
  have hcontents : (new.map fun b => b.content.length).sum ≤ new.length * 2 ^ 27 := by
    refine sum_map_le fun b hb => ?_
    obtain ⟨i, hi⟩ := List.getElem?_of_mem hb
    have := (hnew i b hi).length_le
    omega
  have hstored : (new.map fun b => b.stored.length).sum ≤ new.length * 2 ^ 27 := by
    refine sum_map_le fun b hb => ?_
    obtain ⟨i, hi⟩ := List.getElem?_of_mem hb
    have := (hnew i b hi).stored_le hready.aead
    unfold aeadOverhead at this
    omega
  refine ⟨new, rfl, hnew, bodyEnd_lt hready.aead hv hall hlength, hlength, ?_, ?_⟩
  · simp only [Totals.add]
    omega
  · simp only [Totals.add]
    omega

end

end RasenArchive
