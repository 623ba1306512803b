import RasenArchive.Format.Layout
import RasenArchive.Library.Pieces

/-!
# The image of an archive

What the payload region of an archive consists of, without the program that writes it: blocks one
after the other, each at the next multiple of the alignment, with the table of their chunks and the
entries of the assets they belong to.

## Main definitions

* `Block`: the content and the stored form of a chunk
* `alignedAt`: the next multiple of the alignment
* `body`, `bodyEnd`, `chunkTable`: the bytes of some blocks, where they end, and their chunks
* `Asset`, `entryTable`: the blocks of each asset, and their entries

## Main results

* `body_append`, `chunkTable_append`: the image of some blocks and then some others
* `extract_body`: the stored form of a block is found where its chunk says
* `chunkTable_ordered`: the extents of the chunks are in order
-/

namespace RasenArchive

/-- The content of a chunk, its plain form, compressed or not, and what is stored for it. -/
structure Block where
  content : Bytes
  plain : Bytes
  stored : Bytes
  compressed : Bool
  deriving DecidableEq

/-- The next multiple of the alignment. -/
def alignedAt (alignment n : ℕ) : ℕ := (n + (alignment - 1)) / alignment * alignment

theorem le_alignedAt {alignment : ℕ} (ha : 0 < alignment) (n : ℕ) : n ≤ alignedAt alignment n := by
  have hdiv := Nat.div_add_mod' (n + (alignment - 1)) alignment
  have hmod := Nat.mod_lt (n + (alignment - 1)) ha
  unfold alignedAt
  omega

theorem alignedAt_lt {alignment : ℕ} (ha : 0 < alignment) (n : ℕ) :
    alignedAt alignment n < n + alignment := by
  have hle := Nat.div_mul_le_self (n + (alignment - 1)) alignment
  unfold alignedAt
  omega

theorem dvd_alignedAt (alignment n : ℕ) : alignment ∣ alignedAt alignment n := dvd_mul_left _ _

/-- Where the bytes of the blocks end, when they begin at `offset`. -/
def bodyEnd (alignment : ℕ) : ℕ → List Block → ℕ
  | offset, [] => offset
  | offset, b :: bs => bodyEnd alignment (alignedAt alignment offset + b.stored.length) bs

/-- The bytes of the blocks, each behind the padding in front of it. -/
def body (alignment : ℕ) : ℕ → List Block → Bytes
  | _, [] => []
  | offset, b :: bs => List.replicate (alignedAt alignment offset - offset) 0 ++ b.stored ++
      body alignment (alignedAt alignment offset + b.stored.length) bs

variable (D : Dependencies)

/-- The record of a block at this offset. -/
def blockChunk (offset : ℕ) (b : Block) : Chunk :=
  ⟨UInt64.ofNat offset, UInt64.ofNat b.stored.length, UInt64.ofNat b.content.length,
    checksum D b.content, b.compressed⟩

/-- The records of the blocks. -/
def chunkTable (alignment : ℕ) : ℕ → List Block → List Chunk
  | _, [] => []
  | offset, b :: bs => blockChunk D (alignedAt alignment offset) b ::
      chunkTable alignment (alignedAt alignment offset + b.stored.length) bs

/-- The blocks of an asset, under its normal path. -/
structure Asset where
  path : String
  blocks : List Block
  deriving DecidableEq

/-- The blocks of some assets, in order. -/
def allBlocks (assets : List Asset) : List Block := assets.flatMap Asset.blocks

/-- The entry of an asset whose first block has this number. -/
def assetEntry (first : ℕ) (a : Asset) : TocEntry :=
  ⟨a.path, checksum D (asBytes a.path), UInt64.ofNat (a.blocks.map fun b => b.content.length).sum,
    UInt64.ofNat (a.blocks.map fun b => b.stored.length).sum, UInt32.ofNat first,
    UInt32.ofNat a.blocks.length⟩

/-- The entries of the assets, from the block of this number on. -/
def entryTable : ℕ → List Asset → List TocEntry
  | _, [] => []
  | first, a :: as => assetEntry D first a :: entryTable (first + a.blocks.length) as

section Append

variable {D} {alignment offset : ℕ} {bs cs : List Block}

theorem bodyEnd_append : bodyEnd alignment offset (bs ++ cs) =
    bodyEnd alignment (bodyEnd alignment offset bs) cs := by
  induction bs generalizing offset with
  | nil => rfl
  | cons b bs ih => exact ih

/-- **The image of some blocks and then some others.** -/
theorem body_append : body alignment offset (bs ++ cs) =
    body alignment offset bs ++ body alignment (bodyEnd alignment offset bs) cs := by
  induction bs generalizing offset with
  | nil => rfl
  | cons b bs ih => simp only [List.cons_append, body, bodyEnd, ih, List.append_assoc]

theorem chunkTable_append : chunkTable D alignment offset (bs ++ cs) =
    chunkTable D alignment offset bs ++
      chunkTable D alignment (bodyEnd alignment offset bs) cs := by
  induction bs generalizing offset with
  | nil => rfl
  | cons b bs ih => simp only [List.cons_append, chunkTable, bodyEnd, ih]

@[simp] theorem length_chunkTable : (chunkTable D alignment offset bs).length = bs.length := by
  induction bs generalizing offset with
  | nil => rfl
  | cons b bs ih => simp [chunkTable, ih]

theorem length_body (ha : 0 < alignment) :
    offset + (body alignment offset bs).length = bodyEnd alignment offset bs := by
  induction bs generalizing offset with
  | nil => rfl
  | cons b bs ih =>
    have hle := le_alignedAt ha offset
    rw [body, bodyEnd, ← ih]
    simp only [List.length_append, List.length_replicate]
    omega

theorem le_bodyEnd (ha : 0 < alignment) : offset ≤ bodyEnd alignment offset bs := by
  rw [← length_body ha]
  omega

theorem entryTable_append {first : ℕ} {as bs : List Asset} : entryTable D first (as ++ bs) =
    entryTable D first as ++ entryTable D (first + (allBlocks as).length) bs := by
  induction as generalizing first with
  | nil => rfl
  | cons a as ih =>
    simp only [List.cons_append, entryTable, ih, allBlocks, List.flatMap_cons, List.length_append]
    rw [Nat.add_assoc]

@[simp] theorem length_entryTable {first : ℕ} {as : List Asset} :
    (entryTable D first as).length = as.length := by
  induction as generalizing first with
  | nil => rfl
  | cons a as ih => simp [entryTable, ih]

end Append

/-! ## Where the blocks are -/

section Where

variable {D} {alignment offset : ℕ} (ha : 0 < alignment)

include ha

/-- **The stored form of a block** is found where its chunk says. -/
theorem extract_body {bs : List Block} {i : ℕ} {b : Block} (hi : bs[i]? = some b) (front rest : Bytes)
    (hfront : front.length = offset) (hend : bodyEnd alignment offset bs < 2 ^ 64) :
    ∃ o, (chunkTable D alignment offset bs)[i]? = some (blockChunk D o b) ∧ offset ≤ o ∧
      alignment ∣ o ∧ o + b.stored.length ≤ bodyEnd alignment offset bs ∧
      (front ++ body alignment offset bs ++ rest).extract o (o + b.stored.length) = b.stored := by
  induction bs generalizing offset i front with
  | nil => cases hi
  | cons c bs ih =>
    have hle := le_alignedAt ha offset
    have hstop := @le_bodyEnd alignment (alignedAt alignment offset + c.stored.length) bs ha
    cases i with
    | zero =>
      obtain rfl : c = b := by simpa using hi
      refine ⟨alignedAt alignment offset, rfl, hle, dvd_alignedAt _ _, hstop, ?_⟩
      have hsplit : front ++ body alignment offset (c :: bs) ++ rest =
          (front ++ List.replicate (alignedAt alignment offset - offset) 0) ++ (c.stored ++
            (body alignment (alignedAt alignment offset + c.stored.length) bs ++ rest)) := by
        simp [body]
      rw [hsplit]
      apply extract_middle
      · simp only [List.length_append, List.length_replicate]
        omega
      · simp only [List.length_append, List.length_replicate]
        omega
    | succ i =>
      rw [List.getElem?_cons_succ] at hi
      obtain ⟨o, hget, ho, hdvd, hto, hextract⟩ := ih hi
        (front ++ List.replicate (alignedAt alignment offset - offset) 0 ++ c.stored)
        (by simp only [List.length_append, List.length_replicate]; omega) hend
      refine ⟨o, hget, by omega, hdvd, hto, ?_⟩
      have hsplit : front ++ body alignment offset (c :: bs) ++ rest =
          front ++ List.replicate (alignedAt alignment offset - offset) 0 ++ c.stored ++
            body alignment (alignedAt alignment offset + c.stored.length) bs ++ rest := by
        simp [body]
      rw [hsplit, hextract]

/-- The extents of the chunks lie behind each other, and in front of the end. -/
theorem chunkTable_ordered {bs : List Block} (hend : bodyEnd alignment offset bs < 2 ^ 64) :
    (chunkTable D alignment offset bs).Pairwise (fun a b => a.stop ≤ b.offset.toNat) ∧
      ∀ c ∈ chunkTable D alignment offset bs,
        offset ≤ c.offset.toNat ∧ alignment ∣ c.offset.toNat ∧
          c.stop ≤ bodyEnd alignment offset bs := by
  induction bs generalizing offset with
  | nil => exact ⟨List.Pairwise.nil, by simp [chunkTable]⟩
  | cons b bs ih =>
    have hle := le_alignedAt ha offset
    have hstop := @le_bodyEnd alignment (alignedAt alignment offset + b.stored.length) bs ha
    rw [bodyEnd] at hend
    obtain ⟨hord, hall⟩ := ih hend
    have hoffset : (UInt64.ofNat (alignedAt alignment offset)).toNat =
        alignedAt alignment offset := UInt64.toNat_ofNat_of_lt' (by unfold UInt64.size; omega)
    have hlen : (UInt64.ofNat b.stored.length).toNat = b.stored.length :=
      UInt64.toNat_ofNat_of_lt' (by unfold UInt64.size; omega)
    rw [chunkTable, List.pairwise_cons, List.forall_mem_cons]
    simp only [blockChunk, Chunk.stop, hoffset, hlen, bodyEnd]
    refine ⟨⟨fun c hc => (hall c hc).1, hord⟩, ⟨hle, dvd_alignedAt _ _, hstop⟩, fun c hc => ?_⟩
    obtain ⟨h₁, h₂, h₃⟩ := hall c hc
    exact ⟨by omega, h₂, h₃⟩

end Where

end RasenArchive
