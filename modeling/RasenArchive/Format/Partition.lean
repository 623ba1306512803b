import RasenArchive.Format.Layout
import RasenArchive.Library.Pieces

/-!
# Accepted layouts are exact partitions

What `validate_layout` accepts, in the terms its readers use: the extents of the chunks follow each
other in front of the table of contents, every chunk belongs to exactly one entry, and the chunks
of an entry are the intervals of its data.

## Main definitions

* `ExactPartition`: the extents, the owners, the intervals and the sums
* `PayloadSizes`: the stored sizes fit the compression flags

## Main results

* `validateLayout_exact`: the checks accept exactly the exact partitions with fitting payload sizes
-/

namespace RasenArchive

/-- The chunk number `g` is one of those that the entry refers to. -/
def TocEntry.owns (entry : TocEntry) (g : ℕ) : Prop :=
  entry.firstChunk.toNat ≤ g ∧ g < entry.firstChunk.toNat + entry.chunkCount.toNat

instance (g : ℕ) : DecidablePred fun entry : TocEntry => entry.owns g := fun _ =>
  inferInstanceAs (Decidable (_ ∧ _))

variable (p : LayoutParams)

/-- **An exact partition** of the payload region into chunks, and of the chunks into entries. -/
structure ExactPartition (entries : List TocEntry) (chunks : List Chunk) : Prop where
  /-- No extent is empty. -/
  nonempty : ∀ c ∈ chunks, c.offset.toNat < c.stop
  aligned : ∀ c ∈ chunks, p.alignment.toNat ∣ c.offset.toNat
  /-- The extents are in increasing order and apart from each other. -/
  ordered : chunks.Pairwise fun a b => a.stop ≤ b.offset.toNat
  inside : ∀ c ∈ chunks, headerSize ≤ c.offset.toNat ∧ c.stop ≤ p.tocOffset.toNat
  /-- The chunks of an entry are a run inside the table. -/
  run : ∀ e ∈ entries, e.firstChunk.toNat ≤ chunks.length ∧
    e.firstChunk.toNat + e.chunkCount.toNat ≤ chunks.length
  /-- Every chunk belongs to exactly one entry. -/
  owner : ∀ g < chunks.length, entries.countP (fun e => e.owns g) = 1
  count : ∀ e ∈ entries,
    e.chunkCount.toNat = (e.originalSize.toNat + p.chunkSize.toNat - 1) / p.chunkSize.toNat
  /-- The chunks of an entry are the intervals of its data. -/
  interval : ∀ e ∈ entries, ∀ i < e.chunkCount.toNat, ∀ c,
    chunks[e.firstChunk.toNat + i]? = some c →
      c.originalSize.toNat =
        min ((i + 1) * p.chunkSize.toNat) e.originalSize.toNat - i * p.chunkSize.toNat
  stored : ∀ e ∈ entries,
    e.storedSize.toNat = ((e.ownedChunks chunks).map fun c => c.storedSize.toNat).sum
  total : (entries.map fun e => e.originalSize.toNat).sum =
    (chunks.map fun c => c.originalSize.toNat).sum
  capped : (entries.map fun e => e.originalSize.toNat).sum ≤ p.maxTotalDecompressedBytes

/-- The stored sizes, without what encryption adds, fit the compression flags: a compressed payload
is shorter than its content, and any other is as long. -/
def PayloadSizes (chunks : List Chunk) : Prop := ∀ c ∈ chunks,
  overhead p.aead < c.storedSize.toNat ∧
    if c.compressed then c.storedSize.toNat - overhead p.aead < c.originalSize.toNat
    else c.storedSize.toNat - overhead p.aead = c.originalSize.toNat

variable {p} {entries : List TocEntry} {chunks : List Chunk} {e : TocEntry}

/-! ## Owners -/

theorem mem_chunkNumbers {g : ℕ} : g ∈ e.chunkNumbers ↔ e.owns g := by
  rw [TocEntry.chunkNumbers, List.mem_range'_1]
  rfl

/-- How often a chunk is referred to. -/
theorem count_chunkNumbers (entries : List TocEntry) (g : ℕ) :
    (entries.flatMap TocEntry.chunkNumbers).count g = entries.countP fun e => e.owns g := by
  induction entries with
  | nil => rfl
  | cons e entries ih =>
    rw [List.flatMap_cons, List.count_append, ih, List.countP_cons, add_comm]
    congr 1
    by_cases h : e.owns g
    · rw [if_pos (by simpa using h)]
      exact List.count_eq_one_of_mem List.nodup_range' (mem_chunkNumbers.mpr h)
    · rw [if_neg (by simpa using h)]
      exact List.count_eq_zero_of_not_mem fun hmem => h (mem_chunkNumbers.mp hmem)

/-- **The entries share the chunk table out** exactly when every chunk has one owner. -/
theorem owned_iff
    (hrun : ∀ e ∈ entries, e.firstChunk.toNat + e.chunkCount.toNat ≤ chunks.length) :
    (entries.flatMap TocEntry.chunkNumbers).Perm (List.range chunks.length) ↔
      ∀ g < chunks.length, entries.countP (fun e => e.owns g) = 1 := by
  have hrange : ∀ g, (List.range chunks.length).count g = if g < chunks.length then 1 else 0 := by
    intro g
    split_ifs with h
    · exact List.count_eq_one_of_mem List.nodup_range (List.mem_range.mpr h)
    · exact List.count_eq_zero_of_not_mem fun hmem => h (List.mem_range.mp hmem)
  simp only [List.perm_iff_count, count_chunkNumbers, hrange]
  constructor
  · intro h g hg
    rw [h g, if_pos hg]
  · intro h g
    split_ifs with hg
    · exact h g hg
    · rw [List.countP_eq_zero]
      intro e he howns
      have hlt := (of_decide_eq_true howns).2
      have := hrun e he
      omega

/-- The chunks of an entry, by their numbers. -/
theorem ownedChunks_eq_map (hle : e.firstChunk.toNat + e.chunkCount.toNat ≤ chunks.length) :
    (e.ownedChunks chunks).map some = e.chunkNumbers.map fun g => chunks[g]? := by
  apply List.ext_getElem?
  intro i
  by_cases hi : i < e.chunkCount.toNat
  · have hg : e.firstChunk.toNat + i < chunks.length := by omega
    rw [List.getElem?_map, ValidEntry.getElem?_ownedChunks hi, List.getElem?_map,
      TocEntry.chunkNumbers, List.getElem?_range' hi, List.getElem?_eq_getElem hg]
    simp [hg]
  · have hlen : (e.ownedChunks chunks).length = e.chunkCount.toNat := by
      rw [TocEntry.ownedChunks, length_extract hle]
      omega
    rw [List.getElem?_eq_none (by simp; omega),
      List.getElem?_eq_none (by simp [TocEntry.chunkNumbers]; omega)]

/-- A quantity summed up entry by entry is the sum over the chunk table. -/
theorem sum_ownedChunks (f : Chunk → ℕ)
    (hrun : ∀ e ∈ entries, e.firstChunk.toNat + e.chunkCount.toNat ≤ chunks.length)
    (howned : (entries.flatMap TocEntry.chunkNumbers).Perm (List.range chunks.length)) :
    (entries.map fun e => ((e.ownedChunks chunks).map f).sum).sum = (chunks.map f).sum := by
  have hentry : ∀ e ∈ entries, ((e.ownedChunks chunks).map f).sum =
      (e.chunkNumbers.map fun g => (chunks[g]?.map f).getD 0).sum := by
    intro e he
    have h := congrArg (List.map fun c => (c.map f).getD 0) (ownedChunks_eq_map (hrun e he))
    simp only [List.map_map, Function.comp_def, Option.map_some, Option.getD_some] at h
    rw [h]
  have htable : chunks.map f =
      (List.range chunks.length).map fun g => (chunks[g]?.map f).getD 0 := by
    apply List.ext_getElem (by simp)
    intro i h₁ h₂
    simp only [List.length_map] at h₁
    simp [h₁]
  rw [List.map_congr_left hentry, htable, ← (howned.map _).sum_eq, List.map_flatMap,
    List.flatMap_def, List.sum_flatten, List.map_map]
  rfl

/-! ## Intervals -/

/-- **The sizes of the chunks of an entry**, one by one and as a list. -/
theorem interval_iff (hle : e.firstChunk.toNat + e.chunkCount.toNat ≤ chunks.length)
    {ns : List ℕ} (hns : ns.length = e.chunkCount.toNat) :
    ((e.ownedChunks chunks).map fun c => c.originalSize.toNat) = ns ↔
      ∀ i < e.chunkCount.toNat, ∀ c, chunks[e.firstChunk.toNat + i]? = some c →
        ns[i]? = some c.originalSize.toNat := by
  have hlen : (e.ownedChunks chunks).length = e.chunkCount.toNat := by
    rw [TocEntry.ownedChunks, length_extract hle]
    omega
  constructor
  · rintro rfl i hi c hc
    rw [List.getElem?_map, ValidEntry.getElem?_ownedChunks hi, hc]
    rfl
  · intro h
    apply List.ext_getElem?
    intro i
    by_cases hi : i < e.chunkCount.toNat
    · have hg : e.firstChunk.toNat + i < chunks.length := by omega
      rw [List.getElem?_map, ValidEntry.getElem?_ownedChunks hi, List.getElem?_eq_getElem hg,
        h i hi _ (List.getElem?_eq_getElem hg)]
      rfl
    · rw [List.getElem?_eq_none (by simp; omega), List.getElem?_eq_none (by omega)]

theorem getElem?_intervalSizes {n s i m : ℕ} (hi : i < (s + n - 1) / n) :
    (intervalSizes n s)[i]? = some m ↔ m = min ((i + 1) * n) s - i * n := by
  simp [intervalSizes, hi, eq_comm]

/-- **A valid entry** refers to the intervals of its data, when its chunks are consistent. -/
theorem ValidEntry.original_eq (hpos : 0 < p.chunkSize.toNat) (h : ValidEntry p chunks e)
    (hc : ∀ c ∈ chunks, ValidChunk p c) :
    ((e.ownedChunks chunks).map fun c => c.originalSize.toNat) =
      intervalSizes p.chunkSize.toNat e.originalSize.toNat := by
  have hmem : ∀ c ∈ e.ownedChunks chunks, c ∈ chunks := by
    intro c hc
    rw [TocEntry.ownedChunks, List.extract_eq_take_drop] at hc
    exact List.mem_of_mem_drop (List.mem_of_mem_take hc)
  refine (sizes_iff hpos).mp ⟨?_, ?_, h.original_sum⟩
  · simp only [List.forall_mem_map]
    exact fun c hm => ⟨(hc c (hmem c hm)).original_pos, (hc c (hmem c hm)).original_le⟩
  · rw [← List.map_dropLast]
    simp only [List.forall_mem_map]
    exact h.full

/-! ## The checks -/

theorem ValidLayout.exactPartition (hpos : 0 < p.chunkSize.toNat)
    (h : ValidLayout p entries chunks) : ExactPartition p entries chunks := by
  have hrun : ∀ e ∈ entries, e.firstChunk.toNat + e.chunkCount.toNat ≤ chunks.length :=
    fun e he => (h.entry e he).range_le
  have hsizes : ∀ e ∈ entries, ((e.ownedChunks chunks).map fun c => c.originalSize.toNat) =
      intervalSizes p.chunkSize.toNat e.originalSize.toNat :=
    fun e he => (h.entry e he).original_eq hpos h.chunk
  have hcount : ∀ e ∈ entries, e.chunkCount.toNat =
      (e.originalSize.toNat + p.chunkSize.toNat - 1) / p.chunkSize.toNat := by
    intro e he
    have hlen := congrArg List.length (hsizes e he)
    rwa [List.length_map, (h.entry e he).length_ownedChunks, length_intervalSizes] at hlen
  have htotal : (entries.map fun e => e.originalSize.toNat).sum =
      (chunks.map fun c => c.originalSize.toNat).sum := by
    rw [← sum_ownedChunks _ hrun h.owned]
    exact congrArg List.sum (List.map_congr_left fun e he => ((h.entry e he).original_sum).symm)
  refine ⟨fun c hc => ?_, fun c hc => (h.chunk c hc).aligned, h.ordered,
    fun c hc => ⟨(h.chunk c hc).header_le, (h.chunk c hc).stop_le⟩,
    fun e he => ⟨by have := hrun e he; omega, hrun e he⟩, (owned_iff hrun).mp h.owned, hcount,
    fun e he i hi c hc => ?_, fun e he => ((h.entry e he).stored_sum).symm, htotal,
    htotal ▸ h.total_le⟩
  · have hpay := (h.chunk c hc).payload_pos
    simp only [Chunk.stop]
    omega
  · have hlen : (intervalSizes p.chunkSize.toNat e.originalSize.toNat).length =
        e.chunkCount.toNat := by
      rw [length_intervalSizes, hcount e he]
    have hget := (interval_iff (hrun e he) hlen).mp (hsizes e he) i hi c hc
    exact (getElem?_intervalSizes (hcount e he ▸ hi)).mp hget

theorem ValidLayout.payloadSizes (h : ValidLayout p entries chunks) : PayloadSizes p chunks := by
  intro c hc
  have hv := h.chunk c hc
  have hpos := hv.payload_pos
  refine ⟨hpos, ?_⟩
  cases hcomp : c.compressed with
  | true =>
    have hlt := hv.compressed_lt hcomp
    rw [if_pos rfl]
    omega
  | false =>
    have heq := hv.raw_eq hcomp
    rw [if_neg (by simp)]
    omega

theorem ExactPartition.validEntry (hpos : 0 < p.chunkSize.toNat)
    (h : ExactPartition p entries chunks) (he : e ∈ entries) :
    ValidEntry p chunks e ∧ ((e.ownedChunks chunks).map fun c => c.originalSize.toNat) =
      intervalSizes p.chunkSize.toNat e.originalSize.toNat := by
  have hle := (h.run e he).2
  have hcount := h.count e he
  have hlen : (intervalSizes p.chunkSize.toNat e.originalSize.toNat).length =
      e.chunkCount.toNat := by
    rw [length_intervalSizes, hcount]
  have hsizes : ((e.ownedChunks chunks).map fun c => c.originalSize.toNat) =
      intervalSizes p.chunkSize.toNat e.originalSize.toNat := by
    refine (interval_iff hle hlen).mpr fun i hi c hc => ?_
    exact (getElem?_intervalSizes (hcount ▸ hi)).mpr (h.interval e he i hi c hc)
  obtain ⟨-, hfull, hsum⟩ := (sizes_iff hpos).mpr hsizes
  refine ⟨⟨hle, ?_, fun c hc => hfull _ ?_, hsum, (h.stored e he).symm⟩, hsizes⟩
  · rw [chunkCount_eq_zero_iff, hcount, Nat.div_eq_zero_iff, ← UInt64.toNat_inj]
    simp only [UInt64.toNat_zero]
    omega
  · rw [← List.map_dropLast]
    exact List.mem_map_of_mem hc

/-- Every chunk of the table is an interval of some entry, and so neither empty nor too long. -/
theorem ExactPartition.original_le (hpos : 0 < p.chunkSize.toNat)
    (h : ExactPartition p entries chunks) {c : Chunk} (hc : c ∈ chunks) :
    0 < c.originalSize.toNat ∧ c.originalSize.toNat ≤ p.chunkSize.toNat := by
  obtain ⟨g, hg, rfl⟩ := List.mem_iff_getElem.mp hc
  have hone := h.owner g hg
  obtain ⟨e, he, howns⟩ := List.countP_pos_iff.mp (show 0 < entries.countP _ by rw [hone]; omega)
  obtain ⟨hfrom, hto⟩ := of_decide_eq_true howns
  obtain ⟨hle, -, -⟩ := (sizes_iff hpos).mpr (h.validEntry hpos he).2
  apply hle
  have hi : g - e.firstChunk.toNat < e.chunkCount.toNat := by omega
  have hget : (e.ownedChunks chunks)[g - e.firstChunk.toNat]? = some chunks[g] := by
    rw [ValidEntry.getElem?_ownedChunks hi, Nat.add_sub_cancel' hfrom, List.getElem?_eq_getElem hg]
  exact List.mem_map_of_mem (List.mem_of_getElem? hget)

theorem ExactPartition.validLayout (hpos : 0 < p.chunkSize.toNat)
    (hcap : p.maxTotalDecompressedBytes < 2 ^ 64) (h : ExactPartition p entries chunks)
    (hpay : PayloadSizes p chunks) : ValidLayout p entries chunks := by
  have hle : (chunks.map fun c => c.originalSize.toNat).sum ≤ p.maxTotalDecompressedBytes :=
    h.total ▸ h.capped
  refine ⟨fun c hc => ?_, h.ordered, hle, by omega, fun e he => (h.validEntry hpos he).1,
    (owned_iff fun e he => (h.run e he).2).mpr h.owner⟩
  obtain ⟨horig, horig'⟩ := h.original_le hpos hc
  obtain ⟨hover, hflag⟩ := hpay c hc
  refine ⟨horig, horig', hover, fun hcomp => ?_, fun hcomp => ?_, (h.inside c hc).1,
    h.aligned c hc, (h.inside c hc).2⟩
  · rw [if_pos hcomp] at hflag
    omega
  · rw [if_neg (by simp [hcomp])] at hflag
    omega

/-- **The checks accept exactly the exact partitions** whose payload sizes fit the compression
flags. -/
theorem validateLayout_exact (p : LayoutParams) (hpos : 0 < p.chunkSize.toNat)
    (hcap : p.maxTotalDecompressedBytes < 2 ^ 64) (entries : List TocEntry)
    (chunks : List Chunk) :
    validateLayout p entries chunks = .ok () ↔
      ExactPartition p entries chunks ∧ PayloadSizes p chunks := by
  rw [validateLayout_eq_ok_iff]
  constructor
  · exact fun h => ⟨h.exactPartition hpos, h.payloadSizes⟩
  · exact fun ⟨h, hpay⟩ => h.validLayout hpos hcap hpay

section Sample

/-- Three chunks of two entries, with an empty entry between them. -/
def sampleLayout : LayoutParams := ⟨160, 4, 16, false, 100⟩

def sampleLayoutEntries : List TocEntry :=
  [⟨"b", 1, 4, 3, 2, 1⟩, ⟨"c", 2, 0, 0, 3, 0⟩, ⟨"a", 3, 6, 6, 0, 2⟩]

def sampleLayoutChunks : List Chunk :=
  [⟨64, 4, 4, 7, false⟩, ⟨80, 2, 2, 8, false⟩, ⟨96, 3, 4, 9, true⟩]

theorem validateLayout_exact_sample :
    ExactPartition sampleLayout sampleLayoutEntries sampleLayoutChunks ∧
      PayloadSizes sampleLayout sampleLayoutChunks :=
  (validateLayout_exact sampleLayout (by decide) (by decide) _ _).mp (by decide)

end Sample

end RasenArchive
