import RasenArchive.Format.Toc
import RasenArchive.Library.Ownership
import RasenArchive.Library.Window

/-!
# The layout of an archive

`validate_layout`: the extents of the chunks lie in order in front of the table of contents, and
the entries share the chunk table out among themselves.

## Main definitions

* `validateLayout`: the checks, with their loops
* `ValidLayout`: what they establish

## Main results

* `validateLayout_eq_ok_iff`: the checks accept exactly the valid layouts
* `validateLayout_safe`: the checks do not panic
-/

namespace RasenArchive

/-- What `validate_layout` is called with besides the records. -/
structure LayoutParams where
  tocOffset : UInt64
  chunkSize : UInt32
  alignment : UInt32
  aead : Bool
  maxTotalDecompressedBytes : ℕ

variable (p : LayoutParams)

/-! ## The checks -/

/-- The stored size of a chunk without what encryption adds. -/
def payloadSize (aead : Bool) (chunk : Chunk) : Result ℕ :=
  match aead with
  | true =>
    okOr (checkedSub chunk.storedSize.toNat aeadOverhead) (.corrupt "encrypted chunk is truncated")
  | false => pure chunk.storedSize.toNat

/-- One turn of the loop over the chunks, with the end of the previous chunk and the total of the
sizes so far. -/
def validateChunk (previousEnd totalDecompressed : ℕ) (chunk : Chunk) : Result (ℕ × ℕ) := do
  let payloadSize ← payloadSize p.aead chunk
  ensure (chunk.originalSize ≠ 0 ∧ chunk.originalSize.toNat ≤ p.chunkSize.toNat)
    (.corrupt "invalid chunk original size")
  ensure (payloadSize ≠ 0 ∧ payloadSize ≤ chunk.originalSize.toNat)
    (.corrupt "invalid stored chunk size")
  ensure (chunk.compressed = false ∨ payloadSize < chunk.originalSize.toNat)
    (.corrupt "non-beneficial compressed chunk")
  ensure (chunk.compressed = true ∨ payloadSize = chunk.originalSize.toNat)
    (.corrupt "raw chunk size mismatch")
  ensure (headerSize ≤ chunk.offset.toNat ∧ p.alignment.toNat ∣ chunk.offset.toNat)
    (.corrupt "invalid chunk alignment")
  ensure (previousEnd ≤ chunk.offset.toNat) (.corrupt "overlapping or out-of-order chunks")
  let stop ← okOr (checkedAdd 64 chunk.offset.toNat chunk.storedSize.toNat)
    (.corrupt "chunk range overflow")
  ensure (stop ≤ p.tocOffset.toNat) (.corrupt "chunk outside payload region")
  let totalDecompressed ← okOr (checkedAdd 64 totalDecompressed chunk.originalSize.toNat)
    (.tooLarge "total decompressed size")
  ensure (totalDecompressed ≤ p.maxTotalDecompressedBytes) .archiveTooLarge
  pure (stop, totalDecompressed)

/-- The loop over the chunks. -/
def validateChunks : ℕ → ℕ → List Chunk → Result Unit
  | _, _, [] => pure ()
  | previousEnd, totalDecompressed, chunk :: chunks => do
    let (previousEnd, totalDecompressed) ← validateChunk p previousEnd totalDecompressed chunk
    validateChunks previousEnd totalDecompressed chunks

/-- What the loops over the entries carry along: the marks of `used_chunks`, and the sums of the
sizes of one entry. -/
structure Marking where
  used : List Bool
  rawTotal : ℕ
  storedTotal : ℕ

/-- The loop over the chunks of one entry, `count` in all, from local number `l` on. -/
def markOwned (chunkSize : UInt32) (first count : ℕ) :
    ℕ → List Chunk → Marking → Result Marking
  | _, [], m => pure m
  | l, chunk :: owned, m => do
    let global ← add first l
    let used ← index m.used global
    ensure (used = false) (.corrupt "chunk is referenced by multiple entries")
    let rawTotal ← okOr (checkedAdd 64 m.rawTotal chunk.originalSize.toNat)
      (.corrupt "entry raw size overflow")
    let storedTotal ← okOr (checkedAdd 64 m.storedTotal chunk.storedSize.toNat)
      (.corrupt "entry stored size overflow")
    let next ← add l 1
    -- only the last chunk of an entry may be shorter than the chunk size
    ensure (next = count ∨ chunk.originalSize.toNat = chunkSize.toNat)
      (.corrupt "non-final chunk has unexpected size")
    markOwned chunkSize first count next owned
      { used := m.used.set global true, rawTotal, storedTotal }

/-- The check on the three sizes of an entry. -/
-- `match (original_size, chunk_count, stored_size)`
def validateSizes (entry : TocEntry) : Result Unit :=
  if (entry.originalSize = 0 ∧ entry.chunkCount = 0 ∧ entry.storedSize = 0) ∨
      (entry.originalSize ≠ 0 ∧ entry.chunkCount ≠ 0) then
    pure ()
  else if entry.originalSize = 0 then
    failWith (.corrupt "empty entry has chunks")
  else
    failWith (.corrupt "non-empty entry has no chunks")

/-- One turn of the loop over the entries. -/
def validateEntry (chunks : List Chunk) (used : List Bool) (entry : TocEntry) :
    Result (List Bool) := do
  let first := entry.firstChunk.toNat
  let stop ← okOr (checkedAdd 64 first entry.chunkCount.toNat)
    (.corrupt "entry chunk range overflow")
  let owned ← okOr (getRange chunks first stop) (.corrupt "entry chunk range outside TOC")
  validateSizes entry
  let m ← markOwned p.chunkSize first owned.length 0 owned ⟨used, 0, 0⟩
  ensure (m.rawTotal = entry.originalSize.toNat) (.corrupt "entry original size mismatch")
  ensure (m.storedTotal = entry.storedSize.toNat) (.corrupt "entry stored size mismatch")
  pure m.used

/-- The loop over the entries. -/
def validateEntries (chunks : List Chunk) : List Bool → List TocEntry → Result (List Bool)
  | used, [] => pure used
  | used, entry :: entries => do
    let used ← validateEntry p chunks used entry
    validateEntries chunks used entries

/-- `validate_layout`. -/
def validateLayout (entries : List TocEntry) (chunks : List Chunk) : Result Unit := do
  validateChunks p headerSize 0 chunks
  let used ← validateEntries p chunks (List.replicate chunks.length false) entries
  ensure (∀ u ∈ used, u = true) (.corrupt "orphan chunk in TOC")

/-! ## What the checks establish -/

/-- Where the stored bytes of a chunk end. -/
def Chunk.stop (c : Chunk) : ℕ := c.offset.toNat + c.storedSize.toNat

/-- The bytes that encryption adds to a block. -/
def overhead (aead : Bool) : ℕ := if aead then aeadOverhead else 0

/-- The record of a chunk is consistent in itself. -/
structure ValidChunk (c : Chunk) : Prop where
  original_pos : 0 < c.originalSize.toNat
  original_le : c.originalSize.toNat ≤ p.chunkSize.toNat
  payload_pos : overhead p.aead < c.storedSize.toNat
  compressed_lt : c.compressed = true →
    c.storedSize.toNat < c.originalSize.toNat + overhead p.aead
  raw_eq : c.compressed = false → c.storedSize.toNat = c.originalSize.toNat + overhead p.aead
  header_le : headerSize ≤ c.offset.toNat
  aligned : p.alignment.toNat ∣ c.offset.toNat
  stop_le : c.stop ≤ p.tocOffset.toNat

/-- The chunks that an entry refers to. -/
def TocEntry.ownedChunks (entry : TocEntry) (chunks : List Chunk) : List Chunk :=
  chunks.extract entry.firstChunk.toNat (entry.firstChunk.toNat + entry.chunkCount.toNat)

/-- The numbers of the chunks that an entry refers to. -/
def TocEntry.chunkNumbers (entry : TocEntry) : List ℕ :=
  List.range' entry.firstChunk.toNat entry.chunkCount.toNat

/-- An entry refers to chunks of the table whose sizes add up to its own, all of them full but
the last one. -/
structure ValidEntry (chunks : List Chunk) (entry : TocEntry) : Prop where
  range_le : entry.firstChunk.toNat + entry.chunkCount.toNat ≤ chunks.length
  empty_iff : entry.originalSize = 0 ↔ entry.chunkCount = 0
  full : ∀ c ∈ (entry.ownedChunks chunks).dropLast, c.originalSize.toNat = p.chunkSize.toNat
  original_sum :
    ((entry.ownedChunks chunks).map fun c => c.originalSize.toNat).sum = entry.originalSize.toNat
  stored_sum :
    ((entry.ownedChunks chunks).map fun c => c.storedSize.toNat).sum = entry.storedSize.toNat

/-- **A valid layout**: consistent chunks, in order and apart from each other, within the size
limit, and shared out among consistent entries. -/
structure ValidLayout (entries : List TocEntry) (chunks : List Chunk) : Prop where
  chunk : ∀ c ∈ chunks, ValidChunk p c
  ordered : chunks.Pairwise fun a b => a.stop ≤ b.offset.toNat
  total_le : (chunks.map fun c => c.originalSize.toNat).sum ≤ p.maxTotalDecompressedBytes
  total_lt : (chunks.map fun c => c.originalSize.toNat).sum < 2 ^ 64
  entry : ∀ e ∈ entries, ValidEntry p chunks e
  owned : (entries.flatMap TocEntry.chunkNumbers).Perm (List.range chunks.length)

variable {p}

theorem payloadSize_eq_ok_iff {aead : Bool} {c : Chunk} {n : ℕ} :
    payloadSize aead c = .ok n ↔
      overhead aead ≤ c.storedSize.toNat ∧ n = c.storedSize.toNat - overhead aead := by
  cases aead
  · simp only [payloadSize, overhead, pure_eq_ok_iff, Bool.false_eq_true, if_false, Nat.sub_zero,
      Nat.zero_le, true_and]
    exact eq_comm
  · simp only [payloadSize, overhead, okOr_eq_ok_iff, checkedSub_eq_some_iff, if_true,
      and_congr_right_iff]
    exact fun _ => eq_comm

theorem validateChunk_eq_ok_iff {previousEnd total : ℕ} {c : Chunk} {r : ℕ × ℕ} :
    validateChunk p previousEnd total c = .ok r ↔
      ValidChunk p c ∧ previousEnd ≤ c.offset.toNat ∧
        total + c.originalSize.toNat < 2 ^ 64 ∧
        total + c.originalSize.toNat ≤ p.maxTotalDecompressedBytes ∧
        r = (c.stop, total + c.originalSize.toNat) := by
  -- the source compares with zero
  have hzero : c.originalSize ≠ 0 ↔ 0 < c.originalSize.toNat := by
    rw [Nat.pos_iff_ne_zero, Ne, Ne, ← UInt64.toNat_inj]
    rfl
  have hlt := p.tocOffset.toNat_lt
  simp only [validateChunk, bind_eq_ok, payloadSize_eq_ok_iff, ensure_eq_ok_iff, okOr_eq_ok_iff,
    checkedAdd_eq_some_iff, exists_const, pure_eq_ok_iff, hzero]
  -- read off the checks, in their order
  constructor
  · rintro ⟨_, ⟨hover, rfl⟩, ⟨hpos, hle⟩, ⟨hne, hpay⟩, hcomp, hraw, ⟨hhead, hal⟩, hprev, _,
      ⟨-, rfl⟩, hstop, _, ⟨htotal, rfl⟩, hmax, rfl⟩
    refine ⟨⟨hpos, hle, by omega, ?_, ?_, hhead, hal, hstop⟩, hprev, htotal, hmax, rfl⟩
    · intro hc
      simp only [hc, reduceCtorEq, false_or] at hcomp
      omega
    · intro hc
      simp only [hc, reduceCtorEq, false_or] at hraw
      omega
  · -- and each of them passes where the chunk is valid
    rintro ⟨hc, hprev, htotal, hmax, rfl⟩
    have hpay := hc.payload_pos
    have hstop := hc.stop_le
    simp only [Chunk.stop] at hstop
    refine ⟨_, ⟨by omega, rfl⟩, ⟨hc.original_pos, hc.original_le⟩, ⟨by omega, ?_⟩, ?_, ?_,
      ⟨hc.header_le, hc.aligned⟩, hprev, _, ⟨by omega, rfl⟩, hstop, _, ⟨htotal, rfl⟩, hmax, rfl⟩
    · cases hcomp : c.compressed with
      | true => have := hc.compressed_lt hcomp; omega
      | false => have := hc.raw_eq hcomp; omega
    · cases hcomp : c.compressed with
      | true => have := hc.compressed_lt hcomp; exact Or.inr (by omega)
      | false => exact Or.inl rfl
    · cases hcomp : c.compressed with
      | true => exact Or.inl rfl
      | false => have := hc.raw_eq hcomp; exact Or.inr (by omega)

/-- **The loop over the chunks.** -/
theorem validateChunks_eq_ok_iff {previousEnd total : ℕ} {chunks : List Chunk} {u : Unit}
    (htotal : total < 2 ^ 64) (hmax : total ≤ p.maxTotalDecompressedBytes) :
    validateChunks p previousEnd total chunks = .ok u ↔
      (∀ c ∈ chunks, ValidChunk p c ∧ previousEnd ≤ c.offset.toNat) ∧
        chunks.Pairwise (fun a b => a.stop ≤ b.offset.toNat) ∧
        total + (chunks.map fun c => c.originalSize.toNat).sum < 2 ^ 64 ∧
        total + (chunks.map fun c => c.originalSize.toNat).sum ≤ p.maxTotalDecompressedBytes := by
  induction chunks generalizing previousEnd total with
  | nil => simpa [validateChunks] using ⟨htotal, hmax⟩
  | cons c chunks ih =>
    simp only [validateChunks, bind_eq_ok, validateChunk_eq_ok_iff, List.forall_mem_cons,
      List.pairwise_cons, List.map_cons, List.sum_cons]
    constructor
    · rintro ⟨_, ⟨hc, hprev, hlt, hle, rfl⟩, h⟩
      obtain ⟨hall, hord, hlt', hle'⟩ := (ih hlt hle).mp h
      have hstop : c.offset.toNat ≤ c.stop := Nat.le_add_right _ _
      exact ⟨⟨⟨hc, hprev⟩, fun d hd => ⟨(hall d hd).1,
        hprev.trans (hstop.trans (hall d hd).2)⟩⟩, ⟨fun d hd => (hall d hd).2, hord⟩,
        by omega, by omega⟩
    · rintro ⟨⟨⟨hc, hprev⟩, hall⟩, ⟨hnext, hord⟩, hlt, hle⟩
      exact ⟨_, ⟨hc, hprev, by omega, by omega, rfl⟩, (ih (by omega) (by omega)).mpr
        ⟨fun d hd => ⟨(hall d hd).1, hnext d hd⟩, hord, by omega, by omega⟩⟩

/-! ## The entries -/

/-- **The loop over the chunks of one entry** takes their numbers, sums their sizes up, and
accepts a size other than the chunk size only at the end. -/
theorem markOwned_eq_ok_iff {chunkSize : UInt32} {first count l : ℕ} {owned : List ℕ}
    {cs : List Chunk} {m m' : Marking} (hm : Marks m.used owned) (hcount : l + cs.length = count)
    (hle : first + count ≤ m.used.length) (hlt : first + count < 2 ^ 64) :
    markOwned chunkSize first count l cs m = .ok m' ↔
      Marks m'.used (owned ++ List.range' (first + l) cs.length) ∧
        m'.used.length = m.used.length ∧
        (∀ c ∈ cs.dropLast, c.originalSize.toNat = chunkSize.toNat) ∧
        (m'.rawTotal = m.rawTotal + (cs.map fun c => c.originalSize.toNat).sum ∧
          (cs = [] ∨ m'.rawTotal < 2 ^ 64)) ∧
        (m'.storedTotal = m.storedTotal + (cs.map fun c => c.storedSize.toNat).sum ∧
          (cs = [] ∨ m'.storedTotal < 2 ^ 64)) := by
  -- induction on the chunks of the entry that are left, with those taken so far
  induction cs generalizing l owned m with
  | nil =>
    simp only [markOwned, pure_eq_ok_iff, List.length_nil, List.range'_zero, List.append_nil,
      List.dropLast_nil, List.not_mem_nil, false_implies, implies_true, List.map_nil,
      List.sum_nil, add_zero, true_or, and_true, true_and]
    constructor
    · rintro rfl
      exact ⟨hm, rfl, rfl, rfl⟩
    · rintro ⟨hm', hlen, hraw, hstored⟩
      -- equal marks are the same list
      have hused := hm.ext hm' hlen.symm
      cases m
      cases m'
      simp_all
  | cons c cs ih =>
    rw [List.length_cons] at hcount
    have hg : first + l < m.used.length := by omega
    have hrange : owned ++ List.range' (first + l) (c :: cs).length =
        owned ++ [first + l] ++ List.range' (first + (l + 1)) cs.length := by
      simp [List.range'_succ, add_assoc]
    simp only [markOwned, bind_eq_ok, index_eq_ok_iff, ensure_eq_ok_iff, exists_const,
      okOr_eq_ok_iff, checkedAdd_eq_some_iff, add_of_lt (show first + l < 2 ^ 64 by omega),
      add_of_lt (show l + 1 < 2 ^ 64 by omega), Except.ok.injEq, hrange]
    -- only the last chunk of the entry may be smaller than the chunk size
    have hlast : (∀ d ∈ (c :: cs).dropLast, d.originalSize.toNat = chunkSize.toNat) ↔
        (l + 1 = count ∨ c.originalSize.toNat = chunkSize.toNat) ∧
          ∀ d ∈ cs.dropLast, d.originalSize.toNat = chunkSize.toNat := by
      cases cs with
      | nil => simp [← hcount]
      | cons d cs =>
        simp only [List.length_cons] at hcount
        rw [List.dropLast_cons_cons, List.forall_mem_cons]
        have hne : l + 1 ≠ count := by omega
        simp [hne]
    rw [hlast]
    simp only [List.map_cons, List.sum_cons, reduceCtorEq, false_or]
    -- the chunk was free, and the later ones are checked behind it
    constructor
    · rintro ⟨_, rfl, _, hfree, rfl, _, ⟨hraw, rfl⟩, _, ⟨hstored, rfl⟩, _, rfl, hsize, h⟩
      obtain ⟨hm', hlen, hfull, ⟨hraw', hrlt⟩, hstored', hslt⟩ :=
        (ih (hm.set hfree) (by omega) (by simpa using hle)).mp h
      refine ⟨hm', by simpa using hlen, ⟨hsize, hfull⟩, ⟨by rw [hraw']; ring, ?_⟩,
        by rw [hstored']; ring, ?_⟩
      · rcases hrlt with rfl | hrlt
        · simpa [hraw'] using hraw
        · exact hrlt
      · rcases hslt with rfl | hslt
        · simpa [hstored'] using hstored
        · exact hslt
    · rintro ⟨hm', hlen, ⟨hsize, hfull⟩, ⟨hraw, hrlt⟩, hstored, hslt⟩
      -- a chunk that is listed once was free before
      have hfree : m.used[first + l]? = some false := by
        rw [hm.clear_iff hg]
        intro hmem
        have hnd := hm'.nodup
        rw [List.append_assoc, List.nodup_append'] at hnd
        exact hnd.2.2 hmem (by simp)
      refine ⟨_, rfl, _, hfree, rfl, _, ⟨by omega, rfl⟩, _, ⟨by omega, rfl⟩, _, rfl, hsize,
        (ih (hm.set hfree) (by omega) (by simpa using hle)).mpr
          ⟨hm', by simpa using hlen, hfull, ⟨by simp only; omega, Or.inr hrlt⟩,
            by simp only; omega, Or.inr hslt⟩⟩

theorem validateSizes_eq_ok_iff {e : TocEntry} {u : Unit} :
    validateSizes e = .ok u ↔
      (e.originalSize = 0 ∧ e.chunkCount = 0 ∧ e.storedSize = 0) ∨
        (e.originalSize ≠ 0 ∧ e.chunkCount ≠ 0) := by
  unfold validateSizes
  split_ifs with h₁ h₂ <;> simp [h₁]

theorem chunkCount_eq_zero_iff {n : UInt32} : n = 0 ↔ n.toNat = 0 := by
  rw [← UInt32.toNat_inj]
  rfl

theorem validateEntry_eq_ok_iff {chunks : List Chunk} {used used' : List Bool} {owned : List ℕ}
    {e : TocEntry} (hm : Marks used owned) (hused : used.length = chunks.length) :
    validateEntry p chunks used e = .ok used' ↔
      ValidEntry p chunks e ∧ Marks used' (owned ++ e.chunkNumbers) ∧
        used'.length = used.length := by
  -- the numbers of the entry are below 2^33
  have hlt : e.firstChunk.toNat + e.chunkCount.toNat < 2 ^ 64 := by
    have h₁ := e.firstChunk.toNat_lt
    have h₂ := e.chunkCount.toNat_lt
    omega
  simp only [validateEntry, bind_eq_ok, okOr_eq_ok_iff, checkedAdd_eq_some_iff,
    getRange_eq_some_iff, validateSizes_eq_ok_iff, exists_const, ensure_eq_ok_iff,
    pure_eq_ok_iff]
  have hlen : e.firstChunk.toNat + e.chunkCount.toNat ≤ chunks.length →
      (e.ownedChunks chunks).length = e.chunkCount.toNat := by
    intro h
    rw [TocEntry.ownedChunks, length_extract h]
    omega
  -- the marks and the sums are those of the loop over the owned chunks
  constructor
  · rintro ⟨_, ⟨-, rfl⟩, _, ⟨⟨-, hle⟩, rfl⟩, hsizes, m, h, hraw, hstored, rfl⟩
    have hown := hlen hle
    simp only [TocEntry.ownedChunks] at hown
    rw [hown, markOwned_eq_ok_iff (m := ⟨used, 0, 0⟩) hm (by omega) (by simp only; omega) hlt,
      hown] at h
    obtain ⟨hm', hlen', hfull, ⟨hraw', -⟩, hstored', -⟩ := h
    simp only [zero_add] at hraw' hstored'
    refine ⟨⟨hle, ?_, hfull, hraw'.symm.trans hraw, hstored'.symm.trans hstored⟩, hm', hlen'⟩
    rcases hsizes with ⟨h₁, h₂, -⟩ | ⟨h₁, h₂⟩ <;> simp [h₁, h₂]
  · rintro ⟨hv, hm', hlen'⟩
    have hle := hv.range_le
    have hown := hlen hle
    have hraw := hv.original_sum
    have hstored := hv.stored_sum
    have hlt₁ := e.originalSize.toNat_lt
    have hlt₂ := e.storedSize.toNat_lt
    refine ⟨_, ⟨hlt, rfl⟩, _, ⟨⟨by omega, hle⟩, rfl⟩, ?_,
      ⟨used', e.originalSize.toNat, e.storedSize.toNat⟩, ?_, rfl, rfl, rfl⟩
    · -- an entry without chunks is empty in all its sizes
      by_cases hz : e.chunkCount = 0
      · refine Or.inl ⟨hv.empty_iff.mpr hz, hz, ?_⟩
        have hnil : e.ownedChunks chunks = [] := by
          rw [← List.length_eq_zero_iff, hown]
          exact chunkCount_eq_zero_iff.mp hz
        rw [hnil] at hstored
        exact UInt64.toNat_inj.mp hstored.symm
      · exact Or.inr ⟨hv.empty_iff.not.mpr hz, hz⟩
    · simp only [TocEntry.ownedChunks] at hown hraw hstored
      rw [hown, markOwned_eq_ok_iff (m := ⟨used, 0, 0⟩) hm (by omega) (by simp only; omega) hlt,
        hown]
      exact ⟨hm', hlen', hv.full, ⟨by simp only; omega, Or.inr hlt₁⟩, by simp only; omega,
        Or.inr hlt₂⟩

/-- **The loop over the entries** takes the chunks of each of them. -/
theorem validateEntries_eq_ok_iff {chunks : List Chunk} {used used' : List Bool} {owned : List ℕ}
    {entries : List TocEntry} (hm : Marks used owned) (hused : used.length = chunks.length) :
    validateEntries p chunks used entries = .ok used' ↔
      (∀ e ∈ entries, ValidEntry p chunks e) ∧
        Marks used' (owned ++ entries.flatMap TocEntry.chunkNumbers) ∧
        used'.length = used.length := by
  induction entries generalizing used owned with
  | nil =>
    simp only [validateEntries, pure_eq_ok_iff, List.not_mem_nil, false_implies, implies_true,
      List.flatMap_nil, List.append_nil, true_and]
    constructor
    · rintro rfl
      exact ⟨hm, rfl⟩
    · exact fun h => hm.ext h.1 h.2.symm
  | cons e entries ih =>
    simp only [validateEntries, bind_eq_ok, validateEntry_eq_ok_iff hm hused,
      List.forall_mem_cons, List.flatMap_cons, ← List.append_assoc]
    constructor
    · rintro ⟨used₁, ⟨hv, hm₁, hlen₁⟩, h⟩
      obtain ⟨hall, hm', hlen'⟩ := (ih hm₁ (hlen₁.trans hused)).mp h
      exact ⟨⟨hv, hall⟩, hm', hlen'.trans hlen₁⟩
    · rintro ⟨⟨hv, hall⟩, hm', hlen'⟩
      obtain ⟨used₁, hlen₁, hm₁⟩ := exists_marks (n := used.length)
        (List.nodup_append'.mp hm'.nodup).1
        fun i hi => hlen' ▸ hm'.lt_length (List.mem_append_left _ hi)
      exact ⟨used₁, ⟨hv, hm₁, hlen₁⟩,
        (ih hm₁ (hlen₁.trans hused)).mpr ⟨hall, hm', hlen'.trans hlen₁.symm⟩⟩

/-- **The checks accept exactly the valid layouts.** -/
theorem validateLayout_eq_ok_iff {entries : List TocEntry} {chunks : List Chunk} {u : Unit} :
    validateLayout p entries chunks = .ok u ↔ ValidLayout p entries chunks := by
  have hm := marks_replicate chunks.length
  have hlen : (List.replicate chunks.length false).length = chunks.length := by simp
  simp only [validateLayout, bind_eq_ok, exists_const, ensure_eq_ok_iff,
    validateChunks_eq_ok_iff (show 0 < 2 ^ 64 by omega) (Nat.zero_le _),
    validateEntries_eq_ok_iff hm hlen, List.nil_append, zero_add]
  constructor
  · rintro ⟨⟨hc, hord, hlt, hle⟩, used, ⟨he, hm', hlen'⟩, hall⟩
    refine ⟨fun c h => (hc c h).1, hord, hle, hlt, he, ?_⟩
    have hperm := hm'.all_iff_perm.mp hall
    rwa [hlen', hlen] at hperm
  · intro h
    obtain ⟨used, hlen', hm'⟩ := exists_marks (n := chunks.length)
      (h.owned.nodup_iff.mpr List.nodup_range)
      fun i hi => List.mem_range.mp (h.owned.mem_iff.mp hi)
    refine ⟨⟨fun c hc => ⟨h.chunk c hc, (h.chunk c hc).header_le⟩, h.ordered, h.total_lt,
      h.total_le⟩, used, ⟨h.entry, hm', hlen'.trans hlen.symm⟩, hm'.all_iff_perm.mpr ?_⟩
    rw [hlen']
    exact h.owned

/-! ## Absence of panics -/

theorem payloadSize_safe (aead : Bool) (c : Chunk) : Safe (payloadSize aead c) := by
  cases aead
  · exact safe_pure _
  · exact safe_okOr _

theorem validateChunk_safe (previousEnd total : ℕ) (c : Chunk) :
    Safe (validateChunk p previousEnd total c) :=
  (payloadSize_safe _ _).bind fun _ _ => (safe_ensure _).bind fun _ _ =>
    (safe_ensure _).bind fun _ _ => (safe_ensure _).bind fun _ _ => (safe_ensure _).bind fun _ _ =>
    (safe_ensure _).bind fun _ _ => (safe_ensure _).bind fun _ _ => (safe_okOr _).bind fun _ _ =>
    (safe_ensure _).bind fun _ _ => (safe_okOr _).bind fun _ _ => (safe_ensure _).bind fun _ _ =>
    safe_pure _

theorem validateChunks_safe (previousEnd total : ℕ) (chunks : List Chunk) :
    Safe (validateChunks p previousEnd total chunks) := by
  induction chunks generalizing previousEnd total with
  | nil => exact safe_pure _
  | cons c chunks ih => exact (validateChunk_safe _ _ c).bind fun _ _ => ih _ _

theorem markOwned_safe {chunkSize : UInt32} {first count l : ℕ} {cs : List Chunk} {m : Marking}
    (hcount : l + cs.length = count) (hle : first + count ≤ m.used.length)
    (hlt : first + count < 2 ^ 64) : Safe (markOwned chunkSize first count l cs m) := by
  induction cs generalizing l m with
  | nil => exact safe_pure _
  | cons c cs ih =>
    rw [List.length_cons] at hcount
    have hg : first + l < m.used.length := by omega
    rw [markOwned, add_of_lt (by omega), ok_bind, index_of_lt hg, ok_bind,
      add_of_lt (show l + 1 < 2 ^ 64 by omega)]
    exact (safe_ensure _).bind fun _ _ => (safe_okOr _).bind fun _ _ =>
      (safe_okOr _).bind fun _ _ => (safe_ensure _).bind fun _ _ =>
      ih (by omega) (by simpa using hle)

theorem validateSizes_safe (e : TocEntry) : Safe (validateSizes e) := by
  unfold validateSizes
  split_ifs <;> simp

theorem validateEntry_safe {chunks : List Chunk} {used : List Bool}
    (hused : used.length = chunks.length) (e : TocEntry) :
    Safe (validateEntry p chunks used e) := by
  refine (safe_okOr _).bind fun stop hstop => (safe_okOr _).bind fun owned howned =>
    (validateSizes_safe e).bind fun _ _ => ?_
  simp only [okOr_eq_ok_iff, checkedAdd_eq_some_iff, getRange_eq_some_iff] at hstop howned
  obtain ⟨hlt, rfl⟩ := hstop
  obtain ⟨⟨-, hle⟩, rfl⟩ := howned
  have hlen := length_extract (i := e.firstChunk.toNat) hle
  refine (markOwned_safe (by omega) (by simp only; omega) (by omega)).bind fun _ _ =>
    (safe_ensure _).bind fun _ _ => (safe_ensure _).bind fun _ _ => safe_pure _

theorem validateEntries_safe {chunks : List Chunk} {used : List Bool} {owned : List ℕ}
    (hm : Marks used owned) (hused : used.length = chunks.length) (entries : List TocEntry) :
    Safe (validateEntries p chunks used entries) := by
  induction entries generalizing used owned with
  | nil => exact safe_pure _
  | cons e entries ih =>
    refine (validateEntry_safe hused e).bind fun used' h => ?_
    obtain ⟨-, hm', hlen⟩ := (validateEntry_eq_ok_iff hm hused).mp h
    exact ih hm' (hlen.trans hused)

/-- **The checks do not panic**, whatever the records. -/
theorem validateLayout_safe (entries : List TocEntry) (chunks : List Chunk) :
    Safe (validateLayout p entries chunks) :=
  (validateChunks_safe _ _ _).bind fun _ _ =>
    (validateEntries_safe (marks_replicate chunks.length) (by simp) entries).bind fun _ _ =>
    safe_ensure _

/-! ## The chunks of an entry in a valid layout -/

section Owned

variable {entries : List TocEntry} {chunks : List Chunk} {e : TocEntry}

theorem ValidEntry.length_ownedChunks (h : ValidEntry p chunks e) :
    (e.ownedChunks chunks).length = e.chunkCount.toNat := by
  rw [TocEntry.ownedChunks, length_extract h.range_le]
  omega

theorem ValidEntry.getElem?_ownedChunks {i : ℕ} (hi : i < e.chunkCount.toNat) :
    (e.ownedChunks chunks)[i]? = chunks[e.firstChunk.toNat + i]? := by
  rw [TocEntry.ownedChunks, List.extract_eq_take_drop, List.getElem?_take_of_lt (by omega),
    List.getElem?_drop]

end Owned

end RasenArchive
