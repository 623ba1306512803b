import RasenArchive.Archive.Read

/-!
# Reading whole entries

The loop of `read_entry_into`, turn by turn: each chunk goes to its window of the destination.

## Main definitions

* `EntryFault`: how reading an entry as a whole fails

## Main results

* `WellFormed.ownedChunks_spec`: the chunks of an entry are in the table and add up to its size
* `readEntryInto_run`, `readEntryInto_post`: an entry is the concatenation of its chunks
-/

namespace RasenArchive

variable {D : Dependencies} {W : Type} {R : RandomAccessRead W} {a : Archive}
  {Inv Stop : List ℕ → W → Prop} {Rel : ℕ → Bytes → Prop}
  {Err : ChecksumLabel → ℕ → ℕ → Fault → Prop} (spec : RunSpec D R a Inv Stop Rel Err)
  {entry : Entry} {label : ChecksumLabel} {chunk : Chunk} {l written : ℕ} {s : ReadState W}
  {done : List ℕ}

/-- **One turn** of the loop over an entry reads the chunk into its window. -/
theorem readEntryChunk_eq (hglobal : entry.firstChunk.toNat + l < 2 ^ 32)
    (hchunk : a.chunks[entry.firstChunk.toNat + l]? = some chunk)
    (hroom : written + chunk.originalSize.toNat ≤ s.dst.length) (hlt : s.dst.length < 2 ^ 64) :
    readEntryChunk D R a entry label l written s = (do
      onWindow written (written + chunk.originalSize.toNat)
        (readChunkByIndexInto D R a label l (entry.firstChunk.toNat + l))
      pure (written + chunk.originalSize.toNat) : Fallible (ReadState W) Fault ℕ) s := by
  have hat : chunkAt a (entry.firstChunk.toNat + l) = .ok chunk := okOr_eq_ok_iff.mpr hchunk
  have hadd : okOr (checkedAdd 64 written chunk.originalSize.toNat)
      (.corrupt "entry decompressed size overflow") = .ok (written + chunk.originalSize.toNat) :=
    okOr_eq_ok_iff.mpr (checkedAdd_eq_some_iff.mpr ⟨by omega, rfl⟩)
  have hget : okOr (getRange s.dst written (written + chunk.originalSize.toNat))
      (.corrupt "entry decompressed size mismatch") =
      .ok (s.dst.extract written (written + chunk.originalSize.toNat)) :=
    okOr_eq_ok_iff.mpr (getRange_eq_some_iff.mpr ⟨⟨by omega, hroom⟩, rfl⟩)
  unfold readEntryChunk
  rw [Fallible.liftM_bind_of_ok (globalChunkOf_of_lt hglobal), Fallible.liftM_bind_of_ok hat,
    Fallible.liftM_bind_of_ok (u64ToUsize_toNat _ _), Fallible.liftM_bind_of_ok hadd,
    Fallible.gets_bind_apply, id, Fallible.liftM_bind_of_ok hget]

include spec in
theorem readEntryChunk_post (hlimit : 1 ≤ a.maxChunksPerOperation)
    (hglobal : entry.firstChunk.toNat + l < 2 ^ 32)
    (hchunk : a.chunks[entry.firstChunk.toNat + l]? = some chunk)
    (hroom : written + chunk.originalSize.toNat ≤ s.dst.length) (hlt : s.dst.length < 2 ^ 64)
    (hinv : Inv done s.source) :
    Fallible.Post (readEntryChunk D R a entry label l written) s
      (fun r s' => r = written + chunk.originalSize.toNat ∧
        Inv (done ++ [entry.firstChunk.toNat + l]) s'.source ∧
        ∃ d, Rel (entry.firstChunk.toNat + l) d ∧ s'.dst = overwrite s.dst written d)
      (fun f s' => Stop (done ++ [entry.firstChunk.toNat + l]) s'.source ∧
        s'.dst.length = s.dst.length ∧ Err label l (entry.firstChunk.toNat + l) f) := by
  have hwindow : (s.dst.extract written (written + chunk.originalSize.toNat)).length =
      chunk.originalSize.toNat := by
    rw [length_extract hroom]
    omega
  rw [Fallible.post_congr (readEntryChunk_eq hglobal hchunk hroom hlt), Fallible.post_bind,
    onWindow, Fallible.post_focus]
  refine (spec.read hlimit hchunk hwindow hinv).mono ?_ ?_
  · rintro _ t ⟨ht, hrel⟩
    exact ⟨rfl, ht, t.dst, hrel, rfl⟩
  · rintro f t ⟨ht, hlen, herr⟩
    refine ⟨ht, length_overwrite ?_, herr⟩
    rw [hlen, hwindow]
    exact hroom

/-- A record of chunks in a row, with the first of them apart. -/
theorem append_range' (done : List ℕ) (g n : ℕ) :
    done ++ [g] ++ List.range' (g + 1) n = done ++ List.range' g (n + 1) := by
  rw [List.append_assoc, List.singleton_append, ← List.range'_succ]

include spec in
/-- **The loop over an entry** appends the contents of its chunks, up to the first that fails. -/
theorem readEntryChunks_post {cs rest : List Chunk}
    (hcs : a.chunks.drop (entry.firstChunk.toNat + l) = cs ++ rest)
    (hlimit : cs.length ≤ a.maxChunksPerOperation)
    (hglobal : entry.firstChunk.toNat + l + cs.length ≤ 2 ^ 32)
    (hroom : written + totalSize cs = s.dst.length) (hlt : s.dst.length < 2 ^ 64)
    (hinv : Inv done s.source) :
    Fallible.Post (readEntryChunks D R a entry label cs.length l written) s
      (fun r s' => r = s.dst.length ∧
        Inv (done ++ List.range' (entry.firstChunk.toNat + l) cs.length) s'.source ∧
        ∃ ds, List.Forall₂ Rel (List.range' (entry.firstChunk.toNat + l) cs.length) ds ∧
          s'.dst = overwrite s.dst written ds.flatten)
      (fun f s' => s'.dst.length = s.dst.length ∧ ∃ n, n < cs.length ∧
        Stop (done ++ List.range' (entry.firstChunk.toNat + l) (n + 1)) s'.source ∧
        FirstErr Rel Err entry l label (l + n) (entry.firstChunk.toNat + (l + n)) f) := by
  -- induction over the chunks that are left, with what was written and recorded so far
  induction cs generalizing l written s done with
  | nil =>
    rw [totalSize_nil, Nat.add_zero] at hroom
    refine ⟨hroom, ?_, [], .nil, ?_⟩
    · simpa using hinv
    · simp [overwrite]
  | cons c cs ih =>
    rw [List.length_cons] at hlimit hglobal
    rw [totalSize_cons] at hroom
    have hc := getElem?_of_drop_eq hcs
    have hnext : a.chunks.drop (entry.firstChunk.toNat + (l + 1)) = cs ++ rest :=
      drop_succ_of_drop_eq hcs
    rw [List.length_cons, readEntryChunks]
    refine ((readEntryChunk_post spec (by omega) (by omega) hc (by omega) hlt hinv).mono
      (fun _ _ hQ => hQ) ?_).bind ?_
    · -- the first chunk fails
      rintro f s' ⟨hs', hlen, herr⟩
      exact ⟨hlen, 0, by omega, hs', herr, fun j hl hj => by omega⟩
    · -- the first chunk is written, and the others behind it
      rintro r s' ⟨rfl, hs', d, hd, hdst⟩
      have hdlen := spec.length_eq hc hd
      have hlen : s'.dst.length = s.dst.length := by
        rw [hdst, length_overwrite]
        omega
      refine (ih hnext (by omega) (by omega) (by omega) (by omega) hs').mono ?_ ?_
      · rintro r' t ⟨rfl, ht, ds, hds, htdst⟩
        rw [← Nat.add_assoc] at ht hds
        rw [append_range'] at ht
        -- the contents in a row
        refine ⟨hlen, ht, d :: ds, ?_, ?_⟩
        · rw [List.range'_succ]
          exact .cons hd hds
        · -- two writes one behind the other are one write of both
          rw [htdst, hdst, List.flatten_cons, ← hdlen, overwrite_overwrite (by omega)]
      · rintro f t ⟨htlen, n, hn, ht, herr⟩
        rw [← Nat.add_assoc, append_range'] at ht
        exact ⟨htlen.trans hlen, n + 1, by omega, ht, herr.behind hd⟩

/-- The chunks of an entry are in the table, full but the last one, and add up to its size. -/
theorem WellFormed.ownedChunks_spec (h : WellFormed D a) (he : entry ∈ a.entries) :
    entry.firstChunk.toNat + entry.chunkCount.toNat ≤ a.chunks.length ∧
      (entry.ownedChunks a.chunks).length = entry.chunkCount.toNat ∧
      (∀ c ∈ (entry.ownedChunks a.chunks).dropLast, c.originalSize.toNat = a.chunkSize.toNat) ∧
      (∀ c ∈ entry.ownedChunks a.chunks, c.originalSize.toNat ≤ a.chunkSize.toNat) ∧
      totalSize (entry.ownedChunks a.chunks) = entry.originalSize.toNat := by
  obtain ⟨p, hp, -, -, -, hlayout⟩ := h.layout
  have hv := hlayout.entry entry he
  refine ⟨hv.range_le, hv.length_ownedChunks, hp ▸ hv.full, fun c hc => ?_, hv.original_sum⟩
  rw [TocEntry.ownedChunks, List.extract_eq_take_drop] at hc
  rw [← hp]
  exact (hlayout.chunk c (List.mem_of_mem_drop (List.mem_of_mem_take hc))).original_le

/-- No entry is larger than the limit on all of them together. -/
theorem WellFormed.originalSize_le (h : WellFormed D a) (he : entry ∈ a.entries) :
    entry.originalSize.toNat ≤ ArchiveLimits.hardMaxTotalDecompressedBytes := by
  obtain ⟨-, -, -, -, htotal⟩ := h.ownedChunks_spec he
  obtain ⟨p, -, -, -, hmax, hlayout⟩ := h.layout
  -- the chunks of an entry are some of the table, whose sizes are limited together
  have hsub : (entry.ownedChunks a.chunks).Sublist a.chunks := by
    rw [TocEntry.ownedChunks, List.extract_eq_take_drop]
    exact (List.take_sublist _ _).trans (List.drop_sublist _ _)
  have hle : totalSize (entry.ownedChunks a.chunks) ≤ totalSize a.chunks :=
    (hsub.map fun c : Chunk => c.originalSize.toNat).sum_le_sum fun _ _ => Nat.zero_le _
  calc entry.originalSize.toNat = totalSize (entry.ownedChunks a.chunks) := htotal.symm
    _ ≤ totalSize a.chunks := hle
    _ ≤ p.maxTotalDecompressedBytes := hlayout.total_le
    _ ≤ _ := hmax

theorem TocEntry.drop_eq_ownedChunks_append (entry : TocEntry) (chunks : List Chunk) :
    chunks.drop entry.firstChunk.toNat = entry.ownedChunks chunks ++
      chunks.drop (entry.firstChunk.toNat + entry.chunkCount.toNat) := by
  rw [TocEntry.ownedChunks, List.extract_eq_take_drop, Nat.add_sub_cancel_left, ← List.drop_drop,
    List.take_append_drop]

theorem TocEntry.drop_eq_touchedChunks_append (entry : TocEntry) {chunks : List Chunk}
    {first last : ℕ} (hle : first ≤ last) (hlt : last < (entry.ownedChunks chunks).length) :
    chunks.drop (entry.firstChunk.toNat + first) =
      (entry.ownedChunks chunks).extract first (last + 1) ++
        ((entry.ownedChunks chunks).drop (last + 1) ++
          chunks.drop (entry.firstChunk.toNat + entry.chunkCount.toNat)) := by
  -- what follows the touched chunks, inside the entry and behind it
  have hrest : (entry.ownedChunks chunks).drop (last + 1) =
      ((entry.ownedChunks chunks).drop first).drop (last + 1 - first) := by
    rw [List.drop_drop]
    congr 1
    omega
  have hmiddle : (entry.ownedChunks chunks).drop first =
      (entry.ownedChunks chunks).extract first (last + 1) ++
        (entry.ownedChunks chunks).drop (last + 1) := by
    rw [List.extract_eq_take_drop, hrest, List.take_append_drop]
  rw [← List.drop_drop, entry.drop_eq_ownedChunks_append chunks,
    List.drop_append_of_le_length (by omega), hmiddle, List.append_assoc]

include spec in
/-- The data of a whole entry has the size of the entry. -/
theorem RunSpec.length_whole (h : WellFormed D a) (he : entry ∈ a.entries) {data : Bytes}
    (hdata : IsWhole Rel entry data) : data.length = entry.originalSize.toNat := by
  obtain ⟨ds, hds, rfl⟩ := hdata
  obtain ⟨-, hlen, -, -, htotal⟩ := h.ownedChunks_spec he
  rw [← htotal, spec.length_flatten (entry.drop_eq_ownedChunks_append a.chunks) (hlen ▸ hds)]

/-- How reading an entry as a whole fails: over the limit, over the length of the destination, or
at a chunk. -/
def EntryFault (a : Archive) (Err : ChecksumLabel → ℕ → ℕ → Fault → Prop) (entry : Entry)
    (label : ChecksumLabel) (dst : Bytes) (f : Fault) : Prop :=
  (a.maxChunksPerOperation < entry.chunkCount.toNat ∧ f = .error .tooManyChunks) ∨
    (dst.length ≠ entry.originalSize.toNat ∧
      f = .error (.bufferSizeMismatch entry.originalSize.toNat dst.length)) ∨
    (entry.chunkCount.toNat ≤ a.maxChunksPerOperation ∧
      dst.length = entry.originalSize.toNat ∧
      ∃ i, i < entry.chunkCount.toNat ∧ Err label i (entry.firstChunk.toNat + i) f)

theorem EntryFault.mono {Err' : ChecksumLabel → ℕ → ℕ → Fault → Prop} {dst : Bytes} {f : Fault}
    (h : EntryFault a Err entry label dst f) (himp : ∀ l g, Err label l g f → Err' label l g f) :
    EntryFault a Err' entry label dst f := by
  rcases h with hlim | hsize | ⟨hlimit, hdst, i, hi, herr⟩
  · exact Or.inl hlim
  · exact Or.inr (Or.inl hsize)
  · exact Or.inr (Or.inr ⟨hlimit, hdst, i, hi, himp _ _ herr⟩)

/-- **Reading an entry** into a destination of its size is the loop over its chunks. -/
theorem readEntryInto_eq {idx : ℕ} (hidx : a.entries[idx]? = some entry)
    (hlimit : entry.chunkCount.toNat ≤ a.maxChunksPerOperation)
    (hdst : s.dst.length = entry.originalSize.toNat) :
    readEntryInto D R a idx label s = (do
      let written ← readEntryChunks D R a entry label entry.chunkCount.toNat 0 0
      let s ← Fallible.gets id
      ensure (written = s.dst.length) (.corrupt "entry decompressed size mismatch") :
        Fallible (ReadState W) Fault Unit) s := by
  have hentry : okOr a.entries[idx]? (.corrupt "entry index outside TOC") = .ok entry :=
    okOr_eq_ok_iff.mpr hidx
  have hop : ensureChunkOperationLimit a entry.chunkCount.toNat = .ok () := ensure_of hlimit
  unfold readEntryInto
  rw [Fallible.liftM_bind_of_ok hentry, Fallible.liftM_bind_of_ok hop,
    Fallible.liftM_bind_of_ok (u64ToUsize_toNat _ _), Fallible.gets_bind_apply, id,
    Fallible.liftM_bind_of_ok (ensure_of hdst)]

theorem readEntryInto_of_limit {idx : ℕ} (hidx : a.entries[idx]? = some entry)
    (hlimit : a.maxChunksPerOperation < entry.chunkCount.toNat) :
    readEntryInto D R a idx label s = ((failWith .tooManyChunks : Result Unit), s) := by
  have hentry : okOr a.entries[idx]? (.corrupt "entry index outside TOC") = .ok entry :=
    okOr_eq_ok_iff.mpr hidx
  have hop : ensureChunkOperationLimit a entry.chunkCount.toNat =
      .error (.error .tooManyChunks) := if_neg (by omega)
  unfold readEntryInto
  rw [Fallible.liftM_bind_of_ok hentry, Fallible.liftM_bind_of_error hop]
  rfl

theorem readEntryInto_of_length_ne {idx : ℕ} (hidx : a.entries[idx]? = some entry)
    (hlimit : entry.chunkCount.toNat ≤ a.maxChunksPerOperation)
    (hdst : s.dst.length ≠ entry.originalSize.toNat) :
    readEntryInto D R a idx label s =
      ((failWith (.bufferSizeMismatch entry.originalSize.toNat s.dst.length) : Result Unit), s) := by
  have hentry : okOr a.entries[idx]? (.corrupt "entry index outside TOC") = .ok entry :=
    okOr_eq_ok_iff.mpr hidx
  have hop : ensureChunkOperationLimit a entry.chunkCount.toNat = .ok () := ensure_of hlimit
  have hlen : ensure (s.dst.length = entry.originalSize.toNat)
      (.bufferSizeMismatch entry.originalSize.toNat s.dst.length) =
      .error (.error (.bufferSizeMismatch entry.originalSize.toNat s.dst.length)) := if_neg hdst
  unfold readEntryInto
  rw [Fallible.liftM_bind_of_ok hentry, Fallible.liftM_bind_of_ok hop,
    Fallible.liftM_bind_of_ok (u64ToUsize_toNat _ _), Fallible.gets_bind_apply, id,
    Fallible.liftM_bind_of_error hlen]
  rfl

include spec in
/-- **Reading an entry** gives the concatenation of the contents of its chunks, or fails at the
first chunk without a content. -/
theorem readEntryInto_run (h : WellFormed D a) {idx : ℕ} (hidx : a.entries[idx]? = some entry)
    (hlimit : entry.chunkCount.toNat ≤ a.maxChunksPerOperation)
    (hdst : s.dst.length = entry.originalSize.toNat) (hinv : Inv [] s.source) :
    Fallible.Post (readEntryInto D R a idx label) s
      (fun _ s' => Inv entry.chunkNumbers s'.source ∧ IsWhole Rel entry s'.dst)
      (fun f s' => s'.dst.length = s.dst.length ∧ ∃ n, n < entry.chunkCount.toNat ∧
        Stop (List.range' entry.firstChunk.toNat (n + 1)) s'.source ∧
        FirstErr Rel Err entry 0 label n (entry.firstChunk.toNat + n) f) := by
  obtain ⟨hrange, hlen, -, -, htotal⟩ := h.ownedChunks_spec (List.mem_of_getElem? hidx)
  have hdrop := entry.drop_eq_ownedChunks_append a.chunks
  have hchunks := h.chunks_lt
  rw [Fallible.post_congr (readEntryInto_eq hidx hlimit hdst), ← hlen]
  -- the loop starts at the front of the destination
  refine ((readEntryChunks_post spec hdrop (hlen ▸ hlimit) (by omega) (by omega)
    (hdst ▸ entry.originalSize.toNat_lt) hinv).mono (fun _ _ hQ => hQ) ?_).bind ?_
  · rintro f s' ⟨hlen', n, hn, hs', herr⟩
    rw [Nat.zero_add] at herr
    exact ⟨hlen', n, hn, hs', herr⟩
  · -- the loop fills the destination, so the length check behind it passes
    rintro r s' ⟨rfl, hs', ds, hds, hdst'⟩
    have hflat := spec.length_flatten hdrop hds
    have hwhole : s'.dst = ds.flatten := by
      rw [hdst', overwrite_of_length_eq (by omega)]
    rw [Fallible.post_bind, Fallible.post_gets, id, Fallible.post_liftM]
    have hend : s.dst.length = s'.dst.length := by
      rw [hwhole]
      omega
    rw [hlen, Nat.add_zero] at hds hs'
    refine ⟨fun _ _ => ⟨hs', ds, hds, hwhole⟩, fun f hf => ?_⟩
    rw [ensure_of hend] at hf
    cases hf

theorem readEntryInto_post (spec : TraceSpec D R a Inv Rel Err) (h : WellFormed D a) {idx : ℕ}
    (hidx : a.entries[idx]? = some entry) (hinv : Inv [] s.source) :
    Fallible.Post (readEntryInto D R a idx label) s
      (fun _ s' => entry.chunkCount.toNat ≤ a.maxChunksPerOperation ∧
        s.dst.length = entry.originalSize.toNat ∧ Inv entry.chunkNumbers s'.source ∧
        IsWhole Rel entry s'.dst)
      (fun f s' => Bounded a Inv s'.source ∧ s'.dst.length = s.dst.length ∧
        EntryFault a (FirstErr Rel Err entry 0) entry label s.dst f) := by
  by_cases hlimit : entry.chunkCount.toNat ≤ a.maxChunksPerOperation
  -- refused for the number of its chunks
  swap
  · rw [Fallible.post_congr (readEntryInto_of_limit hidx (by omega))]
    exact ⟨.of_nil hinv, rfl, Or.inl ⟨by omega, rfl⟩⟩
  by_cases hdst : s.dst.length = entry.originalSize.toNat
  -- refused for the length of the destination
  swap
  · rw [Fallible.post_congr (readEntryInto_of_length_ne hidx hlimit hdst)]
    exact ⟨.of_nil hinv, rfl, Or.inr (Or.inl ⟨hdst, rfl⟩)⟩
  refine (readEntryInto_run spec.run h hidx hlimit hdst hinv).mono ?_ ?_
  · rintro _ s' ⟨hs', hwhole⟩
    exact ⟨hlimit, hdst, hs', hwhole⟩
  · rintro f s' ⟨hlen, n, hn, hs', herr⟩
    exact ⟨⟨_, by simp; omega, hs'⟩, hlen, Or.inr (Or.inr ⟨hlimit, hdst, n, hn, herr⟩)⟩

end RasenArchive
