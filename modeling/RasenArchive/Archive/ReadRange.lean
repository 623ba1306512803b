import RasenArchive.Archive.RangeLength

/-!
# Reading ranges

The loop of `read_range_index_into`, turn by turn: each chunk is decoded into the scratch space, and
its part of the range is copied from there.

## Main definitions

* `RangeRest`: the chunks that the rest of a range goes through
* `rangePiece`: the part of a range in one of them
* `RangeFault`: how reading a range fails

## Main results

* `WellFormed.rangeRest`: the chunks that a range overlaps are those it goes through
* `RangeRest.left_eq`, `RangeRest.extract_eq`: what a turn of the loop leaves to the next

* `readRangeIndexInto_run`, `readRangeIndexInto_post`: a range is a window of the concatenation of
  its chunks
-/

namespace RasenArchive

variable {D : Dependencies} {W : Type} {R : RandomAccessRead W} {a : Archive}
  {Inv Stop : List ℕ → W → Prop} {Rel : ℕ → Bytes → Prop}
  {Err : ChecksumLabel → ℕ → ℕ → Fault → Prop} (spec : RunSpec D R a Inv Stop Rel Err)
  {entry : Entry} {label : ChecksumLabel} {chunk : Chunk} {l written : ℕ} {s : ReadState W}
  {done : List ℕ}

/-- **The copying part** of a turn writes the window of the decoded chunk. -/
theorem copyRange_apply (s : ReadState W) (written takeStart takeEnd : ℕ)
    (horder : takeStart ≤ takeEnd)
    (hdecoded : takeEnd ≤ s.scratch.decoded.length)
    (hroom : written + (takeEnd - takeStart) ≤ s.dst.length) (hlt : s.dst.length < 2 ^ 64) :
    copyRange written takeStart takeEnd s =
      (.ok (written + (takeEnd - takeStart)),
        ⟨s.source, overwrite s.dst written (s.scratch.decoded.extract takeStart takeEnd),
          s.scratch⟩) := by
  -- the checked sums and slices of the source succeed, in their order
  have hsub : okOr (checkedSub takeEnd takeStart) (.corrupt "range slice order") =
      .ok (takeEnd - takeStart) := okOr_eq_ok_iff.mpr (checkedSub_eq_some_iff.mpr ⟨horder, rfl⟩)
  have hadd : okOr (checkedAdd 64 written (takeEnd - takeStart))
      (.corrupt "range output size overflow") = .ok (written + (takeEnd - takeStart)) :=
    okOr_eq_ok_iff.mpr (checkedAdd_eq_some_iff.mpr ⟨by omega, rfl⟩)
  have hout : okOr (getRange s.dst written (written + (takeEnd - takeStart)))
      (.corrupt "range output size mismatch") =
      .ok (s.dst.extract written (written + (takeEnd - takeStart))) :=
    okOr_eq_ok_iff.mpr (getRange_eq_some_iff.mpr ⟨⟨by omega, hroom⟩, rfl⟩)
  have hdec : okOr (getRange s.scratch.decoded takeStart takeEnd)
      (.corrupt "range chunk slice mismatch") =
      .ok (s.scratch.decoded.extract takeStart takeEnd) :=
    okOr_eq_ok_iff.mpr (getRange_eq_some_iff.mpr ⟨⟨horder, hdecoded⟩, rfl⟩)
  -- the window has the length of the part that is copied
  have hcopy : onWindow written (written + (takeEnd - takeStart))
      (onBytes (copyFromSlice (s.scratch.decoded.extract takeStart takeEnd))) s =
      (.ok (), ⟨s.source, overwrite s.dst written (s.scratch.decoded.extract takeStart takeEnd),
        s.scratch⟩) := by
    have hlen : (s.dst.extract written (written + (takeEnd - takeStart))).length =
        (s.scratch.decoded.extract takeStart takeEnd).length := by
      rw [length_extract hroom, length_extract hdecoded]
      omega
    simp only [onWindow, onBytes, Fallible.focus_apply, copyFromSlice, if_pos hlen]
  unfold copyRange
  rw [Fallible.liftM_bind_of_ok hsub, Fallible.liftM_bind_of_ok hadd, Fallible.gets_bind_apply,
    id, Fallible.liftM_bind_of_ok hout, Fallible.liftM_bind_of_ok hdec,
    Fallible.bind_of_ok hcopy]
  rfl

/-- **One turn** of the loop over a range reads the chunk into the buffer for decoded chunks, and
copies its part of the range from there. -/
theorem readRangeChunk_eq {offset stop : ℕ} (hcount : l < entry.chunkCount.toNat)
    (hglobal : entry.firstChunk.toNat + l < 2 ^ 32)
    (hchunk : a.chunks[entry.firstChunk.toNat + l]? = some chunk)
    (hoffset : offset ≤ l * a.chunkSize.toNat + chunk.originalSize.toNat)
    (hstop : l * a.chunkSize.toNat ≤ stop)
    (hend : l * a.chunkSize.toNat + chunk.originalSize.toNat < 2 ^ 64) :
    readRangeChunk D R a entry label offset stop l written s = (do
      Fallible.modify fun s =>
        { s with scratch.decoded := resize s.scratch.decoded chunk.originalSize.toNat }
      onDecoded (readChunkByIndexInto D R a label l (entry.firstChunk.toNat + l))
      copyRange written (max offset (l * a.chunkSize.toNat) - l * a.chunkSize.toNat)
        (min stop (l * a.chunkSize.toNat + chunk.originalSize.toNat) - l * a.chunkSize.toNat) :
      Fallible (ReadState W) Fault ℕ) s := by
  have hat : chunkAt a (entry.firstChunk.toNat + l) = .ok chunk := okOr_eq_ok_iff.mpr hchunk
  set base := l * a.chunkSize.toNat with hbase
  -- the numbers of the chunk's place in the entry fit 64 bits
  have hmul : okOr (checkedMul 64 l a.chunkSize.toNat) (.corrupt "range chunk offset overflow") =
      .ok base := okOr_eq_ok_iff.mpr (checkedMul_eq_some_iff.mpr ⟨by omega, rfl⟩)
  have hadd : okOr (checkedAdd 64 base chunk.originalSize.toNat)
      (.corrupt "range chunk end overflow") = .ok (base + chunk.originalSize.toNat) :=
    okOr_eq_ok_iff.mpr (checkedAdd_eq_some_iff.mpr ⟨hend, rfl⟩)
  -- the window begins and ends inside the chunk
  have hstart : sub (max offset base) base = .ok (max offset base - base) := sub_of_le (by omega)
  have hstart' : u64ToUsize (max offset base - base) "range slice start" =
      .ok (max offset base - base) := u64ToUsize_eq_ok_iff.mpr ⟨by omega, rfl⟩
  have hstop : sub (min stop (base + chunk.originalSize.toNat)) base =
      .ok (min stop (base + chunk.originalSize.toNat) - base) := sub_of_le (by omega)
  have hstop' : u64ToUsize (min stop (base + chunk.originalSize.toNat) - base)
      "range slice end" = .ok (min stop (base + chunk.originalSize.toNat) - base) :=
    u64ToUsize_eq_ok_iff.mpr ⟨by omega, rfl⟩
  unfold readRangeChunk
  rw [Fallible.liftM_bind_of_ok (ensure_of hcount),
    Fallible.liftM_bind_of_ok (globalChunkOf_of_lt hglobal), Fallible.liftM_bind_of_ok hat,
    Fallible.liftM_bind_of_ok (u64ToUsize_toNat _ _), Fallible.modify_bind_apply,
    Fallible.modify_bind_apply, Fallible.bind_apply, Fallible.bind_apply]
  rcases onDecoded (readChunkByIndexInto D R a label l (entry.firstChunk.toNat + l)) _ with
    ⟨f | ⟨⟨⟩⟩, t⟩
  · -- the chunk was not read
    rfl
  · -- the chunk was read: the numbers are added up behind it in the source, with the same results
    show (liftM (okOr _ _) >>= _ : Fallible (ReadState W) Fault ℕ) t = _
    rw [Fallible.liftM_bind_of_ok hmul, Fallible.liftM_bind_of_ok hadd,
      Fallible.liftM_bind_of_ok hstart, Fallible.liftM_bind_of_ok hstart',
      Fallible.liftM_bind_of_ok hstop, Fallible.liftM_bind_of_ok hstop']

/-! ## What is left of a range -/

/-- From chunk number `l` of the entry on, the chunks `cs` are those that the rest of a range goes
through: all but the last of them are full, and only the last reaches over the end of the range. -/
structure RangeRest (a : Archive) (entry : Entry) (offset stop l : ℕ) (cs rest : List Chunk) :
    Prop where
  drop_eq : a.chunks.drop (entry.firstChunk.toNat + l) = cs ++ rest
  full : ∀ c ∈ cs.dropLast, c.originalSize.toNat = a.chunkSize.toNat
  size_le : ∀ c ∈ cs, c.originalSize.toNat ≤ a.chunkSize.toNat
  count_le : l + cs.length ≤ entry.chunkCount.toNat
  global_le : entry.firstChunk.toNat + l + cs.length ≤ 2 ^ 32
  offset_le : offset ≤ stop
  offset_lt : offset < (l + 1) * a.chunkSize.toNat
  stop_le : stop ≤ l * a.chunkSize.toNat + totalSize cs
  last_lt : (l + cs.length) * a.chunkSize.toNat < stop + a.chunkSize.toNat
  stop_lt : stop + a.chunkSize.toNat ≤ 2 ^ 64

/-- The part of the range from `offset` to `stop` that lies in chunk number `l`, where `d` is the
content of the chunk. -/
def rangePiece (a : Archive) (offset stop l : ℕ) (d : Bytes) : Bytes :=
  d.extract (max offset (l * a.chunkSize.toNat) - l * a.chunkSize.toNat)
    (min stop (l * a.chunkSize.toNat + d.length) - l * a.chunkSize.toNat)

section Rest

variable {offset stop : ℕ} {c : Chunk} {cs rest : List Chunk} {d data : Bytes}

theorem length_rangePiece : (rangePiece a offset stop l d).length =
    min stop (l * a.chunkSize.toNat + d.length) - max offset (l * a.chunkSize.toNat) := by
  rw [rangePiece, length_extract (by omega)]
  omega

/-- The chunks that a range overlaps are those it goes through. -/
theorem WellFormed.rangeRest (h : WellFormed D a) (he : entry ∈ a.entries) (horder : offset < stop)
    (hstop : stop ≤ entry.originalSize.toNat) :
    ∃ cs rest, cs.length = touched a.chunkSize.toNat offset (stop - offset) ∧
      RangeRest a entry offset stop (offset / a.chunkSize.toNat) cs rest := by
  obtain ⟨hrange, hlen, -, -, -⟩ := h.ownedChunks_spec he
  obtain ⟨hlast, hcslen, hfull, hsize, hreach⟩ := h.touchedChunks_spec he horder hstop rfl
  have hn := h.chunkSize_pos
  have hnle := h.chunkSize_le
  have hmax := h.originalSize_le he
  have hchunks := h.chunks_lt
  have hbig : ArchiveLimits.hardMaxTotalDecompressedBytes + maxChunkSize ≤ 2 ^ 63 := by decide
  set first := offset / a.chunkSize.toNat
  set last := (stop - 1) / a.chunkSize.toNat
  have hfirst : first ≤ last := Nat.div_le_div_right (by omega)
  refine ⟨_, _, ?_, entry.drop_eq_touchedChunks_append hfirst (by omega), hfull, hsize, by omega,
    by omega, horder.le, ?_, hreach, ?_, by omega⟩
  · rw [touched, if_neg (by omega), hcslen, Nat.add_sub_cancel' horder.le]
  · rw [Nat.succ_mul]
    exact Nat.lt_div_mul_add hn
  · have hle : last * a.chunkSize.toNat ≤ stop - 1 := Nat.div_mul_le_self _ _
    rw [hcslen, show first + (last + 1 - first) = last + 1 by omega, Nat.succ_mul]
    omega

section Cons

variable (h : RangeRest a entry offset stop l (c :: cs) rest)

include h

theorem RangeRest.getElem?_eq : a.chunks[entry.firstChunk.toNat + l]? = some c :=
  getElem?_of_drop_eq h.drop_eq

/-- The range goes on behind a chunk only when the chunk is full. -/
theorem RangeRest.cases :
    cs = [] ∨ (c.originalSize.toNat = a.chunkSize.toNat ∧ (l + 1) * a.chunkSize.toNat < stop ∧
      ∀ c ∈ cs.dropLast, c.originalSize.toNat = a.chunkSize.toNat) := by
  rcases List.eq_nil_or_concat cs with hnil | ⟨cs', d, rfl⟩
  · exact Or.inl hnil
  have hfull := h.full
  rw [List.dropLast_cons_of_ne_nil (by simp), List.forall_mem_cons] at hfull
  have hmono : (l + 2) * a.chunkSize.toNat ≤
      (l + (c :: cs'.concat d).length) * a.chunkSize.toNat :=
    Nat.mul_le_mul_right _ (by simp)
  have hsucc : (l + 2) * a.chunkSize.toNat =
      (l + 1) * a.chunkSize.toNat + a.chunkSize.toNat := by ring
  have hlast := h.last_lt
  exact Or.inr ⟨hfull.1, by omega, hfull.2⟩

/-- A chunk that the range goes through begins before the end of the range, and ends behind its
beginning. -/
theorem RangeRest.reach :
    offset ≤ l * a.chunkSize.toNat + c.originalSize.toNat ∧ l * a.chunkSize.toNat ≤ stop ∧
      l * a.chunkSize.toNat + c.originalSize.toNat < 2 ^ 64 := by
  have hstop := h.stop_le
  have hlast := h.last_lt
  have hoffset := h.offset_lt
  have hbound := h.stop_lt
  have horder := h.offset_le
  have hsize := h.size_le c List.mem_cons_self
  have hmono : (l + 1) * a.chunkSize.toNat ≤ (l + (c :: cs).length) * a.chunkSize.toNat :=
    Nat.mul_le_mul_right _ (by simp)
  have hsucc : (l + 1) * a.chunkSize.toNat = l * a.chunkSize.toNat + a.chunkSize.toNat := by ring
  rw [totalSize_cons] at hstop
  rcases h.cases with rfl | ⟨hfull, hgo, -⟩
  · rw [totalSize_nil] at hstop
    omega
  · omega

/-- What is left behind a chunk. -/
theorem RangeRest.tail : RangeRest a entry offset stop (l + 1) cs rest := by
  have hcount := h.count_le
  have hglobal := h.global_le
  have hstop := h.stop_le
  have hlast := h.last_lt
  have hsucc : (l + 1) * a.chunkSize.toNat = l * a.chunkSize.toNat + a.chunkSize.toNat := by ring
  rw [List.length_cons] at hcount hglobal
  rw [totalSize_cons] at hstop
  refine ⟨?_, ?_, fun c hc => h.size_le c (List.mem_cons_of_mem _ hc), by omega, by omega,
    h.offset_le, h.offset_lt.trans_le (Nat.mul_le_mul_right _ (by omega)), ?_, ?_, h.stop_lt⟩
  · exact drop_succ_of_drop_eq h.drop_eq
  · rcases h.cases with rfl | ⟨-, -, hfull⟩
    · simp
    · exact hfull
  · have hsize := h.size_le c List.mem_cons_self
    omega
  · rwa [List.length_cons, show l + (cs.length + 1) = l + 1 + cs.length by omega] at hlast

variable (hd : d.length = c.originalSize.toNat)

include hd

/-- The part in a chunk and what is left behind it are what is left in front of it. -/
theorem RangeRest.left_eq : stop - max offset (l * a.chunkSize.toNat) =
    (rangePiece a offset stop l d).length + (stop - max offset ((l + 1) * a.chunkSize.toNat)) := by
  have hstop := h.stop_le
  have horder := h.offset_le
  have hoffset := h.offset_lt
  have hreach := h.reach
  have hsize := h.size_le c List.mem_cons_self
  have hsucc : (l + 1) * a.chunkSize.toNat = l * a.chunkSize.toNat + a.chunkSize.toNat := by ring
  rw [totalSize_cons] at hstop
  rw [length_rangePiece, hd]
  -- the last chunk of the range, or a full one that the range goes beyond
  rcases h.cases with rfl | ⟨hfull, hgo, -⟩
  · rw [totalSize_nil] at hstop
    omega
  · omega

/-- The rest of a range in the data of its chunks. -/
theorem RangeRest.extract_eq (hdata : data.length = totalSize cs) :
    (d ++ data).extract (max offset (l * a.chunkSize.toNat) - l * a.chunkSize.toNat)
        (stop - l * a.chunkSize.toNat) =
      rangePiece a offset stop l d ++
        data.extract (max offset ((l + 1) * a.chunkSize.toNat) - (l + 1) * a.chunkSize.toNat)
          (stop - (l + 1) * a.chunkSize.toNat) := by
  have hreach := h.reach
  have hoffset := h.offset_lt
  have hsucc : (l + 1) * a.chunkSize.toNat = l * a.chunkSize.toNat + a.chunkSize.toNat := by ring
  rw [extract_append, ← extract_min_length (j := stop - _), rangePiece]
  congr 1
  · -- the front of the data is the content of this chunk
    congr 1
    omega
  · -- behind it, the range goes on at the front of the next one
    rcases h.cases with rfl | ⟨hfull, hgo, -⟩
    · rw [totalSize_nil, List.length_eq_zero_iff] at hdata
      simp [hdata]
    · congr 1 <;> omega

/-- **A turn for a chunk that was read** copies its part of the range. -/
theorem RangeRest.copyRange_eq {w : W} {dst stored : Bytes} (hlt : dst.length < 2 ^ 64)
    (hroom : written + (rangePiece a offset stop l d).length ≤ dst.length) :
    copyRange written (max offset (l * a.chunkSize.toNat) - l * a.chunkSize.toNat)
        (min stop (l * a.chunkSize.toNat + c.originalSize.toNat) - l * a.chunkSize.toNat)
        ⟨w, dst, ⟨stored, d⟩⟩ =
      (.ok (written + (rangePiece a offset stop l d).length),
        ⟨w, overwrite dst written (rangePiece a offset stop l d), ⟨stored, d⟩⟩) := by
  have hreach := h.reach
  have hoffset := h.offset_lt
  have horder := h.offset_le
  have hleft := h.left_eq hd
  have hlen := @length_rangePiece a l offset stop d
  rw [hd] at hlen
  have hlength : min stop (l * a.chunkSize.toNat + c.originalSize.toNat) - l * a.chunkSize.toNat -
      (max offset (l * a.chunkSize.toNat) - l * a.chunkSize.toNat) =
        (rangePiece a offset stop l d).length := by omega
  have hcopy := copyRange_apply ⟨w, dst, ⟨stored, d⟩⟩ written
    (max offset (l * a.chunkSize.toNat) - l * a.chunkSize.toNat)
    (min stop (l * a.chunkSize.toNat + c.originalSize.toNat) - l * a.chunkSize.toNat)
    (by omega) (by simp only [hd]; omega) (by simp only; omega) hlt
  rw [hcopy, hlength, rangePiece, hd]

omit hd

/-- **One turn** for a chunk that the range goes through. -/
theorem RangeRest.turn_eq :
    readRangeChunk D R a entry label offset stop l written s = (do
      Fallible.modify fun s =>
        { s with scratch.decoded := resize s.scratch.decoded c.originalSize.toNat }
      onDecoded (readChunkByIndexInto D R a label l (entry.firstChunk.toNat + l))
      copyRange written (max offset (l * a.chunkSize.toNat) - l * a.chunkSize.toNat)
        (min stop (l * a.chunkSize.toNat + c.originalSize.toNat) - l * a.chunkSize.toNat) :
      Fallible (ReadState W) Fault ℕ) s := by
  obtain ⟨hoffset, hstop, hend⟩ := h.reach
  have hcount := h.count_le
  have hglobal := h.global_le
  rw [List.length_cons] at hcount hglobal
  exact readRangeChunk_eq (by omega) (by omega) h.getElem?_eq hoffset hstop hend

end Cons

/-! ## The loop -/

include spec in
theorem readRangeChunk_post (hlimit : 1 ≤ a.maxChunksPerOperation)
    (h : RangeRest a entry offset stop l (c :: cs) rest)
    (hroom : written + (stop - max offset (l * a.chunkSize.toNat)) = s.dst.length)
    (hlt : s.dst.length < 2 ^ 64) (hinv : Inv done s.source) :
    Fallible.Post (readRangeChunk D R a entry label offset stop l written) s
      (fun r s' => Inv (done ++ [entry.firstChunk.toNat + l]) s'.source ∧
        ∃ d, Rel (entry.firstChunk.toNat + l) d ∧
          r = written + (rangePiece a offset stop l d).length ∧
          s'.dst = overwrite s.dst written (rangePiece a offset stop l d))
      (fun f s' => Stop (done ++ [entry.firstChunk.toNat + l]) s'.source ∧
        s'.dst.length = s.dst.length ∧ Err label l (entry.firstChunk.toNat + l) f) := by
  rw [Fallible.post_congr h.turn_eq, Fallible.post_bind, Fallible.post_modify, Fallible.post_bind,
    onDecoded, Fallible.post_focus]
  -- the buffer is resized to the chunk, so any scratch space will do
  refine (spec.read hlimit h.getElem?_eq (length_resize _ _) hinv).mono ?_ ?_
  · rintro _ t ⟨ht, hrel⟩
    have hlen := spec.length_eq h.getElem?_eq hrel
    have hleft := h.left_eq hlen
    unfold Fallible.Post
    rw [h.copyRange_eq hlen hlt (by omega)]
    exact ⟨ht, t.dst, hrel, rfl, rfl⟩
  · rintro f t ⟨ht, hlen, herr⟩
    exact ⟨ht, rfl, herr⟩

include spec in
/-- **The loop over a range** appends the windows of its chunks: all of the data from the first of
them on, up to the end of the range. -/
theorem readRangeChunks_post (h : RangeRest a entry offset stop l cs rest)
    (hlimit : cs.length ≤ a.maxChunksPerOperation)
    (hroom : written + (stop - max offset (l * a.chunkSize.toNat)) = s.dst.length)
    (hlt : s.dst.length < 2 ^ 64) (hinv : Inv done s.source) :
    Fallible.Post (readRangeChunks D R a entry label offset stop cs.length l written) s
      (fun r s' => r = s.dst.length ∧
        Inv (done ++ List.range' (entry.firstChunk.toNat + l) cs.length) s'.source ∧
        ∃ ds, List.Forall₂ Rel (List.range' (entry.firstChunk.toNat + l) cs.length) ds ∧
          s'.dst = overwrite s.dst written
            (ds.flatten.extract (max offset (l * a.chunkSize.toNat) - l * a.chunkSize.toNat)
              (stop - l * a.chunkSize.toNat)))
      (fun f s' => s'.dst.length = s.dst.length ∧ ∃ n, n < cs.length ∧
        Stop (done ++ List.range' (entry.firstChunk.toNat + l) (n + 1)) s'.source ∧
        FirstErr Rel Err entry l label (l + n) (entry.firstChunk.toNat + (l + n)) f) := by
  -- induction over the chunks that are left, with what was written and recorded so far
  induction cs generalizing l written s done with
  -- the range ends here
  | nil =>
    have hstop := h.stop_le
    rw [totalSize_nil] at hstop
    refine ⟨by omega, ?_, [], .nil, ?_⟩
    · simpa using hinv
    · simp [overwrite]
  | cons c cs ih =>
    rw [List.length_cons] at hlimit
    rw [List.length_cons, readRangeChunks]
    refine ((readRangeChunk_post spec (by omega) h hroom hlt hinv).mono
      (fun _ _ hQ => hQ) ?_).bind ?_
    · -- the first chunk fails
      rintro f s' ⟨hs', hlen, herr⟩
      exact ⟨hlen, 0, by omega, hs', herr, fun j hl hj => by omega⟩
    · -- the part in the first chunk is written, and the others behind it
      rintro r s' ⟨hs', d, hd, rfl, hdst⟩
      have hdlen := spec.length_eq h.getElem?_eq hd
      have hleft := h.left_eq hdlen
      have hlen : s'.dst.length = s.dst.length := by
        rw [hdst, length_overwrite]
        omega
      refine (ih h.tail (by omega) (by omega) (by omega) hs').mono ?_ ?_
      · rintro r' t ⟨rfl, ht, ds, hds, htdst⟩
        have hflat := spec.length_flatten h.tail.drop_eq hds
        rw [← Nat.add_assoc] at ht hds
        rw [append_range'] at ht
        refine ⟨hlen, ht, d :: ds, ?_, ?_⟩
        · rw [List.range'_succ]
          exact .cons hd hds
        · -- two writes one behind the other are one write of both
          rw [List.flatten_cons, h.extract_eq hdlen hflat, htdst, hdst,
            overwrite_overwrite (by omega)]
      · rintro f t ⟨htlen, n, hn, ht, herr⟩
        rw [← Nat.add_assoc, append_range'] at ht
        exact ⟨htlen.trans hlen, n + 1, by omega, ht, herr.behind hd⟩

end Rest

/-- How reading a range fails: at a chunk that it overlaps. -/
def RangeFault (a : Archive) (Err : ChecksumLabel → ℕ → ℕ → Fault → Prop) (entry : Entry)
    (label : ChecksumLabel) (offset len : ℕ) (f : Fault) : Prop :=
  ∃ i, offset / a.chunkSize.toNat ≤ i ∧
    i < offset / a.chunkSize.toNat + touched a.chunkSize.toNat offset len ∧
    Err label i (entry.firstChunk.toNat + i) f

theorem RangeFault.mono {Err' : ChecksumLabel → ℕ → ℕ → Fault → Prop} {offset len : ℕ} {f : Fault}
    (h : RangeFault a Err entry label offset len f)
    (himp : ∀ l g, Err label l g f → Err' label l g f) :
    RangeFault a Err' entry label offset len f := by
  obtain ⟨i, hfrom, hto, herr⟩ := h
  exact ⟨i, hfrom, hto, himp _ _ herr⟩

/-- **Reading a range** into a destination that is not empty is the loop over the chunks that it
overlaps. -/
theorem readRangeIndexInto_eq (h : WellFormed D a) {idx offset : ℕ}
    (hidx : a.entries[idx]? = some entry)
    (hstop : offset + s.dst.length ≤ entry.originalSize.toNat) (hne : s.dst ≠ []) :
    readRangeIndexInto D R a idx label offset s = (do
      let written ← readRangeChunks D R a entry label offset (offset + s.dst.length)
        (touched a.chunkSize.toNat offset s.dst.length) (offset / a.chunkSize.toNat) 0
      let s ← Fallible.gets id
      ensure (written = s.dst.length) (.corrupt "range decompressed size mismatch") :
        Fallible (ReadState W) Fault Unit) s := by
  have hpos := List.length_pos_iff.mpr hne
  have hn := h.chunkSize_pos
  obtain ⟨hlast, -⟩ := h.touchedChunks_spec (List.mem_of_getElem? hidx)
    (show offset < offset + s.dst.length by omega) hstop rfl
  have hcount := entry.chunkCount.toNat_lt
  have hsize := entry.originalSize.toNat_lt
  set stop := offset + s.dst.length
  have hfirst : offset / a.chunkSize.toNat ≤ (stop - 1) / a.chunkSize.toNat :=
    Nat.div_le_div_right (by omega)
  -- the conversions and sums of the source succeed, in their order
  have hu : usizeToU64 s.dst.length "range length" = .ok s.dst.length :=
    usizeToU64_eq_ok_iff.mpr ⟨by omega, rfl⟩
  have hadd : okOr (checkedAdd 64 offset s.dst.length) .invalidRange = .ok stop :=
    okOr_eq_ok_iff.mpr (checkedAdd_eq_some_iff.mpr ⟨by omega, rfl⟩)
  have hfrom : okOr (tryFrom 32 (offset / a.chunkSize.toNat)) (.tooLarge "range chunk index") =
      .ok (offset / a.chunkSize.toNat) := okOr_eq_ok_iff.mpr (tryFrom_eq_some_iff.mpr ⟨by omega, rfl⟩)
  have hto : okOr (tryFrom 32 ((stop - 1) / a.chunkSize.toNat)) (.tooLarge "range chunk index") =
      .ok ((stop - 1) / a.chunkSize.toNat) :=
    okOr_eq_ok_iff.mpr (tryFrom_eq_some_iff.mpr ⟨by omega, rfl⟩)
  have htouched : touched a.chunkSize.toNat offset s.dst.length =
      (stop - 1) / a.chunkSize.toNat + 1 - offset / a.chunkSize.toNat := if_neg (by omega)
  -- the empty destination is returned before any of them
  unfold readRangeIndexInto
  rw [Fallible.gets_bind_apply, id, if_neg hne, readNonemptyRange,
    Fallible.liftM_bind_of_ok (index_eq_ok_iff.mpr hidx), Fallible.gets_bind_apply, id,
    Fallible.liftM_bind_of_ok hu, Fallible.liftM_bind_of_ok hadd,
    Fallible.liftM_bind_of_ok (div_of_pos hn), Fallible.liftM_bind_of_ok hfrom,
    Fallible.liftM_bind_of_ok (sub_of_le (by omega : 1 ≤ stop)),
    Fallible.liftM_bind_of_ok (div_of_pos hn), Fallible.liftM_bind_of_ok hto, htouched]

theorem readRangeIndexInto_nil {idx offset : ℕ} (hnil : s.dst = []) :
    readRangeIndexInto D R a idx label offset s = (.ok (), s) := by
  unfold readRangeIndexInto
  rw [Fallible.gets_bind_apply, id, if_pos hnil]
  rfl

include spec in
/-- **Reading a range** gives the window of the concatenation of the chunks that it overlaps. -/
theorem readRangeIndexInto_run (h : WellFormed D a) {idx offset : ℕ}
    (hidx : a.entries[idx]? = some entry)
    (hstop : offset + s.dst.length ≤ entry.originalSize.toNat)
    (hlimit : touched a.chunkSize.toNat offset s.dst.length ≤ a.maxChunksPerOperation)
    (hinv : Inv [] s.source) :
    Fallible.Post (readRangeIndexInto D R a idx label offset) s
      (fun _ s' => Inv (touchedNumbers a entry offset s.dst.length) s'.source ∧
        s'.dst.length = s.dst.length ∧ IsRange a Rel entry offset s.dst.length s'.dst)
      (fun f s' => s'.dst.length = s.dst.length ∧
        ∃ n, n < touched a.chunkSize.toNat offset s.dst.length ∧
          Stop (List.range' (entry.firstChunk.toNat + offset / a.chunkSize.toNat) (n + 1))
            s'.source ∧
          FirstErr Rel Err entry (offset / a.chunkSize.toNat) label
            (offset / a.chunkSize.toNat + n)
            (entry.firstChunk.toNat + (offset / a.chunkSize.toNat + n)) f) := by
  have he := List.mem_of_getElem? hidx
  -- nothing is asked for, and no chunk is touched
  by_cases hempty : s.dst = []
  · rw [Fallible.post_congr (readRangeIndexInto_nil hempty)]
    exact ⟨by simpa [hempty, touchedNumbers, touched] using hinv, rfl, [],
      by simp [hempty, touched], by simp [hempty]⟩
  have hpos := List.length_pos_iff.mpr hempty
  obtain ⟨cs, rest, hcs, hrest⟩ :=
    h.rangeRest he (show offset < offset + s.dst.length by omega) hstop
  have hsize := entry.originalSize.toNat_lt
  -- the first chunk touched begins in front of the range
  have hbase : offset / a.chunkSize.toNat * a.chunkSize.toNat + offset % a.chunkSize.toNat =
      offset := Nat.div_add_mod' _ _
  rw [Nat.add_sub_cancel_left] at hcs
  rw [Fallible.post_congr (readRangeIndexInto_eq h hidx hstop hempty), ← hcs]
  refine ((readRangeChunks_post spec hrest (by omega) (by omega) (by omega) hinv).mono
    (fun _ _ hQ => hQ) ?_).bind ?_
  · rintro f s' ⟨hslen, n, hn, hs', herr⟩
    exact ⟨hslen, n, hn, hs', herr⟩
  · rintro r s' ⟨rfl, hs', ds, hds, hdst⟩
    have hflat := spec.length_flatten hrest.drop_eq hds
    have hreach := hrest.stop_le
    -- the numbers of the range are counted from the beginning of that chunk
    have hfrom : max offset (offset / a.chunkSize.toNat * a.chunkSize.toNat) -
        offset / a.chunkSize.toNat * a.chunkSize.toNat = offset % a.chunkSize.toNat := by omega
    have hto : offset + s.dst.length - offset / a.chunkSize.toNat * a.chunkSize.toNat =
        offset % a.chunkSize.toNat + s.dst.length := by omega
    have hwindow : s'.dst = ds.flatten.extract (offset % a.chunkSize.toNat)
        (offset % a.chunkSize.toNat + s.dst.length) := by
      rw [hdst, hfrom, hto, overwrite_of_length_eq]
      rw [length_extract (by omega)]
      omega
    rw [Fallible.post_bind, Fallible.post_gets, id, Fallible.post_liftM]
    -- the length check behind the loop passes
    have hwhole : s'.dst.length = s.dst.length := by
      rw [hwindow, length_extract (by omega)]
      omega
    rw [List.nil_append, hcs] at hs'
    refine ⟨fun _ _ => ⟨hs', hwhole, ds, hcs ▸ hds, hwindow⟩, fun f hf => ?_⟩
    rw [ensure_of hwhole.symm] at hf
    cases hf

theorem readRangeIndexInto_post (spec : TraceSpec D R a Inv Rel Err) (h : WellFormed D a)
    {idx offset : ℕ} (hidx : a.entries[idx]? = some entry)
    (hstop : offset + s.dst.length ≤ entry.originalSize.toNat)
    (hlimit : touched a.chunkSize.toNat offset s.dst.length ≤ a.maxChunksPerOperation)
    (hinv : Inv [] s.source) :
    Fallible.Post (readRangeIndexInto D R a idx label offset) s
      (fun _ s' => Inv (touchedNumbers a entry offset s.dst.length) s'.source ∧
        s'.dst.length = s.dst.length ∧ IsRange a Rel entry offset s.dst.length s'.dst)
      (fun f s' => Bounded a Inv s'.source ∧ s'.dst.length = s.dst.length ∧
        RangeFault a (FirstErr Rel Err entry (offset / a.chunkSize.toNat)) entry label offset
          s.dst.length f) := by
  refine (readRangeIndexInto_run spec.run h hidx hstop hlimit hinv).mono (fun _ _ hQ => hQ) ?_
  rintro f s' ⟨hlen, n, hn, hs', herr⟩
  exact ⟨⟨_, by simp; omega, hs'⟩, hlen, _, Nat.le_add_right _ _, by omega, herr⟩

end RasenArchive
