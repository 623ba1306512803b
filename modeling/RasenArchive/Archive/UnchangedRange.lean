import RasenArchive.Archive.Unchanged

/-!
# What a failed read of a range leaves in its destination

A range is read chunk by chunk into the scratch space, and only a chunk that was read to the end is
copied. So the destination is written to by the chunks in front of the one that fails. This module
says, for one call with its destination and its scratch space, exactly when the destination holds
behind the call what it held in front of it, unless the call succeeds and the number of its bytes
is stored.

## Main definitions

* `RangeReads`: the chunks of a range read back one after the other
* `RangeInPlace`: what a range copies stands in the destination already
* `RangeUnchanged`: the calls that leave the destination as it is unless they succeed

## Main results

* `readRangeChunks_spares_iff`: the loop over a range
* `readRangeIntoFound_spares_iff`: when reading a range leaves the destination as it is
-/

namespace RasenArchive

variable (D : Dependencies) {W : Type} (R : RandomAccessRead W) (a : Archive)

/-! ## Definitions -/

/-- So many chunks of an entry, from number `l` on, read back one after the other into the scratch
space. -/
def RangeReads (entry : Entry) : (turns l : ℕ) → W → ArchiveScratch → Prop
  | 0, _, _, _ => True
  | turns + 1, l, w, scratch => ∃ chunk t, a.chunks[entry.firstChunk.toNat + l]? = some chunk ∧
      ReadsBack D R a (entry.firstChunk.toNat + l)
        ⟨w, resize scratch.decoded chunk.originalSize.toNat, scratch.stored⟩ t ∧
      RangeReads entry turns (l + 1) t.source ⟨t.stored, t.dst⟩

/-- Up to the first chunk that does not read back, the parts of a range in so many chunks of an
entry, from number `l` on, stand already in the bytes `rest` of the destination. -/
def RangeInPlace (entry : Entry) (offset stop : ℕ) :
    (turns l : ℕ) → (rest : Bytes) → W → ArchiveScratch → Prop
  | 0, _, _, _, _ => True
  | turns + 1, l, rest, w, scratch => ∃ chunk,
      a.chunks[entry.firstChunk.toNat + l]? = some chunk ∧
      ∀ t, ReadsBack D R a (entry.firstChunk.toNat + l)
          ⟨w, resize scratch.decoded chunk.originalSize.toNat, scratch.stored⟩ t →
        rangePiece a offset stop l t.dst <+: rest ∧
        RangeInPlace entry offset stop turns (l + 1)
          (rest.drop (rangePiece a offset stop l t.dst).length) t.source ⟨t.stored, t.dst⟩

/-- **Reading a range of an entry** leaves the destination as it is, unless it succeeds where `c`
holds: it is refused, or its chunks read back and `c` holds, or what is copied up to the first chunk
that fails stands in the destination already. -/
def RangeUnchanged (entry : Entry) (offset : ℕ) (c : Prop) (s : ReadState W) : Prop :=
  ∀ n, RangeAccepted a entry offset s.dst.length false n →
    (c ∧ RangeReads D R a entry (touched a.chunkSize.toNat offset n) (offset / a.chunkSize.toNat)
      s.source s.scratch) ∨
    RangeInPlace D R a entry offset (offset + n) (touched a.chunkSize.toNat offset n)
      (offset / a.chunkSize.toNat) (s.dst.take n) s.source s.scratch

/-! ## The loop -/

section Range

variable {D R a} {entry : Entry} {idx offset stop l written n : ℕ} {label : ChecksumLabel}
  {c : Chunk} {cs rest : List Chunk} {s : ReadState W}

/-- The copying part of a turn keeps what is in front of it. -/
theorem copyRange_keeps {takeStart takeEnd : ℕ} (hn : n ≤ written) :
    Fallible.Post (copyRange written takeStart takeEnd) s
      (fun r s' => n ≤ r ∧ s'.dst.take n = s.dst.take n)
      (fun _ s' => s'.dst.take n = s.dst.take n) := by
  unfold copyRange
  refine (Fallible.post_liftM_bind _).mpr ⟨fun amount _ => ?_, fun _ _ => rfl⟩
  refine (Fallible.post_liftM_bind _).mpr ⟨fun writtenEnd _ => ?_, fun _ _ => rfl⟩
  rw [Fallible.post_bind, Fallible.post_gets, id]
  refine (Fallible.post_liftM_bind _).mpr ⟨fun window hwindow => ?_, fun _ _ => rfl⟩
  refine (Fallible.post_liftM_bind _).mpr ⟨fun decoded _ => ?_, fun _ _ => rfl⟩
  rw [okOr_eq_ok_iff, getRange_eq_some_iff] at hwindow
  obtain ⟨⟨horder, hroom⟩, -⟩ := hwindow
  rw [Fallible.post_bind, onWindow, Fallible.post_focus, Fallible.post_iff]
  have hkept : ∀ t : BlockState W, (overwrite s.dst written t.dst).take n = s.dst.take n :=
    fun t => take_overwrite_of_le hn (horder.trans hroom)
  exact ⟨fun _ t _ => ⟨hn.trans horder, hkept t⟩, fun _ t _ => hkept t⟩

/-- A turn of the loop over a range keeps what is in front of it. -/
theorem readRangeChunk_keeps (hn : n ≤ written) :
    Fallible.Post (readRangeChunk D R a entry label offset stop l written) s
      (fun r s' => n ≤ r ∧ s'.dst.take n = s.dst.take n)
      (fun _ s' => s'.dst.take n = s.dst.take n) := by
  unfold readRangeChunk
  refine (Fallible.post_liftM_bind _).mpr ⟨fun _ _ => ?_, fun _ _ => rfl⟩
  refine (Fallible.post_liftM_bind _).mpr ⟨fun g _ => ?_, fun _ _ => rfl⟩
  refine (Fallible.post_liftM_bind _).mpr ⟨fun chunk _ => ?_, fun _ _ => rfl⟩
  refine (Fallible.post_liftM_bind _).mpr ⟨fun len _ => ?_, fun _ _ => rfl⟩
  rw [Fallible.post_bind, Fallible.post_modify, Fallible.post_bind, onDecoded, Fallible.post_focus,
    Fallible.post_iff]
  -- the chunk goes to the scratch space, and only the copy touches the destination
  refine ⟨fun _ t _ => ?_, fun _ t _ => rfl⟩
  refine (Fallible.post_liftM_bind _).mpr ⟨fun chunkStart _ => ?_, fun _ _ => rfl⟩
  refine (Fallible.post_liftM_bind _).mpr ⟨fun chunkEnd _ => ?_, fun _ _ => rfl⟩
  refine (Fallible.post_liftM_bind _).mpr ⟨fun takeStart _ => ?_, fun _ _ => rfl⟩
  refine (Fallible.post_liftM_bind _).mpr ⟨fun takeStart' _ => ?_, fun _ _ => rfl⟩
  refine (Fallible.post_liftM_bind _).mpr ⟨fun takeEnd _ => ?_, fun _ _ => rfl⟩
  refine (Fallible.post_liftM_bind _).mpr ⟨fun takeEnd' _ => ?_, fun _ _ => rfl⟩
  exact copyRange_keeps hn

/-- The loop over a range keeps what is in front of it. -/
theorem readRangeChunks_keeps {turns : ℕ} (hn : n ≤ written) :
    (readRangeChunks D R a entry label offset stop turns l written s).2.dst.take n =
      s.dst.take n := by
  induction turns generalizing l written s with
  | zero => rfl
  | succ turns ih =>
    have hturn : Fallible.Post (readRangeChunk D R a entry label offset stop l written) s _ _ :=
      readRangeChunk_keeps hn
    rw [readRangeChunks]
    rcases hrun : readRangeChunk D R a entry label offset stop l written s with ⟨f | r, s₁⟩
    · rw [Fallible.bind_of_error hrun]
      exact hturn.of_error hrun
    · obtain ⟨hr, hkept⟩ := hturn.of_ok hrun
      rw [Fallible.bind_of_ok hrun, ih hr]
      exact hkept

/-- **A turn** of the loop over a range: the chunk fails and the destination is left alone, or it
reads back and its part of the range is copied. -/
theorem readRangeChunk_cases (hlimit : 1 ≤ a.maxChunksPerOperation)
    (h : RangeRest a entry offset stop l (c :: cs) rest)
    (hroom : written + (stop - max offset (l * a.chunkSize.toNat)) = s.dst.length)
    (hlt : s.dst.length < 2 ^ 64) :
    ∃ buffer : BlockState W, buffer = ⟨s.source, resize s.scratch.decoded c.originalSize.toNat,
        s.scratch.stored⟩ ∧
      ((∃ f, ∃ t : BlockState W, readRangeChunk D R a entry label offset stop l written s =
            (.error f, ⟨t.source, s.dst, ⟨t.stored, t.dst⟩⟩) ∧
          ∀ t', ¬ ReadsBack D R a (entry.firstChunk.toNat + l) buffer t') ∨
        ∃ t : BlockState W, t.dst.length = c.originalSize.toNat ∧
          readRangeChunk D R a entry label offset stop l written s =
            (.ok (written + (rangePiece a offset stop l t.dst).length),
              ⟨t.source, overwrite s.dst written (rangePiece a offset stop l t.dst),
                ⟨t.stored, t.dst⟩⟩) ∧
          ∀ t', ReadsBack D R a (entry.firstChunk.toNat + l) buffer t' ↔ t' = t) := by
  set buffer : BlockState W :=
    -- the decoded scratch space, which the chunk is read into
    ⟨s.source, resize s.scratch.decoded c.originalSize.toNat, s.scratch.stored⟩ with hbuffer
  have hlen : buffer.dst.length = c.originalSize.toNat := length_resize _ _
  -- what happens there is known of single chunks
  have hok : ∀ t, readChunkByIndexInto D R a label l (entry.firstChunk.toNat + l) buffer =
      (.ok (), t) ↔ ReadsBack D R a (entry.firstChunk.toNat + l) buffer t := fun t =>
    readChunkByIndexInto_eq_ok_iff hlimit h.getElem?_eq hlen
  have hpost : Fallible.Post (readChunkByIndexInto D R a label l (entry.firstChunk.toNat + l))
      buffer _ _ := readChunkByIndexInto_post hlimit h.getElem?_eq hlen
  -- the turn resizes the scratch space and reads into it
  have hturn : readRangeChunk D R a entry label offset stop l written s = _ := h.turn_eq
  rw [Fallible.modify_bind_apply, Fallible.bind_apply, onDecoded, Fallible.focus_apply] at hturn
  simp only [← hbuffer] at hturn
  refine ⟨buffer, rfl, ?_⟩
  rcases hrun : readChunkByIndexInto D R a label l (entry.firstChunk.toNat + l) buffer with
    ⟨f | ⟨⟨⟩⟩, t⟩
  · rw [hrun] at hturn hok
    refine Or.inl ⟨f, t, hturn, fun t' ht' => ?_⟩
    cases (hok t').mpr ht'
  · -- the part of the range is copied behind what was written
    have ht := (hpost.of_ok hrun).length_eq
    have hleft := h.left_eq ht
    rw [hrun] at hturn hok
    refine Or.inr ⟨t, ht, hturn.trans (h.copyRange_eq ht hlt (by omega)), fun t' => ?_⟩
    rw [← hok t']
    simp [eq_comm]

/-- **The loop over a range** leaves the destination as it is, unless it succeeds where `p` holds,
exactly where the parts of the range stand there already. -/
theorem readRangeChunks_spares_iff {p : Prop} (h : RangeRest a entry offset stop l cs rest)
    (hlimit : cs.length ≤ a.maxChunksPerOperation)
    (hroom : written + (stop - max offset (l * a.chunkSize.toNat)) = s.dst.length)
    (hlt : s.dst.length < 2 ^ 64) :
    ((∃ r, (readRangeChunks D R a entry label offset stop cs.length l written s).1 = .ok r) ↔
      RangeReads D R a entry cs.length l s.source s.scratch) ∧
    (Fallible.Spares p ReadState.dst
        (readRangeChunks D R a entry label offset stop cs.length l written) s ↔
      (p ∧ ∃ r, (readRangeChunks D R a entry label offset stop cs.length l written s).1 = .ok r) ∨
        RangeInPlace D R a entry offset stop cs.length l (s.dst.drop written) s.source
          s.scratch) := by
  induction cs generalizing l written s with
  | nil =>
    have hrun : readRangeChunks D R a entry label offset stop 0 l written s = (.ok written, s) :=
      rfl
    exact ⟨⟨fun _ => trivial, fun _ => ⟨written, by rw [List.length_nil, hrun]⟩⟩,
      fun _ => Or.inr trivial, fun _ => .of_kept (by rw [List.length_nil, hrun])⟩
  | cons c cs ih =>
    rw [List.length_cons] at hlimit
    rw [List.length_cons, readRangeChunks]
    have hc := h.getElem?_eq
    obtain ⟨buffer, rfl, ⟨f, t, hturn, hnot⟩ | ⟨t, ht, hturn, honly⟩⟩ :=
      @readRangeChunk_cases D W R a entry offset stop l written label c cs rest s (by omega) h
        hroom hlt
    · -- the chunk fails, and nothing was written
      have hno : ¬ RangeReads D R a entry (cs.length + 1) l s.source s.scratch := by
        rintro ⟨chunk, t', hchunk, hreads, -⟩
        cases hc.symm.trans hchunk
        exact hnot t' hreads
      rw [Fallible.spares_bind_of_error hturn, Fallible.bind_of_error hturn]
      refine ⟨by simp [hno], fun _ => Or.inr ⟨c, hc, fun t' ht' => absurd ht' (hnot t')⟩,
        fun _ => rfl⟩
    · -- the chunk reads back, and the loop goes on behind it
      have hleft := h.left_eq ht
      set piece := rangePiece a offset stop l t.dst
      set s₁ : ReadState W :=
        ⟨t.source, overwrite s.dst written piece, ⟨t.stored, t.dst⟩⟩ with hs₁
      -- a turn keeps the length of the destination
      have hlen : s₁.dst.length = s.dst.length := by
        simp only [hs₁]
        rw [length_overwrite]
        omega
      -- and what lies behind the part it copied
      have hdrop : s₁.dst.drop (written + piece.length) =
          (s.dst.drop written).drop piece.length := by
        rw [List.drop_drop]
        exact drop_overwrite (by omega)
      -- the rest of the loop, by the induction hypothesis
      obtain ⟨hok, hspares⟩ := @ih (l + 1) (written + piece.length) s₁ h.tail (by omega) (by omega)
        (by omega)
      rw [hdrop] at hspares
      -- the later turns write behind this part, so they do not undo it
      have hkeep : (readRangeChunks D R a entry label offset stop cs.length (l + 1)
          (written + piece.length) s₁).2.dst = s.dst → s₁.dst = s.dst :=
        overwrite_eq_of_take (by omega) (readRangeChunks_keeps le_rfl)
      -- a part is copied to no effect where it stands already
      have hplace : s₁.dst = s.dst ↔ piece <+: s.dst.drop written := overwrite_eq_self_iff
      -- the row reads back where its first chunk and the rest do
      have hreads : RangeReads D R a entry (cs.length + 1) l s.source s.scratch ↔
          RangeReads D R a entry cs.length (l + 1) s₁.source s₁.scratch := by
        constructor
        · rintro ⟨chunk, t', hchunk, hback, hrest⟩
          cases hc.symm.trans hchunk
          cases (honly t').mp hback
          exact hrest
        · exact fun hrest => ⟨c, t, hc, (honly t).mpr rfl, hrest⟩
      -- and so for what stands there
      have hstands : RangeInPlace D R a entry offset stop (cs.length + 1) l (s.dst.drop written)
          s.source s.scratch ↔ piece <+: s.dst.drop written ∧
            RangeInPlace D R a entry offset stop cs.length (l + 1)
              ((s.dst.drop written).drop piece.length) s₁.source s₁.scratch := by
        constructor
        · rintro ⟨chunk, hchunk, hall⟩
          cases hc.symm.trans hchunk
          exact hall t ((honly t).mpr rfl)
        · intro hall
          refine ⟨c, hc, fun t' hback => ?_⟩
          cases (honly t').mp hback
          exact hall
      rw [Fallible.spares_bind_of_ok hturn hkeep hspares, Fallible.bind_of_ok hturn, hok, hreads,
        hstands, ← hplace]
      exact ⟨Iff.rfl, Iff.rfl⟩

/-! ## The calls -/

/-- A range that is accepted is read into the front of the destination. -/
theorem readRangeIntoFound_eq (h : WellFormed D a) (hidx : a.entries[idx]? = some entry)
    (hacc : RangeAccepted a entry offset s.dst.length false n) :
    readRangeIntoFound D R a idx label offset s = (do
      onPrefix n (readRangeIndexInto D R a idx label offset)
      pure n : Fallible (ReadState W) Fault ℕ) s := by
  have hlen := (rangeLen_eq_ok_iff h hidx).mpr hacc
  have hle := hacc.length_eq
  unfold readRangeIntoFound
  rw [Fallible.gets_bind_apply, id, Fallible.liftM_bind_of_ok hlen,
    Fallible.liftM_bind_of_ok (slice_of_le (Nat.zero_le n) (by omega))]

variable {p : Prop} (h : WellFormed D a) (hidx : a.entries[idx]? = some entry)

include h hidx

/-- **When reading a range** into all of a destination leaves it as it is. -/
theorem readRangeIndexInto_spares_iff
    (hstop : offset + s.dst.length ≤ entry.originalSize.toNat)
    (hlimit : touched a.chunkSize.toNat offset s.dst.length ≤ a.maxChunksPerOperation) :
    Fallible.Spares p ReadState.dst (readRangeIndexInto D R a idx label offset) s ↔
      (p ∧ RangeReads D R a entry (touched a.chunkSize.toNat offset s.dst.length)
        (offset / a.chunkSize.toNat) s.source s.scratch) ∨
      RangeInPlace D R a entry offset (offset + s.dst.length)
        (touched a.chunkSize.toNat offset s.dst.length) (offset / a.chunkSize.toNat) s.dst s.source
        s.scratch := by
  by_cases hempty : s.dst = []
  · -- no chunk is touched
    have htouched : touched a.chunkSize.toNat offset s.dst.length = 0 := by
      simp [hempty, touched]
    rw [htouched]
    exact ⟨fun _ => Or.inr trivial, fun _ => .of_kept (by rw [readRangeIndexInto_nil hempty])⟩
  have hpos := List.length_pos_iff.mpr hempty
  have hsize := entry.originalSize.toNat_lt
  have hbase : offset / a.chunkSize.toNat * a.chunkSize.toNat ≤ offset := Nat.div_mul_le_self _ _
  -- the chunks from the first one touched on
  obtain ⟨cs, rest, hcs, hrest⟩ := h.rangeRest (List.mem_of_getElem? hidx)
    (show offset < offset + s.dst.length by omega) hstop
  rw [Nat.add_sub_cancel_left] at hcs
  -- what the loop reads is as long as the destination
  have hpost : Fallible.Post (readRangeChunks D R a entry label offset (offset + s.dst.length)
      cs.length (offset / a.chunkSize.toNat) 0) s _ _ :=
    @readRangeChunks_post D W R a _ _ _ _ (anySource D R a).trace.run entry label _ 0 s [] _ _ cs rest
      hrest (by omega) (by omega) (by omega) trivial
  obtain ⟨hok, hspares⟩ := @readRangeChunks_spares_iff D W R a entry offset _ _ 0 label cs rest s p
    hrest (by omega) (by omega) (by omega)
  -- the length check behind the loop always passes
  have hcheck : Fallible.Spares p ReadState.dst (readRangeIndexInto D R a idx label offset) s ↔
      Fallible.Spares p ReadState.dst (readRangeChunks D R a entry label offset
        (offset + s.dst.length) cs.length (offset / a.chunkSize.toNat) 0) s := by
    unfold Fallible.Spares
    rw [readRangeIndexInto_eq h hidx hstop hempty, ← hcs]
    refine Fallible.spares_bind_of_checks fun r t hrun => ?_
    obtain ⟨rfl, -, ds, hds, hdst⟩ := hpost.of_ok hrun
    have hflat := (anySource D R a).trace.run.length_flatten hrest.drop_eq hds
    have hreach := hrest.stop_le
    have hwhole : s.dst.length = t.dst.length := by
      rw [hdst, length_overwrite]
      rw [length_extract (by omega)]
      omega
    exact ⟨(), by rw [Fallible.gets_bind_apply, id, ensure_of hwhole]; rfl⟩
  rw [hcheck, hspares, hok, hcs, List.drop_zero]

/-- **When reading a range** leaves the destination as it is. -/
theorem readRangeIntoFound_spares_iff (hlt : s.dst.length < 2 ^ 64) :
    Fallible.Spares p ReadState.dst (readRangeIntoFound D R a idx label offset) s ↔
      RangeUnchanged D R a entry offset p s := by
  -- a range that is refused leaves everything as it is
  obtain ⟨n, -, hacc⟩ | ⟨f, (hf : rangeLen a idx offset s.dst.length false = .error f), hno, -⟩ :=
    rangeLen_cases h hidx hlt
  swap
  · refine ⟨fun _ n hacc => absurd hacc (hno n), fun _ => .of_kept ?_⟩
    unfold readRangeIntoFound
    rw [Fallible.gets_bind_apply, id, Fallible.liftM_bind_of_error hf]
  have heq : readRangeIntoFound D R a idx label offset s = _ := readRangeIntoFound_eq h hidx hacc
  have ⟨hle, _, _, hn, hlimit⟩ := hacc
  -- the front of the destination, as long as the accepted range
  have hextract : s.dst.extract 0 n = s.dst.take n := by
    rw [List.extract_eq_take_drop, List.drop_zero, Nat.sub_zero]
  have hwindow : (s.dst.take n).length = n := by
    rw [List.length_take]
    omega
  -- inside it, the range is read into all of the destination
  have hinner : Fallible.Spares p ReadState.dst (readRangeIndexInto D R a idx label offset)
      ⟨s.source, s.dst.take n, s.scratch⟩ ↔ _ :=
    readRangeIndexInto_spares_iff h hidx (by simp only [hwindow]; omega)
      (by simp only [hwindow]; exact hlimit)
  -- and its length is kept
  have hlength : (readRangeIndexInto D R a idx label offset
      ⟨s.source, s.dst.take n, s.scratch⟩).2.dst.length = (s.dst.take n).length := by
    have hrun : Fallible.Post (readRangeIndexInto D R a idx label offset)
        ⟨s.source, s.dst.take n, s.scratch⟩ _ _ :=
      readRangeIndexInto_run (anySource D R a).trace.run h hidx (by simp only [hwindow]; omega)
        (by simp only [hwindow]; exact hlimit) trivial
    rcases hread : readRangeIndexInto D R a idx label offset
      ⟨s.source, s.dst.take n, s.scratch⟩ with ⟨f | ⟨⟨⟩⟩, t⟩
    · exact (hrun.of_error hread).1
    · exact (hrun.of_ok hread).2.1
  -- writing the front back changes what was changed in it
  have hfront : Fallible.Spares p ReadState.dst
      (onPrefix n (readRangeIndexInto D R a idx label offset)) s ↔
        Fallible.Spares p ReadState.dst (readRangeIndexInto D R a idx label offset)
          ⟨s.source, s.dst.take n, s.scratch⟩ := by
    rw [onPrefix, Fallible.spares_focus ReadState.dst, hextract]
    simp only [hextract]
    rw [overwrite_eq_self_iff, List.drop_zero, List.prefix_iff_eq_take, hlength, hwindow]
  -- the call goes on to return the number of bytes
  have hcheck : Fallible.Spares p ReadState.dst (readRangeIntoFound D R a idx label offset) s ↔
      Fallible.Spares p ReadState.dst
        (onPrefix n (readRangeIndexInto D R a idx label offset)) s := by
    unfold Fallible.Spares
    rw [heq]
    exact Fallible.spares_bind_of_checks fun _ t _ => ⟨n, rfl⟩
  rw [hcheck, hfront, hinner]
  simp only [hwindow]
  constructor
  · -- the accepted length is decided by the request
    intro hrange n' hacc'
    obtain rfl : n' = n := hacc'.length_eq.trans hn.symm
    exact hrange
  · exact fun hrange => hrange n hacc

end Range

end RasenArchive
