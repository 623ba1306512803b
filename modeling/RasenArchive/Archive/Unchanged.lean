import RasenArchive.Archive.Verified
import RasenArchive.Archive.InPlace
import RasenArchive.Library.Guarantee

/-!
# What a failed read leaves in its destination

The functions that read into a buffer of the caller write to it before their last check. This
module says, for one call with its destination and its scratch space, exactly when the destination
holds behind the call what it held in front of it, unless the call succeeds. The loops over chunks
are followed turn by turn: a turn that changes the destination is never undone by a later one, so
then only a success is left.

## Main definitions

* `ReadsOver`, `InPlaceOver`: chunks that are read over the destination, and those whose bytes stand
  there already
* `WholeUnchanged`, `PieceUnchanged`: the calls that leave the destination as it is unless they
  succeed

## Main results

* `readEntryInto_spares_iff`, `readChunkIntoFound_spares_iff`: these are exactly the calls that do
-/

namespace RasenArchive

variable (D : Dependencies) {W : Type} (R : RandomAccessRead W) (a : Archive)

/-! ## Chunks in a row -/

/-- The chunks read back one after the other, each over its part of the bytes `rest` of the
destination. -/
def ReadsOver : List ℕ → (rest : Bytes) → W → (stored : Bytes) → Prop
  | [], _, _, _ => True
  | g :: gs, rest, w, stored => ∃ chunk t, a.chunks[g]? = some chunk ∧
      ReadsBack D R a g ⟨w, rest.take chunk.originalSize.toNat, stored⟩ t ∧
      ReadsOver gs (rest.drop chunk.originalSize.toNat) t.source t.stored

/-- Up to the first chunk that does not read back, each of the chunks leaves its part of the bytes
`rest` of the destination as it is. -/
def InPlaceOver : List ℕ → (rest : Bytes) → W → (stored : Bytes) → Prop
  | [], _, _, _ => True
  | g :: gs, rest, w, stored => ∃ chunk, a.chunks[g]? = some chunk ∧
      InPlace D R a g ⟨w, rest.take chunk.originalSize.toNat, stored⟩ ∧
      ∀ t, ReadsBack D R a g ⟨w, rest.take chunk.originalSize.toNat, stored⟩ t →
        InPlaceOver gs (rest.drop chunk.originalSize.toNat) t.source t.stored

section Rows

variable {D R a} {g : ℕ} {gs : List ℕ} {rest stored : Bytes} {w : W} {chunk : Chunk}
  {t : BlockState W}

theorem readsOver_cons_iff (hchunk : a.chunks[g]? = some chunk)
    (ht : ∀ t', ReadsBack D R a g ⟨w, rest.take chunk.originalSize.toNat, stored⟩ t' ↔ t' = t) :
    ReadsOver D R a (g :: gs) rest w stored ↔
      ReadsOver D R a gs (rest.drop chunk.originalSize.toNat) t.source t.stored := by
  constructor
  · rintro ⟨chunk', t', hchunk', hreads, hrest⟩
    cases hchunk.symm.trans hchunk'
    cases (ht t').mp hreads
    exact hrest
  · exact fun h => ⟨chunk, t, hchunk, (ht t).mpr rfl, h⟩

theorem inPlaceOver_cons_iff (hchunk : a.chunks[g]? = some chunk)
    (ht : ∀ t', ReadsBack D R a g ⟨w, rest.take chunk.originalSize.toNat, stored⟩ t' ↔ t' = t) :
    InPlaceOver D R a (g :: gs) rest w stored ↔
      InPlace D R a g ⟨w, rest.take chunk.originalSize.toNat, stored⟩ ∧
        InPlaceOver D R a gs (rest.drop chunk.originalSize.toNat) t.source t.stored := by
  constructor
  · rintro ⟨chunk', hchunk', hplace, hrest⟩
    cases hchunk.symm.trans hchunk'
    exact ⟨hplace, hrest t ((ht t).mpr rfl)⟩
  · rintro ⟨hplace, hrest⟩
    refine ⟨chunk, hchunk, hplace, fun t' hreads => ?_⟩
    cases (ht t').mp hreads
    exact hrest

end Rows

/-! ## Entries -/

section Entry

variable {D R a} {entry : Entry} {idx l written n : ℕ} {label : ChecksumLabel} {chunk : Chunk}
  {cs rest : List Chunk} {s : ReadState W}

/-- A turn of the loop over an entry keeps what is in front of it. -/
theorem readEntryChunk_keeps (hn : n ≤ written) :
    Fallible.Post (readEntryChunk D R a entry label l written) s
      (fun r s' => n ≤ r ∧ s'.dst.take n = s.dst.take n)
      (fun _ s' => s'.dst.take n = s.dst.take n) := by
  unfold readEntryChunk
  refine (Fallible.post_liftM_bind _).mpr ⟨fun g _ => ?_, fun _ _ => rfl⟩
  refine (Fallible.post_liftM_bind _).mpr ⟨fun chunk _ => ?_, fun _ _ => rfl⟩
  refine (Fallible.post_liftM_bind _).mpr ⟨fun len _ => ?_, fun _ _ => rfl⟩
  refine (Fallible.post_liftM_bind _).mpr ⟨fun stop _ => ?_, fun _ _ => rfl⟩
  rw [Fallible.post_bind, Fallible.post_gets, id]
  refine (Fallible.post_liftM_bind _).mpr ⟨fun window hwindow => ?_, fun _ _ => rfl⟩
  rw [okOr_eq_ok_iff, getRange_eq_some_iff] at hwindow
  obtain ⟨⟨horder, hroom⟩, -⟩ := hwindow
  rw [Fallible.post_bind, onWindow, Fallible.post_focus, Fallible.post_iff]
  have hkept : ∀ t : BlockState W, (overwrite s.dst written t.dst).take n = s.dst.take n :=
    fun t => take_overwrite_of_le hn (horder.trans hroom)
  exact ⟨fun _ t _ => ⟨hn.trans horder, hkept t⟩, fun _ t _ => hkept t⟩

/-- The loop over an entry keeps what is in front of it. -/
theorem readEntryChunks_keeps {turns : ℕ} (hn : n ≤ written) :
    (readEntryChunks D R a entry label turns l written s).2.dst.take n = s.dst.take n := by
  induction turns generalizing l written s with
  | zero => rfl
  | succ turns ih =>
    have hturn : Fallible.Post (readEntryChunk D R a entry label l written) s _ _ :=
      readEntryChunk_keeps hn
    rw [readEntryChunks]
    rcases hrun : readEntryChunk D R a entry label l written s with ⟨f | r, s₁⟩
    · rw [Fallible.bind_of_error hrun]
      exact hturn.of_error hrun
    · obtain ⟨hr, hkept⟩ := hturn.of_ok hrun
      rw [Fallible.bind_of_ok hrun, ih hr]
      exact hkept

/-- A write that something behind it leaves alone is undone by nothing. -/
theorem overwrite_eq_of_take {dst ys out : Bytes} {pos : ℕ} (hroom : pos + ys.length ≤ dst.length)
    (hkept : out.take (pos + ys.length) = (overwrite dst pos ys).take (pos + ys.length))
    (hout : out = dst) : overwrite dst pos ys = dst := by
  subst hout
  rw [← List.take_append_drop (pos + ys.length) (overwrite out pos ys), ← hkept,
    drop_overwrite (by omega), List.take_append_drop]

/-- **A turn** of the loop over an entry: the chunk fails, or reads back over its window. -/
theorem readEntryChunk_cases (hlimit : 1 ≤ a.maxChunksPerOperation)
    (hglobal : entry.firstChunk.toNat + l < 2 ^ 32)
    (hchunk : a.chunks[entry.firstChunk.toNat + l]? = some chunk)
    (hroom : written + chunk.originalSize.toNat ≤ s.dst.length) (hlt : s.dst.length < 2 ^ 64) :
    -- the part of the destination that the chunk is read into, with the rest of the state
    ∃ window : BlockState W, window = ⟨s.source, (s.dst.drop written).take chunk.originalSize.toNat,
        s.scratch.stored⟩ ∧
      ((∃ f, ∃ t : BlockState W, readEntryChunk D R a entry label l written s = (.error f,
            ⟨t.source, overwrite s.dst written t.dst, ⟨t.stored, s.scratch.decoded⟩⟩) ∧
          (∀ t', ¬ ReadsBack D R a (entry.firstChunk.toNat + l) window t') ∧
          (overwrite s.dst written t.dst = s.dst ↔
            InPlace D R a (entry.firstChunk.toNat + l) window)) ∨
        ∃ t : BlockState W, t.dst.length = chunk.originalSize.toNat ∧
          readEntryChunk D R a entry label l written s =
            (.ok (written + chunk.originalSize.toNat),
              ⟨t.source, overwrite s.dst written t.dst, ⟨t.stored, s.scratch.decoded⟩⟩) ∧
          (∀ t', ReadsBack D R a (entry.firstChunk.toNat + l) window t' ↔ t' = t) ∧
          (overwrite s.dst written t.dst = s.dst ↔
            InPlace D R a (entry.firstChunk.toNat + l) window)) := by
  -- the loop takes the window out of the destination
  have hsub : s.dst.extract written (written + chunk.originalSize.toNat) =
      (s.dst.drop written).take chunk.originalSize.toNat := by
    rw [List.extract_eq_take_drop, Nat.add_sub_cancel_left]
  set window : BlockState W := ⟨s.source, (s.dst.drop written).take chunk.originalSize.toNat,
    s.scratch.stored⟩ with hwindow
  have hlen : window.dst.length = chunk.originalSize.toNat := by
    simp only [hwindow, List.length_take, List.length_drop]
    omega
  -- what happens in the window is known of single chunks ...
  have hok : ∀ t, readChunkByIndexInto D R a label l (entry.firstChunk.toNat + l) window =
      (.ok (), t) ↔ ReadsBack D R a (entry.firstChunk.toNat + l) window t := fun t =>
    readChunkByIndexInto_eq_ok_iff hlimit hchunk hlen
  have hdst : (readChunkByIndexInto D R a label l (entry.firstChunk.toNat + l) window).2.dst =
      window.dst ↔ InPlace D R a (entry.firstChunk.toNat + l) window :=
    readChunkByIndexInto_dst_iff hlimit hchunk hlen
  have hpost : Fallible.Post (readChunkByIndexInto D R a label l (entry.firstChunk.toNat + l))
      window _ _ := readChunkByIndexInto_post hlimit hchunk hlen
  -- ... and writing the window back undoes it exactly where the window is as before
  have hback : ∀ t : BlockState W, t.dst.length = chunk.originalSize.toNat →
      (overwrite s.dst written t.dst = s.dst ↔ t.dst = window.dst) := by
    intro t ht
    rw [overwrite_eq_self_iff, List.prefix_iff_eq_take, ht]
  -- the turn is that read, with its window written back
  have hturn : readEntryChunk D R a entry label l written s = _ :=
    readEntryChunk_eq hglobal hchunk hroom hlt
  rw [Fallible.bind_apply, onWindow, Fallible.focus_apply, hsub] at hturn
  refine ⟨window, rfl, ?_⟩
  rcases hrun : readChunkByIndexInto D R a label l (entry.firstChunk.toNat + l) window with
    ⟨f | ⟨⟨⟩⟩, t⟩
  · have ht := (hpost.of_error hrun).1.trans hlen
    rw [hrun] at hturn hdst hok
    refine Or.inl ⟨f, t, hturn, fun t' h => ?_, (hback t ht).trans hdst⟩
    cases (hok t').mpr h
  · have ht := (hpost.of_ok hrun).length_eq
    rw [hrun] at hturn hdst hok
    refine Or.inr ⟨t, ht, hturn, fun t' => (hok t').symm.trans ?_, (hback t ht).trans hdst⟩
    simp [eq_comm]

/-- **The loop over an entry** leaves the destination as it is, unless it succeeds, exactly where
its chunks do. -/
theorem readEntryChunks_spares_iff
    (hcs : a.chunks.drop (entry.firstChunk.toNat + l) = cs ++ rest)
    (hlimit : cs.length ≤ a.maxChunksPerOperation)
    (hglobal : entry.firstChunk.toNat + l + cs.length ≤ 2 ^ 32)
    (hroom : written + totalSize cs = s.dst.length) (hlt : s.dst.length < 2 ^ 64) :
    ((∃ r, (readEntryChunks D R a entry label cs.length l written s).1 = .ok r) ↔
      ReadsOver D R a (List.range' (entry.firstChunk.toNat + l) cs.length) (s.dst.drop written)
        s.source s.scratch.stored) ∧
    (Fallible.Spares True ReadState.dst
        (readEntryChunks D R a entry label cs.length l written) s ↔
      (True ∧ ∃ r, (readEntryChunks D R a entry label cs.length l written s).1 = .ok r) ∨
        InPlaceOver D R a (List.range' (entry.firstChunk.toNat + l) cs.length)
          (s.dst.drop written) s.source s.scratch.stored) := by
  induction cs generalizing l written s with
  | nil =>
    have hrun : readEntryChunks D R a entry label 0 l written s = (.ok written, s) := rfl
    exact ⟨⟨fun _ => trivial, fun _ => ⟨written, by rw [List.length_nil, hrun]⟩⟩,
      fun _ => Or.inr trivial, fun _ => .of_kept (by rw [List.length_nil, hrun])⟩
  | cons c cs ih =>
    rw [List.length_cons] at hlimit hglobal
    rw [totalSize_cons] at hroom
    have hc := getElem?_of_drop_eq hcs
    have hnext : a.chunks.drop (entry.firstChunk.toNat + (l + 1)) = cs ++ rest :=
      drop_succ_of_drop_eq hcs
    rw [List.length_cons, List.range'_succ, readEntryChunks]
    obtain ⟨window, rfl, ⟨f, t, hturn, hnot, hplace⟩ | ⟨t, ht, hturn, honly, hplace⟩⟩ :=
      @readEntryChunk_cases D W R a entry l written label c s (by omega) (by omega) hc (by omega)
        hlt
    · -- the chunk fails: the destination stays as it is where the chunk is in place
      -- a row that reads back begins with its first chunk
      have hno : ¬ ReadsOver D R a ((entry.firstChunk.toNat + l) ::
          List.range' (entry.firstChunk.toNat + l + 1) cs.length) (s.dst.drop written) s.source
            s.scratch.stored := by
        rintro ⟨chunk, t', hchunk, hreads, -⟩
        cases hc.symm.trans hchunk
        exact hnot t' hreads
      rw [Fallible.spares_bind_of_error hturn, Fallible.bind_of_error hturn]
      refine ⟨by simp [hno], hplace.trans ⟨fun h => Or.inr ?_, ?_⟩⟩
      · exact ⟨c, hc, h, fun t' ht' => absurd ht' (hnot t')⟩
      · rintro (⟨-, r, ⟨⟩⟩ | ⟨chunk, hchunk, h, -⟩)
        cases hc.symm.trans hchunk
        exact h
    · -- the chunk reads back, and the loop goes on behind it
      set s₁ : ReadState W :=
        ⟨t.source, overwrite s.dst written t.dst, ⟨t.stored, s.scratch.decoded⟩⟩ with hs₁
      -- a turn keeps the length of the destination
      have hlen : s₁.dst.length = s.dst.length := by
        simp only [hs₁]
        rw [length_overwrite]
        omega
      -- and what lies behind its window
      have hdrop : s₁.dst.drop (written + c.originalSize.toNat) =
          (s.dst.drop written).drop c.originalSize.toNat := by
        rw [List.drop_drop, ← ht]
        exact drop_overwrite (by omega)
      -- the rest of the loop, by the induction hypothesis
      obtain ⟨hok, hspares⟩ := @ih (l + 1) (written + c.originalSize.toNat) s₁ hnext (by omega)
        (by omega) (by omega) (by omega)
      rw [hdrop, ← Nat.add_assoc] at hok hspares
      -- the later turns write behind the window, so they do not undo this one
      have hkeep : (readEntryChunks D R a entry label cs.length (l + 1)
          (written + c.originalSize.toNat) s₁).2.dst = s.dst → s₁.dst = s.dst := by
        refine overwrite_eq_of_take (by omega) ?_
        rw [ht]
        exact readEntryChunks_keeps le_rfl
      rw [Fallible.spares_bind_of_ok hturn hkeep hspares, Fallible.bind_of_ok hturn, hok,
        readsOver_cons_iff hc honly, inPlaceOver_cons_iff hc honly, ← hplace]
      exact ⟨Iff.rfl, Iff.rfl⟩

variable (h : WellFormed D a) (hidx : a.entries[idx]? = some entry)

/-- **Reading an entry** leaves the destination as it is unless it succeeds: it is refused, or its
chunks read back, or they leave the destination as it is up to the first that fails. -/
def WholeUnchanged (D : Dependencies) (R : RandomAccessRead W) (a : Archive) (entry : Entry)
    (s : ReadState W) : Prop :=
  entry.chunkCount.toNat ≤ a.maxChunksPerOperation → s.dst.length = entry.originalSize.toNat →
    ReadsOver D R a entry.chunkNumbers s.dst s.source s.scratch.stored ∨
      InPlaceOver D R a entry.chunkNumbers s.dst s.source s.scratch.stored

include h hidx

/-- **When reading an entry** leaves the destination as it is. -/
theorem readEntryInto_spares_iff :
    Fallible.Spares True ReadState.dst (readEntryInto D R a idx label) s ↔
      WholeUnchanged D R a entry s := by
  -- too many chunks are refused before the first read
  by_cases hlimit : entry.chunkCount.toNat ≤ a.maxChunksPerOperation
  swap
  · refine ⟨fun _ hle => absurd hle hlimit, fun _ => .of_kept ?_⟩
    rw [readEntryInto_of_limit hidx (by omega)]
  -- and so is a destination of another length
  by_cases hdst : s.dst.length = entry.originalSize.toNat
  swap
  · refine ⟨fun _ _ heq => absurd heq hdst, fun _ => .of_kept ?_⟩
    rw [readEntryInto_of_length_ne hidx hlimit hdst]
  obtain ⟨hrange, hlen, -, -, htotal⟩ := h.ownedChunks_spec (List.mem_of_getElem? hidx)
  have hdrop := entry.drop_eq_ownedChunks_append a.chunks
  have hchunks := h.chunks_lt
  have hlt := hdst ▸ entry.originalSize.toNat_lt
  -- what the loop reads is as long as the destination
  have hpost : Fallible.Post (readEntryChunks D R a entry label
      (entry.ownedChunks a.chunks).length 0 0) s _ _ :=
    @readEntryChunks_post D W R a _ _ _ _ (anySource D R a).trace.run entry label 0 0 s [] _ _ hdrop
      (by omega) (by omega) (by omega) hlt trivial
  obtain ⟨hok, hspares⟩ := @readEntryChunks_spares_iff D W R a entry 0 0 label _ _ s hdrop (by omega)
    (by omega) (by omega) hlt
  rw [hlen] at hok hspares hpost
  rw [true_and, hok, List.drop_zero] at hspares
  -- the length check behind the loop always passes
  have hcheck : Fallible.Spares True ReadState.dst (readEntryInto D R a idx label) s ↔
      Fallible.Spares True ReadState.dst
        (readEntryChunks D R a entry label entry.chunkCount.toNat 0 0) s := by
    unfold Fallible.Spares
    rw [readEntryInto_eq hidx hlimit hdst]
    refine Fallible.spares_bind_of_checks fun r t hrun => ?_
    obtain ⟨rfl, -, ds, hds, ht⟩ := hpost.of_ok hrun
    have hflat := (anySource D R a).trace.run.length_flatten hdrop (by rw [hlen]; exact hds)
    have hkept : s.dst.length = t.dst.length := by
      rw [ht, length_overwrite]
      omega
    exact ⟨(), by rw [Fallible.gets_bind_apply, id, ensure_of hkept]; rfl⟩
  rw [hcheck, hspares]
  exact ⟨fun hrow _ _ => hrow, fun hwhole => hwhole hlimit hdst⟩

end Entry

/-! ## Single chunks -/

section Piece

variable {D R a} {entry : Entry} {idx : ℕ} {i : UInt32} {label : ChecksumLabel} {s : ReadState W}

/-- **Reading a chunk of an entry** leaves the destination as it is unless it succeeds. -/
def PieceUnchanged (D : Dependencies) (R : RandomAccessRead W) (a : Archive) (entry : Entry)
    (i : UInt32) (s : ReadState W) : Prop :=
  1 ≤ a.maxChunksPerOperation → i.toNat < entry.chunkCount.toNat →
    (∃ chunk, a.chunks[entry.firstChunk.toNat + i.toNat]? = some chunk ∧
      s.dst.length = chunk.originalSize.toNat) →
    (∃ t, ReadsBack D R a (entry.firstChunk.toNat + i.toNat)
        ⟨s.source, s.dst, s.scratch.stored⟩ t) ∨
      InPlace D R a (entry.firstChunk.toNat + i.toNat) ⟨s.source, s.dst, s.scratch.stored⟩

/-- **When reading a chunk of an entry** leaves the destination as it is. -/
theorem readChunkIntoFound_spares_iff (h : WellFormed D a) (hidx : a.entries[idx]? = some entry) :
    Fallible.Spares True ReadState.dst (readChunkIntoFound D R a idx label i) s ↔
      PieceUnchanged D R a entry i s := by
  rw [readChunkIntoFound, Fallible.spares_liftM_bind]
  -- the chunk number is refused, or names a chunk of the table
  obtain ⟨hle, hc⟩ | ⟨hi, hc, chunk, hchunk⟩ := chunkOfEntry_cases h hidx i
  · refine ⟨fun _ _ hi => absurd hi (by omega), fun _ g hg => ?_⟩
    cases hc.symm.trans hg
  rw [hc]
  simp only [Except.ok.injEq, forall_eq']
  rw [onWhole, Fallible.spares_focus BlockState.dst Iff.rfl]
  -- a limit of no chunks, and a destination of another length, are refused
  by_cases hlimit : 1 ≤ a.maxChunksPerOperation
  swap
  · refine ⟨fun _ hle => absurd hle hlimit, fun _ => .of_kept ?_⟩
    rw [readChunkByIndexInto_of_limit (by omega)]
  by_cases hdst : s.dst.length = chunk.originalSize.toNat
  swap
  · refine ⟨?_, fun _ => .of_kept ?_⟩
    · rintro - - - ⟨chunk', hchunk', hlen⟩
      cases hchunk.symm.trans hchunk'
      exact absurd hlen hdst
    · rw [readChunkByIndexInto_of_length_ne hlimit hchunk hdst]
  -- what is left is one read of the block
  have hok : ∀ t, readChunkByIndexInto D R a label i.toNat (entry.firstChunk.toNat + i.toNat)
      ⟨s.source, s.dst, s.scratch.stored⟩ = (.ok (), t) ↔ _ := fun t =>
    readChunkByIndexInto_eq_ok_iff hlimit hchunk hdst
  have hplace : (readChunkByIndexInto D R a label i.toNat (entry.firstChunk.toNat + i.toNat)
      ⟨s.source, s.dst, s.scratch.stored⟩).2.dst = s.dst ↔ _ :=
    readChunkByIndexInto_dst_iff hlimit hchunk hdst
  have hrow : Fallible.Spares True BlockState.dst (readChunkByIndexInto D R a label i.toNat
      (entry.firstChunk.toNat + i.toNat)) ⟨s.source, s.dst, s.scratch.stored⟩ ↔
        (∃ t, ReadsBack D R a (entry.firstChunk.toNat + i.toNat)
          ⟨s.source, s.dst, s.scratch.stored⟩ t) ∨
        InPlace D R a (entry.firstChunk.toNat + i.toNat)
          ⟨s.source, s.dst, s.scratch.stored⟩ := by
    unfold Fallible.Spares
    rw [← hplace, true_and]
    -- a run that succeeds is one that reads back
    refine or_congr_left ⟨?_, ?_⟩
    · rintro ⟨⟨⟩, hr⟩
      exact ⟨_, (hok _).mp (Prod.ext hr rfl)⟩
    · rintro ⟨t, ht⟩
      exact ⟨(), by rw [(hok t).mpr ht]⟩
  rw [hrow]
  exact ⟨fun h _ _ _ => h, fun h => h hlimit hi ⟨chunk, hchunk, hdst⟩⟩

end Piece

end RasenArchive
