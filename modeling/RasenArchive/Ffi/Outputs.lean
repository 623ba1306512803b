import RasenArchive.Archive.Failure
import RasenArchive.Archive.Independence
import RasenArchive.Ffi.Read

/-!
# What reads through the C interface leave in the memory of the caller

The header promises that functions leave outputs unchanged on error. The functions that give their
result in a fresh buffer keep this. Those that read into memory of the caller write to it before
their last check, and so keep it in some cases only. This module says in which.

## Main definitions

* `ReadCall.Unchanged`: the calls that leave the memory of the caller as it is unless they succeed
* `ReadCall.Spared`: the calls that do so whatever the destination holds

## Main results

* `ReadCall.body_unchanged_iff`: the bodies of the functions
* `ffi_reads_unchanged_iff`: exactly these calls leave the memory of the caller as it is when their
  status is not `ok`
* `ffi_reads_spare`: the same for all contents of the destination
-/

namespace RasenArchive

variable (D : Dependencies) {W : Type} (R : RandomAccessRead W)

/-! ## Definitions -/

/-- **The call leaves the memory of the caller as it is unless it succeeds**: it gives its result in
a fresh buffer, or a pointer is null, or its path leads nowhere, or what it reads into the
destination leaves that as it is. A range needs a place for the number of its bytes to succeed. -/
def ReadCall.Unchanged (a : Archive) (s : FfiState W) : ReadCall → Prop
  | .readInto path dst =>
    dst = .valid → ∀ e, LeadsTo D a path e → WholeUnchanged D R a e ⟨s.source, s.dst, {}⟩
  | .readChunkInto path i dst =>
    dst = .valid → ∀ e, LeadsTo D a path e → PieceUnchanged D R a e i ⟨s.source, s.dst, {}⟩
  | .readRangeInto path offset dst outRead =>
    dst = .valid → ∀ e, LeadsTo D a path e →
      RangeUnchanged D R a e offset.toNat (outRead = .valid) ⟨s.source, s.dst, {}⟩
  | .readIntoWithScratch path dst scratch =>
    dst = .valid → scratch = .valid → ∀ e, LeadsTo D a path e →
      WholeUnchanged D R a e ⟨s.source, s.dst, s.scratch⟩
  | .readChunkIntoWithScratch path i dst scratch =>
    dst = .valid → scratch = .valid → ∀ e, LeadsTo D a path e →
      PieceUnchanged D R a e i ⟨s.source, s.dst, s.scratch⟩
  | .readRangeWithScratch path offset dst scratch outRead =>
    dst = .valid → scratch = .valid → ∀ e, LeadsTo D a path e →
      RangeUnchanged D R a e offset.toNat (outRead = .valid) ⟨s.source, s.dst, s.scratch⟩
  | _ => True

/-! ## The calls of the library -/

section Library

variable {D R} {a : Archive} (h : WellFormed D a) {p : String} {s : ReadState W}

include h

/-- **The lookup in front of a call** changes nothing. -/
theorem spares_locate {σ ρ β : Type} {c : Prop} {obs : σ → ρ} {k : String × ℕ → Fallible σ Fault β}
    {t : σ} {P : Entry → Prop}
    (hk : ∀ q idx e, a.entries[idx]? = some e → (Fallible.Spares c obs (k (q, idx)) t ↔ P e)) :
    Fallible.Spares c obs (liftM (locate D a p) >>= k) t ↔ ∀ e, entry D a p = .ok e → P e := by
  rw [Fallible.spares_liftM_bind]
  constructor
  · intro hs e he
    obtain ⟨⟨q, idx⟩, hl, hidx⟩ := bind_eq_ok.mp he
    rw [index_eq_ok_iff] at hidx
    exact (hk q idx e hidx).mp (hs _ hl)
  · rintro hP ⟨q, idx⟩ hl
    obtain ⟨e, he, hidx⟩ := entry_of_locate h hl
    exact (hk q idx e hidx).mpr (hP e he)

theorem readIntoWithScratch_spares_iff :
    Fallible.Spares True ReadState.dst (readIntoWithScratch D R a p) s ↔
      ∀ e, entry D a p = .ok e → WholeUnchanged D R a e s := by
  apply spares_locate h
  intro q idx e hidx
  exact readEntryInto_spares_iff h hidx

theorem readChunkIntoWithScratch_spares_iff {i : UInt32} :
    Fallible.Spares True ReadState.dst (readChunkIntoWithScratch D R a p i) s ↔
      ∀ e, entry D a p = .ok e → PieceUnchanged D R a e i s := by
  apply spares_locate h
  intro q idx e hidx
  exact readChunkIntoFound_spares_iff h hidx

theorem readRangeWithScratch_spares_iff {c : Prop} {offset : UInt64}
    (hlt : s.dst.length < 2 ^ 64) :
    Fallible.Spares c ReadState.dst (readRangeWithScratch D R a p offset) s ↔
      ∀ e, entry D a p = .ok e → RangeUnchanged D R a e offset.toNat c s := by
  apply spares_locate h
  intro q idx e hidx
  exact readRangeIntoFound_spares_iff h hidx hlt

end Library

/-! ## The functions -/

section Functions

variable {D R} {a : Archive}

/-- A call that gives its result in a fresh buffer leaves the memory of the caller alone. -/
theorem readBuffer_spares {out : Pointer} {read : Archive → Fallible W Fault Bytes}
    {s : FfiState W} :
    Fallible.Spares True FfiState.outputs (readBuffer (some a) out read) s := by
  refine Fallible.spares_liftM_bind.mpr fun a' _ => Fallible.spares_liftM_bind.mpr fun _ _ => ?_
  rcases hread : onArchive (read a') s with ⟨f | value, t⟩
  · have hkept : (onArchive (read a') s).2.outputs = s.outputs := rfl
    rw [hread] at hkept
    exact .of_kept (by rw [Fallible.bind_of_error hread, hkept])
  · exact .of_ok trivial (Fallible.bind_of_ok hread)

variable {β : Type} {c : Prop} {s : FfiState W}

/-- A call of the library on the destination, with the scratch space of the caller. -/
theorem onScratch_spares_iff {x : Fallible (ReadState W) Fault β} :
    Fallible.Spares c FfiState.outputs (onScratch .valid x) s ↔
      Fallible.Spares c ReadState.dst x ⟨s.source, s.dst, s.scratch⟩ := by
  rw [onScratch, Fallible.spares_focus ReadState.dst, Fallible.spares_mapError]
  · rfl
  · simp [FfiState.outputs, MutBytes.store, MutBytes.view]

/-- A call of the library on the destination, with a scratch space of its own. -/
theorem onCaller_spares_iff {x : Fallible (ReadState W) Fault β} :
    Fallible.Spares c FfiState.outputs (onCaller .valid (withDefaultScratch x)) s ↔
      Fallible.Spares c ReadState.dst x ⟨s.source, s.dst, {}⟩ := by
  rw [onCaller, Fallible.spares_focus Prod.snd, Fallible.spares_mapError, withDefaultScratch,
    Fallible.spares_focus ReadState.dst Iff.rfl]
  · rfl
  · simp [FfiState.outputs, MutBytes.store, MutBytes.view]

variable {path : ConstBytes} {dst : MutBytes} {scratch : Pointer}
  {x : Archive → String → Fallible (ReadState W) Fault β} {P : Entry → Prop}

/-- **The functions that read into the destination of the caller** check its pointers first. -/
theorem readCaller_spares_iff
    (hx : ∀ p, Fallible.Spares c ReadState.dst (x a p) ⟨s.source, s.dst, {}⟩ ↔
      ∀ e, entry D a p = .ok e → P e) :
    Fallible.Spares c FfiState.outputs
        (readCaller (some a) path dst fun a p => withDefaultScratch (x a p)) s ↔
      (dst = .valid → ∀ e, LeadsTo D a path e → P e) := by
  constructor
  · rintro hs rfl e ⟨p, hp, he⟩
    have hpath := Fallible.spares_liftM_bind.mp (Fallible.spares_liftM_bind.mp hs a rfl) p
      (ConstBytes.utf8_eq_ok_iff.mpr hp)
    have hread := onCaller_spares_iff.mp (Fallible.spares_liftM_bind.mp hpath () rfl)
    exact (hx p).mp hread e he
  · intro hP
    refine Fallible.spares_liftM_bind.mpr fun a' ha => Fallible.spares_liftM_bind.mpr fun p hp =>
      Fallible.spares_liftM_bind.mpr fun _ _ => ?_
    cases ha
    cases dst with
    | null len => exact .of_kept rfl
    | valid =>
      have hread := (hx p).mpr fun e he => hP rfl e ⟨p, ConstBytes.utf8_eq_ok_iff.mp hp, he⟩
      exact onCaller_spares_iff.mpr hread

/-- **The functions that use the scratch space of the caller** check its pointers first. -/
theorem readCallerWithScratch_spares_iff
    (hx : ∀ p, Fallible.Spares c ReadState.dst (x a p) ⟨s.source, s.dst, s.scratch⟩ ↔
      ∀ e, entry D a p = .ok e → P e) :
    Fallible.Spares c FfiState.outputs (readCallerWithScratch (some a) path dst scratch x) s ↔
      (dst = .valid → scratch = .valid → ∀ e, LeadsTo D a path e → P e) := by
  constructor
  · rintro hs rfl rfl e ⟨p, hp, he⟩
    have hpath := Fallible.spares_liftM_bind.mp (Fallible.spares_liftM_bind.mp hs a rfl) p
      (ConstBytes.utf8_eq_ok_iff.mpr hp)
    have hdst := Fallible.spares_liftM_bind.mp hpath () rfl
    have hread := onScratch_spares_iff.mp (Fallible.spares_liftM_bind.mp hdst () rfl)
    exact (hx p).mp hread e he
  · intro hP
    refine Fallible.spares_liftM_bind.mpr fun a' ha => Fallible.spares_liftM_bind.mpr fun p hp =>
      Fallible.spares_liftM_bind.mpr fun _ _ => Fallible.spares_liftM_bind.mpr fun _ hscratch => ?_
    cases ha
    cases scratch with
    | null => simp [requiredMut] at hscratch
    | valid =>
      cases dst with
      | null len => exact .of_kept rfl
      | valid =>
        have hread := (hx p).mpr fun e he =>
          hP rfl rfl e ⟨p, ConstBytes.utf8_eq_ok_iff.mp hp, he⟩
        exact onScratch_spares_iff.mpr hread

/-- **The check behind a range read**: with no place for the number, the call fails after it. -/
theorem storeRead_spares_iff {outRead : Pointer} {y : Fallible (FfiState W) FfiFault ℕ} :
    Fallible.Spares True FfiState.outputs (y >>= storeRead outRead) s ↔
      Fallible.Spares (outRead = .valid) FfiState.outputs y s := by
  apply Fallible.spares_bind_check
  · rintro rfl n t
    exact ⟨(), rfl⟩
  · intro hno n t
    cases outRead with
    | valid => exact absurd rfl hno
    | null => exact ⟨_, rfl⟩

/-- **Every function**: the memory of the caller stays as it is, unless the call succeeds, in
exactly these cases. -/
theorem ReadCall.body_unchanged_iff (h : WellFormed D a) (call : ReadCall)
    (hlt : s.dst.length < 2 ^ 64) :
    Fallible.Spares True FfiState.outputs (call.body D R (some a)) s ↔
      call.Unchanged D R a s := by
  cases call with
  | read path out =>
    exact iff_of_true (Fallible.spares_liftM_bind.mpr fun _ _ => readBuffer_spares) trivial
  | readById assetId out => exact iff_of_true readBuffer_spares trivial
  | readChunk path i out =>
    exact iff_of_true (Fallible.spares_liftM_bind.mpr fun _ _ => readBuffer_spares) trivial
  | readRange path offset len out =>
    exact iff_of_true (Fallible.spares_liftM_bind.mpr fun _ _ => readBuffer_spares) trivial
  | readRangeExact path offset len out =>
    exact iff_of_true (Fallible.spares_liftM_bind.mpr fun _ _ => readBuffer_spares) trivial
  | readInto path dst => exact readCaller_spares_iff fun p => readIntoWithScratch_spares_iff h
  | readChunkInto path i dst =>
    exact readCaller_spares_iff fun p => readChunkIntoWithScratch_spares_iff h
  | readIntoWithScratch path dst scratch =>
    exact readCallerWithScratch_spares_iff fun p => readIntoWithScratch_spares_iff h
  | readChunkIntoWithScratch path i dst scratch =>
    exact readCallerWithScratch_spares_iff fun p => readChunkIntoWithScratch_spares_iff h
  | readRangeInto path offset dst outRead =>
    -- the place for the number is looked at behind the read
    exact storeRead_spares_iff.trans
      (readCaller_spares_iff fun p => readRangeWithScratch_spares_iff h hlt)
  | readRangeWithScratch path offset dst scratch outRead =>
    exact storeRead_spares_iff.trans
      (readCallerWithScratch_spares_iff fun p => readRangeWithScratch_spares_iff h hlt)

end Functions

/-- The thread, with other contents of the destination. -/
def Thread.withDst (t : Thread (FfiState W)) (dst : Bytes) : Thread (FfiState W) :=
  ⟨{ t.state with dst }, t.lastError⟩

/-- The entry that the path `a` leads to in the small archive. -/
theorem leadsTo_small {e : Entry} (h : LeadsTo reference smallArchive (.data (asBytes "a")) e) :
    e = ⟨"a", foldHash [97], 3, 3, 0, 2⟩ := by
  obtain ⟨p, hp, he⟩ := h
  obtain rfl : p = "a" := by
    obtain hp | ⟨hp, -⟩ := hp
    · exact asBytes_injective (ConstSlice.data.inj hp).symm
    · cases hp
  have hentry : entry reference smallArchive "a" = .ok ⟨"a", foldHash [97], 3, 3, 0, 2⟩ := by
    decide +kernel
  exact Except.ok.inj (he.symm.trans hentry)

/-- The caller of the small archive, whose second chunk was damaged, with the bytes `dst` in the
destination. -/
def damagedCaller (dst : Bytes) : Thread (FfiState Bytes) := ⟨⟨damagedBytes, {}, dst, 0, {}⟩, ""⟩

/-- **The call leaves the memory of the caller alone when it fails**: it gives its result in a fresh
buffer, or what it reads into the `len` bytes of the destination spares them. -/
def ReadCall.Spared (a : Archive) (len : ℕ) (w : W) : ReadCall → Prop
  | .readInto path dst =>
    dst = .valid → ∀ e, LeadsTo D a path e → SparesWhole D R a e len w
  | .readChunkInto path i dst =>
    dst = .valid → ∀ e, LeadsTo D a path e → SparesPiece D R a e i len w
  | .readRangeInto path offset dst outRead =>
    dst = .valid → ∀ e, LeadsTo D a path e →
      SparesRange D R a e offset.toNat len (outRead = .valid) w
  | .readIntoWithScratch path dst scratch =>
    dst = .valid → scratch = .valid → ∀ e, LeadsTo D a path e → SparesWhole D R a e len w
  | .readChunkIntoWithScratch path i dst scratch =>
    dst = .valid → scratch = .valid → ∀ e, LeadsTo D a path e → SparesPiece D R a e i len w
  | .readRangeWithScratch path offset dst scratch outRead =>
    dst = .valid → scratch = .valid → ∀ e, LeadsTo D a path e →
      SparesRange D R a e offset.toNat len (outRead = .valid) w
  | _ => True

section Spared

variable {D R} {a : Archive} (h : WellFormed D a) {call : ReadCall} {s : FfiState W}

theorem LeadsTo.mem {path : ConstBytes} {e : Entry} (he : LeadsTo D a path e) :
    e ∈ a.entries := by
  obtain ⟨p, -, he⟩ := he
  obtain ⟨⟨q, idx⟩, -, hidx⟩ := bind_eq_ok.mp he
  exact List.mem_of_getElem? (index_eq_ok_iff.mp hidx)

include h

/-- **A call that is spared** leaves the memory of the caller as it is. -/
theorem ReadCall.Spared.unchanged (hs : call.Spared D R a s.dst.length s.source) :
    call.Unchanged D R a s := by
  cases call with
  | readInto path dst =>
    intro hdst e he
    exact (hs hdst e he).unchanged h he.mem
  | readChunkInto path i dst =>
    intro hdst e he
    exact (hs hdst e he).unchanged h
  | readRangeInto path offset dst outRead =>
    intro hdst e he
    exact (hs hdst e he).unchanged
  | readIntoWithScratch path dst scratch =>
    intro hdst hscratch e he
    exact (hs hdst hscratch e he).unchanged h he.mem
  | readChunkIntoWithScratch path i dst scratch =>
    intro hdst hscratch e he
    exact (hs hdst hscratch e he).unchanged h
  | readRangeWithScratch path offset dst scratch outRead =>
    intro hdst hscratch e he
    exact (hs hdst hscratch e he).unchanged
  | _ => trivial

/-- **A call that leaves every destination as it is** is spared, over a source that fills its
buffers. -/
theorem ReadCall.spared_of_unchanged (hfills : FillsBuffers R)
    (hall : ∀ dst : Bytes, dst.length = s.dst.length →
      call.Unchanged D R a { s with dst := dst }) :
    call.Spared D R a s.dst.length s.source := by
  cases call with
  | readInto path dst =>
    intro hdst e he
    exact sparesWhole_of_unchanged h he.mem hfills fun bytes hlen => hall bytes hlen hdst e he
  | readChunkInto path i dst =>
    intro hdst e he
    exact sparesPiece_of_unchanged h hfills fun bytes hlen => hall bytes hlen hdst e he
  | readRangeInto path offset dst outRead =>
    intro hdst e he
    exact sparesRange_of_unchanged h he.mem hfills fun bytes hlen => hall bytes hlen hdst e he
  | readIntoWithScratch path dst scratch =>
    intro hdst hscratch e he
    exact sparesWhole_of_unchanged h he.mem hfills fun bytes hlen =>
      hall bytes hlen hdst hscratch e he
  | readChunkIntoWithScratch path i dst scratch =>
    intro hdst hscratch e he
    exact sparesPiece_of_unchanged h hfills fun bytes hlen => hall bytes hlen hdst hscratch e he
  | readRangeWithScratch path offset dst scratch outRead =>
    intro hdst hscratch e he
    exact sparesRange_of_unchanged h he.mem hfills fun bytes hlen =>
      hall bytes hlen hdst hscratch e he
  | _ => trivial

end Spared

/-- **Reads through the C interface** leave the memory of the caller alone when their status is not
`ok`, whatever the destination holds, exactly where they go to a fresh buffer, are refused before
the first chunk, or all chunks read back, or the first of them fails before a byte of it is in the
destination. The second half is for sources that fill their buffers. -/
theorem ffi_reads_spare {key : Bytes} {limits : ArchiveLimits} {w w' : W} {a : Archive}
    (hopen : openWithLimits D R key limits w = (.ok a, w')) (call : ReadCall)
    (t : Thread (FfiState W)) (hlt : t.state.dst.length < 2 ^ 64) :
    (call.Spared D R a t.state.dst.length t.state.source →
      ∀ dst : Bytes, dst.length = t.state.dst.length →
        (call.run D R (some a) (t.withDst dst)).1 ≠ .ok →
          (call.run D R (some a) (t.withDst dst)).2.state.outputs =
            (t.withDst dst).state.outputs) ∧
    (FillsBuffers R →
      (∀ dst : Bytes, dst.length = t.state.dst.length →
        (call.run D R (some a) (t.withDst dst)).1 ≠ .ok →
          (call.run D R (some a) (t.withDst dst)).2.state.outputs =
            (t.withDst dst).state.outputs) →
      call.Spared D R a t.state.dst.length t.state.source) := by
  have h := openWithLimits_wellFormed hopen
  constructor
  · intro hspared dst hdst
    have hs : (t.withDst dst).state.dst.length = t.state.dst.length := hdst
    have hunchanged : call.Unchanged D R a (t.withDst dst).state :=
      ReadCall.Spared.unchanged h (by rw [hs]; exact hspared)
    exact ffiCall_spares_iff.mpr ((call.body_unchanged_iff h (hs ▸ hlt)).mpr hunchanged)
  · intro hfills hall
    refine ReadCall.spared_of_unchanged h hfills fun dst hdst => ?_
    have hs : (t.withDst dst).state.dst.length = t.state.dst.length := hdst
    exact (call.body_unchanged_iff h (hs ▸ hlt)).mp (ffiCall_spares_iff.mp (hall dst hdst))

/-- A destination that is too short for the entry keeps its bytes, and so does every destination
over a source that ends in front of the first chunk. Over the damaged archive, whose source fills
its buffers, not every destination does. -/
theorem ffi_reads_spare_small :
    ((ReadCall.readInto (.data (asBytes "a")) .valid).run reference sliceSource (some smallArchive)
        smallCaller).2.state.outputs = ({}, [5, 6], 0) ∧
      (∀ dst : Bytes, dst.length = 3 →
        ((ReadCall.readInto (.data (asBytes "a")) .valid).run reference sliceSource
          (some smallArchive) ⟨⟨[], {}, dst, 0, {}⟩, ""⟩).1 ≠ .ok →
        ((ReadCall.readInto (.data (asBytes "a")) .valid).run reference sliceSource
          (some smallArchive) ⟨⟨[], {}, dst, 0, {}⟩, ""⟩).2.state.outputs = ({}, dst, 0)) ∧
      ((ReadCall.readInto (.data (asBytes "a")) .valid).Spared reference sliceSource smallArchive 3
          damagedBytes ↔ ∀ dst : Bytes, dst.length = 3 →
        ((ReadCall.readInto (.data (asBytes "a")) .valid).run reference sliceSource
          (some smallArchive) (damagedCaller dst)).1 ≠ .ok →
        ((ReadCall.readInto (.data (asBytes "a")) .valid).run reference sliceSource
          (some smallArchive) (damagedCaller dst)).2.state.outputs = ({}, dst, 0)) ∧
      ¬ (ReadCall.readInto (.data (asBytes "a")) .valid).Spared reference sliceSource smallArchive 3
        damagedBytes := by
  refine ⟨?_, ?_, ?_, ?_⟩
  · refine (ffi_reads_spare reference sliceSource openWithLimits_small
      (.readInto (.data (asBytes "a")) .valid) smallCaller (by decide)).1 ?_ [5, 6] rfl
      (by decide +kernel)
    intro _ e he _ hlen
    cases leadsTo_small he
    cases hlen
  · refine (ffi_reads_spare reference sliceSource openWithLimits_small
      (.readInto (.data (asBytes "a")) .valid) ⟨⟨[], {}, [0, 0, 0], 0, {}⟩, ""⟩ (by decide)).1 ?_
    intro _ e he _ _
    cases leadsTo_small he
    -- the read of the first chunk fails before it writes
    have hraw : smallArchive.aeadKey = none ∧ false = false := ⟨by decide +kernel, rfl⟩
    refine Or.inr ⟨0, rfl, ⟨60, 2, 2, foldHash [1, 2], false⟩, rfl, (if_pos hraw).mpr ?_⟩
    intro dst _
    have hread : ∃ f w', readExactAt sliceSource 60 ([], dst) = (.error f, w', dst) := by
      obtain ⟨e, he⟩ := @sliceSource_eof [] 60 dst (by simp)
      unfold readExactAt
      rw [he]
      exact ⟨_, _, rfl⟩
    exact hread
  · obtain ⟨hspares, hexact⟩ := ffi_reads_spare reference sliceSource openWithLimits_small
      (.readInto (.data (asBytes "a")) .valid) (damagedCaller [7, 7, 7]) (by decide)
    exact ⟨hspares, hexact sliceSource_fillsBuffers⟩
  · intro hspared
    have hkept := (ffi_reads_spare reference sliceSource openWithLimits_small
      (.readInto (.data (asBytes "a")) .valid) (damagedCaller [7, 7, 7]) (by decide)).1 hspared
      [7, 7, 7] rfl
    exact absurd (hkept (by decide +kernel)) (by decide +kernel)

end RasenArchive
