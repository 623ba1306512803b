import RasenArchive.Archive.Outcome
import RasenArchive.Archive.Ranges
import RasenArchive.Library.TwoRuns

/-!
# Reading from two sources

Two sources that present bytes, and an open archive over both of them. Where the chunks that a call
goes through come to the same from both, the call ends alike: with the same bytes, or with the same
error. What the scratch spaces hold does not matter.

## Main definitions

* `SameChunk`: a chunk comes to the same from two byte strings
* `Twins`, `Siblings`: two states of reading into destinations that are equal, or of one length
* `InRange`: the chunks that a range goes through

## Main results

* `readChunkByIndexInto_abreast`: a single chunk
* `readEntryInto_abreast`, `readRangeIndexInto_abreast`: the loops over the chunks of an entry
* `readFound_abreast`, `readChunkFound_abreast`, `readChunkIntoFound_abreast`,
  `readRangeFound_abreast`, `readRangeIntoFound_abreast`: the parts of the calls for a found entry
-/

namespace RasenArchive

/-! ## Two sources side by side -/

section TwoSources

variable {D : Dependencies} {a : Archive} {W₁ W₂ : Type} {R₁ : RandomAccessRead W₁}
  {R₂ : RandomAccessRead W₂} {P₁ : W₁ → Prop} {P₂ : W₂ → Prop} {c₁ c₂ : Bytes} {entry : Entry}
  {idx g l : ℕ} {label : ChecksumLabel}

/-- The chunk comes to the same from both byte strings. -/
def SameChunk (D : Dependencies) (a : Archive) (c₁ c₂ : Bytes) (g : ℕ) : Prop :=
  ∀ label l, chunkOutcome D a c₁ label l g = chunkOutcome D a c₂ label l g

/-- Two states of reading, from sources in `P₁` and `P₂` into equal destinations. -/
def Twins (P₁ : W₁ → Prop) (P₂ : W₂ → Prop) (s : ReadState W₁) (t : ReadState W₂) : Prop :=
  P₁ s.source ∧ P₂ t.source ∧ s.dst = t.dst

/-- Two states of reading, from sources in `P₁` and `P₂` into destinations of one length. -/
def Siblings (P₁ : W₁ → Prop) (P₂ : W₂ → Prop) (s : ReadState W₁) (t : ReadState W₂) : Prop :=
  P₁ s.source ∧ P₂ t.source ∧ s.dst.length = t.dst.length

theorem Twins.siblings {s : ReadState W₁} {t : ReadState W₂} (h : Twins P₁ P₂ s t) :
    Siblings P₁ P₂ s t := ⟨h.1, h.2.1, by rw [h.2.2]⟩

theorem length_overwrite_congr (bytes : Bytes) (start : ℕ) {new new' : Bytes}
    (h : new.length = new'.length) :
    (overwrite bytes start new).length = (overwrite bytes start new').length := by
  simp only [overwrite, List.length_append, List.length_take, List.length_drop, h]

variable (hp₁ : Presents R₁ P₁ c₁) (hp₂ : Presents R₂ P₂ c₂) (hin₁ : HoldsBlocks a c₁)
  (hin₂ : HoldsBlocks a c₂)

include hp₁ hp₂ hin₁ hin₂

/-- **One chunk** is read alike from two sources in which it comes to the same. -/
theorem readChunkByIndexInto_abreast (hsame : SameChunk D a c₁ c₂ g) {s : BlockState W₁}
    {t : BlockState W₂} (hs : P₁ s.source) (ht : P₂ t.source)
    (hlen : s.dst.length = t.dst.length) :
    Fallible.Abreast (readChunkByIndexInto D R₁ a label l g) s
      (readChunkByIndexInto D R₂ a label l g) t
      (fun _ s' _ t' => P₁ s'.source ∧ P₂ t'.source ∧ s'.dst = t'.dst)
      (fun s' t' => P₁ s'.source ∧ P₂ t'.source ∧ s'.dst.length = t'.dst.length) := by
  rcases Nat.eq_zero_or_pos a.maxChunksPerOperation with hlimit | hlimit
  · exact Fallible.abreast_error (readChunkByIndexInto_of_limit hlimit)
      (readChunkByIndexInto_of_limit hlimit) ⟨hs, ht, hlen⟩
  cases hchunk : a.chunks[g]? with
  | none =>
    have hat : chunkAt a g = .error (.error (.corrupt "chunk index outside TOC")) :=
      okOr_eq_error_iff.mpr ⟨hchunk, rfl⟩
    unfold readChunkByIndexInto
    refine Fallible.abreast_liftM_bind _ ⟨hs, ht, hlen⟩ fun _ _ => ?_
    rw [hat]
    exact Fallible.abreast_error rfl rfl ⟨hs, ht, hlen⟩
  | some chunk =>
    by_cases hdst : s.dst.length = chunk.originalSize.toNat
    swap
    · have hdst' : t.dst.length ≠ chunk.originalSize.toNat := hlen ▸ hdst
      have hright : readChunkByIndexInto D R₂ a label l g t =
          (failWith (.bufferSizeMismatch chunk.originalSize.toNat s.dst.length), t) := by
        rw [hlen]
        exact readChunkByIndexInto_of_length_ne hlimit hchunk hdst'
      exact Fallible.abreast_error (readChunkByIndexInto_of_length_ne hlimit hchunk hdst) hright
        ⟨hs, ht, hlen⟩
    · have hdst' : t.dst.length = chunk.originalSize.toNat := hlen ▸ hdst
      have hpost : Fallible.Post (readChunkByIndexInto D R₁ a label l g) s _ _ :=
        readChunkByIndexInto_presented hp₁ hin₁ hlimit hchunk hdst hs
      have hpost' : Fallible.Post (readChunkByIndexInto D R₂ a label l g) t _ _ :=
        readChunkByIndexInto_presented hp₂ hin₂ hlimit hchunk hdst' ht
      rcases hr : readChunkByIndexInto D R₁ a label l g s with ⟨f | ⟨⟨⟩⟩, s'⟩ <;>
        rcases hr' : readChunkByIndexInto D R₂ a label l g t with ⟨f' | ⟨⟨⟩⟩, t'⟩
      · obtain ⟨hsrc, hkept, hf⟩ := hpost.of_error hr
        obtain ⟨hsrc', hkept', hf'⟩ := hpost'.of_error hr'
        rw [hsame, hf'] at hf
        cases hf
        exact Fallible.abreast_error hr hr' ⟨hsrc, hsrc', by rw [hkept, hkept', hlen]⟩
      · have hf := (hpost.of_error hr).2.2
        rw [hsame, (hpost'.of_ok hr').2] at hf
        cases hf
      · have hd := (hpost.of_ok hr).2
        rw [hsame, (hpost'.of_error hr').2.2] at hd
        cases hd
      · obtain ⟨hsrc, hd⟩ := hpost.of_ok hr
        obtain ⟨hsrc', hd'⟩ := hpost'.of_ok hr'
        rw [hsame, hd'] at hd
        exact Fallible.abreast_ok hr hr' ⟨hsrc, hsrc', (Except.ok.inj hd).symm⟩

theorem readEntryChunk_abreast {written : ℕ}
    (hsame : SameChunk D a c₁ c₂ (entry.firstChunk.toNat + l)) {s : ReadState W₁}
    {t : ReadState W₂} (hst : Twins P₁ P₂ s t) :
    Fallible.Abreast (readEntryChunk D R₁ a entry label l written) s
      (readEntryChunk D R₂ a entry label l written) t
      (fun n s' n' t' => n = n' ∧ Twins P₁ P₂ s' t') (Siblings P₁ P₂) := by
  have hE := hst.siblings
  obtain ⟨hs, ht, hdst⟩ := hst
  unfold readEntryChunk
  refine Fallible.abreast_liftM_bind _ hE fun global hglobal =>
    Fallible.abreast_liftM_bind _ hE fun _ _ => Fallible.abreast_liftM_bind _ hE fun _ _ =>
    Fallible.abreast_liftM_bind _ hE fun stop _ => ?_
  rw [Fallible.abreast_gets_bind, id, id, hdst]
  refine Fallible.abreast_liftM_bind _ hE fun _ _ => ?_
  obtain rfl : entry.firstChunk.toNat + l = global := by
    simp only [globalChunkOf, okOr_eq_ok_iff, checkedAdd_eq_some_iff] at hglobal
    exact hglobal.2
  refine Fallible.Abreast.bind (Q := fun _ s' _ t' => Twins P₁ P₂ s' t') ?_ ?_
  · rw [onWindow, onWindow, Fallible.abreast_focus]
    refine (readChunkByIndexInto_abreast hp₁ hp₂ hin₁ hin₂ hsame hs ht (by rw [hdst])).mono ?_ ?_
    · rintro _ s' _ t' ⟨hs', ht', hd⟩
      exact ⟨hs', ht', by rw [hdst, hd]⟩
    · rintro s' t' ⟨hs', ht', hd⟩
      refine ⟨hs', ht', ?_⟩
      rw [hdst]
      exact length_overwrite_congr _ _ hd
  · rintro _ s' _ t' htwins
    exact ⟨rfl, htwins⟩

/-- **The loop of whole entries** runs alike. -/
theorem readEntryChunks_abreast {turns written : ℕ}
    (hsame : ∀ i, l ≤ i → i < l + turns → SameChunk D a c₁ c₂ (entry.firstChunk.toNat + i))
    {s : ReadState W₁} {t : ReadState W₂} (hst : Twins P₁ P₂ s t) :
    Fallible.Abreast (readEntryChunks D R₁ a entry label turns l written) s
      (readEntryChunks D R₂ a entry label turns l written) t
      (fun n s' n' t' => n = n' ∧ Twins P₁ P₂ s' t') (Siblings P₁ P₂) := by
  induction turns generalizing l written s t with
  | zero => exact ⟨rfl, hst⟩
  | succ turns ih =>
    have hstep : Fallible.Abreast (readEntryChunk D R₁ a entry label l written) s
        (readEntryChunk D R₂ a entry label l written) t _ _ :=
      readEntryChunk_abreast hp₁ hp₂ hin₁ hin₂ (hsame l (le_refl l) (by omega)) hst
    refine hstep.bind ?_
    rintro n s' _ t' ⟨rfl, hst'⟩
    exact ih (fun i hl hi => hsame i (by omega) (by omega)) hst'

theorem readEntryInto_abreast (hidx : a.entries[idx]? = some entry)
    (hsame : ∀ i, i < entry.chunkCount.toNat →
      SameChunk D a c₁ c₂ (entry.firstChunk.toNat + i))
    {s : ReadState W₁} {t : ReadState W₂} (hst : Twins P₁ P₂ s t) :
    Fallible.Abreast (readEntryInto D R₁ a idx label) s (readEntryInto D R₂ a idx label) t
      (fun _ s' _ t' => Twins P₁ P₂ s' t') (Siblings P₁ P₂) := by
  have hE := hst.siblings
  unfold readEntryInto
  refine Fallible.abreast_liftM_bind _ hE fun e he => Fallible.abreast_liftM_bind _ hE fun _ _ =>
    Fallible.abreast_liftM_bind _ hE fun _ _ => ?_
  obtain rfl : entry = e := by
    rw [hidx] at he
    exact Except.ok.inj he
  rw [Fallible.abreast_gets_bind, id, id, hst.2.2]
  refine Fallible.abreast_liftM_bind _ hE fun _ _ => ?_
  have hloop : Fallible.Abreast (readEntryChunks D R₁ a entry label entry.chunkCount.toNat 0 0) s
      (readEntryChunks D R₂ a entry label entry.chunkCount.toNat 0 0) t _ _ :=
    readEntryChunks_abreast hp₁ hp₂ hin₁ hin₂ (fun i _ hi => hsame i (by omega)) hst
  refine hloop.bind ?_
  rintro n s' _ t' ⟨rfl, hst'⟩
  rw [Fallible.abreast_gets_bind, id, id, hst'.2.2]
  exact Fallible.abreast_liftM _ hst'.siblings fun _ _ => hst'

omit hp₁ hp₂ hin₁ hin₂ in
theorem copyRange_abreast {written takeStart takeEnd : ℕ} {s : ReadState W₁} {t : ReadState W₂}
    (hst : Twins P₁ P₂ s t) (hdecoded : s.scratch.decoded = t.scratch.decoded) :
    Fallible.Abreast (copyRange written takeStart takeEnd) s (copyRange written takeStart takeEnd) t
      (fun n s' n' t' => n = n' ∧ Twins P₁ P₂ s' t') (Siblings P₁ P₂) := by
  have hE := hst.siblings
  obtain ⟨hs, ht, hdst⟩ := hst
  unfold copyRange
  refine Fallible.abreast_liftM_bind _ hE fun _ _ => Fallible.abreast_liftM_bind _ hE fun stop _ => ?_
  rw [Fallible.abreast_gets_bind, id, id, hdst, hdecoded]
  refine Fallible.abreast_liftM_bind _ hE fun _ _ =>
    Fallible.abreast_liftM_bind _ hE fun bytes _ => ?_
  refine Fallible.Abreast.bind (Q := fun _ s' _ t' => Twins P₁ P₂ s' t') ?_ ?_
  · rw [onWindow, onWindow, Fallible.abreast_focus, onBytes, onBytes, Fallible.abreast_focus, hdst]
    by_cases hlen : (t.dst.extract written stop).length = bytes.length
    · exact Fallible.abreast_ok (if_pos hlen) (if_pos hlen) ⟨hs, ht, rfl⟩
    · exact Fallible.abreast_error (if_neg hlen) (if_neg hlen) ⟨hs, ht, rfl⟩
  · rintro _ s' _ t' htwins
    exact ⟨rfl, htwins⟩

theorem readRangeChunk_abreast {offset stop written : ℕ}
    (hsame : l < entry.chunkCount.toNat → SameChunk D a c₁ c₂ (entry.firstChunk.toNat + l))
    {s : ReadState W₁} {t : ReadState W₂} (hst : Twins P₁ P₂ s t) :
    Fallible.Abreast (readRangeChunk D R₁ a entry label offset stop l written) s
      (readRangeChunk D R₂ a entry label offset stop l written) t
      (fun n s' n' t' => n = n' ∧ Twins P₁ P₂ s' t') (Siblings P₁ P₂) := by
  have hE := hst.siblings
  obtain ⟨hs, ht, hdst⟩ := hst
  unfold readRangeChunk
  refine Fallible.abreast_liftM_bind _ hE fun _ hl =>
    Fallible.abreast_liftM_bind _ hE fun global hglobal =>
    Fallible.abreast_liftM_bind _ hE fun _ _ => Fallible.abreast_liftM_bind _ hE fun len _ => ?_
  rw [Fallible.abreast_modify_bind]
  obtain rfl : entry.firstChunk.toNat + l = global := by
    simp only [globalChunkOf, okOr_eq_ok_iff, checkedAdd_eq_some_iff] at hglobal
    exact hglobal.2
  refine Fallible.Abreast.bind (Q := fun _ s' _ t' =>
    Twins P₁ P₂ s' t' ∧ s'.scratch.decoded = t'.scratch.decoded) ?_ ?_
  · rw [onDecoded, onDecoded, Fallible.abreast_focus]
    refine (readChunkByIndexInto_abreast hp₁ hp₂ hin₁ hin₂ (hsame (ensure_eq_ok_iff.mp hl)) hs ht
      (by simp only [length_resize])).mono ?_ ?_
    · rintro _ s' _ t' ⟨hs', ht', hd⟩
      exact ⟨⟨hs', ht', hdst⟩, hd⟩
    · rintro s' t' ⟨hs', ht', -⟩
      exact ⟨hs', ht', by rw [hdst]⟩
  · rintro _ s' _ t' ⟨hst', hdecoded⟩
    have hE' := hst'.siblings
    refine Fallible.abreast_liftM_bind _ hE' fun _ _ => Fallible.abreast_liftM_bind _ hE' fun _ _ =>
      Fallible.abreast_liftM_bind _ hE' fun _ _ => Fallible.abreast_liftM_bind _ hE' fun _ _ =>
      Fallible.abreast_liftM_bind _ hE' fun _ _ => Fallible.abreast_liftM_bind _ hE' fun _ _ => ?_
    exact copyRange_abreast hst' hdecoded

/-- **The loop of ranges** runs alike. -/
theorem readRangeChunks_abreast {offset stop turns written : ℕ}
    (hsame : ∀ i, l ≤ i → i < l + turns → i < entry.chunkCount.toNat →
      SameChunk D a c₁ c₂ (entry.firstChunk.toNat + i))
    {s : ReadState W₁} {t : ReadState W₂} (hst : Twins P₁ P₂ s t) :
    Fallible.Abreast (readRangeChunks D R₁ a entry label offset stop turns l written) s
      (readRangeChunks D R₂ a entry label offset stop turns l written) t
      (fun n s' n' t' => n = n' ∧ Twins P₁ P₂ s' t') (Siblings P₁ P₂) := by
  induction turns generalizing l written s t with
  | zero => exact ⟨rfl, hst⟩
  | succ turns ih =>
    have hstep : Fallible.Abreast (readRangeChunk D R₁ a entry label offset stop l written) s
        (readRangeChunk D R₂ a entry label offset stop l written) t _ _ :=
      readRangeChunk_abreast hp₁ hp₂ hin₁ hin₂ (hsame l (le_refl l) (by omega)) hst
    refine hstep.bind ?_
    rintro n s' _ t' ⟨rfl, hst'⟩
    exact ih (fun i hl hi => hsame i (by omega) (by omega)) hst'

/-- The chunks that a range of `n` bytes goes through, by their numbers in the entry. -/
def InRange (a : Archive) (offset n i : ℕ) : Prop :=
  0 < n ∧ offset / a.chunkSize.toNat ≤ i ∧ i ≤ (offset + n - 1) / a.chunkSize.toNat

theorem readRangeIndexInto_abreast (hidx : a.entries[idx]? = some entry) {offset : ℕ}
    {s : ReadState W₁} {t : ReadState W₂} (hst : Twins P₁ P₂ s t)
    (hsame : ∀ i, InRange a offset s.dst.length i → i < entry.chunkCount.toNat →
      SameChunk D a c₁ c₂ (entry.firstChunk.toNat + i)) :
    Fallible.Abreast (readRangeIndexInto D R₁ a idx label offset) s
      (readRangeIndexInto D R₂ a idx label offset) t (fun _ s' _ t' => Twins P₁ P₂ s' t')
      (Siblings P₁ P₂) := by
  have hE := hst.siblings
  unfold readRangeIndexInto
  rw [Fallible.abreast_gets_bind, id, id, ← hst.2.2]
  split_ifs with hempty
  · exact hst
  unfold readNonemptyRange
  refine Fallible.abreast_liftM_bind _ hE fun e he => ?_
  obtain rfl : entry = e := by
    have hentry := index_eq_ok_iff.mp he
    rw [hidx] at hentry
    exact Option.some.inj hentry
  rw [Fallible.abreast_gets_bind, id, id, ← hst.2.2]
  refine Fallible.abreast_liftM_bind _ hE fun len hlen =>
    Fallible.abreast_liftM_bind _ hE fun stop hstop =>
    Fallible.abreast_liftM_bind _ hE fun first hfirst =>
    Fallible.abreast_liftM_bind _ hE fun firstLocal hfl =>
    Fallible.abreast_liftM_bind _ hE fun inside hinside =>
    Fallible.abreast_liftM_bind _ hE fun last hlast =>
    Fallible.abreast_liftM_bind _ hE fun lastLocal hll => ?_
  have hpos := List.length_pos_iff.mpr hempty
  obtain ⟨-, rfl⟩ := usizeToU64_eq_ok_iff.mp hlen
  obtain ⟨-, rfl⟩ := checkedAdd_eq_some_iff.mp (okOr_eq_ok_iff.mp hstop)
  obtain ⟨-, rfl⟩ := tryFrom_eq_some_iff.mp (okOr_eq_ok_iff.mp hfl)
  obtain ⟨-, rfl⟩ := tryFrom_eq_some_iff.mp (okOr_eq_ok_iff.mp hll)
  have hin : offset + s.dst.length - 1 = inside := by
    rw [sub_of_le (by omega)] at hinside
    exact Except.ok.inj hinside
  have hquot : ∀ {m q : ℕ}, div m a.chunkSize.toNat = .ok q → q = m / a.chunkSize.toNat := by
    intro m q hq
    unfold div at hq
    split_ifs at hq
    exact (Except.ok.inj hq).symm
  refine (readRangeChunks_abreast hp₁ hp₂ hin₁ hin₂ (fun i hl hi => hsame i ⟨hpos, ?_, ?_⟩)
    hst).bind ?_
  · rw [← hquot hfirst]
    exact hl
  · rw [hin, ← hquot hlast]
    omega
  · rintro n s' _ t' ⟨rfl, hst'⟩
    rw [Fallible.abreast_gets_bind, id, id, hst'.2.2]
    exact Fallible.abreast_liftM _ hst'.siblings fun _ _ => hst'

/-! ### The parts for a found entry -/

omit hp₁ hp₂ hin₁ hin₂ in
theorem abreast_intoFresh {n : ℕ} {w₁ : W₁} {w₂ : W₂} (hw₁ : P₁ w₁) (hw₂ : P₂ w₂)
    {x : Fallible (ReadState W₁) Fault Unit} {y : Fallible (ReadState W₂) Fault Unit}
    (h : ∀ s t, Twins P₁ P₂ s t → s.dst.length = n →
      Fallible.Abreast x s y t (fun _ s' _ t' => Twins P₁ P₂ s' t') (Siblings P₁ P₂)) :
    Fallible.Abreast (intoFresh n x) w₁ (intoFresh n y) w₂
      (fun d w₁' d' w₂' => d = d' ∧ P₁ w₁' ∧ P₂ w₂') (fun w₁' w₂' => P₁ w₁' ∧ P₂ w₂') := by
  have hxy := h ⟨w₁, List.replicate n 0, {}⟩ ⟨w₂, List.replicate n 0, {}⟩ ⟨hw₁, hw₂, rfl⟩
    List.length_replicate
  rcases Fallible.abreast_iff.mp hxy with ⟨_, s, _, t, hx, hy, hs, ht, hd⟩ |
    ⟨e, s, t, hx, hy, hs, ht, -⟩
  · exact Fallible.abreast_ok (by rw [intoFresh, hx]) (by rw [intoFresh, hy]) ⟨hd, hs, ht⟩
  · exact Fallible.abreast_error (by rw [intoFresh, hx]) (by rw [intoFresh, hy]) ⟨hs, ht⟩

theorem onWhole_abreast (hsame : SameChunk D a c₁ c₂ g) {s : ReadState W₁} {t : ReadState W₂}
    (hst : Siblings P₁ P₂ s t) :
    Fallible.Abreast (onWhole (readChunkByIndexInto D R₁ a label l g)) s
      (onWhole (readChunkByIndexInto D R₂ a label l g)) t
      (fun _ s' _ t' => Twins P₁ P₂ s' t') (Siblings P₁ P₂) := by
  obtain ⟨hs, ht, hdst⟩ := hst
  rw [onWhole, onWhole, Fallible.abreast_focus]
  exact readChunkByIndexInto_abreast hp₁ hp₂ hin₁ hin₂ hsame hs ht hdst

omit hp₁ hp₂ hin₁ hin₂ in
theorem chunkOfEntry_eq {i : UInt32} (hidx : a.entries[idx]? = some entry)
    (h : chunkOfEntry a idx i = .ok g) :
    i.toNat < entry.chunkCount.toNat ∧ entry.firstChunk.toNat + i.toNat = g := by
  simp only [chunkOfEntry, bind_eq_ok, index_eq_ok_iff, ensure_eq_ok_iff, exists_const,
    globalChunkOf, okOr_eq_ok_iff, checkedAdd_eq_some_iff] at h
  obtain ⟨e, he, hi, -, hg⟩ := h
  cases hidx.symm.trans he
  exact ⟨hi, hg⟩

theorem readChunkIntoFound_abreast (hidx : a.entries[idx]? = some entry) {i : UInt32}
    (hsame : i.toNat < entry.chunkCount.toNat →
      SameChunk D a c₁ c₂ (entry.firstChunk.toNat + i.toNat))
    {s : ReadState W₁} {t : ReadState W₂} (hst : Siblings P₁ P₂ s t) :
    Fallible.Abreast (readChunkIntoFound D R₁ a idx label i) s
      (readChunkIntoFound D R₂ a idx label i) t (fun _ s' _ t' => Twins P₁ P₂ s' t')
      (Siblings P₁ P₂) := by
  unfold readChunkIntoFound
  refine Fallible.abreast_liftM_bind _ hst fun global hglobal => ?_
  obtain ⟨hi, rfl⟩ := chunkOfEntry_eq hidx hglobal
  exact onWhole_abreast hp₁ hp₂ hin₁ hin₂ (hsame hi) hst

theorem readRangeIntoFound_abreast (hidx : a.entries[idx]? = some entry) {offset : ℕ}
    {s : ReadState W₁} {t : ReadState W₂} (hst : Twins P₁ P₂ s t)
    (hsame : ∀ n, rangeLen a idx offset s.dst.length false = .ok n → ∀ i, InRange a offset n i →
      i < entry.chunkCount.toNat → SameChunk D a c₁ c₂ (entry.firstChunk.toNat + i)) :
    Fallible.Abreast (readRangeIntoFound D R₁ a idx label offset) s
      (readRangeIntoFound D R₂ a idx label offset) t
      (fun n s' n' t' => n = n' ∧ Twins P₁ P₂ s' t') (Siblings P₁ P₂) := by
  have hE := hst.siblings
  obtain ⟨hs, ht, hdst⟩ := hst
  unfold readRangeIntoFound
  rw [Fallible.abreast_gets_bind, id, id, ← hdst]
  refine Fallible.abreast_liftM_bind _ hE fun n hn =>
    Fallible.abreast_liftM_bind _ hE fun _ hslice => ?_
  obtain ⟨⟨-, hle⟩, -⟩ := slice_eq_ok_iff.mp hslice
  refine Fallible.Abreast.bind (Q := fun _ s' _ t' => Twins P₁ P₂ s' t') ?_ ?_
  · rw [onPrefix, onPrefix, Fallible.abreast_focus]
    have htwins : Twins P₁ P₂ ⟨s.source, s.dst.extract 0 n, s.scratch⟩
        ⟨t.source, t.dst.extract 0 n, t.scratch⟩ := ⟨hs, ht, by rw [hdst]⟩
    refine (readRangeIndexInto_abreast hp₁ hp₂ hin₁ hin₂ hidx htwins ?_).mono ?_ ?_
    · rw [length_extract hle]
      exact hsame n hn
    · rintro _ s' _ t' ⟨hs', ht', hd⟩
      exact ⟨hs', ht', by rw [hdst, hd]⟩
    · rintro s' t' ⟨hs', ht', hd⟩
      refine ⟨hs', ht', ?_⟩
      rw [hdst]
      exact length_overwrite_congr _ _ hd
  · rintro _ s' _ t' hst'
    exact ⟨rfl, hst'⟩

variable {w₁ : W₁} {w₂ : W₂} (hw₁ : P₁ w₁) (hw₂ : P₂ w₂)

include hw₁ hw₂

theorem readFound_abreast (hidx : a.entries[idx]? = some entry)
    (hsame : ∀ i, i < entry.chunkCount.toNat →
      SameChunk D a c₁ c₂ (entry.firstChunk.toNat + i)) :
    Fallible.Abreast (readFound D R₁ a idx label) w₁ (readFound D R₂ a idx label) w₂
      (fun d w₁' d' w₂' => d = d' ∧ P₁ w₁' ∧ P₂ w₂') (fun w₁' w₂' => P₁ w₁' ∧ P₂ w₂') := by
  unfold readFound
  refine Fallible.abreast_liftM_bind _ ⟨hw₁, hw₂⟩ fun e he =>
    Fallible.abreast_liftM_bind _ ⟨hw₁, hw₂⟩ fun _ _ =>
    Fallible.abreast_liftM_bind _ ⟨hw₁, hw₂⟩ fun _ _ =>
    abreast_intoFresh hw₁ hw₂ fun s t hst _ => ?_
  exact readEntryInto_abreast hp₁ hp₂ hin₁ hin₂ hidx hsame hst

theorem readChunkFound_abreast (hidx : a.entries[idx]? = some entry) {i : UInt32}
    (hsame : i.toNat < entry.chunkCount.toNat →
      SameChunk D a c₁ c₂ (entry.firstChunk.toNat + i.toNat)) :
    Fallible.Abreast (readChunkFound D R₁ a idx label i) w₁ (readChunkFound D R₂ a idx label i) w₂
      (fun d w₁' d' w₂' => d = d' ∧ P₁ w₁' ∧ P₂ w₂') (fun w₁' w₂' => P₁ w₁' ∧ P₂ w₂') := by
  unfold readChunkFound
  refine Fallible.abreast_liftM_bind _ ⟨hw₁, hw₂⟩ fun global hglobal =>
    Fallible.abreast_liftM_bind _ ⟨hw₁, hw₂⟩ fun _ _ =>
    Fallible.abreast_liftM_bind _ ⟨hw₁, hw₂⟩ fun _ _ =>
    Fallible.abreast_liftM_bind _ ⟨hw₁, hw₂⟩ fun _ _ =>
    abreast_intoFresh hw₁ hw₂ fun s t hst _ => ?_
  obtain ⟨hi, rfl⟩ := chunkOfEntry_eq hidx hglobal
  exact onWhole_abreast hp₁ hp₂ hin₁ hin₂ (hsame hi) hst.siblings

theorem readRangeFound_abreast (hidx : a.entries[idx]? = some entry) {offset len : ℕ} {exact : Bool}
    (hsame : ∀ n, rangeLen a idx offset len exact = .ok n → ∀ i, InRange a offset n i →
      i < entry.chunkCount.toNat → SameChunk D a c₁ c₂ (entry.firstChunk.toNat + i)) :
    Fallible.Abreast (readRangeFound D R₁ a idx label offset len exact) w₁
      (readRangeFound D R₂ a idx label offset len exact) w₂
      (fun d w₁' d' w₂' => d = d' ∧ P₁ w₁' ∧ P₂ w₂') (fun w₁' w₂' => P₁ w₁' ∧ P₂ w₂') := by
  unfold readRangeFound
  refine Fallible.abreast_liftM_bind _ ⟨hw₁, hw₂⟩ fun n hn =>
    abreast_intoFresh hw₁ hw₂ fun s t hst hlen => ?_
  exact readRangeIndexInto_abreast hp₁ hp₂ hin₁ hin₂ hidx hst (by rw [hlen]; exact hsame n hn)

end TwoSources

end RasenArchive
