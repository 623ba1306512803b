import RasenArchive.Archive.Independence

/-!
# Sources of the same bytes

Two sources that present the same bytes, in whatever way: with short reads, after interrupts, or
from memory. An archive opens from both or from neither, as the same archive, and every access to
it ends alike, with the same bytes or with the same error, whatever was accessed before.

## Main results

* `openWithLimits_abreast`, `openWithLimits_ok_of_presents`: opening
* `read_abreast` and the like: each access
* `verify_abreast`: verification
-/

namespace RasenArchive

section SameBytes

variable {D : Dependencies} {W₁ W₂ : Type} {R₁ : RandomAccessRead W₁} {R₂ : RandomAccessRead W₂}
  {P₁ : W₁ → Prop} {P₂ : W₂ → Prop} {c : Bytes} {w₁ : W₁} {w₂ : W₂}

/-- The outcome of an access on two sources: equal results, and states in `P₁` and `P₂`. -/
def SameResult {α : Type} (P₁ : W₁ → Prop) (P₂ : W₂ → Prop) (x : α) (w₁ : W₁) (y : α) (w₂ : W₂) :
    Prop := x = y ∧ P₁ w₁ ∧ P₂ w₂

/-- The states of two sources. -/
def BothIn (P₁ : W₁ → Prop) (P₂ : W₂ → Prop) (w₁ : W₁) (w₂ : W₂) : Prop := P₁ w₁ ∧ P₂ w₂

variable (hp₁ : Presents R₁ P₁ c) (hp₂ : Presents R₂ P₂ c)

/-! ## Opening -/

section Opening

variable (hw₁ : P₁ w₁) (hw₂ : P₂ w₂)

include hp₁ hp₂ hw₁ hw₂

theorem readAt_abreast {offset n : ℕ} (hle : offset + n ≤ c.length) :
    Fallible.Abreast (readAt R₁ offset n) w₁ (readAt R₂ offset n) w₂ (SameResult P₁ P₂)
      (BothIn P₁ P₂) := by
  obtain ⟨w₁', hr₁, hw₁'⟩ := readAt_presents hp₁ hw₁ hle
  obtain ⟨w₂', hr₂, hw₂'⟩ := readAt_presents hp₂ hw₂ hle
  exact Fallible.abreast_ok hr₁ hr₂ ⟨rfl, hw₁', hw₂'⟩

/-- **Opening** ends alike on bytes that are long enough for a header. -/
theorem openWithLimits_abreast {key : Bytes} {limits : ArchiveLimits}
    (hlen : headerSize ≤ c.length) :
    Fallible.Abreast (openWithLimits D R₁ key limits) w₁ (openWithLimits D R₂ key limits) w₂
      (SameResult P₁ P₂) (BothIn P₁ P₂) := by
  unfold openWithLimits
  refine Fallible.abreast_liftM_bind _ ⟨hw₁, hw₂⟩ fun _ _ => ?_
  refine (readAt_abreast hp₁ hp₂ hw₁ hw₂ (by omega)).bind ?_
  rintro bs v₁ _ v₂ ⟨rfl, hv₁, hv₂⟩
  refine Fallible.abreast_liftM_bind _ ⟨hv₁, hv₂⟩ fun header _ => ?_
  obtain ⟨u₁, hr₁, hu₁⟩ := sourceLen_presents hp₁ hv₁
  obtain ⟨u₂, hr₂, hu₂⟩ := sourceLen_presents hp₂ hv₂
  refine Fallible.Abreast.bind (Q := fun n s m t => n = c.length ∧ m = c.length ∧ P₁ s ∧ P₂ t)
    (Fallible.abreast_ok hr₁ hr₂ ⟨rfl, rfl, hu₁, hu₂⟩) ?_
  rintro _ t₁ _ t₂ ⟨rfl, rfl, ht₁, ht₂⟩
  refine Fallible.abreast_liftM_bind _ ⟨ht₁, ht₂⟩ fun _ hrange =>
    Fallible.abreast_liftM_bind _ ⟨ht₁, ht₂⟩ fun len hlen' => ?_
  obtain ⟨-, rfl⟩ := u64ToUsize_eq_ok_iff.mp hlen'
  obtain ⟨-, -, hend, -⟩ := checkTocRange_eq_ok_iff.mp hrange
  refine (readAt_abreast hp₁ hp₂ ht₁ ht₂ hend).bind ?_
  rintro toc s₁ _ s₂ ⟨rfl, hs₁, hs₂⟩
  exact Fallible.abreast_liftM _ ⟨hs₁, hs₂⟩ fun _ _ => ⟨rfl, hs₁, hs₂⟩

omit hp₂ hw₂ in
/-- Bytes that are too short for a header are not opened. -/
theorem le_length_of_open {key : Bytes} {limits : ArchiveLimits} {a : Archive} {w' : W₁}
    (h : openWithLimits D R₁ key limits w₁ = (.ok a, w')) : headerSize ≤ c.length := by
  by_contra hlt
  obtain ⟨-, headerBytes, v, -, -, -, -, hr, -⟩ := openWithLimits_eq_ok_iff.mp h
  have hpast : c.length < 0 + headerSize := by omega
  obtain ⟨e, v', hfail, -⟩ := readAt_presents_eof hp₁ hw₁ (show 0 < headerSize by decide) hpast
  rw [hfail] at hr
  cases hr

/-- **What opens from one source opens from the other**, as the same archive. -/
theorem openWithLimits_ok_of_presents {key : Bytes} {limits : ArchiveLimits} {a : Archive}
    {w₁' : W₁} (h : openWithLimits D R₁ key limits w₁ = (.ok a, w₁')) :
    P₁ w₁' ∧ ∃ w₂', openWithLimits D R₂ key limits w₂ = (.ok a, w₂') ∧ P₂ w₂' := by
  have hlen := le_length_of_open hp₁ hw₁ h
  have hrun : Fallible.Abreast (openWithLimits D R₁ key limits) w₁
      (openWithLimits D R₂ key limits) w₂ _ _ := openWithLimits_abreast hp₁ hp₂ hw₁ hw₂ hlen
  rcases Fallible.abreast_iff.mp hrun with ⟨b, s, b', t, hx, hy, rfl, hs, ht⟩ | ⟨e, s, t, hx, -⟩
  · rw [h] at hx
    cases hx
    exact ⟨hs, t, hy, ht⟩
  · rw [h] at hx
    cases hx

end Opening

/-! ## Each access -/

section Access

variable {a : Archive} (hin : HoldsBlocks a c) (h : WellFormed D a)

include hp₁ hp₂ hin h

variable {path : String} {s : ReadState W₁} {t : ReadState W₂}

theorem readIntoWithScratch_abreast (hst : Twins P₁ P₂ s t) :
    Fallible.Abreast (readIntoWithScratch D R₁ a path) s (readIntoWithScratch D R₂ a path) t
      (fun _ s' _ t' => Twins P₁ P₂ s' t') (Siblings P₁ P₂) :=
  abreast_locate h hst.siblings fun _ _ _ _ hidx =>
    readEntryInto_abreast hp₁ hp₂ hin hin hidx (fun _ _ _ _ => rfl) hst

theorem readChunkIntoWithScratch_abreast (i : UInt32) (hst : Siblings P₁ P₂ s t) :
    Fallible.Abreast (readChunkIntoWithScratch D R₁ a path i) s
      (readChunkIntoWithScratch D R₂ a path i) t
      (fun _ s' _ t' => Twins P₁ P₂ s' t') (Siblings P₁ P₂) :=
  abreast_locate h hst fun _ _ _ _ hidx =>
    readChunkIntoFound_abreast hp₁ hp₂ hin hin hidx (fun _ _ _ => rfl) hst

theorem readRangeWithScratch_abreast (offset : UInt64) (hst : Twins P₁ P₂ s t) :
    Fallible.Abreast (readRangeWithScratch D R₁ a path offset) s
      (readRangeWithScratch D R₂ a path offset) t
      (fun n s' n' t' => n = n' ∧ Twins P₁ P₂ s' t') (Siblings P₁ P₂) :=
  abreast_locate h hst.siblings fun _ _ _ _ hidx =>
    readRangeIntoFound_abreast hp₁ hp₂ hin hin hidx hst fun _ _ _ _ _ _ _ => rfl

/-! ### Verification -/

omit h in
theorem verifyChunk_abreast {entry : Entry} {label : ChecksumLabel} {l : ℕ}
    (hst : Twins P₁ P₂ s t) :
    Fallible.Abreast (verifyChunk D R₁ a entry label l) s (verifyChunk D R₂ a entry label l) t
      (fun _ s' _ t' => Twins P₁ P₂ s' t') (Siblings P₁ P₂) := by
  have hE := hst.siblings
  unfold verifyChunk
  refine Fallible.abreast_liftM_bind _ hE fun _ _ => Fallible.abreast_liftM_bind _ hE fun _ _ =>
    Fallible.abreast_liftM_bind _ hE fun _ _ => ?_
  rw [Fallible.abreast_modify_bind, onDecoded, onDecoded, Fallible.abreast_focus]
  refine (readChunkByIndexInto_abreast hp₁ hp₂ hin hin (fun _ _ => rfl) hst.1 hst.2.1
    (by simp only [length_resize])).mono ?_ ?_
  · rintro _ s' _ t' ⟨hs', ht', -⟩
    exact ⟨hs', ht', hst.2.2⟩
  · rintro s' t' ⟨hs', ht', -⟩
    exact ⟨hs', ht', hE.2.2⟩

omit h in
theorem verifyChunks_abreast {entry : Entry} {label : ChecksumLabel} {turns l : ℕ}
    (hst : Twins P₁ P₂ s t) :
    Fallible.Abreast (verifyChunks D R₁ a entry label turns l) s
      (verifyChunks D R₂ a entry label turns l) t
      (fun _ s' _ t' => Twins P₁ P₂ s' t') (Siblings P₁ P₂) := by
  induction turns generalizing l s t with
  | zero => exact hst
  | succ turns ih =>
    have hstep : Fallible.Abreast (verifyChunk D R₁ a entry label l) s
        (verifyChunk D R₂ a entry label l) t _ _ := verifyChunk_abreast hp₁ hp₂ hin hst
    exact hstep.bind fun _ _ _ _ hst' => ih hst'

omit h in
theorem verifyEntries_abreast {entries : List Entry} (hst : Twins P₁ P₂ s t) :
    Fallible.Abreast (verifyEntries D R₁ a entries) s (verifyEntries D R₂ a entries) t
      (fun _ s' _ t' => Twins P₁ P₂ s' t') (Siblings P₁ P₂) := by
  induction entries generalizing s t with
  | nil => exact hst
  | cons entry entries ih =>
    exact (verifyChunks_abreast hp₁ hp₂ hin hst).bind fun _ _ _ _ hst' => ih hst'

variable (hw₁ : P₁ w₁) (hw₂ : P₂ w₂)

include hw₁ hw₂

omit h in
/-- **Verification** ends alike. -/
theorem verify_abreast : Fallible.Abreast (verify D R₁ a) w₁ (verify D R₂ a) w₂ (SameResult P₁ P₂)
    (BothIn P₁ P₂) := by
  unfold verify
  refine Fallible.abreast_liftM_bind _ ⟨hw₁, hw₂⟩ fun _ _ =>
    Fallible.abreast_liftM_bind _ ⟨hw₁, hw₂⟩ fun _ _ => ?_
  rw [Fallible.abreast_focus]
  refine (verifyEntries_abreast hp₁ hp₂ hin ⟨hw₁, hw₂, rfl⟩).mono ?_ ?_
  · rintro _ s' _ t' ⟨hs, ht, -⟩
    exact ⟨rfl, hs, ht⟩
  · rintro s' t' ⟨hs, ht, -⟩
    exact ⟨hs, ht⟩

/-! ### Accesses into a fresh buffer -/

theorem read_abreast : Fallible.Abreast (read D R₁ a path) w₁ (read D R₂ a path) w₂
    (SameResult P₁ P₂) (BothIn P₁ P₂) :=
  abreast_locate h ⟨hw₁, hw₂⟩ fun _ _ _ _ hidx =>
    readFound_abreast hp₁ hp₂ hin hin hw₁ hw₂ hidx fun _ _ _ _ => rfl

omit h in
theorem readById_abreast {id : AssetId} :
    Fallible.Abreast (readById D R₁ a id) w₁ (readById D R₂ a id) w₂ (SameResult P₁ P₂)
      (BothIn P₁ P₂) := by
  unfold readById
  refine Fallible.abreast_liftM_bind _ ⟨hw₁, hw₂⟩ fun _ _ =>
    Fallible.abreast_liftM_bind _ ⟨hw₁, hw₂⟩ fun _ hidx => ?_
  exact readFound_abreast hp₁ hp₂ hin hin hw₁ hw₂ (index_eq_ok_iff.mp hidx) fun _ _ _ _ => rfl

theorem readChunk_abreast (i : UInt32) :
    Fallible.Abreast (readChunk D R₁ a path i) w₁ (readChunk D R₂ a path i) w₂ (SameResult P₁ P₂)
      (BothIn P₁ P₂) :=
  abreast_locate h ⟨hw₁, hw₂⟩ fun _ _ _ _ hidx =>
    readChunkFound_abreast hp₁ hp₂ hin hin hw₁ hw₂ hidx fun _ _ _ => rfl

theorem readRange_abreast (offset len : UInt64) :
    Fallible.Abreast (readRange D R₁ a path offset len) w₁ (readRange D R₂ a path offset len) w₂
      (SameResult P₁ P₂) (BothIn P₁ P₂) :=
  abreast_locate h ⟨hw₁, hw₂⟩ fun _ _ _ _ hidx =>
    readRangeFound_abreast hp₁ hp₂ hin hin hw₁ hw₂ hidx fun _ _ _ _ _ _ _ => rfl

theorem readRangeExact_abreast (offset len : UInt64) :
    Fallible.Abreast (readRangeExact D R₁ a path offset len) w₁
      (readRangeExact D R₂ a path offset len) w₂ (SameResult P₁ P₂) (BothIn P₁ P₂) :=
  abreast_locate h ⟨hw₁, hw₂⟩ fun _ _ _ _ hidx =>
    readRangeFound_abreast hp₁ hp₂ hin hin hw₁ hw₂ hidx fun _ _ _ _ _ _ _ => rfl

end Access

end SameBytes

end RasenArchive
