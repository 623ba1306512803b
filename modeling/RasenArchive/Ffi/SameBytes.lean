import RasenArchive.Archive.SameBytes
import RasenArchive.Ffi.Archive

/-!
# Calls over sources of the same bytes

A call of the C interface on an archive, over two sources that present the same bytes: it has the
same status, the same text of the last error, and when it succeeds it leaves the same in the memory
of the caller. What the scratch spaces hold does not matter.

## Main results

* `ReadCall.body_abreast`: the functions that read
* `ArchiveCall.body_abreast`: all functions on an archive
-/

namespace RasenArchive

variable {D : Dependencies} {W₁ W₂ : Type} {R₁ : RandomAccessRead W₁} {R₂ : RandomAccessRead W₂}
  {P₁ : W₁ → Prop} {P₂ : W₂ → Prop} {c : Bytes}

/-- Two states of a caller that reads: the sources in `P₁` and `P₂`, and equal memory for the
results. -/
def CallersAlike (P₁ : W₁ → Prop) (P₂ : W₂ → Prop) (s : FfiState W₁) (t : FfiState W₂) : Prop :=
  P₁ s.source ∧ P₂ t.source ∧ s.outputs = t.outputs

/-- Two states of a caller whose call has failed. -/
def CallersFailed (P₁ : W₁ → Prop) (P₂ : W₂ → Prop) (s : FfiState W₁) (t : FfiState W₂) : Prop :=
  P₁ s.source ∧ P₂ t.source

theorem CallersAlike.failed {s : FfiState W₁} {t : FfiState W₂} (h : CallersAlike P₁ P₂ s t) :
    CallersFailed P₁ P₂ s t := ⟨h.1, h.2.1⟩

section Reads

variable {archive : Option Archive} {path : ConstBytes} {dst : MutBytes}
  {out scratch outRead : Pointer} {s : FfiState W₁} {t : FfiState W₂} {β : Type}

theorem readBuffer_abreast (hst : CallersAlike P₁ P₂ s t)
    {read₁ : Archive → Fallible W₁ Fault Bytes} {read₂ : Archive → Fallible W₂ Fault Bytes}
    (hread : ∀ a ∈ archive, Fallible.Abreast (read₁ a) s.source (read₂ a) t.source
      (SameResult P₁ P₂) (BothIn P₁ P₂)) :
    Fallible.Abreast (readBuffer archive out read₁) s (readBuffer archive out read₂) t
      (fun _ s' _ t' => CallersAlike P₁ P₂ s' t') (CallersFailed P₁ P₂) := by
  obtain ⟨hs, ht, hout⟩ := hst
  unfold readBuffer
  refine Fallible.abreast_liftM_bind _ ⟨hs, ht⟩ fun a ha => ?_
  refine Fallible.abreast_liftM_bind _ ⟨hs, ht⟩ fun _ _ => ?_
  have hrun : Fallible.Abreast (onArchive (read₁ a)) s (onArchive (read₂ a)) t
      (fun d s' d' t' => d = d' ∧ CallersAlike P₁ P₂ s' t') (CallersFailed P₁ P₂) := by
    unfold onArchive
    rw [Fallible.abreast_focus]
    refine ((hread a (mem_of_requiredRef ha)).mapError FfiFault.ofFault).mono ?_ fun _ _ h => h
    rintro d w d' w' ⟨rfl, hw, hw'⟩
    exact ⟨rfl, hw, hw', hout⟩
  refine hrun.bind ?_
  rintro d s' _ t' ⟨rfl, hs', ht', hout'⟩
  refine ⟨hs', ht', ?_⟩
  simp only [FfiState.outputs, Prod.mk.injEq] at hout' ⊢
  exact ⟨trivial, hout'.2⟩

/-- A call of the library that reads into the destination, on both sources. -/
def ReadsAbreast (P₁ : W₁ → Prop) (P₂ : W₂ → Prop) (x : Fallible (ReadState W₁) Fault β)
    (y : Fallible (ReadState W₂) Fault β) : Prop :=
  ∀ s t, Twins P₁ P₂ s t → Fallible.Abreast x s y t
    (fun v s' v' t' => v = v' ∧ Twins P₁ P₂ s' t') (Siblings P₁ P₂)

theorem outputs_store {s : FfiState W₁} {t : FfiState W₂} (hout : s.outputs = t.outputs) {d d' : Bytes}
    (hd : d = d') : ((s.out, dst.store d s.dst, s.outRead) : RasenBuffer × Bytes × ℕ) =
      (t.out, dst.store d' t.dst, t.outRead) := by
  simp only [FfiState.outputs, Prod.mk.injEq] at hout
  rw [hout.1, hout.2.1, hout.2.2, hd]

theorem readCaller_abreast (hst : CallersAlike P₁ P₂ s t)
    {x : Archive → String → Fallible (ReadState W₁) Fault β}
    {y : Archive → String → Fallible (ReadState W₂) Fault β}
    (hxy : ∀ a ∈ archive, ∀ p, ReadsAbreast P₁ P₂ (x a p) (y a p)) :
    Fallible.Abreast (readCaller archive path dst fun a p => withDefaultScratch (x a p)) s
      (readCaller archive path dst fun a p => withDefaultScratch (y a p)) t
      (fun v s' v' t' => v = v' ∧ CallersAlike P₁ P₂ s' t') (CallersFailed P₁ P₂) := by
  obtain ⟨hs, ht, hout⟩ := hst
  have hdst : s.dst = t.dst := congrArg (fun o => o.2.1) hout
  unfold readCaller
  refine Fallible.abreast_liftM_bind _ ⟨hs, ht⟩ fun a ha => ?_
  refine Fallible.abreast_liftM_bind _ ⟨hs, ht⟩ fun p _ => ?_
  refine Fallible.abreast_liftM_bind _ ⟨hs, ht⟩ fun _ _ => ?_
  simp only [onCaller, Fallible.abreast_focus]
  refine Fallible.Abreast.mapError _ ?_
  rw [withDefaultScratch, withDefaultScratch, Fallible.abreast_focus]
  refine (hxy a (mem_of_requiredRef ha) p _ _ ⟨hs, ht, by rw [hdst]⟩).mono ?_ ?_
  · rintro v s' _ t' ⟨rfl, hs', ht', hd⟩
    exact ⟨rfl, hs', ht', outputs_store hout hd⟩
  · exact fun s' t' h => ⟨h.1, h.2.1⟩

theorem readCallerWithScratch_abreast (hst : CallersAlike P₁ P₂ s t)
    {x : Archive → String → Fallible (ReadState W₁) Fault β}
    {y : Archive → String → Fallible (ReadState W₂) Fault β}
    (hxy : ∀ a ∈ archive, ∀ p, ReadsAbreast P₁ P₂ (x a p) (y a p)) :
    Fallible.Abreast (readCallerWithScratch archive path dst scratch x) s
      (readCallerWithScratch archive path dst scratch y) t
      (fun v s' v' t' => v = v' ∧ CallersAlike P₁ P₂ s' t') (CallersFailed P₁ P₂) := by
  obtain ⟨hs, ht, hout⟩ := hst
  have hdst : s.dst = t.dst := congrArg (fun o => o.2.1) hout
  unfold readCallerWithScratch
  refine Fallible.abreast_liftM_bind _ ⟨hs, ht⟩ fun a ha => ?_
  refine Fallible.abreast_liftM_bind _ ⟨hs, ht⟩ fun p _ => ?_
  refine Fallible.abreast_liftM_bind _ ⟨hs, ht⟩ fun _ _ => ?_
  refine Fallible.abreast_liftM_bind _ ⟨hs, ht⟩ fun _ _ => ?_
  simp only [onScratch, Fallible.abreast_focus]
  refine Fallible.Abreast.mapError _ ?_
  refine (hxy a (mem_of_requiredRef ha) p _ _ ⟨hs, ht, by rw [hdst]⟩).mono ?_ ?_
  · rintro v s' _ t' ⟨rfl, hs', ht', hd⟩
    exact ⟨rfl, hs', ht', outputs_store hout hd⟩
  · exact fun s' t' h => ⟨h.1, h.2.1⟩

theorem storeRead_abreast {y₁ : Fallible (FfiState W₁) FfiFault ℕ}
    {y₂ : Fallible (FfiState W₂) FfiFault ℕ}
    (h : Fallible.Abreast y₁ s y₂ t (fun n s' n' t' => n = n' ∧ CallersAlike P₁ P₂ s' t')
      (CallersFailed P₁ P₂)) :
    Fallible.Abreast (y₁ >>= storeRead outRead) s (y₂ >>= storeRead outRead) t
      (fun _ s' _ t' => CallersAlike P₁ P₂ s' t') (CallersFailed P₁ P₂) := by
  refine h.bind ?_
  rintro n s' _ t' ⟨rfl, hst⟩
  unfold storeRead
  refine Fallible.abreast_liftM_bind _ hst.failed fun _ _ => ⟨hst.1, hst.2.1, ?_⟩
  have hout := hst.2.2
  simp only [FfiState.outputs, Prod.mk.injEq] at hout ⊢
  exact ⟨hout.1, hout.2.1, trivial⟩

end Reads

section Calls

variable (hp₁ : Presents R₁ P₁ c) (hp₂ : Presents R₂ P₂ c) {archive : Option Archive}
  (harchive : ∀ a ∈ archive, WellFormed D a ∧ HoldsBlocks a c)

include hp₁ hp₂ harchive

/-- **The functions that read** end alike. -/
theorem ReadCall.body_abreast (call : ReadCall) {s : FfiState W₁} {t : FfiState W₂}
    (hst : CallersAlike P₁ P₂ s t) :
    Fallible.Abreast (call.body D R₁ archive) s (call.body D R₂ archive) t
      (fun _ s' _ t' => CallersAlike P₁ P₂ s' t') (CallersFailed P₁ P₂) := by
  -- the calls for a fresh buffer begin with the path
  have hfresh : ∀ {path : ConstBytes} {out : Pointer}
      {read₁ : Archive → String → Fallible W₁ Fault Bytes}
      {read₂ : Archive → String → Fallible W₂ Fault Bytes},
      (∀ a ∈ archive, ∀ p, Fallible.Abreast (read₁ a p) s.source (read₂ a p) t.source
        (SameResult P₁ P₂) (BothIn P₁ P₂)) →
      Fallible.Abreast (do
          let path ← path.utf8 "path"
          readBuffer archive out fun archive => read₁ archive path :
            Fallible (FfiState W₁) FfiFault Unit) s (do
          let path ← path.utf8 "path"
          readBuffer archive out fun archive => read₂ archive path :
            Fallible (FfiState W₂) FfiFault Unit) t
        (fun _ s' _ t' => CallersAlike P₁ P₂ s' t') (CallersFailed P₁ P₂) := fun hread =>
    Fallible.abreast_liftM_bind _ hst.failed fun p _ =>
      readBuffer_abreast hst fun a ha => hread a ha p
  -- the functions with a scratch space, read by read
  have hwhole : ∀ a ∈ archive, ∀ p, ReadsAbreast P₁ P₂ (RasenArchive.readIntoWithScratch D R₁ a p)
      (RasenArchive.readIntoWithScratch D R₂ a p) := fun a ha p s t hst =>
    (readIntoWithScratch_abreast hp₁ hp₂ (harchive a ha).2 (harchive a ha).1 hst).mono
      (fun _ _ _ _ h => ⟨rfl, h⟩) fun _ _ h => h
  have hpiece : ∀ i, ∀ a ∈ archive, ∀ p, ReadsAbreast P₁ P₂
      (RasenArchive.readChunkIntoWithScratch D R₁ a p i)
      (RasenArchive.readChunkIntoWithScratch D R₂ a p i) := fun i a ha p s t hst =>
    (readChunkIntoWithScratch_abreast hp₁ hp₂ (harchive a ha).2 (harchive a ha).1 i
      hst.siblings).mono (fun _ _ _ _ h => ⟨rfl, h⟩) fun _ _ h => h
  have hrange : ∀ offset, ∀ a ∈ archive, ∀ p, ReadsAbreast P₁ P₂
      (RasenArchive.readRangeWithScratch D R₁ a p offset)
      (RasenArchive.readRangeWithScratch D R₂ a p offset) := fun offset a ha p s t hst =>
    readRangeWithScratch_abreast hp₁ hp₂ (harchive a ha).2 (harchive a ha).1 offset hst
  -- a call that returns nothing ends alike where its results are equal
  have hunit : ∀ {x : Fallible (FfiState W₁) FfiFault Unit} {y : Fallible (FfiState W₂) FfiFault Unit},
      Fallible.Abreast x s y t (fun v s' v' t' => v = v' ∧ CallersAlike P₁ P₂ s' t')
        (CallersFailed P₁ P₂) →
      Fallible.Abreast x s y t (fun _ s' _ t' => CallersAlike P₁ P₂ s' t')
        (CallersFailed P₁ P₂) := fun h => h.mono (fun _ _ _ _ hQ => hQ.2) fun _ _ hE => hE
  cases call with
  | read path out =>
    exact hfresh fun a ha p => read_abreast hp₁ hp₂ (harchive a ha).2 (harchive a ha).1 hst.1 hst.2.1
  | readById assetId out =>
    exact readBuffer_abreast hst fun a ha => readById_abreast hp₁ hp₂ (harchive a ha).2 hst.1 hst.2.1
  | readChunk path i out =>
    exact hfresh fun a ha p =>
      readChunk_abreast hp₁ hp₂ (harchive a ha).2 (harchive a ha).1 hst.1 hst.2.1 i
  | readRange path offset len out =>
    exact hfresh fun a ha p =>
      readRange_abreast hp₁ hp₂ (harchive a ha).2 (harchive a ha).1 hst.1 hst.2.1 offset len
  | readRangeExact path offset len out =>
    exact hfresh fun a ha p =>
      readRangeExact_abreast hp₁ hp₂ (harchive a ha).2 (harchive a ha).1 hst.1 hst.2.1 offset len
  | readInto path dst => exact hunit (readCaller_abreast hst hwhole)
  | readChunkInto path i dst => exact hunit (readCaller_abreast hst (hpiece i))
  | readIntoWithScratch path dst scratch => exact hunit (readCallerWithScratch_abreast hst hwhole)
  | readChunkIntoWithScratch path i dst scratch =>
    exact hunit (readCallerWithScratch_abreast hst (hpiece i))
  -- the count is stored behind the read
  | readRangeInto path offset dst outRead =>
    exact storeRead_abreast (readCaller_abreast hst (hrange offset))
  | readRangeWithScratch path offset dst scratch outRead =>
    exact storeRead_abreast (readCallerWithScratch_abreast hst (hrange offset))

omit hp₁ hp₂ harchive in
/-- A place of the caller is written alike. -/
theorem storeOut_abreast {s : CallState W₁} {t : CallState W₂} (hs : P₁ s.source)
    (ht : P₂ t.source) (hmemory : s.memory = t.memory) (out : Pointer) (name : String)
    (put : FfiMemory → FfiMemory) :
    Fallible.Abreast (storeOut out name put) s (storeOut out name put) t
      (fun _ s' _ t' => P₁ s'.source ∧ P₂ t'.source ∧ s'.memory = t'.memory)
      (fun s' t' => P₁ s'.source ∧ P₂ t'.source) := by
  unfold storeOut
  refine Fallible.abreast_liftM_bind _ ⟨hs, ht⟩ fun _ _ => ⟨hs, ht, ?_⟩
  exact congrArg put hmemory

/-- **All functions on an archive** end alike. -/
theorem ArchiveCall.body_abreast (call : ArchiveCall) {s : CallState W₁} {t : CallState W₂}
    (hs : P₁ s.source) (ht : P₂ t.source) (hmemory : s.memory = t.memory) :
    Fallible.Abreast (call.body D R₁ archive) s (call.body D R₂ archive) t
      (fun _ s' _ t' => P₁ s'.source ∧ P₂ t'.source ∧ s'.memory = t'.memory)
      (fun s' t' => P₁ s'.source ∧ P₂ t'.source) := by
  have hE := And.intro hs ht
  cases call with
  | info out =>
    exact Fallible.abreast_liftM_bind _ hE fun _ _ => storeOut_abreast hs ht hmemory _ _ _
  | entryAt index out =>
    exact Fallible.abreast_liftM_bind _ hE fun _ _ => Fallible.abreast_liftM_bind _ hE fun _ _ =>
      storeOut_abreast hs ht hmemory _ _ _
  | entry path out =>
    exact Fallible.abreast_liftM_bind _ hE fun _ _ => Fallible.abreast_liftM_bind _ hE fun _ _ =>
      Fallible.abreast_liftM_bind _ hE fun _ _ => storeOut_abreast hs ht hmemory _ _ _
  | entryById assetId out =>
    exact Fallible.abreast_liftM_bind _ hE fun _ _ => Fallible.abreast_liftM_bind _ hE fun _ _ =>
      storeOut_abreast hs ht hmemory _ _ _
  | contains path out =>
    exact Fallible.abreast_liftM_bind _ hE fun _ _ => Fallible.abreast_liftM_bind _ hE fun _ _ =>
      Fallible.abreast_liftM_bind _ hE fun _ _ => storeOut_abreast hs ht hmemory _ _ _
  | containsId assetId out =>
    exact Fallible.abreast_liftM_bind _ hE fun _ _ => storeOut_abreast hs ht hmemory _ _ _
  | verify =>
    refine Fallible.abreast_liftM_bind _ hE fun a ha => ?_
    rw [Fallible.abreast_focus]
    refine ((verify_abreast hp₁ hp₂ (harchive a (mem_of_requiredRef ha)).2 hs ht).mapError
      FfiFault.ofFault).mono ?_ fun _ _ h => h
    rintro _ w _ w' ⟨-, hw, hw'⟩
    exact ⟨hw, hw', hmemory⟩
  | reading call =>
    have hstart : CallersAlike P₁ P₂ s.reading t.reading := ⟨hs, ht, by
      simp only [FfiState.outputs, CallState.reading, hmemory]⟩
    show Fallible.Abreast (Fallible.focus CallState.reading CallState.afterReading _) s
      (Fallible.focus CallState.reading CallState.afterReading _) t _ _
    rw [Fallible.abreast_focus]
    refine (call.body_abreast hp₁ hp₂ harchive hstart).mono ?_ fun _ _ h => h
    rintro _ s' _ t' ⟨hs', ht', hout⟩
    simp only [FfiState.outputs, Prod.mk.injEq] at hout
    exact ⟨hs', ht', by simp only [CallState.afterReading, hmemory, hout.1, hout.2.1, hout.2.2]⟩

end Calls

end RasenArchive
