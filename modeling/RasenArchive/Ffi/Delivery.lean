import RasenArchive.Ffi.Read

/-!
# What reads through the C interface deliver

Every read through the C interface, over a source that may answer differently each time, from any
state of the memory of the caller: the bytes that a call delivers are verified, and a call that does
not succeed has one of a few statuses, none of which is a panic.

## Main definitions

* `readStatuses`: the statuses that a read can have
* `ReadCall.Delivered`: what a call that succeeds leaves in the memory of the caller

## Main results

* `ReadCall.body_post`: the function that is called
* `ffi_reads_deliver`: every call either delivers verified bytes or has one of the statuses
-/

namespace RasenArchive

variable (D : Dependencies) {W : Type} (R : RandomAccessRead W)

/-- The statuses of a read that does not succeed. -/
def readStatuses : List RasenStatus :=
  [.nullPointer, .invalidUtf8, .io, .crypto, .invalidPath, .invalidRange, .bufferSizeMismatch,
    .chunkOutOfRange, .tooManyChunks, .corrupt, .lz4, .notFound, .hashCollision, .checksumMismatch]

/-- The fault is a failure with one of the statuses of a read. -/
def ReadFailure (f : FfiFault) : Prop := ∃ e, f = .failure e ∧ e.status ∈ readStatuses

/-- The bytes behind the pointer after a read of `n` bytes to their front. -/
def DeliveredRange (D : Dependencies) (a : Archive) (e : Entry) (offset : ℕ) (before : Bytes)
    (after : Bytes) (n : ℕ) : Prop :=
  RangeAccepted a e offset before.length false n ∧
    ∃ d, d.length = n ∧ IsRange a (VerifiedAt D a) e offset n d ∧ after = d ++ before.drop n

/-- **What a call that succeeds leaves in the memory of the caller**: the verified bytes that it
asked for, in place of what was there in state `s`. -/
def ReadCall.Delivered (a : Archive) (s s' : FfiState W) : ReadCall → Prop
  | .read path _ => ∃ e d, LeadsTo D a path e ∧ IsWhole (VerifiedAt D a) e d ∧
      s'.outputs = (intoBuffer d, s.dst, s.outRead)
  | .readById assetId _ => ∃ e d, entryById a (AssetId.fromRaw assetId) = .ok e ∧
      IsWhole (VerifiedAt D a) e d ∧ s'.outputs = (intoBuffer d, s.dst, s.outRead)
  | .readChunk path i _ => ∃ e d, LeadsTo D a path e ∧ i.toNat < e.chunkCount.toNat ∧
      VerifiedAt D a (e.firstChunk.toNat + i.toNat) d ∧
      s'.outputs = (intoBuffer d, s.dst, s.outRead)
  | .readRange path offset len _ => ∃ e d, LeadsTo D a path e ∧
      RangeAccepted a e offset.toNat len.toNat false d.length ∧
      IsRange a (VerifiedAt D a) e offset.toNat d.length d ∧
      s'.outputs = (intoBuffer d, s.dst, s.outRead)
  | .readRangeExact path offset len _ => ∃ e d, LeadsTo D a path e ∧
      RangeAccepted a e offset.toNat len.toNat true d.length ∧
      IsRange a (VerifiedAt D a) e offset.toNat d.length d ∧
      s'.outputs = (intoBuffer d, s.dst, s.outRead)
  | .readInto path dst | .readIntoWithScratch path dst _ => ∃ e d, LeadsTo D a path e ∧
      IsWhole (VerifiedAt D a) e d ∧ d.length = (dst.view s.dst).length ∧
      s'.outputs = (s.out, dst.store d s.dst, s.outRead)
  | .readChunkInto path i dst | .readChunkIntoWithScratch path i dst _ => ∃ e d,
      LeadsTo D a path e ∧ i.toNat < e.chunkCount.toNat ∧
      VerifiedAt D a (e.firstChunk.toNat + i.toNat) d ∧ d.length = (dst.view s.dst).length ∧
      s'.outputs = (s.out, dst.store d s.dst, s.outRead)
  | .readRangeInto path offset dst _ | .readRangeWithScratch path offset dst _ _ => ∃ e d n,
      LeadsTo D a path e ∧ DeliveredRange D a e offset.toNat (dst.view s.dst) d n ∧
      s'.outputs = (s.out, dst.store d s.dst, n)

/-! ## Faults -/

section Faults

variable {D R} {a : Archive} {e : Entry} {label : ChecksumLabel} {f : Fault}

theorem readFailure_of_error {e : Error} (h : coreStatus e ∈ readStatuses) :
    ReadFailure (.ofFault (.error e)) := ⟨_, rfl, h⟩

theorem readFailure_of_chunk {l : ℕ} (h : ChunkFault label l f) : ReadFailure (.ofFault f) := by
  cases h <;> exact readFailure_of_error (by simp [coreStatus, readStatuses])

theorem readFailure_of_entry (h : WellFormed D a) {p : String} (hf : entry D a p = .error f) :
    ReadFailure (.ofFault f) := by
  obtain rfl | ⟨q, rfl⟩ := entry_error h hf
  · exact readFailure_of_error (by simp [coreStatus, readStatuses])
  · exact readFailure_of_error (by simp [coreStatus, readStatuses])

theorem readFailure_of_entryById (h : WellFormed D a) {id : AssetId}
    (hf : entryById a id = .error f) : ReadFailure (.ofFault f) := by
  obtain rfl | rfl := entryById_error h hf
  · exact readFailure_of_error (by simp [coreStatus, readStatuses])
  · exact readFailure_of_error (by simp [coreStatus, readStatuses])

/-- What the reasons of a failed chunk are to be, so that the faults of the calls are failures. -/
def ErrFails (Err : ChecksumLabel → ℕ → ℕ → Fault → Prop) : Prop :=
  ∀ {label l g f}, Err label l g f → ReadFailure (.ofFault f)

variable {Err : ChecksumLabel → ℕ → ℕ → Fault → Prop} (herr : ErrFails Err)

include herr

theorem readFailure_of_whole (hf : WholeFault a Err e label f) : ReadFailure (.ofFault f) := by
  obtain ⟨-, rfl⟩ | ⟨-, i, -, hi⟩ := hf
  · exact readFailure_of_error (by simp [coreStatus, readStatuses])
  · exact herr hi

theorem readFailure_of_into {dst : Bytes} (hf : EntryFault a Err e label dst f) :
    ReadFailure (.ofFault f) := by
  obtain ⟨-, rfl⟩ | ⟨-, rfl⟩ | ⟨-, -, i, -, hi⟩ := hf
  · exact readFailure_of_error (by simp [coreStatus, readStatuses])
  · exact readFailure_of_error (by simp [coreStatus, readStatuses])
  · exact herr hi

theorem readFailure_of_piece {i : ℕ} (hf : PieceFault a Err e label i f) :
    ReadFailure (.ofFault f) := by
  obtain ⟨-, rfl⟩ | ⟨-, rfl⟩ | ⟨-, hi⟩ := hf
  · exact readFailure_of_error (by simp [coreStatus, readStatuses])
  · exact readFailure_of_error (by simp [coreStatus, readStatuses])
  · exact herr hi

theorem readFailure_of_range {Rel : ℕ → Bytes → Prop} {offset len : ℕ} {exact : Bool}
    (hf : RangeFailsAt a Rel Err e label offset len exact f) : ReadFailure (.ofFault f) := by
  obtain ⟨-, rfl | rfl⟩ | ⟨n, -, i, -, -, hi, -⟩ := hf
  · exact readFailure_of_error (by simp [coreStatus, readStatuses])
  · exact readFailure_of_error (by simp [coreStatus, readStatuses])
  · exact herr hi

end Faults

/-! ## One call -/

section Checks

variable {name : String} {f : FfiFault}

theorem readFailure_nullPointer (name : String) : ReadFailure (.failure (nullPointer name)) :=
  ⟨_, rfl, by simp [nullPointer, readStatuses]⟩

theorem readFailure_of_requiredRef {α : Type} {value : Option α}
    (h : requiredRef value name = .error f) : ReadFailure f :=
  requiredRef_error h ▸ readFailure_nullPointer name

theorem readFailure_of_requiredMut {value : Pointer} (h : requiredMut value name = .error f) :
    ReadFailure f := requiredMut_error h ▸ readFailure_nullPointer name

theorem readFailure_of_bytesMut {dst : MutBytes} (h : dst.bytesMut name = .error f) :
    ReadFailure f := MutBytes.bytesMut_error h ▸ readFailure_nullPointer name

theorem readFailure_of_utf8 {data : ConstBytes} (h : data.utf8 name = .error f) :
    ReadFailure f := by
  obtain rfl | rfl := ConstBytes.utf8_error h
  · exact readFailure_nullPointer name
  · exact ⟨_, rfl, by simp [invalidUtf8, readStatuses]⟩

end Checks

section Calls

variable {D R} {a : Archive} {archive : Option Archive} {path : ConstBytes} {dst : MutBytes}
  {out scratch outRead : Pointer} {s : FfiState W} {β : Type}

theorem readBuffer_post {read : Archive → Fallible W Fault Bytes} {Q : Archive → Bytes → Prop}
    (hread : ∀ a ∈ archive, Fallible.Post (read a) s.source (fun d _ => Q a d)
      fun f _ => ReadFailure (.ofFault f)) :
    Fallible.Post (readBuffer archive out read) s
      (fun _ s' => ∃ a ∈ archive, ∃ d, Q a d ∧ s'.outputs = (intoBuffer d, s.dst, s.outRead))
      (fun f s' => ReadFailure f ∧ s'.dst.length = s.dst.length) := by
  unfold readBuffer
  refine (Fallible.post_liftM_bind _).mpr ⟨fun a ha => ?_,
    fun f hf => ⟨readFailure_of_requiredRef hf, rfl⟩⟩
  refine (Fallible.post_liftM_bind _).mpr ⟨fun _ _ => ?_,
    fun f hf => ⟨readFailure_of_requiredMut hf, rfl⟩⟩
  rw [Fallible.post_bind, onArchive, Fallible.post_focus, Fallible.post_mapError]
  refine (hread a (mem_of_requiredRef ha)).mono (fun d w' hd => ⟨a, mem_of_requiredRef ha, d, hd, rfl⟩)
    fun f w' hf => ⟨hf, rfl⟩

/-- What a call of the library that reads into the destination leaves there. -/
def CallerPost (dst : MutBytes) (s : FfiState W) (Q : β → Bytes → Prop)
    (x : Fallible (ReadState W) Fault β) (scratch : ArchiveScratch) : Prop :=
  Fallible.Post x ⟨s.source, dst.view s.dst, scratch⟩ (fun r t => Q r t.dst) fun f t =>
    t.dst.length = (dst.view s.dst).length ∧ ReadFailure (.ofFault f)

theorem readCaller_post {x : Archive → String → Fallible (ReadState W) Fault β}
    {Q : Archive → β → Bytes → Prop}
    (hx : ∀ a ∈ archive, ∀ p, path.Holds (asBytes p) → CallerPost dst s (Q a) (x a p) {}) :
    Fallible.Post (readCaller archive path dst fun a p => withDefaultScratch (x a p)) s
      (fun r s' => ∃ a ∈ archive, ∃ d, Q a r d ∧
        s'.outputs = (s.out, dst.store d s.dst, s.outRead))
      (fun f s' => ReadFailure f ∧ s'.dst.length = s.dst.length) := by
  unfold readCaller
  refine (Fallible.post_liftM_bind _).mpr ⟨fun a ha => ?_,
    fun f hf => ⟨readFailure_of_requiredRef hf, rfl⟩⟩
  refine (Fallible.post_liftM_bind _).mpr ⟨fun p hp => ?_,
    fun f hf => ⟨readFailure_of_utf8 hf, rfl⟩⟩
  refine (Fallible.post_liftM_bind _).mpr ⟨fun _ _ => ?_,
    fun f hf => ⟨readFailure_of_bytesMut hf, rfl⟩⟩
  simp only [onCaller, Fallible.post_focus, Fallible.post_mapError, withDefaultScratch]
  refine (hx a (mem_of_requiredRef ha) p (ConstBytes.utf8_eq_ok_iff.mp hp)).mono ?_ ?_
  · exact fun r t hQ => ⟨a, mem_of_requiredRef ha, t.dst, hQ, rfl⟩
  · rintro f t ⟨hlen, hf⟩
    exact ⟨hf, MutBytes.length_store hlen⟩

theorem readCallerWithScratch_post {x : Archive → String → Fallible (ReadState W) Fault β}
    {Q : Archive → β → Bytes → Prop}
    (hx : ∀ a ∈ archive, ∀ p, path.Holds (asBytes p) →
      CallerPost dst s (Q a) (x a p) s.scratch) :
    Fallible.Post (readCallerWithScratch archive path dst scratch x) s
      (fun r s' => ∃ a ∈ archive, ∃ d, Q a r d ∧
        s'.outputs = (s.out, dst.store d s.dst, s.outRead))
      (fun f s' => ReadFailure f ∧ s'.dst.length = s.dst.length) := by
  unfold readCallerWithScratch
  refine (Fallible.post_liftM_bind _).mpr ⟨fun a ha => ?_,
    fun f hf => ⟨readFailure_of_requiredRef hf, rfl⟩⟩
  refine (Fallible.post_liftM_bind _).mpr ⟨fun p hp => ?_,
    fun f hf => ⟨readFailure_of_utf8 hf, rfl⟩⟩
  refine (Fallible.post_liftM_bind _).mpr ⟨fun _ _ => ?_,
    fun f hf => ⟨readFailure_of_bytesMut hf, rfl⟩⟩
  refine (Fallible.post_liftM_bind _).mpr ⟨fun _ _ => ?_,
    fun f hf => ⟨readFailure_of_requiredMut hf, rfl⟩⟩
  rw [onScratch, Fallible.post_focus, Fallible.post_mapError]
  refine (hx a (mem_of_requiredRef ha) p (ConstBytes.utf8_eq_ok_iff.mp hp)).mono ?_ ?_
  · exact fun r t hQ => ⟨a, mem_of_requiredRef ha, t.dst, hQ, rfl⟩
  · rintro f t ⟨hlen, hf⟩
    exact ⟨hf, MutBytes.length_store hlen⟩

/-- The check behind a range read, and the number that it leaves. -/
theorem storeRead_post {y : Fallible (FfiState W) FfiFault ℕ} {Q : Archive → ℕ → Bytes → Prop}
    (hlen : ∀ a n d, Q a n d → d.length = (dst.view s.dst).length)
    (hy : Fallible.Post y s
      (fun n s' => ∃ a ∈ archive, ∃ d, Q a n d ∧
        s'.outputs = (s.out, dst.store d s.dst, s.outRead))
      (fun f s' => ReadFailure f ∧ s'.dst.length = s.dst.length)) :
    Fallible.Post (y >>= storeRead outRead) s
      (fun _ s' => ∃ a ∈ archive, ∃ d n, Q a n d ∧ s'.outputs = (s.out, dst.store d s.dst, n))
      (fun f s' => ReadFailure f ∧ s'.dst.length = s.dst.length) := by
  refine hy.bind ?_
  rintro n t ⟨a, ha, d, hQ, hout⟩
  obtain ⟨hout, hdst, -⟩ : t.out = s.out ∧ t.dst = dst.store d s.dst ∧ t.outRead = s.outRead := by
    simpa [FfiState.outputs] using hout
  unfold storeRead
  refine (Fallible.post_liftM_bind _).mpr ⟨fun _ _ => ?_,
    fun f hf => ⟨readFailure_of_requiredMut hf, ?_⟩⟩
  · exact ⟨a, ha, d, n, hQ, by simp [FfiState.outputs, hout, hdst]⟩
  · rw [hdst, MutBytes.length_store (hlen a n d hQ)]

/-! ### What the library delivers -/

section Library

variable (h : WellFormed D a) {p : String} (hp : path.Holds (asBytes p)) {w : W}
  {scratch : ArchiveScratch}

theorem errFails_chunk {e : Entry} {start : ℕ} :
    ErrFails (FirstErr (VerifiedAt D a) (fun label l _ f => ChunkFault label l f) e start) :=
  fun h => readFailure_of_chunk h.1

include h hp

theorem read_delivers :
    Fallible.Post (read D R a p) w
      (fun d _ => ∃ e, LeadsTo D a path e ∧ IsWhole (VerifiedAt D a) e d)
      (fun f _ => ReadFailure (.ofFault f)) := by
  refine (read_post (anySource D R a).trace h trivial).mono ?_ ?_
  · rintro d w' ⟨e, he, -, -, hd⟩
    exact ⟨e, ⟨p, hp, he⟩, hd⟩
  · rintro f w' ⟨-, hf | ⟨e, q, -, hf⟩⟩
    · exact readFailure_of_entry h hf
    · exact readFailure_of_whole errFails_chunk hf

omit hp in
theorem readById_delivers (assetId : UInt64) :
    Fallible.Post (readById D R a (AssetId.fromRaw assetId)) w
      (fun d _ => ∃ e, entryById a (AssetId.fromRaw assetId) = .ok e ∧
        IsWhole (VerifiedAt D a) e d)
      (fun f _ => ReadFailure (.ofFault f)) := by
  refine (readById_post (anySource D R a).trace h trivial _).mono ?_ ?_
  · rintro d w' ⟨e, he, -, -, hd⟩
    exact ⟨e, he, hd⟩
  · rintro f w' ⟨-, hf | ⟨e, -, hf⟩⟩
    · exact readFailure_of_entryById h hf
    · exact readFailure_of_whole errFails_chunk hf

theorem readChunk_delivers (i : UInt32) :
    Fallible.Post (readChunk D R a p i) w
      (fun d _ => ∃ e, LeadsTo D a path e ∧ i.toNat < e.chunkCount.toNat ∧
        VerifiedAt D a (e.firstChunk.toNat + i.toNat) d)
      (fun f _ => ReadFailure (.ofFault f)) := by
  refine (readChunk_post (anySource D R a).trace h trivial i).mono ?_ ?_
  · rintro d w' ⟨e, he, hi, -, hd⟩
    exact ⟨e, ⟨p, hp, he⟩, hi, hd⟩
  · rintro f w' ⟨-, hf | ⟨e, q, -, hf⟩⟩
    · exact readFailure_of_entry h hf
    · exact readFailure_of_piece (fun hc => readFailure_of_chunk hc) hf

theorem readRange_delivers (offset len : UInt64) (exact : Bool) :
    Fallible.Post (if exact then readRangeExact D R a p offset len
        else readRange D R a p offset len) w
      (fun d _ => ∃ e, LeadsTo D a path e ∧
        RangeAccepted a e offset.toNat len.toNat exact d.length ∧
        IsRange a (VerifiedAt D a) e offset.toNat d.length d)
      (fun f _ => ReadFailure (.ofFault f)) := by
  refine (readRange_post (anySource D R a).trace h trivial offset len exact).mono ?_ ?_
  · rintro d w' ⟨e, he, -, hacc, hd⟩
    exact ⟨e, ⟨p, hp, he⟩, hacc, hd⟩
  · rintro f w' ⟨-, hf | ⟨e, q, -, hf⟩⟩
    · exact readFailure_of_entry h hf
    · exact readFailure_of_range (fun hc => readFailure_of_chunk hc) hf

theorem readInto_delivers : CallerPost dst s
    (fun _ d => d.length = (dst.view s.dst).length ∧
      ∃ e, LeadsTo D a path e ∧ IsWhole (VerifiedAt D a) e d)
    (readIntoWithScratch D R a p) scratch := by
  have spec := (anySource D R a).trace
  refine post_locate h (fun q idx e he hidx => ?_) fun f hf => ⟨rfl, readFailure_of_entry h hf⟩
  have hpost : Fallible.Post (readEntryInto D R a idx (.path q))
      ⟨s.source, dst.view s.dst, scratch⟩ _ _ := readEntryInto_post spec h hidx trivial
  refine hpost.mono ?_ ?_
  · rintro _ t ⟨-, hlen, -, hd⟩
    have hwhole := spec.run.length_whole h (List.mem_of_getElem? hidx) hd
    exact ⟨hwhole.trans hlen.symm, e, ⟨p, hp, he⟩, hd⟩
  · rintro f t ⟨-, hlen, hf⟩
    exact ⟨hlen, readFailure_of_into errFails_chunk hf⟩

theorem readChunkInto_delivers (i : UInt32) : CallerPost dst s
    (fun _ d => d.length = (dst.view s.dst).length ∧
      ∃ e, LeadsTo D a path e ∧ i.toNat < e.chunkCount.toNat ∧
        VerifiedAt D a (e.firstChunk.toNat + i.toNat) d)
    (readChunkIntoWithScratch D R a p i) scratch := by
  have spec := (anySource D R a).trace
  refine post_locate h (fun q idx e he hidx => ?_) fun f hf => ⟨rfl, readFailure_of_entry h hf⟩
  have hpost : Fallible.Post (readChunkIntoFound D R a idx (.path q) i)
      ⟨s.source, dst.view s.dst, scratch⟩ _ _ := readChunkIntoFound_post spec h hidx trivial i
  refine hpost.mono ?_ ?_
  · rintro _ t ⟨hi, -, hd, hlen⟩
    exact ⟨hlen, e, ⟨p, hp, he⟩, hi, hd⟩
  · rintro f t ⟨-, hlen, hf | ⟨-, -, chunk, -, -, rfl⟩⟩
    · exact ⟨hlen, readFailure_of_piece (fun hc => readFailure_of_chunk hc) hf⟩
    · exact ⟨hlen, readFailure_of_error (by simp [coreStatus, readStatuses])⟩

theorem readRangeInto_delivers (offset : UInt64) (hlt : s.dst.length < 2 ^ 64) : CallerPost dst s
    (fun n d => ∃ e, LeadsTo D a path e ∧
      DeliveredRange D a e offset.toNat (dst.view s.dst) d n)
    (readRangeWithScratch D R a p offset) scratch := by
  have hview : (dst.view s.dst).length < 2 ^ 64 := by
    cases dst with
    | valid => exact hlt
    | null len => exact Nat.two_pow_pos 64
  have hpost : Fallible.Post (readRangeWithScratch D R a p offset)
      ⟨s.source, dst.view s.dst, scratch⟩ _ _ :=
    readRangeWithScratch_post (anySource D R a).trace h trivial offset hview
  refine hpost.mono ?_ ?_
  · rintro n t ⟨e, he, -, hacc, hd⟩
    exact ⟨e, ⟨p, hp, he⟩, hacc, hd⟩
  · rintro f t ⟨-, hlen, hf | ⟨e, q, -, hf⟩⟩
    · exact ⟨hlen, readFailure_of_entry h hf⟩
    · exact ⟨hlen, readFailure_of_range (fun hc => readFailure_of_chunk hc) hf⟩

end Library

theorem DeliveredRange.length_eq {e : Entry} {offset n : ℕ} {before after : Bytes}
    (hd : DeliveredRange D a e offset before after n) : after.length = before.length := by
  obtain ⟨hacc, d, hlen, -, rfl⟩ := hd
  have hn := hacc.length_eq
  have hle := hacc.offset_le
  rw [List.length_append, List.length_drop, hlen]
  omega

/-- The destination keeps its length. -/
theorem length_of_deliveredRange {offset n : ℕ} {before after : Bytes}
    (h : ∃ e, LeadsTo D a path e ∧ DeliveredRange D a e offset before after n) :
    after.length = before.length := by
  obtain ⟨e, -, hd⟩ := h
  exact hd.length_eq

/-- **The function that is called**, from any state. -/
theorem ReadCall.body_post (h : ∀ a ∈ archive, WellFormed D a) (call : ReadCall)
    (hlt : s.dst.length < 2 ^ 64) :
    Fallible.Post (call.body D R archive) s
      (fun _ s' => ∃ a ∈ archive, call.Delivered D a s s')
      (fun f s' => ReadFailure f ∧ s'.dst.length = s.dst.length) := by
  -- the calls for a fresh buffer begin with the path
  have hfresh : ∀ {path : ConstBytes} {out : Pointer}
      {read : Archive → String → Fallible W Fault Bytes} {Q : Archive → Bytes → Prop},
      (∀ a ∈ archive, ∀ p, path.Holds (asBytes p) → Fallible.Post (read a p) s.source
        (fun d _ => Q a d) fun f _ => ReadFailure (.ofFault f)) →
      Fallible.Post (do
          let path ← path.utf8 "path"
          readBuffer archive out fun archive => read archive path :
            Fallible (FfiState W) FfiFault Unit) s
        (fun _ s' => ∃ a ∈ archive, ∃ d, Q a d ∧ s'.outputs = (intoBuffer d, s.dst, s.outRead))
        (fun f s' => ReadFailure f ∧ s'.dst.length = s.dst.length) := by
    intro path out read Q hread
    refine (Fallible.post_liftM_bind _).mpr ⟨fun p hp => ?_,
      fun f hf => ⟨readFailure_of_utf8 hf, rfl⟩⟩
    exact readBuffer_post fun a ha => hread a ha p (ConstBytes.utf8_eq_ok_iff.mp hp)
  -- each function delivers what the reading function under it does
  cases call with
  | read path out =>
    refine (hfresh fun a ha p hp => read_delivers (h a ha) hp).mono ?_ fun _ _ hf => hf
    rintro _ s' ⟨a, ha, d, ⟨e, he, hd⟩, hout⟩
    exact ⟨a, ha, e, d, he, hd, hout⟩
  | readById assetId out =>
    refine (readBuffer_post fun a ha => readById_delivers (h a ha) assetId).mono ?_
      fun _ _ hf => hf
    rintro _ s' ⟨a, ha, d, ⟨e, he, hd⟩, hout⟩
    exact ⟨a, ha, e, d, he, hd, hout⟩
  | readChunk path i out =>
    refine (hfresh fun a ha p hp => readChunk_delivers (h a ha) hp i).mono ?_ fun _ _ hf => hf
    rintro _ s' ⟨a, ha, d, ⟨e, he, hi, hd⟩, hout⟩
    exact ⟨a, ha, e, d, he, hi, hd, hout⟩
  | readRange path offset len out =>
    refine (hfresh fun a ha p hp => readRange_delivers (h a ha) hp offset len false).mono ?_
      fun _ _ hf => hf
    rintro _ s' ⟨a, ha, d, ⟨e, he, hacc, hd⟩, hout⟩
    exact ⟨a, ha, e, d, he, hacc, hd, hout⟩
  | readRangeExact path offset len out =>
    refine (hfresh fun a ha p hp => readRange_delivers (h a ha) hp offset len true).mono ?_
      fun _ _ hf => hf
    rintro _ s' ⟨a, ha, d, ⟨e, he, hacc, hd⟩, hout⟩
    exact ⟨a, ha, e, d, he, hacc, hd, hout⟩
  | readInto path dst =>
    refine (readCaller_post fun a ha p hp => readInto_delivers (h a ha) hp).mono ?_
      fun _ _ hf => hf
    rintro _ s' ⟨a, ha, d, ⟨hlen, e, he, hd⟩, hout⟩
    exact ⟨a, ha, e, d, he, hd, hlen, hout⟩
  | readChunkInto path i dst =>
    refine (readCaller_post fun a ha p hp => readChunkInto_delivers (h a ha) hp i).mono ?_
      fun _ _ hf => hf
    rintro _ s' ⟨a, ha, d, ⟨hlen, e, he, hi, hd⟩, hout⟩
    exact ⟨a, ha, e, d, he, hi, hd, hlen, hout⟩
  | readIntoWithScratch path dst scratch =>
    refine (readCallerWithScratch_post fun a ha p hp => readInto_delivers (h a ha) hp).mono ?_
      fun _ _ hf => hf
    rintro _ s' ⟨a, ha, d, ⟨hlen, e, he, hd⟩, hout⟩
    exact ⟨a, ha, e, d, he, hd, hlen, hout⟩
  | readChunkIntoWithScratch path i dst scratch =>
    refine (readCallerWithScratch_post fun a ha p hp =>
      readChunkInto_delivers (h a ha) hp i).mono ?_ fun _ _ hf => hf
    rintro _ s' ⟨a, ha, d, ⟨hlen, e, he, hi, hd⟩, hout⟩
    exact ⟨a, ha, e, d, he, hi, hd, hlen, hout⟩
  | readRangeInto path offset dst outRead =>
    refine (storeRead_post (fun _ _ _ hd => length_of_deliveredRange hd)
      (readCaller_post fun a ha p hp => readRangeInto_delivers (h a ha) hp offset hlt)).mono ?_
        fun _ _ hf => hf
    rintro _ s' ⟨a, ha, d, n, ⟨e, he, hd⟩, hout⟩
    exact ⟨a, ha, e, d, n, he, hd, hout⟩
  | readRangeWithScratch path offset dst scratch outRead =>
    refine (storeRead_post (fun _ _ _ hd => length_of_deliveredRange hd)
      (readCallerWithScratch_post fun a ha p hp =>
        readRangeInto_delivers (h a ha) hp offset hlt)).mono ?_ fun _ _ hf => hf
    rintro _ s' ⟨a, ha, d, n, ⟨e, he, hd⟩, hout⟩
    exact ⟨a, ha, e, d, n, he, hd, hout⟩

end Calls

/-- **Reads through the C interface**, over any source and from any state of the memory of the
caller: a call whose status is `ok` delivers verified bytes and keeps the last error, and any other
status is one of a few, none of them a panic, with a last error that is a C string. -/
theorem ffi_reads_deliver {key : Bytes} {limits : ArchiveLimits} {w w' : W} {a : Archive}
    (hopen : openWithLimits D R key limits w = (.ok a, w')) (call : ReadCall)
    (t : Thread (FfiState W)) (hlt : t.state.dst.length < 2 ^ 64) :
    ((call.run D R (some a) t).1 = .ok →
      call.Delivered D a t.state (call.run D R (some a) t).2.state ∧
        (call.run D R (some a) t).2.lastError = t.lastError) ∧
    ((call.run D R (some a) t).1 ≠ .ok →
      (call.run D R (some a) t).1 ∈ readStatuses ∧
        '\x00' ∉ (call.run D R (some a) t).2.lastError.toList) := by
  have h : ∀ a' ∈ some a, WellFormed D a' := by
    rintro a' ⟨⟩
    exact openWithLimits_wellFormed hopen
  obtain ⟨hok, herr⟩ := ffiCall_post (call.body_post h hlt : Fallible.Post _ t.state _ _)
  constructor
  · intro hstatus
    -- the archive is the one that was opened
    obtain ⟨⟨a', ⟨⟩, hd⟩, hlast⟩ := hok hstatus
    exact ⟨hd, hlast⟩
  · intro hstatus
    obtain ⟨f, ⟨⟨e, rfl, he⟩, -⟩, hcode, hlast⟩ := herr hstatus
    exact ⟨hcode ▸ he, hlast ▸ sanitize_nul_free _⟩

/-- Reading the small archive. -/
theorem ffi_reads_deliver_small :
    (ReadCall.read (.data (asBytes "a")) .valid).Delivered reference smallArchive smallCaller.state
      ((ReadCall.read (.data (asBytes "a")) .valid).run reference sliceSource (some smallArchive)
        smallCaller).2.state :=
  ((ffi_reads_deliver reference sliceSource openWithLimits_small
    (.read (.data (asBytes "a")) .valid) smallCaller (by decide)).1 (by decide +kernel)).1

end RasenArchive
