import RasenArchive.Archive.Access
import RasenArchive.Library.Simulation

/-!
# What reading keeps

An archive goes to its source for its length and for single reads only. What these keep of the state
of the source is kept by opening, by verification and by every access, however they end.

## Main results

* `openWithLimits_stays`: opening
* `read_stays` and the like: each access
* `verify_stays`: verification
-/

namespace RasenArchive

section Kept

variable {D : Dependencies} {W : Type} {R : RandomAccessRead W} {a : Archive} {P : W → Prop}
  (h : Stays R P)

include h

/-- **Opening** stays in the states of `P`. -/
theorem openWithLimits_stays (key : Bytes) (limits : ArchiveLimits) :
    Fallible.Keeps P (openWithLimits D R key limits) := by
  unfold openWithLimits
  refine (Fallible.Keeps.liftM _).bind fun _ => ?_
  refine Fallible.Keeps.bind (fun w hw => readAt_stays h _ _ hw) fun headerBytes => ?_
  refine (Fallible.Keeps.liftM _).bind fun header => ?_
  refine Fallible.Keeps.bind (fun w hw => sourceLen_stays h hw) fun fileLen => ?_
  refine (Fallible.Keeps.liftM _).bind fun _ => (Fallible.Keeps.liftM _).bind fun tocLen => ?_
  exact Fallible.Keeps.bind (fun w hw => readAt_stays h _ _ hw) fun toc => Fallible.Keeps.liftM _

/-! ## One chunk -/

theorem onDst_stays (offset : ℕ) :
    Fallible.Keeps (fun s => P s.source) (onDst (readExactAt R offset)) :=
  fun _ hs => readExactAt_stays h offset hs

theorem onStored_stays (offset : ℕ) :
    Fallible.Keeps (fun s => P s.source) (onStored (readExactAt R offset)) :=
  fun _ hs => readExactAt_stays h offset hs

omit h in
theorem onBytes_stays (x : Fallible Bytes Fault Unit) :
    Fallible.Keeps (fun s : BlockState W => P s.source) (onBytes x) := fun _ hs => hs

theorem readBlock_stays (chunk : Chunk) (g : ℕ) :
    Fallible.Keeps (fun s => P s.source) (readBlock D R a chunk g) := by
  by_cases hraw : a.aeadKey = none ∧ chunk.compressed = false
  · rw [readBlock_of_raw hraw]
    exact onDst_stays h _
  rw [readBlock_of_stored hraw]
  unfold readStoredBlock
  refine (Fallible.Keeps.liftM _).bind fun _ => Fallible.Keeps.bind (fun _ hs => hs) fun _ => ?_
  refine Fallible.Keeps.gets_bind fun _ => (Fallible.Keeps.liftM _).bind fun _ => ?_
  refine (onStored_stays h _).bind fun _ => Fallible.Keeps.gets_bind fun _ => ?_
  refine (Fallible.Keeps.liftM _).bind fun _ => (Fallible.Keeps.liftM _).bind fun plain => ?_
  split_ifs
  · exact onBytes_stays _
  · exact Fallible.Keeps.gets_bind fun _ => (Fallible.Keeps.liftM _).bind fun _ => onBytes_stays _

/-- **One chunk.** -/
theorem readChunkByIndexInto_stays (label : ChecksumLabel) (l g : ℕ) :
    Fallible.Keeps (fun s => P s.source) (readChunkByIndexInto D R a label l g) := by
  unfold readChunkByIndexInto
  refine (Fallible.Keeps.liftM _).bind fun _ => (Fallible.Keeps.liftM _).bind fun chunk => ?_
  refine (Fallible.Keeps.liftM _).bind fun _ => Fallible.Keeps.gets_bind fun _ => ?_
  refine (Fallible.Keeps.liftM _).bind fun _ => (readBlock_stays h chunk g).bind fun _ => ?_
  exact Fallible.Keeps.gets_bind fun _ => Fallible.Keeps.liftM _

/-! ## Entries and ranges -/

theorem onDecoded_stays (label : ChecksumLabel) (l g : ℕ) :
    Fallible.Keeps (fun s => P s.source) (onDecoded (readChunkByIndexInto D R a label l g)) :=
  fun s hs => readChunkByIndexInto_stays h label l g ⟨s.source, s.scratch.decoded, s.scratch.stored⟩ hs

theorem readEntryChunks_stays (entry : Entry) (label : ChecksumLabel) (turns l written : ℕ) :
    Fallible.Keeps (fun s => P s.source) (readEntryChunks D R a entry label turns l written) := by
  induction turns generalizing l written with
  | zero => exact Fallible.Keeps.pure _
  | succ turns ih =>
    refine Fallible.Keeps.bind ?_ fun written' => ih (l + 1) written'
    unfold readEntryChunk
    refine (Fallible.Keeps.liftM _).bind fun g => (Fallible.Keeps.liftM _).bind fun _ => ?_
    refine (Fallible.Keeps.liftM _).bind fun _ => (Fallible.Keeps.liftM _).bind fun stop => ?_
    refine Fallible.Keeps.gets_bind fun s => (Fallible.Keeps.liftM _).bind fun _ => ?_
    refine Fallible.Keeps.bind ?_ fun _ => Fallible.Keeps.pure _
    exact fun s hs => readChunkByIndexInto_stays h label l g
      ⟨s.source, s.dst.extract written stop, s.scratch.stored⟩ hs

theorem readEntryInto_stays (idx : ℕ) (label : ChecksumLabel) :
    Fallible.Keeps (fun s => P s.source) (readEntryInto D R a idx label) := by
  unfold readEntryInto
  refine (Fallible.Keeps.liftM _).bind fun entry => (Fallible.Keeps.liftM _).bind fun _ => ?_
  refine (Fallible.Keeps.liftM _).bind fun _ => Fallible.Keeps.gets_bind fun _ => ?_
  refine (Fallible.Keeps.liftM _).bind fun _ => (readEntryChunks_stays h _ _ _ _ _).bind fun _ => ?_
  exact Fallible.Keeps.gets_bind fun _ => Fallible.Keeps.liftM _

omit h in
theorem copyRange_stays (written takeStart takeEnd : ℕ) :
    Fallible.Keeps (fun s : ReadState W => P s.source) (copyRange written takeStart takeEnd) := by
  unfold copyRange
  refine (Fallible.Keeps.liftM _).bind fun _ => (Fallible.Keeps.liftM _).bind fun stop => ?_
  refine Fallible.Keeps.gets_bind fun s => (Fallible.Keeps.liftM _).bind fun _ => ?_
  refine (Fallible.Keeps.liftM _).bind fun decoded => Fallible.Keeps.bind ?_ fun _ =>
    Fallible.Keeps.pure _
  exact fun s hs => hs

theorem readRangeChunks_stays (entry : Entry) (label : ChecksumLabel)
    (offset stop turns l written : ℕ) :
    Fallible.Keeps (fun s => P s.source)
      (readRangeChunks D R a entry label offset stop turns l written) := by
  induction turns generalizing l written with
  | zero => exact Fallible.Keeps.pure _
  | succ turns ih =>
    refine Fallible.Keeps.bind ?_ fun written' => ih (l + 1) written'
    unfold readRangeChunk
    refine (Fallible.Keeps.liftM _).bind fun _ => (Fallible.Keeps.liftM _).bind fun g => ?_
    refine (Fallible.Keeps.liftM _).bind fun chunk => (Fallible.Keeps.liftM _).bind fun _ => ?_
    refine Fallible.Keeps.bind (fun _ hs => hs) fun _ => (onDecoded_stays h _ _ _).bind fun _ => ?_
    -- the rest of the turn works out the window of the chunk
    refine (Fallible.Keeps.liftM _).bind fun _ => (Fallible.Keeps.liftM _).bind fun _ => ?_
    refine (Fallible.Keeps.liftM _).bind fun _ => (Fallible.Keeps.liftM _).bind fun _ => ?_
    refine (Fallible.Keeps.liftM _).bind fun _ => (Fallible.Keeps.liftM _).bind fun _ => ?_
    exact copyRange_stays _ _ _

theorem readRangeIndexInto_stays (idx : ℕ) (label : ChecksumLabel) (offset : ℕ) :
    Fallible.Keeps (fun s => P s.source) (readRangeIndexInto D R a idx label offset) := by
  unfold readRangeIndexInto
  refine Fallible.Keeps.gets_bind fun s => ?_
  split_ifs
  · exact Fallible.Keeps.pure _
  unfold readNonemptyRange
  refine (Fallible.Keeps.liftM _).bind fun entry => Fallible.Keeps.gets_bind fun _ => ?_
  refine (Fallible.Keeps.liftM _).bind fun _ => (Fallible.Keeps.liftM _).bind fun _ => ?_
  refine (Fallible.Keeps.liftM _).bind fun _ => (Fallible.Keeps.liftM _).bind fun _ => ?_
  refine (Fallible.Keeps.liftM _).bind fun _ => (Fallible.Keeps.liftM _).bind fun _ => ?_
  refine (Fallible.Keeps.liftM _).bind fun _ => (readRangeChunks_stays h _ _ _ _ _ _ _).bind fun _ => ?_
  exact Fallible.Keeps.gets_bind fun _ => Fallible.Keeps.liftM _

/-! ## The calls -/

omit h in
theorem intoFresh_stays {x : Fallible (ReadState W) Fault Unit}
    (hx : Fallible.Keeps (fun s => P s.source) x) (n : ℕ) : Fallible.Keeps P (intoFresh n x) := by
  intro w hw
  have hkept := hx ⟨w, List.replicate n 0, {}⟩ hw
  unfold intoFresh
  rcases hr : x ⟨w, List.replicate n 0, {}⟩ with ⟨f | ⟨⟨⟩⟩, s⟩ <;> rw [hr] at hkept <;> exact hkept

theorem readFound_stays (idx : ℕ) (label : ChecksumLabel) :
    Fallible.Keeps P (readFound D R a idx label) := by
  unfold readFound
  refine (Fallible.Keeps.liftM _).bind fun _ => (Fallible.Keeps.liftM _).bind fun _ => ?_
  exact (Fallible.Keeps.liftM _).bind fun _ => intoFresh_stays (readEntryInto_stays h _ _) _

theorem onWhole_stays (label : ChecksumLabel) (l g : ℕ) :
    Fallible.Keeps (fun s => P s.source) (onWhole (readChunkByIndexInto D R a label l g)) :=
  fun s hs => readChunkByIndexInto_stays h label l g ⟨s.source, s.dst, s.scratch.stored⟩ hs

theorem read_stays (path : String) : Fallible.Keeps P (read D R a path) := by
  refine (Fallible.Keeps.liftM _).bind ?_
  rintro ⟨normalized, idx⟩
  exact readFound_stays h _ _

theorem readById_stays (id : AssetId) : Fallible.Keeps P (readById D R a id) :=
  (Fallible.Keeps.liftM _).bind fun _ => (Fallible.Keeps.liftM _).bind fun _ => readFound_stays h _ _

theorem readIntoWithScratch_stays (path : String) :
    Fallible.Keeps (fun s => P s.source) (readIntoWithScratch D R a path) := by
  refine (Fallible.Keeps.liftM _).bind ?_
  rintro ⟨normalized, idx⟩
  exact readEntryInto_stays h _ _

theorem readChunk_stays (path : String) (i : UInt32) :
    Fallible.Keeps P (readChunk D R a path i) := by
  refine (Fallible.Keeps.liftM _).bind ?_
  rintro ⟨normalized, idx⟩
  unfold readChunkFound
  refine (Fallible.Keeps.liftM _).bind fun _ => (Fallible.Keeps.liftM _).bind fun _ => ?_
  refine (Fallible.Keeps.liftM _).bind fun _ => (Fallible.Keeps.liftM _).bind fun _ => ?_
  exact intoFresh_stays (onWhole_stays h _ _ _) _

theorem readChunkIntoWithScratch_stays (path : String) (i : UInt32) :
    Fallible.Keeps (fun s => P s.source) (readChunkIntoWithScratch D R a path i) := by
  refine (Fallible.Keeps.liftM _).bind ?_
  rintro ⟨normalized, idx⟩
  exact (Fallible.Keeps.liftM _).bind fun _ => onWhole_stays h _ _ _

theorem readRangeFound_stays (idx : ℕ) (label : ChecksumLabel) (offset len : ℕ) (exact : Bool) :
    Fallible.Keeps P (readRangeFound D R a idx label offset len exact) :=
  (Fallible.Keeps.liftM _).bind fun _ => intoFresh_stays (readRangeIndexInto_stays h _ _ _) _

theorem readRange_stays (path : String) (offset len : UInt64) :
    Fallible.Keeps P (readRange D R a path offset len) := by
  refine (Fallible.Keeps.liftM _).bind ?_
  rintro ⟨normalized, idx⟩
  exact readRangeFound_stays h _ _ _ _ _

theorem readRangeExact_stays (path : String) (offset len : UInt64) :
    Fallible.Keeps P (readRangeExact D R a path offset len) := by
  refine (Fallible.Keeps.liftM _).bind ?_
  rintro ⟨normalized, idx⟩
  exact readRangeFound_stays h _ _ _ _ _

theorem readRangeWithScratch_stays (path : String) (offset : UInt64) :
    Fallible.Keeps (fun s => P s.source) (readRangeWithScratch D R a path offset) := by
  refine (Fallible.Keeps.liftM _).bind ?_
  rintro ⟨normalized, idx⟩
  refine Fallible.Keeps.gets_bind fun s => (Fallible.Keeps.liftM _).bind fun n => ?_
  refine (Fallible.Keeps.liftM _).bind fun _ => Fallible.Keeps.bind ?_ fun _ => Fallible.Keeps.pure _
  exact fun s hs => readRangeIndexInto_stays h _ _ _ ⟨s.source, s.dst.extract 0 n, s.scratch⟩ hs

/-- **Verification.** -/
theorem verify_stays : Fallible.Keeps P (verify D R a) := by
  have hchunks : ∀ (entry : Entry) (label : ChecksumLabel) (turns l : ℕ),
      Fallible.Keeps (fun s => P s.source) (verifyChunks D R a entry label turns l) := by
    intro entry label turns
    induction turns with
    | zero => exact fun l => Fallible.Keeps.pure _
    | succ turns ih =>
      intro l
      refine Fallible.Keeps.bind ?_ fun _ => ih (l + 1)
      refine (Fallible.Keeps.liftM _).bind fun _ => (Fallible.Keeps.liftM _).bind fun _ => ?_
      exact (Fallible.Keeps.liftM _).bind fun _ => Fallible.Keeps.bind (fun _ hs => hs) fun _ =>
        onDecoded_stays h _ _ _
  have hentries : ∀ entries : List Entry,
      Fallible.Keeps (fun s => P s.source) (verifyEntries D R a entries) := by
    intro entries
    induction entries with
    | nil => exact Fallible.Keeps.pure _
    | cons entry entries ih => exact Fallible.Keeps.bind (hchunks _ _ _ _) fun _ => ih
  refine (Fallible.Keeps.liftM _).bind fun _ => (Fallible.Keeps.liftM _).bind fun _ => ?_
  exact fun w hw => hentries a.entries ⟨w, [], {}⟩ hw

end Kept

end RasenArchive
