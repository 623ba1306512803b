import RasenArchive.Archive.Verified
import RasenArchive.Library.Pieces

/-!
# The lengths of ranges

Which range requests are refused and how many bytes the others resolve to, against the law that the
requested end is a natural number. The calls that clip at the end of an entry follow the law except
where the requested end overflows: they refuse a request that begins inside the entry when its end
is no number of 64 bits, while they clip every other request that reaches past the end.

## Main definitions

* `overlappingChunks`: how many chunks of an entry a range overlaps, by their recorded sizes
* `StageLaw`: the law, about the result of the length stage
* `LengthLaw`: the law, about the result of a call and that of its length stage
* `EndFits`: the requested end is not added up, or fits 64 bits

## Main results

* `touched_eq_overlappingChunks`: the count by division is the count of overlapping chunks
* `range_length_law`: the calls for an exact range follow the law, and the calls that clip follow it
  exactly for the requests with `EndFits`
* `readRange_overflow_small`: a request inside the small archive that is refused
-/

namespace RasenArchive

/-- How many chunks of the entry a range overlaps, by their recorded sizes. -/
def overlappingChunks (a : Archive) (entry : Entry) (offset n : ℕ) : ℕ :=
  overlapping ((entry.ownedChunks a.chunks).map fun c => List.replicate c.originalSize.toNat ())
    offset (offset + n)

/-- The range lies past the end of the entry, or an exact one reaches past it. -/
def PastEnd (entry : Entry) (offset len : ℕ) (exact : Bool) : Prop :=
  entry.originalSize.toNat < offset ∨
    (exact = true ∧ entry.originalSize.toNat < offset + len)

/-- The number of bytes that a request resolves to. -/
def resolvedLength (entry : Entry) (offset len : ℕ) (exact : Bool) : ℕ :=
  if exact then len else min (offset + len) entry.originalSize.toNat - offset

/-- The range overlaps no more chunks than one operation may read. -/
def WithinLimit (a : Archive) (entry : Entry) (offset len : ℕ) (exact : Bool) : Prop :=
  overlappingChunks a entry offset (resolvedLength entry offset len exact) ≤ a.maxChunksPerOperation

/-- **The law of range lengths**, about the result of the length stage: a range past the end is
refused, one over too many chunks is refused as such, and any other passes with its resolved
length. -/
structure StageLaw (a : Archive) (entry : Entry) (offset len : ℕ) (exact : Bool)
    (stage : Result ℕ) : Prop where
  refused : stage = failWith .invalidRange ↔ PastEnd entry offset len exact
  limited : stage = failWith .tooManyChunks ↔
    ¬ PastEnd entry offset len exact ∧ ¬ WithinLimit a entry offset len exact
  accepted : stage = .ok (resolvedLength entry offset len exact) ↔
    ¬ PastEnd entry offset len exact ∧ WithinLimit a entry offset len exact

/-- Reading chunk `g` fails with `f`, in some state of the source. -/
def ChunkFails (D : Dependencies) {W : Type} (R : RandomAccessRead W) (a : Archive)
    (label : ChecksumLabel) (l g : ℕ) (f : Fault) : Prop :=
  ChunkFault label l f ∧ ∃ chunk s s', a.chunks[g]? = some chunk ∧
    s.dst.length = chunk.originalSize.toNat ∧
    readChunkByIndexInto D R a label l g s = (.error f, s')

/-- What a call for a range does with the length that its length stage resolves to: it fails as the
stage does, and otherwise delivers that many bytes or fails at a chunk that they overlap. -/
def FollowsLength (D : Dependencies) {W : Type} (R : RandomAccessRead W) (a : Archive)
    (entry : Entry) (offset : ℕ) {α : Type} (stage : Result ℕ) (result : Result α)
    (length : α → ℕ) : Prop :=
  (∀ f, stage = .error f → result = .error f) ∧
    ∀ n, stage = .ok n → (∃ x, result = .ok x ∧ length x = n) ∨
      ∃ label f, result = .error f ∧ RangeFault a (ChunkFails D R a) entry label offset n f

/-- **The law of range lengths**, about the result of a call and that of its length stage: a range
past the end is refused, one over too many chunks is refused as such, and any other is read with its
resolved length or fails at one of its chunks. -/
structure LengthLaw (D : Dependencies) {W : Type} (R : RandomAccessRead W) (a : Archive)
    (entry : Entry) (offset len : ℕ) (exact : Bool) {α : Type} (stage : Result ℕ)
    (result : Result α) (length : α → ℕ) : Prop where
  lengthStage : StageLaw a entry offset len exact stage
  follows : FollowsLength D R a entry offset stage result length
  refused : result = failWith .invalidRange ↔ PastEnd entry offset len exact
  limited : result = failWith .tooManyChunks ↔
    ¬ PastEnd entry offset len exact ∧ ¬ WithinLimit a entry offset len exact
  resolved : ∀ x, result = .ok x → length x = resolvedLength entry offset len exact

/-- The requested end is not added up, or is a number of 64 bits. -/
def EndFits (entry : Entry) (offset len : ℕ) : Prop :=
  len = 0 ∨ entry.originalSize.toNat ≤ offset ∨ offset + len < 2 ^ 64

section Stage

variable {D : Dependencies} {a : Archive} {entry : Entry} {idx offset len n : ℕ} {exact : Bool}

/-- **The count by division** is the count of the chunks that a range overlaps. -/
theorem touched_eq_overlappingChunks (h : WellFormed D a) (he : entry ∈ a.entries)
    (hstop : offset + n ≤ entry.originalSize.toNat) :
    touched a.chunkSize.toNat offset n = overlappingChunks a entry offset n := by
  obtain ⟨-, -, hfull, hsize, htotal⟩ := h.ownedChunks_spec he
  unfold overlappingChunks
  -- an empty range overlaps nothing, and none is counted
  rcases Nat.eq_zero_or_pos n with rfl | hpos
  · simp [touched, overlapping_of_le]
  -- all chunks but the last are full, so division finds the first and the last one touched
  have hpieces : FullButLast a.chunkSize.toNat
      ((entry.ownedChunks a.chunks).map fun c => List.replicate c.originalSize.toNat ()) := by
    intro p hp
    rw [← List.map_dropLast, List.mem_map] at hp
    obtain ⟨c, hc, rfl⟩ := hp
    simpa using hfull c hc
  have hlen : ((entry.ownedChunks a.chunks).map fun c =>
      List.replicate c.originalSize.toNat ()).flatten.length = entry.originalSize.toNat := by
    rw [← htotal, totalSize, List.length_flatten, List.map_map]
    simp [Function.comp_def]
  rw [hpieces.overlapping_eq h.chunkSize_pos ?_ (by omega) (by omega), touched,
    if_neg (by omega)]
  simp only [List.forall_mem_map, List.length_replicate]
  exact hsize

/-- **The length stage** follows the law where the requested end fits. -/
theorem stageLaw_iff (h : WellFormed D a) (hidx : a.entries[idx]? = some entry)
    (hlt : len < 2 ^ 64) :
    StageLaw a entry offset len exact (rangeLen a idx offset len exact) ↔
      exact = true ∨ EndFits entry offset len := by
  have hsize := entry.originalSize.toNat_lt
  by_cases hin : RangeInside entry offset len exact
  · -- the length stage gets past both checks of the end
    obtain ⟨hle, hexact, hend⟩ := hin
    -- the end fits, unless the range is empty or begins at the end of the entry
    have hfits : exact = true ∨ EndFits entry offset len := by
      unfold EndFits
      omega
    have hpast : ¬ PastEnd entry offset len exact := by
      rintro (hlt | ⟨he, hlt⟩)
      · omega
      · have := hexact he
        omega
    -- clipping an exact range changes nothing
    have hres : resolvedLength entry offset len exact =
        min (offset + len) entry.originalSize.toNat - offset := by
      unfold resolvedLength
      split_ifs with he
      · have := hexact he
        omega
      · rfl
    -- the count by division is that of the overlapping chunks
    have htouched := touched_eq_overlappingChunks h (List.mem_of_getElem? hidx)
      (show offset + (min (offset + len) entry.originalSize.toNat - offset) ≤ _ by omega)
    have hwithin : WithinLimit a entry offset len exact ↔ touched a.chunkSize.toNat offset
        (min (offset + len) entry.originalSize.toNat - offset) ≤ a.maxChunksPerOperation := by
      rw [WithinLimit, hres, htouched]
    refine iff_of_true ?_ hfits
    -- what is left to check is that count
    by_cases hmax : WithinLimit a entry offset len exact
    · have hlen := (rangeLen_eq_ok_iff h hidx).mpr
        ⟨hle, hexact, hend, rfl, hwithin.mp hmax⟩
      rw [hlen, ← hres]
      exact ⟨by simp [failWith, hpast], by simp [failWith, hmax], iff_of_true rfl ⟨hpast, hmax⟩⟩
    · have hlen : rangeLen a idx offset len exact = failWith .tooManyChunks := by
        cases hr : rangeLen a idx offset len exact with
        | ok m =>
          obtain ⟨-, -, -, rfl, hm⟩ := (rangeLen_eq_ok_iff h hidx).mp hr
          exact absurd (hwithin.mpr hm) hmax
        | error f =>
          rw [rangeLen_error h hidx hlt hr, if_pos ⟨hle, hexact, hend⟩]
          rfl
      rw [hlen]
      exact ⟨by simp [failWith, hpast], iff_of_true rfl ⟨hpast, hmax⟩, by simp [failWith, hmax]⟩
  · -- the length stage refuses the range
    have hlen : rangeLen a idx offset len exact = failWith .invalidRange := by
      cases hr : rangeLen a idx offset len exact with
      | ok m =>
        obtain ⟨hle, hexact, hend, -, -⟩ := (rangeLen_eq_ok_iff h hidx).mp hr
        exact absurd ⟨hle, hexact, hend⟩ hin
      | error f =>
        rw [rangeLen_error h hidx hlt hr, if_neg hin]
        rfl
    -- a stage that refuses follows the law exactly for a range past the end
    have hlaw : StageLaw a entry offset len exact (failWith .invalidRange) ↔
        PastEnd entry offset len exact := by
      constructor
      · exact fun hlaw => hlaw.refused.mp rfl
      · intro hpast
        exact ⟨iff_of_true rfl hpast, by simp [failWith, hpast], by simp [failWith, hpast]⟩
    rw [hlen, hlaw]
    unfold PastEnd EndFits
    unfold RangeInside at hin
    constructor
    · rintro (hlt | ⟨he, -⟩)
      · exact Or.inr (Or.inr (Or.inl hlt.le))
      · exact Or.inl he
    · -- a request whose end fits is refused for reaching past the end of the entry
      intro hfits
      by_contra hnot
      push Not at hnot
      refine hin ⟨hnot.1, fun he => hnot.2 he, ?_⟩
      rcases hfits with he | hzero | hle | hend
      · have := hnot.2 he
        omega
      · exact Or.inl hzero
      · exact Or.inr (Or.inl (le_antisymm hnot.1 hle))
      · exact Or.inr (Or.inr hend)

/-- **The law for a call** comes to that for its length stage. -/
theorem FollowsLength.lengthLaw_iff {W : Type} {R : RandomAccessRead W} {α : Type}
    {stage : Result ℕ} {result : Result α} {length : α → ℕ}
    (hfollows : FollowsLength D R a entry offset stage result length) :
    LengthLaw D R a entry offset len exact stage result length ↔
      StageLaw a entry offset len exact stage := by
  refine ⟨LengthLaw.lengthStage, fun hstage => ?_⟩
  -- the call fails as its length stage does, and passes on the length otherwise
  obtain ⟨hstopped, hpassed⟩ := id hfollows
  by_cases hpast : PastEnd entry offset len exact
  · obtain rfl := hstopped _ (hstage.refused.mpr hpast)
    exact ⟨hstage, hfollows, iff_of_true rfl hpast, by simp [failWith, hpast],
      fun x hx => by cases hx⟩
  by_cases hmax : WithinLimit a entry offset len exact
  swap
  · obtain rfl := hstopped _ (hstage.limited.mpr ⟨hpast, hmax⟩)
    exact ⟨hstage, hfollows, by simp [failWith, hpast], iff_of_true rfl ⟨hpast, hmax⟩,
      fun x hx => by cases hx⟩
  rcases hpassed _ (hstage.accepted.mpr ⟨hpast, hmax⟩) with
    ⟨x, rfl, hx⟩ | ⟨label, f, rfl, i, -, -, hf, -⟩
  · refine ⟨hstage, hfollows, by simp [failWith, hpast], by simp [failWith, hmax], ?_⟩
    rintro y hy
    cases hy
    exact hx
  · -- a failed chunk is neither of the two refusals
    refine ⟨hstage, hfollows, ?_, ?_, fun y hy => by cases hy⟩
    · exact iff_of_false (by rintro hf'; cases hf'; cases hf) hpast
    · exact iff_of_false (by rintro hf'; cases hf'; cases hf) fun h => h.2 hmax

end Stage

/-! ## The calls -/

section Calls

variable {D : Dependencies} {W : Type} (R : RandomAccessRead W) {a : Archive} {entry : Entry}
  {idx : ℕ} (label : ChecksumLabel)

/-- What is known about single chunks over any source, with the failed readings. -/
theorem failingChunks :
    ChunkSpec D R a (fun _ => True) (VerifiedAt D a) (ChunkFails D R a) where
  length_eq := (anySource D R a).length_eq
  read {label l g chunk s} hlimit hchunk hdst hinv := by
    have hpost : Fallible.Post (readChunkByIndexInto D R a label l g) s _ _ :=
      (anySource D R a).read hlimit hchunk hdst hinv
    -- the state that the failed reading began in is kept beside the error
    rcases hrun : readChunkByIndexInto D R a label l g s with ⟨f | ⟨⟨⟩⟩, s'⟩
    · obtain ⟨-, hlen, hf⟩ := hpost.of_error hrun
      rw [Fallible.Post, hrun]
      exact ⟨trivial, hlen, hf, chunk, s, s', hchunk, hdst, hrun⟩
    · have hd := hpost.of_ok hrun
      rw [Fallible.Post, hrun]
      exact hd

theorem readRangeFound_follows (h : WellFormed D a) (hidx : a.entries[idx]? = some entry)
    (offset : ℕ) {len : ℕ} (hlt : len < 2 ^ 64) (exact : Bool) (w : W) :
    FollowsLength D R a entry offset (rangeLen a idx offset len exact)
      (readRangeFound D R a idx label offset len exact w).1 List.length := by
  refine ⟨fun f hf => ?_, fun n hn => ?_⟩
  · unfold readRangeFound
    rw [Fallible.liftM_bind_of_error hf]
  · -- the accepted length is the one that the stage resolved to
    have hacc := (rangeLen_eq_ok_iff h hidx).mp hn
    have hpost : Fallible.Post (readRangeFound D R a idx label offset len exact) w _ _ :=
      readRangeFound_post (failingChunks R).trace h hidx trivial offset hlt exact
    rcases hr : readRangeFound D R a idx label offset len exact w with ⟨f | d, w'⟩
    · obtain ⟨-, hf | ⟨m, hacc', hf⟩⟩ := hpost.of_error hr
      · exact absurd hacc (hf.1 n)
      · rw [hacc.length_eq, ← hacc'.length_eq]
        exact Or.inr ⟨label, f, rfl, hf.mono fun _ _ => And.left⟩
    · obtain ⟨-, hacc', -⟩ := hpost.of_ok hr
      exact Or.inl ⟨d, rfl, hacc'.length_eq.trans hacc.length_eq.symm⟩

theorem readRangeIntoFound_follows (h : WellFormed D a) (hidx : a.entries[idx]? = some entry)
    (offset : ℕ) (s : ReadState W) (hlt : s.dst.length < 2 ^ 64) :
    FollowsLength D R a entry offset (rangeLen a idx offset s.dst.length false)
      (readRangeIntoFound D R a idx label offset s).1 id := by
  refine ⟨fun f hf => ?_, fun n hn => ?_⟩
  · unfold readRangeIntoFound
    rw [Fallible.gets_bind_apply, id, Fallible.liftM_bind_of_error hf]
  · -- the same for a destination, whose length is that of the request
    have hacc := (rangeLen_eq_ok_iff h hidx).mp hn
    have hpost : Fallible.Post (readRangeIntoFound D R a idx label offset) s _ _ :=
      readRangeIntoFound_post (failingChunks R).trace h hidx trivial offset hlt
    rcases hr : readRangeIntoFound D R a idx label offset s with ⟨f | m, s'⟩
    · obtain ⟨-, -, hf | ⟨m, hacc', hf⟩⟩ := hpost.of_error hr
      · exact absurd hacc (hf.1 n)
      · rw [hacc.length_eq, ← hacc'.length_eq]
        exact Or.inr ⟨label, f, rfl, hf.mono fun _ _ => And.left⟩
    · obtain ⟨-, hacc', -⟩ := hpost.of_ok hr
      exact Or.inl ⟨m, rfl, hacc'.length_eq.trans hacc.length_eq.symm⟩

theorem exists_locate {path : String} (he : RasenArchive.entry D a path = .ok entry) :
    ∃ q idx, locate D a path = .ok (q, idx) ∧ a.entries[idx]? = some entry := by
  simp only [RasenArchive.entry, bind_eq_ok, Prod.exists, index_eq_ok_iff] at he
  exact he

end Calls

/-- **The law of range lengths** for the calls on an open archive, with any state of the source:
the calls for an exact range follow it, and the calls that clip follow it exactly where the
requested end is not added up or fits 64 bits. -/
theorem range_length_law (D : Dependencies) {W : Type} (R : RandomAccessRead W) {key : Bytes}
    {limits : ArchiveLimits} {w₀ w₁ : W} {a : Archive}
    (hopen : openWithLimits D R key limits w₀ = (.ok a, w₁)) (path : String) (e : Entry)
    (he : entry D a path = .ok e) (offset : UInt64) :
    ∃ q idx, locate D a path = .ok (q, idx) ∧ a.entries[idx]? = some e ∧
      (∀ (len : UInt64) w, LengthLaw D R a e offset.toNat len.toNat true
        (rangeLen a idx offset.toNat len.toNat true)
        (readRangeExact D R a path offset len w).1 List.length) ∧
      (∀ (len : UInt64) w, LengthLaw D R a e offset.toNat len.toNat false
        (rangeLen a idx offset.toNat len.toNat false)
        (readRange D R a path offset len w).1 List.length ↔ EndFits e offset.toNat len.toNat) ∧
      (∀ s : W × Bytes, s.2.length < 2 ^ 64 →
        (LengthLaw D R a e offset.toNat s.2.length false
          (rangeLen a idx offset.toNat s.2.length false)
          (readRangeInto D R a path offset s).1 id ↔ EndFits e offset.toNat s.2.length)) ∧
      (∀ s : ReadState W, s.dst.length < 2 ^ 64 →
        (LengthLaw D R a e offset.toNat s.dst.length false
          (rangeLen a idx offset.toNat s.dst.length false)
          (readRangeWithScratch D R a path offset s).1 id ↔
            EndFits e offset.toNat s.dst.length)) := by
  have h := openWithLimits_wellFormed hopen
  obtain ⟨q, idx, hlocate, hidx⟩ := exists_locate he
  -- both calls into a destination come to the one with a scratch space
  have hscratch : ∀ s : ReadState W, s.dst.length < 2 ^ 64 →
      (LengthLaw D R a e offset.toNat s.dst.length false
        (rangeLen a idx offset.toNat s.dst.length false)
        (readRangeWithScratch D R a path offset s).1 id ↔ EndFits e offset.toNat s.dst.length) := by
    intro s hlt
    unfold readRangeWithScratch
    rw [Fallible.liftM_bind_of_ok hlocate,
      (readRangeIntoFound_follows R (.path q) h hidx offset.toNat s hlt).lengthLaw_iff,
      stageLaw_iff h hidx hlt]
    simp
  refine ⟨q, idx, hlocate, hidx, fun len w => ?_, fun len w => ?_, fun s hlt => ?_, hscratch⟩
  · -- an exact range always follows the law
    unfold readRangeExact
    rw [Fallible.liftM_bind_of_ok hlocate,
      (readRangeFound_follows R (.path q) h hidx offset.toNat len.toNat_lt true w).lengthLaw_iff,
      stageLaw_iff h hidx len.toNat_lt]
    exact Or.inl rfl
  · unfold readRange
    rw [Fallible.liftM_bind_of_ok hlocate,
      (readRangeFound_follows R (.path q) h hidx offset.toNat len.toNat_lt false w).lengthLaw_iff,
      stageLaw_iff h hidx len.toNat_lt]
    simp
  · have hrun : (readRangeInto D R a path offset s).1 =
        (readRangeWithScratch D R a path offset ⟨s.1, s.2, {}⟩).1 := by
      rw [readRangeInto, withDefaultScratch, Fallible.focus_apply]
    rw [hrun]
    exact hscratch ⟨s.1, s.2, {}⟩ hlt

/-- **A request inside the small archive is refused**: from byte 1 of 3 on, to an end that
overflows. The law has it clipped to two bytes. -/
theorem readRange_overflow_small :
    ∃ e, entry reference smallArchive "a" = .ok e ∧ e.originalSize = 3 ∧
      (readRange reference sliceSource smallArchive "a" 1 (2 ^ 64 - 1) smallBytes).1 =
        failWith .invalidRange ∧
      ¬ LengthLaw reference sliceSource smallArchive e 1 (2 ^ 64 - 1) false
        (rangeLen smallArchive 0 1 (2 ^ 64 - 1) false)
        (readRange reference sliceSource smallArchive "a" 1 (2 ^ 64 - 1) smallBytes).1
        List.length := by
  have hrun : (readRange reference sliceSource smallArchive "a" 1 (2 ^ 64 - 1) smallBytes).1 =
      failWith .invalidRange := by decide +kernel
  refine ⟨⟨"a", foldHash [97], 3, 3, 0, 2⟩, by decide +kernel, rfl, hrun, fun hlaw => ?_⟩
  rcases hlaw.refused.mp hrun with hlt | ⟨he, -⟩
  · exact absurd hlt (by decide)
  · cases he

/-- The small archive, where one operation may read one chunk. -/
def narrowArchive : Archive := { smallArchive with maxChunksPerOperation := 1 }

theorem openWithLimits_narrow :
    openWithLimits reference sliceSource smallKey
        { ArchiveLimits.runtimeDefault with maxChunksPerOperation := 1 } smallBytes =
      (.ok narrowArchive, smallBytes) := by decide +kernel

/-- The law for requests in the small archive: from byte 1 to an end past that of the entry, exact
and clipped, and over both of its chunks where one is allowed. -/
theorem range_length_law_small :
    ∃ e, entry reference smallArchive "a" = .ok e ∧
      LengthLaw reference sliceSource smallArchive e 1 5 true (failWith .invalidRange)
        (readRangeExact reference sliceSource smallArchive "a" 1 5 smallBytes).1 List.length ∧
      LengthLaw reference sliceSource smallArchive e 1 5 false (.ok 2)
        (readRange reference sliceSource smallArchive "a" 1 5 smallBytes).1 List.length ∧
      LengthLaw reference sliceSource narrowArchive e 1 5 false (failWith .tooManyChunks)
        (readRange reference sliceSource narrowArchive "a" 1 5 smallBytes).1 List.length := by
  have he : entry reference smallArchive "a" = .ok ⟨"a", foldHash [97], 3, 3, 0, 2⟩ := by
    decide +kernel
  have he' : entry reference narrowArchive "a" = .ok ⟨"a", foldHash [97], 3, 3, 0, 2⟩ := by
    decide +kernel
  have hlocate : locate reference smallArchive "a" = .ok ("a", 0) := by decide +kernel
  have hlocate' : locate reference narrowArchive "a" = .ok ("a", 0) := by decide +kernel
  obtain ⟨q, idx, hl, -, hexact, hclip, -⟩ :=
    range_length_law reference sliceSource openWithLimits_small "a" _ he 1
  obtain ⟨q', idx', hl', -, -, hclip', -⟩ :=
    range_length_law reference sliceSource openWithLimits_narrow "a" _ he' 1
  cases hlocate.symm.trans hl
  cases hlocate'.symm.trans hl'
  have hfits : EndFits ⟨"a", foldHash [97], 3, 3, 0, 2⟩ (1 : UInt64).toNat (5 : UInt64).toNat :=
    Or.inr (Or.inr (by decide))
  refine ⟨_, he, ?_, ?_, ?_⟩
  · have hstage : rangeLen smallArchive 0 1 5 true = failWith .invalidRange := by decide +kernel
    exact hstage ▸ hexact 5 smallBytes
  · have hstage : rangeLen smallArchive 0 1 5 false = .ok 2 := by decide +kernel
    exact hstage ▸ (hclip 5 smallBytes).mpr hfits
  · have hstage : rangeLen narrowArchive 0 1 5 false = failWith .tooManyChunks := by
      decide +kernel
    exact hstage ▸ (hclip' 5 smallBytes).mpr hfits

end RasenArchive
