import RasenArchive.Archive.Exact
import RasenArchive.Archive.TwoSources

/-!
# Verification

`verify` has a loop of its own over the entries and their chunks. It agrees with the full reads of
the entries: it succeeds when all of them succeed, and fails as the first of them that fails. As the
entries share the chunk table out, it decodes every chunk once.

## Main definitions

* `readFull`: the full read of an entry, by its path or by its hash
* `windows`: the windows of the blocks of all chunks
* `FailsFirst`: the failure of the first full read that fails

## Main results

* `readFull_eq_readFound`: a full read is the read of its entry, under the label of `verify`
* `readFull_ok_iff`, `readFull_error`: which full reads succeed, and how the others fail
* `verify_ok_iff`, `verify_error_iff`: `verify` against the full reads
* `verify_recorded`: the record of the chunks that `verify` decodes
* `verify_reads`: the three together, for every archive that was opened
-/

namespace RasenArchive

variable (D : Dependencies) {W : Type} (R : RandomAccessRead W) (a : Archive)

/-- The full read of an entry: by its path, or in an archive without paths by its hash. -/
def readFull (e : Entry) : Fallible W Fault Bytes :=
  if a.pathsStripped then readById D R a (AssetId.fromRaw e.pathHash) else read D R a e.path

section Full

variable {D R a} (h : WellFormed D a) {e : Entry} {P : W → Prop} {w : W} {c : Bytes}

include h

/-- **A full read** reads its entry, under the label that `verify` reports it with. -/
theorem readFull_eq_readFound (he : e ∈ a.entries) :
    ∃ idx, a.entries[idx]? = some e ∧
      readFull D R a e = readFound D R a idx (labelOf a e (AssetId.fromRaw e.pathHash)) := by
  unfold readFull labelOf
  cases hs : a.pathsStripped with
  | false =>
    have hown := h.ownPath e he
    rw [hs] at hown
    obtain ⟨hnormal, -⟩ : normalizePath e.path = .ok e.path ∧ _ := hown
    have hentry : entry D a e.path = .ok e :=
      (entry_eq_ok_iff h).mpr ⟨e.path, hnormal, he, by simp [hs]⟩
    obtain ⟨q, idx, hq, hidx, -, -, hread, -⟩ := usesEntry (R := R) hentry
    cases hnormal.symm.trans hq
    exact ⟨idx, hidx, hread⟩
  | true =>
    have hone := filter_pathHash h hs he
    have hentry : entryById a (AssetId.fromRaw e.pathHash) = .ok e :=
      (entryById_eq_ok_iff h).mpr hone
    obtain ⟨idx, hfind, hidx⟩ := bind_eq_ok.mp hentry
    refine ⟨idx, index_eq_ok_iff.mp hidx, ?_⟩
    funext w
    simp only [if_true, readById, Fallible.liftM_bind_of_ok hfind, Fallible.liftM_bind_of_ok hidx,
      labelOf, hs]

variable (hp : Presents R P c) (hin : HoldsBlocks a c) (hw : P w)

include hp hin hw

/-- **A full read** comes to the same from every state of the source. -/
theorem readFull_settles (he : e ∈ a.entries) :
    Fallible.Settles P (readFull D R a e) (readFull D R a e w).1 := by
  obtain ⟨idx, hidx, heq⟩ := readFull_eq_readFound (R := R) h he
  rw [heq]
  exact Fallible.settles_of_abreast fun v hv =>
    readFound_abreast hp hp hin hin hw hv hidx fun _ _ _ _ => rfl

/-- **Which full reads succeed**: those of the entries with few enough chunks, all of which have a
content. -/
theorem readFull_ok_iff (he : e ∈ a.entries) :
    (∃ d, Fallible.Settles P (readFull D R a e) (.ok d)) ↔
      e.chunkCount.toNat ≤ a.maxChunksPerOperation ∧
        HasContents (fun g d => chunkContent D a c g = some d) e := by
  have hsettles := readFull_settles h hp hin hw he
  obtain ⟨idx, hidx, heq⟩ := readFull_eq_readFound (R := R) h he
  constructor
  · rintro ⟨d, hd⟩
    obtain ⟨w', hr, -⟩ := hd w hw
    rw [heq] at hr
    obtain ⟨hlimit, -, ds, hds, -⟩ := (readFound_post (deciding hp hin) h hidx hw).of_ok hr
    refine ⟨hlimit, fun i hi => ?_⟩
    have hlen : i < ds.length := by
      rw [← hds.length_eq, List.length_range']
      exact hi
    have hi' := hds.get (show i < (List.range' _ _).length by simpa using hi) hlen
    simp only [List.get_eq_getElem, List.getElem_range', one_mul] at hi'
    exact ⟨_, hi'⟩
  · rintro ⟨hlimit, hall⟩
    rcases hr : readFull D R a e w with ⟨f | d, w'⟩
    · rw [heq] at hr
      obtain ⟨-, ⟨hlt, -⟩ | ⟨-, i, hi, herr, -⟩⟩ :=
        (readFound_post (deciding hp hin) h hidx hw).of_error hr
      · omega
      · obtain ⟨d, hd⟩ := hall i hi
        rw [(chunkOutcome_eq_ok_iff hin).mpr hd] at herr
        cases herr
    · rw [hr] at hsettles
      exact ⟨d, hsettles⟩

/-- **How a full read fails**: at its first chunk that fails, as that chunk. -/
theorem readFull_error (he : e ∈ a.entries)
    (hlimit : e.chunkCount.toNat ≤ a.maxChunksPerOperation) {n : ℕ} (hn : n < e.chunkCount.toNat)
    {f : Fault} (hfirst : FirstErr (fun g d => chunkContent D a c g = some d)
      (fun label l g f => chunkOutcome D a c label l g = .error f) e 0
      (labelOf a e (AssetId.fromRaw e.pathHash)) n (e.firstChunk.toNat + n) f) :
    Fallible.Settles P (readFull D R a e) (.error f) := by
  have hsettles := readFull_settles h hp hin hw he
  obtain ⟨idx, hidx, heq⟩ := readFull_eq_readFound (R := R) h he
  rcases hr : readFull D R a e w with ⟨f' | d, w'⟩
  · rw [hr] at hsettles
    rw [heq] at hr
    obtain ⟨-, ⟨hlt, -⟩ | ⟨-, i, hi, hfirst'⟩⟩ :=
      (readFound_post (deciding hp hin) h hidx hw).of_error hr
    · omega
    · obtain rfl := firstErr_unique hin hin ⟨Nat.zero_le _, hi⟩ ⟨Nat.zero_le _, hn⟩
        (fun _ _ _ _ => rfl) hfirst' hfirst
      exact hsettles
  · rw [hr] at hsettles
    obtain ⟨-, hall⟩ := (readFull_ok_iff h hp hin hw he).mp ⟨d, hsettles⟩
    obtain ⟨d', hd'⟩ := hall n hn
    cases hfirst.1.symm.trans ((chunkOutcome_eq_ok_iff hin).mpr hd')

end Full

/-! ## All of them -/

/-- The windows of the blocks of all chunks. -/
def windows (a : Archive) : List (ℕ × ℕ) :=
  a.chunks.map fun chunk => (chunk.offset.toNat, blockLength a chunk)

theorem map_windowOf (a : Archive) :
    (List.range a.chunks.length).map (windowOf a) = windows a := by
  apply List.ext_getElem (by simp [windows])
  intro g h₁ h₂
  simp only [List.length_map, List.length_range] at h₁
  simp [windows, windowOf, h₁]

/-- The first of some elements without a property is determined. -/
theorem eq_of_first {α : Type} {p : α → Prop} {xs xs' ys ys' : List α} {x x' : α}
    (h : xs ++ x :: ys = xs' ++ x' :: ys') (hxs : ∀ z ∈ xs, p z) (hxs' : ∀ z ∈ xs', p z)
    (hx : ¬ p x) (hx' : ¬ p x') : x = x' := by
  induction xs generalizing xs' with
  | nil =>
    cases xs' with
    | nil =>
      cases h
      rfl
    | cons z xs' =>
      cases h
      exact absurd (hxs' x List.mem_cons_self) hx
  | cons z xs ih =>
    cases xs' with
    | nil =>
      cases h
      exact absurd (hxs x' List.mem_cons_self) hx'
    | cons z' xs' =>
      rw [List.cons_append, List.cons_append, List.cons.injEq] at h
      exact ih h.2 (fun y hy => hxs y (List.mem_cons_of_mem _ hy))
        fun y hy => hxs' y (List.mem_cons_of_mem _ hy)

section All

variable {D R a} (h : WellFormed D a) {P : W → Prop} {w : W} {c : Bytes}

include h

/-- Distinct chunks have distinct windows. -/
theorem nodup_windows : (windows a).Nodup := by
  obtain ⟨p, -, -, -, -, hlayout⟩ := h.layout
  have hoffsets : (a.chunks.map fun chunk => chunk.offset.toNat).Pairwise (· < ·) := by
    rw [List.pairwise_map]
    refine hlayout.ordered.imp_of_mem fun {x y} hx _ hxy => ?_
    have hvalid := hlayout.chunk x hx
    have hpos := hvalid.payload_pos
    unfold Chunk.stop at hxy
    omega
  have hfst : (windows a).map Prod.fst = a.chunks.map fun chunk => chunk.offset.toNat := by
    rw [windows, List.map_map]
    rfl
  apply List.Nodup.of_map Prod.fst
  rw [hfst]
  exact hoffsets.imp fun hlt => hlt.ne

/-- The chunks of all entries have the windows of all chunks. -/
theorem perm_windows : ((a.entries.flatMap TocEntry.chunkNumbers).map (windowOf a)).Perm
    (windows a) := by
  obtain ⟨p, -, -, -, -, hlayout⟩ := h.layout
  rw [← map_windowOf]
  exact hlayout.owned.map _

/-- The chunks read up to a failure are among those of all entries, each of them once. -/
theorem subperm_windows {front back : List Entry} {e : Entry}
    (hentries : a.entries = front ++ e :: back) {n : ℕ} (hn : n < e.chunkCount.toNat) :
    ((front.flatMap TocEntry.chunkNumbers ++ List.range' e.firstChunk.toNat (n + 1)).map
      (windowOf a)).Subperm (windows a) := by
  have hpart : List.range' e.firstChunk.toNat (n + 1) <+: e.chunkNumbers := by
    have hsplit := List.range'_append_1 (s := e.firstChunk.toNat) (m := n + 1)
      (n := e.chunkCount.toNat - (n + 1))
    rw [show n + 1 + (e.chunkCount.toNat - (n + 1)) = e.chunkCount.toNat by omega] at hsplit
    rw [TocEntry.chunkNumbers, ← hsplit]
    exact List.prefix_append _ _
  have hsub : (front.flatMap TocEntry.chunkNumbers ++
      List.range' e.firstChunk.toNat (n + 1)).Sublist
      (a.entries.flatMap TocEntry.chunkNumbers) := by
    rw [hentries, List.flatMap_append, List.flatMap_cons]
    exact (List.Sublist.refl _).append (hpart.sublist.trans (List.sublist_append_left _ _))
  exact (hsub.map _).subperm.trans (perm_windows h).subperm

variable (hp : Presents R P c) (hin : HoldsBlocks a c) (hw : P w)

include hp hin hw

/-- An entry of an archive with few enough chunks is read when all of its chunks have a content. -/
theorem readFull_of_hasContents (hlimit : a.chunks.length ≤ a.maxChunksPerOperation) {e : Entry}
    (he : e ∈ a.entries) :
    (∃ d, Fallible.Settles P (readFull D R a e) (.ok d)) ↔
      HasContents (fun g d => chunkContent D a c g = some d) e := by
  obtain ⟨hrange, -, -, -, -⟩ := h.ownedChunks_spec he
  rw [readFull_ok_iff h hp hin hw he]
  exact and_iff_right (by omega)

/-- **A failed verification** fails as the full read of the first entry that cannot be read. -/
theorem readFull_of_verifyFault {V : Type} {Inv : List ℕ → V → Prop} {v : V} {f : Fault}
    (hlimit : a.chunks.length ≤ a.maxChunksPerOperation)
    (hf : VerifyFault a Inv (fun g d => chunkContent D a c g = some d)
      (fun label l g f => chunkOutcome D a c label l g = .error f) [] a.entries f v) :
    ∃ front e back, a.entries = front ++ e :: back ∧
      (∀ e' ∈ front, ∃ d, Fallible.Settles P (readFull D R a e') (.ok d)) ∧
      Fallible.Settles P (readFull D R a e) (.error f) := by
  obtain ⟨front, e, back, hentries, hfront, n, hn, -, hfirst⟩ := hf
  have hmem : ∀ e' ∈ front, e' ∈ a.entries := fun e' he' => by simp [hentries, he']
  have he : e ∈ a.entries := by simp [hentries]
  obtain ⟨hrange, -, -, -, -⟩ := h.ownedChunks_spec he
  refine ⟨front, e, back, hentries, fun e' he' => ?_, ?_⟩
  · exact (readFull_of_hasContents h hp hin hw hlimit (hmem e' he')).mpr (hfront e' he')
  · exact readFull_error h hp hin hw he (by omega) hn hfirst

/-- How `verify` fails: over the limit, or as the first full read that fails. -/
def FailsFirst (D : Dependencies) (R : RandomAccessRead W) (a : Archive) (P : W → Prop)
    (f : Fault) : Prop :=
  (a.maxChunksPerOperation < a.chunks.length ∧ f = .error .tooManyChunks) ∨
    (a.chunks.length ≤ a.maxChunksPerOperation ∧
      ∃ front e back, a.entries = front ++ e :: back ∧
        (∀ e' ∈ front, ∃ d, Fallible.Settles P (readFull D R a e') (.ok d)) ∧
        Fallible.Settles P (readFull D R a e) (.error f))

omit h hp hin in
/-- How `verify` fails is determined. -/
theorem FailsFirst.unique {f f' : Fault} (hf : FailsFirst D R a P f)
    (hf' : FailsFirst D R a P f') : f = f' := by
  have hbad : ∀ x g, Fallible.Settles P (readFull D R a x) (.error g) →
      ¬ ∃ d, Fallible.Settles P (readFull D R a x) (.ok d) := by
    rintro x g hx ⟨d, hd⟩
    cases hx.unique hd hw
  rcases hf with ⟨hlt, rfl⟩ | ⟨hle, front, e, back, hentries, hall, hfail⟩
  · rcases hf' with ⟨-, rfl⟩ | ⟨hle, -⟩
    · rfl
    · omega
  · rcases hf' with ⟨hlt, -⟩ | ⟨-, front', e', back', hentries', hall', hfail'⟩
    · omega
    · obtain rfl := eq_of_first (hentries.symm.trans hentries') hall hall' (hbad _ _ hfail)
        (hbad _ _ hfail')
      cases hfail.unique hfail' hw
      rfl

omit h hp hin in
/-- Where something fails first, not everything is readable. -/
theorem FailsFirst.not_readable {f : Fault} (hf : FailsFirst D R a P f) :
    ¬ (a.chunks.length ≤ a.maxChunksPerOperation ∧
      ∀ e ∈ a.entries, ∃ d, Fallible.Settles P (readFull D R a e) (.ok d)) := by
  rintro ⟨hle, hall⟩
  rcases hf with ⟨hlt, -⟩ | ⟨-, front, e, back, hentries, -, hfail⟩
  · omega
  · obtain ⟨d, hd⟩ := hall e (by simp [hentries])
    cases hfail.unique hd hw

/-- **How a verification ends**, over a source of unchanging bytes: with everything readable, or as
what fails first. -/
theorem verify_cases :
    (∃ w', verify D R a w = (.ok (), w') ∧ P w' ∧
        a.chunks.length ≤ a.maxChunksPerOperation ∧
        ∀ e ∈ a.entries, ∃ d, Fallible.Settles P (readFull D R a e) (.ok d)) ∨
      ∃ f w', verify D R a w = (.error f, w') ∧ P w' ∧ FailsFirst D R a P f := by
  have hpost := verify_post (deciding (D := D) hp hin) h hw
  rcases hr : verify D R a w with ⟨f | ⟨⟨⟩⟩, w'⟩
  · rcases hpost.of_error hr with ⟨hlt, rfl, hw'⟩ | ⟨hlimit, hf⟩
    · exact Or.inr ⟨_, w', rfl, hw', Or.inl ⟨hlt, rfl⟩⟩
    · have hfirst := readFull_of_verifyFault h hp hin hw hlimit hf
      obtain ⟨-, -, -, -, -, -, -, hw', -⟩ := hf
      exact Or.inr ⟨f, w', rfl, hw', Or.inr ⟨hlimit, hfirst⟩⟩
  · obtain ⟨hlimit, hw', hall⟩ := hpost.of_ok hr
    exact Or.inl ⟨w', rfl, hw', hlimit, fun e he =>
      (readFull_of_hasContents h hp hin hw hlimit he).mpr (hall e he)⟩

/-- **`verify` succeeds** when the chunks are few enough and every entry can be read. -/
theorem verify_ok_iff :
    Fallible.Settles P (verify D R a) (.ok ()) ↔ a.chunks.length ≤ a.maxChunksPerOperation ∧
      ∀ e ∈ a.entries, ∃ d, Fallible.Settles P (readFull D R a e) (.ok d) := by
  constructor
  · intro hsettles
    rcases verify_cases h hp hin hw with ⟨w', -, -, hreadable⟩ | ⟨f, w', hr, -, -⟩
    · exact hreadable
    · cases hsettles.eq_of_run hw hr
  · intro hreadable v hv
    rcases verify_cases h hp hin hv with ⟨w', hr, hw', -⟩ | ⟨f, w', -, -, hf⟩
    · exact ⟨w', hr, hw'⟩
    · exact absurd hreadable (hf.not_readable hv)

/-- **`verify` fails** as the first full read that fails. -/
theorem verify_error_iff {f : Fault} :
    Fallible.Settles P (verify D R a) (.error f) ↔ FailsFirst D R a P f := by
  constructor
  · intro hsettles
    rcases verify_cases h hp hin hw with ⟨w', hr, -⟩ | ⟨f', w', hr, -, hf⟩
    · cases hsettles.eq_of_run hw hr
    · cases hsettles.eq_of_run hw hr
      exact hf
  · intro hf v hv
    rcases verify_cases h hp hin hv with ⟨w', -, -, hreadable⟩ | ⟨f', w', hr, hw', hf'⟩
    · exact absurd hreadable (hf.not_readable hv)
    · obtain rfl := hf.unique hv hf'
      exact ⟨w', hr, hw'⟩

/-- **A verification** comes to the same from every state of the source. -/
theorem verify_settles : Fallible.Settles P (verify D R a) (verify D R a w).1 := by
  rcases verify_cases h hp hin hw with ⟨w', hr, -, hreadable⟩ | ⟨f, w', hr, -, hf⟩
  · rw [hr]
    exact (verify_ok_iff h hp hin hw).mpr hreadable
  · rw [hr]
    exact (verify_error_iff h hp hin hw).mpr hf

/-- **A watched verification** comes to the same as one that is not watched. Its record has every
block once when it succeeds, and none twice when it fails. -/
theorem verify_recorded (log : List (ℕ × ℕ)) :
    ∃ reads w', verify D (recorded R) a (w, log) = ((verify D R a w).1, (w', log ++ reads)) ∧
      P w' ∧ reads.Subperm (windows a) ∧
      ((verify D R a w).1 = .ok () → reads.Perm (windows a)) := by
  have hwatched := verify_post (recording (D := D) hp hin log) h (w := (w, log))
    (show P w ∧ log = log ++ ([] : List ℕ).map (windowOf a) from ⟨hw, by simp⟩)
  have hsettles := verify_settles h hp hin hw
  have hfails : ∀ f, FailsFirst D R a P f → (verify D R a w).1 = .error f := fun f hf =>
    hsettles.unique ((verify_error_iff h hp hin hw).mpr hf) hw
  rcases hr : verify D (recorded R) a (w, log) with ⟨f | ⟨⟨⟩⟩, w', log'⟩
  · rcases hwatched.of_error hr with ⟨hlt, rfl, hw', hlog⟩ | ⟨hlimit, hf⟩
    · have hfail := hfails _ (Or.inl ⟨hlt, rfl⟩)
      refine ⟨[], w', ?_, hw', List.nil_subperm, fun hok => ?_⟩
      · rw [hfail, show log' = log ++ [] from hlog]
      · cases hfail.symm.trans hok
    · have hfail := hfails f (Or.inr ⟨hlimit, readFull_of_verifyFault h hp hin hw hlimit hf⟩)
      obtain ⟨front, e, back, hentries, -, n, hn, ⟨hw', hlog⟩, -⟩ := hf
      refine ⟨_, w', ?_, hw', subperm_windows h hentries hn, fun hok => ?_⟩
      · rw [hfail, show log' = _ from hlog]
        rfl
      · cases hfail.symm.trans hok
  · obtain ⟨hlimit, ⟨hw', hlog⟩, hall⟩ := hwatched.of_ok hr
    have hok : (verify D R a w).1 = .ok () := hsettles.unique ((verify_ok_iff h hp hin hw).mpr
      ⟨hlimit, fun e he => (readFull_of_hasContents h hp hin hw hlimit he).mpr (hall e he)⟩) hw
    refine ⟨_, w', ?_, hw', (perm_windows h).subperm, fun _ => perm_windows h⟩
    rw [hok, show log' = _ from hlog]

end All

/-- **`verify` means that everything is readable.** Over a source of unchanging bytes, verification
and the full reads come to one result each, from every state. Verification succeeds exactly when the
chunks are few enough and the full read of every entry succeeds; it fails over the number of chunks,
or as the full read of the first entry that cannot be read. Watched or not it comes to the same, and
the record shows every block read once when it succeeds, and none read twice when it fails. -/
theorem verify_reads {D : Dependencies} {W : Type} {R : RandomAccessRead W} {a : Archive}
    {P : W → Prop} {w w' : W} {c key : Bytes} {limits : ArchiveLimits} (hp : Presents R P c)
    (hw : P w) (hopen : openWithLimits D R key limits w = (.ok a, w')) :
    Fallible.Settles P (verify D R a) (verify D R a w).1 ∧
    (∀ e ∈ a.entries, Fallible.Settles P (readFull D R a e) (readFull D R a e w).1) ∧
    (Fallible.Settles P (verify D R a) (.ok ()) ↔
      a.chunks.length ≤ a.maxChunksPerOperation ∧
      ∀ e ∈ a.entries, ∃ d, Fallible.Settles P (readFull D R a e) (.ok d)) ∧
    (∀ f, Fallible.Settles P (verify D R a) (.error f) ↔ FailsFirst D R a P f) ∧
    (windows a).Nodup ∧
    ∀ w log, P w → ∃ reads w', verify D (recorded R) a (w, log) =
        ((verify D R a w).1, (w', log ++ reads)) ∧ P w' ∧ reads.Subperm (windows a) ∧
      ((verify D R a w).1 = .ok () → reads.Perm (windows a)) := by
  have h := openWithLimits_wellFormed hopen
  have hin := holds_of_open hp hw hopen
  exact ⟨verify_settles h hp hin hw, fun e he => readFull_settles h hp hin hw he,
    verify_ok_iff h hp hin hw, fun f => verify_error_iff h hp hin hw, nodup_windows h,
    fun w log hw => verify_recorded h hp hin hw log⟩

/-- The small archive is verified, and so its entry is read and its blocks are read once. -/
theorem verify_reads_small :
    (∀ e ∈ smallArchive.entries, ∃ d,
      readFull reference sliceSource smallArchive e smallBytes = (.ok d, smallBytes)) ∧
    ∃ reads, (verify reference (recorded sliceSource) smallArchive (smallBytes, [])).2 =
      (smallBytes, reads) ∧ reads.Perm [(60, 2), (62, 1)] := by
  have hok : (verify reference sliceSource smallArchive smallBytes).1 = .ok () := by
    decide +kernel
  obtain ⟨hsettles, -, hreadable, -, -, hrecorded⟩ :=
    verify_reads (sliceSource_presents smallBytes) rfl openWithLimits_small
  rw [hok] at hsettles
  refine ⟨fun e he => ?_, ?_⟩
  · obtain ⟨d, hd⟩ := (hreadable.mp hsettles).2 e he
    obtain ⟨w, hr, rfl⟩ := hd smallBytes rfl
    exact ⟨d, hr⟩
  · obtain ⟨reads, w, hrun, rfl, -, hperm⟩ := hrecorded smallBytes [] rfl
    exact ⟨reads, by rw [hrun]; rfl, hperm hok⟩

end RasenArchive
