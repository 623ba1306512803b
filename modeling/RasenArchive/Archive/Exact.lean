import RasenArchive.Archive.Verified

/-!
# Exact lookup

Which entries the lookups of an open archive find, in terms of the paths and the hashes that the
entries carry.

## Main definitions

* `EntryOf`: the entry is the one that a path stands for
* `UsesEntry`, `UsesEntryById`: the calls by a path or by an identifier are calls on one entry
* `FailsEverywhere`, `FailsById`: they fail alike

## Main results

* `lookup_exact`: lookups find exactly the entries they should
-/

namespace RasenArchive

variable (D : Dependencies) {W : Type} (R : RandomAccessRead W) (a : Archive)

/-- The entry is the one that `path` stands for: it has the normal path, or in an archive without
paths its hash. -/
def EntryOf (path : String) (e : Entry) : Prop :=
  ∃ q, normalizePath path = .ok q ∧ e ∈ a.entries ∧
    if a.pathsStripped then e.pathHash = checksum D (asBytes q) else e.path = q

/-- **Every call by `path` is a call on the entry `e`.** -/
def UsesEntry (path : String) (e : Entry) : Prop :=
  ∃ q idx, normalizePath path = .ok q ∧ a.entries[idx]? = some e ∧
    tryContains D a path = .ok true ∧ contains D a path = true ∧
    read D R a path = readFound D R a idx (.path q) ∧
    readInto D R a path = withDefaultScratch (readEntryInto D R a idx (.path q)) ∧
    readIntoWithScratch D R a path = readEntryInto D R a idx (.path q) ∧
    (∀ i, readChunk D R a path i = readChunkFound D R a idx (.path q) i) ∧
    (∀ i, readChunkInto D R a path i =
      withDefaultScratch (readChunkIntoFound D R a idx (.path q) i)) ∧
    (∀ i, readChunkIntoWithScratch D R a path i = readChunkIntoFound D R a idx (.path q) i) ∧
    (∀ offset len, readRange D R a path offset len =
      readRangeFound D R a idx (.path q) offset.toNat len.toNat false) ∧
    (∀ offset len, readRangeExact D R a path offset len =
      readRangeFound D R a idx (.path q) offset.toNat len.toNat true) ∧
    (∀ offset, readRangeInto D R a path offset =
      withDefaultScratch (readRangeIntoFound D R a idx (.path q) offset.toNat)) ∧
    ∀ offset, readRangeWithScratch D R a path offset =
      readRangeIntoFound D R a idx (.path q) offset.toNat

/-- **Every call by `path` fails** with `f`, and changes nothing. -/
def FailsEverywhere (path : String) (f : Fault) : Prop :=
  (∀ w, read D R a path w = (.error f, w)) ∧
    (∀ s, readInto D R a path s = (.error f, s)) ∧
    (∀ s, readIntoWithScratch D R a path s = (.error f, s)) ∧
    (∀ i w, readChunk D R a path i w = (.error f, w)) ∧
    (∀ i s, readChunkInto D R a path i s = (.error f, s)) ∧
    (∀ i s, readChunkIntoWithScratch D R a path i s = (.error f, s)) ∧
    (∀ offset len w, readRange D R a path offset len w = (.error f, w)) ∧
    (∀ offset len w, readRangeExact D R a path offset len w = (.error f, w)) ∧
    (∀ offset s, readRangeInto D R a path offset s = (.error f, s)) ∧
    (∀ offset s, readRangeWithScratch D R a path offset s = (.error f, s)) ∧
    tryContains D a path ≠ .ok true ∧ contains D a path = false

/-- **Every call by the identifier `id`**, or by its hash, is a call on the entry `e`. -/
def UsesEntryById (id : AssetId) (e : Entry) : Prop :=
  ∃ idx, a.entries[idx]? = some e ∧ containsId a id = true ∧ containsHash a id.get = true ∧
    readById D R a id = readFound D R a idx (labelOf a e id) ∧
    readByHash D R a id.get = readFound D R a idx (labelOf a e id)

/-- **Every read by the identifier `id`**, or by its hash, fails with `f`, and changes nothing. -/
def FailsById (id : AssetId) (f : Fault) : Prop :=
  (∀ w, readById D R a id w = (.error f, w)) ∧ ∀ w, readByHash D R a id.get w = (.error f, w)

section Exact

variable {D R a} (h : WellFormed D a) {path : String} {e : Entry}

include h

theorem matches_iff {q : String} (he : e ∈ a.entries) :
    Matches D a.pathsStripped q e ↔
      if a.pathsStripped then e.pathHash = checksum D (asBytes q) else e.path = q := by
  cases hs : a.pathsStripped with
  | true => simp [Matches]
  | false =>
    rw [← hs, matches_iff_of_paths h hs he, hs]
    simp

omit h in
theorem locate_eq_ok_iff {q : String} {idx : ℕ} :
    locate D a path = .ok (q, idx) ↔
      normalizePath path = .ok q ∧ findEntryIndexNormalized D a q = .ok idx := by
  simp only [locate, normalizeLookupPath, bind_eq_ok, pure_eq_ok_iff, Prod.mk.injEq]
  constructor
  · rintro ⟨_, hq, _, hf, rfl, rfl⟩
    exact ⟨hq, hf⟩
  · rintro ⟨hq, hf⟩
    exact ⟨q, hq, idx, hf, rfl, rfl⟩

/-- **Lookup by path** finds the entry that the path stands for. -/
theorem entry_eq_ok_iff : entry D a path = .ok e ↔ EntryOf D a path e := by
  simp only [entry, bind_eq_ok, Prod.exists, locate_eq_ok_iff, index_eq_ok_iff]
  constructor
  · rintro ⟨q, idx, ⟨hq, hf⟩, hidx⟩
    obtain ⟨hi, hm⟩ := (findEntryIndexNormalized_eq_ok_iff h).mp hf
    rw [List.getElem?_eq_getElem hi] at hidx
    cases hidx
    exact ⟨q, hq, List.getElem_mem hi, (matches_iff h (List.getElem_mem hi)).mp hm⟩
  · rintro ⟨q, hq, he, hm⟩
    obtain ⟨idx, hi, rfl⟩ := List.mem_iff_getElem.mp he
    exact ⟨q, idx, ⟨hq, (findEntryIndexNormalized_eq_ok_iff h).mpr
      ⟨hi, (matches_iff h he).mpr hm⟩⟩, List.getElem?_eq_getElem hi⟩

omit h in
/-- **Every call by a path is a call on the entry of the path.** -/
theorem usesEntry (he : entry D a path = .ok e) : UsesEntry D R a path e := by
  simp only [entry, bind_eq_ok, Prod.exists, index_eq_ok_iff] at he
  obtain ⟨q, idx, hl, hidx⟩ := he
  obtain ⟨hq, hf⟩ := (locate_eq_ok_iff).mp hl
  have hcontains : tryContains D a path = .ok true := by
    rw [tryContains, normalizeLookupPath, hq, ok_bind, hf]
    rfl
  refine ⟨q, idx, hq, hidx, hcontains, ?_, ?_, ?_, ?_, fun i => ?_, fun i => ?_, fun i => ?_,
    fun offset len => ?_, fun offset len => ?_, fun offset => ?_, fun offset => ?_⟩
  · rw [contains, hcontains]
  · funext w
    exact Fallible.liftM_bind_of_ok hl _ _
  · exact congrArg withDefaultScratch (funext fun s => Fallible.liftM_bind_of_ok hl _ _)
  · funext s
    exact Fallible.liftM_bind_of_ok hl _ _
  · funext w
    exact Fallible.liftM_bind_of_ok hl _ _
  · exact congrArg withDefaultScratch (funext fun s => Fallible.liftM_bind_of_ok hl _ _)
  · funext s
    exact Fallible.liftM_bind_of_ok hl _ _
  · funext w
    exact Fallible.liftM_bind_of_ok hl _ _
  · funext w
    exact Fallible.liftM_bind_of_ok hl _ _
  · exact congrArg withDefaultScratch (funext fun s => Fallible.liftM_bind_of_ok hl _ _)
  · funext s
    exact Fallible.liftM_bind_of_ok hl _ _

/-- **A call by a path without an entry** fails as the lookup does. -/
theorem failsEverywhere {f : Fault} (hf : entry D a path = .error f) :
    FailsEverywhere D R a path f := by
  have hl : locate D a path = .error f := by
    cases hl : locate D a path with
    | error f' =>
      rw [entry, hl, error_bind] at hf
      cases hf
      rfl
    | ok r =>
      obtain ⟨q, idx⟩ := r
      obtain ⟨hi, -⟩ := (findEntryIndexNormalized_eq_ok_iff h).mp (locate_eq_ok_iff.mp hl).2
      rw [entry, hl, ok_bind] at hf
      cases (index_of_lt hi).symm.trans hf
  have hcontains : tryContains D a path ≠ .ok true := by
    intro ht
    simp only [tryContains, normalizeLookupPath, bind_eq_ok] at ht
    obtain ⟨q, hq, ht⟩ := ht
    rcases findEntryIndexNormalized_cases h q with ⟨hi, -⟩ | ⟨idx, -, hi, -⟩
    · rw [hi] at ht
      cases ht
    · cases hl.symm.trans (locate_eq_ok_iff.mpr ⟨hq, hi⟩)
  have hfalse : contains D a path = false := by
    unfold contains
    rcases ht : tryContains D a path with f | _ | _
    · rfl
    · rfl
    · exact absurd ht hcontains
  refine ⟨fun w => ?_, ?_, fun s => ?_, fun i w => ?_, fun i => ?_, fun i s => ?_,
    fun offset len w => ?_, fun offset len w => ?_, fun offset => ?_, fun offset s => ?_, hcontains,
    hfalse⟩
  · exact Fallible.liftM_bind_of_error hl _ _
  · exact withDefaultScratch_of_error fun s => Fallible.liftM_bind_of_error hl _ _
  · exact Fallible.liftM_bind_of_error hl _ _
  · exact Fallible.liftM_bind_of_error hl _ _
  · exact withDefaultScratch_of_error fun s => Fallible.liftM_bind_of_error hl _ _
  · exact Fallible.liftM_bind_of_error hl _ _
  · exact Fallible.liftM_bind_of_error hl _ _
  · exact Fallible.liftM_bind_of_error hl _ _
  · exact withDefaultScratch_of_error fun s => Fallible.liftM_bind_of_error hl _ _
  · exact Fallible.liftM_bind_of_error hl _ _

/-- **Lookup by identifier** finds the one entry with its hash. -/
theorem entryById_eq_ok_iff {id : AssetId} :
    entryById a id = .ok e ↔
      (a.entries.filter fun e => decide (e.pathHash = id.get)) = [e] := by
  unfold entryById
  rcases findEntryIndexById_cases h id with ⟨hc, hf⟩ | ⟨i, hi, hf, hone⟩ | ⟨hc, hf⟩
  · rw [List.countP_eq_length_filter, List.length_eq_zero_iff] at hc
    simp [hf, hc]
  · rw [hf, ok_bind, index_of_lt hi, hone]
    simp
  · rw [List.countP_eq_length_filter] at hc
    rw [hf]
    simp only [error_bind, reduceCtorEq, false_iff]
    intro hone
    rw [hone] at hc
    simp at hc

theorem entryById_notFound_iff {id : AssetId} :
    entryById a id = .error (.error (.notFound ("hash:" ++ hex16 id.get))) ↔
      ∀ e ∈ a.entries, e.pathHash ≠ id.get := by
  have hzero : (∀ e ∈ a.entries, e.pathHash ≠ id.get) ↔
      (a.entries.countP fun e => decide (e.pathHash = id.get)) = 0 := by
    simp [List.countP_eq_zero]
  rw [hzero]
  unfold entryById
  rcases findEntryIndexById_cases h id with ⟨hc, hf⟩ | ⟨i, hi, hf, hone⟩ | ⟨hc, hf⟩
  · simp [hf, hc]
  · rw [hf, ok_bind, index_of_lt hi, List.countP_eq_length_filter, hone]
    simp
  · rw [hf]
    simp only [error_bind, Except.error.injEq, Fault.error.injEq, reduceCtorEq, false_iff]
    omega

theorem entryById_hashCollision_iff {id : AssetId} :
    entryById a id = .error (.error (.hashCollision id.get)) ↔
      2 ≤ (a.entries.countP fun e => decide (e.pathHash = id.get)) := by
  unfold entryById
  rcases findEntryIndexById_cases h id with ⟨hc, hf⟩ | ⟨i, hi, hf, hone⟩ | ⟨hc, hf⟩
  · simp [hf, hc]
  · rw [hf, ok_bind, index_of_lt hi, List.countP_eq_length_filter, hone]
    simp
  · simp [hf, hc]

theorem containsId_iff {id : AssetId} :
    containsId a id = true ↔ ∃ e ∈ a.entries, e.pathHash = id.get := by
  rw [containsId, isSome_hashRange_iff h, Ne, ← List.length_eq_zero_iff, length_bucketOf h,
    List.countP_eq_zero]
  simp

/-- **Every call by an identifier, or by its hash**, is a call on the entry of the identifier. -/
theorem usesEntryById {id : AssetId} (he : entryById a id = .ok e) :
    UsesEntryById D R a id e := by
  have hcontains : containsId a id = true := by
    have hone := (entryById_eq_ok_iff h).mp he
    have hmem : e ∈ a.entries.filter fun e => decide (e.pathHash = id.get) := by
      rw [hone]
      exact List.mem_singleton_self e
    rw [List.mem_filter, decide_eq_true_iff] at hmem
    exact (containsId_iff h).mpr ⟨e, hmem⟩
  simp only [entryById, bind_eq_ok] at he
  obtain ⟨idx, hl, hindex⟩ := he
  have hread : readById D R a id = readFound D R a idx (labelOf a e id) := by
    funext w
    unfold readById
    rw [Fallible.liftM_bind_of_ok hl, Fallible.liftM_bind_of_ok hindex]
  exact ⟨idx, index_eq_ok_iff.mp hindex, hcontains, hcontains, hread, hread⟩

/-- **A read by an identifier without one entry** fails as the lookup does. -/
theorem failsById {id : AssetId} {f : Fault} (hf : entryById a id = .error f) :
    FailsById D R a id f := by
  have hl : findEntryIndexById a id = .error f := by
    cases hl : findEntryIndexById a id with
    | error f' =>
      rw [entryById, hl, error_bind] at hf
      cases hf
      rfl
    | ok idx =>
      rcases findEntryIndexById_cases h id with ⟨-, hn⟩ | ⟨i, hi, hn, -⟩ | ⟨-, hn⟩
      · cases hl.symm.trans hn
      · cases hl.symm.trans hn
        rw [entryById, hl, ok_bind, index_of_lt hi] at hf
        cases hf
      · cases hl.symm.trans hn
  have hread : ∀ w, readById D R a id w = (.error f, w) :=
    fun w => Fallible.liftM_bind_of_error hl _ _
  exact ⟨hread, hread⟩

/-- In an archive with paths no two entries have the same path. -/
theorem nodup_paths (hs : a.pathsStripped = false) : (a.entries.map TocEntry.path).Nodup := by
  have hpairs : (a.entries.map fun e => (e.pathHash, e.path)) =
      (a.entries.map TocEntry.path).map fun p => (checksum D (asBytes p), p) := by
    rw [List.map_map]
    refine List.map_congr_left fun e he => ?_
    have hown := h.ownPath e he
    rw [hs] at hown
    obtain ⟨-, hhash⟩ : normalizePath e.path = .ok e.path ∧
      checksum D (asBytes e.path) = e.pathHash := hown
    simp [hhash]
  have hnodup := h.distinct.paths
  rw [hpairs] at hnodup
  exact hnodup.of_map

/-- In an archive without paths an entry is the only one with its hash. -/
theorem filter_pathHash (hs : a.pathsStripped = true) (he : e ∈ a.entries) :
    (a.entries.filter fun x => decide (x.pathHash = e.pathHash)) = [e] := by
  have hmem : e ∈ a.entries.filter fun x => decide (x.pathHash = e.pathHash) := by
    rw [List.mem_filter, decide_eq_true_iff]
    exact ⟨he, rfl⟩
  have hsub : (a.entries.filter fun x => decide (x.pathHash = e.pathHash)).Sublist a.entries :=
    List.filter_sublist
  have hnodup := (hsub.map TocEntry.pathHash).nodup (h.distinct.unique hs)
  rcases hl : a.entries.filter fun x => decide (x.pathHash = e.pathHash) with
    _ | ⟨x, _ | ⟨y, l⟩⟩
  · rw [hl] at hmem
    cases hmem
  · rw [hl, List.mem_singleton] at hmem
    rw [hl, ← hmem]
  · have hall : ∀ z ∈ x :: y :: l, z.pathHash = e.pathHash := by
      intro z hz
      rw [← hl, List.mem_filter, decide_eq_true_iff] at hz
      exact hz.2
    rw [hl] at hnodup
    simp [hall x (by simp), hall y (by simp)] at hnodup

/-- In an archive without paths a hash and its identifier find the same entry. -/
theorem entry_eq_ok_iff_entryById (hs : a.pathsStripped = true) {id : AssetId}
    (hid : AssetId.fromPath D path = .ok id) :
    entry D a path = .ok e ↔ entryById a id = .ok e := by
  obtain ⟨q, hq, rfl⟩ := (fromPath_eq_ok_iff D).mp hid
  rw [entry_eq_ok_iff h, entryById_eq_ok_iff h]
  constructor
  · rintro ⟨q', hq', he, hm⟩
    cases hq.symm.trans hq'
    rw [if_pos hs] at hm
    rw [← hm]
    exact filter_pathHash h hs he
  · intro hone
    have hmem : e ∈ a.entries.filter fun e => decide (e.pathHash = checksum D (asBytes q)) := by
      rw [hone]
      exact List.mem_singleton.mpr rfl
    rw [List.mem_filter, decide_eq_true_iff] at hmem
    exact ⟨q, hq, hmem.1, by rw [if_pos hs]; exact hmem.2⟩

end Exact

/-- **Lookup is exact**, by path and by identifier, in every archive that was opened. -/
theorem lookup_exact {D : Dependencies} {R : RandomAccessRead W} {key : Bytes}
    {limits : ArchiveLimits} {w₀ w₁ : W} {a : Archive}
    (hopen : openWithLimits D R key limits w₀ = (.ok a, w₁)) :
    (a.pathsStripped = false → (a.entries.map TocEntry.path).Nodup ∧
      ∀ e ∈ a.entries, normalizePath e.path = .ok e.path ∧
        checksum D (asBytes e.path) = e.pathHash) ∧
    (a.pathsStripped = true → (a.entries.map TocEntry.pathHash).Nodup ∧
      ∀ path id, AssetId.fromPath D path = .ok id →
        ∀ e, entry D a path = .ok e ↔ entryById a id = .ok e) ∧
    (∀ path e, entry D a path = .ok e ↔ EntryOf D a path e) ∧
    (∀ path e, entry D a path = .ok e → UsesEntry D R a path e) ∧
    (∀ path f, entry D a path = .error f → FailsEverywhere D R a path f) ∧
    ∀ id, (containsId a id = true ↔ ∃ e ∈ a.entries, e.pathHash = id.get) ∧
      (∀ e, entryById a id = .ok e ↔
        (a.entries.filter fun e => decide (e.pathHash = id.get)) = [e]) ∧
      (entryById a id = .error (.error (.hashCollision id.get)) ↔
        2 ≤ (a.entries.countP fun e => decide (e.pathHash = id.get))) ∧
      (entryById a id = .error (.error (.notFound ("hash:" ++ hex16 id.get))) ↔
        ∀ e ∈ a.entries, e.pathHash ≠ id.get) ∧
      (∀ e, entryById a id = .ok e → UsesEntryById D R a id e) ∧
      ∀ f, entryById a id = .error f → FailsById D R a id f := by
  have h := openWithLimits_wellFormed hopen
  refine ⟨fun hs => ⟨nodup_paths h hs, fun e he => ?_⟩,
    fun hs => ⟨h.distinct.unique hs, fun path id hid e => entry_eq_ok_iff_entryById h hs hid⟩,
    fun path e => entry_eq_ok_iff h, fun path e => usesEntry, fun path f => failsEverywhere h,
    fun id => ⟨containsId_iff h, fun e => entryById_eq_ok_iff h, entryById_hashCollision_iff h,
      entryById_notFound_iff h, fun e => usesEntryById h, fun f => failsById h⟩⟩
  have hown := h.ownPath e he
  rw [hs] at hown
  exact hown

/-- Lookups in the small archive. -/
theorem lookup_exact_small :
    (smallArchive.entries.map TocEntry.path).Nodup ∧
      UsesEntry reference sliceSource smallArchive "./a" ⟨"a", foldHash [97], 3, 3, 0, 2⟩ ∧
      containsId smallArchive ⟨foldHash [97]⟩ = true :=
  have h := lookup_exact openWithLimits_small
  ⟨(h.1 (by decide +kernel)).1, h.2.2.2.1 _ _ (by decide +kernel),
    (h.2.2.2.2.2 _).1.mpr (by decide +kernel)⟩

end RasenArchive
