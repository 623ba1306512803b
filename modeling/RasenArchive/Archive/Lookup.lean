import RasenArchive.Archive.Open

/-!
# Lookup

Finding an entry by its path or by its identifier, through the index.

## Main definitions

* `hashRange`: the bucket of an identifier
* `findEntryIndexNormalized`, `findEntryIndexById`: the entry of a path and of an identifier
* `locate`: the lookup that every access by path begins with
* `entry`, `entryById`, `tryContains`, `contains`, `containsId`: the public lookups

## Main results

* `findEntryIndexNormalized_cases`, `findEntryIndexNormalized_eq_ok_iff`: lookup by path
* `findEntryIndexById_cases`: lookup by identifier
-/

namespace RasenArchive

variable (D : Dependencies) (a : Archive)

/-- The sixteen digits of `{:016x}`. -/
def hex16 (n : UInt64) : String :=
  String.ofList ((List.range 16).map fun i => Nat.digitChar (n.toNat / 16 ^ (15 - i) % 16))

/-- `hash_range`. -/
def hashRange (id : AssetId) : Option (ℕ × ℕ) :=
  let start := partitionPoint (fun item => decide (item.1 < id)) a.index
  let stop := partitionPoint (fun item => decide (item.1 ≤ id)) a.index
  if start ≠ stop then some (start, stop) else none

/-- The search of `find_entry_index_normalized` through a bucket. -/
def findPath (entries : List Entry) (normalized : String) : List IndexItem → Result (Option ℕ)
  | [] => pure none
  | (_, i) :: bucket => do
    let entry ← index entries i
    if entry.path = normalized then pure (some i) else findPath entries normalized bucket

/-- `find_entry_index_normalized`. -/
def findEntryIndexNormalized (normalized : String) : Result ℕ := do
  let id := AssetId.fromRaw (checksum D (asBytes normalized))
  let range ← okOr (hashRange a id) (.notFound normalized)
  -- without paths, `validate_index` left one entry in each bucket
  if a.pathsStripped then do
    let item ← index a.index range.1
    pure item.2
  else do
    let bucket ← slice a.index range.1 range.2
    let found ← findPath a.entries normalized bucket
    okOr found (.notFound normalized)

/-- `find_entry_index_by_id`. -/
def findEntryIndexById (id : AssetId) : Result ℕ := do
  let range ← okOr (hashRange a id) (.notFound ("hash:" ++ hex16 id.get))
  let len ← sub range.2 range.1
  ensure (len = 1) (.hashCollision id.get)
  let item ← index a.index range.1
  pure item.2

/-- The first two lines of every access by path. -/
def locate (path : String) : Result (String × ℕ) := do
  let normalized ← normalizeLookupPath path
  let idx ← findEntryIndexNormalized D a normalized
  pure (normalized, idx)

/-- `Archive::entry`. -/
def entry (path : String) : Result Entry := do
  let (_, idx) ← locate D a path
  index a.entries idx

/-- `Archive::entry_by_id`. -/
def entryById (id : AssetId) : Result Entry := do
  let idx ← findEntryIndexById a id
  index a.entries idx

/-- `Archive::try_contains`. -/
def tryContains (path : String) : Result Bool := do
  let normalized ← normalizeLookupPath path
  match findEntryIndexNormalized D a normalized with
  | .ok _ => pure true
  | .error (.error (.notFound _)) => pure false
  | .error e => .error e

/-- `Archive::contains`. -/
def contains (path : String) : Bool :=
  match tryContains D a path with
  | .ok b => b
  | .error _ => false

/-- `Archive::contains_id`. -/
def containsId (id : AssetId) : Bool := (hashRange a id).isSome

/-- `Archive::contains_hash`. -/
def containsHash (pathHash : UInt64) : Bool := containsId a (AssetId.fromRaw pathHash)

/-! ## Buckets -/

section Bucket

variable {D a} (h : WellFormed D a)

/-- The items of the index with the identifier `id`. -/
def bucketOf (a : Archive) (id : AssetId) : List IndexItem :=
  a.index.filter fun item => decide (item.1 = id)

include h

/-- **The range of an identifier** is its bucket. -/
theorem hashRange_spec (id : AssetId) :
    (bucketOf a id = [] ∧ hashRange a id = none) ∨
      ∃ start stop, hashRange a id = some (start, stop) ∧ start < stop ∧
        stop ≤ a.index.length ∧ a.index.extract start stop = bucketOf a id := by
  have hsorted := h.index.sorted
  have hlt := partitionPoint_eq_countP (partitioned_lt hsorted id)
  have hle := partitionPoint_eq_countP (partitioned_le hsorted id)
  have hmono := countP_lt_le_countP_le Prod.fst a.index id
  have hbucket := extract_bucket hsorted id
  simp only [hashRange, hlt, hle]
  rcases Nat.lt_or_eq_of_le hmono with hne | heq
  · exact Or.inr ⟨_, _, if_pos hne.ne, hne, List.countP_le_length, hbucket⟩
  · refine Or.inl ⟨?_, if_neg (not_not.mpr heq)⟩
    rw [bucketOf, ← hbucket, heq, List.extract_eq_take_drop, Nat.sub_self, List.take_zero]

theorem mem_bucketOf {id : AssetId} {i : ℕ} :
    (id, i) ∈ bucketOf a id ↔ ∃ hi : i < a.entries.length, a.entries[i].pathHash = id.get := by
  rw [bucketOf, List.mem_filter, h.index.perm.mem_iff, indexItems, List.mem_mapIdx]
  constructor
  · rintro ⟨⟨j, hj, he⟩, -⟩
    simp only [Prod.mk.injEq] at he
    obtain ⟨he, rfl⟩ := he
    exact ⟨hj, by rw [← he]; rfl⟩
  · rintro ⟨hi, he⟩
    exact ⟨⟨i, hi, by rw [he]; rfl⟩, by simp⟩

/-- The bucket of an identifier is as long as there are entries with its hash. -/
theorem length_bucketOf (id : AssetId) :
    (bucketOf a id).length = a.entries.countP fun e => decide (e.pathHash = id.get) := by
  rw [bucketOf, ← List.countP_eq_length_filter]
  exact h.index.countP_eq id.get

omit h in
theorem fst_of_mem_bucketOf {id : AssetId} {item : IndexItem} (hm : item ∈ bucketOf a id) :
    item = (id, item.2) := by
  rw [bucketOf, List.mem_filter, decide_eq_true_iff] at hm
  rw [← hm.2]

end Bucket

/-! ## Lookup by path -/

section Path

variable {D a}

theorem findPath_spec {entries : List Entry} (normalized : String) {bucket : List IndexItem}
    (hvalid : ∀ x ∈ bucket, x.2 < entries.length) :
    (findPath entries normalized bucket = .ok none ∧
        ∀ x ∈ bucket, pathAt entries x.2 ≠ normalized) ∨
      ∃ x ∈ bucket, findPath entries normalized bucket = .ok (some x.2) ∧
        pathAt entries x.2 = normalized := by
  induction bucket with
  | nil => exact Or.inl ⟨rfl, by simp⟩
  | cons x bucket ih =>
    rw [List.forall_mem_cons] at hvalid
    have hpath : pathAt entries x.2 = entries[x.2].path := by simp [pathAt, hvalid.1]
    simp only [findPath, index_of_lt hvalid.1, ok_bind]
    by_cases heq : entries[x.2].path = normalized
    · rw [if_pos heq]
      exact Or.inr ⟨x, by simp, rfl, hpath.trans heq⟩
    · rw [if_neg heq]
      rcases ih hvalid.2 with ⟨hf, hall⟩ | ⟨y, hy, hf, hp⟩
      · exact Or.inl ⟨hf, List.forall_mem_cons.mpr ⟨hpath ▸ heq, hall⟩⟩
      · exact Or.inr ⟨y, List.mem_cons_of_mem _ hy, hf, hp⟩

/-- Under its hash, a path has one entry at most. -/
theorem DistinctEntries.eq_of_path {entries : List Entry} {stripped : Bool}
    (h : DistinctEntries entries stripped) {i j : ℕ} (hi : i < entries.length)
    (hj : j < entries.length) (hhash : entries[i].pathHash = entries[j].pathHash)
    (hpath : entries[i].path = entries[j].path) : i = j := by
  have hinj := List.nodup_iff_injective_get.mp h.paths
  have he : (⟨i, by simpa using hi⟩ : Fin (entries.map fun e => (e.pathHash, e.path)).length) =
      ⟨j, by simpa using hj⟩ := hinj (by simp [hhash, hpath])
  exact congrArg Fin.val he

/-- Without paths, a hash has one entry at most. -/
theorem DistinctEntries.eq_of_hash {entries : List Entry}
    (h : DistinctEntries entries true) {i j : ℕ} (hi : i < entries.length)
    (hj : j < entries.length) (hhash : entries[i].pathHash = entries[j].pathHash) : i = j := by
  have hinj := List.nodup_iff_injective_get.mp (h.unique rfl)
  have he : (⟨i, by simpa using hi⟩ : Fin (entries.map TocEntry.pathHash).length) =
      ⟨j, by simpa using hj⟩ := hinj (by simp [hhash])
  exact congrArg Fin.val he

/-- The entry is the one that a lookup of the normal path `q` looks for. -/
def Matches (D : Dependencies) (pathsStripped : Bool) (q : String) (e : Entry) : Prop :=
  e.pathHash = checksum D (asBytes q) ∧ (pathsStripped = false → e.path = q)

theorem lt_length_of_mem_bucketOf (h : WellFormed D a) {id : AssetId} :
    ∀ x ∈ bucketOf a id, x.2 < a.entries.length := by
  intro x hx
  rw [fst_of_mem_bucketOf hx, mem_bucketOf h] at hx
  exact hx.1

/-- **Lookup by path**: the one entry that matches, or none. -/
theorem findEntryIndexNormalized_cases (h : WellFormed D a) (q : String) :
    (findEntryIndexNormalized D a q = .error (.error (.notFound q)) ∧
        ∀ e ∈ a.entries, ¬ Matches D a.pathsStripped q e) ∨
      ∃ i, ∃ hi : i < a.entries.length, findEntryIndexNormalized D a q = .ok i ∧
        Matches D a.pathsStripped q a.entries[i] := by
  set id := AssetId.fromRaw (checksum D (asBytes q)) with hid
  have hvalid : ∀ x ∈ bucketOf a id, x.2 < a.entries.length := lt_length_of_mem_bucketOf h
  have hmem : ∀ {i} (hi : i < a.entries.length),
      a.entries[i].pathHash = checksum D (asBytes q) → (id, i) ∈ bucketOf a id :=
    fun hi he => (mem_bucketOf h).mpr ⟨hi, he⟩
  unfold findEntryIndexNormalized
  rw [← hid]
  rcases hashRange_spec h id with ⟨hnil, hr⟩ | ⟨start, stop, hr, hlt, hle, hext⟩
  · left
    refine ⟨by simp only [hr]; rfl, fun e he hm => ?_⟩
    obtain ⟨i, hi, rfl⟩ := List.mem_iff_getElem.mp he
    have := hmem hi hm.1
    rw [hnil] at this
    cases this
  · simp only [hr, okOr, ok_bind]
    cases hs : a.pathsStripped with
    | true =>
      right
      have hstart : start < a.index.length := by omega
      have hitem : a.index[start] ∈ bucketOf a id := by
        rw [← hext, List.extract_eq_take_drop]
        rw [List.mem_take_iff_getElem]
        exact ⟨0, by simp; omega, by simp⟩
      have hi := hvalid _ hitem
      have hhash := hitem
      rw [fst_of_mem_bucketOf hitem, mem_bucketOf h] at hhash
      obtain ⟨_, hhash⟩ := hhash
      refine ⟨a.index[start].2, hi, ?_, hhash, by simp⟩
      rw [if_pos rfl, index_of_lt hstart]
      rfl
    | false =>
      have hslice : slice a.index start stop = .ok (bucketOf a id) := by
        rw [slice_of_le hlt.le hle, hext]
      simp only [Bool.false_eq_true, if_false, hslice, ok_bind]
      rcases findPath_spec q hvalid with ⟨hf, hall⟩ | ⟨x, hx, hf, hp⟩
      · left
        refine ⟨by rw [hf]; rfl, fun e he hm => ?_⟩
        obtain ⟨i, hi, rfl⟩ := List.mem_iff_getElem.mp he
        refine hall _ (hmem hi hm.1) ?_
        simpa [pathAt, hi] using hm.2 rfl
      · right
        have hi := hvalid x hx
        rw [fst_of_mem_bucketOf hx, mem_bucketOf h] at hx
        refine ⟨x.2, hi, by rw [hf]; rfl, hx.2, fun _ => ?_⟩
        simpa [pathAt, hi] using hp

theorem findEntryIndexNormalized_eq_ok_iff (h : WellFormed D a) {q : String} {i : ℕ} :
    findEntryIndexNormalized D a q = .ok i ↔
      ∃ hi : i < a.entries.length, Matches D a.pathsStripped q a.entries[i] := by
  rcases findEntryIndexNormalized_cases h q with ⟨he, hnone⟩ | ⟨j, hj, he, hm⟩
  · rw [he]
    simp only [reduceCtorEq, false_iff, not_exists]
    exact fun hi hm => hnone _ (List.getElem_mem hi) hm
  · rw [he, Except.ok.injEq]
    constructor
    · rintro rfl
      exact ⟨hj, hm⟩
    · rintro ⟨hi, hm'⟩
      have hhash : a.entries[j].pathHash = a.entries[i].pathHash := hm.1.trans hm'.1.symm
      have hdist := h.distinct
      cases hs : a.pathsStripped with
      | true =>
        rw [hs] at hdist
        exact hdist.eq_of_hash hj hi hhash
      | false => exact hdist.eq_of_path hj hi hhash ((hm.2 hs).trans (hm'.2 hs).symm)

theorem findEntryIndexNormalized_eq_error_iff (h : WellFormed D a) {q : String} {f : Fault} :
    findEntryIndexNormalized D a q = .error f ↔
      f = .error (.notFound q) ∧ ∀ e ∈ a.entries, ¬ Matches D a.pathsStripped q e := by
  rcases findEntryIndexNormalized_cases h q with ⟨he, hnone⟩ | ⟨j, hj, he, hm⟩
  · rw [he, Except.error.injEq]
    exact ⟨fun hf => ⟨hf.symm, hnone⟩, fun hf => hf.1.symm⟩
  · rw [he]
    simp only [reduceCtorEq, false_iff, not_and, not_forall]
    exact fun _ => ⟨_, List.getElem_mem hj, not_not.mpr hm⟩

theorem matches_iff_of_paths (h : WellFormed D a) (hs : a.pathsStripped = false) {q : String}
    {e : Entry} (he : e ∈ a.entries) : Matches D a.pathsStripped q e ↔ e.path = q := by
  have hown := h.ownPath e he
  rw [hs] at hown
  obtain ⟨-, hhash⟩ : normalizePath e.path = .ok e.path ∧
    checksum D (asBytes e.path) = e.pathHash := hown
  constructor
  · exact fun hm => hm.2 hs
  · rintro rfl
    exact ⟨hhash.symm, fun _ => rfl⟩

end Path

/-! ## Lookup by identifier -/

section Id

variable {D a} (h : WellFormed D a)

include h

theorem isSome_hashRange_iff (id : AssetId) :
    (hashRange a id).isSome = true ↔ bucketOf a id ≠ [] := by
  rcases hashRange_spec h id with ⟨hnil, hr⟩ | ⟨start, stop, hr, hlt, hle, hext⟩
  · simp [hr, hnil]
  · have hlen := length_extract (i := start) hle
    rw [hext] at hlen
    have hne : bucketOf a id ≠ [] := by
      rw [Ne, ← List.length_eq_zero_iff]
      omega
    simp [hr, hne]

/-- **Lookup by identifier** depends on how many entries have its hash. -/
theorem findEntryIndexById_cases (id : AssetId) :
    ((a.entries.countP fun e => decide (e.pathHash = id.get)) = 0 ∧
        findEntryIndexById a id = .error (.error (.notFound ("hash:" ++ hex16 id.get)))) ∨
      (∃ i, ∃ hi : i < a.entries.length, findEntryIndexById a id = .ok i ∧
        (a.entries.filter fun e => decide (e.pathHash = id.get)) = [a.entries[i]]) ∨
      (2 ≤ (a.entries.countP fun e => decide (e.pathHash = id.get)) ∧
        findEntryIndexById a id = .error (.error (.hashCollision id.get))) := by
  rw [← length_bucketOf h]
  unfold findEntryIndexById
  rcases hashRange_spec h id with ⟨hnil, hr⟩ | ⟨start, stop, hr, hlt, hle, hext⟩
  · left
    rw [hnil, hr]
    exact ⟨rfl, rfl⟩
  · right
    have hlen := length_extract (i := start) hle
    rw [hext] at hlen
    simp only [hr, okOr, ok_bind, sub_of_le hlt.le]
    by_cases hone : stop - start = 1
    · left
      have hstart : start < a.index.length := by omega
      have hbucket : bucketOf a id = [a.index[start]] := by
        rw [← hext, show stop = start + 1 by omega, extract_singleton hstart]
      have hmem : a.index[start] ∈ bucketOf a id := by simp [hbucket]
      have hi := lt_length_of_mem_bucketOf h _ hmem
      rw [fst_of_mem_bucketOf hmem, mem_bucketOf h] at hmem
      obtain ⟨_, hhash⟩ := hmem
      refine ⟨a.index[start].2, hi, ?_, ?_⟩
      · rw [ensure_of hone, ok_bind, index_of_lt hstart]
        rfl
      · have hcount := length_bucketOf h id
        rw [hbucket, List.countP_eq_length_filter, List.length_singleton] at hcount
        obtain ⟨e, he⟩ := List.length_eq_one_iff.mp hcount.symm
        have hin : a.entries[a.index[start].2] ∈
            a.entries.filter fun e => decide (e.pathHash = id.get) := by
          rw [List.mem_filter]
          exact ⟨List.getElem_mem hi, by simpa using hhash⟩
        rw [he, List.mem_singleton] at hin
        rw [he, hin]
    · right
      refine ⟨by omega, ?_⟩
      simp [ensure, hone, failWith]

end Id

/-! ## How lookups fail -/

section Fault

variable {D a} (h : WellFormed D a)

include h

theorem entry_error {path : String} {f : Fault} (hf : entry D a path = .error f) :
    f = .error .invalidPath ∨ ∃ q, f = .error (.notFound q) := by
  unfold entry locate normalizeLookupPath at hf
  cases hq : normalizePath path with
  | error f' =>
    rw [hq] at hf
    cases hf
    exact Or.inl (normalizePath_error hq)
  | ok q =>
    rw [hq, ok_bind] at hf
    rcases findEntryIndexNormalized_cases h q with ⟨he, -⟩ | ⟨i, hi, he, -⟩
    · rw [he] at hf
      cases hf
      exact Or.inr ⟨q, rfl⟩
    · rw [he] at hf
      cases (index_of_lt hi).symm.trans hf

theorem entryById_error {id : AssetId} {f : Fault} (hf : entryById a id = .error f) :
    f = .error (.notFound ("hash:" ++ hex16 id.get)) ∨ f = .error (.hashCollision id.get) := by
  unfold entryById at hf
  rcases findEntryIndexById_cases h id with ⟨-, he⟩ | ⟨i, hi, he, -⟩ | ⟨-, he⟩
  · rw [he] at hf
    cases hf
    exact Or.inl rfl
  · rw [he] at hf
    cases (index_of_lt hi).symm.trans hf
  · rw [he] at hf
    cases hf
    exact Or.inr rfl

end Fault

end RasenArchive
