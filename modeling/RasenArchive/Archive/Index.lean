import RasenArchive.Format.Toc
import RasenArchive.Archive.Limits
import RasenArchive.Library.SortedBuckets
import RasenArchive.Library.Window

/-!
# The index of an archive

The entries of an archive sorted by identifier, and the check that no bucket of one identifier is
too large, holds a path twice, or, without paths, holds two entries.

## Main definitions

* `Entry`: an entry of an open archive
* `indexItems`, `IsIndex`: the pairs of identifier and entry number, and a sorted list of them
* `validateIndex`: the check, with its loops over the buckets

## Main results

* `validateIndex_eq_ok_iff`: what the check establishes about the entries
* `validateIndex_safe`: the check does not panic on an index
-/

namespace RasenArchive

/-- `Entry`: the public copy of a `TocEntry`, with the same fields. -/
abbrev Entry : Type := TocEntry

/-- An item `(AssetId, usize)` of the index. -/
abbrev IndexItem : Type := AssetId × ℕ

/-- The items of the index in the order of the entries. -/
def indexItems (entries : List Entry) : List IndexItem :=
  entries.mapIdx fun i entry => (AssetId.fromRaw entry.pathHash, i)

/-- The index lists every entry once, sorted by identifier. -/
structure IsIndex (entries : List Entry) (index : List IndexItem) : Prop where
  perm : index.Perm (indexItems entries)
  sorted : index.Pairwise fun a b => a.1 ≤ b.1

/-! ## The check -/

/-- The inner loop of `validate_index`: where the bucket that begins at `start` ends. -/
def bucketEnd (items : List IndexItem) (start stop : ℕ) : Result {e : ℕ // stop ≤ e} :=
  if stop < items.length then do
    let last ← index items stop
    let first ← index items start
    -- equal neighbours are in one bucket
    if last.1 = first.1 then
      let e ← bucketEnd items start (stop + 1)
      pure ⟨e.1, by have := e.2; omega⟩
    else
      pure ⟨stop, le_rfl⟩
  else
    pure ⟨stop, le_rfl⟩
termination_by items.length - stop

/-- The loop over one bucket, with the paths seen so far. -/
def checkBucketPaths (entries : List Entry) : List String → List IndexItem → Result Unit
  | _, [] => pure ()
  | paths, (_, entryIndex) :: bucket => do
    let entry ← index entries entryIndex
    ensure (entry.path ∉ paths) (.duplicatePath entry.path)
    checkBucketPaths entries (entry.path :: paths) bucket

/-- The outer loop of `validate_index`, from position `start` on. -/
def validateBuckets (entries : List Entry) (items : List IndexItem) (pathsStripped : Bool)
    (start : ℕ) : Result Unit :=
  if start < items.length then do
    let e ← bucketEnd items start (start + 1)
    let bucketLen ← sub e.1 start
    ensure (bucketLen ≤ ArchiveLimits.hardMaxIdentifierBucketEntries)
      (.tooLarge "identifier collision bucket")
    let first ← index items start
    -- without paths, an identifier names one entry
    ensure (¬ (pathsStripped = true ∧ bucketLen ≠ 1)) (.hashCollision first.1.get)
    let bucket ← slice items start e.1
    checkBucketPaths entries [] bucket
    validateBuckets entries items pathsStripped e.1
  else
    pure ()
termination_by items.length - start
decreasing_by
  have := e.2
  omega

/-- `validate_index`. -/
def validateIndex (entries : List Entry) (items : List IndexItem) (pathsStripped : Bool) :
    Result Unit := validateBuckets entries items pathsStripped 0

/-! ## What one bucket establishes -/

/-- The path of the entry with this number. -/
def pathAt (entries : List Entry) (i : ℕ) : String := (entries[i]?.map TocEntry.path).getD ""

section Bucket

variable {entries : List Entry} {items : List IndexItem} {start stop : ℕ}

/-- **Where a bucket ends**: the items up to there have the identifier of the first one, and the
next one does not. -/
theorem bucketEnd_spec (hs : start < items.length) (hle : stop ≤ items.length)
    (hlt : start < stop) (hsame : ∀ x ∈ items.extract start stop, x.1 = items[start].1) :
    ∃ e, bucketEnd items start stop = .ok e ∧ e.1 ≤ items.length ∧
      (∀ x ∈ items.extract start e.1, x.1 = items[start].1) ∧
      ∀ h : e.1 < items.length, items[e.1].1 ≠ items[start].1 := by
  induction hn : items.length - stop using Nat.strong_induction_on generalizing stop with
  | h n ih =>
    unfold bucketEnd
    by_cases hstop : stop < items.length
    · simp only [if_pos hstop, index_of_lt hstop, index_of_lt hs, ok_bind]
      by_cases heq : items[stop].1 = items[start].1
      · have hnext : ∀ x ∈ items.extract start (stop + 1), x.1 = items[start].1 := by
          intro x hx
          rw [← extract_append_extract (show start ≤ stop by omega) (Nat.le_succ stop),
            List.mem_append] at hx
          rcases hx with hx | hx
          · exact hsame x hx
          · rw [extract_singleton hstop, List.mem_singleton] at hx
            rw [hx, heq]
        obtain ⟨e, he, hle', hsame', hnot⟩ := ih (items.length - (stop + 1)) (by omega) (by omega)
          (by omega) hnext rfl
        rw [if_pos heq, he, ok_bind]
        exact ⟨_, rfl, hle', hsame', hnot⟩
      · rw [if_neg heq]
        exact ⟨_, rfl, hle, hsame, fun _ => heq⟩
    · rw [if_neg hstop]
      exact ⟨_, rfl, hle, hsame, fun h => absurd h hstop⟩

theorem checkBucketPaths_eq_ok_iff {paths : List String} {bucket : List IndexItem} {u : Unit}
    (hvalid : ∀ x ∈ bucket, x.2 < entries.length) :
    checkBucketPaths entries paths bucket = .ok u ↔
      (∀ x ∈ bucket, pathAt entries x.2 ∉ paths) ∧
        (bucket.map fun x => pathAt entries x.2).Nodup := by
  induction bucket generalizing paths with
  | nil => simp [checkBucketPaths]
  | cons x bucket ih =>
    rw [List.forall_mem_cons] at hvalid
    have hpath : pathAt entries x.2 = entries[x.2].path := by simp [pathAt, hvalid.1]
    simp only [checkBucketPaths, index_of_lt hvalid.1, ok_bind, bind_eq_ok, ensure_eq_ok_iff,
      exists_const, ih hvalid.2, List.forall_mem_cons, List.map_cons, List.nodup_cons, hpath]
    simp only [List.mem_cons, not_or, List.mem_map, not_exists, not_and]
    constructor
    · rintro ⟨hx, hrest, hnd⟩
      exact ⟨⟨hx, fun y hy => (hrest y hy).2⟩, fun y hy => (hrest y hy).1, hnd⟩
    · rintro ⟨⟨hx, hrest⟩, hne, hnd⟩
      exact ⟨hx, fun y hy => ⟨hne y hy, hrest y hy⟩, hnd⟩

theorem checkBucketPaths_safe {paths : List String} {bucket : List IndexItem}
    (hvalid : ∀ x ∈ bucket, x.2 < entries.length) :
    Safe (checkBucketPaths entries paths bucket) := by
  induction bucket generalizing paths with
  | nil => exact safe_pure _
  | cons x bucket ih =>
    rw [List.forall_mem_cons] at hvalid
    rw [checkBucketPaths, index_of_lt hvalid.1, ok_bind]
    exact (safe_ensure _).bind fun _ _ => ih hvalid.2

end Bucket

/-! ## What the loop over the buckets establishes -/

/-- What the loop over the buckets establishes about the items it has still to see. -/
structure ValidItems (entries : List Entry) (pathsStripped : Bool) (items : List IndexItem) :
    Prop where
  bucket_le : ∀ id, (items.countP fun x => decide (x.1 = id)) ≤
    ArchiveLimits.hardMaxIdentifierBucketEntries
  unique : pathsStripped = true → (items.map Prod.fst).Nodup
  paths : (items.map fun x => (x.1, pathAt entries x.2)).Nodup

section Items

variable {entries : List Entry} {pathsStripped : Bool} {id : AssetId}
  {bucket rest : List IndexItem}

theorem countP_bucket (h : ∀ x ∈ bucket, x.1 = id) (id' : AssetId) :
    (bucket.countP fun x => decide (x.1 = id')) = if id' = id then bucket.length else 0 := by
  split_ifs with he
  · rw [List.countP_eq_length]
    intro x hx
    simp [h x hx, he]
  · rw [List.countP_eq_zero]
    intro x hx
    simp [h x hx, Ne.symm he]

theorem nodup_map_fst_bucket (h : ∀ x ∈ bucket, x.1 = id) (hne : bucket ≠ []) :
    (bucket.map Prod.fst).Nodup ↔ bucket.length = 1 := by
  have hmap : bucket.map Prod.fst = List.replicate bucket.length id := by
    rw [List.eq_replicate_iff]
    exact ⟨by simp, by simpa using h⟩
  rw [hmap, List.nodup_replicate]
  have := List.length_pos_iff.mpr hne
  omega

theorem nodup_map_paths_bucket (h : ∀ x ∈ bucket, x.1 = id) :
    (bucket.map fun x => (x.1, pathAt entries x.2)).Nodup ↔
      (bucket.map fun x => pathAt entries x.2).Nodup := by
  have hmap : (bucket.map fun x => (x.1, pathAt entries x.2)) =
      (bucket.map fun x => pathAt entries x.2).map fun p => (id, p) := by
    rw [List.map_map]
    exact List.map_congr_left fun x hx => by simp [h x hx]
  rw [hmap, List.nodup_map_iff]
  exact fun a b hab => (Prod.mk.injEq _ _ _ _ ▸ hab).2

/-- **A bucket and the items behind it** are valid when both are. -/
theorem validItems_append_iff (h : ∀ x ∈ bucket, x.1 = id) (hrest : ∀ x ∈ rest, x.1 ≠ id)
    (hne : bucket ≠ []) :
    ValidItems entries pathsStripped (bucket ++ rest) ↔
      bucket.length ≤ ArchiveLimits.hardMaxIdentifierBucketEntries ∧
        (pathsStripped = true → bucket.length = 1) ∧
        (bucket.map fun x => pathAt entries x.2).Nodup ∧
        ValidItems entries pathsStripped rest := by
  have hzero : (rest.countP fun x => decide (x.1 = id)) = 0 := by
    rw [List.countP_eq_zero]
    exact fun x hx => by simpa using hrest x hx
  have hdisj : ∀ {β : Type} (f : IndexItem → AssetId × β), (∀ x, (f x).1 = x.1) →
      List.Disjoint (bucket.map f) (rest.map f) := by
    intro β f hf y hy hy'
    obtain ⟨x, hx, rfl⟩ := List.mem_map.mp hy
    obtain ⟨x', hx', he⟩ := List.mem_map.mp hy'
    exact hrest x' hx' (by rw [← hf x', he, hf x, h x hx])
  have hdisj' : List.Disjoint (bucket.map Prod.fst) (rest.map Prod.fst) := by
    intro y hy hy'
    obtain ⟨x, hx, rfl⟩ := List.mem_map.mp hy
    obtain ⟨x', hx', he⟩ := List.mem_map.mp hy'
    exact hrest x' hx' (by rw [he, h x hx])
  constructor
  · rintro ⟨hle, hunique, hpaths⟩
    rw [List.map_append, List.nodup_append'] at hpaths
    refine ⟨?_, fun hp => ?_, (nodup_map_paths_bucket h).mp hpaths.1, fun id' => ?_, fun hp => ?_,
      hpaths.2.1⟩
    · have := hle id
      rw [List.countP_append, countP_bucket h, if_pos rfl] at this
      omega
    · have hnd := hunique hp
      rw [List.map_append, List.nodup_append'] at hnd
      exact (nodup_map_fst_bucket h hne).mp hnd.1
    · have := hle id'
      rw [List.countP_append] at this
      omega
    · have hnd := hunique hp
      rw [List.map_append, List.nodup_append'] at hnd
      exact hnd.2.1
  · rintro ⟨hlen, hone, hnd, hle, hunique, hpaths⟩
    refine ⟨fun id' => ?_, fun hp => ?_, ?_⟩
    · rw [List.countP_append, countP_bucket h]
      split_ifs with he
      · rw [he, hzero]
        omega
      · have := hle id'
        omega
    · rw [List.map_append, List.nodup_append']
      exact ⟨(nodup_map_fst_bucket h hne).mpr (hone hp), hunique hp, hdisj'⟩
    · rw [List.map_append, List.nodup_append']
      exact ⟨(nodup_map_paths_bucket h).mpr hnd, hpaths, hdisj _ fun _ => rfl⟩

end Items

/-! ## What the check establishes -/

section Validate

variable {entries : List Entry} {items : List IndexItem} {pathsStripped : Bool} {start : ℕ}

/-- **The loop cuts the front bucket off** a sorted index. -/
theorem exists_bucket (hsorted : items.Pairwise fun a b => a.1 ≤ b.1) (hs : start < items.length) :
    ∃ e, bucketEnd items start (start + 1) = .ok e ∧ e.1 ≤ items.length ∧
      items.drop start = items.extract start e.1 ++ items.drop e.1 ∧
      (∀ x ∈ items.extract start e.1, x.1 = items[start].1) ∧
      (∀ x ∈ items.drop e.1, x.1 ≠ items[start].1) := by
  obtain ⟨e, he, hle, hsame, hnot⟩ := bucketEnd_spec hs hs (Nat.lt_succ_self start)
    (by simp [extract_singleton hs])
  have hlt : start < e.1 := e.2
  refine ⟨e, he, hle, ?_, hsame, ?_⟩
  · rw [← List.take_append_drop (e.1 - start) (items.drop start), List.extract_eq_take_drop,
      List.drop_drop, Nat.add_sub_cancel' hlt.le]
  · intro x hx hxs
    obtain ⟨i, hi, rfl⟩ := List.mem_iff_getElem.mp hx
    rw [List.length_drop] at hi
    rw [List.getElem_drop] at hxs
    have hmono : ∀ {j k : ℕ} (hjk : j ≤ k) (hk : k < items.length),
        items[j].1 ≤ items[k].1 := by
      intro j k hjk hk
      rcases Nat.lt_or_eq_of_le hjk with h | rfl
      · exact List.pairwise_iff_getElem.mp hsorted j k (by omega) hk h
      · exact le_rfl
    apply hnot (by omega)
    apply le_antisymm
    · rw [← hxs]
      exact hmono (by omega) (by omega)
    · exact hmono hlt.le (by omega)

theorem validateBuckets_eq_ok_iff (hsorted : items.Pairwise fun a b => a.1 ≤ b.1)
    (hvalid : ∀ x ∈ items, x.2 < entries.length) (hs : start ≤ items.length) {u : Unit} :
    validateBuckets entries items pathsStripped start = .ok u ↔
      ValidItems entries pathsStripped (items.drop start) := by
  induction hn : items.length - start using Nat.strong_induction_on generalizing start with
  | h n ih =>
    unfold validateBuckets
    by_cases hlt : start < items.length
    · obtain ⟨e, he, hle, hsplit, hsame, hrest⟩ := exists_bucket hsorted hlt
      have hse : start < e.1 := e.2
      have hlen := length_extract (i := start) hle
      have hne : items.extract start e.1 ≠ [] := by
        rw [Ne, ← List.length_eq_zero_iff, hlen]
        omega
      have hvalid' : ∀ x ∈ items.extract start e.1, x.2 < entries.length := by
        intro x hx
        apply hvalid
        rw [List.extract_eq_take_drop] at hx
        exact List.mem_of_mem_drop (List.mem_of_mem_take hx)
      rw [if_pos hlt, he, ok_bind, sub_of_le hse.le, ok_bind, index_of_lt hlt, hsplit,
        validItems_append_iff hsame hrest hne, hlen]
      simp only [bind_eq_ok, ensure_eq_ok_iff, exists_const, slice_of_le hse.le hle, ok_bind,
        checkBucketPaths_eq_ok_iff hvalid', ih (items.length - e.1) (by omega) hle rfl,
        List.not_mem_nil, not_false_eq_true, implies_true, true_and, not_and, not_not]
    · have hnil : items.drop start = [] := List.drop_eq_nil_of_le (by omega)
      rw [if_neg hlt, hnil]
      simp only [pure_eq_ok_iff, true_iff]
      exact ⟨by simp, by simp, by simp⟩

theorem validateBuckets_safe (hsorted : items.Pairwise fun a b => a.1 ≤ b.1)
    (hvalid : ∀ x ∈ items, x.2 < entries.length) (hs : start ≤ items.length) :
    Safe (validateBuckets entries items pathsStripped start) := by
  induction hn : items.length - start using Nat.strong_induction_on generalizing start with
  | h n ih =>
    unfold validateBuckets
    by_cases hlt : start < items.length
    · obtain ⟨e, he, hle, -, -, -⟩ := exists_bucket hsorted hlt
      have hse : start < e.1 := e.2
      have hvalid' : ∀ x ∈ items.extract start e.1, x.2 < entries.length := by
        intro x hx
        apply hvalid
        rw [List.extract_eq_take_drop] at hx
        exact List.mem_of_mem_drop (List.mem_of_mem_take hx)
      rw [if_pos hlt, he, ok_bind, sub_of_le hse.le, ok_bind, index_of_lt hlt,
        slice_of_le hse.le hle]
      exact (safe_ensure _).bind fun _ _ => (safe_ok _).bind fun _ _ =>
        (safe_ensure _).bind fun _ _ => (safe_ok _).bind fun bucket h => by
          cases h
          exact (checkBucketPaths_safe hvalid').bind fun _ _ =>
            ih (items.length - e.1) (by omega) hle rfl
    · rw [if_neg hlt]
      exact safe_pure _

/-- **The entries of an archive are distinct**: no identifier has too many of them, a path has one
at most under its identifier, and without paths an identifier has one at most. -/
structure DistinctEntries (entries : List Entry) (pathsStripped : Bool) : Prop where
  bucket_le : ∀ hash, (entries.countP fun e => decide (e.pathHash = hash)) ≤
    ArchiveLimits.hardMaxIdentifierBucketEntries
  unique : pathsStripped = true → (entries.map TocEntry.pathHash).Nodup
  paths : (entries.map fun e => (e.pathHash, e.path)).Nodup

theorem IsIndex.lt_length (h : IsIndex entries items) : ∀ x ∈ items, x.2 < entries.length := by
  intro x hx
  obtain ⟨i, hi, rfl⟩ := List.mem_mapIdx.mp (h.perm.mem_iff.mp hx)
  exact hi

theorem map_indexItems (entries : List Entry) {β : Type} (f : AssetId → String → β) :
    (indexItems entries).map (fun x => f x.1 (pathAt entries x.2)) =
      entries.map fun e => f (AssetId.fromRaw e.pathHash) e.path := by
  apply List.ext_getElem
  · simp [indexItems]
  · intro i h₁ h₂
    have hi : i < entries.length := by simpa using h₂
    simp [indexItems, pathAt, hi]

theorem fromRaw_injective : Function.Injective AssetId.fromRaw := fun _ _ h => by cases h; rfl

/-- The items of an identifier are as many as the entries with its hash. -/
theorem IsIndex.countP_eq (h : IsIndex entries items) (hash : UInt64) :
    (items.countP fun x => decide (x.1 = AssetId.fromRaw hash)) =
      entries.countP fun e => decide (e.pathHash = hash) := by
  have hperm := (h.perm.map Prod.fst).trans
    (List.Perm.of_eq (map_indexItems entries fun id _ => id))
  have hc := hperm.countP_eq fun id => decide (id = AssetId.fromRaw hash)
  rw [List.countP_map, List.countP_map] at hc
  exact hc.trans (List.countP_congr fun e _ => by simp [fromRaw_injective.eq_iff])

theorem validItems_iff (h : IsIndex entries items) :
    ValidItems entries pathsStripped items ↔ DistinctEntries entries pathsStripped := by
  have hmap : ∀ {β : Type} (f : AssetId → String → β),
      (items.map fun x => f x.1 (pathAt entries x.2)).Perm
        (entries.map fun e => f (AssetId.fromRaw e.pathHash) e.path) := fun f =>
    map_indexItems entries f ▸ h.perm.map _
  have hfst : (items.map Prod.fst).Nodup ↔ (entries.map TocEntry.pathHash).Nodup := by
    rw [(hmap fun id _ => id).nodup_iff]
    have : (entries.map fun e => AssetId.fromRaw e.pathHash) =
        (entries.map TocEntry.pathHash).map AssetId.fromRaw := by simp
    rw [this, List.nodup_map_iff fromRaw_injective]
  have hpaths : (items.map fun x => (x.1, pathAt entries x.2)).Nodup ↔
      (entries.map fun e => (e.pathHash, e.path)).Nodup := by
    rw [(hmap Prod.mk).nodup_iff]
    have : (entries.map fun e => (AssetId.fromRaw e.pathHash, e.path)) =
        (entries.map fun e => (e.pathHash, e.path)).map (Prod.map AssetId.fromRaw id) := by simp
    rw [this, List.nodup_map_iff (fromRaw_injective.prodMap Function.injective_id)]
  constructor
  · rintro ⟨hle, hunique, hp⟩
    exact ⟨fun hash => h.countP_eq hash ▸ hle _, fun hs => hfst.mp (hunique hs), hpaths.mp hp⟩
  · rintro ⟨hle, hunique, hp⟩
    exact ⟨fun id => (h.countP_eq id.get).trans_le (hle id.get), fun hs => hfst.mpr (hunique hs),
      hpaths.mpr hp⟩

/-- **The check accepts exactly the archives with distinct entries.** -/
theorem validateIndex_eq_ok_iff (h : IsIndex entries items) {u : Unit} :
    validateIndex entries items pathsStripped = .ok u ↔ DistinctEntries entries pathsStripped := by
  rw [validateIndex, validateBuckets_eq_ok_iff h.sorted h.lt_length (Nat.zero_le _), List.drop_zero,
    validItems_iff h]

/-- **The check does not panic** on an index of the entries. -/
theorem validateIndex_safe (h : IsIndex entries items) :
    Safe (validateIndex entries items pathsStripped) :=
  validateBuckets_safe h.sorted h.lt_length (Nat.zero_le _)

end Validate

end RasenArchive
