import RasenArchive.Format.Codec
import RasenArchive.Format.Partition
import RasenArchive.Library.SelfDelimiting

/-!
# The table behind its bytes

The numbers of entries and of chunks are not part of the table of contents, and the records of an
entry without a path and of a chunk have the same size. Still the bytes of a table can be taken for
one table only, where the chunks are shared out among the entries.

## Main definitions

* `SharedOut entries chunks`: the entries have as many chunks as there are

## Main results

* `ValidLayout.sharedOut`: the tables that `validate_layout` accepts
* `tocImage_unique`: the records behind the bytes of a table
* `decoded_unique`: the entries behind them, whatever the paths are taken for
-/

namespace RasenArchive

/-- An entry as its record has it, without the path. -/
def TocEntry.bare (e : TocEntry) : TocEntry := { e with path := "" }

/-- The entries have as many chunks as there are. -/
def SharedOut (entries : List TocEntry) (chunks : List Chunk) : Prop :=
  (entries.map fun e => e.chunkCount.toNat).sum = chunks.length

theorem length_flatMap_chunkNumbers (entries : List TocEntry) :
    (entries.flatMap TocEntry.chunkNumbers).length =
      (entries.map fun e => e.chunkCount.toNat).sum := by
  rw [List.length_flatMap]
  congr 1
  apply List.map_congr_left
  intro e _
  rw [TocEntry.chunkNumbers, List.length_range']

/-- A valid layout has one owner for each chunk. -/
theorem ValidLayout.sharedOut {p : LayoutParams} {entries : List TocEntry} {chunks : List Chunk}
    (h : ValidLayout p entries chunks) : SharedOut entries chunks := by
  have hlen := h.owned.length_eq
  rwa [length_flatMap_chunkNumbers, List.length_range] at hlen

/-! ## Fields and records -/

theorem u16ToLeBytes_append_inj {m n : UInt16} {xs ys : Bytes}
    (h : u16ToLeBytes m ++ xs = u16ToLeBytes n ++ ys) : m = n ∧ xs = ys := by
  cases (readU16_eq_ok_iff.mpr rfl).symm.trans (readU16_eq_ok_iff.mpr h)
  exact ⟨rfl, rfl⟩

theorem u32ToLeBytes_append_inj {m n : UInt32} {xs ys : Bytes}
    (h : u32ToLeBytes m ++ xs = u32ToLeBytes n ++ ys) : m = n ∧ xs = ys := by
  cases (readU32_eq_ok_iff.mpr rfl).symm.trans (readU32_eq_ok_iff.mpr h)
  exact ⟨rfl, rfl⟩

theorem u64ToLeBytes_append_inj {m n : UInt64} {xs ys : Bytes}
    (h : u64ToLeBytes m ++ xs = u64ToLeBytes n ++ ys) : m = n ∧ xs = ys := by
  cases (readU64_eq_ok_iff.mpr rfl).symm.trans (readU64_eq_ok_iff.mpr h)
  exact ⟨rfl, rfl⟩

/-- The record of an entry without its path, and the bytes of the path. -/
def recordOf (x : TocEntry × Bytes) : Bytes := entryRecord x.1 x.2

/-- The pairs that a record can be read as. -/
def BareRecord (x : TocEntry × Bytes) : Prop := x.1.path = "" ∧ x.2.length < 2 ^ 16

/-- **The record of an entry shows where it ends**: it holds the length of the path. -/
theorem selfDelimiting_recordOf : SelfDelimiting BareRecord recordOf := by
  rintro ⟨e, p⟩ ⟨e', p'⟩ xs ys ⟨hpath, hlt⟩ ⟨hpath', hlt'⟩ h
  simp only [recordOf, entryRecord, List.append_assoc] at h hpath hpath' hlt hlt'
  obtain ⟨hhash, h⟩ := u64ToLeBytes_append_inj h
  obtain ⟨horiginal, h⟩ := u64ToLeBytes_append_inj h
  obtain ⟨hstored, h⟩ := u64ToLeBytes_append_inj h
  obtain ⟨hfirst, h⟩ := u32ToLeBytes_append_inj h
  obtain ⟨hcount, h⟩ := u32ToLeBytes_append_inj h
  obtain ⟨hlen, h⟩ := u16ToLeBytes_append_inj h
  obtain ⟨-, h⟩ := u16ToLeBytes_append_inj h
  have hsame := congrArg UInt16.toNat hlen
  rw [UInt16.toNat_ofNat_of_lt' hlt, UInt16.toNat_ofNat_of_lt' hlt'] at hsame
  obtain ⟨hp, hrest⟩ := List.append_inj h hsame
  have he : e = e' := by
    cases e
    cases e'
    simp only at hpath hpath' hhash horiginal hstored hfirst hcount
    rw [hpath, hpath', hhash, horiginal, hstored, hfirst, hcount]
  rw [he, hp]
  exact ⟨rfl, hrest⟩

/-- **The record of a chunk shows where it ends**: it has a fixed size. -/
theorem selfDelimiting_encodeChunk : SelfDelimiting (fun _ => True) encodeChunk := by
  intro c c' xs ys _ _ h
  simp only [encodeChunk, List.append_assoc] at h
  obtain ⟨hoffset, h⟩ := u64ToLeBytes_append_inj h
  obtain ⟨hstored, h⟩ := u64ToLeBytes_append_inj h
  obtain ⟨horiginal, h⟩ := u64ToLeBytes_append_inj h
  obtain ⟨hsum, h⟩ := u64ToLeBytes_append_inj h
  obtain ⟨hflags, h⟩ := u16ToLeBytes_append_inj h
  obtain ⟨-, hrest⟩ := u16ToLeBytes_append_inj h
  have hcompressed : c.compressed = c'.compressed := by
    cases hc : c.compressed <;> cases hc' : c'.compressed <;>
      simp [hc, hc', chunkFlagLz4] at hflags ⊢
  refine ⟨?_, hrest⟩
  cases c
  cases c'
  simp only at hoffset hstored horiginal hsum hcompressed
  rw [hoffset, hstored, horiginal, hsum, hcompressed]

/-! ## Tables -/

section Tables

variable {entries entries' : List TocEntry} {paths paths' : List Bytes} {chunks chunks' : List Chunk}

/-- The records of some entries with their paths. -/
def bareRecords (entries : List TocEntry) (paths : List Bytes) : List (TocEntry × Bytes) :=
  (entries.map TocEntry.bare).zip paths

theorem flatten_bareRecords (entries : List TocEntry) (paths : List Bytes) :
    (List.zipWith entryRecord entries paths).flatten =
      ((bareRecords entries paths).map recordOf).flatten := by
  congr 1
  rw [bareRecords, List.zip_map_left, List.map_map, ← List.map_uncurry_zip_eq_zipWith]
  rfl

theorem forall_mem_bareRecords (hlt : ∀ p ∈ paths, p.length < 2 ^ 16) :
    ∀ x ∈ bareRecords entries paths, BareRecord x := by
  rintro ⟨e, p⟩ hx
  obtain ⟨he, hp⟩ := List.of_mem_zip hx
  obtain ⟨e', -, rfl⟩ := List.mem_map.mp he
  exact ⟨rfl, hlt p hp⟩

theorem sum_bareRecords (hlen : entries.length = paths.length) :
    ((bareRecords entries paths).map fun x => x.1.chunkCount.toNat).sum =
      (entries.map fun e => e.chunkCount.toNat).sum := by
  have hfst : (bareRecords entries paths).map Prod.fst = entries.map TocEntry.bare := by
    apply List.map_fst_zip
    rw [List.length_map, hlen]
  have hmap : (bareRecords entries paths).map (fun x => x.1.chunkCount.toNat) =
      ((bareRecords entries paths).map Prod.fst).map fun e => e.chunkCount.toNat := by
    rw [List.map_map]
    rfl
  rw [hmap, hfst, List.map_map]
  rfl

/-- Records that take the place of chunk records leave room for fewer chunks. -/
theorem rest_eq_nil {rest : List (TocEntry × Bytes)} (hcount : chunks.length ≤ chunks'.length)
    (h : (chunks.map encodeChunk).flatten =
      (rest.map recordOf).flatten ++ (chunks'.map encodeChunk).flatten) : rest = [] := by
  have hlen := congrArg List.length h
  rw [List.length_append, length_encodeChunks, length_encodeChunks] at hlen
  cases rest with
  | nil => rfl
  | cons x rest =>
    rw [List.map_cons, List.flatten_cons, List.length_append, recordOf, length_entryRecord] at hlen
    simp only [tocChunkFixedSize, tocEntryFixedSize] at hlen
    omega

/-- **The records behind the bytes of a table**, where each table has as many chunks as its entries
refer to. -/
theorem tocImage_unique (hlen : entries.length = paths.length) (hlen' : entries'.length = paths'.length)
    (hlt : ∀ p ∈ paths, p.length < 2 ^ 16) (hlt' : ∀ p ∈ paths', p.length < 2 ^ 16)
    (hshared : SharedOut entries chunks) (hshared' : SharedOut entries' chunks')
    (h : tocImage entries paths chunks = tocImage entries' paths' chunks') :
    entries.map TocEntry.bare = entries'.map TocEntry.bare ∧ paths = paths' ∧ chunks = chunks' := by
  have hbytes := List.append_cancel_left h
  rw [flatten_bareRecords, flatten_bareRecords] at hbytes
  rw [SharedOut, ← sum_bareRecords hlen] at hshared
  rw [SharedOut, ← sum_bareRecords hlen'] at hshared'
  have hsplit := selfDelimiting_recordOf.split (forall_mem_bareRecords hlt)
    (forall_mem_bareRecords hlt') hbytes
  have hsame : bareRecords entries paths = bareRecords entries' paths' ∧
      (chunks.map encodeChunk).flatten = (chunks'.map encodeChunk).flatten := by
    rcases hsplit with ⟨rest, hrest, hchunks⟩ | ⟨rest, hrest, hchunks⟩
    · -- more entries refer to as many chunks at least, and leave room for fewer
      have hcount : chunks.length ≤ chunks'.length := by
        rw [← hshared, ← hshared', hrest, List.map_append, List.sum_append]
        exact Nat.le_add_right _ _
      obtain rfl := rest_eq_nil hcount hchunks
      exact ⟨by rw [hrest, List.append_nil], hchunks⟩
    · have hcount : chunks'.length ≤ chunks.length := by
        rw [← hshared, ← hshared', hrest, List.map_append, List.sum_append]
        exact Nat.le_add_right _ _
      obtain rfl := rest_eq_nil hcount hchunks
      exact ⟨by rw [hrest, List.append_nil], hchunks.symm⟩
  obtain ⟨hrecords, hchunks⟩ := hsame
  have hfst := congrArg (List.map Prod.fst) hrecords
  have hsnd := congrArg (List.map Prod.snd) hrecords
  rw [bareRecords, bareRecords, List.map_fst_zip (by simp [hlen]),
    List.map_fst_zip (by simp [hlen'])] at hfst
  rw [bareRecords, bareRecords, List.map_snd_zip (by simp [hlen]),
    List.map_snd_zip (by simp [hlen'])] at hsnd
  refine ⟨hfst, hsnd, selfDelimiting_encodeChunk.flatten_inj ?_ (fun _ _ => trivial)
    (fun _ _ => trivial) hchunks⟩
  intro c _ hnil
  have hsize := congrArg List.length hnil
  simp [encodeChunk] at hsize

/-! ## Paths -/

variable {D : Dependencies} {stripped stripped' : Bool} {limits limits' : TocLimits}

/-- An accepted path is taken for the path of one entry, and in one kind of archive. -/
theorem acceptsPath_unique {e e' : TocEntry} {path : Bytes} (h : AcceptsPath D stripped e path)
    (h' : AcceptsPath D stripped' e' path) (hbare : e.bare = e'.bare) :
    e = e' ∧ stripped = stripped' := by
  have hpath : e.path = e'.path ∧ stripped = stripped' := by
    cases stripped <;> cases stripped' <;>
      simp only [AcceptsPath, Bool.false_eq_true, if_false, if_true] at h h'
    · obtain ⟨-, s, hs, hn, -⟩ := h
      obtain ⟨-, s', hs', hn', -⟩ := h'
      cases hs.symm.trans hs'
      exact ⟨Except.ok.inj (hn.symm.trans hn'), rfl⟩
    · exact absurd h'.1 h.1
    · exact absurd h.1 h'.1
    · exact ⟨h.2.trans h'.2.symm, rfl⟩
  refine ⟨?_, hpath.2⟩
  cases e
  cases e'
  simp only [TocEntry.bare, TocEntry.mk.injEq, true_and] at hbare
  simp only at hpath
  simp only [TocEntry.mk.injEq]
  exact ⟨hpath.1, hbare⟩

theorem forall_mem_lengths (h : List.Forall₂ (Accepts D stripped limits) entries paths) :
    ∀ p ∈ paths, p.length < 2 ^ 16 := by
  induction h with
  | nil => simp
  | cons ha _ ih => exact List.forall_mem_cons.mpr ⟨ha.length_lt, ih⟩

/-- **The entries and chunks behind the bytes of a table**, whatever number of them it is read with
and whether or not the paths are expected to be stripped. -/
theorem decoded_unique (haccepts : List.Forall₂ (Accepts D stripped limits) entries paths)
    (haccepts' : List.Forall₂ (Accepts D stripped' limits') entries' paths')
    (hshared : SharedOut entries chunks) (hshared' : SharedOut entries' chunks')
    (h : tocImage entries paths chunks = tocImage entries' paths' chunks') :
    entries = entries' ∧ chunks = chunks' ∧ (entries ≠ [] → stripped = stripped') := by
  have hlt := forall_mem_lengths haccepts
  have hlt' := forall_mem_lengths haccepts'
  obtain ⟨hbare, rfl, hchunks⟩ := tocImage_unique haccepts.length_eq haccepts'.length_eq hlt hlt'
    hshared hshared' h
  refine ⟨?_, hchunks, ?_⟩
  · clear h hshared hshared' hlt hlt' hchunks
    induction haccepts generalizing entries' with
    | nil =>
      cases haccepts'
      rfl
    | @cons e p entries paths ha _ ih =>
      cases haccepts' with
      | @cons e' _ entries' _ ha' hrest' =>
        rw [List.map_cons, List.map_cons, List.cons.injEq] at hbare
        rw [(acceptsPath_unique ha.path ha'.path hbare.1).1, ih hbare.2 hrest']
  · intro hne
    cases haccepts with
    | nil => exact absurd rfl hne
    | @cons e p entries paths ha _ =>
      cases haccepts' with
      | @cons e' _ entries' _ ha' _ =>
        rw [List.map_cons, List.map_cons, List.cons.injEq] at hbare
        exact (acceptsPath_unique ha.path ha'.path hbare.1).2

end Tables

end RasenArchive
