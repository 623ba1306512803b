import RasenArchive.Format.Toc
import RasenArchive.Library.Window
import RasenArchive.Reference

/-!
# The encoder and the decoder of the table are inverse

Decoding undoes encoding. Encoding undoes decoding up to the stored paths, which the decoder
replaces by their normal forms: the encoder writes the table back with the normal forms in their
place, and changes nothing when they were there already.

## Main definitions

* `Encodable`: the entries and chunks that the two directions are about
* `storedPaths n rest`: the stored paths of the first `n` entry records
* `IsNormalForm`: the bytes of a path in normal form

## Main results

* `decodeToc_encodeToc`: decoding undoes encoding
* `encodeToc_of_decodeToc`: what the encoder makes of a decoded table
* `toc_codec_inverse`: the two directions together
-/

namespace RasenArchive

variable (D : Dependencies)

/-- The entries and chunks respect the format and the limits. -/
structure Encodable (pathsStripped : Bool) (limits : TocLimits) (entries : List TocEntry)
    (chunks : List Chunk) : Prop where
  ownPath : ∀ e ∈ entries, OwnPath D pathsStripped e
  entries_lt : entries.length < 2 ^ 32
  chunks_lt : chunks.length < 2 ^ 32
  path_le : ∀ e ∈ entries, e.path.utf8ByteSize ≤ limits.maxPathBytes
  total_le : (entries.map fun e => e.path.utf8ByteSize).sum ≤ limits.maxTotalPathBytes
  size_le : ∀ e ∈ entries, e.originalSize.toNat ≤ limits.maxSingleAssetBytes
  raw_le : 4 + tocEntryFixedSize * entries.length +
    (entries.map fun e => e.path.utf8ByteSize).sum + tocChunkFixedSize * chunks.length ≤
      maxTocRawSize

/-- The stored paths of the first `n` entry records. -/
def storedPaths : ℕ → Bytes → List Bytes
  | 0, _ => []
  | n + 1, rest =>
    let pathLen := (u16FromLeBytes (rest.extract 32 34)).toNat
    rest.extract 36 (36 + pathLen) :: storedPaths n (rest.drop (36 + pathLen))

/-- The bytes of a path that is its own normal form. -/
def IsNormalForm (path : Bytes) : Prop :=
  ∃ s, fromUtf8 path = some s ∧ normalizePath s = .ok s

variable {D} {pathsStripped : Bool} {limits : TocLimits}

/-- The length of the path stands in bytes 32 and 33 of a record, and the path from byte 36 on. -/
theorem entryRecord_eq (entry : TocEntry) (path : Bytes) :
    ∃ fixed : Bytes, fixed.length = 32 ∧ entryRecord entry path =
      fixed ++ (u16ToLeBytes (UInt16.ofNat path.length) ++ (u16ToLeBytes 0 ++ path)) := by
  refine ⟨u64ToLeBytes entry.pathHash ++ (u64ToLeBytes entry.originalSize ++
    (u64ToLeBytes entry.storedSize ++ (u32ToLeBytes entry.firstChunk ++
      u32ToLeBytes entry.chunkCount))), by simp, ?_⟩
  simp [entryRecord]

theorem storedPaths_entryRecords {entries : List TocEntry} {paths : List Bytes} {tail : Bytes}
    (hlen : entries.length = paths.length) (hlt : ∀ p ∈ paths, p.length < 2 ^ 16) :
    storedPaths entries.length ((List.zipWith entryRecord entries paths).flatten ++ tail) =
      paths := by
  induction entries generalizing paths with
  | nil =>
    cases paths with
    | nil => rfl
    | cons => simp at hlen
  | cons entry entries ih =>
    cases paths with
    | nil => simp at hlen
    | cons path paths =>
      rw [List.forall_mem_cons] at hlt
      have hn : (UInt16.ofNat path.length).toNat = path.length :=
        UInt16.toNat_ofNat_of_lt' hlt.1
      set rest := (List.zipWith entryRecord entries paths).flatten ++ tail with hrest
      have hsplit : (List.zipWith entryRecord (entry :: entries) (path :: paths)).flatten ++ tail =
          entryRecord entry path ++ rest := by
        simp [hrest]
      obtain ⟨fixed, hlen32, hrecord⟩ := entryRecord_eq entry path
      have hfield : (entryRecord entry path ++ rest).extract 32 34 =
          u16ToLeBytes (UInt16.ofNat path.length) := by
        rw [hrecord, List.append_assoc, List.append_assoc]
        apply extract_middle
        · rw [hlen32]
        · rw [hlen32, length_u16ToLeBytes]
      have hpath : (entryRecord entry path ++ rest).extract 36 (36 + path.length) = path := by
        have hassoc : entryRecord entry path ++ rest =
            (fixed ++ (u16ToLeBytes (UInt16.ofNat path.length) ++ u16ToLeBytes 0)) ++
              (path ++ rest) := by
          simp [hrecord]
        rw [hassoc]
        apply extract_middle
        · simp [hlen32]
        · simp [hlen32]
      have hdrop : (entryRecord entry path ++ rest).drop (36 + path.length) = rest := by
        rw [List.drop_append, List.drop_eq_nil_of_le (by simp [tocEntryFixedSize])]
        simp [tocEntryFixedSize]
      have hnum : u16FromLeBytes (u16ToLeBytes (UInt16.ofNat path.length)) =
          UInt16.ofNat path.length := (u16FromLeBytes_eq_iff (length_u16ToLeBytes _)).mpr rfl
      rw [List.length_cons, hsplit, storedPaths]
      simp only [hfield, hnum, hn, hpath, hdrop]
      rw [ih (by simpa using hlen) hlt.2]

theorem storedPaths_tocImage {entries : List TocEntry} {paths : List Bytes} (chunks : List Chunk)
    (hlen : entries.length = paths.length) (hlt : ∀ p ∈ paths, p.length < 2 ^ 16) :
    storedPaths entries.length ((tocImage entries paths chunks).drop 4) = paths := by
  have h : (tocImage entries paths chunks).drop 4 =
      (List.zipWith entryRecord entries paths).flatten ++ (chunks.map encodeChunk).flatten := by
    simp [tocImage, tocMagic]
  rw [h, storedPaths_entryRecords hlen hlt]

/-- The decoder never makes a path longer. -/
theorem Accepts.length_path_le {entry : TocEntry} {path : Bytes}
    (h : Accepts D pathsStripped limits entry path) :
    entry.path.utf8ByteSize ≤ path.length := by
  have hp := h.path
  cases pathsStripped with
  | true =>
    simp only [AcceptsPath, if_true] at hp
    simp [hp.1, hp.2]
  | false =>
    simp only [AcceptsPath, Bool.false_eq_true, if_false] at hp
    obtain ⟨-, s, hs, hn, -⟩ := hp
    rw [← fromUtf8_eq_some_iff.mp hs, length_asBytes]
    exact utf8ByteSize_le_of_normalizePath hn

/-- An accepted path is kept exactly when it was in normal form. -/
theorem Accepts.asBytes_path_eq_iff {entry : TocEntry} {path : Bytes}
    (h : Accepts D pathsStripped limits entry path) :
    asBytes entry.path = path ↔ (path ≠ [] → IsNormalForm path) := by
  have hp := h.path
  cases pathsStripped with
  | true =>
    simp only [AcceptsPath, if_true] at hp
    simp [hp.1, hp.2]
  | false =>
    simp only [AcceptsPath, Bool.false_eq_true, if_false] at hp
    obtain ⟨hne, s, hs, hn, -⟩ := hp
    constructor
    · rintro rfl -
      obtain rfl := asBytes_injective (fromUtf8_eq_some_iff.mp hs)
      exact ⟨_, hs, hn⟩
    · intro hnormal
      obtain ⟨t, ht, hnt⟩ := hnormal hne
      obtain rfl : t = s := Option.some.inj (ht.symm.trans hs)
      rw [hn, Except.ok.injEq] at hnt
      rw [hnt]
      exact fromUtf8_eq_some_iff.mp hs

theorem forall₂_accepts_map {entries : List TocEntry}
    (h : ∀ e ∈ entries, Accepts D pathsStripped limits e (asBytes e.path)) :
    List.Forall₂ (Accepts D pathsStripped limits) entries
      (entries.map fun e => asBytes e.path) := by
  rw [List.forall₂_map_right_iff, List.forall₂_same]
  exact h

/-- **Decoding undoes encoding.** -/
theorem decodeToc_encodeToc {entries : List TocEntry} {chunks : List Chunk}
    (h : Encodable D pathsStripped limits entries chunks) :
    ∃ data, encodeToc entries chunks = .ok data ∧
      decodeToc D data (UInt32.ofNat entries.length) (UInt32.ofNat chunks.length)
        pathsStripped limits = .ok (entries, chunks) := by
  have haccept : ∀ e ∈ entries, Accepts D pathsStripped limits e (asBytes e.path) := fun e he =>
    accepts_of_ownPath (h.ownPath e he) (h.size_le e he) (h.path_le e he)
  have hsum : (entries.map fun e => asBytes e.path).map List.length =
      entries.map fun e => e.path.utf8ByteSize := by
    simp
  have hlen := length_tocImage entries (entries.map fun e => asBytes e.path) chunks (by simp)
  rw [hsum] at hlen
  have hraw := h.raw_le
  have hmax : maxTocRawSize < 2 ^ 64 := by decide
  refine ⟨tocImage entries (entries.map fun e => asBytes e.path) chunks,
    encodeToc_eq_ok_iff.mpr ⟨fun e he => ?_, by omega, rfl⟩,
    decodeToc_eq_ok_iff.mpr ⟨?_, ?_, by omega, _, forall₂_accepts_map haccept, ?_, rfl⟩⟩
  · have hlt := (haccept e he).length_lt
    simp only [length_asBytes, maxPathLen] at hlt ⊢
    omega
  · rw [UInt32.toNat_ofNat_of_lt' h.entries_lt]
  · rw [UInt32.toNat_ofNat_of_lt' h.chunks_lt]
  · rw [hsum]
    exact h.total_le

theorem sum_utf8ByteSize_le {entries : List TocEntry} {paths : List Bytes}
    (h : List.Forall₂ (Accepts D pathsStripped limits) entries paths) :
    ((entries.map fun e => asBytes e.path).map List.length).sum ≤
      (paths.map List.length).sum := by
  induction h with
  | nil => simp
  | cons haccept _ ih =>
    have hle := haccept.length_path_le
    simp only [List.map_cons, List.sum_cons, length_asBytes] at ih ⊢
    omega

/-- The stored paths are kept exactly when all of them were in normal form. -/
theorem map_asBytes_eq_iff {entries : List TocEntry} {paths : List Bytes}
    (h : List.Forall₂ (Accepts D pathsStripped limits) entries paths) :
    (entries.map fun e => asBytes e.path) = paths ↔ ∀ p ∈ paths, p ≠ [] → IsNormalForm p := by
  induction h with
  | nil => simp
  | cons haccept _ ih =>
    rw [List.map_cons, List.cons.injEq, ih, haccept.asBytes_path_eq_iff, List.forall_mem_cons]

/-- **What the encoder makes of a decoded table**: a table that is no longer, that decodes to the
same entries and chunks, and that is the same table when its paths were in normal form. -/
theorem encodeToc_of_decodeToc {data : Bytes} (hdata : data.length ≤ maxTocRawSize)
    {entryCount chunkCount : UInt32} {entries : List TocEntry} {chunks : List Chunk}
    (h : decodeToc D data entryCount chunkCount pathsStripped limits = .ok (entries, chunks)) :
    ∃ out, encodeToc entries chunks = .ok out ∧ out.length ≤ data.length ∧
      decodeToc D out entryCount chunkCount pathsStripped limits = .ok (entries, chunks) ∧
      (out = data ↔
        ∀ p ∈ storedPaths entryCount.toNat (data.drop 4), p ≠ [] → IsNormalForm p) := by
  obtain ⟨hes, hcs, hlt, paths, hall, hmax, rfl⟩ := decodeToc_eq_ok_iff.mp h
  have hsum := sum_utf8ByteSize_le hall
  have hlen := length_tocImage _ _ chunks hall.length_eq
  have hlen' := length_tocImage entries (entries.map fun e => asBytes e.path) chunks (by simp)
  have hpath : ∀ e ∈ entries, ∃ p ∈ paths, Accepts D pathsStripped limits e p := by
    intro e he
    obtain ⟨i, hi, rfl⟩ := List.mem_iff_getElem.mp he
    have hi' : i < paths.length := hall.length_eq ▸ hi
    exact ⟨paths[i], List.getElem_mem hi', hall.get hi hi'⟩
  have haccept : ∀ e ∈ entries, Accepts D pathsStripped limits e (asBytes e.path) := by
    intro e he
    obtain ⟨p, -, hp⟩ := hpath e he
    exact accepts_of_ownPath hp.ownPath hp.size_le (hp.length_path_le.trans hp.length_le)
  have hlt' : ∀ p ∈ paths, p.length < 2 ^ 16 := by
    intro p hp
    obtain ⟨i, hi, rfl⟩ := List.mem_iff_getElem.mp hp
    exact (hall.get (hall.length_eq ▸ hi) hi).length_lt
  refine ⟨tocImage entries (entries.map fun e => asBytes e.path) chunks,
    encodeToc_eq_ok_iff.mpr ⟨fun e he => ?_, by omega, rfl⟩, by omega,
    decodeToc_eq_ok_iff.mpr ⟨hes, hcs, by omega, _, forall₂_accepts_map haccept, by omega, rfl⟩,
    ?_⟩
  · have hlt := (haccept e he).length_lt
    simp only [length_asBytes, maxPathLen] at hlt ⊢
    omega
  · rw [← hes, storedPaths_tocImage chunks hall.length_eq hlt', ← map_asBytes_eq_iff hall]
    constructor
    · intro he
      have hnormal : ∀ p ∈ entries.map fun e => asBytes e.path, p.length < 2 ^ 16 := by
        simp only [List.forall_mem_map]
        exact fun e he => (haccept e he).length_lt
      have hlength : entries.length = (entries.map fun e => asBytes e.path).length := by simp
      rw [← storedPaths_tocImage chunks hlength hnormal, he,
        storedPaths_tocImage chunks hall.length_eq hlt']
    · intro he
      rw [he]

/-- **The encoder and the decoder are inverse**, in both directions. -/
theorem toc_codec_inverse (D : Dependencies) (pathsStripped : Bool) (limits : TocLimits) :
    (∀ entries chunks, Encodable D pathsStripped limits entries chunks →
      ∃ data, encodeToc entries chunks = .ok data ∧
        decodeToc D data (UInt32.ofNat entries.length) (UInt32.ofNat chunks.length)
          pathsStripped limits = .ok (entries, chunks)) ∧
    (∀ data entryCount chunkCount entries chunks, data.length ≤ maxTocRawSize →
      decodeToc D data entryCount chunkCount pathsStripped limits = .ok (entries, chunks) →
      ∃ out, encodeToc entries chunks = .ok out ∧ out.length ≤ data.length ∧
        decodeToc D out entryCount chunkCount pathsStripped limits = .ok (entries, chunks) ∧
        (out = data ↔
          ∀ p ∈ storedPaths entryCount.toNat (data.drop 4), p ≠ [] → IsNormalForm p)) :=
  ⟨fun _ _ h => decodeToc_encodeToc h, fun _ _ _ _ _ hdata h => encodeToc_of_decodeToc hdata h⟩

section Sample

/-- A table of one entry and one chunk. -/
def sampleEntry : TocEntry := ⟨"a", foldHash [97], 2, 2, 0, 1⟩

def sampleChunk : Chunk := ⟨64, 2, 2, foldHash [5, 6], false⟩

/-- The same table with a stored path that is not in normal form. -/
def sampleToc : Bytes := tocImage [sampleEntry] [asBytes "./a"] [sampleChunk]

theorem sampleToc_encodable :
    Encodable reference false ⟨10, 10, 10⟩ [sampleEntry] [sampleChunk] where
  ownPath e he := by
    obtain rfl := List.mem_singleton.mp he
    exact ⟨by decide +kernel, by decide +kernel⟩
  entries_lt := by decide
  chunks_lt := by decide
  path_le e he := by
    obtain rfl := List.mem_singleton.mp he
    decide
  total_le := by decide
  size_le e he := by
    obtain rfl := List.mem_singleton.mp he
    decide
  raw_le := by decide

/-- Both directions on the sample table. -/
theorem toc_codec_inverse_sample :
    (∃ data, encodeToc [sampleEntry] [sampleChunk] = .ok data ∧
      decodeToc reference data 1 1 false ⟨10, 10, 10⟩ = .ok ([sampleEntry], [sampleChunk])) ∧
    (∃ out, encodeToc [sampleEntry] [sampleChunk] = .ok out ∧ out.length ≤ sampleToc.length ∧
      decodeToc reference out 1 1 false ⟨10, 10, 10⟩ = .ok ([sampleEntry], [sampleChunk]) ∧
      (out = sampleToc ↔ ∀ p ∈ storedPaths 1 (sampleToc.drop 4), p ≠ [] → IsNormalForm p)) :=
  ⟨(toc_codec_inverse reference false ⟨10, 10, 10⟩).1 _ _ sampleToc_encodable,
    (toc_codec_inverse reference false ⟨10, 10, 10⟩).2 sampleToc 1 1 _ _ (by decide +kernel)
      (by decide +kernel)⟩

end Sample

end RasenArchive
