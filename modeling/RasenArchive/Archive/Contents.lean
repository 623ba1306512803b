import RasenArchive.Archive.Access

/-!
# The data of an entry

A call that succeeds returns what is known about the chunks it went through. Where this leaves one
content for each chunk of an entry, and the contents are as large as the chunk table says, the bytes
that a call returns are a part of the concatenation of these contents. The sizes in the chunk table
leave no choice which part.

## Main definitions

* `Contents a Rel e ds`: all that `Rel` leaves for the chunks of an entry

## Main results

* `Contents.whole`, `Contents.range`: what a whole read and a range read return
-/

namespace RasenArchive

/-- All that `Rel` leaves for the chunks of an entry: one content each, of the recorded size. -/
structure Contents (a : Archive) (Rel : ℕ → Bytes → Prop) (e : Entry) (ds : List Bytes) : Prop where
  length_eq : ds.length = e.chunkCount.toNat
  unique : ∀ i (hi : i < ds.length) d, Rel (e.firstChunk.toNat + i) d → d = ds[i]
  size_eq : ∀ i (hi : i < ds.length) chunk, a.chunks[e.firstChunk.toNat + i]? = some chunk →
    ds[i].length = chunk.originalSize.toNat

namespace Contents

variable {D : Dependencies} {a : Archive} {Rel : ℕ → Bytes → Prop} {e : Entry} {ds : List Bytes}
  (hc : Contents a Rel e ds)

include hc

/-- The contents of some chunks of an entry in a row. -/
theorem eq_extract (first count : ℕ) (hle : first + count ≤ e.chunkCount.toNat) {bs : List Bytes}
    (hbs : List.Forall₂ Rel (List.range' (e.firstChunk.toNat + first) count) bs) :
    bs = ds.extract first (first + count) := by
  obtain ⟨hlen, hall⟩ := List.forall₂_iff_get.mp hbs
  rw [List.length_range'] at hlen
  have hext := length_extract (i := first) (show first + count ≤ ds.length by
    rw [hc.length_eq]
    exact hle)
  apply List.ext_getElem
  · omega
  · intro i hi hi'
    have hrel := hall i (by simp; omega) hi
    simp only [List.get_eq_getElem, List.getElem_range', one_mul, Nat.add_assoc] at hrel
    rw [hc.unique (first + i) (by rw [hc.length_eq]; omega) _ hrel]
    simp [List.extract_eq_take_drop]

variable (h : WellFormed D a) (he : e ∈ a.entries)

include h he

/-- The contents are as large as the chunks. -/
theorem map_length : ds.map List.length =
    (e.ownedChunks a.chunks).map fun c => c.originalSize.toNat := by
  obtain ⟨hrange, hlen, -, -, -⟩ := h.ownedChunks_spec he
  apply List.ext_getElem
  · rw [List.length_map, List.length_map, hlen, hc.length_eq]
  · intro i hi hi'
    rw [List.length_map] at hi hi'
    have hchunk : a.chunks[e.firstChunk.toNat + i]? = some (e.ownedChunks a.chunks)[i] := by
      rw [← List.getElem?_drop, e.drop_eq_ownedChunks_append, List.getElem?_append_left hi',
        List.getElem?_eq_getElem hi']
    rw [List.getElem_map, List.getElem_map]
    exact hc.size_eq i hi _ hchunk

/-- The contents are as large as the chunk size, but for the last one. -/
theorem fullButLast : FullButLast a.chunkSize.toNat ds ∧
    (∀ d ∈ ds, d.length ≤ a.chunkSize.toNat) ∧ ds.flatten.length = e.originalSize.toNat := by
  obtain ⟨hrange, hlen, hfull, hsize, htotal⟩ := h.ownedChunks_spec he
  have hmap := hc.map_length h he
  refine ⟨fun d hd => ?_, fun d hd => ?_, ?_⟩
  · have hmem : d.length ∈ (ds.map List.length).dropLast := by
      rw [← List.map_dropLast]
      exact List.mem_map_of_mem hd
    rw [hmap, ← List.map_dropLast] at hmem
    obtain ⟨c, hc', hlength⟩ := List.mem_map.mp hmem
    rw [← hlength]
    exact hfull c hc'
  · have hmem : d.length ∈ ds.map List.length := List.mem_map_of_mem hd
    rw [hmap] at hmem
    obtain ⟨c, hc', hlength⟩ := List.mem_map.mp hmem
    rw [← hlength]
    exact hsize c hc'
  · rw [List.length_flatten, hmap]
    exact htotal

omit h he

/-- **A whole read** returns the concatenation of the contents. -/
theorem whole {data : Bytes} (hdata : IsWhole Rel e data) : data = ds.flatten := by
  obtain ⟨bs, hbs, rfl⟩ := hdata
  have heq := hc.eq_extract 0 e.chunkCount.toNat (by omega) hbs
  rw [heq, Nat.zero_add, extract_zero_length hc.length_eq.symm]

include h he

/-- **A range read** returns a window of the concatenation of the contents. -/
theorem range {offset n : ℕ} (hstop : offset + n ≤ e.originalSize.toNat) {data : Bytes}
    (hdata : IsRange a Rel e offset n data) : data = ds.flatten.extract offset (offset + n) := by
  obtain ⟨bs, hbs, rfl⟩ := hdata
  rcases Nat.eq_zero_or_pos n with rfl | hpos
  · simp [List.extract_eq_take_drop]
  obtain ⟨hfull, hle, htotal⟩ := hc.fullButLast h he
  obtain ⟨hlast, -, -, -, hreach⟩ :=
    h.touchedChunks_spec he (show offset < offset + n by omega) hstop rfl
  have hn := h.chunkSize_pos
  have hfirst : offset / a.chunkSize.toNat ≤ (offset + n - 1) / a.chunkSize.toNat :=
    Nat.div_le_div_right (by omega)
  have htouched : offset / a.chunkSize.toNat + touched a.chunkSize.toNat offset n =
      (offset + n - 1) / a.chunkSize.toNat + 1 := by
    rw [touched, if_neg hpos.ne']
    omega
  have heq := hc.eq_extract _ _ (htouched ▸ hlast) hbs
  rw [htouched] at heq
  have hlast' : (offset + n - 1) / a.chunkSize.toNat < ds.length := by
    rw [hc.length_eq]
    exact hlast
  -- the last chunk that is read reaches the end of the range
  have hto : offset + n ≤ (offset + n - 1) / a.chunkSize.toNat * a.chunkSize.toNat +
      ds[(offset + n - 1) / a.chunkSize.toNat].length := by
    rcases Nat.lt_or_ge ((offset + n - 1) / a.chunkSize.toNat + 1) ds.length with hlt | hge
    · rw [hfull.length_getElem hlt]
      have := Nat.lt_div_mul_add hn (a := offset + n - 1)
      omega
    · rw [← length_flatten_of_fullButLast hfull (by omega), htotal]
      exact hstop
  have hmod : offset - offset / a.chunkSize.toNat * a.chunkSize.toNat =
      offset % a.chunkSize.toNat := by
    have := Nat.div_add_mod' offset a.chunkSize.toNat
    omega
  have hle' := Nat.div_mul_le_self offset a.chunkSize.toNat
  rw [heq, ← flatten_window hfull hfirst hlast' hle' (Nat.le_add_right _ _) hto, hmod,
    show offset + n - offset / a.chunkSize.toNat * a.chunkSize.toNat =
      offset % a.chunkSize.toNat + n by omega]

end Contents

end RasenArchive
