import RasenArchive.Archive.Contents
import RasenArchive.Archive.Exact
import RasenArchive.Archive.Outcome

/-!
# All read paths agree

Over a source of unchanging bytes, every chunk of an open archive has one content or none. The data
of an entry is the concatenation of the contents of its chunks, and each of the calls that
read whole entries or ranges returns its part of that data.

## Main definitions

* `Decodes`: the list of the contents of the chunks of an entry

## Main results

* `Decodes.contents`: what the calls return is determined
* `reads_agree`: whole reads and range reads against the concatenation of chunk reads
-/

namespace RasenArchive

variable {D : Dependencies} {W : Type} {R : RandomAccessRead W} {a : Archive} {P : W → Prop} {w : W}
  {c : Bytes}

/-- The contents of the chunks of an entry, in order. -/
structure Decodes (D : Dependencies) (a : Archive) (c : Bytes) (e : Entry) (ds : List Bytes) :
    Prop where
  length_eq : ds.length = e.chunkCount.toNat
  content : ∀ i (hi : i < ds.length), chunkContent D a c (e.firstChunk.toNat + i) = some ds[i]

section Decodes

variable {e : Entry} {ds : List Bytes} (hd : Decodes D a c e ds)

include hd

/-- Unchanging bytes leave these contents only. -/
theorem Decodes.contents :
    Contents a (fun g d => chunkContent D a c g = some d) e ds where
  length_eq := hd.length_eq
  unique i hi d hcontent := by
    rw [hd.content i hi] at hcontent
    exact (Option.some.inj hcontent).symm
  size_eq i hi chunk hchunk := length_of_chunkContent hchunk (hd.content i hi)

/-- The limit on the chunks of one operation, in terms of the chunks that a range overlaps. -/
theorem Decodes.touched_eq (h : WellFormed D a) (he : e ∈ a.entries) {offset stop : ℕ}
    (hle : offset ≤ stop) (hstop : stop ≤ ds.flatten.length) :
    touched a.chunkSize.toNat offset (stop - offset) = overlapping ds offset stop := by
  obtain ⟨hfull, hsize, -⟩ := hd.contents.fullButLast h he
  rcases Nat.eq_or_lt_of_le hle with rfl | hlt
  · simp [touched, overlapping_of_le]
  · rw [hfull.overlapping_eq h.chunkSize_pos hsize hlt hstop, touched, if_neg (by omega),
      Nat.add_sub_cancel' hle]

end Decodes

/-! ## The calls -/

/-- The entry that a path stands for is one of the archive. -/
theorem mem_of_entry (h : WellFormed D a) {path : String} {e : Entry}
    (he : entry D a path = .ok e) : e ∈ a.entries := by
  obtain ⟨q, -, hmem, -⟩ := (entry_eq_ok_iff h).mp he
  exact hmem

section Calls

variable {path : String} {e : Entry} {ds : List Bytes} (hp : Presents R P c)
  (hin : HoldsBlocks a c) (h : WellFormed D a) (he : entry D a path = .ok e)
  (hd : Decodes D a c e ds)

include hin hd in
/-- A chunk with a content comes to it. -/
theorem Decodes.not_error {label : ChecksumLabel} {i : ℕ} {f : Fault}
    (hi : i < e.chunkCount.toNat) :
    chunkOutcome D a c label i (e.firstChunk.toNat + i) ≠ .error f := by
  have hcontent := hd.content i (by rw [hd.length_eq]; exact hi)
  rw [(chunkOutcome_eq_ok_iff hin).mpr hcontent]
  simp

include hin hd in
theorem Decodes.not_whole_fault {label : ChecksumLabel} {f : Fault}
    (hlimit : e.chunkCount.toNat ≤ a.maxChunksPerOperation) :
    ¬ WholeFault a (fun label l g f => chunkOutcome D a c label l g = .error f) e label f := by
  rintro (⟨hlt, -⟩ | ⟨-, i, hi, herr⟩)
  · omega
  · exact hd.not_error hin hi herr

include hp hin h hd

include he in
theorem read_eq (hlimit : e.chunkCount.toNat ≤ a.maxChunksPerOperation) :
    Fallible.Settles P (read D R a path) (.ok ds.flatten) := by
  intro w hw
  have hpost : Fallible.Post (read D R a path) w _ _ := read_post (deciding hp hin) h hw
  rcases hr : read D R a path w with ⟨f | data, w'⟩
  · rcases (hpost.of_error hr).2 with hf | ⟨e', q, he', hf⟩
    · cases he.symm.trans hf
    · cases he.symm.trans he'
      exact absurd (hf.mono fun _ _ => And.left) (hd.not_whole_fault hin hlimit)
  · obtain ⟨e', he', -, hw', hdata⟩ := hpost.of_ok hr
    cases he.symm.trans he'
    rw [hd.contents.whole hdata]
    exact ⟨w', rfl, hw'⟩

theorem readById_eq {id : AssetId} (hid : entryById a id = .ok e)
    (hlimit : e.chunkCount.toNat ≤ a.maxChunksPerOperation) :
    Fallible.Settles P (readById D R a id) (.ok ds.flatten) := by
  intro w hw
  have hpost := readById_post (deciding (D := D) hp hin) h (w := w) hw id
  rcases hr : readById D R a id w with ⟨f | data, w'⟩
  · rcases (hpost.of_error hr).2 with hf | ⟨e', he', hf⟩
    · cases hid.symm.trans hf
    · cases hid.symm.trans he'
      exact absurd (hf.mono fun _ _ => And.left) (hd.not_whole_fault hin hlimit)
  · obtain ⟨e', he', -, hw', hdata⟩ := hpost.of_ok hr
    cases hid.symm.trans he'
    rw [hd.contents.whole hdata]
    exact ⟨w', rfl, hw'⟩

include he

theorem readIntoWithScratch_eq (hlimit : e.chunkCount.toNat ≤ a.maxChunksPerOperation) (hw : P w)
    {dst : Bytes} (hdst : dst.length = e.originalSize.toNat) (scratch : ArchiveScratch) :
    ∃ w' scratch', readIntoWithScratch D R a path ⟨w, dst, scratch⟩ =
      (.ok (), ⟨w', ds.flatten, scratch'⟩) ∧ P w' := by
  have hpost : Fallible.Post (readIntoWithScratch D R a path) ⟨w, dst, scratch⟩ _ _ :=
    readIntoWithScratch_post (deciding hp hin) h hw
  rcases hr : readIntoWithScratch D R a path ⟨w, dst, scratch⟩ with ⟨f | ⟨⟨⟩⟩, s'⟩
  · rcases (hpost.of_error hr).2.2 with hf | ⟨e', q, he', hf⟩
    · cases he.symm.trans hf
    · cases he.symm.trans he'
      rcases hf with ⟨hlt, -⟩ | ⟨hne, -⟩ | ⟨-, -, i, hi, herr, -⟩
      · omega
      · exact absurd hdst hne
      · exact absurd herr (hd.not_error hin hi)
  · obtain ⟨e', he', -, hw', hdata⟩ := hpost.of_ok hr
    cases he.symm.trans he'
    obtain ⟨w', dst', scratch'⟩ := s'
    rw [show dst' = ds.flatten from hd.contents.whole hdata]
    exact ⟨w', scratch', rfl, hw'⟩

omit hp in
/-- No chunk of a range fails. -/
theorem not_range_fault {label : ChecksumLabel} {offset n : ℕ} {f : Fault}
    (hstop : offset + n ≤ e.originalSize.toNat) :
    ¬ RangeFault a (fun label l g f => chunkOutcome D a c label l g = .error f) e label offset n
      f := by
  rintro ⟨i, hfrom, hto, herr⟩
  have hmem := mem_of_entry h he
  have hi : i < e.chunkCount.toNat := by
    rcases Nat.eq_zero_or_pos n with rfl | hpos
    · simp only [touched, if_true, Nat.add_zero] at hto
      omega
    · obtain ⟨hlast, -⟩ := h.touchedChunks_spec hmem (show offset < offset + n by omega) hstop rfl
      have hfirst : offset / a.chunkSize.toNat ≤ (offset + n - 1) / a.chunkSize.toNat :=
        Nat.div_le_div_right (by omega)
      rw [touched, if_neg hpos.ne'] at hto
      omega
  exact hd.not_error hin hi herr

theorem readRange_eq {offset len : UInt64} {exact : Bool} {n : ℕ}
    (hacc : RangeAccepted a e offset.toNat len.toNat exact n) :
    Fallible.Settles P (if exact then readRangeExact D R a path offset len
      else readRange D R a path offset len)
      (.ok (ds.flatten.extract offset.toNat (offset.toNat + n))) := by
  intro w hw
  have hmem := mem_of_entry h he
  have hpost : Fallible.Post (if exact then readRangeExact D R a path offset len
      else readRange D R a path offset len) w _ _ :=
    readRange_post (deciding hp hin) h hw offset len exact
  rcases hr : (if exact then readRangeExact D R a path offset len
      else readRange D R a path offset len) w with ⟨f | data, w'⟩
  · rcases (hpost.of_error hr).2 with hf | ⟨e', q, he', hf | ⟨n', hacc', hf⟩⟩
    · cases he.symm.trans hf
    · cases he.symm.trans he'
      exact absurd hacc (hf.1 n)
    · cases he.symm.trans he'
      have hlen := hacc'.length_eq
      have hle := hacc'.offset_le
      exact absurd (hf.mono fun _ _ => And.left) (not_range_fault hin h he hd (by omega))
  · obtain ⟨e', he', hw', hacc', hdata⟩ := hpost.of_ok hr
    cases he.symm.trans he'
    have hlen := hacc'.length_eq
    have hle := hacc'.offset_le
    have hn : data.length = n := hlen.trans hacc.length_eq.symm
    rw [hn] at hdata hlen
    rw [hd.contents.range h hmem (by omega) hdata]
    exact ⟨w', rfl, hw'⟩

theorem readRangeWithScratch_eq {offset : UInt64} {dst : Bytes} (hlt : dst.length < 2 ^ 64)
    (hw : P w) {n : ℕ} (hacc : RangeAccepted a e offset.toNat dst.length false n)
    (scratch : ArchiveScratch) :
    ∃ w' scratch', readRangeWithScratch D R a path offset ⟨w, dst, scratch⟩ =
      (.ok n, ⟨w', ds.flatten.extract offset.toNat (offset.toNat + n) ++ dst.drop n,
        scratch'⟩) ∧ P w' := by
  have hmem := mem_of_entry h he
  have hpost : Fallible.Post (readRangeWithScratch D R a path offset) ⟨w, dst, scratch⟩ _ _ :=
    readRangeWithScratch_post (deciding hp hin) h hw offset hlt
  rcases hr : readRangeWithScratch D R a path offset ⟨w, dst, scratch⟩ with ⟨f | n', s'⟩
  · rcases (hpost.of_error hr).2.2 with hf | ⟨e', q, he', hf | ⟨n', hacc', hf⟩⟩
    · cases he.symm.trans hf
    · cases he.symm.trans he'
      exact absurd hacc (hf.1 n)
    · cases he.symm.trans he'
      have hlen := hacc'.length_eq
      have hle := hacc'.offset_le
      exact absurd (hf.mono fun _ _ => And.left) (not_range_fault hin h he hd (by omega))
  · obtain ⟨e', he', hw', hacc', data, hdlen, hdata, hdst⟩ := hpost.of_ok hr
    cases he.symm.trans he'
    have hlen := hacc.length_eq
    have hle := hacc.offset_le
    obtain rfl : n' = n := hacc'.length_eq.trans hacc.length_eq.symm
    obtain ⟨w', dst', scratch'⟩ := s'
    rw [show dst' = data ++ dst.drop n' from hdst, hd.contents.range h hmem (by omega) hdata]
    exact ⟨w', scratch', rfl, hw'⟩

end Calls

/-- **All read paths agree.** Over a source of unchanging bytes, let each chunk of an entry be read
from some state. Then from every state whole reads return the concatenation of the chunks, and range
reads return its windows, whatever the destination and the scratch space held before; bytes of the
destination behind the range are kept. -/
theorem reads_agree {key : Bytes} {limits : ArchiveLimits} {w₀ w₁ : W} (hp : Presents R P c)
    (hw₀ : P w₀) (hopen : openWithLimits D R key limits w₀ = (.ok a, w₁)) {path : String}
    {e : Entry} (he : entry D a path = .ok e) {ds : List Bytes}
    (hlen : ds.length = e.chunkCount.toNat)
    (hds : ∀ (i : UInt32) (hi : i.toNat < ds.length), ∃ w w', P w ∧
      readChunk D R a path i w = (.ok ds[i.toNat], w')) :
    ds.flatten.length = e.originalSize.toNat ∧
    (e.chunkCount.toNat ≤ a.maxChunksPerOperation →
      Fallible.Settles P (read D R a path) (.ok ds.flatten) ∧
      (∀ w dst, P w → dst.length = ds.flatten.length →
        ∃ w', readInto D R a path (w, dst) = (.ok (), (w', ds.flatten)) ∧ P w') ∧
      (∀ w dst scratch, P w → dst.length = ds.flatten.length →
        ∃ w' scratch', readIntoWithScratch D R a path ⟨w, dst, scratch⟩ =
          (.ok (), ⟨w', ds.flatten, scratch'⟩) ∧ P w') ∧
      ((a.entries.filter fun x => decide (x.pathHash = e.pathHash)) = [e] →
        Fallible.Settles P (readById D R a ⟨e.pathHash⟩) (.ok ds.flatten))) ∧
    ∀ offset len : UInt64, offset.toNat ≤ ds.flatten.length →
      offset.toNat + len.toNat < 2 ^ 64 →
      ∀ stop, stop = min (offset.toNat + len.toNat) ds.flatten.length →
      overlapping ds offset.toNat stop ≤ a.maxChunksPerOperation →
      Fallible.Settles P (readRange D R a path offset len)
        (.ok (ds.flatten.extract offset.toNat stop)) ∧
      (offset.toNat + len.toNat ≤ ds.flatten.length →
        Fallible.Settles P (readRangeExact D R a path offset len)
          (.ok (ds.flatten.extract offset.toNat (offset.toNat + len.toNat)))) ∧
      (∀ w dst, P w → dst.length = len.toNat →
        ∃ w', readRangeInto D R a path offset (w, dst) = (.ok (stop - offset.toNat),
          (w', ds.flatten.extract offset.toNat stop ++ dst.drop (stop - offset.toNat))) ∧ P w') ∧
      ∀ w dst scratch, P w → dst.length = len.toNat →
        ∃ w' scratch', readRangeWithScratch D R a path offset ⟨w, dst, scratch⟩ =
          (.ok (stop - offset.toNat),
            ⟨w', ds.flatten.extract offset.toNat stop ++ dst.drop (stop - offset.toNat),
              scratch'⟩) ∧ P w' := by
  have h := openWithLimits_wellFormed hopen
  -- an opened archive has its blocks inside the source
  have hin := holds_of_open hp hw₀ hopen
  have hmem := mem_of_entry h he
  -- what a chunk reads back as once, from whatever state, is its content in `c`
  have hd : Decodes D a c e ds := by
    refine ⟨hlen, fun i hi => ?_⟩
    have hlt := e.chunkCount.toNat_lt
    have hi32 : (UInt32.ofNat i).toNat = i :=
      UInt32.toNat_ofNat_of_lt' (show i < 2 ^ 32 by omega)
    obtain ⟨w, w', hw, hr⟩ := hds (UInt32.ofNat i) (by rw [hi32]; exact hi)
    -- a chunk that was returned is the one that the bytes of the source decide
    obtain ⟨e', he', -, -, hcontent⟩ := (readChunk_post (deciding hp hin) h hw _).of_ok hr
    cases he.symm.trans he'
    simpa only [hi32] using hcontent
  -- the contents of an entry are as long as it says
  obtain ⟨-, -, htotal⟩ := hd.contents.fullButLast h hmem
  refine ⟨htotal, fun hlimit => ⟨read_eq hp hin h he hd hlimit, fun w dst hw hdst => ?_,
    fun w dst scratch hw hdst =>
      readIntoWithScratch_eq hp hin h he hd hlimit hw (by omega) scratch,
    fun hone => readById_eq hp hin h hd ((entryById_eq_ok_iff h).mpr hone) hlimit⟩, ?_⟩
  · -- a default scratch space is one of the scratch spaces
    obtain ⟨w', scratch', hrun, hw'⟩ := readIntoWithScratch_eq hp hin h he hd hlimit hw
      (show dst.length = e.originalSize.toNat by omega) {}
    refine ⟨w', ?_, hw'⟩
    rw [readInto, withDefaultScratch, Fallible.focus_apply, hrun]
  · intro offset len hle hlt stop hstop hlimit
    have htouched := hd.touched_eq h hmem (show offset.toNat ≤ stop by omega) (by omega)
    -- a range that begins inside the entry is accepted, cut off at its end
    have hacc : ∀ exact, (exact = true → offset.toNat + len.toNat ≤ ds.flatten.length) →
        RangeAccepted a e offset.toNat len.toNat exact (stop - offset.toNat) := fun exact hexact =>
      ⟨by omega, fun hx => htotal ▸ hexact hx, Or.inr (Or.inr hlt), by omega, by omega⟩
    -- the window that is returned ends at `stop`
    have hend : offset.toNat + (stop - offset.toNat) = stop := by omega
    refine ⟨?_, fun hexact => ?_, fun w dst hw hdst => ?_, fun w dst scratch hw hdst => ?_⟩
    · have hr := readRange_eq hp hin h he hd (hacc false (by simp))
      rwa [hend] at hr
    · have hr := readRange_eq hp hin h he hd (hacc true fun _ => hexact)
      rw [hend] at hr
      rw [show offset.toNat + len.toNat = stop by omega]
      exact hr
    · obtain ⟨w', scratch', hrun, hw'⟩ := readRangeWithScratch_eq hp hin h he hd (by omega) hw
        (hdst ▸ hacc false (by simp)) {}
      rw [hend] at hrun
      refine ⟨w', ?_, hw'⟩
      rw [readRangeInto, withDefaultScratch, Fallible.focus_apply, hrun]
    · obtain ⟨w', scratch', hrun, hw'⟩ := readRangeWithScratch_eq hp hin h he hd (by omega) hw
        (hdst ▸ hacc false (by simp)) scratch
      rw [hend] at hrun
      exact ⟨w', scratch', hrun, hw'⟩

/-- The read paths agree on the small archive. -/
theorem reads_agree_small :
    read reference sliceSource smallArchive "a" smallBytes = (.ok [1, 2, 3], smallBytes) ∧
      readRange reference sliceSource smallArchive "a" 1 5 smallBytes =
        (.ok [2, 3], smallBytes) := by
  have he : entry reference smallArchive "a" = .ok ⟨"a", foldHash [97], 3, 3, 0, 2⟩ := by
    decide +kernel
  have hds : ∀ (i : UInt32) (hi : i.toNat < [[1, 2], [3]].length), ∃ w w', w = smallBytes ∧
      readChunk reference sliceSource smallArchive "a" i w = (.ok [[1, 2], [3]][i.toNat], w') := by
    intro i hi
    have h0 : readChunk reference sliceSource smallArchive "a" 0 smallBytes =
        (.ok [1, 2], smallBytes) := by decide +kernel
    have h1 : readChunk reference sliceSource smallArchive "a" 1 smallBytes =
        (.ok [3], smallBytes) := by decide +kernel
    simp only [List.length_cons, List.length_nil] at hi
    rcases show i.toNat = 0 ∨ i.toNat = 1 by omega with hi | hi
    · obtain rfl : i = 0 := UInt32.toNat_inj.mp hi
      exact ⟨_, _, rfl, h0⟩
    · obtain rfl : i = 1 := UInt32.toNat_inj.mp hi
      exact ⟨_, _, rfl, h1⟩
  have hlen : ([[1, 2], [3]] : List Bytes).length = (2 : UInt32).toNat := rfl
  obtain ⟨-, hwhole, hrange⟩ := reads_agree (sliceSource_presents smallBytes) rfl
    openWithLimits_small he hlen hds
  obtain ⟨w, hread, rfl⟩ := (hwhole (by decide +kernel)).1 smallBytes rfl
  obtain ⟨w', hreadRange, rfl⟩ := (hrange 1 5 (by decide +kernel) (by decide +kernel) 3
    (by decide +kernel) (by decide +kernel)).1 smallBytes rfl
  exact ⟨hread, hreadRange⟩

end RasenArchive
