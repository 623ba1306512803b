import RasenArchive.Archive.ReadEntry

/-!
# Which ranges are accepted

`range_len`: the checks in front of reading a range, which give the number of bytes in it.

## Main definitions

* `RangeAccepted`, `RangeRefused`: the ranges that the checks accept, and how they refuse others

## Main results

* `WellFormed.touchedChunks_spec`: the chunks that a range overlaps reach over it
* `rangeLen_eq_ok_iff`, `rangeLen_error`: which ranges are accepted
-/

namespace RasenArchive

variable {D : Dependencies} {a : Archive} {entry : Entry}

/-- **The chunks that a range overlaps**: they reach over the range, and only the last chunk of the
entry is not full. -/
theorem WellFormed.touchedChunks_spec (h : WellFormed D a) (he : entry ∈ a.entries)
    {offset stop : ℕ} (horder : offset < stop) (hstop : stop ≤ entry.originalSize.toNat)
    {cs : List Chunk} (hcs : cs = (entry.ownedChunks a.chunks).extract
      (offset / a.chunkSize.toNat) ((stop - 1) / a.chunkSize.toNat + 1)) :
    (stop - 1) / a.chunkSize.toNat < entry.chunkCount.toNat ∧
      cs.length = (stop - 1) / a.chunkSize.toNat + 1 - offset / a.chunkSize.toNat ∧
      (∀ c ∈ cs.dropLast, c.originalSize.toNat = a.chunkSize.toNat) ∧
      (∀ c ∈ cs, c.originalSize.toNat ≤ a.chunkSize.toNat) ∧
      stop ≤ offset / a.chunkSize.toNat * a.chunkSize.toNat + totalSize cs := by
  obtain ⟨-, hlen, hfull, hsize, htotal⟩ := h.ownedChunks_spec he
  set owned := entry.ownedChunks a.chunks
  set n := a.chunkSize.toNat
  set first := offset / n
  set last := (stop - 1) / n with hlastdef
  have hpos : 0 < n := h.chunkSize_pos
  -- the last byte of the range lies in one of the chunks
  have hlast : last < entry.chunkCount.toNat := by
    have hle := totalSize_le hsize
    rw [Nat.div_lt_iff_lt_mul hpos, ← hlen]
    omega
  have hfirst : first ≤ last := Nat.div_le_div_right (by omega)
  -- rounding the last byte up to a full chunk reaches the end of the range
  have hnext : stop ≤ (last + 1) * n := by
    have hdiv := Nat.lt_div_mul_add hpos (a := stop - 1)
    rw [← hlastdef] at hdiv
    have hmul : (last + 1) * n = last * n + n := by ring
    omega
  subst hcs
  refine ⟨hlast, length_extract (by omega), fun c hc => hfull c ?_, fun c hc => hsize c ?_, ?_⟩
  · exact mem_dropLast_of_mem_dropLast_extract (by omega) hc
  · rw [List.extract_eq_take_drop] at hc
    exact List.mem_of_mem_drop (List.mem_of_mem_take hc)
  · -- in front of the last chunk, sizes are counted by multiplication
    have hfulltake : ∀ k, k < owned.length → ∀ c ∈ owned.take k, c.originalSize.toNat = n := by
      intro k hk c hc
      obtain ⟨j, hj, rfl⟩ := List.mem_take_iff_getElem.mp hc
      exact hfull _ (mem_dropLast_iff.mpr ⟨j, by omega, rfl⟩)
    have hpre := totalSize_of_full (hfulltake first (by omega))
    have hsplit : owned.take (last + 1) = owned.take first ++ owned.extract first (last + 1) := by
      rw [List.extract_eq_take_drop, ← List.take_add]
      congr 1
      omega
    -- the chunks up to the last one touched, split at the first
    have hsum := congrArg totalSize hsplit
    rw [totalSize_append, hpre, List.length_take_of_le (by omega)] at hsum
    rw [← hsum]
    -- the last chunk touched is full, or the last of the entry
    rcases Nat.lt_or_ge (last + 1) owned.length with hlt | hge
    · rw [totalSize_of_full (hfulltake (last + 1) hlt), List.length_take_of_le (by omega)]
      exact hnext
    · rw [List.take_of_length_le hge]
      omega

/-- **The range is accepted**, with `n` bytes of the entry in it. -/
structure RangeAccepted (a : Archive) (entry : Entry) (offset len : ℕ) (exact : Bool) (n : ℕ) :
    Prop where
  offset_le : offset ≤ entry.originalSize.toNat
  stop_le : exact = true → offset + len ≤ entry.originalSize.toNat
  stop_lt : len = 0 ∨ offset = entry.originalSize.toNat ∨ offset + len < 2 ^ 64
  length_eq : n = min (offset + len) entry.originalSize.toNat - offset
  touched_le : touched a.chunkSize.toNat offset n ≤ a.maxChunksPerOperation

/-- How a range is refused. -/
def RangeRefused (a : Archive) (entry : Entry) (offset len : ℕ) (exact : Bool) (f : Fault) :
    Prop :=
  (∀ n, ¬ RangeAccepted a entry offset len exact n) ∧
    (f = .error .invalidRange ∨ f = .error .tooManyChunks)

section Length

theorem checkRangeChunks_eq_ok_iff (hpos : 0 < a.chunkSize.toNat) {offset len : ℕ}
    (hlt : offset + len < 2 ^ 64) {u : Unit} :
    checkRangeChunks a offset len = .ok u ↔
      touched a.chunkSize.toNat offset len < 2 ^ 32 ∧
        touched a.chunkSize.toNat offset len ≤ a.maxChunksPerOperation := by
  unfold checkRangeChunks
  by_cases hlen : len = 0
  · -- an empty range is not counted
    simp [hlen, touched]
  rw [if_pos hlen]
  have hle : offset / a.chunkSize.toNat ≤ (offset + len - 1) / a.chunkSize.toNat :=
    Nat.div_le_div_right (by omega)
  have hdiv : (offset + len - 1) / a.chunkSize.toNat ≤ offset + len - 1 := Nat.div_le_self _ _
  -- the source subtracts first and adds one, which is the same here
  have htouched : touched a.chunkSize.toNat offset len =
      (offset + len - 1) / a.chunkSize.toNat - offset / a.chunkSize.toNat + 1 := by
    rw [touched, if_neg hlen]
    omega
  simp only [countRangeChunks, bind_eq_ok, usizeToU64_eq_ok_iff, okOr_eq_ok_iff,
    checkedAdd_eq_some_iff, div_of_pos hpos, Except.ok.injEq, Option.bind_eq_some_iff,
    checkedSub_eq_some_iff, tryFrom_eq_some_iff, ensureChunkOperationLimit, ensure_eq_ok_iff,
    htouched]
  -- every step of the counting succeeds but for the limits at its end
  constructor
  · rintro ⟨_, ⟨-, rfl⟩, _, ⟨-, rfl⟩, _, rfl, _, hsub, _, rfl, _, ⟨_, ⟨-, rfl⟩, _, ⟨-, rfl⟩, hlt32,
      rfl⟩, hmax⟩
    rw [sub_of_le (by omega)] at hsub
    cases hsub
    exact ⟨hlt32, hmax⟩
  · rintro ⟨hlt32, hmax⟩
    exact ⟨_, ⟨by omega, rfl⟩, _, ⟨hlt, rfl⟩, _, rfl, _, sub_of_le (by omega), _, rfl, _,
      ⟨_, ⟨hle, rfl⟩, _, ⟨by omega, rfl⟩, hlt32, rfl⟩, hmax⟩

theorem checkRangeChunks_error (hpos : 0 < a.chunkSize.toNat) {offset len : ℕ}
    (hlt : offset + len < 2 ^ 64) {f : Fault} (hf : checkRangeChunks a offset len = .error f) :
    f = .error .tooManyChunks := by
  unfold checkRangeChunks at hf
  split_ifs at hf with hlen
  swap
  · cases hf
  have hu : usizeToU64 len "range length" = .ok len := usizeToU64_eq_ok_iff.mpr ⟨by omega, rfl⟩
  have hadd : okOr (checkedAdd 64 offset len) .invalidRange = .ok (offset + len) :=
    okOr_eq_ok_iff.mpr (checkedAdd_eq_some_iff.mpr ⟨hlt, rfl⟩)
  have hsub : sub (offset + len) 1 = .ok (offset + len - 1) := sub_of_le (by omega)
  simp only [countRangeChunks, hu, hadd, hsub, div_of_pos hpos, ok_bind] at hf
  generalize (checkedSub _ _).bind _ = count at hf
  cases count with
  | none =>
    cases hf
    rfl
  | some n => exact (ensure_eq_error_iff.mp hf).2

/-- A range inside an entry that has an end before the end of the entry, too. -/
theorem rangeLenInside_eq_ok_iff (hpos : 0 < a.chunkSize.toNat) {size offset len n : ℕ}
    (hsize : size < 2 ^ 64) (hoffset : offset < size) (hlen : 0 < len) {exact : Bool} :
    rangeLenInside a size offset len exact = .ok n ↔
      (exact = true → offset + len ≤ size) ∧ offset + len < 2 ^ 64 ∧
        n = min (offset + len) size - offset ∧ touched a.chunkSize.toNat offset n < 2 ^ 32 ∧
        touched a.chunkSize.toNat offset n ≤ a.maxChunksPerOperation := by
  have hexact : (exact = false ∨ offset + len ≤ size) ↔ (exact = true → offset + len ≤ size) := by
    cases exact <;> simp
  set m := min (offset + len) size - offset with hm
  have hmpos : 0 < m := by omega
  have hsub : sub (min (offset + len) size) offset = .ok m := sub_of_le (by omega)
  simp only [rangeLenInside, bind_eq_ok, usizeToU64_eq_ok_iff, okOr_eq_ok_iff,
    checkedAdd_eq_some_iff, ensure_eq_ok_iff, exists_const, pure_eq_ok_iff, u64ToUsize_eq_ok_iff]
  constructor
  · rintro ⟨_, ⟨-, rfl⟩, _, ⟨hlt, rfl⟩, hend, _, hs, _, ⟨-, rfl⟩, u, hcheck, rfl⟩
    rw [hsub] at hs
    cases hs
    obtain ⟨h32, hmax⟩ := (checkRangeChunks_eq_ok_iff hpos (by omega)).mp hcheck
    exact ⟨hexact.mp hend, hlt, rfl, h32, hmax⟩
  · rintro ⟨hend, hlt, rfl, h32, hmax⟩
    exact ⟨_, ⟨by omega, rfl⟩, _, ⟨hlt, rfl⟩, hexact.mpr hend, _, hsub, _, ⟨by omega, rfl⟩, (),
      (checkRangeChunks_eq_ok_iff hpos (by omega)).mpr ⟨h32, hmax⟩, rfl⟩

theorem rangeLenInside_error (hpos : 0 < a.chunkSize.toNat) {size offset len : ℕ}
    (hsize : size < 2 ^ 64) (hoffset : offset < size) (hlen : 0 < len) (hlt : len < 2 ^ 64)
    {exact : Bool} {f : Fault} (hf : rangeLenInside a size offset len exact = .error f) :
    f = .error (if offset + len < 2 ^ 64 ∧ (exact = true → offset + len ≤ size) then
      .tooManyChunks else .invalidRange) := by
  have hu : usizeToU64 len "range length" = .ok len := usizeToU64_eq_ok_iff.mpr ⟨hlt, rfl⟩
  simp only [rangeLenInside, hu, ok_bind] at hf
  -- the end of the range overflows
  by_cases hend : offset + len < 2 ^ 64
  swap
  · rw [checkedAdd, if_neg hend] at hf
    cases hf
    rw [if_neg fun hin => hend hin.1]
  have hadd : okOr (checkedAdd 64 offset len) .invalidRange = .ok (offset + len) :=
    okOr_eq_ok_iff.mpr (checkedAdd_eq_some_iff.mpr ⟨hend, rfl⟩)
  rw [hadd, ok_bind] at hf
  have hiff : (exact = false ∨ offset + len ≤ size) ↔ (exact = true → offset + len ≤ size) := by
    cases exact <;> simp
  -- an exact range reaches past the end
  by_cases hexact : exact = false ∨ offset + len ≤ size
  swap
  · rw [ensure, if_neg hexact] at hf
    cases hf
    rw [if_neg fun hin => hexact (hiff.mpr hin.2)]
  -- the range is cut off at the end, and only its chunks are left to check
  set m := min (offset + len) size - offset with hm
  have hmpos : 0 < m := by omega
  have hsub : sub (min (offset + len) size) offset = .ok m := sub_of_le (by omega)
  have hu' : u64ToUsize m "range result size" = .ok m := u64ToUsize_eq_ok_iff.mpr ⟨by omega, rfl⟩
  rw [ensure_of hexact, ok_bind, hsub, ok_bind, hu', ok_bind] at hf
  rw [if_pos ⟨hend, hiff.mp hexact⟩]
  cases hc : checkRangeChunks a offset m with
  | ok u =>
    rw [hc] at hf
    cases hf
  | error f' =>
    rw [hc] at hf
    cases hf
    exact checkRangeChunks_error hpos (by omega) hc

/-- The range begins inside the entry or at its end, ends inside it where it has to, and its end is
a number of 64 bits where the code adds it up. -/
def RangeInside (entry : Entry) (offset len : ℕ) (exact : Bool) : Prop :=
  offset ≤ entry.originalSize.toNat ∧
    (exact = true → offset + len ≤ entry.originalSize.toNat) ∧
    (len = 0 ∨ offset = entry.originalSize.toNat ∨ offset + len < 2 ^ 64)

instance (entry : Entry) (offset len : ℕ) (exact : Bool) :
    Decidable (RangeInside entry offset len exact) := inferInstanceAs (Decidable (_ ∧ _))

variable (h : WellFormed D a) {idx offset len n : ℕ} {exact : Bool}

include h

/-- A range inside an entry overlaps no more chunks than the entry has. -/
theorem touched_lt (he : entry ∈ a.entries) (hstop : offset + n ≤ entry.originalSize.toNat) :
    touched a.chunkSize.toNat offset n < 2 ^ 32 := by
  have hcount := entry.chunkCount.toNat_lt
  rcases Nat.eq_zero_or_pos n with rfl | hpos
  · simp [touched]
  · -- the last chunk touched is one of the entry
    obtain ⟨hlast, -⟩ := h.touchedChunks_spec he (show offset < offset + n by omega) hstop rfl
    rw [touched, if_neg hpos.ne']
    exact (Nat.sub_le _ _).trans_lt (Nat.lt_of_le_of_lt hlast hcount)

/-- **Which ranges are accepted**, and how long they are. -/
theorem rangeLen_eq_ok_iff (hidx : a.entries[idx]? = some entry) :
    rangeLen a idx offset len exact = .ok n ↔ RangeAccepted a entry offset len exact n := by
  have hindex : index a.entries idx = .ok entry := index_eq_ok_iff.mpr hidx
  have hsize := entry.originalSize.toNat_lt
  simp only [rangeLen, hindex, ok_bind]
  -- the range begins behind the end, or at the end with bytes still asked for
  by_cases hbad : entry.originalSize.toNat < offset ∨
      (offset = entry.originalSize.toNat ∧ len ≠ 0 ∧ exact = true)
  · rw [if_pos hbad]
    simp only [failWith_ne_ok, false_iff]
    rintro ⟨hle, hexact, -, -, -⟩
    obtain ⟨heq, hlen, he⟩ := hbad.resolve_left (by omega)
    have := hexact he
    omega
  rw [if_neg hbad]
  push Not at hbad
  -- the range is empty, or clips to nothing at the end
  by_cases hzero : len = 0 ∨ (offset = entry.originalSize.toNat ∧ exact = false)
  · have hn : min (offset + len) entry.originalSize.toNat - offset = 0 := by
      rcases hzero with rfl | ⟨rfl, -⟩ <;> omega
    rw [if_pos hzero, pure_eq_ok_iff]
    constructor
    · rintro rfl
      refine ⟨hbad.1, fun he => ?_, by tauto, hn.symm, by simp [touched]⟩
      rcases hzero with rfl | ⟨-, hf⟩
      · exact hbad.1
      · rw [hf] at he
        cases he
    · exact fun hq => hn.symm.trans hq.length_eq.symm
  · -- the range begins inside the entry, where the end is added up
    rw [if_neg hzero]
    push Not at hzero
    have hlt : offset < entry.originalSize.toNat := by
      refine lt_of_le_of_ne hbad.1 fun he => ?_
      have hexact := hbad.2 he hzero.1
      exact hzero.2 he (by simpa using hexact)
    rw [rangeLenInside_eq_ok_iff h.chunkSize_pos hsize hlt (Nat.pos_of_ne_zero hzero.1)]
    constructor
    · rintro ⟨hexact, hend, hn, -, ht⟩
      exact ⟨hlt.le, hexact, Or.inr (Or.inr hend), hn, ht⟩
    · rintro ⟨-, hexact, hend, hn, ht⟩
      refine ⟨hexact, ?_, hn, touched_lt h (List.mem_of_getElem? hidx) (by omega), ht⟩
      rcases hend with hend | hend | hend
      · exact absurd hend hzero.1
      · omega
      · exact hend

/-- **Which ranges are refused**, and how. -/
theorem rangeLen_error (hidx : a.entries[idx]? = some entry) (hlt : len < 2 ^ 64) {f : Fault}
    (hf : rangeLen a idx offset len exact = .error f) :
    f = .error (if RangeInside entry offset len exact then .tooManyChunks else .invalidRange) := by
  have hindex : index a.entries idx = .ok entry := index_eq_ok_iff.mpr hidx
  simp only [rangeLen, hindex, ok_bind] at hf
  -- the same three cases as for the accepted ranges
  by_cases hbad : entry.originalSize.toNat < offset ∨
      (offset = entry.originalSize.toNat ∧ len ≠ 0 ∧ exact = true)
  · rw [if_pos hbad] at hf
    cases hf
    rw [if_neg]
    rintro ⟨hle, hexact, -⟩
    obtain ⟨heq, hlen, he⟩ := hbad.resolve_left (by omega)
    have := hexact he
    omega
  rw [if_neg hbad] at hf
  push Not at hbad
  by_cases hzero : len = 0 ∨ (offset = entry.originalSize.toNat ∧ exact = false)
  · rw [if_pos hzero] at hf
    cases hf
  rw [if_neg hzero] at hf
  push Not at hzero
  have hinside : offset < entry.originalSize.toNat := by
    refine lt_of_le_of_ne hbad.1 fun he => ?_
    exact hzero.2 he (by simpa using hbad.2 he hzero.1)
  have hiff : RangeInside entry offset len exact ↔
      offset + len < 2 ^ 64 ∧ (exact = true → offset + len ≤ entry.originalSize.toNat) := by
    constructor
    · rintro ⟨-, hexact, hend⟩
      exact ⟨by omega, hexact⟩
    · rintro ⟨hend, hexact⟩
      exact ⟨hinside.le, hexact, Or.inr (Or.inr hend)⟩
  rw [rangeLenInside_error h.chunkSize_pos entry.originalSize.toNat_lt hinside
    (Nat.pos_of_ne_zero hzero.1) hlt hf]
  simp only [hiff]

theorem rangeLen_cases (hidx : a.entries[idx]? = some entry) (hlt : len < 2 ^ 64) :
    (∃ n, rangeLen a idx offset len exact = .ok n ∧ RangeAccepted a entry offset len exact n) ∨
      ∃ f, rangeLen a idx offset len exact = .error f ∧
        RangeRefused a entry offset len exact f := by
  cases hr : rangeLen a idx offset len exact with
  | ok n => exact Or.inl ⟨n, rfl, (rangeLen_eq_ok_iff h hidx).mp hr⟩
  | error f =>
    refine Or.inr ⟨f, rfl, fun n hn => ?_, ?_⟩
    · cases hr.symm.trans ((rangeLen_eq_ok_iff h hidx).mpr hn)
    · rw [rangeLen_error h hidx hlt hr]
      split_ifs
      · exact Or.inr rfl
      · exact Or.inl rfl

end Length

end RasenArchive
