import RasenArchive.Library.Window

/-!
# Data in pieces

A list cut into pieces of `n` items each, where only the last piece may be shorter. The position of
an item tells its piece by division, so that a window of the data comes from the pieces it
overlaps.

## Main definitions

* `FullButLast n ps`: all pieces but the last one have `n` items
* `overlapping ps i j`: how many pieces hold data between two positions
* `cut n xs`: the data `xs` cut into pieces

## Main results

* `length_flatten_of_fullButLast`: the length of the data
* `flatten_window`: a window of the data from the pieces it overlaps
* `FullButLast.overlapping_eq`: how many pieces that are
* `flatten_cut`, `cut_fullButLast`, `cut_flatten`: cutting and joining are inverse
* `cut_eq_map`: the pieces are the intervals of the data
* `sizes_iff`: the sizes of the pieces are the lengths of these intervals
-/

variable {α : Type*} {n : ℕ} {ps : List (List α)}

/-- All pieces but the last one have `n` items. -/
def FullButLast (n : ℕ) (ps : List (List α)) : Prop := ∀ p ∈ ps.dropLast, p.length = n

theorem fullButLast_nil : FullButLast n ([] : List (List α)) := by simp [FullButLast]

theorem fullButLast_singleton (p : List α) : FullButLast n [p] := by simp [FullButLast]

theorem fullButLast_cons {p : List α} (hne : ps ≠ []) :
    FullButLast n (p :: ps) ↔ p.length = n ∧ FullButLast n ps := by
  unfold FullButLast
  rw [List.dropLast_cons_of_ne_nil hne, List.forall_mem_cons]

theorem FullButLast.length_getElem (h : FullButLast n ps) {i : ℕ} (hi : i + 1 < ps.length) :
    ps[i].length = n := by
  apply h
  rw [List.dropLast_eq_take, List.mem_take_iff_getElem]
  exact ⟨i, by omega, rfl⟩

theorem length_flatten_of_full {qs : List (List α)} (h : ∀ q ∈ qs, q.length = n) :
    qs.flatten.length = qs.length * n := by
  induction qs with
  | nil => simp
  | cons q qs ih =>
    rw [List.forall_mem_cons] at h
    rw [List.flatten_cons, List.length_append, h.1, ih h.2, List.length_cons]
    ring

/-- The pieces in front of piece `k` hold `k * n` items. -/
theorem FullButLast.length_flatten_take (h : FullButLast n ps) {k : ℕ} (hk : k < ps.length) :
    (ps.take k).flatten.length = k * n := by
  have hlen : (ps.take k).length = k := by simp; omega
  rw [length_flatten_of_full, hlen]
  intro q hq
  obtain ⟨i, hi, rfl⟩ := List.mem_iff_getElem.mp hq
  rw [hlen] at hi
  rw [List.getElem_take]
  exact h.length_getElem (by omega)

/-- **The length of the data.** -/
theorem length_flatten_of_fullButLast (h : FullButLast n ps) {k : ℕ} (hk : k + 1 = ps.length) :
    ps.flatten.length = k * n + ps[k].length := by
  have hsplit : ps = ps.take k ++ [ps[k]] := by
    rw [List.take_append_getElem]
    exact (List.take_of_length_le (by omega)).symm
  have hf := h.length_flatten_take (show k < ps.length by omega)
  conv_lhs => rw [hsplit, List.flatten_append, List.length_append, hf]
  simp

/-- **A window of the data** comes from the pieces `first` to `last` it overlaps. -/
theorem flatten_window (h : FullButLast n ps) {first last i j : ℕ} (hfl : first ≤ last)
    (hlast : last < ps.length) (hi : first * n ≤ i) (hij : i ≤ j)
    (hj : j ≤ last * n + ps[last].length) :
    (ps.extract first (last + 1)).flatten.extract (i - first * n) (j - first * n) =
      ps.flatten.extract i j := by
  have hpre := h.length_flatten_take (show first < ps.length by omega)
  have hmid : (ps.take (last + 1)).flatten.length = last * n + ps[last].length := by
    rw [List.take_succ_eq_append_getElem hlast, List.flatten_append, List.length_append,
      h.length_flatten_take hlast]
    simp
  have hsplit : ps.take (last + 1) = ps.take first ++ ps.extract first (last + 1) := by
    rw [List.extract_eq_take_drop, ← List.take_add]
    congr 1
    omega
  have hall : ps.flatten = (ps.take (last + 1)).flatten ++ (ps.drop (last + 1)).flatten := by
    rw [← List.flatten_append, List.take_append_drop]
  rw [hall, extract_append_of_le (by omega), hsplit, List.flatten_append]
  set middle := (ps.extract first (last + 1)).flatten
  have hdrop : ((ps.take first).flatten ++ middle).drop i = middle.drop (i - first * n) := by
    rw [List.drop_append, List.drop_eq_nil_of_le (by omega), hpre, List.nil_append]
  rw [List.extract_eq_take_drop, List.extract_eq_take_drop, hdrop]
  congr 1
  omega

/-- How many pieces hold data between the positions `i` and `j`. -/
def overlapping (ps : List (List α)) (i j : ℕ) : ℕ :=
  ((Finset.range ps.length).filter fun k =>
    max i (ps.take k).flatten.length < min j (ps.take (k + 1)).flatten.length).card

theorem overlapping_of_le {i j : ℕ} (h : j ≤ i) : overlapping ps i j = 0 := by
  rw [overlapping, Finset.card_eq_zero, Finset.filter_eq_empty_iff]
  omega

/-- **The pieces that a window overlaps** are counted by division. -/
theorem FullButLast.overlapping_eq (h : FullButLast n ps) (hn : 0 < n)
    (hle : ∀ p ∈ ps, p.length ≤ n) {i j : ℕ} (hij : i < j) (hj : j ≤ ps.flatten.length) :
    overlapping ps i j = (j - 1) / n + 1 - i / n := by
  have hpiece : ∀ k (hk : k < ps.length), (ps.take k).flatten.length = k * n ∧
      (ps.take (k + 1)).flatten.length = k * n + ps[k].length := by
    intro k hk
    refine ⟨h.length_flatten_take hk, ?_⟩
    rw [List.take_succ_eq_append_getElem hk, List.flatten_append, List.length_append,
      h.length_flatten_take hk]
    simp
  have hlast : (j - 1) / n < ps.length := by
    have hsum : ps.flatten.length ≤ ps.length * n := by
      rw [List.length_flatten]
      exact (List.sum_le_card_nsmul _ n (by simpa using hle)).trans_eq (by simp)
    rw [Nat.div_lt_iff_lt_mul hn]
    omega
  have hset : ((Finset.range ps.length).filter fun k =>
      max i (ps.take k).flatten.length < min j (ps.take (k + 1)).flatten.length) =
      Finset.Icc (i / n) ((j - 1) / n) := by
    ext k
    rw [Finset.mem_filter, Finset.mem_range, Finset.mem_Icc, Nat.le_div_iff_mul_le hn,
      ← Nat.lt_succ_iff (m := i / n), Nat.div_lt_iff_lt_mul hn, Nat.succ_mul]
    constructor
    · rintro ⟨hk, hmax⟩
      obtain ⟨hfrom, hto⟩ := hpiece k hk
      have := hle _ (List.getElem_mem hk)
      omega
    · rintro ⟨hik, hkj⟩
      have hk : k < ps.length := by
        have := (Nat.le_div_iff_mul_le hn).mpr hkj
        omega
      obtain ⟨hfrom, hto⟩ := hpiece k hk
      refine ⟨hk, ?_⟩
      rw [hfrom, hto]
      -- a piece that is not full is the last one, and reaches to the end of the data
      rcases Nat.lt_or_ge (k + 1) ps.length with hlt | hge
      · have := h.length_getElem hlt
        omega
      · have hend := length_flatten_of_fullButLast h (show k + 1 = ps.length by omega)
        omega
  rw [overlapping, hset, Nat.card_Icc]

/-! ## Cutting -/

/-- The data cut into pieces of `n` items. -/
def cut (n : ℕ) (xs : List α) : List (List α) :=
  if _h : xs = [] ∨ n = 0 then []
  else xs.take n :: cut n (xs.drop n)
termination_by xs.length
decreasing_by
  have := List.length_pos_iff.mpr fun he => _h (Or.inl he)
  simp only [List.length_drop]
  omega

theorem cut_nil : cut n ([] : List α) = [] := by
  rw [cut, dif_pos (Or.inl rfl)]

theorem cut_of_ne_nil (hn : 0 < n) {xs : List α} (hxs : xs ≠ []) :
    cut n xs = xs.take n :: cut n (xs.drop n) := by
  rw [cut, dif_neg]
  rintro (h | h)
  · exact hxs h
  · omega

/-- Cutting loses nothing. -/
theorem flatten_cut (hn : 0 < n) (xs : List α) : (cut n xs).flatten = xs := by
  induction hl : xs.length using Nat.strong_induction_on generalizing xs with
  | h l ih =>
    by_cases hxs : xs = []
    · rw [hxs, cut_nil]
      rfl
    · have hpos := List.length_pos_iff.mpr hxs
      rw [cut_of_ne_nil hn hxs, List.flatten_cons,
        ih (xs.length - n) (by omega) (xs.drop n) (by simp), List.take_append_drop]

theorem forall_mem_cut (hn : 0 < n) (xs : List α) : ∀ p ∈ cut n xs, p ≠ [] ∧ p.length ≤ n := by
  induction hl : xs.length using Nat.strong_induction_on generalizing xs with
  | h l ih =>
    by_cases hxs : xs = []
    · simp [hxs, cut_nil]
    · have hpos := List.length_pos_iff.mpr hxs
      rw [cut_of_ne_nil hn hxs, List.forall_mem_cons]
      refine ⟨⟨?_, by simp⟩, ih (xs.length - n) (by omega) (xs.drop n) (by simp)⟩
      rw [Ne, List.take_eq_nil_iff]
      rintro (h | h)
      · omega
      · exact hxs h

/-- All pieces but the last one are full. -/
theorem cut_fullButLast (hn : 0 < n) (xs : List α) : FullButLast n (cut n xs) := by
  induction hl : xs.length using Nat.strong_induction_on generalizing xs with
  | h l ih =>
    by_cases hxs : xs = []
    · rw [hxs, cut_nil]
      exact fullButLast_nil
    · have hpos := List.length_pos_iff.mpr hxs
      have hrest := ih (xs.length - n) (by omega) (xs.drop n) (by simp)
      rw [cut_of_ne_nil hn hxs]
      by_cases hd : xs.drop n = []
      · rw [hd, cut_nil]
        exact fullButLast_singleton _
      · have hlen : n < xs.length := by
          by_contra hle
          exact hd (List.drop_eq_nil_of_le (by omega))
        rw [fullButLast_cons (by rw [cut_of_ne_nil hn hd]; simp)]
        exact ⟨by simp; omega, hrest⟩

/-- Joining and cutting again gives the same pieces. -/
theorem cut_flatten (hn : 0 < n) (hne : ∀ p ∈ ps, p ≠ [] ∧ p.length ≤ n)
    (hfull : FullButLast n ps) : cut n ps.flatten = ps := by
  induction ps with
  | nil => exact cut_nil
  | cons p ps ih =>
    rw [List.forall_mem_cons] at hne
    have hnonempty : (p :: ps).flatten ≠ [] := by simp [hne.1.1]
    by_cases hps : ps = []
    · subst hps
      rw [cut_of_ne_nil hn hnonempty]
      simp [List.take_of_length_le hne.1.2, List.drop_eq_nil_of_le hne.1.2, cut_nil]
    · obtain ⟨hlen, hrest⟩ := (fullButLast_cons hps).mp hfull
      rw [cut_of_ne_nil hn hnonempty, List.flatten_cons, ← hlen, List.take_left, List.drop_left,
        hlen, ih hne.2 hrest]

/-- The number of pieces. -/
theorem length_cut (hn : 0 < n) (xs : List α) : (cut n xs).length = (xs.length + n - 1) / n := by
  induction hl : xs.length using Nat.strong_induction_on generalizing xs with
  | h l ih =>
    by_cases hxs : xs = []
    · subst hxs
      rw [cut_nil, ← hl]
      simp only [List.length_nil, zero_add]
      exact (Nat.div_eq_of_lt (by omega)).symm
    · have hpos := List.length_pos_iff.mpr hxs
      rw [cut_of_ne_nil hn hxs, List.length_cons,
        ih (xs.length - n) (by omega) (xs.drop n) (by simp), ← hl]
      rcases Nat.lt_or_ge n xs.length with hlt | hle
      · rw [← Nat.add_div_right _ hn]
        congr 1
        omega
      · rw [show xs.length - n = 0 by omega, Nat.div_eq_of_lt (by omega : 0 + n - 1 < n)]
        symm
        rw [Nat.div_eq_iff (by omega)]
        omega

/-- **The pieces are the intervals of the data** between two multiples of `n`. -/
theorem cut_eq_map (hn : 0 < n) (xs : List α) :
    cut n xs =
      (List.range ((xs.length + n - 1) / n)).map fun i => xs.extract (i * n) ((i + 1) * n) := by
  rw [← length_cut hn]
  induction hl : xs.length using Nat.strong_induction_on generalizing xs with
  | h l ih =>
    by_cases hxs : xs = []
    · simp [hxs, cut_nil]
    · have hpos := List.length_pos_iff.mpr hxs
      have hrest := ih (xs.length - n) (by omega) (xs.drop n) (by simp)
      rw [cut_of_ne_nil hn hxs, List.length_cons, List.range_succ_eq_map, List.map_cons,
        List.map_map]
      congr 1
      · simp [List.extract_eq_take_drop]
      · refine hrest.trans (List.map_congr_left fun i _ => ?_)
        -- the intervals of the rest are those of the whole, one further on
        have hfrom : i.succ * n = n + i * n := by
          rw [Nat.succ_mul, Nat.add_comm]
        simp only [Function.comp_apply, List.extract_eq_take_drop, List.drop_drop, hfrom,
          Nat.succ_mul]
        congr 1
        omega

/-! ## Sizes of pieces -/

/-- The lengths of the intervals between the multiples of `n` that `s` items fall into. -/
def intervalSizes (n s : ℕ) : List ℕ :=
  (List.range ((s + n - 1) / n)).map fun i => min ((i + 1) * n) s - i * n

theorem length_intervalSizes (n s : ℕ) : (intervalSizes n s).length = (s + n - 1) / n := by
  simp [intervalSizes]

theorem map_length_cut (hn : 0 < n) (xs : List α) :
    (cut n xs).map List.length = intervalSizes n xs.length := by
  rw [cut_eq_map hn, intervalSizes, List.map_map]
  refine List.map_congr_left fun i _ => ?_
  rw [Function.comp_apply, ← extract_min_length, length_extract (min_le_right _ _)]

/-- **The sizes of pieces**: full but the last one, none of them empty, and adding up to `s`
exactly when they are the lengths of the intervals. -/
theorem sizes_iff (hn : 0 < n) {ns : List ℕ} {s : ℕ} :
    ((∀ m ∈ ns, 0 < m ∧ m ≤ n) ∧ (∀ m ∈ ns.dropLast, m = n) ∧ ns.sum = s) ↔
      ns = intervalSizes n s := by
  constructor
  · rintro ⟨hle, hfull, rfl⟩
    -- read the sizes as pieces of units
    have hps : cut n ((ns.map fun m => List.replicate m ()).flatten) =
        ns.map fun m => List.replicate m () := by
      refine cut_flatten hn ?_ ?_
      · simp only [List.forall_mem_map]
        intro m hm
        obtain ⟨hpos, hmn⟩ := hle m hm
        refine ⟨?_, by simpa using hmn⟩
        rw [Ne, List.replicate_eq_nil_iff]
        omega
      · intro p hp
        rw [← List.map_dropLast, List.mem_map] at hp
        obtain ⟨m, hm, rfl⟩ := hp
        simpa using hfull m hm
    have hlen := map_length_cut hn ((ns.map fun m => List.replicate m ()).flatten)
    rw [hps, List.map_map] at hlen
    simpa [Function.comp_def, List.length_flatten] using hlen
  · rintro rfl
    have hlen := map_length_cut hn (List.replicate s ())
    rw [List.length_replicate] at hlen
    rw [← hlen]
    refine ⟨?_, ?_, ?_⟩
    · simp only [List.forall_mem_map]
      intro p hp
      obtain ⟨hne, hle⟩ := forall_mem_cut hn _ p hp
      exact ⟨List.length_pos_iff.mpr hne, hle⟩
    · rw [← List.map_dropLast]
      simp only [List.forall_mem_map]
      exact cut_fullButLast hn _
    · rw [← List.length_flatten, flatten_cut hn, List.length_replicate]
