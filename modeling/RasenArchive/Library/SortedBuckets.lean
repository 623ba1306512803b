import Mathlib

/-!
# Buckets of a sorted list

A list sorted by a key holds the items of one key side by side. Bisection finds where such a bucket
begins and ends.

## Main definitions

* `partitionPoint p xs`: the number of items in front for which `p` holds, found by bisection

## Main results

* `partitionPoint_eq_countP`: bisection of a partitioned list
* `extract_bucket`: the window between two partition points is the bucket of a key
-/

variable {α κ : Type*}

/-- Bisection between `lo` and `hi`. -/
def bisect (p : α → Bool) (xs : List α) (lo hi : ℕ) : ℕ :=
  if lo < hi then
    let mid := lo + (hi - lo) / 2
    if xs[mid]?.any p then bisect p xs (mid + 1) hi else bisect p xs lo mid
  else lo
termination_by hi - lo

/-- The first position whose item does not satisfy `p`. -/
def partitionPoint (p : α → Bool) (xs : List α) : ℕ := bisect p xs 0 xs.length

/-- The items that satisfy `p` come first. -/
def Partitioned (p : α → Bool) (xs : List α) : Prop :=
  xs.Pairwise fun a b => p b = true → p a = true

section

variable {p : α → Bool} {xs : List α}

theorem Partitioned.of_getElem (h : Partitioned p xs) {i j : ℕ} (hij : i ≤ j) (hj : j < xs.length)
    (hp : p xs[j] = true) : p xs[i] = true := by
  rcases Nat.lt_or_eq_of_le hij with hlt | rfl
  · exact List.pairwise_iff_getElem.mp h i j (by omega) hj hlt hp
  · exact hp

theorem bisect_spec (h : Partitioned p xs) {lo hi : ℕ} (hle : lo ≤ hi) (hhi : hi ≤ xs.length)
    (hlow : ∀ i (hx : i < xs.length), i < lo → p xs[i] = true)
    (hhigh : ∀ i (hx : i < xs.length), hi ≤ i → p xs[i] = false) :
    bisect p xs lo hi ≤ xs.length ∧
      (∀ i (hx : i < xs.length), i < bisect p xs lo hi → p xs[i] = true) ∧
      ∀ i (hx : i < xs.length), bisect p xs lo hi ≤ i → p xs[i] = false := by
  induction hn : hi - lo using Nat.strong_induction_on generalizing lo hi with
  | h n ih =>
    unfold bisect
    by_cases hlt : lo < hi
    · have hmid : lo + (hi - lo) / 2 < xs.length := by omega
      rw [if_pos hlt]
      simp only [List.getElem?_eq_getElem hmid, Option.any_some]
      by_cases hp : p xs[lo + (hi - lo) / 2] = true
      · rw [if_pos hp]
        refine ih (hi - (lo + (hi - lo) / 2 + 1)) (by omega) (by omega) hhi ?_ hhigh rfl
        exact fun i _ hilt => h.of_getElem (by omega) hmid hp
      · rw [if_neg hp]
        refine ih (lo + (hi - lo) / 2 - lo) (by omega) (by omega) (by omega) hlow ?_ rfl
        intro i hx hile
        by_contra hpi
        exact hp (h.of_getElem hile hx (by simpa using hpi))
    · rw [if_neg hlt]
      exact ⟨by omega, hlow, fun i hx hile => hhigh i hx (by omega)⟩

/-- **Bisection of a partitioned list** counts the items in front. -/
theorem partitionPoint_eq_countP (h : Partitioned p xs) : partitionPoint p xs = xs.countP p := by
  obtain ⟨hle, hlow, hhigh⟩ := bisect_spec h (Nat.zero_le _) le_rfl (by simp)
    fun i hx hle => absurd hx (by omega)
  rw [← partitionPoint] at hle hlow hhigh
  have hfront : (xs.take (partitionPoint p xs)).countP p = partitionPoint p xs := by
    rw [List.countP_eq_length.mpr, List.length_take, min_eq_left hle]
    intro a ha
    obtain ⟨i, hi, rfl⟩ := List.mem_iff_getElem.mp ha
    rw [List.length_take] at hi
    rw [List.getElem_take]
    exact hlow i (by omega) (by omega)
  have hback : (xs.drop (partitionPoint p xs)).countP p = 0 := by
    rw [List.countP_eq_zero]
    intro a ha
    obtain ⟨i, hi, rfl⟩ := List.mem_iff_getElem.mp ha
    rw [List.length_drop] at hi
    rw [List.getElem_drop, hhigh _ (by omega) (by omega)]
    simp
  conv_rhs => rw [← List.take_append_drop (partitionPoint p xs) xs, List.countP_append]
  rw [hfront, hback, add_zero]

theorem Partitioned.take_countP (h : Partitioned p xs) : xs.take (xs.countP p) = xs.filter p := by
  induction xs with
  | nil => rfl
  | cons x xs ih =>
    obtain ⟨hx, hxs⟩ := List.pairwise_cons.mp h
    by_cases hp : p x = true
    · rw [List.countP_cons_of_pos hp, List.take_succ_cons, List.filter_cons_of_pos hp, ih hxs]
    · have hnone : ∀ y ∈ xs, ¬ p y = true := fun y hy hpy => hp (hx y hy hpy)
      rw [List.countP_cons_of_neg hp, List.countP_eq_zero.mpr hnone, List.filter_cons_of_neg hp,
        List.filter_eq_nil_iff.mpr hnone, List.take_zero]

theorem Partitioned.drop_countP (h : Partitioned p xs) :
    xs.drop (xs.countP p) = xs.filter fun a => !p a := by
  induction xs with
  | nil => rfl
  | cons x xs ih =>
    obtain ⟨hx, hxs⟩ := List.pairwise_cons.mp h
    by_cases hp : p x = true
    · rw [List.countP_cons_of_pos hp, List.drop_succ_cons, ih hxs,
        List.filter_cons_of_neg (by simp [hp])]
    · have hnone : ∀ y ∈ xs, ¬ p y = true := fun y hy hpy => hp (hx y hy hpy)
      rw [List.countP_cons_of_neg hp, List.countP_eq_zero.mpr hnone, List.drop_zero,
        List.filter_cons_of_pos (by simp [hp]), List.filter_eq_self.mpr]
      intro y hy
      simpa using hnone y hy

end

section Key

variable [LinearOrder κ] {key : α → κ} {xs : List α}

theorem partitioned_lt (h : xs.Pairwise fun a b => key a ≤ key b) (k : κ) :
    Partitioned (fun a => decide (key a < k)) xs :=
  h.imp fun hab hb => by simpa using lt_of_le_of_lt hab (by simpa using hb)

theorem partitioned_le (h : xs.Pairwise fun a b => key a ≤ key b) (k : κ) :
    Partitioned (fun a => decide (key a ≤ k)) xs :=
  h.imp fun hab hb => by simpa using le_trans hab (by simpa using hb)

/-- **The bucket of a key** stands between the partition points of `<` and `≤`. -/
theorem extract_bucket (h : xs.Pairwise fun a b => key a ≤ key b) (k : κ) :
    xs.extract (xs.countP fun a => decide (key a < k)) (xs.countP fun a => decide (key a ≤ k)) =
      xs.filter fun a => decide (key a = k) := by
  have hle : xs.take (xs.countP fun a => decide (key a ≤ k)) =
      xs.filter fun a => decide (key a ≤ k) := (partitioned_le h k).take_countP
  have hcount : (xs.countP fun a => decide (key a < k)) =
      (xs.filter fun a => decide (key a ≤ k)).countP fun a => decide (key a < k) := by
    rw [List.countP_filter]
    congr 1
    funext a
    by_cases hlt : key a < k
    · simp [hlt, hlt.le]
    · simp [hlt]
  rw [List.extract_eq_take_drop, ← List.drop_take, hle, hcount,
    (partitioned_lt (List.Pairwise.filter _ h) k).drop_countP, List.filter_filter]
  congr 1
  funext a
  rcases lt_trichotomy (key a) k with hlt | heq | hgt
  · simp [hlt, hlt.ne]
  · simp [heq]
  · simp [hgt.not_ge, hgt.ne']

theorem countP_lt_le_countP_le (key : α → κ) (xs : List α) (k : κ) :
    (xs.countP fun a => decide (key a < k)) ≤ xs.countP fun a => decide (key a ≤ k) :=
  List.countP_mono_left fun a _ ha => by simpa using le_of_lt (by simpa using ha)

end Key
