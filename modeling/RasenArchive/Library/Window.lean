import Mathlib

/-!
# Windows of a list

Reading a window `xs.extract i j` of a list and writing over one, as a program reads and writes
the part of a buffer or of a file between two positions.

## Main definitions

* `overwrite xs pos ys`: the list `xs` with `ys` written over it from position `pos` on

## Main results

* `extract_middle`: the window of the middle part of a concatenation
* `take_overwrite`, `drop_overwrite`: what a write changes and what it leaves
* `eq_nil_of_forall_prefix`: nothing stands at the front of every list
-/

variable {α : Type*} {xs ys zs : List α} {i j pos : ℕ}

/-- What a list begins with behind a position is the element there. -/
theorem getElem?_of_drop_eq {x : α} (h : xs.drop i = x :: ys) : xs[i]? = some x := by
  rw [← List.head?_drop, h]
  rfl

theorem drop_succ_of_drop_eq {x : α} (h : xs.drop i = x :: ys) : xs.drop (i + 1) = ys := by
  rw [← List.drop_drop, h]
  rfl

theorem length_extract (h : j ≤ xs.length) : (xs.extract i j).length = j - i := by
  simp only [List.extract_eq_take_drop, List.length_take, List.length_drop]
  omega

theorem extract_append_of_le (h : j ≤ xs.length) : (xs ++ ys).extract i j = xs.extract i j := by
  simp only [List.extract_eq_take_drop]
  rcases Nat.le_total i xs.length with hi | hi
  · rw [List.drop_append_of_le_length hi, List.take_append_of_le_length (by simp; omega)]
  · rw [show j - i = 0 by omega]
    simp

/-- **The middle part** of a concatenation. -/
theorem extract_middle (hi : i = xs.length) (hj : j = xs.length + ys.length) :
    (xs ++ (ys ++ zs)).extract i j = ys := by
  subst hi hj
  simp [List.extract_eq_take_drop]

theorem extract_zero_length (h : j = xs.length) : xs.extract 0 j = xs := by
  simp [List.extract_eq_take_drop, h]

/-- The last part of a concatenation. -/
theorem extract_last (hi : i = xs.length) (hj : j = xs.length + ys.length) :
    (xs ++ ys).extract i j = ys := by
  have h : (xs ++ (ys ++ [])).extract i j = ys := extract_middle hi hj
  rwa [List.append_nil] at h

theorem extract_singleton (h : i < xs.length) : xs.extract i (i + 1) = [xs[i]] := by
  rw [List.extract_eq_take_drop, List.drop_eq_getElem_cons h, Nat.add_sub_cancel_left]
  rfl

theorem take_extract {n : ℕ} : (xs.extract i j).take n = xs.extract i (min j (i + n)) := by
  simp only [List.extract_eq_take_drop, List.take_take]
  congr 1
  omega

/-- Two windows side by side. -/
theorem extract_append_extract {k : ℕ} (hij : i ≤ j) (hjk : j ≤ k) :
    xs.extract i j ++ xs.extract j k = xs.extract i k := by
  simp only [List.extract_eq_take_drop]
  have hk : k - i = (j - i) + (k - j) := by omega
  rw [hk, List.take_add, List.drop_drop, Nat.add_sub_cancel' hij]

theorem mem_dropLast_iff {x : α} :
    x ∈ xs.dropLast ↔ ∃ k, ∃ h : k + 1 < xs.length, xs[k] = x := by
  rw [List.dropLast_eq_take, List.mem_take_iff_getElem]
  constructor
  · rintro ⟨k, hk, rfl⟩
    exact ⟨k, by omega, rfl⟩
  · rintro ⟨k, hk, rfl⟩
    exact ⟨k, by omega, rfl⟩

theorem mem_dropLast_of_mem_dropLast_extract {x : α} (hj : j ≤ xs.length)
    (h : x ∈ (xs.extract i j).dropLast) : x ∈ xs.dropLast := by
  obtain ⟨k, hk, rfl⟩ := mem_dropLast_iff.mp h
  rw [length_extract hj] at hk
  refine mem_dropLast_iff.mpr ⟨i + k, by omega, ?_⟩
  simp [List.extract_eq_take_drop]

/-- The list `xs` with `ys` written over it from position `pos` on. -/
def overwrite (xs : List α) (pos : ℕ) (ys : List α) : List α :=
  xs.take pos ++ (ys ++ xs.drop (pos + ys.length))

theorem length_overwrite (h : pos + ys.length ≤ xs.length) :
    (overwrite xs pos ys).length = xs.length := by
  simp only [overwrite, List.length_append, List.length_take, List.length_drop]
  omega

theorem length_le_overwrite (xs : List α) (pos : ℕ) (ys : List α) :
    xs.length ≤ (overwrite xs pos ys).length := by
  simp only [overwrite, List.length_append, List.length_take, List.length_drop]
  omega

theorem add_length_le_overwrite (h : pos ≤ xs.length) :
    pos + ys.length ≤ (overwrite xs pos ys).length := by
  simp only [overwrite, List.length_append, List.length_take, List.length_drop]
  omega

@[simp] theorem overwrite_nil (xs : List α) (pos : ℕ) : overwrite xs pos [] = xs := by
  simp [overwrite]

/-- A write keeps what is in front of it. -/
theorem take_overwrite (h : pos ≤ xs.length) :
    (overwrite xs pos ys).take (pos + ys.length) = xs.take pos ++ ys := by
  rw [overwrite, ← List.append_assoc, List.take_append_of_le_length (by simp; omega),
    List.take_of_length_le (by simp)]

/-- A write keeps what is behind it. -/
theorem drop_overwrite (h : pos ≤ xs.length) :
    (overwrite xs pos ys).drop (pos + ys.length) = xs.drop (pos + ys.length) := by
  have hlen : (xs.take pos ++ ys).length = pos + ys.length := by
    simp only [List.length_append, List.length_take]
    omega
  rw [overwrite, ← List.append_assoc, ← hlen, List.drop_left]

theorem overwrite_of_length_eq (h : ys.length = xs.length) : overwrite xs 0 ys = ys := by
  simp [overwrite, h]

/-- A write at the end. -/
theorem overwrite_length (xs ys : List α) : overwrite xs xs.length ys = xs ++ ys := by
  simp [overwrite]

theorem overwrite_append_left (h : pos + ys.length ≤ xs.length) :
    overwrite (xs ++ zs) pos ys = overwrite xs pos ys ++ zs := by
  rw [overwrite, overwrite, List.take_append_of_le_length (by omega),
    List.drop_append_of_le_length h]
  simp

theorem overwrite_zero (xs ys : List α) : overwrite xs 0 ys = ys ++ xs.drop ys.length := by
  simp [overwrite]

/-- Two writes side by side are one. -/
theorem overwrite_overwrite (h : pos ≤ xs.length) :
    overwrite (overwrite xs pos ys) (pos + ys.length) zs = overwrite xs pos (ys ++ zs) := by
  have hdrop : (overwrite xs pos ys).drop (pos + ys.length + zs.length) =
      xs.drop (pos + ys.length + zs.length) := by
    rw [← List.drop_drop, drop_overwrite h, List.drop_drop]
  rw [overwrite, take_overwrite h, hdrop, overwrite, List.length_append, ← Nat.add_assoc]
  simp

/-- A write keeps every part in front of it. -/
theorem take_overwrite_of_le {n : ℕ} (hn : n ≤ pos) (h : pos ≤ xs.length) :
    (overwrite xs pos ys).take n = xs.take n := by
  rw [overwrite, List.take_append_of_le_length (by simp; omega), List.take_take, min_eq_left hn]

/-- A list stays as it is when its front is replaced by what it begins with. -/
theorem append_drop_eq_iff : ys ++ xs.drop ys.length = xs ↔ ys <+: xs := by
  constructor
  · exact fun h => ⟨_, h⟩
  · rintro ⟨zs, rfl⟩
    rw [List.drop_left]

/-- **A write changes nothing** exactly when it writes what stands there. -/
theorem overwrite_eq_self_iff : overwrite xs pos ys = xs ↔ ys <+: xs.drop pos := by
  rw [← append_drop_eq_iff, List.drop_drop]
  constructor
  · intro h
    rw [overwrite] at h
    nth_rewrite 3 [← List.take_append_drop pos xs] at h
    exact List.append_cancel_left h
  · intro h
    rw [overwrite, h, List.take_append_drop]

/-- What stands at the front of every list of some length is nothing. -/
theorem eq_nil_of_forall_prefix {α : Type*} [Nontrivial α] {xs : List α} {n : ℕ}
    (hle : xs.length ≤ n) (h : ∀ ys : List α, ys.length = n → xs <+: ys) : xs = [] := by
  cases xs with
  | nil => rfl
  | cons x xs =>
    obtain ⟨y, hy⟩ := exists_ne x
    have hmem : x ∈ List.replicate n y :=
      (h (List.replicate n y) List.length_replicate).subset List.mem_cons_self
    exact absurd (List.eq_of_mem_replicate hmem).symm hy

/-- A window of a concatenation. -/
theorem extract_append : (xs ++ ys).extract i j =
    xs.extract i j ++ ys.extract (i - xs.length) (j - xs.length) := by
  simp only [List.extract_eq_take_drop, List.drop_append, List.take_append, List.length_drop]
  congr 2
  omega

theorem extract_min_length : xs.extract i (min j xs.length) = xs.extract i j := by
  simp only [List.extract_eq_take_drop]
  rw [List.take_eq_take_iff, List.length_drop]
  omega
