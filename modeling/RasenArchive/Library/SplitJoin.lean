import Mathlib

/-!
# Splitting a list at separators and joining it again

`List.splitOnP` cuts a list at the elements that satisfy a predicate; `List.intercalate` joins
pieces with one separator. The lemmas relate the two and compare the weights of both sides.

## Main results

* `SplitJoin.splitOnP_intercalate`: joining pieces without separators and splitting gives them back
* `SplitJoin.splitOnP_congr`: the pieces do not depend on which separators are used
* `SplitJoin.weight_splitOnP`, `SplitJoin.weight_intercalate`: the weight of a list and of its pieces
-/

namespace SplitJoin

variable {α : Type} {p : α → Bool} {sep : α}

theorem of_mem_splitOnP {xs l : List α} (hl : l ∈ xs.splitOnP p) {x : α} (hx : x ∈ l) :
    p x = false ∧ x ∈ xs := by
  induction xs generalizing l with
  | nil =>
    simp only [List.splitOnP_nil, List.mem_singleton] at hl
    simp [hl] at hx
  | cons y ys ih =>
    rw [List.splitOnP_cons_eq_if_modifyHead] at hl
    by_cases hy : p y
    · rw [if_pos hy, List.mem_cons] at hl
      rcases hl with rfl | hl
      · simp at hx
      · exact ⟨(ih hl hx).1, List.mem_cons_of_mem _ (ih hl hx).2⟩
    · rw [if_neg hy] at hl
      obtain ⟨hd, tl, hs⟩ := List.exists_cons_of_ne_nil (List.splitOnP_ne_nil p ys)
      rw [hs, List.modifyHead_cons, List.mem_cons] at hl
      rcases hl with rfl | hl
      · rcases List.mem_cons.mp hx with rfl | hx
        · exact ⟨by simpa using hy, List.mem_cons_self⟩
        · have := ih (l := hd) (by simp [hs]) hx
          exact ⟨this.1, List.mem_cons_of_mem _ this.2⟩
      · have := ih (l := l) (by simp [hs, hl]) hx
        exact ⟨this.1, List.mem_cons_of_mem _ this.2⟩

/-- **Splitting undoes joining**: pieces without separators are the pieces of their join. -/
theorem splitOnP_intercalate {ls : List (List α)} (hp : p sep = true)
    (h : ∀ l ∈ ls, ∀ x ∈ l, p x = false) (hne : ls ≠ []) :
    ([sep].intercalate ls).splitOnP p = ls := by
  induction ls with
  | nil => exact absurd rfl hne
  | cons l ls ih =>
    cases ls with
    | nil => simpa using List.splitOnP_eq_singleton (h l List.mem_cons_self)
    | cons l' ls =>
      rw [List.intercalate_cons_cons, List.append_assoc, List.singleton_append,
        List.splitOnP_append_cons_of_forall_mem (h l List.mem_cons_self) _ hp,
        ih (fun k hk => h k (List.mem_cons_of_mem _ hk)) (by simp)]

/-- **Splitting does not tell separators apart**: lists that differ in their separators only have
the same pieces. -/
theorem splitOnP_congr {xs ys : List α}
    (h : List.Forall₂ (fun x y => x = y ∨ (p x = true ∧ p y = true)) xs ys) :
    xs.splitOnP p = ys.splitOnP p := by
  induction h with
  | nil => rfl
  | @cons x y xs ys hxy _ ih =>
    rw [List.splitOnP_cons_eq_if_modifyHead, List.splitOnP_cons_eq_if_modifyHead, ih]
    rcases hxy with rfl | ⟨hx, hy⟩
    · rfl
    · rw [if_pos hx, if_pos hy]

/-- Two separators in a row have an empty piece between them. -/
theorem nil_mem_splitOnP_of_infix (hp : p sep = true) {xs : List α} (h : [sep, sep] <:+: xs) :
    [] ∈ xs.splitOnP p := by
  obtain ⟨front, back, rfl⟩ := h
  have hcut : front ++ [sep, sep] ++ back = front ++ sep :: ([] ++ sep :: back) := by simp
  rw [hcut, List.splitOnP_append_cons _ _ hp, List.splitOnP_append_cons _ _ hp]
  simp

/-- A separator at the end has an empty piece behind it. -/
theorem nil_mem_splitOnP_of_getLast? (hp : p sep = true) {xs : List α}
    (h : xs.getLast? = some sep) : [] ∈ xs.splitOnP p := by
  obtain ⟨front, rfl⟩ := List.getLast?_eq_some_iff.mp h
  rw [List.splitOnP_append_cons _ _ hp]
  simp

theorem mem_of_mem_intercalate {ls : List (List α)} {x : α} (hx : x ∈ [sep].intercalate ls) :
    x = sep ∨ ∃ l ∈ ls, x ∈ l := by
  induction ls with
  | nil => simp at hx
  | cons l ls ih =>
    cases ls with
    | nil => exact Or.inr ⟨l, by simp, by simpa using hx⟩
    | cons l' ls =>
      rw [List.intercalate_cons_cons, List.mem_append, List.mem_append, List.mem_singleton] at hx
      rcases hx with (hx | hx) | hx
      · exact Or.inr ⟨l, by simp, hx⟩
      · exact Or.inl hx
      · rcases ih hx with hx | ⟨k, hk, hx⟩
        · exact Or.inl hx
        · exact Or.inr ⟨k, List.mem_cons_of_mem _ hk, hx⟩

theorem intercalate_concat (ls : List (List α)) (l : List α) :
    [sep].intercalate (ls ++ [l]) =
      (if ls = [] then [] else [sep].intercalate ls ++ [sep]) ++ l := by
  induction ls with
  | nil => simp
  | cons k ls ih =>
    rw [List.cons_append, List.intercalate_cons_of_ne_nil (by simp), ih]
    cases ls with
    | nil => simp
    | cons k' ls => simp [List.intercalate_cons_cons]

theorem intercalate_eq_nil_iff {ls : List (List α)} (h : ∀ l ∈ ls, l ≠ []) :
    [sep].intercalate ls = [] ↔ ls = [] := by
  cases ls with
  | nil => simp
  | cons l ls =>
    have hl := h l List.mem_cons_self
    cases ls <;> simp [List.intercalate_cons_cons, hl]

section Weight

variable (w : α → ℕ)

/-- **The weight of a list** whose separators weigh one: one more than it is the weight of its
pieces, each with a separator. -/
theorem weight_splitOnP (hw : ∀ x, p x = true → w x = 1) (xs : List α) :
    (xs.map w).sum + 1 = ((xs.splitOnP p).map fun l => (l.map w).sum + 1).sum := by
  induction xs with
  | nil => simp
  | cons x xs ih =>
    rw [List.splitOnP_cons_eq_if_modifyHead]
    by_cases hx : p x
    · rw [if_pos hx, List.map_cons, List.sum_cons, List.map_cons, List.sum_cons, ← ih, hw x hx]
      simp; omega
    · rw [if_neg hx]
      obtain ⟨hd, tl, hs⟩ := List.exists_cons_of_ne_nil (List.splitOnP_ne_nil p xs)
      rw [hs] at ih ⊢
      simp only [List.map_cons, List.sum_cons, List.modifyHead_cons] at ih ⊢
      omega

theorem weight_intercalate (hw : w sep = 1) {ls : List (List α)} (hne : ls ≠ []) :
    (([sep].intercalate ls).map w).sum + 1 = (ls.map fun l => (l.map w).sum + 1).sum := by
  induction ls with
  | nil => exact absurd rfl hne
  | cons l ls ih =>
    cases ls with
    | nil => simp
    | cons l' ls =>
      have := ih (by simp)
      rw [List.intercalate_cons_cons]
      simp only [List.map_append, List.sum_append, List.map_cons, List.sum_cons, List.map_nil,
        List.sum_nil, hw] at this ⊢
      omega

end Weight

end SplitJoin
