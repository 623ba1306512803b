import Mathlib

/-!
# Marking what is owned

An array of marks, one for each of `n` slots, that is filled in as the slots are taken one by one.
No slot is taken twice when every mark was still clear, and every slot is taken in the end when all
marks are set: then the slots taken are a permutation of all of them.

## Main definitions

* `Marks used owned`: the marks `used` are set at the distinct slots `owned`

## Main results

* `Marks.set`, `Marks.clear_iff`: taking one more slot
* `Marks.ext`, `exists_marks`: the marks of the slots taken
* `Marks.all_iff_perm`: all marks are set when the slots taken are a permutation of all slots
-/

/-- The marks `used` are set at the slots of `owned`, each of which was taken once. -/
structure Marks (used : List Bool) (owned : List ℕ) : Prop where
  nodup : owned.Nodup
  marked : ∀ i, used[i]? = some true ↔ i ∈ owned

variable {used : List Bool} {owned : List ℕ} {i : ℕ}

theorem marks_replicate (n : ℕ) : Marks (List.replicate n false) [] :=
  ⟨List.nodup_nil, fun i => by simp [List.getElem?_replicate]⟩

theorem Marks.lt_length (h : Marks used owned) (hi : i ∈ owned) : i < used.length := by
  have hm := (h.marked i).mpr hi
  exact (List.getElem?_eq_some_iff.mp hm).1

/-- A mark is clear exactly when its slot is not taken. -/
theorem Marks.clear_iff (h : Marks used owned) (hi : i < used.length) :
    used[i]? = some false ↔ i ∉ owned := by
  rw [← h.marked i, List.getElem?_eq_getElem hi]
  cases used[i] <;> simp

/-- **Taking one more slot.** -/
theorem Marks.set (h : Marks used owned) (hi : used[i]? = some false) :
    Marks (used.set i true) (owned ++ [i]) := by
  have hlt : i < used.length := (List.getElem?_eq_some_iff.mp hi).1
  have hnot : i ∉ owned := (h.clear_iff hlt).mp hi
  refine ⟨List.nodup_append'.mpr ⟨h.nodup, by simp, by simpa using hnot⟩, fun j => ?_⟩
  rw [List.mem_append, List.mem_singleton, ← h.marked j]
  by_cases hj : i = j
  · subst hj
    simp [hlt]
  · rw [List.getElem?_set_ne hj]
    simp [Ne.symm hj]

/-- The marks are a function of the slots taken. -/
theorem Marks.ext {used' : List Bool} (h : Marks used owned) (h' : Marks used' owned)
    (hlen : used.length = used'.length) : used = used' := by
  apply List.ext_getElem hlen
  intro i hi hi'
  have hiff : used[i]? = some true ↔ used'[i]? = some true :=
    (h.marked i).trans (h'.marked i).symm
  rw [List.getElem?_eq_getElem hi, List.getElem?_eq_getElem hi'] at hiff
  cases hu : used[i] <;> cases hu' : used'[i] <;> simp_all

/-- Distinct slots have their marks. -/
theorem exists_marks {n : ℕ} (hn : owned.Nodup) (hlt : ∀ i ∈ owned, i < n) :
    ∃ used : List Bool, used.length = n ∧ Marks used owned := by
  refine ⟨(List.range n).map fun i => decide (i ∈ owned), by simp, hn, fun i => ?_⟩
  by_cases hi : i < n
  · simp [hi]
  · have hnot : i ∉ owned := fun h => hi (hlt i h)
    simp [hi, hnot]

/-- **All marks are set** exactly when the slots taken are a permutation of all slots. -/
theorem Marks.all_iff_perm (h : Marks used owned) :
    (∀ u ∈ used, u = true) ↔ owned.Perm (List.range used.length) := by
  rw [List.perm_ext_iff_of_nodup h.nodup List.nodup_range]
  constructor
  · intro hall j
    rw [List.mem_range]
    refine ⟨h.lt_length, fun hj => (h.marked j).mp ?_⟩
    rw [List.getElem?_eq_getElem hj, hall _ (List.getElem_mem hj)]
  · intro hmem u hu
    obtain ⟨j, hj, rfl⟩ := List.mem_iff_getElem.mp hu
    have hm := (h.marked j).mpr ((hmem j).mpr (List.mem_range.mpr hj))
    rw [List.getElem?_eq_getElem hj] at hm
    exact Option.some.inj hm
