import Mathlib

/-!
# Codes that show where they end

Records of different lengths are laid one behind the other without separators. When each record
shows where it ends, a list of them cannot be taken for another one, but for one that goes on where
the first stops.

## Main definitions

* `SelfDelimiting P code`: nothing of what follows the code of an item can be taken for a part of it

## Main results

* `SelfDelimiting.split`: of two lists of records with the same bytes, one is a prefix of the other
* `SelfDelimiting.flatten_inj`: where nothing follows, they are the same
-/

variable {α β : Type}

/-- The codes of the items that `P` holds of show where they end. -/
def SelfDelimiting (P : α → Prop) (code : α → List β) : Prop :=
  ∀ ⦃a b : α⦄ ⦃xs ys : List β⦄, P a → P b → code a ++ xs = code b ++ ys → a = b ∧ xs = ys

namespace SelfDelimiting

variable {P : α → Prop} {code : α → List β} {as bs : List α} {xs ys : List β}

/-- **Two readings of the same bytes** agree until one of them stops. -/
theorem split (h : SelfDelimiting P code) (has : ∀ a ∈ as, P a) (hbs : ∀ b ∈ bs, P b)
    (heq : (as.map code).flatten ++ xs = (bs.map code).flatten ++ ys) :
    (∃ rest, bs = as ++ rest ∧ xs = (rest.map code).flatten ++ ys) ∨
      ∃ rest, as = bs ++ rest ∧ ys = (rest.map code).flatten ++ xs := by
  induction as generalizing bs with
  | nil => exact Or.inl ⟨bs, rfl, heq⟩
  | cons a as ih =>
    cases bs with
    | nil => exact Or.inr ⟨a :: as, rfl, heq.symm⟩
    | cons b bs =>
      rw [List.forall_mem_cons] at has hbs
      simp only [List.map_cons, List.flatten_cons, List.append_assoc] at heq
      obtain ⟨rfl, hrest⟩ := h has.1 hbs.1 heq
      rcases ih has.2 hbs.2 hrest with ⟨rest, rfl, hxs⟩ | ⟨rest, rfl, hys⟩
      · exact Or.inl ⟨rest, rfl, hxs⟩
      · exact Or.inr ⟨rest, rfl, hys⟩

/-- Records that are not empty are all told apart. -/
theorem flatten_inj (h : SelfDelimiting P code) (hne : ∀ a, P a → code a ≠ [])
    (has : ∀ a ∈ as, P a) (hbs : ∀ b ∈ bs, P b)
    (heq : (as.map code).flatten = (bs.map code).flatten) : as = bs := by
  have hempty : ∀ rest : List α, (∀ a ∈ rest, P a) → (rest.map code).flatten = [] → rest = [] := by
    intro rest hrest hnil
    cases rest with
    | nil => rfl
    | cons a rest =>
      rw [List.map_cons, List.flatten_cons, List.append_eq_nil_iff] at hnil
      exact absurd hnil.1 (hne a (hrest a (List.mem_cons_self ..)))
  have hends := @split α β P code as bs [] [] h has hbs (by simpa using heq)
  simp only [List.append_nil] at hends
  rcases hends with ⟨rest, rfl, hnil⟩ | ⟨rest, rfl, hnil⟩
  · rw [hempty rest (fun a ha => hbs a (List.mem_append_right _ ha)) hnil.symm, List.append_nil]
  · rw [hempty rest (fun a ha => has a (List.mem_append_right _ ha)) hnil.symm, List.append_nil]

end SelfDelimiting
