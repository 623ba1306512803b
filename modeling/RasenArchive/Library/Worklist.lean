import Mathlib

/-!
# Work lists over trees

A traversal keeps the nodes it has still to visit on a stack. It takes the last one pushed, visits
it and pushes its children, until the stack is empty.

## Main definitions

* `Below children a b`: the node `b` is `a` or below it
* `walk children turns stack`: the nodes visited from the stack on, in order, in at most `turns`
  turns
* `Finite children a`: no path leads down from `a` for ever

## Main results

* `exists_walk`: the traversal of finite trees ends
* `mem_walk_iff`, `nodup_walk`: it visits every node of them, and none twice
-/

namespace Worklist

variable {α : Type} {children : α → List α}

/-- The node `b` is `a`, or is below it. -/
inductive Below (children : α → List α) (a : α) : α → Prop where
  | refl : Below children a a
  | step {b c : α} : Below children a b → c ∈ children b → Below children a c

/-- No path leads down from `a` for ever. -/
def Finite (children : α → List α) (a : α) : Prop := Acc (fun b a => b ∈ children a) a

/-- The nodes visited from the stack on, in at most `turns` turns. The top of the stack comes first,
and the last child of a node is on top of the others. -/
def walk (children : α → List α) : (turns : ℕ) → List α → Option (List α)
  | 0, _ => none
  | _ + 1, [] => some []
  | turns + 1, a :: stack => (walk children turns ((children a).reverse ++ stack)).map (a :: ·)

theorem Below.head {a b c : α} (h : b ∈ children a) (hc : Below children b c) :
    Below children a c := by
  induction hc with
  | refl => exact .step .refl h
  | step _ hc ih => exact .step ih hc

theorem below_iff {a c : α} :
    Below children a c ↔ c = a ∨ ∃ b ∈ children a, Below children b c := by
  constructor
  · intro h
    induction h with
    | refl => exact Or.inl rfl
    | step _ hc ih =>
      rcases ih with rfl | ⟨b, hb, hbelow⟩
      · exact Or.inr ⟨_, hc, .refl⟩
      · exact Or.inr ⟨b, hb, .step hbelow hc⟩
  · rintro (rfl | ⟨b, hb, hc⟩)
    · exact .refl
    · exact .head hb hc

theorem Finite.child {a b : α} (h : Finite children a) (hb : b ∈ children a) : Finite children b :=
  h.inv hb

/-- A node is not below its own children. -/
theorem Finite.not_below {a : α} (h : Finite children a) :
    ∀ b ∈ children a, ¬ Below children b a := by
  induction h with
  | intro a _ ih =>
    intro b hb hbelow
    rcases below_iff.mp hbelow with rfl | ⟨c, hc, hca⟩
    · exact ih a hb a hb .refl
    · exact ih b hb c hc (hca.step hb)

/-- More turns change nothing after the end. -/
theorem walk_mono {turns : ℕ} {stack order : List α} (h : walk children turns stack = some order) :
    ∀ more, walk children (turns + more) stack = some order := by
  intro more
  induction turns generalizing stack order with
  | zero => cases h
  | succ turns ih =>
    rw [Nat.succ_add]
    cases stack with
    | nil => exact h
    | cons a stack =>
      obtain ⟨rest, hrest, rfl⟩ := Option.map_eq_some_iff.mp h
      simp only [walk, ih hrest, Option.map_some]

/-- **The stack is visited from its top**: what is above is done with before what is below. -/
theorem walk_append {turns turns' : ℕ} {above below order order' : List α}
    (h : walk children turns above = some order) (h' : walk children turns' below = some order') :
    walk children (turns + turns') (above ++ below) = some (order ++ order') := by
  induction turns generalizing above order with
  | zero => cases h
  | succ turns ih =>
    cases above with
    | nil =>
      cases h
      rw [List.nil_append, List.nil_append, Nat.add_comm]
      exact walk_mono h' _
    | cons a above =>
      obtain ⟨rest, hrest, rfl⟩ := Option.map_eq_some_iff.mp h
      have hnext := ih hrest
      rw [List.append_assoc] at hnext
      rw [Nat.succ_add]
      simp only [List.cons_append, walk, hnext, Option.map_some]

theorem exists_walk_of_trees {stack : List α}
    (h : ∀ a ∈ stack, ∃ turns order, walk children turns [a] = some order) :
    ∃ turns order, walk children turns stack = some order := by
  induction stack with
  | nil => exact ⟨1, [], rfl⟩
  | cons a stack ih =>
    obtain ⟨turns, order, hw⟩ := h a (List.mem_cons_self ..)
    obtain ⟨turns', order', hw'⟩ := ih fun b hb => h b (List.mem_cons_of_mem _ hb)
    exact ⟨_, _, walk_append hw hw'⟩

/-- **The traversal of finite trees** ends. -/
theorem exists_walk {stack : List α} (h : ∀ a ∈ stack, Finite children a) :
    ∃ turns order, walk children turns stack = some order := by
  refine exists_walk_of_trees fun a ha => ?_
  -- the trees below the children are smaller, and are a stack again
  have hfin := h a ha
  clear ha
  induction hfin with
  | intro a _ ih =>
    obtain ⟨turns, order, hw⟩ :=
      exists_walk_of_trees fun b (hb : b ∈ (children a).reverse) => ih b (List.mem_reverse.mp hb)
    refine ⟨turns + 1, a :: order, ?_⟩
    simp only [walk, List.append_nil, hw, Option.map_some]

/-- **Which nodes are visited**: those in the trees on the stack. -/
theorem mem_walk_iff {turns : ℕ} {stack order : List α}
    (h : walk children turns stack = some order) {x : α} :
    x ∈ order ↔ ∃ a ∈ stack, Below children a x := by
  induction turns generalizing stack order with
  | zero => cases h
  | succ turns ih =>
    cases stack with
    | nil =>
      cases h
      simp
    | cons a stack =>
      obtain ⟨rest, hrest, rfl⟩ := Option.map_eq_some_iff.mp h
      simp only [List.mem_cons, ih hrest, List.mem_append, List.mem_reverse, or_and_right,
        exists_or, exists_eq_left]
      rw [← or_assoc, ← below_iff]

/-- Two trees without a common node. -/
def Apart (children : α → List α) (a b : α) : Prop :=
  ∀ x, Below children a x → ¬ Below children b x

theorem Apart.symm {a b : α} (h : Apart children a b) : Apart children b a :=
  fun x hb ha => h x ha hb

/-- **No node is visited twice**, when the trees on the stack and those below any node are finite
and apart. -/
theorem nodup_walk (hchildren : ∀ a, (children a).Pairwise (Apart children)) {turns : ℕ}
    {stack order : List α} (hstack : stack.Pairwise (Apart children))
    (hfinite : ∀ a ∈ stack, Finite children a) (h : walk children turns stack = some order) :
    order.Nodup := by
  induction turns generalizing stack order with
  | zero => cases h
  | succ turns ih =>
    cases stack with
    | nil =>
      cases h
      exact List.nodup_nil
    | cons a stack =>
      obtain ⟨rest, hrest, rfl⟩ := Option.map_eq_some_iff.mp h
      obtain ⟨hapart, hstack⟩ := List.pairwise_cons.mp hstack
      have hfin := hfinite a (List.mem_cons_self ..)
      refine List.nodup_cons.mpr ⟨?_, ih ?_ ?_ hrest⟩
      · intro hmem
        obtain ⟨b, hb, hbelow⟩ := (mem_walk_iff hrest).mp hmem
        rcases List.mem_append.mp hb with hb | hb
        · exact hfin.not_below b (List.mem_reverse.mp hb) hbelow
        · exact hapart b hb a .refl hbelow
      · refine List.pairwise_append.mpr ⟨?_, hstack, ?_⟩
        · rw [List.pairwise_reverse]
          exact (hchildren a).imp fun h => h.symm
        · intro b hb c hc x hx
          exact hapart c hc x (hx.head (List.mem_reverse.mp hb))
      · intro b hb
        rcases List.mem_append.mp hb with hb | hb
        · exact hfin.child (List.mem_reverse.mp hb)
        · exact hfinite b (List.mem_cons_of_mem _ hb)

end Worklist
