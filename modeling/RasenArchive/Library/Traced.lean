import RasenArchive.Library.Fallible

/-!
# Runs that may stop in every state

A program that changes a persistent state may be stopped between any two changes, and what it had
done until then stays. `Traced σ` is such a state beside all the states that a stop could have left.

## Main definitions

* `Traced σ`: a state, with every state the run has been in
* `Traced.step f`: one change
* `Traced.Always P t`: each of these states satisfies `P`

## Main results

* `Traced.Always.change`: a change keeps what holds of its outcome
-/

/-- A state, and every state that the run has been in, the current one included. -/
structure Traced (σ : Type) where
  now : σ
  seen : List σ

namespace Traced

variable {σ ε : Type}

/-- A run that starts in `s`. -/
def start (s : σ) : Traced σ := ⟨s, [s]⟩

/-- The run after a change of its state to `s`. -/
def change (t : Traced σ) (s : σ) : Traced σ := ⟨s, t.seen ++ [s]⟩

/-- One change of the state. -/
def step (f : σ → σ) : Fallible (Traced σ) ε Unit := Fallible.modify fun t => t.change (f t.now)

@[simp] theorem now_start (s : σ) : (start s).now = s := rfl

@[simp] theorem now_change (t : Traced σ) (s : σ) : (t.change s).now = s := rfl

@[simp] theorem step_apply (f : σ → σ) (t : Traced σ) :
    (step f : Fallible (Traced σ) ε Unit) t = (.ok (), t.change (f t.now)) := rfl

/-- Wherever the run may have been stopped, and where it is now, the state satisfies `P`. -/
structure Always (P : σ → Prop) (t : Traced σ) : Prop where
  now : P t.now
  seen : ∀ s ∈ t.seen, P s

variable {P Q : σ → Prop} {t : Traced σ} {s : σ}

theorem always_start (h : P s) : (start s).Always P := ⟨h, by simpa [start] using h⟩

theorem Always.change (h : t.Always P) (hs : P s) : (t.change s).Always P := by
  refine ⟨hs, fun s' hs' => ?_⟩
  rcases List.mem_append.mp hs' with hold | hnew
  · exact h.seen s' hold
  · rwa [List.mem_singleton.mp hnew]

end Traced
