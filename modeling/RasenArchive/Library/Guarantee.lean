import RasenArchive.Library.Fallible

/-!
# What a failed computation leaves alone

A program that keeps its state when it stops may promise that a failure leaves some part of the
state as it was. The part is given as an observation of the state. The promise is followed through
checks in front of a computation and behind it, and through computations on a part of the state.

## Main definitions

* `Fallible.Spares c obs x s`: from `s`, the computation `x` leaves `obs` as it was, unless it
  succeeds where `c` holds

## Main results

* `Fallible.spares_liftM_bind`: checks in front of a computation
* `Fallible.spares_bind_check`, `Fallible.spares_bind_of_checks`: a check behind a computation, and
  checks that always pass
* `Fallible.spares_bind_of_error`, `Fallible.spares_bind_of_ok`: two computations in a row
* `Fallible.spares_focus`: a computation on a part of the state
-/

namespace Fallible

variable {σ τ ρ ε ε' α β : Type}

/-- From the state `s`, the computation `x` leaves the observation `obs` as it was, unless it
succeeds where `c` holds. -/
def Spares (c : Prop) (obs : σ → ρ) (x : Fallible σ ε α) (s : σ) : Prop :=
  (c ∧ ∃ a, (x s).1 = .ok a) ∨ obs (x s).2 = obs s

section Spares

variable {c : Prop} {obs : σ → ρ} {x : Fallible σ ε α} {s s' : σ} {a : α}

theorem Spares.of_ok (hc : c) (h : x s = (.ok a, s')) : Spares c obs x s :=
  Or.inl ⟨hc, a, by rw [h]⟩

theorem Spares.of_kept (h : obs (x s).2 = obs s) : Spares c obs x s := Or.inr h

/-- **A check in front of a computation** spares everything when it fails. -/
theorem spares_liftM_bind {y : Except ε β} {f : β → Fallible σ ε α} :
    Spares c obs ((liftM y : Fallible σ ε β) >>= f) s ↔
      ∀ b, y = .ok b → Spares c obs (f b) s := by
  cases y with
  | ok b =>
    constructor
    · intro h b' hb
      cases hb
      exact h
    · exact fun h => h b rfl
  | error e =>
    constructor
    · intro _ b hb
      cases hb
    · exact fun _ => .of_kept rfl

/-- **A check behind a computation** fails the call where `c` does not hold: then the computation is
to leave the observation as it was even when it succeeds. -/
theorem spares_bind_check {f : α → Fallible σ ε β} (hok : c → ∀ a t, ∃ b, (f a t).1 = .ok b)
    (herr : ¬ c → ∀ a t, ∃ e, f a t = (.error e, t)) :
    Spares True obs (x >>= f) s ↔ Spares c obs x s := by
  unfold Spares
  rcases hx : x s with ⟨e | a, t⟩
  · rw [bind_of_error hx]
    simp
  · rw [bind_of_ok hx]
    by_cases hc : c
    · obtain ⟨b, hb⟩ := hok hc a t
      simp [hc, hb]
    · obtain ⟨e, he⟩ := herr hc a t
      simp [hc, he]

/-- A computation that fails in front of others spares what it leaves as it was. -/
theorem spares_bind_of_error {f : α → Fallible σ ε β} {e : ε} (hx : x s = (.error e, s')) :
    Spares c obs (x >>= f) s ↔ obs s' = obs s := by
  unfold Spares
  rw [bind_of_error hx]
  simp

/-- **A computation in front of another** that does not undo it: what the whole leaves as it was is
left so by both, unless the second succeeds. -/
theorem spares_bind_of_ok {f : α → Fallible σ ε β} {p : Prop} (hx : x s = (.ok a, s'))
    (hkeep : obs (f a s').2 = obs s → obs s' = obs s)
    (hf : Spares c obs (f a) s' ↔ (c ∧ ∃ b, (f a s').1 = .ok b) ∨ p) :
    Spares c obs (x >>= f) s ↔ (c ∧ ∃ b, (f a s').1 = .ok b) ∨ (obs s' = obs s ∧ p) := by
  have hwhole : Spares c obs (x >>= f) s ↔
      (c ∧ ∃ b, (f a s').1 = .ok b) ∨ obs (f a s').2 = obs s := by
    unfold Spares
    rw [bind_of_ok hx]
  rw [hwhole]
  constructor
  · rintro (hok | hobs)
    · exact Or.inl hok
    · have hfirst := hkeep hobs
      rcases hf.mp (Or.inr (hobs.trans hfirst.symm)) with hok | hp
      · exact Or.inl hok
      · exact Or.inr ⟨hfirst, hp⟩
  · rintro (hok | ⟨hfirst, hp⟩)
    · exact Or.inl hok
    · rcases hf.mpr (Or.inr hp) with hok | hobs
      · exact Or.inl hok
      · exact Or.inr (hobs.trans hfirst)

/-- Checks that pass behind a computation change nothing. -/
theorem spares_bind_of_checks {f : α → Fallible σ ε β}
    (hf : ∀ a t, x s = (.ok a, t) → ∃ b, f a t = (.ok b, t)) :
    Spares c obs (x >>= f) s ↔ Spares c obs x s := by
  unfold Spares
  rcases hx : x s with ⟨e | a, t⟩
  · rw [bind_of_error hx]
    simp
  · obtain ⟨b, hb⟩ := hf a t hx
    rw [bind_of_ok hx, hb]
    simp

/-- Other faults spare the same. -/
theorem spares_mapError {f : ε → ε'} : Spares c obs (mapError f x) s ↔ Spares c obs x s := by
  unfold Spares
  rcases hx : x s with ⟨e | a, t⟩
  · rw [mapError_of_error hx]
    simp
  · rw [mapError_of_ok hx]
    simp

/-- **A computation on a part of the state** spares what it spares of the part, where the
observation of the whole follows the one of the part. -/
theorem spares_focus {get : σ → τ} {put : τ → σ → σ} {y : Fallible τ ε α} (part : τ → β)
    (hput : obs (put (y (get s)).2 s) = obs s ↔ part (y (get s)).2 = part (get s)) :
    Spares c obs (focus get put y) s ↔ Spares c part y (get s) := by
  unfold Spares
  rw [focus_apply, hput]

end Spares

end Fallible
