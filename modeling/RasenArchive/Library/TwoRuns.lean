import RasenArchive.Library.Fallible

/-!
# Two runs side by side

A relation between the runs of two computations, with a rule for each way of building one. Two runs
are alike when both succeed or both fail with one fault.

## Main definitions

* `Fallible.Alike x s y t Q`: from `s` and `t`, the computations `x` and `y` end alike, with values
  and states in `Q` when they succeed
* `Fallible.Abreast x s y t Q E`: they end alike, and with states in `E` when they fail

## Main results

* `Fallible.Alike.bind`: the rule of sequences
* `Fallible.Alike.result_eq`: alike runs with equal values have equal results
* `Fallible.Abreast.bind`, `Fallible.abreast_focus`: the rules of sequences and of parts of the state,
  with the states of failures
* `Fallible.settles_of_abreast`: a result that does not depend on the state
-/

namespace Fallible

variable {σ τ σ' τ' ε α β γ δ : Type}

/-- From `s` and `t`, the computations `x` and `y` end alike: both with values and states in `Q`, or
both with the same fault. -/
def Alike (x : Fallible σ ε α) (s : σ) (y : Fallible τ ε β) (t : τ)
    (Q : α → σ → β → τ → Prop) : Prop :=
  match x s, y t with
  | (.ok a, s'), (.ok b, t') => Q a s' b t'
  | (.error e, _), (.error f, _) => e = f
  | _, _ => False

section Rules

variable {x : Fallible σ ε α} {y : Fallible τ ε β} {s : σ} {t : τ}
  {Q Q' : α → σ → β → τ → Prop} {P : γ → σ → δ → τ → Prop}

theorem alike_ok {a : α} {b : β} {s' : σ} {t' : τ} (hx : x s = (.ok a, s'))
    (hy : y t = (.ok b, t')) (h : Q a s' b t') : Alike x s y t Q := by
  unfold Alike
  rw [hx, hy]
  exact h

theorem alike_error {e : ε} {s' : σ} {t' : τ} (hx : x s = (.error e, s'))
    (hy : y t = (.error e, t')) : Alike x s y t Q := by
  unfold Alike
  rw [hx, hy]

theorem alike_iff : Alike x s y t Q ↔
    (∃ a s' b t', x s = (.ok a, s') ∧ y t = (.ok b, t') ∧ Q a s' b t') ∨
      ∃ e s' t', x s = (.error e, s') ∧ y t = (.error e, t') := by
  constructor
  · intro h
    unfold Alike at h
    rcases hx : x s with ⟨e | a, s'⟩ <;> rcases hy : y t with ⟨f | b, t'⟩ <;> rw [hx, hy] at h
    · cases h
      exact Or.inr ⟨e, s', t', rfl, rfl⟩
    · exact h.elim
    · exact h.elim
    · exact Or.inl ⟨a, s', b, t', rfl, rfl, h⟩
  · rintro (⟨a, s', b, t', hx, hy, h⟩ | ⟨e, s', t', hx, hy⟩)
    · exact alike_ok hx hy h
    · exact alike_error hx hy

/-- **The rule of sequences.** -/
theorem Alike.bind {f : α → Fallible σ ε γ} {g : β → Fallible τ ε δ} (h : Alike x s y t Q)
    (hf : ∀ a s' b t', Q a s' b t' → Alike (f a) s' (g b) t' P) :
    Alike (x >>= f) s (y >>= g) t P := by
  rcases alike_iff.mp h with ⟨a, s', b, t', hx, hy, hq⟩ | ⟨e, s', t', hx, hy⟩
  · have hnext := hf a s' b t' hq
    unfold Alike at hnext ⊢
    rwa [bind_of_ok hx, bind_of_ok hy]
  · exact alike_error (bind_of_error hx) (bind_of_error hy)

/-- A computation without state in front of both runs. -/
theorem alike_liftM_bind {α' : Type} (z : Except ε α') {f : α' → Fallible σ ε γ}
    {g : α' → Fallible τ ε δ} (h : ∀ a, z = .ok a → Alike (f a) s (g a) t P) :
    Alike ((liftM z : Fallible σ ε α') >>= f) s ((liftM z : Fallible τ ε α') >>= g) t P := by
  cases z with
  | error e => exact alike_error (liftM_bind_of_error rfl f s) (liftM_bind_of_error rfl g t)
  | ok a => exact h a rfl

/-- A computation without state at the end of both runs. -/
theorem alike_liftM {α' : Type} (z : Except ε α') {Q : α' → σ → α' → τ → Prop}
    (h : ∀ a, z = .ok a → Q a s a t) :
    Alike (liftM z : Fallible σ ε α') s (liftM z : Fallible τ ε α') t Q := by
  cases z with
  | error e => exact alike_error rfl rfl
  | ok a => exact h a rfl

/-- **Alike runs** with equal values have equal results. -/
theorem Alike.result_eq {y : Fallible τ ε α} {Q : α → σ → α → τ → Prop} (h : Alike x s y t Q)
    (hQ : ∀ a s' b t', Q a s' b t' → a = b) : (x s).1 = (y t).1 := by
  rcases alike_iff.mp h with ⟨a, s', b, t', hx, hy, hq⟩ | ⟨e, s', t', hx, hy⟩
  · rw [hx, hy, hQ a s' b t' hq]
  · rw [hx, hy]

end Rules

/-! ## Failures side by side -/

/-- From `s` and `t`, the computations `x` and `y` end alike: both with values and states in `Q`, or
both with the same fault and with states in `E`. -/
def Abreast (x : Fallible σ ε α) (s : σ) (y : Fallible τ ε β) (t : τ)
    (Q : α → σ → β → τ → Prop) (E : σ → τ → Prop) : Prop :=
  match x s, y t with
  | (.ok a, s'), (.ok b, t') => Q a s' b t'
  | (.error e, s'), (.error f, t') => e = f ∧ E s' t'
  | _, _ => False

section Abreast

variable {x : Fallible σ ε α} {y : Fallible τ ε β} {s : σ} {t : τ}
  {Q Q' : α → σ → β → τ → Prop} {E E' : σ → τ → Prop} {P : γ → σ → δ → τ → Prop}

theorem abreast_ok {a : α} {b : β} {s' : σ} {t' : τ} (hx : x s = (.ok a, s'))
    (hy : y t = (.ok b, t')) (h : Q a s' b t') : Abreast x s y t Q E := by
  unfold Abreast
  rw [hx, hy]
  exact h

theorem abreast_error {e : ε} {s' : σ} {t' : τ} (hx : x s = (.error e, s'))
    (hy : y t = (.error e, t')) (h : E s' t') : Abreast x s y t Q E := by
  unfold Abreast
  rw [hx, hy]
  exact ⟨rfl, h⟩

theorem abreast_iff : Abreast x s y t Q E ↔
    (∃ a s' b t', x s = (.ok a, s') ∧ y t = (.ok b, t') ∧ Q a s' b t') ∨
      ∃ e s' t', x s = (.error e, s') ∧ y t = (.error e, t') ∧ E s' t' := by
  constructor
  · intro h
    unfold Abreast at h
    rcases hx : x s with ⟨e | a, s'⟩ <;> rcases hy : y t with ⟨f | b, t'⟩ <;> rw [hx, hy] at h
    · obtain ⟨rfl, hE⟩ := h
      exact Or.inr ⟨e, s', t', rfl, rfl, hE⟩
    · exact h.elim
    · exact h.elim
    · exact Or.inl ⟨a, s', b, t', rfl, rfl, h⟩
  · rintro (⟨a, s', b, t', hx, hy, h⟩ | ⟨e, s', t', hx, hy, h⟩)
    · exact abreast_ok hx hy h
    · exact abreast_error hx hy h

/-- Runs that are abreast are alike. -/
theorem Abreast.alike (h : Abreast x s y t Q E) : Alike x s y t Q := by
  rcases abreast_iff.mp h with ⟨a, s', b, t', hx, hy, hq⟩ | ⟨e, s', t', hx, hy, -⟩
  · exact alike_ok hx hy hq
  · exact alike_error hx hy

theorem Abreast.mono (h : Abreast x s y t Q E) (hQ : ∀ a s' b t', Q a s' b t' → Q' a s' b t')
    (hE : ∀ s' t', E s' t' → E' s' t') : Abreast x s y t Q' E' := by
  rcases abreast_iff.mp h with ⟨a, s', b, t', hx, hy, hq⟩ | ⟨e, s', t', hx, hy, he⟩
  · exact abreast_ok hx hy (hQ a s' b t' hq)
  · exact abreast_error hx hy (hE s' t' he)

/-- **The rule of sequences.** -/
theorem Abreast.bind {f : α → Fallible σ ε γ} {g : β → Fallible τ ε δ} (h : Abreast x s y t Q E)
    (hf : ∀ a s' b t', Q a s' b t' → Abreast (f a) s' (g b) t' P E) :
    Abreast (x >>= f) s (y >>= g) t P E := by
  rcases abreast_iff.mp h with ⟨a, s', b, t', hx, hy, hq⟩ | ⟨e, s', t', hx, hy, he⟩
  · have hnext := hf a s' b t' hq
    unfold Abreast at hnext ⊢
    rwa [bind_of_ok hx, bind_of_ok hy]
  · exact abreast_error (bind_of_error hx) (bind_of_error hy) he

theorem abreast_gets_bind {α' β' : Type} (p : σ → α') (q : τ → β') (f : α' → Fallible σ ε γ)
    (g : β' → Fallible τ ε δ) :
    Abreast (gets p >>= f) s (gets q >>= g) t P E ↔ Abreast (f (p s)) s (g (q t)) t P E := Iff.rfl

theorem abreast_modify_bind (p : σ → σ) (q : τ → τ) (f : Unit → Fallible σ ε γ)
    (g : Unit → Fallible τ ε δ) :
    Abreast (modify p >>= f) s (modify q >>= g) t P E ↔
      Abreast (f ()) (p s) (g ()) (q t) P E := Iff.rfl

/-- A computation without state in front of both runs. -/
theorem abreast_liftM_bind {α' : Type} (z : Except ε α') {f : α' → Fallible σ ε γ}
    {g : α' → Fallible τ ε δ} (hE : E s t)
    (h : ∀ a, z = .ok a → Abreast (f a) s (g a) t P E) :
    Abreast ((liftM z : Fallible σ ε α') >>= f) s ((liftM z : Fallible τ ε α') >>= g) t P E := by
  cases z with
  | error e => exact abreast_error (liftM_bind_of_error rfl f s) (liftM_bind_of_error rfl g t) hE
  | ok a => exact h a rfl

/-- A computation without state at the end of both runs. -/
theorem abreast_liftM {α' : Type} (z : Except ε α') {Q : α' → σ → α' → τ → Prop} (hE : E s t)
    (h : ∀ a, z = .ok a → Q a s a t) :
    Abreast (liftM z : Fallible σ ε α') s (liftM z : Fallible τ ε α') t Q E := by
  cases z with
  | error e => exact abreast_error rfl rfl hE
  | ok a => exact h a rfl

/-- **The rule of parts of the state.** -/
theorem abreast_focus (get : σ → σ') (put : σ' → σ → σ) (get' : τ → τ') (put' : τ' → τ → τ)
    (x : Fallible σ' ε α) (y : Fallible τ' ε β) :
    Abreast (focus get put x) s (focus get' put' y) t Q E ↔
      Abreast x (get s) y (get' t) (fun a u b v => Q a (put u s) b (put' v t))
        fun u v => E (put u s) (put' v t) := by
  unfold Abreast
  rw [focus_apply, focus_apply]
  rcases x (get s) with ⟨_ | a, u⟩ <;> rcases y (get' t) with ⟨_ | b, v⟩ <;> rfl

/-- **The rule of other faults.** -/
theorem Abreast.mapError {ε' : Type} (f : ε → ε') (h : Abreast x s y t Q E) :
    Abreast (mapError f x) s (mapError f y) t Q E := by
  rcases abreast_iff.mp h with ⟨a, s', b, t', hx, hy, hq⟩ | ⟨e, s', t', hx, hy, he⟩
  · exact abreast_ok (mapError_of_ok hx) (mapError_of_ok hy) hq
  · exact abreast_error (mapError_of_error hx) (mapError_of_error hy) he

/-- **A result settles** where the runs from any two states are abreast. -/
theorem settles_of_abreast {z : Fallible σ ε α} {S : σ → Prop} {u : σ}
    (h : ∀ v, S v → Abreast z u z v (fun a s' b t' => a = b ∧ S s' ∧ S t')
      fun s' t' => S s' ∧ S t') : Settles S z (z u).1 := by
  intro v hv
  rcases abreast_iff.mp (h v hv) with
    ⟨a, s', b, t', hs, ht, rfl, -, hb⟩ | ⟨e, s', t', hs, ht, -, hb⟩
  · exact ⟨t', by rw [ht, hs], hb⟩
  · exact ⟨t', by rw [ht, hs], hb⟩

end Abreast

end Fallible
