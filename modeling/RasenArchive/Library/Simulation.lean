import RasenArchive.Library.TwoRuns

/-!
# Simulation with excuses

A computation over an unreliable part follows the same computation over a reliable one: it does what
the other does, or stops with a fault that is excused. Whether a fault is excused may depend on how
the reliable run ends, so that a fault that only comes before bad ends is excused by them.

## Main definitions

* `Fallible.Keeps P x`: however the computation `x` ends, it keeps `P`
* `Fallible.Follows E x s y t Q`: from `s`, the computation `x` follows `y` from `t`, or stops with
  a fault that `E` excuses

## Main results

* `Fallible.Follows.bind`: sequences, where the excuses of the first half outlast the second
* `Fallible.Alike.follows_bind`: sequences whose first half needs no excuse
* `Fallible.Follows.ok`, `Fallible.Follows.of_ok`: what success of one run says about the other
-/

namespace Fallible

variable {σ τ σ' τ' ε α β γ δ : Type}

/-! ## What a computation keeps -/

/-- However the computation `x` ends, it keeps `P`. -/
def Keeps (P : σ → Prop) (x : Fallible σ ε α) : Prop := ∀ s, P s → P (x s).2

section Keeps

variable {P : σ → Prop} {x : Fallible σ ε α}

theorem Keeps.pure (a : α) : Keeps P (pure a : Fallible σ ε α) := fun _ h => h

theorem Keeps.liftM (z : Except ε α) : Keeps P (liftM z : Fallible σ ε α) := fun _ h => h

theorem Keeps.modify {p : σ → σ} (h : ∀ s, P s → P (p s)) :
    Keeps P (modify p : Fallible σ ε Unit) := h

theorem Keeps.bind {f : α → Fallible σ ε β} (h : Keeps P x) (hf : ∀ a, Keeps P (f a)) :
    Keeps P (x >>= f) := by
  intro s hs
  have hx := h s hs
  rcases hrun : x s with ⟨e | a, s'⟩
  · rw [hrun] at hx
    rw [bind_of_error hrun]
    exact hx
  · rw [hrun] at hx
    rw [bind_of_ok hrun]
    exact hf a s' hx

/-- A read of the state in front of a computation. -/
theorem Keeps.gets_bind {p : σ → γ} {f : γ → Fallible σ ε β} (hf : ∀ s, Keeps P (f (p s))) :
    Keeps P (Fallible.gets p >>= f) := fun s hs => hf s s hs

/-- A computation that leaves an observation as it was keeps what is said of it. -/
theorem Keeps.of_snd {obs : σ → τ} {R : τ → Prop} (h : ∀ s, obs (x s).2 = obs s) :
    Keeps (fun s => R (obs s)) x := by
  intro s hs
  rw [h]
  exact hs

end Keeps

/-! ## Following -/

/-- From `s` and `t`, the computation `x` follows `y`: when it succeeds, so does `y`, with values
and states in `Q`; when it stops, `y` stops with the same fault, or `E` excuses the fault by the
state that `y` ends in. -/
def Follows (E : ε → τ → Prop) (x : Fallible σ ε α) (s : σ) (y : Fallible τ ε β) (t : τ)
    (Q : α → σ → β → τ → Prop) : Prop :=
  match (x s).1 with
  | .ok a => ∃ b t', y t = (.ok b, t') ∧ Q a (x s).2 b t'
  | .error e => (∃ t', y t = (.error e, t')) ∨ E e (y t).2

section Rules

variable {E E' : ε → τ → Prop} {x : Fallible σ ε α} {y : Fallible τ ε β} {s : σ} {t : τ}
  {Q Q' : α → σ → β → τ → Prop} {P : γ → σ → δ → τ → Prop}

theorem Follows.ok (h : Follows E x s y t Q) {a : α} {s' : σ} (hx : x s = (.ok a, s')) :
    ∃ b t', y t = (.ok b, t') ∧ Q a s' b t' := by
  unfold Follows at h
  rwa [hx] at h

theorem Follows.error (h : Follows E x s y t Q) {e : ε} {s' : σ} (hx : x s = (.error e, s')) :
    (∃ t', y t = (.error e, t')) ∨ E e (y t).2 := by
  unfold Follows at h
  rwa [hx] at h

theorem follows_iff : Follows E x s y t Q ↔
    (∀ a s', x s = (.ok a, s') → ∃ b t', y t = (.ok b, t') ∧ Q a s' b t') ∧
      ∀ e s', x s = (.error e, s') → (∃ t', y t = (.error e, t')) ∨ E e (y t).2 := by
  constructor
  · exact fun h => ⟨fun _ _ => h.ok, fun _ _ => h.error⟩
  · rintro ⟨hok, herr⟩
    unfold Follows
    rcases hx : x s with ⟨e | a, s'⟩
    · exact herr e s' hx
    · exact hok a s' hx

/-- **When the run that is followed succeeds**, so does the other, unless it is excused. -/
theorem Follows.of_ok (h : Follows E x s y t Q) {b : β} {t' : τ} (hy : y t = (.ok b, t')) :
    (∃ a s', x s = (.ok a, s') ∧ Q a s' b t') ∨ ∃ e s', x s = (.error e, s') ∧ E e t' := by
  rcases hx : x s with ⟨e | a, s'⟩
  · right
    obtain ⟨t'', ht⟩ | hE := h.error hx
    · rw [hy] at ht
      cases ht
    · rw [hy] at hE
      exact ⟨e, s', rfl, hE⟩
  · left
    obtain ⟨b', t'', hb, hQ⟩ := h.ok hx
    rw [hy] at hb
    cases hb
    exact ⟨a, s', rfl, hQ⟩

theorem Follows.mono (h : Follows E x s y t Q) (hE : ∀ e t', E e t' → E' e t')
    (hQ : ∀ a s' b t', Q a s' b t' → Q' a s' b t') : Follows E' x s y t Q' := by
  rw [follows_iff] at h ⊢
  refine ⟨fun a s' hx => ?_, fun e s' hx => (h.2 e s' hx).imp_right (hE e _)⟩
  obtain ⟨b, t', hy, hq⟩ := h.1 a s' hx
  exact ⟨b, t', hy, hQ a s' b t' hq⟩

/-- A run that is alike needs no excuse. -/
theorem Alike.follows (h : Alike x s y t Q) : Follows E x s y t Q := by
  rw [follows_iff]
  rcases alike_iff.mp h with ⟨a, s', b, t', hx, hy, hq⟩ | ⟨e, s', t', hx, hy⟩
  · refine ⟨fun a₁ s₁ h₁ => ?_, fun e₁ s₁ h₁ => ?_⟩ <;> rw [hx] at h₁ <;> cases h₁
    exact ⟨b, t', hy, hq⟩
  · refine ⟨fun a₁ s₁ h₁ => ?_, fun e₁ s₁ h₁ => ?_⟩ <;> rw [hx] at h₁ <;> cases h₁
    exact Or.inl ⟨t', hy⟩

/-- **The rule of sequences.** What excuses a fault of the first half is to outlast the second
half of the run that is followed. -/
theorem Follows.bind {f : α → Fallible σ ε γ} {g : β → Fallible τ ε δ} (h : Follows E x s y t Q)
    (hE : ∀ e b, Keeps (E e) (g b))
    (hf : ∀ a s' b t', Q a s' b t' → Follows E (f a) s' (g b) t' P) :
    Follows E (x >>= f) s (y >>= g) t P := by
  rcases hx : x s with ⟨e | a, s'⟩
  · rw [follows_iff, bind_of_error hx]
    refine ⟨nofun, fun e₁ s₁ h₁ => ?_⟩
    cases h₁
    obtain ⟨t', hy⟩ | hexc := h.error hx
    · exact Or.inl ⟨t', bind_of_error hy⟩
    · right
      rcases hy : y t with ⟨e' | b, t'⟩
      · rw [hy] at hexc
        rwa [bind_of_error hy]
      · rw [hy] at hexc
        rw [bind_of_ok hy]
        exact hE e b t' hexc
  · obtain ⟨b, t', hy, hq⟩ := h.ok hx
    have hnext := hf a s' b t' hq
    unfold Follows at hnext ⊢
    rwa [bind_of_ok hx, bind_of_ok hy]

/-- A first half that needs no excuse. -/
theorem Alike.follows_bind {f : α → Fallible σ ε γ} {g : β → Fallible τ ε δ}
    (h : Alike x s y t Q) (hf : ∀ a s' b t', Q a s' b t' → Follows E (f a) s' (g b) t' P) :
    Follows E (x >>= f) s (y >>= g) t P := by
  rcases alike_iff.mp h with ⟨a, s', b, t', hx, hy, hq⟩ | ⟨e, s', t', hx, hy⟩
  · have hnext := hf a s' b t' hq
    unfold Follows at hnext ⊢
    rwa [bind_of_ok hx, bind_of_ok hy]
  · exact (alike_error (Q := P) (bind_of_error hx) (bind_of_error hy)).follows

theorem follows_gets_bind {α' β' : Type} (p : σ → α') (q : τ → β') (f : α' → Fallible σ ε γ)
    (g : β' → Fallible τ ε δ) :
    Follows E (gets p >>= f) s (gets q >>= g) t P ↔ Follows E (f (p s)) s (g (q t)) t P := Iff.rfl

theorem follows_modify_bind (p : σ → σ) (q : τ → τ) (f : Unit → Fallible σ ε γ)
    (g : Unit → Fallible τ ε δ) :
    Follows E (modify p >>= f) s (modify q >>= g) t P ↔
      Follows E (f ()) (p s) (g ()) (q t) P := Iff.rfl

/-- A computation without state in front of both runs. -/
theorem follows_liftM_bind {α' : Type} (z : Except ε α') {f : α' → Fallible σ ε γ}
    {g : α' → Fallible τ ε δ} (h : ∀ a, z = .ok a → Follows E (f a) s (g a) t P) :
    Follows E ((liftM z : Fallible σ ε α') >>= f) s ((liftM z : Fallible τ ε α') >>= g) t P :=
  (alike_liftM (Q := fun a s' b t' => z = .ok a ∧ a = b ∧ s' = s ∧ t' = t) z
    fun _ ha => ⟨ha, rfl, rfl, rfl⟩).follows_bind <| by
      rintro a _ _ _ ⟨ha, rfl, rfl, rfl⟩
      exact h a ha

/-- **The rule of parts of the state.** -/
theorem follows_focus (get : σ → σ') (put : σ' → σ → σ) (get' : τ → τ') (put' : τ' → τ → τ)
    (x : Fallible σ' ε α) (y : Fallible τ' ε β) :
    Follows E (focus get put x) s (focus get' put' y) t Q ↔
      Follows (fun e v => E e (put' v t)) x (get s) y (get' t)
        fun a u b v => Q a (put u s) b (put' v t) := by
  unfold Follows
  rw [focus_apply, focus_apply]
  rcases x (get s) with ⟨_ | a, u⟩ <;> rcases y (get' t) with ⟨_ | b, v⟩ <;> simp

end Rules

end Fallible
