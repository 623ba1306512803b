import Mathlib

/-!
# Computations that keep their state when they fail

A program that works on buffers and on a device leaves both behind when it stops with a fault.
`Fallible σ ε α` is such a program over the state `σ`: it ends with a value or a fault, and with a
state in both cases.

## Main definitions

* `Fallible σ ε α`: the computations, with their monad structure
* `Fallible.focus get put x`: the computation `x` on a part of the state
* `Fallible.mapError f x`: the computation `x` with other faults
* `Fallible.Post x s Q E`: from `s`, `x` ends in `Q` when it succeeds and in `E` when it fails
* `Fallible.Settles P x r`: from every state in `P`, `x` ends with the result `r`

## Main results

* `Fallible.bind_eq_ok`: a sequence succeeds when both of its halves do
* `Fallible.Post.bind`, `Fallible.Post.mono`: the rules of pre- and postconditions
-/

/-- A computation over the state `σ` that ends with a value or a fault, and keeps its state. -/
def Fallible (σ ε α : Type) : Type := σ → Except ε α × σ

namespace Fallible

variable {σ τ ε α β : Type}

instance : Monad (Fallible σ ε) where
  pure a := fun s => (.ok a, s)
  bind x f := fun s =>
    match x s with
    | (.ok a, s') => f a s'
    | (.error e, s') => (.error e, s')

/-- A computation without state, run in front of any state. -/
def lift (x : Except ε α) : Fallible σ ε α := fun s => (x, s)

instance : MonadLift (Except ε) (Fallible σ ε) := ⟨lift⟩

/-- Stop with the fault `e`. -/
def fail (e : ε) : Fallible σ ε α := fun s => (.error e, s)

/-- The part `f` of the current state. -/
def gets (f : σ → α) : Fallible σ ε α := fun s => (.ok (f s), s)

/-- Change the state by `f`. -/
def modify (f : σ → σ) : Fallible σ ε Unit := fun s => (.ok (), f s)

/-- The computation `x` on the part of the state that `get` reads and `put` writes back. The part
is written back after a fault too. -/
def focus (get : σ → τ) (put : τ → σ → σ) (x : Fallible τ ε α) : Fallible σ ε α := fun s =>
  ((x (get s)).1, put (x (get s)).2 s)

@[simp] theorem pure_apply (a : α) (s : σ) : (pure a : Fallible σ ε α) s = (.ok a, s) := rfl

theorem bind_apply (x : Fallible σ ε α) (f : α → Fallible σ ε β) (s : σ) :
    (x >>= f) s = match x s with
      | (.ok a, s') => f a s'
      | (.error e, s') => (.error e, s') := rfl

@[simp] theorem lift_apply (x : Except ε α) (s : σ) : (lift x : Fallible σ ε α) s = (x, s) := rfl

@[simp] theorem liftM_apply (x : Except ε α) (s : σ) :
    (liftM x : Fallible σ ε α) s = (x, s) := rfl

@[simp] theorem fail_apply (e : ε) (s : σ) : (fail e : Fallible σ ε α) s = (.error e, s) := rfl

@[simp] theorem gets_apply (f : σ → α) (s : σ) :
    (gets f : Fallible σ ε α) s = (.ok (f s), s) := rfl

@[simp] theorem modify_apply (f : σ → σ) (s : σ) :
    (modify f : Fallible σ ε Unit) s = (.ok (), f s) := rfl

theorem focus_apply (get : σ → τ) (put : τ → σ → σ) (x : Fallible τ ε α) (s : σ) :
    focus get put x s = ((x (get s)).1, put (x (get s)).2 s) := rfl

theorem bind_of_ok {x : Fallible σ ε α} {f : α → Fallible σ ε β} {s s₁ : σ} {a : α}
    (h : x s = (.ok a, s₁)) : (x >>= f) s = f a s₁ := by
  rw [bind_apply, h]

theorem bind_of_error {x : Fallible σ ε α} {f : α → Fallible σ ε β} {s s₁ : σ} {e : ε}
    (h : x s = (.error e, s₁)) : (x >>= f) s = (.error e, s₁) := by
  rw [bind_apply, h]

/-- Checks behind a computation keep the state that it leaves. -/
theorem snd_bind_of_checks {x : Fallible σ ε α} {f : α → Fallible σ ε β}
    (h : ∀ a t, (f a t).2 = t) (s : σ) : ((x >>= f) s).2 = (x s).2 := by
  rcases hx : x s with ⟨e | a, t⟩
  · rw [bind_of_error hx]
  · rw [bind_of_ok hx, h]

@[simp] theorem gets_bind_apply (f : σ → α) (k : α → Fallible σ ε β) (s : σ) :
    (gets f >>= k) s = k (f s) s := rfl

@[simp] theorem modify_bind_apply (f : σ → σ) (k : Unit → Fallible σ ε β) (s : σ) :
    (modify f >>= k) s = k () (f s) := rfl

@[simp] theorem fail_bind_apply (e : ε) (k : α → Fallible σ ε β) (s : σ) :
    (fail e >>= k) s = (.error e, s) := rfl

theorem liftM_bind_of_ok {x : Except ε α} {a : α} (h : x = .ok a) (k : α → Fallible σ ε β)
    (s : σ) : ((liftM x : Fallible σ ε α) >>= k) s = k a s := by
  rw [h]
  rfl

theorem liftM_bind_of_error {x : Except ε α} {e : ε} (h : x = .error e)
    (k : α → Fallible σ ε β) (s : σ) :
    ((liftM x : Fallible σ ε α) >>= k) s = (.error e, s) := by
  rw [h]
  rfl

instance : LawfulMonad (Fallible σ ε) := LawfulMonad.mk' _
  (fun x => by
    funext s
    show (x >>= fun a => pure (id a)) s = x s
    rw [bind_apply]
    rcases x s with ⟨_ | a, s'⟩ <;> rfl)
  (fun a f => rfl)
  (fun x f g => by
    funext s
    simp only [bind_apply]
    rcases x s with ⟨_ | a, s'⟩ <;> rfl)

/-- **A sequence succeeds** exactly when its first half succeeds, and the second half does from
there. -/
theorem bind_eq_ok {x : Fallible σ ε α} {f : α → Fallible σ ε β} {s s' : σ} {b : β} :
    (x >>= f) s = (.ok b, s') ↔ ∃ a s₁, x s = (.ok a, s₁) ∧ f a s₁ = (.ok b, s') := by
  rw [bind_apply]
  rcases h : x s with ⟨_ | a, s₁⟩
  · simp
  · constructor
    · exact fun hf => ⟨a, s₁, rfl, hf⟩
    · rintro ⟨a', s₁', he, hf⟩
      cases he
      exact hf

theorem lift_eq_ok {x : Except ε α} {s s' : σ} {a : α} :
    (lift x : Fallible σ ε α) s = (.ok a, s') ↔ x = .ok a ∧ s = s' := by
  simp [lift]

theorem liftM_eq_ok {x : Except ε α} {s s' : σ} {a : α} :
    (liftM x : Fallible σ ε α) s = (.ok a, s') ↔ x = .ok a ∧ s = s' := lift_eq_ok

/-! ## Postconditions -/

/-- From the state `s`, the computation `x` ends in `Q` when it succeeds and in `E` when it
fails. -/
def Post (x : Fallible σ ε α) (s : σ) (Q : α → σ → Prop) (E : ε → σ → Prop) : Prop :=
  match x s with
  | (.ok a, s') => Q a s'
  | (.error e, s') => E e s'

section Post

variable {x : Fallible σ ε α} {s : σ} {Q Q' : α → σ → Prop} {E E' : ε → σ → Prop}

theorem Post.of_ok (h : Post x s Q E) {a : α} {s' : σ} (hx : x s = (.ok a, s')) : Q a s' := by
  simpa [Post, hx] using h

theorem Post.of_error (h : Post x s Q E) {e : ε} {s' : σ} (hx : x s = (.error e, s')) :
    E e s' := by
  simpa [Post, hx] using h

theorem post_iff : Post x s Q E ↔
    (∀ a s', x s = (.ok a, s') → Q a s') ∧ (∀ e s', x s = (.error e, s') → E e s') := by
  constructor
  · exact fun h => ⟨fun _ _ => h.of_ok, fun _ _ => h.of_error⟩
  · intro h
    unfold Post
    split
    · exact h.1 _ _ ‹_›
    · exact h.2 _ _ ‹_›

/-- **The consequence rule.** -/
theorem Post.mono (h : Post x s Q E) (hQ : ∀ a s', Q a s' → Q' a s')
    (hE : ∀ e s', E e s' → E' e s') : Post x s Q' E' := by
  rw [post_iff] at h ⊢
  exact ⟨fun a s' hx => hQ a s' (h.1 a s' hx), fun e s' hx => hE e s' (h.2 e s' hx)⟩

theorem post_congr {y : Fallible σ ε α} (h : x s = y s) : Post x s Q E ↔ Post y s Q E := by
  unfold Post
  rw [h]

@[simp] theorem post_pure (a : α) : Post (pure a) s Q E ↔ Q a s := Iff.rfl

@[simp] theorem post_gets (f : σ → α) : Post (gets f) s Q E ↔ Q (f s) s := Iff.rfl

@[simp] theorem post_modify (f : σ → σ) {Q : Unit → σ → Prop} :
    Post (modify f) s Q E ↔ Q () (f s) := Iff.rfl

theorem post_lift (y : Except ε α) :
    Post (lift y) s Q E ↔ (∀ a, y = .ok a → Q a s) ∧ (∀ e, y = .error e → E e s) := by
  cases y <;> simp [Post]

theorem post_liftM (y : Except ε α) :
    Post (liftM y) s Q E ↔ (∀ a, y = .ok a → Q a s) ∧ (∀ e, y = .error e → E e s) :=
  post_lift y

/-- **The rule of sequences.** -/
theorem post_bind (f : α → Fallible σ ε β) {Q : β → σ → Prop} :
    Post (x >>= f) s Q E ↔ Post x s (fun a s' => Post (f a) s' Q E) E := by
  unfold Post
  rw [bind_apply]
  rcases x s with ⟨_ | a, s'⟩ <;> rfl

theorem Post.bind {f : α → Fallible σ ε β} {R : β → σ → Prop} (h : Post x s Q E)
    (hf : ∀ a s', Q a s' → Post (f a) s' R E) : Post (x >>= f) s R E := by
  rw [post_bind]
  exact h.mono hf fun _ _ he => he

theorem post_focus (get : σ → τ) (put : τ → σ → σ) (y : Fallible τ ε α) :
    Post (focus get put y) s Q E ↔
      Post y (get s) (fun a t => Q a (put t s)) (fun e t => E e (put t s)) := by
  unfold Post
  rw [focus_apply]
  rcases y (get s) with ⟨_ | a, t⟩ <;> rfl

theorem post_liftM_bind (y : Except ε β) {f : β → Fallible σ ε α} :
    Post ((liftM y : Fallible σ ε β) >>= f) s Q E ↔
      (∀ b, y = .ok b → Post (f b) s Q E) ∧ (∀ e, y = .error e → E e s) := by
  rw [post_bind, post_liftM]

theorem post_liftM_bind_of_ok {y : Except ε β} {b : β} (hy : y = .ok b)
    {f : β → Fallible σ ε α} :
    Post ((liftM y : Fallible σ ε β) >>= f) s Q E ↔ Post (f b) s Q E := by
  unfold Post
  rw [liftM_bind_of_ok hy]

end Post

/-! ## Results that do not depend on the state -/

/-- From every state in `P`, the computation `x` ends with the result `r`, in a state in `P`. -/
def Settles (P : σ → Prop) (x : Fallible σ ε α) (r : Except ε α) : Prop :=
  ∀ s, P s → ∃ s', x s = (r, s') ∧ P s'

section Settles

variable {P : σ → Prop} {x : Fallible σ ε α} {r r' : Except ε α} {s s' : σ}

theorem Settles.eq_of_run (h : Settles P x r) (hs : P s) (hx : x s = (r', s')) : r = r' := by
  obtain ⟨t, hrun, -⟩ := h s hs
  rw [hx] at hrun
  exact (congrArg Prod.fst hrun).symm

theorem Settles.unique (h : Settles P x r) (h' : Settles P x r') (hs : P s) : r = r' := by
  obtain ⟨t, hrun, -⟩ := h' s hs
  exact h.eq_of_run hs hrun

/-- Where there is one state, this is about one run. -/
theorem settles_eq_iff : Settles (fun t => t = s) x r ↔ x s = (r, s) := by
  constructor
  · intro h
    obtain ⟨s', hrun, hs'⟩ := h s rfl
    rw [hrun, show s' = s from hs']
  · rintro hrun t rfl
    exact ⟨t, hrun, rfl⟩

end Settles

/-! ## Other faults -/

section MapError

variable {ε' : Type}

/-- The computation `x`, with `f` applied to its faults. -/
def mapError (f : ε → ε') (x : Fallible σ ε α) : Fallible σ ε' α := fun s =>
  ((x s).1.mapError f, (x s).2)

theorem mapError_of_ok {f : ε → ε'} {x : Fallible σ ε α} {s s' : σ} {a : α}
    (h : x s = (.ok a, s')) : mapError f x s = (.ok a, s') := by
  rw [mapError, h]
  rfl

theorem mapError_of_error {f : ε → ε'} {x : Fallible σ ε α} {s s' : σ} {e : ε}
    (h : x s = (.error e, s')) : mapError f x s = (.error (f e), s') := by
  rw [mapError, h]
  rfl

/-- Other faults in each part of a sequence. -/
theorem mapError_bind {f : ε → ε'} (x : Fallible σ ε α) (g : α → Fallible σ ε β) :
    mapError f (x >>= g) = mapError f x >>= fun a => mapError f (g a) := by
  funext s
  rcases hx : x s with ⟨e | a, t⟩
  · rw [bind_of_error (mapError_of_error hx), mapError, bind_of_error hx]
    rfl
  · rw [bind_of_ok (mapError_of_ok hx), mapError, bind_of_ok hx]
    rfl

theorem mapError_eq_ok_iff {f : ε → ε'} {x : Fallible σ ε α} {s s' : σ} {a : α} :
    mapError f x s = (.ok a, s') ↔ x s = (.ok a, s') := by
  rcases hx : x s with ⟨e | b, t⟩
  · rw [mapError_of_error hx]
    simp
  · rw [mapError_of_ok hx]
    simp

theorem post_mapError {f : ε → ε'} {x : Fallible σ ε α} {s : σ} {Q : α → σ → Prop}
    {E : ε' → σ → Prop} : Post (mapError f x) s Q E ↔ Post x s Q fun e s' => E (f e) s' := by
  unfold Post
  rcases hx : x s with ⟨e | a, t⟩
  · rw [mapError_of_error hx]
  · rw [mapError_of_ok hx]

end MapError

end Fallible
