import RasenArchive.Library.Fallible

/-!
# Errors, panics and checked arithmetic

The error values of the library, and the ways in which a call can end other than with a value: an
error value, or a panic. Every index, slice, unchecked subtraction, addition and division of the
source is an operation here that panics where the source would, so that the absence of panics is a
theorem.

`u16`, `u32` and `u64` fields are `UInt16`, `UInt32` and `UInt64`; local variables of these types
are natural numbers with the checks the source makes on them. A `usize` has 64 bits, and
allocation is taken to succeed.

## Main definitions

* `Error`, `Panic`, `Fault`, `Result`
* `ensure c e`: the check `(c).then_some(()).ok_or(e)`
* `checkedAdd w a b`, `checkedMul w a b`: addition and multiplication of `w`-bit numbers
* `sub`, `div`, `index`, `slice`: the operations that panic
* `Safe`, `RunsSafe`: a result, and a computation from any state, that is no panic
-/

namespace RasenArchive

/-- Bytes in memory or on disk. -/
abbrev Bytes : Type := List UInt8

/-- The kinds of `std::io::Error` the library and the packer look at. -/
inductive IoErrorKind where
  | unexpectedEof
  | interrupted
  | notFound
  | alreadyExists
  | invalidInput
  | other
  deriving DecidableEq, Repr

/-- `std::io::Error`. -/
structure IoError where
  kind : IoErrorKind
  message : String
  deriving DecidableEq, Repr

/-- The error values of the library. -/
inductive Error where
  | io (error : IoError)
  | badMagic
  | badTocMagic
  | unsupportedVersion (version : UInt16)
  | unsupportedFlags (flags : UInt16)
  | unsupportedHeaderSize (size : UInt32)
  | emptyXorKey
  | crypto (what : String)
  | incompletePack
  | nonEmptyDestination
  | invalidPath
  | invalidChunkSize
  | invalidAlignment
  | invalidRange
  | bufferSizeMismatch (expected actual : ℕ)
  | chunkOutOfRange (chunk count : ℕ)
  | duplicatePath (path : String)
  | assetTooLarge
  | archiveTooLarge
  | tooManyEntries
  | tooManyChunks
  | metadataLimitExceeded
  | corrupt (what : String)
  | tooLarge (what : String)
  | lz4 (message : String)
  | notFound (path : String)
  | hashCollision (hash : UInt64)
  | checksumMismatch (path : String) (chunk : ℕ)
  deriving DecidableEq, Repr

/-- The panics that unchecked operations end in. -/
inductive Panic where
  | indexOutOfBounds
  | sliceOutOfBounds
  | arithmeticOverflow
  | divisionByZero
  | copyLengthMismatch
  | unwrap
  deriving DecidableEq, Repr

/-- How a call ends when it returns no value. -/
inductive Fault where
  | error (e : Error)
  | panic (p : Panic)
  deriving DecidableEq, Repr

abbrev Result (α : Type) : Type := Except Fault α

/-- Return the error `e`. -/
def failWith {α : Type} (e : Error) : Result α := .error (.error e)

/-- `(c).then_some(()).ok_or(e)?`. -/
def ensure (c : Prop) [Decidable c] (e : Error) : Result Unit :=
  if c then .ok () else failWith e

/-- `option.ok_or(e)?`. -/
def okOr {α : Type} (x : Option α) (e : Error) : Result α :=
  match x with
  | some a => .ok a
  | none => failWith e

/-- `checked_add` on `w`-bit numbers. -/
def checkedAdd (w a b : ℕ) : Option ℕ := if a + b < 2 ^ w then some (a + b) else none

/-- `checked_mul` on `w`-bit numbers. -/
def checkedMul (w a b : ℕ) : Option ℕ := if a * b < 2 ^ w then some (a * b) else none

/-- `checked_sub`. -/
def checkedSub (a b : ℕ) : Option ℕ := if b ≤ a then some (a - b) else none

/-- `uN::try_from(n)` for a type of `w` bits. -/
def tryFrom (w n : ℕ) : Option ℕ := if n < 2 ^ w then some n else none

/-- `a + b` on `usize`, which panics when it overflows. -/
def add (a b : ℕ) : Result ℕ :=
  if a + b < 2 ^ 64 then .ok (a + b) else .error (.panic .arithmeticOverflow)

/-- `a - b`, which panics when it underflows. -/
def sub (a b : ℕ) : Result ℕ :=
  if b ≤ a then .ok (a - b) else .error (.panic .arithmeticOverflow)

/-- `a / b`, which panics when `b` is zero. -/
def div (a b : ℕ) : Result ℕ :=
  if b = 0 then .error (.panic .divisionByZero) else .ok (a / b)

/-- `a % b`, which panics when `b` is zero. -/
def rem (a b : ℕ) : Result ℕ :=
  if b = 0 then .error (.panic .divisionByZero) else .ok (a % b)

/-- `xs[i]`, which panics when `i` is out of bounds. -/
def index {α : Type} (xs : List α) (i : ℕ) : Result α :=
  match xs[i]? with
  | some x => .ok x
  | none => .error (.panic .indexOutOfBounds)

/-- `xs.get(start..stop)`. -/
def getRange {α : Type} (xs : List α) (start stop : ℕ) : Option (List α) :=
  if start ≤ stop ∧ stop ≤ xs.length then some (xs.extract start stop) else none

/-- `&xs[start..stop]`, which panics when the range is out of bounds. -/
def slice {α : Type} (xs : List α) (start stop : ℕ) : Result (List α) :=
  match getRange xs start stop with
  | some ys => .ok ys
  | none => .error (.panic .sliceOutOfBounds)

/-- `usize_to_u32`. -/
def usizeToU32 (v : ℕ) (what : String) : Result ℕ := okOr (tryFrom 32 v) (.tooLarge what)

/-- `usize_to_u64`. -/
def usizeToU64 (v : ℕ) (what : String) : Result ℕ := okOr (tryFrom 64 v) (.tooLarge what)

/-- `u64_to_usize`. -/
def u64ToUsize (v : ℕ) (what : String) : Result ℕ := okOr (tryFrom 64 v) (.tooLarge what)

/-! ## What a success says -/

section Lemmas

variable {α β : Type} {e : Error} {a b c w n : ℕ}

@[simp] theorem failWith_ne_ok {x : α} : (failWith e : Result α) = .ok x ↔ False := by
  simp [failWith]

/-- **A sequence succeeds** exactly when both of its halves do. -/
theorem bind_eq_ok {x : Result α} {f : α → Result β} {y : β} :
    (x >>= f) = .ok y ↔ ∃ a, x = .ok a ∧ f a = .ok y := by
  cases x <;> simp [bind, Except.bind]

@[simp] theorem ok_bind (x : α) (f : α → Result β) : ((.ok x : Result α) >>= f) = f x := rfl

@[simp] theorem error_bind (e : Fault) (f : α → Result β) :
    ((.error e : Result α) >>= f) = .error e := rfl

@[simp] theorem pure_eq_ok_iff {x y : α} : (pure x : Result α) = .ok y ↔ x = y := by
  simp [pure, Except.pure]

@[simp] theorem ensure_eq_ok_iff {p : Prop} [Decidable p] {u : Unit} :
    ensure p e = .ok u ↔ p := by
  unfold ensure
  split <;> simp_all

theorem ensure_of {p : Prop} [Decidable p] (h : p) : ensure p e = .ok () := by
  simp [h]

theorem ensure_eq_error_iff {p : Prop} [Decidable p] {f : Fault} :
    ensure p e = .error f ↔ ¬ p ∧ f = .error e := by
  unfold ensure failWith
  split <;> simp_all [eq_comm]

@[simp] theorem okOr_eq_ok_iff {x : Option α} {y : α} : okOr x e = .ok y ↔ x = some y := by
  cases x <;> simp [okOr]

theorem okOr_eq_error_iff {x : Option α} {f : Fault} :
    okOr x e = .error f ↔ x = none ∧ f = .error e := by
  cases x <;> simp [okOr, failWith, eq_comm]

@[simp] theorem checkedAdd_eq_some_iff : checkedAdd w a b = some c ↔ a + b < 2 ^ w ∧ a + b = c := by
  unfold checkedAdd
  split <;> simp_all

@[simp] theorem checkedMul_eq_some_iff : checkedMul w a b = some c ↔ a * b < 2 ^ w ∧ a * b = c := by
  unfold checkedMul
  split <;> simp_all

@[simp] theorem checkedSub_eq_some_iff : checkedSub a b = some c ↔ b ≤ a ∧ a - b = c := by
  unfold checkedSub
  split <;> simp_all

@[simp] theorem tryFrom_eq_some_iff : tryFrom w n = some c ↔ n < 2 ^ w ∧ n = c := by
  unfold tryFrom
  split <;> simp_all

@[simp] theorem usizeToU32_eq_ok_iff {what : String} :
    usizeToU32 n what = .ok c ↔ n < 2 ^ 32 ∧ n = c := by
  simp [usizeToU32]

@[simp] theorem usizeToU64_eq_ok_iff {what : String} :
    usizeToU64 n what = .ok c ↔ n < 2 ^ 64 ∧ n = c := by
  simp [usizeToU64]

@[simp] theorem u64ToUsize_eq_ok_iff {what : String} :
    u64ToUsize n what = .ok c ↔ n < 2 ^ 64 ∧ n = c := by
  simp [u64ToUsize]

@[simp] theorem getRange_eq_some_iff {xs ys : List α} :
    getRange xs a b = some ys ↔ (a ≤ b ∧ b ≤ xs.length) ∧ xs.extract a b = ys := by
  unfold getRange
  split <;> simp_all

@[simp] theorem index_eq_ok_iff {xs : List α} {x : α} : index xs n = .ok x ↔ xs[n]? = some x := by
  unfold index
  split <;> simp_all

theorem slice_eq_ok_iff {xs ys : List α} :
    slice xs a b = .ok ys ↔ (a ≤ b ∧ b ≤ xs.length) ∧ xs.extract a b = ys := by
  unfold slice
  split
  · simp_all
  · rename_i h
    simp only [reduceCtorEq, false_iff, not_and]
    intro hb he
    have : getRange xs a b = some ys := getRange_eq_some_iff.mpr ⟨hb, he⟩
    simp [h] at this

theorem sub_of_le (h : b ≤ a) : sub a b = .ok (a - b) := if_pos h

theorem div_of_pos (h : 0 < b) : div a b = .ok (a / b) := if_neg (by omega)

theorem rem_of_pos (h : 0 < b) : rem a b = .ok (a % b) := if_neg (by omega)

theorem add_of_lt (h : a + b < 2 ^ 64) : add a b = .ok (a + b) := if_pos h

theorem index_of_lt {xs : List α} (h : n < xs.length) : index xs n = .ok xs[n] := by
  simp [h]

theorem slice_of_le {xs : List α} (h : a ≤ b) (hb : b ≤ xs.length) :
    slice xs a b = .ok (xs.extract a b) := slice_eq_ok_iff.mpr ⟨⟨h, hb⟩, rfl⟩

end Lemmas

/-! ## Absence of panics -/

/-- The result is not a panic. -/
def Safe {α : Type} (x : Result α) : Prop := ∀ p, x ≠ .error (.panic p)

/-- The computation does not panic, from any state. -/
def RunsSafe {σ α : Type} (x : Fallible σ Fault α) : Prop := ∀ s, Safe (x s).1

section Safe

variable {σ α β : Type} {e : Error}

@[simp] theorem safe_ok (a : α) : Safe (.ok a : Result α) := by simp [Safe]

@[simp] theorem safe_pure (a : α) : Safe (pure a : Result α) := safe_ok a

@[simp] theorem safe_failWith : Safe (failWith e : Result α) := by simp [Safe, failWith]

@[simp] theorem safe_ensure (p : Prop) [Decidable p] : Safe (ensure p e) := by
  unfold ensure
  split <;> simp

@[simp] theorem safe_okOr (x : Option α) : Safe (okOr x e) := by
  cases x <;> simp [okOr]

@[simp] theorem safe_u64ToUsize (n : ℕ) (what : String) : Safe (u64ToUsize n what) := safe_okOr _

/-- **A sequence does not panic** when its first half does not, and its second half does not after
a success. -/
theorem Safe.bind {x : Result α} {f : α → Result β} (hx : Safe x)
    (hf : ∀ a, x = .ok a → Safe (f a)) : Safe (x >>= f) := by
  cases x with
  | ok a => exact hf a rfl
  | error f => exact fun p h => hx p (by simpa using h)

theorem RunsSafe.pure (a : α) : RunsSafe (pure a : Fallible σ Fault α) := fun _ => safe_ok a

theorem RunsSafe.liftM {x : Result α} (h : Safe x) :
    RunsSafe (liftM x : Fallible σ Fault α) := fun _ => h

theorem RunsSafe.gets (f : σ → α) : RunsSafe (Fallible.gets f : Fallible σ Fault α) :=
  fun _ => safe_ok _

theorem RunsSafe.modify (f : σ → σ) : RunsSafe (Fallible.modify f : Fallible σ Fault Unit) :=
  fun _ => safe_ok _

theorem RunsSafe.bind {x : Fallible σ Fault α} {f : α → Fallible σ Fault β} (hx : RunsSafe x)
    (hf : ∀ a, RunsSafe (f a)) : RunsSafe (x >>= f) := by
  intro s
  have h := hx s
  rw [Fallible.bind_apply]
  rcases hs : x s with ⟨f' | a, s'⟩
  · rw [hs] at h
    exact fun p hp => h p (by simpa using hp)
  · exact hf a s'

end Safe

end RasenArchive
