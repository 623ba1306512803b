import RasenArchive.Format.Header

/-!
# The options of a packing run

## Main definitions

* `PackMode`, `Protection`, `PackOptions`: the options
* `PackOptions.validate`: their checks
-/

namespace RasenArchive

inductive PackMode where
  | debug
  | production
  deriving DecidableEq, Repr, Inhabited

inductive Protection where
  | xor
  | aead
  deriving DecidableEq, Repr, Inhabited

/-- `PackMode::strips_paths`. -/
def PackMode.stripsPaths : PackMode → Bool
  | .debug => false
  | .production => true

structure PackOptions where
  chunkSize : ℕ
  alignment : UInt32
  mode : PackMode
  protection : Protection
  deriving DecidableEq, Repr

/-- `PackOptions::default`. -/
def PackOptions.default : PackOptions where
  chunkSize := 64 * 1024
  alignment := 16
  mode := .debug
  protection := .xor

/-- `PackOptions::validate`. -/
def PackOptions.validate (options : PackOptions) : Result PackOptions := do
  validateChunkSize options.chunkSize
  validateAlignment options.alignment
  pure options

/-- The options that `validate` accepts. -/
structure PackOptions.Valid (options : PackOptions) : Prop where
  chunkSize_pos : 0 < options.chunkSize
  chunkSize_le : options.chunkSize ≤ maxChunkSize
  alignment_pow : options.alignment.toNat.isPowerOfTwo
  alignment_le : options.alignment.toNat ≤ maxAlignment

theorem PackOptions.validate_eq_ok_iff {options options' : PackOptions} :
    options.validate = .ok options' ↔ options.Valid ∧ options' = options := by
  simp only [PackOptions.validate, bind_eq_ok, validateChunkSize_eq_ok_iff,
    validateAlignment_eq_ok_iff, exists_const, pure_eq_ok_iff]
  constructor
  · rintro ⟨⟨h₁, h₂⟩, ⟨h₃, h₄⟩, rfl⟩
    exact ⟨⟨h₁, h₂, h₃, h₄⟩, rfl⟩
  · rintro ⟨h, rfl⟩
    exact ⟨⟨h.chunkSize_pos, h.chunkSize_le⟩, ⟨h.alignment_pow, h.alignment_le⟩, rfl⟩

/-- The default options are valid. -/
theorem PackOptions.default_valid : PackOptions.default.Valid := by
  refine ⟨by decide, by decide, by decide, by decide⟩

end RasenArchive
