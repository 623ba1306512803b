import RasenArchive.Dependencies
import RasenArchive.Library.LittleEndian

/-!
# Protection and compression of blocks

The XOR layer, the AEAD blocks `nonce ‖ ciphertext ‖ tag` with their associated data, and exact
decompression.

## Main definitions

* `xorInPlace`: the XOR layer
* `deriveKey`, `chunkAad`, `tocAad`, `encrypt`, `decrypt`: the AEAD layer
* `Entropy`: the random source, with a record of the calls of `encrypt`
* `decompressIntoExact`, `decompressBlockExact`: decompression to an expected length
* `decompressExact`: their result as a function

## Main results

* `xorInPlace_eq`, `xorBytes_xorBytes`: the XOR layer never panics and is its own inverse
* `encrypt_eq_ok_iff`, `decrypt_block`: what encryption stores, and that decryption undoes it
* `decompressIntoExact_eq`: exact decompression does not depend on what its buffer held
-/

namespace RasenArchive

variable (D : Dependencies)

/-! ## XOR -/

/-- `xor_in_place`. -/
def xorInPlace (data key : Bytes) : Result Bytes :=
  data.zipIdx.mapM fun (byte, i) => do
    let j ← rem i key.length
    let k ← index key j
    pure (byte ^^^ k)

/-- The data with the repeated key added. -/
def xorBytes (data key : Bytes) : Bytes :=
  data.mapIdx fun i byte => byte ^^^ key.getD (i % key.length) 0

@[simp] theorem length_xorBytes (data key : Bytes) :
    (xorBytes data key).length = data.length := by
  simp [xorBytes]

/-- **The XOR layer is its own inverse.** -/
theorem xorBytes_xorBytes (data key : Bytes) : xorBytes (xorBytes data key) key = data := by
  apply List.ext_getElem
  · simp
  · intro i h₁ h₂
    simp [xorBytes]

/-- **The XOR layer** never panics under a key that is not empty. -/
theorem xorInPlace_eq (data : Bytes) {key : Bytes} (hk : key ≠ []) :
    xorInPlace data key = .ok (xorBytes data key) := by
  have hpos : 0 < key.length := List.length_pos_iff.mpr hk
  have hstep : ∀ p : UInt8 × ℕ, (do
      let j ← rem p.2 key.length
      let k ← index key j
      pure (p.1 ^^^ k) : Result UInt8) = .ok (p.1 ^^^ key.getD (p.2 % key.length) 0) := by
    intro p
    have hlt : p.2 % key.length < key.length := Nat.mod_lt _ hpos
    rw [rem_of_pos hpos, ok_bind, index_of_lt hlt, ok_bind]
    simp [List.getD_eq_getElem?_getD, hlt]
  have hmap : ∀ l : List (UInt8 × ℕ), l.mapM (fun (p : UInt8 × ℕ) => (do
      let j ← rem p.2 key.length
      let k ← index key j
      pure (p.1 ^^^ k) : Result UInt8)) =
      .ok (l.map fun p => p.1 ^^^ key.getD (p.2 % key.length) 0) := by
    intro l
    induction l with
    | nil => rfl
    | cons p l ih =>
      rw [List.mapM_cons, hstep, ok_bind, ih]
      rfl
  rw [xorInPlace, hmap, xorBytes, List.mapIdx_eq_zipIdx_map]

/-! ## AEAD -/

/-- `AEAD_OVERHEAD`. -/
def aeadOverhead : ℕ := 24 + 16

/-- `TOC_AAD`. -/
def tocAad : Bytes := asBytes "RPAK-TOC-v1"

/-- `KEY_CONTEXT`. -/
def keyContext : String := "rasen-archive XChaCha20-Poly1305 key v1"

/-- `derive_key`. -/
def deriveKey (keyMaterial : Bytes) : Bytes := D.blake3DeriveKey keyContext keyMaterial

/-- `chunk_aad`. -/
def chunkAad (i : ℕ) : Bytes := asBytes "RPAK-CHN" ++ LittleEndian.encode 4 i

theorem length_tocAad : tocAad.length = 11 := by decide

theorem length_chunkAad (i : ℕ) : (chunkAad i).length = 12 := by
  rw [chunkAad, List.length_append, LittleEndian.length_encode]
  rfl

theorem chunkAad_ne_tocAad (i : ℕ) : chunkAad i ≠ tocAad := by
  intro h
  have := congrArg List.length h
  rw [length_chunkAad, length_tocAad] at this
  omega

theorem chunkAad_injective {i j : ℕ} (hi : i < 2 ^ 32) (hj : j < 2 ^ 32)
    (h : chunkAad i = chunkAad j) : i = j :=
  LittleEndian.encode_injective (w := 4) (by omega) (by omega) (List.append_cancel_left h)

/-- One call of `encrypt` that returned a block. -/
structure SealedBlock where
  plain : Bytes
  aad : Bytes
  block : Bytes
  deriving DecidableEq

/-- The random source of the operating system. The list of the calls of `encrypt` is a record for
statements about them; the program does not keep it. -/
structure Entropy where
  /-- the answer of `getrandom::fill` to the call of this number -/
  fill : ℕ → Option Nonce
  drawn : ℕ
  calls : List SealedBlock

/-- `encrypt`. -/
def encrypt (plain key aad : Bytes) : Fallible Entropy Fault Bytes := do
  let entropy ← Fallible.gets id
  Fallible.modify fun e => { e with drawn := e.drawn + 1 }
  let nonce ← okOr (entropy.fill entropy.drawn) (.crypto "nonce generation failed")
  let ciphertext ← okOr (D.aeadEncrypt key nonce plain aad) (.crypto "encryption failed")
  let stored := nonce.1 ++ ciphertext
  Fallible.modify fun e => { e with calls := e.calls ++ [⟨plain, aad, stored⟩] }
  pure stored

/-- `decrypt`. -/
def decrypt (stored key aad : Bytes) : Result Bytes :=
  if stored.length < 24 ∨ (stored.drop 24).length < 16 then
    failWith (.crypto "encrypted block is truncated")
  else if h : (stored.take 24).length = 24 then
    okOr (D.aeadDecrypt key ⟨stored.take 24, h⟩ (stored.drop 24) aad)
      (.crypto "authentication failed")
  else
    .error (.panic .unwrap)

/-- **Encryption** draws a nonce, stores it in front of the ciphertext and records the call. -/
theorem encrypt_eq_ok_iff {plain key aad block : Bytes} {s s' : Entropy} :
    encrypt D plain key aad s = (.ok block, s') ↔
      ∃ nonce ciphertext, s.fill s.drawn = some nonce ∧
        D.aeadEncrypt key nonce plain aad = some ciphertext ∧ block = nonce.1 ++ ciphertext ∧
        s' = { s with drawn := s.drawn + 1, calls := s.calls ++ [⟨plain, aad, block⟩] } := by
  simp only [encrypt, Fallible.gets_bind_apply, id, Fallible.modify_bind_apply]
  constructor
  · intro h
    obtain ⟨nonce, s₁, h₁, h⟩ := Fallible.bind_eq_ok.mp h
    obtain ⟨hn, rfl⟩ := Fallible.liftM_eq_ok.mp h₁
    obtain ⟨ciphertext, s₂, h₂, h⟩ := Fallible.bind_eq_ok.mp h
    obtain ⟨hc, rfl⟩ := Fallible.liftM_eq_ok.mp h₂
    cases h
    exact ⟨nonce, ciphertext, okOr_eq_ok_iff.mp hn, okOr_eq_ok_iff.mp hc, rfl, rfl⟩
  · rintro ⟨nonce, ciphertext, h₁, h₂, rfl, rfl⟩
    refine Fallible.bind_eq_ok.mpr ⟨nonce, _, Fallible.liftM_eq_ok.mpr ⟨by simp [h₁], rfl⟩, ?_⟩
    exact Fallible.bind_eq_ok.mpr
      ⟨ciphertext, _, Fallible.liftM_eq_ok.mpr ⟨by simp [h₂], rfl⟩, rfl⟩

/-- Decryption never panics. -/
theorem decrypt_eq (stored key aad : Bytes) :
    (∃ plain, decrypt D stored key aad = .ok plain) ∨
      (∃ what, decrypt D stored key aad = .error (.error (.crypto what))) := by
  unfold decrypt
  split_ifs with h₁ h₂
  · exact Or.inr ⟨_, rfl⟩
  · cases D.aeadDecrypt key ⟨stored.take 24, h₂⟩ (stored.drop 24) aad with
    | none => exact Or.inr ⟨_, rfl⟩
    | some plain => exact Or.inl ⟨plain, rfl⟩
  · simp only [List.length_take, not_or, not_lt] at h₁ h₂
    omega

section Lawful

variable {D} (hA : D.AeadLawful) {plain key aad block : Bytes} {s s' : Entropy}

include hA

/-- **Decryption undoes encryption.** -/
theorem decrypt_block (h : encrypt D plain key aad s = (.ok block, s')) :
    decrypt D block key aad = .ok plain := by
  obtain ⟨nonce, ciphertext, -, hc, rfl, -⟩ := (encrypt_eq_ok_iff D).mp h
  have hlen := hA.encrypt_length hc
  have hn := nonce.2
  have htake : (nonce.1 ++ ciphertext).take 24 = nonce.1 := by
    rw [List.take_append_of_le_length (by omega), List.take_of_length_le (by omega)]
  have hdrop : (nonce.1 ++ ciphertext).drop 24 = ciphertext := by
    rw [List.drop_append, List.drop_eq_nil_of_le (by omega), List.nil_append, hn]
    simp
  unfold decrypt
  rw [if_neg (by simp only [hdrop, List.length_append]; omega),
    dif_pos (by rw [htake]; exact hn)]
  have hnonce : (⟨(nonce.1 ++ ciphertext).take 24, by rw [htake]; exact hn⟩ : Nonce) = nonce :=
    Subtype.ext htake
  rw [hnonce, hdrop, hA.decrypt_encrypt hc]
  rfl

end Lawful

/-! ## Decompression -/

/-- `decompress_into_exact`, on the output buffer as its state. -/
def decompressIntoExact (data : Bytes) (mismatch : String) : Fallible Bytes Fault Unit := do
  let output ← Fallible.gets id
  match D.decompressInto data output.length with
  | .error message =>
    Fallible.modify fun output => D.decompressResidue data output
    failWith (.lz4 message)
  | .ok decoded =>
    Fallible.modify fun output => decoded ++ output.drop decoded.length
    ensure (decoded.length = output.length) (.corrupt mismatch)

/-- `decompress_block_exact`. -/
def decompressBlockExact (data : Bytes) (originalLen : ℕ) (mismatch : String) : Result Bytes :=
  match decompressIntoExact D data mismatch (List.replicate originalLen 0) with
  | (.ok (), decoded) => .ok decoded
  | (.error e, _) => .error e

theorem decompressIntoExact_apply (data output : Bytes) (mismatch : String) :
    decompressIntoExact D data mismatch output =
      match D.decompressInto data output.length with
      | .error message => (.error (.error (.lz4 message)), D.decompressResidue data output)
      | .ok decoded =>
        if decoded.length = output.length then (.ok (), decoded)
        else (.error (.error (.corrupt mismatch)), decoded ++ output.drop decoded.length) := by
  simp only [decompressIntoExact, Fallible.gets_bind_apply, id]
  cases D.decompressInto data output.length with
  | error message => rfl
  | ok decoded =>
    simp only [Fallible.modify_bind_apply, Fallible.liftM_apply]
    by_cases h : decoded.length = output.length
    · simp [ensure, h]
    · simp [ensure, h, failWith]

/-- The result of exact decompression: it depends on the length of the output buffer only. -/
def decompressExact (data : Bytes) (length : ℕ) (mismatch : String) : Result Bytes :=
  match D.decompressInto data length with
  | .error message => failWith (.lz4 message)
  | .ok decoded => if decoded.length = length then .ok decoded else failWith (.corrupt mismatch)

theorem decompressExact_eq_ok_iff {data output : Bytes} {length : ℕ} {mismatch : String} :
    decompressExact D data length mismatch = .ok output ↔
      D.decompressInto data length = .ok output ∧ output.length = length := by
  unfold decompressExact
  cases D.decompressInto data length with
  | error message => simp
  | ok decoded =>
    by_cases h : decoded.length = length
    · simp only [h, if_true, Except.ok.injEq]
      exact ⟨fun he => ⟨he, he ▸ h⟩, fun he => he.1⟩
    · simp only [h, if_false, failWith_ne_ok, Except.ok.injEq, false_iff, not_and]
      rintro rfl
      exact h

/-- Exact decompression never panics. -/
theorem decompressExact_error {data : Bytes} {length : ℕ} {mismatch : String} {f : Fault}
    (h : decompressExact D data length mismatch = .error f) :
    (∃ message, f = .error (.lz4 message)) ∨ f = .error (.corrupt mismatch) := by
  unfold decompressExact at h
  split at h
  · cases h
    exact Or.inl ⟨_, rfl⟩
  · split_ifs at h
    cases h
    exact Or.inr rfl

/-- **Exact decompression** into a buffer: the answer and the bytes do not depend on what the
buffer held. -/
theorem decompressIntoExact_eq (data output : Bytes) (mismatch : String) :
    (∃ decoded, decompressExact D data output.length mismatch = .ok decoded ∧
        decompressIntoExact D data mismatch output = (.ok (), decoded)) ∨
      (∃ f residue, decompressExact D data output.length mismatch = .error f ∧
        residue.length = output.length ∧
        decompressIntoExact D data mismatch output = (.error f, residue)) := by
  rw [decompressIntoExact_apply]
  unfold decompressExact
  cases hd : D.decompressInto data output.length with
  | error message =>
    exact Or.inr ⟨_, _, rfl, D.length_residue data output, rfl⟩
  | ok decoded =>
    have hle := D.decompress_le hd
    by_cases h : decoded.length = output.length
    · simp only [h, if_true]
      exact Or.inl ⟨decoded, rfl, rfl⟩
    · simp only [h, if_false]
      refine Or.inr ⟨_, _, rfl, ?_, rfl⟩
      simp only [List.length_append, List.length_drop]
      omega

theorem decompressBlockExact_eq (data : Bytes) (originalLen : ℕ) (mismatch : String) :
    decompressBlockExact D data originalLen mismatch =
      decompressExact D data originalLen mismatch := by
  unfold decompressBlockExact
  have h := decompressIntoExact_eq D data (List.replicate originalLen 0) mismatch
  rw [List.length_replicate] at h
  rcases h with ⟨decoded, he, hi⟩ | ⟨f, residue, he, -, hi⟩ <;> rw [he, hi]

end RasenArchive
