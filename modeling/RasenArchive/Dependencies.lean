import RasenArchive.Path

/-!
# The code the library calls

XXH3, LZ4, BLAKE3, XChaCha20-Poly1305 and the unstable sort of the standard library are parameters
of the model. What the types of the source fix about them (a block fits the buffer it is written
to, a sort permutes) are fields; what else a result relies on is one of the named hypotheses below.

## Main definitions

* `Dependencies`: the functions
* `Dependencies.Lz4Lawful`: an LZ4 block decompresses to its one content
* `Dependencies.AeadLawful`: the length of a ciphertext, and decryption of what was encrypted
* `checksum`, `hashPath`, `AssetId.fromPath`: the uses of XXH3
-/

namespace RasenArchive

/-- The 24 bytes of an `XNonce`. -/
abbrev Nonce : Type := {b : Bytes // b.length = 24}

/-- The functions of other packages that the library calls. -/
structure Dependencies where
  /-- `xxhash_rust::xxh3::xxh3_64` -/
  xxh3 : Bytes → UInt64
  /-- `lz4_flex::block::get_maximum_output_size` -/
  getMaximumOutputSize : ℕ → ℕ
  /-- `lz4_flex::block::compress_into`: the block written to the front of a buffer of this size -/
  compressInto : Bytes → (capacity : ℕ) → Except String Bytes
  compress_le : ∀ {input capacity block},
    compressInto input capacity = .ok block → block.length ≤ capacity
  /-- `lz4_flex::block::decompress_into`: the bytes written to the front of a buffer of this size -/
  decompressInto : Bytes → (capacity : ℕ) → Except String Bytes
  decompress_le : ∀ {block capacity output},
    decompressInto block capacity = .ok output → output.length ≤ capacity
  /-- what a failed `decompress_into` leaves in its output buffer -/
  decompressResidue : Bytes → (output : Bytes) → Bytes
  length_residue : ∀ block output, (decompressResidue block output).length = output.length
  /-- `blake3::derive_key` -/
  blake3DeriveKey : String → Bytes → Bytes
  /-- `XChaCha20Poly1305::encrypt`, with key, nonce, message and associated data -/
  aeadEncrypt : Bytes → Nonce → Bytes → Bytes → Option Bytes
  /-- `XChaCha20Poly1305::decrypt`, with key, nonce, ciphertext and associated data -/
  aeadDecrypt : Bytes → Nonce → Bytes → Bytes → Option Bytes
  /-- `sort_unstable_by_key(|&(id, _)| id)` -/
  sortUnstableByKey : List (AssetId × ℕ) → List (AssetId × ℕ)
  sort_perm : ∀ l, (sortUnstableByKey l).Perm l
  sort_sorted : ∀ l, (sortUnstableByKey l).Pairwise fun a b => a.1 ≤ b.1

variable (D : Dependencies)

/-- **LZ4**: compression fits its output bound and writes a block, and the block decompresses to
its one content. -/
structure Dependencies.Lz4Lawful : Prop where
  compress_ok : ∀ input capacity, D.getMaximumOutputSize input.length ≤ capacity →
    ∃ block, D.compressInto input capacity = .ok block
  maximumOutputSize_mono : Monotone D.getMaximumOutputSize
  compress_ne_nil : ∀ {input capacity block},
    D.compressInto input capacity = .ok block → block ≠ []
  decompress_compress : ∀ {input capacity block}, D.compressInto input capacity = .ok block →
    D.decompressInto block input.length = .ok input
  decompress_unique : ∀ {input capacity block length output},
    D.compressInto input capacity = .ok block →
      D.decompressInto block length = .ok output → output = input

/-- **AEAD**: a ciphertext carries a tag of 16 bytes, and decrypts to what was encrypted. -/
structure Dependencies.AeadLawful : Prop where
  encrypt_length : ∀ {key nonce plain aad ciphertext},
    D.aeadEncrypt key nonce plain aad = some ciphertext → ciphertext.length = plain.length + 16
  decrypt_encrypt : ∀ {key nonce plain aad ciphertext},
    D.aeadEncrypt key nonce plain aad = some ciphertext →
      D.aeadDecrypt key nonce ciphertext aad = some plain

/-! ## Hashes -/

/-- `checksum`. -/
def checksum (data : Bytes) : UInt64 := D.xxh3 data

/-- `hash_path`. -/
def hashPath (path : String) : Result UInt64 := do
  let normalized ← normalizePath path
  pure (D.xxh3 (asBytes normalized))

/-- `AssetId::from_path`. -/
def AssetId.fromPath (path : String) : Result AssetId := do
  let hash ← hashPath D path
  pure ⟨hash⟩

theorem fromPath_eq_ok_iff {path : String} {id : AssetId} :
    AssetId.fromPath D path = .ok id ↔
      ∃ q, normalizePath path = .ok q ∧ id = ⟨checksum D (asBytes q)⟩ := by
  simp only [AssetId.fromPath, hashPath, bind_eq_ok, pure_eq_ok_iff, checksum]
  constructor
  · rintro ⟨_, ⟨q, hq, rfl⟩, rfl⟩
    exact ⟨q, hq, rfl⟩
  · rintro ⟨q, hq, rfl⟩
    exact ⟨_, ⟨q, hq, rfl⟩, rfl⟩

end RasenArchive
