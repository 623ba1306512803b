import RasenArchive.Crypto

/-!
# Concrete dependencies

One instance of the dependencies, for running the model: LZ4 blocks as a compressor writes them for
short inputs, all literals, with the decoder of the block format; small stand-ins for the hashes
and for the cipher; insertion sort.

## Main definitions

* `Lz4.literals`, `Lz4.decode`: a block of literals, and the block decoder
* `reference`: the instance

## Main results

* `Lz4.decode_literals`: the decoder on a block of literals
* `reference_lz4Lawful`, `reference_aeadLawful`: the instance meets the hypotheses on dependencies
-/

namespace RasenArchive

namespace Lz4

/-- The bytes of a length above its nibble. -/
def lengthBytes (n : ℕ) : Bytes := List.replicate (n / 255) 255 ++ [UInt8.ofNat (n % 255)]

/-- The block of one sequence that holds the input as literals. -/
def literals (input : Bytes) : Bytes :=
  (if input.length < 15 then [UInt8.ofNat (16 * input.length)]
    else 240 :: lengthBytes (input.length - 15)) ++ input

/-- A length above its nibble, added to `n`. -/
def readLength (n : ℕ) : Bytes → Option (ℕ × Bytes)
  | [] => none
  | b :: bs => if b = 255 then readLength (n + 255) bs else some (n + b.toNat, bs)

/-- A length with the given nibble. -/
def readNibble (nibble : ℕ) (bs : Bytes) : Option (ℕ × Bytes) :=
  if nibble = 15 then readLength 15 bs else some (nibble, bs)

/-- Copy `n` bytes from `offset` bytes before the end of the output. -/
def copyMatch (offset : ℕ) : ℕ → Bytes → Bytes
  | 0, out => out
  | n + 1, out => copyMatch offset n (out ++ [out.getD (out.length - offset) 0])

/-- The sequences of a block, decoded onto the output so far. -/
def decodeSequences (capacity : ℕ) : ℕ → Bytes → Bytes → Except String Bytes
  | 0, _, _ => .error "expected another byte"
  | _ + 1, [], _ => .error "expected another byte"
  | fuel + 1, token :: bs, out =>
    match readNibble (token.toNat / 16) bs with
    | none => .error "expected another byte"
    | some (n, bs) =>
      if bs.length < n then .error "literal is out of bounds of the input"
      else if capacity < out.length + n then .error "provided output is too small"
      else
        match bs.drop n with
        | [] => .ok (out ++ bs.take n)
        | [_] => .error "expected another byte"
        | lo :: hi :: bs' =>
          let out := out ++ bs.take n
          let offset := lo.toNat + 256 * hi.toNat
          match readNibble (token.toNat % 16) bs' with
          | none => .error "expected another byte"
          | some (m, bs'') =>
            if offset = 0 ∨ out.length < offset then .error "the offset to copy is not contained"
            else if capacity < out.length + (m + 4) then .error "provided output is too small"
            else decodeSequences capacity fuel bs'' (copyMatch offset (m + 4) out)

/-- A block, decoded into a buffer of the given size. -/
def decode (block : Bytes) (capacity : ℕ) : Except String Bytes :=
  decodeSequences capacity block.length block []

/-- The output bound of the compressor. -/
def maximumOutputSize (n : ℕ) : ℕ := 16 + 4 + n * 110 / 100

theorem readLength_replicate (n k : ℕ) (b : UInt8) (hb : b ≠ 255) (bs : Bytes) :
    readLength n (List.replicate k 255 ++ (b :: bs)) = some (n + 255 * k + b.toNat, bs) := by
  induction k generalizing n with
  | zero => simp [readLength, hb]
  | succ k ih =>
    simp only [List.replicate_succ, List.cons_append, readLength, if_true, ih]
    congr 2
    ring

theorem readLength_lengthBytes (k n : ℕ) (bs : Bytes) :
    readLength k (lengthBytes n ++ bs) = some (k + n, bs) := by
  have hlt : n % 255 < 255 := Nat.mod_lt _ (by omega)
  have hnat : (UInt8.ofNat (n % 255)).toNat = n % 255 :=
    UInt8.toNat_ofNat_of_lt' (by unfold UInt8.size; omega)
  have hne : UInt8.ofNat (n % 255) ≠ 255 := by
    intro h
    have := congrArg UInt8.toNat h
    rw [hnat] at this
    simp at this
    omega
  rw [lengthBytes, List.append_assoc, List.singleton_append, readLength_replicate _ _ _ hne, hnat]
  congr 2
  omega

/-- **The decoder on a block of literals.** -/
theorem decode_literals (input : Bytes) (capacity : ℕ) :
    decode (literals input) capacity =
      if capacity < input.length then .error "provided output is too small" else .ok input := by
  obtain ⟨token, bs, hblock, hnibble⟩ : ∃ token bs, literals input = token :: bs ∧
      readNibble (token.toNat / 16) bs = some (input.length, input) := by
    by_cases h : input.length < 15
    · have hnat : (UInt8.ofNat (16 * input.length)).toNat = 16 * input.length :=
        UInt8.toNat_ofNat_of_lt' (by unfold UInt8.size; omega)
      refine ⟨UInt8.ofNat (16 * input.length), input, by rw [literals, if_pos h]; rfl, ?_⟩
      rw [hnat, Nat.mul_div_cancel_left _ (by omega), readNibble, if_neg (by omega)]
    · refine ⟨240, lengthBytes (input.length - 15) ++ input, by simp [literals, h], ?_⟩
      rw [show (240 : UInt8).toNat / 16 = 15 from rfl, readNibble, if_pos rfl,
        readLength_lengthBytes]
      congr 2
      omega
  rw [decode, hblock, List.length_cons, decodeSequences, hnibble]
  simp

theorem length_decodeSequences {capacity fuel : ℕ} {bs out output : Bytes}
    (h : decodeSequences capacity fuel bs out = .ok output) : output.length ≤ capacity := by
  induction fuel generalizing bs out with
  | zero => cases h
  | succ fuel ih =>
    cases bs with
    | nil => cases h
    | cons token bs =>
      rw [decodeSequences] at h
      split at h
      · cases h
      · split_ifs at h with h₁ h₂
        split at h
        · cases h
          simp only [List.length_append, List.length_take]
          omega
        · cases h
        · dsimp only at h
          split at h
          · cases h
          · split_ifs at h
            exact ih h

theorem length_literals_le (input : Bytes) :
    (literals input).length ≤ maximumOutputSize input.length := by
  unfold literals maximumOutputSize
  split_ifs with h
  · simp
    omega
  · simp only [List.length_append, List.length_cons, lengthBytes, List.length_replicate,
      List.length_nil]
    omega

end Lz4

/-- The key stream of the stand-in cipher. -/
def keystream (key : Bytes) (nonce : Nonce) : Bytes := nonce.1 ++ key

/-- The tag of the stand-in cipher. -/
def tag (key : Bytes) (nonce : Nonce) (plain aad : Bytes) : Bytes :=
  LittleEndian.encode 16 (LittleEndian.decode (key ++ nonce.1) + LittleEndian.decode plain +
    LittleEndian.decode aad)

/-- The stand-in for XXH3. -/
def foldHash (data : Bytes) : UInt64 := data.foldl (fun h b => h * 31 + b.toUInt64) 7

/-- The order of the index by identifier. -/
def idLe (a b : AssetId × ℕ) : Prop := a.1 ≤ b.1

instance : DecidableRel idLe := fun a b => inferInstanceAs (Decidable (a.1 ≤ b.1))

instance : Std.Total idLe := ⟨fun a b => le_total a.1 b.1⟩

instance : IsTrans (AssetId × ℕ) idLe := ⟨fun _ _ _ => le_trans⟩

/-- Concrete dependencies. -/
def reference : Dependencies where
  xxh3 := foldHash
  getMaximumOutputSize := Lz4.maximumOutputSize
  compressInto input capacity :=
    if capacity < Lz4.maximumOutputSize input.length then .error "output is too small"
    else .ok (Lz4.literals input)
  compress_le := by
    intro input capacity block h
    split_ifs at h with hc
    cases h
    exact (Lz4.length_literals_le input).trans (by omega)
  decompressInto := Lz4.decode
  decompress_le := Lz4.length_decodeSequences
  decompressResidue _ output := output
  length_residue _ _ := rfl
  blake3DeriveKey context material := (asBytes context ++ material).take 32
  aeadEncrypt key nonce plain aad :=
    some (xorBytes plain (keystream key nonce) ++ tag key nonce plain aad)
  aeadDecrypt key nonce ciphertext aad :=
    let n := ciphertext.length - 16
    let plain := xorBytes (ciphertext.take n) (keystream key nonce)
    if ciphertext.drop n = tag key nonce plain aad then some plain else none
  sortUnstableByKey l := l.insertionSort idLe
  sort_perm l := List.perm_insertionSort idLe l
  sort_sorted l := List.pairwise_insertionSort idLe l

theorem reference_lz4Lawful : reference.Lz4Lawful where
  compress_ok input capacity h := ⟨Lz4.literals input, if_neg (not_lt.mpr h)⟩
  maximumOutputSize_mono m n h := by
    simp only [reference, Lz4.maximumOutputSize]
    omega
  compress_ne_nil := by
    intro input capacity block h
    simp only [reference] at h
    split_ifs at h
    cases h
    unfold Lz4.literals
    split_ifs <;> simp
  decompress_compress := by
    intro input capacity block h
    simp only [reference] at h ⊢
    split_ifs at h
    cases h
    rw [Lz4.decode_literals, if_neg (by omega)]
  decompress_unique := by
    intro input capacity block length output hc hd
    simp only [reference] at hc hd
    split_ifs at hc
    cases hc
    rw [Lz4.decode_literals] at hd
    split_ifs at hd
    cases hd
    rfl

theorem reference_aeadLawful : reference.AeadLawful where
  encrypt_length := by
    intro key nonce plain aad ciphertext h
    simp only [reference, Option.some.injEq] at h
    simp [← h, tag]
  decrypt_encrypt := by
    intro key nonce plain aad ciphertext h
    simp only [reference, Option.some.injEq] at h
    subst h
    have hn : (xorBytes plain (keystream key nonce) ++ tag key nonce plain aad).length - 16 =
        (xorBytes plain (keystream key nonce)).length := by
      simp [tag]
    simp only [reference, hn, List.take_left, List.drop_left, xorBytes_xorBytes, if_true]

end RasenArchive
