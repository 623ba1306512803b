import RasenArchive.Error
import RasenArchive.Library.LittleEndian

/-!
# The archive header

The constants of the format, the 60 bytes of the header with their writer and reader, and the
checks that depend on the header alone.

## Main definitions

* `Header`: the fields of a header
* `headerFields`, `encodeHeader`: the writes of `write_header`, one for each field, and their bytes
* `readHeader`, `validateHeader`: the reader and its checks
* `alignUp`: the next aligned offset

## Main results

* `readHeader_eq_ok_iff`: a header is read exactly from its own bytes
* `validateHeader_eq_ok_iff`: what the checks accept
* `alignUp_eq_ok_iff`: the aligned offset, when it fits 64 bits
-/

namespace RasenArchive

/-! ## Constants -/

/-- `MAGIC`, the bytes of `RPAK`. -/
def magic : Bytes := [0x52, 0x50, 0x41, 0x4B]

/-- `TOC_MAGIC`, the bytes of `TOC2`. -/
def tocMagic : Bytes := [0x54, 0x4F, 0x43, 0x32]

def version : UInt16 := 1

def headerSize : ℕ := 60

def headerFlagTocLz4 : UInt16 := (1 : UInt16) <<< 0

def headerFlagTocXor : UInt16 := (1 : UInt16) <<< 1

def headerFlagChunked : UInt16 := (1 : UInt16) <<< 2

def headerFlagXxh3 : UInt16 := (1 : UInt16) <<< 3

def headerFlagPathsStripped : UInt16 := (1 : UInt16) <<< 4

def headerFlagAead : UInt16 := (1 : UInt16) <<< 5

def requiredHeaderFlags : UInt16 := headerFlagTocLz4 ||| headerFlagChunked ||| headerFlagXxh3

def knownHeaderFlags : UInt16 :=
  requiredHeaderFlags ||| headerFlagTocXor ||| headerFlagPathsStripped ||| headerFlagAead

def chunkFlagLz4 : UInt16 := (1 : UInt16) <<< 0

def maxTocStoredSize : ℕ := 256 * 1024 * 1024

def maxTocRawSize : ℕ := 512 * 1024 * 1024

def maxChunkSize : ℕ := 64 * 1024 * 1024

def maxAlignment : ℕ := 1024 * 1024

def tocEntryFixedSize : ℕ := 36

def tocChunkFixedSize : ℕ := 36

/-! ## Fixed-width fields -/

/-- `u16::to_le_bytes`. -/
def u16ToLeBytes (n : UInt16) : Bytes := LittleEndian.encode 2 n.toNat

/-- `u32::to_le_bytes`. -/
def u32ToLeBytes (n : UInt32) : Bytes := LittleEndian.encode 4 n.toNat

/-- `u64::to_le_bytes`. -/
def u64ToLeBytes (n : UInt64) : Bytes := LittleEndian.encode 8 n.toNat

/-- `u16::from_le_bytes`. -/
def u16FromLeBytes (bs : Bytes) : UInt16 := UInt16.ofNat (LittleEndian.decode bs)

/-- `u32::from_le_bytes`. -/
def u32FromLeBytes (bs : Bytes) : UInt32 := UInt32.ofNat (LittleEndian.decode bs)

/-- `u64::from_le_bytes`. -/
def u64FromLeBytes (bs : Bytes) : UInt64 := UInt64.ofNat (LittleEndian.decode bs)

@[simp] theorem length_u16ToLeBytes (n : UInt16) : (u16ToLeBytes n).length = 2 := by
  simp [u16ToLeBytes]

@[simp] theorem length_u32ToLeBytes (n : UInt32) : (u32ToLeBytes n).length = 4 := by
  simp [u32ToLeBytes]

@[simp] theorem length_u64ToLeBytes (n : UInt64) : (u64ToLeBytes n).length = 8 := by
  simp [u64ToLeBytes]

theorem u16FromLeBytes_eq_iff {bs : Bytes} (h : bs.length = 2) {n : UInt16} :
    u16FromLeBytes bs = n ↔ bs = u16ToLeBytes n := by
  have hlt : LittleEndian.decode bs < 2 ^ 16 := by
    simpa [h] using LittleEndian.decode_lt bs
  constructor
  · rintro rfl
    rw [u16ToLeBytes, u16FromLeBytes, UInt16.toNat_ofNat_of_lt' hlt, ← h,
      LittleEndian.encode_decode]
  · rintro rfl
    rw [u16ToLeBytes, u16FromLeBytes, LittleEndian.decode_encode n.toNat_lt, UInt16.ofNat_toNat]

theorem u32FromLeBytes_eq_iff {bs : Bytes} (h : bs.length = 4) {n : UInt32} :
    u32FromLeBytes bs = n ↔ bs = u32ToLeBytes n := by
  have hlt : LittleEndian.decode bs < 2 ^ 32 := by
    simpa [h] using LittleEndian.decode_lt bs
  constructor
  · rintro rfl
    rw [u32ToLeBytes, u32FromLeBytes, UInt32.toNat_ofNat_of_lt' hlt, ← h,
      LittleEndian.encode_decode]
  · rintro rfl
    rw [u32ToLeBytes, u32FromLeBytes, LittleEndian.decode_encode n.toNat_lt, UInt32.ofNat_toNat]

theorem u64FromLeBytes_eq_iff {bs : Bytes} (h : bs.length = 8) {n : UInt64} :
    u64FromLeBytes bs = n ↔ bs = u64ToLeBytes n := by
  have hlt : LittleEndian.decode bs < 2 ^ 64 := by
    simpa [h] using LittleEndian.decode_lt bs
  constructor
  · rintro rfl
    rw [u64ToLeBytes, u64FromLeBytes, UInt64.toNat_ofNat_of_lt' hlt, ← h,
      LittleEndian.encode_decode]
  · rintro rfl
    rw [u64ToLeBytes, u64FromLeBytes, LittleEndian.decode_encode n.toNat_lt, UInt64.ofNat_toNat]

/-! ## The header -/

/-- The fields of a header. -/
structure Header where
  version : UInt16
  flags : UInt16
  headerSize : UInt32
  alignment : UInt32
  chunkSize : UInt32
  entryCount : UInt32
  chunkCount : UInt32
  tocOffset : UInt64
  tocSize : UInt64
  tocRawSize : UInt64
  tocHash : UInt64
  deriving DecidableEq, Repr

/-- The writes of `write_header`, in order. -/
def headerFields (h : Header) : List Bytes :=
  [magic, u16ToLeBytes h.version, u16ToLeBytes h.flags, u32ToLeBytes h.headerSize,
    u32ToLeBytes h.alignment, u32ToLeBytes h.chunkSize, u32ToLeBytes h.entryCount,
    u32ToLeBytes h.chunkCount, u64ToLeBytes h.tocOffset, u64ToLeBytes h.tocSize,
    u64ToLeBytes h.tocRawSize, u64ToLeBytes h.tocHash]

/-- The bytes that `write_header` writes. -/
def encodeHeader (h : Header) : Bytes := (headerFields h).flatten

@[simp] theorem length_encodeHeader (h : Header) : (encodeHeader h).length = headerSize := by
  simp [encodeHeader, headerFields, magic, headerSize]

/-- `Read::read_exact` of `n` bytes on an `io::Cursor`, whose state is the bytes that are left. -/
def readExact (n : ℕ) : Fallible Bytes Fault Bytes := do
  let rest ← Fallible.gets id
  ensure (n ≤ rest.length) (.io ⟨.unexpectedEof, "failed to fill whole buffer"⟩)
  Fallible.modify (List.drop n)
  pure (rest.take n)

/-- `read_u16`. -/
def readU16 : Fallible Bytes Fault UInt16 := do
  let b ← readExact 2
  pure (u16FromLeBytes b)

/-- `read_u32`. -/
def readU32 : Fallible Bytes Fault UInt32 := do
  let b ← readExact 4
  pure (u32FromLeBytes b)

/-- `read_u64`. -/
def readU64 : Fallible Bytes Fault UInt64 := do
  let b ← readExact 8
  pure (u64FromLeBytes b)

/-- `read_header`. -/
def readHeader : Fallible Bytes Fault Header := do
  let m ← readExact 4
  ensure (m = magic) .badMagic
  let version ← readU16
  let flags ← readU16
  let headerSize ← readU32
  let alignment ← readU32
  let chunkSize ← readU32
  let entryCount ← readU32
  let chunkCount ← readU32
  let tocOffset ← readU64
  let tocSize ← readU64
  let tocRawSize ← readU64
  let tocHash ← readU64
  pure { version, flags, headerSize, alignment, chunkSize, entryCount, chunkCount, tocOffset,
         tocSize, tocRawSize, tocHash }

theorem readExact_eq_ok_iff {n : ℕ} {rest rest' bs : Bytes} :
    readExact n rest = (.ok bs, rest') ↔ bs.length = n ∧ rest = bs ++ rest' := by
  simp only [readExact, Fallible.gets_bind_apply, id]
  constructor
  · intro h
    obtain ⟨u, s₁, h₁, h⟩ := Fallible.bind_eq_ok.mp h
    obtain ⟨hn, rfl⟩ := Fallible.liftM_eq_ok.mp h₁
    rw [ensure_eq_ok_iff] at hn
    cases h
    exact ⟨by simp [hn], (List.take_append_drop n _).symm⟩
  · rintro ⟨rfl, rfl⟩
    refine Fallible.bind_eq_ok.mpr ⟨(), _, Fallible.liftM_eq_ok.mpr ⟨by simp, rfl⟩, ?_⟩
    simp

theorem readU16_eq_ok_iff {rest rest' : Bytes} {n : UInt16} :
    readU16 rest = (.ok n, rest') ↔ rest = u16ToLeBytes n ++ rest' := by
  simp only [readU16, Fallible.bind_eq_ok, readExact_eq_ok_iff, Fallible.pure_apply]
  constructor
  · rintro ⟨b, s₁, ⟨hb, rfl⟩, h⟩
    cases h
    rw [← (u16FromLeBytes_eq_iff hb).mp rfl]
  · rintro rfl
    exact ⟨_, _, ⟨length_u16ToLeBytes n, rfl⟩, by
      rw [(u16FromLeBytes_eq_iff (length_u16ToLeBytes n)).mpr rfl]⟩

theorem readU32_eq_ok_iff {rest rest' : Bytes} {n : UInt32} :
    readU32 rest = (.ok n, rest') ↔ rest = u32ToLeBytes n ++ rest' := by
  simp only [readU32, Fallible.bind_eq_ok, readExact_eq_ok_iff, Fallible.pure_apply]
  constructor
  · rintro ⟨b, s₁, ⟨hb, rfl⟩, h⟩
    cases h
    rw [← (u32FromLeBytes_eq_iff hb).mp rfl]
  · rintro rfl
    exact ⟨_, _, ⟨length_u32ToLeBytes n, rfl⟩, by
      rw [(u32FromLeBytes_eq_iff (length_u32ToLeBytes n)).mpr rfl]⟩

theorem readU64_eq_ok_iff {rest rest' : Bytes} {n : UInt64} :
    readU64 rest = (.ok n, rest') ↔ rest = u64ToLeBytes n ++ rest' := by
  simp only [readU64, Fallible.bind_eq_ok, readExact_eq_ok_iff, Fallible.pure_apply]
  constructor
  · rintro ⟨b, s₁, ⟨hb, rfl⟩, h⟩
    cases h
    rw [← (u64FromLeBytes_eq_iff hb).mp rfl]
  · rintro rfl
    exact ⟨_, _, ⟨length_u64ToLeBytes n, rfl⟩, by
      rw [(u64FromLeBytes_eq_iff (length_u64ToLeBytes n)).mpr rfl]⟩

/-- **A header is read** exactly from its own bytes. -/
theorem readHeader_eq_ok_iff {rest rest' : Bytes} {h : Header} :
    readHeader rest = (.ok h, rest') ↔ rest = encodeHeader h ++ rest' := by
  simp only [readHeader, Fallible.bind_eq_ok, readExact_eq_ok_iff, Fallible.liftM_eq_ok,
    ensure_eq_ok_iff, readU16_eq_ok_iff, readU32_eq_ok_iff, readU64_eq_ok_iff,
    Fallible.pure_apply]
  constructor
  · rintro ⟨_, _, ⟨-, rfl⟩, _, _, ⟨rfl, rfl⟩, _, _, rfl, _, _, rfl, _, _, rfl, _, _, rfl, _, _,
      rfl, _, _, rfl, _, _, rfl, _, _, rfl, _, _, rfl, _, _, rfl, _, _, rfl, h⟩
    cases h
    simp [encodeHeader, headerFields]
  · rintro rfl
    refine ⟨magic, _, ⟨rfl, ?_⟩, (), _, ⟨rfl, rfl⟩, h.version, _, rfl, h.flags, _, rfl,
      h.headerSize, _, rfl, h.alignment, _, rfl, h.chunkSize, _, rfl, h.entryCount, _, rfl,
      h.chunkCount, _, rfl, h.tocOffset, _, rfl, h.tocSize, _, rfl, h.tocRawSize, _, rfl,
      h.tocHash, rest', rfl, rfl⟩
    simp [encodeHeader, headerFields]

/-- The bytes of a header determine it. -/
theorem encodeHeader_injective : Function.Injective encodeHeader := by
  intro h h' heq
  have hread : readHeader (encodeHeader h) = (.ok h, []) :=
    readHeader_eq_ok_iff.mpr (List.append_nil _).symm
  have hread' : readHeader (encodeHeader h') = (.ok h', []) :=
    readHeader_eq_ok_iff.mpr (List.append_nil _).symm
  rw [heq, hread'] at hread
  cases hread
  rfl

/-! ## Checks -/

/-- `count_ones` of a `w`-bit number. -/
def countOnes (w n : ℕ) : ℕ := (List.range w).countP n.testBit

/-- `validate_chunk_size`. -/
def validateChunkSize (chunkSize : ℕ) : Result Unit :=
  if chunkSize = 0 ∨ chunkSize > maxChunkSize then failWith .invalidChunkSize else .ok ()

/-- `validate_alignment`. -/
def validateAlignment (alignment : UInt32) : Result Unit :=
  if alignment = 0 ∨ alignment.toNat > maxAlignment ∨ ¬ alignment.toNat.isPowerOfTwo then
    failWith .invalidAlignment
  else
    .ok ()

/-- `validate_header`. -/
def validateHeader (header : Header) : Result Unit := do
  ensure (header.version = version) (.unsupportedVersion header.version)
  ensure (header.headerSize = UInt32.ofNat headerSize) (.unsupportedHeaderSize header.headerSize)
  -- exactly one of the two protections
  let protection := header.flags &&& (headerFlagTocXor ||| headerFlagAead)
  ensure (header.flags &&& requiredHeaderFlags = requiredHeaderFlags ∧
      header.flags &&& ~~~knownHeaderFlags = 0 ∧ countOnes 16 protection.toNat = 1)
    (.unsupportedFlags header.flags)
  validateChunkSize header.chunkSize.toNat
  validateAlignment header.alignment
  ensure (header.tocSize.toNat ≤ maxTocStoredSize) (.tooLarge "stored TOC")
  ensure (header.tocRawSize.toNat ≤ maxTocRawSize) (.tooLarge "raw TOC")

@[simp] theorem validateChunkSize_eq_ok_iff {n : ℕ} {u : Unit} :
    validateChunkSize n = .ok u ↔ 0 < n ∧ n ≤ maxChunkSize := by
  unfold validateChunkSize
  split_ifs with h
  · simp only [failWith_ne_ok, false_iff]
    omega
  · simp only [true_iff]
    omega

@[simp] theorem validateAlignment_eq_ok_iff {n : UInt32} {u : Unit} :
    validateAlignment n = .ok u ↔ n.toNat.isPowerOfTwo ∧ n.toNat ≤ maxAlignment := by
  unfold validateAlignment
  split_ifs with h
  · simp only [failWith_ne_ok, false_iff, not_and]
    intro hp hle
    have hpos := Nat.pos_of_isPowerOfTwo hp
    rcases h with rfl | h | h
    · exact absurd hpos (by decide)
    · omega
    · exact h hp
  · push Not at h
    simp [h.2]

/-- **What the checks of a header accept.** -/
theorem validateHeader_eq_ok_iff {h : Header} {u : Unit} :
    validateHeader h = .ok u ↔
      h.version = version ∧ h.headerSize = UInt32.ofNat headerSize ∧
      (h.flags &&& requiredHeaderFlags = requiredHeaderFlags ∧
        h.flags &&& ~~~knownHeaderFlags = 0 ∧
        countOnes 16 (h.flags &&& (headerFlagTocXor ||| headerFlagAead)).toNat = 1) ∧
      (0 < h.chunkSize.toNat ∧ h.chunkSize.toNat ≤ maxChunkSize) ∧
      (h.alignment.toNat.isPowerOfTwo ∧ h.alignment.toNat ≤ maxAlignment) ∧
      h.tocSize.toNat ≤ maxTocStoredSize ∧ h.tocRawSize.toNat ≤ maxTocRawSize := by
  simp only [validateHeader, bind_eq_ok, ensure_eq_ok_iff, validateChunkSize_eq_ok_iff,
    validateAlignment_eq_ok_iff, exists_const]

/-! ## Aligned offsets -/

/-- `align_up`. -/
def alignUp (value alignment : ℕ) : Result ℕ := do
  let mask ← sub alignment 1
  let v ← okOr (checkedAdd 64 value mask) (.tooLarge "aligned offset")
  pure (v &&& (2 ^ 64 - 1 - mask))

/-- Clearing the low bits of a 64-bit number. -/
theorem and_not_mask {v k : ℕ} (hv : v < 2 ^ 64) (hk : k ≤ 64) :
    v &&& (2 ^ 64 - 1 - (2 ^ k - 1)) = v / 2 ^ k * 2 ^ k := by
  have hle : 2 ^ k ≤ 2 ^ 64 := Nat.pow_le_pow_right (by omega) hk
  have hpos : 0 < 2 ^ k := Nat.two_pow_pos k
  have hmask : 2 ^ 64 - 1 - (2 ^ k - 1) = 2 ^ 64 - ((2 ^ k - 1) + 1) := by omega
  apply Nat.eq_of_testBit_eq
  intro i
  rw [hmask, Nat.testBit_and, Nat.testBit_two_pow_sub_succ (by omega), Nat.testBit_mul_two_pow,
    Nat.testBit_div_two_pow, Nat.testBit_two_pow_sub_one]
  by_cases hi : i < 64
  · by_cases hki : k ≤ i
    · simp [hi, hki, Nat.sub_add_cancel hki]
    · simp [hi, hki, lt_of_not_ge hki]
  · have hvi : v.testBit i = false :=
      Nat.testBit_lt_two_pow (lt_of_lt_of_le hv (Nat.pow_le_pow_right (by omega) (by omega)))
    by_cases hki : k ≤ i
    · simp [hvi, Nat.sub_add_cancel hki]
    · simp [hvi, hki]

/-- **The aligned offset**, when it fits 64 bits. -/
theorem alignUp_eq_ok_iff {value alignment aligned : ℕ} (ha : alignment.isPowerOfTwo)
    (hle : alignment ≤ 2 ^ 64) :
    alignUp value alignment = .ok aligned ↔
      value + (alignment - 1) < 2 ^ 64 ∧
        aligned = (value + (alignment - 1)) / alignment * alignment := by
  have hpos := Nat.pos_of_isPowerOfTwo ha
  simp only [alignUp, sub_of_le (show 1 ≤ alignment from hpos), ok_bind, bind_eq_ok,
    okOr_eq_ok_iff, checkedAdd_eq_some_iff, pure_eq_ok_iff]
  obtain ⟨k, rfl⟩ := ha
  have hk : k ≤ 64 := (Nat.pow_le_pow_iff_right (by omega)).mp hle
  constructor
  · rintro ⟨_, ⟨hlt, rfl⟩, rfl⟩
    exact ⟨hlt, and_not_mask hlt hk⟩
  · rintro ⟨hlt, rfl⟩
    exact ⟨_, ⟨hlt, rfl⟩, and_not_mask hlt hk⟩

section AlignUp

variable {value alignment aligned : ℕ} (ha : alignment.isPowerOfTwo) (hle : alignment ≤ 2 ^ 64)
  (h : alignUp value alignment = .ok aligned)

include ha hle h

theorem le_alignUp : value ≤ aligned := by
  obtain ⟨-, rfl⟩ := (alignUp_eq_ok_iff ha hle).mp h
  have hpos := Nat.pos_of_isPowerOfTwo ha
  have hdiv := Nat.div_add_mod' (value + (alignment - 1)) alignment
  have hmod := Nat.mod_lt (value + (alignment - 1)) hpos
  omega

theorem dvd_alignUp : alignment ∣ aligned := by
  obtain ⟨-, rfl⟩ := (alignUp_eq_ok_iff ha hle).mp h
  exact dvd_mul_left _ _

theorem alignUp_lt : aligned < 2 ^ 64 := by
  obtain ⟨hlt, rfl⟩ := (alignUp_eq_ok_iff ha hle).mp h
  exact lt_of_le_of_lt (Nat.div_mul_le_self _ _) hlt

end AlignUp

end RasenArchive
