import RasenArchive.Archive.Lookup
import RasenArchive.Library.Guarantee
import RasenArchive.Library.TwoRuns

/-!
# The boundary of the C interface

What every function of the C interface goes through: the status codes, the text of the last error,
the checks of the pointers that the caller passes, and `ffi_call`, which turns a failure or a panic
into a status. A pointer is null or points to something of the caller; what it points to is part of
the state.

## Main definitions

* `RasenStatus`, `coreStatus`: the status codes, and the one of each error of the library
* `Error.toText`: the text of an error
* `FfiFailure`, `FfiFault`: how a call across the boundary ends when it does not succeed
* `Pointer`, `ConstSlice`, `MutBytes`: the pointers of the caller
* `ffiCall`: a call across the boundary

## Main results

* `sanitize_nul_free`: the last error is always a C string
* `ffiCall_ok_iff`: the status is `ok` exactly for calls that succeed
* `ffiCall_spares_iff`: what a call leaves alone when its status is not `ok`
* `ffiCall_abreast`: calls that end alike have the same status
-/

namespace RasenArchive

/-! ## Status codes -/

/-- The status codes. -/
inductive RasenStatus where
  | ok
  | nullPointer
  | invalidUtf8
  | invalidValue
  | outOfRange
  | callbackFailed
  | panic
  | io
  | badMagic
  | badTocMagic
  | unsupportedVersion
  | unsupportedFlags
  | unsupportedHeaderSize
  | emptyKey
  | crypto
  | incompletePack
  | nonEmptyDestination
  | invalidPath
  | invalidChunkSize
  | invalidAlignment
  | invalidRange
  | bufferSizeMismatch
  | chunkOutOfRange
  | duplicatePath
  | assetTooLarge
  | archiveTooLarge
  | tooManyEntries
  | tooManyChunks
  | metadataLimitExceeded
  | corrupt
  | tooLarge
  | lz4
  | notFound
  | hashCollision
  | checksumMismatch
  deriving DecidableEq, Repr

/-- `core_status`. -/
def coreStatus : Error → RasenStatus
  | .io _ => .io
  | .badMagic => .badMagic
  | .badTocMagic => .badTocMagic
  | .unsupportedVersion _ => .unsupportedVersion
  | .unsupportedFlags _ => .unsupportedFlags
  | .unsupportedHeaderSize _ => .unsupportedHeaderSize
  | .emptyXorKey => .emptyKey
  | .crypto _ => .crypto
  | .incompletePack => .incompletePack
  | .nonEmptyDestination => .nonEmptyDestination
  | .invalidPath => .invalidPath
  | .invalidChunkSize => .invalidChunkSize
  | .invalidAlignment => .invalidAlignment
  | .invalidRange => .invalidRange
  | .bufferSizeMismatch _ _ => .bufferSizeMismatch
  | .chunkOutOfRange _ _ => .chunkOutOfRange
  | .duplicatePath _ => .duplicatePath
  | .assetTooLarge => .assetTooLarge
  | .archiveTooLarge => .archiveTooLarge
  | .tooManyEntries => .tooManyEntries
  | .tooManyChunks => .tooManyChunks
  | .metadataLimitExceeded => .metadataLimitExceeded
  | .corrupt _ => .corrupt
  | .tooLarge _ => .tooLarge
  | .lz4 _ => .lz4
  | .notFound _ => .notFound
  | .hashCollision _ => .hashCollision
  | .checksumMismatch _ _ => .checksumMismatch

/-- The codes of the boundary itself: no error of the library has one of them. -/
def RasenStatus.IsBoundary : RasenStatus → Prop
  | .ok | .nullPointer | .invalidUtf8 | .invalidValue | .outOfRange | .callbackFailed | .panic =>
    True
  | _ => False

theorem not_isBoundary_coreStatus (e : Error) : ¬ (coreStatus e).IsBoundary := by
  cases e <;> exact id

theorem coreStatus_ne_ok (e : Error) : coreStatus e ≠ .ok := by
  intro h
  have hno := not_isBoundary_coreStatus e
  rw [h] at hno
  exact hno trivial

/-! ## Texts -/

/-- The four digits of `{:04x}`. -/
def hex4 (n : UInt16) : String :=
  String.ofList ((List.range 4).map fun i => Nat.digitChar (n.toNat / 16 ^ (3 - i) % 16))

/-- `Display` of `Error`. -/
def Error.toText : Error → String
  | .io e => "I/O error: " ++ e.message
  | .badMagic => "not a RPAK archive"
  | .badTocMagic => "invalid TOC magic (wrong XOR key or corrupt archive)"
  | .unsupportedVersion v => "unsupported RPAK version " ++ toString v.toNat
  | .unsupportedFlags v => "unsupported flags: 0x" ++ hex4 v
  | .unsupportedHeaderSize v => "unsupported header size " ++ toString v.toNat
  | .emptyXorKey => "protection key must not be empty"
  | .crypto s => "cryptographic error: " ++ s
  | .incompletePack => "packer cannot finish after an earlier error"
  | .nonEmptyDestination => "packing destination must be empty"
  | .invalidPath => "invalid archive path"
  | .invalidChunkSize => "chunk size must be in 1..=64 MiB"
  | .invalidAlignment => "alignment must be a power of two in 1..=1 MiB"
  | .invalidRange => "requested range is outside the asset"
  | .bufferSizeMismatch expected actual =>
    "destination buffer size mismatch: expected " ++ toString expected ++ ", got " ++
      toString actual
  | .chunkOutOfRange chunk count =>
    "chunk index " ++ toString chunk ++ " is outside chunk count " ++ toString count
  | .duplicatePath p => "duplicate archive path: " ++ p
  | .assetTooLarge => "archive asset exceeds size limit"
  | .archiveTooLarge => "archive exceeds decompressed size limit"
  | .tooManyEntries => "archive exceeds entry count limit"
  | .tooManyChunks => "archive operation exceeds chunk count limit"
  | .metadataLimitExceeded => "archive metadata exceeds memory limit"
  | .corrupt s => "corrupt archive: " ++ s
  | .tooLarge s => "value too large: " ++ s
  | .lz4 s => "LZ4 error: " ++ s
  | .notFound p => "entry not found: " ++ p
  | .hashCollision hash => "ambiguous asset hash collision: " ++ hex16 hash
  | .checksumMismatch path chunk =>
    "checksum mismatch: " ++ path ++ ", chunk " ++ toString chunk

/-- `message.replace('\0', "\\0")`. -/
def sanitize (message : String) : String :=
  String.ofList (message.toList.flatMap fun c => if c = '\x00' then ['\\', '0'] else [c])

/-- **The last error is a C string**: no character of it is the NUL character, so that
`CString::new` takes it. -/
theorem sanitize_nul_free (message : String) : '\x00' ∉ (sanitize message).toList := by
  rw [sanitize, String.toList_ofList, List.mem_flatMap]
  rintro ⟨c, -, hc⟩
  split_ifs at hc with h
  · simp at hc
  · rw [List.mem_singleton] at hc
    exact h hc.symm

/-! ## Failures -/

/-- `FfiFailure`. No failure has the status of a success. -/
structure FfiFailure where
  status : RasenStatus
  message : String
  status_ne : status ≠ .ok

/-- `From<Error>` for `FfiFailure`. -/
def FfiFailure.ofError (e : Error) : FfiFailure :=
  ⟨coreStatus e, e.toText, coreStatus_ne_ok e⟩

/-- How a call across the boundary ends when it does not succeed. -/
inductive FfiFault where
  | failure (f : FfiFailure)
  | panic (p : Panic)

/-- The status that `ffi_call` returns. -/
def FfiFault.status : FfiFault → RasenStatus
  | .failure f => f.status
  | .panic _ => .panic

/-- The text that `ffi_call` leaves as the last error. -/
def FfiFault.message : FfiFault → String
  | .failure f => f.message
  | .panic _ => "panic caught at FFI boundary"

theorem FfiFault.status_ne : (f : FfiFault) → f.status ≠ .ok
  | .failure f => f.status_ne
  | .panic _ => fun h => nomatch h

abbrev FfiResult (α : Type) : Type := Except FfiFault α

/-- `Err(failure)`. -/
def failAcross {α : Type} (f : FfiFailure) : FfiResult α := .error (.failure f)

@[simp] theorem failAcross_ne_ok {α : Type} {f : FfiFailure} {x : α} :
    (failAcross f : FfiResult α) = .ok x ↔ False := by
  simp [failAcross]

theorem FfiResult.bind_eq_ok {α β : Type} {x : FfiResult α} {f : α → FfiResult β} {b : β} :
    (x >>= f) = .ok b ↔ ∃ a, x = .ok a ∧ f a = .ok b := by
  cases x <;> simp [bind, Except.bind]

/-- What the boundary makes of a fault of the library. -/
def FfiFault.ofFault : Fault → FfiFault
  | .error e => .failure (.ofError e)
  | .panic p => .panic p

/-! ## Pointers -/

/-- A pointer to something of the caller that is part of the state. -/
inductive Pointer where
  | null
  | valid
  deriving DecidableEq, Repr

/-- A `*const T` and a length. -/
inductive ConstSlice (α : Type) where
  | null (len : ℕ)
  | data (items : List α)

/-- A `*const u8` and a length. -/
abbrev ConstBytes : Type := ConstSlice UInt8

/-- A `*mut u8` and a length: the bytes behind it are the destination of the state. -/
inductive MutBytes where
  | null (len : ℕ)
  | valid
  deriving DecidableEq, Repr

/-- The failure for a null pointer. -/
def nullPointer (name : String) : FfiFailure := ⟨.nullPointer, name ++ " is null", by decide⟩

/-- The failure for bytes that are no string. -/
def invalidUtf8 (name : String) : FfiFailure :=
  ⟨.invalidUtf8, name ++ " is not valid UTF-8", by decide⟩

/-- `required_ref`. -/
def requiredRef {α : Type} (value : Option α) (name : String) : FfiResult α :=
  match value with
  | some value => .ok value
  | none => failAcross (nullPointer name)

/-- `required_mut`. -/
def requiredMut (value : Pointer) (name : String) : FfiResult Unit :=
  match value with
  | .valid => .ok ()
  | .null => failAcross (nullPointer name)

/-- `raw_slice`. -/
def ConstSlice.rawSlice {α : Type} (data : ConstSlice α) (name : String) : FfiResult (List α) :=
  match data with
  | .data items => .ok items
  | .null len => if len = 0 then .ok [] else failAcross (nullPointer name)

/-- `bytes`, which is `raw_slice` at bytes. -/
def ConstBytes.bytes (data : ConstBytes) (name : String) : FfiResult Bytes := data.rawSlice name

/-- `utf8`. -/
def ConstBytes.utf8 (data : ConstBytes) (name : String) : FfiResult String := do
  let bytes ← data.bytes name
  match fromUtf8 bytes with
  | some s => .ok s
  | none => failAcross (invalidUtf8 name)

/-- `bytes_mut`. -/
def MutBytes.bytesMut (dst : MutBytes) (name : String) : FfiResult Unit :=
  match dst with
  | .valid => .ok ()
  | .null len => if len = 0 then .ok () else failAcross (nullPointer name)

/-- The bytes behind the pointer. -/
def MutBytes.view (dst : MutBytes) (buffer : Bytes) : Bytes :=
  match dst with
  | .valid => buffer
  | .null _ => []

/-- The destination after a write of the bytes behind the pointer. -/
def MutBytes.store (dst : MutBytes) (bytes buffer : Bytes) : Bytes :=
  match dst with
  | .valid => bytes
  | .null _ => buffer

/-- The items that the pointer points to. -/
def ConstSlice.Holds {α : Type} (data : ConstSlice α) (items : List α) : Prop :=
  data = .data items ∨ (data = .null 0 ∧ items = [])

theorem ConstSlice.Holds.unique {α : Type} {data : ConstSlice α} {items items' : List α}
    (h : data.Holds items) (h' : data.Holds items') : items = items' := by
  obtain rfl | ⟨rfl, rfl⟩ := h
  · simpa [ConstSlice.Holds] using h'
  · simpa [ConstSlice.Holds, eq_comm] using h'

theorem ConstSlice.rawSlice_eq_ok_iff {α : Type} {data : ConstSlice α} {name : String}
    {items : List α} : data.rawSlice name = .ok items ↔ data.Holds items := by
  cases data with
  | data bytes => simp [ConstSlice.rawSlice, ConstSlice.Holds]
  | null len =>
    simp only [ConstSlice.rawSlice, ConstSlice.Holds, reduceCtorEq, false_or,
      ConstSlice.null.injEq]
    split_ifs with h
    · simp [h, eq_comm]
    · simp [h]

theorem ConstBytes.bytes_eq_ok_iff {data : ConstBytes} {name : String} {bs : Bytes} :
    data.bytes name = .ok bs ↔ data.Holds bs := ConstSlice.rawSlice_eq_ok_iff

theorem ConstBytes.utf8_eq_ok_iff {data : ConstBytes} {name s : String} :
    data.utf8 name = .ok s ↔ data.Holds (asBytes s) := by
  unfold ConstBytes.utf8
  constructor
  · intro h
    cases hb : data.bytes name with
    | error f =>
      rw [hb] at h
      cases h
    | ok bs =>
      rw [hb] at h
      cases hs : fromUtf8 bs with
      | none => simp [hs, bind, Except.bind] at h
      | some s' =>
        simp only [hs, bind, Except.bind, Except.ok.injEq] at h
        rw [fromUtf8_eq_some_iff, h] at hs
        exact hs ▸ ConstBytes.bytes_eq_ok_iff.mp hb
  · intro h
    rw [ConstBytes.bytes_eq_ok_iff.mpr h]
    simp [fromUtf8_eq_some_iff.mpr rfl, bind, Except.bind]

theorem requiredRef_error {α : Type} {value : Option α} {name : String} {f : FfiFault}
    (h : requiredRef value name = .error f) : f = .failure (nullPointer name) := by
  cases value with
  | none => exact (Except.error.inj h).symm
  | some value => cases h

theorem mem_of_requiredRef {α : Type} {value : Option α} {name : String} {a : α}
    (h : requiredRef value name = .ok a) : a ∈ value := by
  cases value with
  | none => cases h
  | some value =>
    cases h
    rfl

theorem requiredMut_error {value : Pointer} {name : String} {f : FfiFault}
    (h : requiredMut value name = .error f) : f = .failure (nullPointer name) := by
  cases value with
  | null => exact (Except.error.inj h).symm
  | valid => cases h

theorem ConstSlice.rawSlice_error {α : Type} {data : ConstSlice α} {name : String} {f : FfiFault}
    (h : data.rawSlice name = .error f) : f = .failure (nullPointer name) := by
  cases data with
  | data items => cases h
  | null len =>
    by_cases hlen : len = 0
    · simp [ConstSlice.rawSlice, hlen] at h
    · simp only [ConstSlice.rawSlice, hlen, if_false] at h
      exact (Except.error.inj h).symm

theorem ConstBytes.utf8_error {data : ConstBytes} {name : String} {f : FfiFault}
    (h : data.utf8 name = .error f) :
    f = .failure (nullPointer name) ∨ f = .failure (invalidUtf8 name) := by
  unfold ConstBytes.utf8 at h
  cases hb : data.bytes name with
  | error f' =>
    rw [hb] at h
    cases h
    exact Or.inl (ConstSlice.rawSlice_error hb)
  | ok bytes =>
    rw [hb] at h
    cases hs : fromUtf8 bytes with
    | some s => simp [hs, bind, Except.bind] at h
    | none =>
      simp only [hs, bind, Except.bind] at h
      exact Or.inr (Except.error.inj h).symm

theorem MutBytes.bytesMut_error {dst : MutBytes} {name : String} {f : FfiFault}
    (h : dst.bytesMut name = .error f) : f = .failure (nullPointer name) := by
  cases dst with
  | valid => cases h
  | null len =>
    by_cases hlen : len = 0
    · simp [MutBytes.bytesMut, hlen] at h
    · simp only [MutBytes.bytesMut, hlen, if_false] at h
      exact (Except.error.inj h).symm

theorem MutBytes.length_store {dst : MutBytes} {bytes buffer : Bytes}
    (h : bytes.length = (dst.view buffer).length) :
    (dst.store bytes buffer).length = buffer.length := by
  cases dst with
  | valid => exact h
  | null len => rfl

/-- `RasenBuffer`. -/
structure RasenBuffer where
  data : Option Bytes := none
  len : ℕ := 0
  deriving DecidableEq, Repr

/-- `into_buffer`. -/
def intoBuffer (bytes : Bytes) : RasenBuffer :=
  if bytes = [] then {} else ⟨some bytes, bytes.length⟩

/-! ## Calls -/

/-- A state with the text of the last error of the thread. -/
structure Thread (σ : Type) where
  state : σ
  lastError : String

/-- `ffi_call`, with the text of the last error that it leaves. -/
def ffiCall {σ : Type} (call : Fallible σ FfiFault Unit) (t : Thread σ) : RasenStatus × Thread σ :=
  match call t.state with
  | (.ok (), s) => (.ok, ⟨s, t.lastError⟩)
  | (.error f, s) => (f.status, ⟨s, sanitize f.message⟩)

section Call

variable {σ ρ : Type} {call : Fallible σ FfiFault Unit} {t : Thread σ}

theorem ffiCall_of_ok {s : σ} (h : call t.state = (.ok (), s)) :
    ffiCall call t = (.ok, ⟨s, t.lastError⟩) := by
  rw [ffiCall, h]

theorem ffiCall_of_error {f : FfiFault} {s : σ} (h : call t.state = (.error f, s)) :
    ffiCall call t = (f.status, ⟨s, sanitize f.message⟩) := by
  rw [ffiCall, h]

@[simp] theorem ffiCall_state : (ffiCall call t).2.state = (call t.state).2 := by
  rcases h : call t.state with ⟨f | ⟨⟨⟩⟩, s⟩
  · rw [ffiCall_of_error h]
  · rw [ffiCall_of_ok h]

/-- **The status is `ok`** exactly for the calls that succeed. -/
theorem ffiCall_ok_iff : (ffiCall call t).1 = .ok ↔ (call t.state).1 = .ok () := by
  rcases h : call t.state with ⟨f | ⟨⟨⟩⟩, s⟩
  · rw [ffiCall_of_error h]
    simpa using f.status_ne
  · rw [ffiCall_of_ok h]
    simp

/-- **The last error** after a call is what it was, or the text of the fault of the call. -/
theorem ffiCall_post {Q : σ → Prop} {E : FfiFault → σ → Prop}
    (h : Fallible.Post call t.state (fun _ => Q) E) :
    ((ffiCall call t).1 = .ok → Q (ffiCall call t).2.state ∧
      (ffiCall call t).2.lastError = t.lastError) ∧
    ((ffiCall call t).1 ≠ .ok → ∃ f, E f (ffiCall call t).2.state ∧
      (ffiCall call t).1 = f.status ∧ (ffiCall call t).2.lastError = sanitize f.message) := by
  rcases hrun : call t.state with ⟨f | ⟨⟨⟩⟩, s⟩
  · rw [ffiCall_of_error hrun]
    exact ⟨fun hok => absurd hok f.status_ne, fun _ => ⟨f, h.of_error hrun, rfl, rfl⟩⟩
  · rw [ffiCall_of_ok hrun]
    exact ⟨fun _ => ⟨h.of_ok hrun, rfl⟩, fun hno => absurd rfl hno⟩

/-- **What a call leaves alone** when its status is not `ok` is what its failures spare. -/
theorem ffiCall_spares_iff {obs : σ → ρ} :
    ((ffiCall call t).1 ≠ .ok → obs (ffiCall call t).2.state = obs t.state) ↔
      Fallible.Spares True obs call t.state := by
  rw [Ne, ffiCall_ok_iff, ffiCall_state]
  unfold Fallible.Spares
  rcases (call t.state).1 with f | ⟨⟨⟩⟩
  · simp
  · simp

/-- **Calls that end alike** have the same status, and the same text of the last error when they
fail. -/
theorem ffiCall_abreast {τ : Type} {call' : Fallible τ FfiFault Unit} {s : σ} {s' : τ}
    {Q : Unit → σ → Unit → τ → Prop} {E : σ → τ → Prop} (e e' : String)
    (h : Fallible.Abreast call s call' s' Q E) :
    (∃ u u', ffiCall call ⟨s, e⟩ = (.ok, ⟨u, e⟩) ∧ ffiCall call' ⟨s', e'⟩ = (.ok, ⟨u', e'⟩) ∧
        Q () u () u') ∨
      ∃ f u u', FfiFault.status f ≠ .ok ∧
        ffiCall call ⟨s, e⟩ = (f.status, ⟨u, sanitize f.message⟩) ∧
        ffiCall call' ⟨s', e'⟩ = (f.status, ⟨u', sanitize f.message⟩) ∧ E u u' := by
  rcases Fallible.abreast_iff.mp h with ⟨⟨⟩, u, ⟨⟩, u', hx, hy, hQ⟩ | ⟨f, u, u', hx, hy, hE⟩
  · exact Or.inl ⟨u, u', ffiCall_of_ok hx, ffiCall_of_ok hy, hQ⟩
  · exact Or.inr ⟨f, u, u', f.status_ne, ffiCall_of_error hx, ffiCall_of_error hy, hE⟩

end Call

end RasenArchive
