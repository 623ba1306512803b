import RasenArchive.Ffi.Boundary
import RasenArchive.Pack.Serialise

/-!
# Packing through the C interface

The options of the caller, `rasen_pack_memory`, which packs byte strings into a buffer that is
handed to the caller, and the calls of the packer that all functions of the C interface make.

## Main definitions

* `RasenPackOptions`, `packOptions`: the options
* `PackCaller`: the state of a caller that packs
* `rasenPackMemory`: packing into a buffer

## Main results

* `packOptions_eq_ok_iff`: the options that are accepted
* `rasenPackMemory_eq_ok_iff`: when packing into a buffer succeeds, and what it leaves
-/

namespace RasenArchive

variable (D : Dependencies)

/-! ## Options -/

/-- `PACK_MODE_DEBUG`. -/
def packModeDebug : UInt32 := 0

/-- `PACK_MODE_PRODUCTION`. -/
def packModeProduction : UInt32 := 1

/-- `PROTECTION_XOR`. -/
def protectionXor : UInt32 := 0

/-- `PROTECTION_AEAD`. -/
def protectionAead : UInt32 := 1

/-- `RasenPackOptions`. -/
structure RasenPackOptions where
  chunkSize : ℕ
  alignment : UInt32
  mode : UInt32
  protection : UInt32
  deriving DecidableEq, Repr

/-- `From<PackOptions>` for `RasenPackOptions`. -/
def RasenPackOptions.ofOptions (value : PackOptions) : RasenPackOptions where
  chunkSize := value.chunkSize
  alignment := value.alignment
  mode := match value.mode with
    | .debug => packModeDebug
    | .production => packModeProduction
  protection := match value.protection with
    | .xor => protectionXor
    | .aead => protectionAead

/-- The failure for a number that no mode or protection has. -/
def invalidValue (name : String) (value : UInt32) : FfiFailure :=
  ⟨.invalidValue, "invalid " ++ name ++ ": " ++ toString value.toNat, by decide⟩

/-- The mode in `pack_options`. -/
def packMode (value : UInt32) : FfiResult PackMode :=
  if value = packModeDebug then .ok .debug
  else if value = packModeProduction then .ok .production
  else failAcross (invalidValue "pack mode" value)

/-- The protection in `pack_options`. -/
def packProtection (value : UInt32) : FfiResult Protection :=
  if value = protectionXor then .ok .xor
  else if value = protectionAead then .ok .aead
  else failAcross (invalidValue "protection" value)

/-- `pack_options`, of a pointer that may be null. -/
def packOptions (options : Option RasenPackOptions) : FfiResult PackOptions :=
  match options with
  | none => .ok .default
  | some options => do
    let mode ← packMode options.mode
    let protection ← packProtection options.protection
    .ok ⟨options.chunkSize, options.alignment, mode, protection⟩

/-- **The accepted options** are null, for the defaults, and the options of the library. -/
theorem packOptions_eq_ok_iff {options : Option RasenPackOptions} {value : PackOptions} :
    packOptions options = .ok value ↔
      (options = none ∧ value = .default) ∨ options = some (.ofOptions value) := by
  obtain _ | ⟨chunkSize, alignment, mode, protection⟩ := options
  · simp [packOptions, eq_comm]
  obtain ⟨chunkSize', alignment', mode', protection'⟩ := value
  have hmode : packMode mode = .ok mode' ↔ mode = (RasenPackOptions.ofOptions
      ⟨chunkSize', alignment', mode', protection'⟩).mode := by
    unfold packMode
    cases mode' <;> split_ifs with h₁ h₂ <;>
      simp_all [RasenPackOptions.ofOptions, packModeDebug, packModeProduction]
  have hprotection : packProtection protection = .ok protection' ↔
      protection = (RasenPackOptions.ofOptions
        ⟨chunkSize', alignment', mode', protection'⟩).protection := by
    unfold packProtection
    cases protection' <;> split_ifs with h₁ h₂ <;>
      simp_all [RasenPackOptions.ofOptions, protectionXor, protectionAead]
  have hcases : packOptions (some ⟨chunkSize, alignment, mode, protection⟩) =
        .ok ⟨chunkSize', alignment', mode', protection'⟩ ↔
      chunkSize = chunkSize' ∧ alignment = alignment' ∧ packMode mode = .ok mode' ∧
        packProtection protection = .ok protection' := by
    simp only [packOptions, FfiResult.bind_eq_ok, Except.ok.injEq, PackOptions.mk.injEq]
    constructor
    · rintro ⟨m, hm, p, hp, rfl, rfl, rfl, rfl⟩
      exact ⟨rfl, rfl, hm, hp⟩
    · rintro ⟨rfl, rfl, hm, hp⟩
      exact ⟨_, hm, _, hp, rfl, rfl, rfl, rfl⟩
  rw [hcases, hmode, hprotection]
  simp [RasenPackOptions.ofOptions]

/-! ## Packing into a buffer -/

/-- `RasenInputFile`. -/
structure RasenInputFile where
  path : ConstBytes
  data : ConstBytes

/-- `buffered_inputs`. -/
def bufferedInputs (files : ConstSlice RasenInputFile) : FfiResult (List InputFile) := do
  let files ← files.rawSlice "files"
  files.mapM fun file => do
    let path ← file.path.utf8 "file.path"
    let data ← file.data.bytes "file.data"
    .ok ⟨path, data⟩

/-- A byte string as a reader. -/
def sliceInput (file : InputFile) : Input := ⟨file.path, [.data file.data]⟩

/-- `pack_buffered`. -/
def packBuffered {W : Type} (R : Destination W) (files : List InputFile) (key : Bytes)
    (options : PackOptions) : Fallible (PackEnv W) Fault PackSummary :=
  packReaders D R key options (files.map sliceInput)

/-- The state of a caller that packs: what the caller's callbacks work on, the places for the
archive and the summary, and the random source. -/
structure PackCaller (U : Type) where
  user : U
  outArchive : RasenBuffer
  outSummary : PackSummary
  entropy : Entropy

variable {U : Type}

/-- A packing run into a new `Cursor<Vec<u8>>`, with the bytes that it leaves there. -/
def intoCursor (x : Fallible (PackEnv Device) Fault PackSummary) :
    Fallible (PackCaller U) FfiFault (PackSummary × Bytes) := fun s =>
  let r := Fallible.mapError FfiFault.ofFault x ⟨Device.empty none none, s.entropy⟩
  (r.1.map fun summary => (summary, r.2.writer.bytes), { s with entropy := r.2.entropy })

/-- `if let Some(out_summary) = out_summary.as_mut()`. -/
def storeSummary (outSummary : Pointer) (summary : PackSummary) :
    Fallible (PackCaller U) FfiFault Unit :=
  match outSummary with
  | .null => pure ()
  | .valid => Fallible.modify fun s => { s with outSummary := summary }

/-- `rasen_pack_memory`. -/
def rasenPackMemory (files : ConstSlice RasenInputFile) (key : ConstBytes)
    (options : Option RasenPackOptions) (outArchive outSummary : Pointer) :
    Fallible (PackCaller U) FfiFault Unit := do
  requiredMut outArchive "out_archive"
  let files ← bufferedInputs files
  let key ← key.bytes "key"
  let options ← packOptions options
  let (summary, archive) ← intoCursor (packBuffered D deviceDestination files key options)
  Fallible.modify fun s => { s with outArchive := intoBuffer archive }
  storeSummary outSummary summary

/-- The file of the caller: a path that is a string, and its bytes. -/
structure RasenInputFile.IsFile (raw : RasenInputFile) (file : InputFile) : Prop where
  path : raw.path.Holds (asBytes file.path)
  data : raw.data.Holds file.data

/-- **The buffered inputs** are the files of the caller. -/
theorem bufferedInputs_eq_ok_iff {files : ConstSlice RasenInputFile} {inputs : List InputFile} :
    bufferedInputs files = .ok inputs ↔
      ∃ raws, files.Holds raws ∧ List.Forall₂ RasenInputFile.IsFile raws inputs := by
  unfold bufferedInputs
  rw [FfiResult.bind_eq_ok]
  refine exists_congr fun raws => and_congr ConstSlice.rawSlice_eq_ok_iff ?_
  induction raws generalizing inputs with
  | nil =>
    rw [List.mapM_nil, List.forall₂_nil_left_iff]
    exact ⟨fun h => (Except.ok.inj h).symm, fun h => h ▸ rfl⟩
  | cons raw raws ih =>
    simp only [List.mapM_cons, FfiResult.bind_eq_ok, ConstBytes.utf8_eq_ok_iff,
      ConstBytes.bytes_eq_ok_iff, Except.ok.injEq, List.forall₂_cons_left_iff]
    constructor
    · rintro ⟨file, ⟨path, hpath, data, hdata, rfl⟩, rest, hrest, hcons⟩
      exact ⟨⟨path, data⟩, rest, ⟨hpath, hdata⟩, ih.mp hrest, (Except.ok.inj hcons).symm⟩
    · rintro ⟨file, rest, hfile, hrest, rfl⟩
      exact ⟨file, ⟨file.path, hfile.path, file.data, hfile.data, rfl⟩, rest, ih.mpr hrest, rfl⟩

/-- A byte string as a reader delivers itself. -/
theorem forall₂_feeds_sliceInput (files : List InputFile) :
    List.Forall₂ Feeds files (files.map sliceInput) := by
  rw [List.forall₂_map_right_iff, List.forall₂_same]
  rintro ⟨path, data⟩ -
  refine ⟨rfl, ?_⟩
  by_cases hdata : data = []
  · subst hdata
    exact .atEnd fun event hevent => Or.inl (List.mem_singleton.mp hevent)
  · have hdelivers : Delivers [.data data] (data ++ []) := .data hdata (.atEnd nofun)
    rwa [List.append_nil] at hdelivers

theorem intoCursor_eq_ok_iff {x : Fallible (PackEnv Device) Fault PackSummary}
    {s s' : PackCaller U} {summary : PackSummary} {bytes : Bytes} :
    intoCursor x s = (.ok (summary, bytes), s') ↔
      ∃ env, x ⟨Device.empty none none, s.entropy⟩ = (.ok summary, env) ∧
        bytes = env.writer.bytes ∧ s' = { s with entropy := env.entropy } := by
  unfold intoCursor Fallible.mapError
  rcases x ⟨Device.empty none none, s.entropy⟩ with ⟨f | summary', env⟩
  · simp [Except.mapError, Except.map]
  · simp only [Except.mapError, Except.map, Prod.mk.injEq, Except.ok.injEq]
    constructor
    · rintro ⟨⟨rfl, rfl⟩, rfl⟩
      exact ⟨env, ⟨rfl, rfl⟩, rfl, rfl⟩
    · rintro ⟨_, ⟨rfl, rfl⟩, rfl, rfl⟩
      exact ⟨⟨rfl, rfl⟩, rfl⟩

/-- The place for the summary after a run. -/
def Pointer.stored {α : Type} (out : Pointer) (value old : α) : α :=
  match out with
  | .null => old
  | .valid => value

theorem storeSummary_apply (outSummary : Pointer) (summary : PackSummary) (s : PackCaller U) :
    storeSummary outSummary summary s =
      (.ok (), { s with outSummary := outSummary.stored summary s.outSummary }) := by
  cases outSummary <;> rfl

/-- **Packing into a buffer succeeds** where the pointers and the options are accepted and the
packer succeeds on the files; the archive and the summary are those of the packer. -/
theorem rasenPackMemory_eq_ok_iff {files : ConstSlice RasenInputFile} {key : ConstBytes}
    {options : Option RasenPackOptions} {outArchive outSummary : Pointer} {s s' : PackCaller U} :
    rasenPackMemory D files key options outArchive outSummary s = (.ok (), s') ↔
      outArchive = .valid ∧ ∃ inputs keyBytes value summary env, bufferedInputs files = .ok inputs ∧
        key.Holds keyBytes ∧ packOptions options = .ok value ∧
        packReaders D deviceDestination keyBytes value (inputs.map sliceInput)
          ⟨Device.empty none none, s.entropy⟩ = (.ok summary, env) ∧
        s' = ⟨s.user, intoBuffer env.writer.bytes, outSummary.stored summary s.outSummary,
          env.entropy⟩ := by
  have hout : ∀ u, requiredMut outArchive "out_archive" = .ok u ↔ outArchive = .valid := by
    intro u
    cases outArchive <;> simp [requiredMut]
  unfold rasenPackMemory
  simp only [Fallible.bind_eq_ok, Fallible.liftM_eq_ok, hout, ConstBytes.bytes_eq_ok_iff,
    storeSummary_apply]
  constructor
  · rintro ⟨_, s₁, ⟨hvalid, rfl⟩, inputs, s₂, ⟨hinputs, rfl⟩, keyBytes, s₃, ⟨hkey, rfl⟩, value, s₄,
      ⟨hvalue, rfl⟩, ⟨summary, bytes⟩, s₅, hrun, _, s₆, hmodify, hstore⟩
    obtain ⟨env, hpack, rfl, rfl⟩ := intoCursor_eq_ok_iff.mp hrun
    cases hmodify
    cases hstore
    exact ⟨hvalid, inputs, keyBytes, value, summary, env, hinputs, hkey, hvalue, hpack, rfl⟩
  · rintro ⟨hvalid, inputs, keyBytes, value, summary, env, hinputs, hkey, hvalue, hpack, rfl⟩
    exact ⟨(), s, ⟨hvalid, rfl⟩, inputs, s, ⟨hinputs, rfl⟩, keyBytes, s, ⟨hkey, rfl⟩, value, s,
      ⟨hvalue, rfl⟩, (summary, env.writer.bytes), _, intoCursor_eq_ok_iff.mpr ⟨env, hpack, rfl, rfl⟩,
      (), _, rfl, rfl⟩

end RasenArchive
