import RasenArchive.Ffi.Streams

/-!
# Packing into a new file

`rasen_pack_file` creates a file that was not there, packs into it, and removes it when the packer
returns an error. It packs as `rasen_pack_memory` does, and a call that fails leaves the files as
they were.

## Main definitions

* `Files`, `FileOs`: the files of the system, and what the operating system answers
* `rasenPackFile`

## Main results

* `rasenPackFile_cases`: a call is refused before it creates the file, or packs into it
* `pack_file_memory`: the file holds what would be in the buffer, and no other file is touched
-/

namespace RasenArchive

/-- The files of the system, by path. -/
abbrev Files : Type := String → Option Bytes

/-- The answers of the operating system: why a file is not created or removed, and how many bytes
and seeks a new file takes before it fails. -/
structure FileOs where
  createNew : Option IoError
  room : Option ℕ
  seeks : Option ℕ
  removeFile : Option IoError

/-- The caller with other content at the path. -/
def PackCaller.withFile (s : PackCaller Files) (path : String) (content : Option Bytes) :
    PackCaller Files :=
  { s with user := Function.update s.user path content }

/-- `OpenOptions::new().write(true).create_new(true).open(path)?`. -/
def openNew (os : FileOs) (path : String) : Fallible (PackCaller Files) FfiFault Unit := fun s =>
  match s.user path, os.createNew with
  | some _, failure =>
    (.error (.failure (.ofError (.io (failure.getD ⟨.alreadyExists, "file exists"⟩)))), s)
  | none, some e => (.error (.failure (.ofError (.io e))), s)
  | none, none => (.ok (), s.withFile path (some []))

/-- The file after a packing run that left these bytes in it. An error removes it, if it can be
removed. A panic unwinds past the removal. -/
def fileAfter (os : FileOs) (result : Result PackSummary) (bytes : Bytes) : Option Bytes :=
  match result, os.removeFile with
  | .error (.error _), none => none
  | _, _ => some bytes

/-- A packing run on the file at the path, which is new and empty. -/
def intoFile (os : FileOs) (path : String) (x : Fallible (PackEnv Device) Fault PackSummary) :
    Fallible (PackCaller Files) FfiFault PackSummary := fun s =>
  let r := x ⟨Device.empty os.room os.seeks, s.entropy⟩
  (r.1.mapError FfiFault.ofFault,
    { s.withFile path (fileAfter os r.1 r.2.writer.bytes) with entropy := r.2.entropy })

variable (D : Dependencies)

/-- `rasen_pack_file`. -/
def rasenPackFile (os : FileOs) (outputPath : ConstBytes) (files : ConstSlice RasenInputFile)
    (key : ConstBytes) (options : Option RasenPackOptions) (outSummary : Pointer) :
    Fallible (PackCaller Files) FfiFault Unit := do
  let outputPath ← outputPath.utf8 "output_path"
  let files ← bufferedInputs files
  let key ← key.bytes "key"
  let options ← packOptions options
  openNew os outputPath
  let summary ← intoFile os outputPath (packBuffered D deviceDestination files key options)
  storeSummary outSummary summary

section Cases

variable {D} {os : FileOs} {outputPath : ConstBytes} {files : ConstSlice RasenInputFile}
  {key : ConstBytes} {options : Option RasenPackOptions} {outSummary : Pointer}
  {s : PackCaller Files} {p : String}

theorem openNew_of_free (hfree : s.user p = none) (hos : os.createNew = none) :
    openNew os p s = (.ok (), s.withFile p (some [])) := by
  rw [openNew, hfree, hos]

theorem openNew_cases (os : FileOs) (p : String) (s : PackCaller Files) :
    (∃ f, openNew os p s = (.error f, s)) ∨ s.user p = none ∧ os.createNew = none := by
  unfold openNew
  cases hfile : s.user p with
  | some bytes => exact Or.inl ⟨_, rfl⟩
  | none =>
    cases hos : os.createNew with
    | some e => exact Or.inl ⟨_, rfl⟩
    | none => exact Or.inr ⟨rfl, rfl⟩

/-- **A call** is refused before it touches a file, or it packs into a new file. -/
theorem rasenPackFile_cases :
    (∃ f, rasenPackFile D os outputPath files key options outSummary s = (.error f, s)) ∨
      ∃ p inputs keyBytes value, outputPath.Holds (asBytes p) ∧ bufferedInputs files = .ok inputs ∧
        key.Holds keyBytes ∧ packOptions options = .ok value ∧ s.user p = none ∧
        rasenPackFile D os outputPath files key options outSummary s =
          (intoFile os p (packBuffered D deviceDestination inputs keyBytes value) >>=
            storeSummary outSummary) (s.withFile p (some [])) := by
  unfold rasenPackFile
  cases hpath : outputPath.utf8 "output_path" with
  | error f => exact Or.inl ⟨f, rfl⟩
  | ok p =>
    cases hinputs : bufferedInputs files with
    | error f => exact Or.inl ⟨f, rfl⟩
    | ok inputs =>
      cases hkey : key.bytes "key" with
      | error f => exact Or.inl ⟨f, rfl⟩
      | ok keyBytes =>
        cases hvalue : packOptions options with
        | error f => exact Or.inl ⟨f, rfl⟩
        | ok value =>
          rw [Fallible.liftM_bind_of_ok rfl, Fallible.liftM_bind_of_ok rfl,
            Fallible.liftM_bind_of_ok rfl, Fallible.liftM_bind_of_ok rfl]
          obtain ⟨f, hopen⟩ | ⟨hfree, hos⟩ := openNew_cases os p s
          · exact Or.inl ⟨f, Fallible.bind_of_error hopen⟩
          · refine Or.inr ⟨p, inputs, keyBytes, value, ConstBytes.utf8_eq_ok_iff.mp hpath, rfl,
              ConstBytes.bytes_eq_ok_iff.mp hkey, rfl, hfree, ?_⟩
            exact Fallible.bind_of_ok (openNew_of_free hfree hos)

theorem intoFile_of_ok {x : Fallible (PackEnv Device) Fault PackSummary} {summary : PackSummary}
    {env : PackEnv Device}
    (hx : x ⟨Device.empty os.room os.seeks, s.entropy⟩ = (.ok summary, env)) :
    intoFile os p x s =
      (.ok summary, { s.withFile p (some env.writer.bytes) with entropy := env.entropy }) := by
  rw [intoFile, hx]
  rfl

theorem intoFile_of_error {x : Fallible (PackEnv Device) Fault PackSummary} {f : Fault}
    {env : PackEnv Device}
    (hx : x ⟨Device.empty os.room os.seeks, s.entropy⟩ = (.error f, env)) :
    intoFile os p x s = (.error (.ofFault f),
      { s.withFile p (fileAfter os (.error f) env.writer.bytes) with entropy := env.entropy }) := by
  rw [intoFile, hx]
  rfl

/-- **Without limits** on the new file, packing into it and packing into a buffer end alike. -/
theorem rasenPackFile_abreast {U : Type} {t : PackCaller U} (hpath : outputPath.Holds (asBytes p))
    (hfree : s.user p = none) (hcreate : os.createNew = none) (hroom : os.room = none)
    (hseeks : os.seeks = none) (hentropy : t.entropy = s.entropy) (outSummary' : Pointer) :
    Fallible.Abreast (rasenPackFile D os outputPath files key options outSummary) s
      (rasenPackMemory D files key options .valid outSummary') t (fun _ _ _ _ => True)
      fun _ _ => True := by
  have hutf8 : outputPath.utf8 "output_path" = .ok p := ConstBytes.utf8_eq_ok_iff.mpr hpath
  have hvalid : requiredMut .valid "out_archive" = .ok () := rfl
  unfold rasenPackFile rasenPackMemory
  rw [Fallible.Abreast, Fallible.liftM_bind_of_ok hutf8, Fallible.liftM_bind_of_ok hvalid]
  refine Fallible.abreast_liftM_bind (bufferedInputs files) trivial fun inputs _ => ?_
  refine Fallible.abreast_liftM_bind (key.bytes "key") trivial fun keyBytes _ => ?_
  refine Fallible.abreast_liftM_bind (packOptions options) trivial fun value _ => ?_
  rw [Fallible.Abreast, Fallible.bind_of_ok (openNew_of_free hfree hcreate)]
  refine Fallible.Abreast.bind (Q := fun _ _ _ _ => True) ?_ ?_
  · have hdevice : Device.empty os.room os.seeks = Device.empty none none := by rw [hroom, hseeks]
    rcases hrun : packBuffered D deviceDestination inputs keyBytes value
      ⟨Device.empty os.room os.seeks, s.entropy⟩ with ⟨f | summary, env⟩
    · have hcursor : intoCursor (packBuffered D deviceDestination inputs keyBytes value) t =
          (.error (.ofFault f), { t with entropy := env.entropy }) := by
        rw [intoCursor, hentropy, ← hdevice, Fallible.mapError_of_error hrun]
        rfl
      exact Fallible.abreast_error (intoFile_of_error hrun) hcursor trivial
    · have hcursor : intoCursor (packBuffered D deviceDestination inputs keyBytes value) t =
          (.ok (summary, env.writer.bytes), { t with entropy := env.entropy }) := by
        rw [intoCursor, hentropy, ← hdevice, Fallible.mapError_of_ok hrun]
        rfl
      exact Fallible.abreast_ok (intoFile_of_ok hrun) hcursor trivial
  · rintro summary s' ⟨summary', archive⟩ t' -
    exact Fallible.abreast_ok (storeSummary_apply _ _ _) (storeSummary_apply _ _ _) trivial

/-- **Where packing into a file succeeds**, so does packing into a buffer, with the same archive. -/
theorem rasenPackFile_ok {U : Type} {s' : PackCaller Files} {t : PackCaller U}
    (hentropy : t.entropy = s.entropy)
    (h : rasenPackFile D os outputPath files key options outSummary s = (.ok (), s')) :
    ∃ p archive t', outputPath.Holds (asBytes p) ∧ s.user p = none ∧
      s'.user = Function.update s.user p (some archive) ∧
      rasenPackMemory D files key options .valid outSummary t = (.ok (), t') ∧
      t'.outArchive = intoBuffer archive ∧ t'.entropy = s'.entropy ∧
      ∃ summary, s'.outSummary = outSummary.stored summary s.outSummary ∧
        t'.outSummary = outSummary.stored summary t.outSummary := by
  obtain ⟨f, hrefused⟩ | ⟨p, inputs, keyBytes, value, hpath, hinputs, hkey, hvalue, hfree, hcall⟩ :=
    @rasenPackFile_cases D os outputPath files key options outSummary s
  · rw [hrefused] at h
    cases h
  rcases hrun : packBuffered D deviceDestination inputs keyBytes value
    ⟨Device.empty os.room os.seeks, s.entropy⟩ with ⟨f | summary, env⟩
  · rw [hcall, Fallible.bind_of_error (intoFile_of_error (s := s.withFile p (some [])) hrun)] at h
    cases h
  · rw [hcall, Fallible.bind_of_ok (intoFile_of_ok (s := s.withFile p (some [])) hrun),
      storeSummary_apply] at h
    cases h
    obtain ⟨-, env', hmemory, hbytes, he⟩ := packReaders_of_feeds D
      (forall₂_feeds_sliceInput inputs) (forall₂_feeds_sliceInput inputs)
      (show (Device.empty none none).bytes = [] from rfl) ⟨rfl, rfl⟩ hrun
    rw [← hentropy] at hmemory
    have hmem : rasenPackMemory D files key options .valid outSummary t = (.ok (), _) :=
      (rasenPackMemory_eq_ok_iff D).mpr ⟨rfl, inputs, keyBytes, value, summary, env', hinputs, hkey,
        hvalue, hmemory, rfl⟩
    refine ⟨p, env.writer.bytes, _, hpath, hfree, Function.update_idem _ _ _, hmem, ?_, he, summary,
      rfl, rfl⟩
    rw [← hbytes]

/-- **A call that fails** leaves the files as they were, unless it panics or the new file cannot be
removed. -/
theorem rasenPackFile_failed {f : FfiFault} {s' : PackCaller Files} (hremove : os.removeFile = none)
    (hpanic : f.status ≠ .panic)
    (h : rasenPackFile D os outputPath files key options outSummary s = (.error f, s')) :
    s'.user = s.user ∧ s'.outSummary = s.outSummary := by
  obtain ⟨f, hrefused⟩ | ⟨p, inputs, keyBytes, value, -, -, -, -, hfree, hcall⟩ :=
    @rasenPackFile_cases D os outputPath files key options outSummary s
  · rw [hrefused] at h
    cases h
    exact ⟨rfl, rfl⟩
  rcases hrun : packBuffered D deviceDestination inputs keyBytes value
    ⟨Device.empty os.room os.seeks, s.entropy⟩ with ⟨f' | summary, env⟩
  · rw [hcall, Fallible.bind_of_error (intoFile_of_error (s := s.withFile p (some [])) hrun)] at h
    cases h
    cases f' with
    -- a panic unwinds past the removal, and has a status of its own
    | panic reason => exact absurd rfl hpanic
    | error e =>
      refine ⟨?_, rfl⟩
      have hgone : fileAfter os (.error (.error e)) env.writer.bytes = none := by
        simp only [fileAfter, hremove]
      -- the new file is gone, and there was none before
      show Function.update (Function.update s.user p _) p _ = s.user
      rw [hgone, Function.update_idem, Function.update_eq_self_iff, hfree]
  · rw [hcall, Fallible.bind_of_ok (intoFile_of_ok (s := s.withFile p (some [])) hrun),
      storeSummary_apply] at h
    cases h

/-- **No other file is touched**, and none that was there before. -/
theorem rasenPackFile_apart {q : String}
    (hq : s.user q ≠ none ∨ ¬ outputPath.Holds (asBytes q)) :
    (rasenPackFile D os outputPath files key options outSummary s).2.user q = s.user q := by
  obtain ⟨f, hrefused⟩ | ⟨p, inputs, keyBytes, value, hpath, -, -, -, hfree, hcall⟩ :=
    @rasenPackFile_cases D os outputPath files key options outSummary s
  · rw [hrefused]
  have hne : q ≠ p := by
    rintro rfl
    obtain hq | hq := hq
    · exact hq hfree
    · exact hq hpath
  rcases hrun : packBuffered D deviceDestination inputs keyBytes value
    ⟨Device.empty os.room os.seeks, s.entropy⟩ with ⟨f | summary, env⟩
  · rw [hcall, Fallible.bind_of_error (intoFile_of_error (s := s.withFile p (some [])) hrun)]
    show Function.update (Function.update s.user p _) p _ q = _
    rw [Function.update_of_ne hne, Function.update_of_ne hne]
  · rw [hcall, Fallible.bind_of_ok (intoFile_of_ok (s := s.withFile p (some [])) hrun),
      storeSummary_apply]
    show Function.update (Function.update s.user p _) p _ q = _
    rw [Function.update_of_ne hne, Function.update_of_ne hne]

end Cases

/-- **Packing into a new file.** Where it succeeds, there was no file at the path, and there is now
the archive that packing into a buffer gives. On a file that takes all writes, both calls have the
same status and the same text of the last error. A call that fails without a panic leaves the files
as they were, if the new file can be removed; and in any case no file that was there before is
touched, and none at any other path. -/
theorem pack_file_memory {U : Type} {os : FileOs} {outputPath : ConstBytes}
    {files : ConstSlice RasenInputFile} {key : ConstBytes} {options : Option RasenPackOptions}
    {outSummary : Pointer} {s : Thread (PackCaller Files)} {t : Thread (PackCaller U)}
    (hentropy : t.state.entropy = s.state.entropy) :
    ((ffiCall (rasenPackFile D os outputPath files key options outSummary) s).1 = .ok →
      ∃ p archive, outputPath.Holds (asBytes p) ∧ s.state.user p = none ∧
        (ffiCall (rasenPackFile D os outputPath files key options outSummary) s).2.state.user =
          Function.update s.state.user p (some archive) ∧
        (ffiCall (rasenPackMemory D files key options .valid outSummary) t).1 = .ok ∧
        (ffiCall (rasenPackMemory D files key options .valid outSummary) t).2.state.outArchive =
          intoBuffer archive ∧
        ∃ summary,
          (ffiCall (rasenPackFile D os outputPath files key options outSummary)
            s).2.state.outSummary = outSummary.stored summary s.state.outSummary ∧
          (ffiCall (rasenPackMemory D files key options .valid outSummary)
            t).2.state.outSummary = outSummary.stored summary t.state.outSummary) ∧
    (∀ p, outputPath.Holds (asBytes p) → s.state.user p = none → os.createNew = none →
      os.room = none → os.seeks = none →
      (ffiCall (rasenPackFile D os outputPath files key options outSummary) s).1 =
          (ffiCall (rasenPackMemory D files key options .valid outSummary) t).1 ∧
        ((ffiCall (rasenPackFile D os outputPath files key options outSummary) s).1 ≠ .ok →
          (ffiCall (rasenPackFile D os outputPath files key options outSummary) s).2.lastError =
            (ffiCall (rasenPackMemory D files key options .valid outSummary) t).2.lastError)) ∧
    ((ffiCall (rasenPackFile D os outputPath files key options outSummary) s).1 ≠ .ok →
      (ffiCall (rasenPackFile D os outputPath files key options outSummary) s).1 ≠ .panic →
      os.removeFile = none →
      (ffiCall (rasenPackFile D os outputPath files key options outSummary) s).2.state.user =
        s.state.user) ∧
    ∀ q, s.state.user q ≠ none ∨ ¬ outputPath.Holds (asBytes q) →
      (ffiCall (rasenPackFile D os outputPath files key options outSummary) s).2.state.user q =
        s.state.user q := by
  refine ⟨fun hok => ?_, fun p hpath hfree hcreate hroom hseeks => ?_,
    fun hfail hpanic hremove => ?_, fun q hq => ?_⟩
  · -- the run gives a file and an archive in memory
    obtain ⟨p, archive, t', hpath, hfree, hfile, hmemory, harchive, -, summary, hs, ht⟩ :=
      rasenPackFile_ok hentropy (Prod.ext (ffiCall_ok_iff.mp hok) rfl)
    rw [ffiCall_state, ffiCall_of_ok hmemory]
    exact ⟨p, archive, hpath, hfree, hfile, rfl, harchive, summary, hs, ht⟩
  · -- without failures of the system the two calls go side by side
    have habreast : Fallible.Abreast (rasenPackFile D os outputPath files key options outSummary)
        s.state (rasenPackMemory D files key options .valid outSummary) t.state _ _ :=
      rasenPackFile_abreast hpath hfree hcreate hroom hseeks hentropy outSummary
    rcases ffiCall_abreast s.lastError t.lastError habreast with ⟨s', t', hx, hy, -⟩ |
      ⟨f, s', t', -, hx, hy, -⟩
    · rw [hx, hy]
      exact ⟨rfl, fun hne => absurd rfl hne⟩
    · rw [hx, hy]
      exact ⟨rfl, fun _ => rfl⟩
  · rcases hrun : rasenPackFile D os outputPath files key options outSummary s.state with
      ⟨f | ⟨⟨⟩⟩, s'⟩
    · -- a failed call removes its file
      rw [ffiCall_of_error hrun] at hpanic ⊢
      exact (rasenPackFile_failed hremove hpanic hrun).1
    · rw [ffiCall_of_ok hrun] at hfail
      exact absurd rfl hfail
  · -- no other path is written
    rw [ffiCall_state]
    exact rasenPackFile_apart hq

/-- A system without limits. -/
def freeOs : FileOs := ⟨none, none, none, none⟩

/-- One file of three bytes is packed into a new file as it is packed into a buffer. -/
theorem pack_file_memory_small :
    (ffiCall (rasenPackFile reference freeOs (.data (asBytes "out"))
      (.data [⟨.data (asBytes "./a"), .data [1, 2, 3]⟩]) (.data [7])
      (some (.ofOptions ⟨2, 4, .debug, .xor⟩)) .valid) (newCaller fun _ => none)).1 = .ok := by
  refine ((pack_file_memory reference (t := newCaller ()) rfl).2.1 "out" (Or.inl rfl) rfl rfl rfl
    rfl).1.trans ?_
  decide +kernel

end RasenArchive
