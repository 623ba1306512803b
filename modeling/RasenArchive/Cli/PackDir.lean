import RasenArchive.Cli.Collect
import RasenArchive.Library.Traced
import RasenArchive.Pack.Run

/-!
# Packing a directory

`pack_dir`: the files below a directory are packed into a new file next to the output, which takes
the place of the output when it is complete. It is a run over the disk in which every operation may
fail and after every change of which the process may die.

## Main definitions

* `Node`, `Disk`: what is at the paths of the file system
* `Os`: the answers of the operating system to one run
* `UnstableSort key`: the outcome of a sort that may swap items with equal keys
* `packDir`: the function

## Main results

* `packFiles_eq_ok_iff`: the packer of a run succeeds as the calls for the inputs of its files do
-/

namespace RasenArchive

/-! ## The operating system -/

/-- What is at a path. -/
inductive Node where
  | dir
  | file (bytes : Bytes)
  | symlink
  | special
  deriving DecidableEq

/-- A file system. The paths are in canonical form but for their last component. -/
abbrev Disk : Type := DiskPath → Option Node

/-- A component of an absolute path that need not be in canonical form. -/
inductive Component where
  | normal (name : OsName)
  | parentDir
  deriving DecidableEq

/-- The answers of the operating system to one run. An operation that changes the disk takes effect
where the answer is `none`, and fails with the error otherwise. -/
structure Os where
  /-- `fs::canonicalize(root)` -/
  canonicalRoot : Except IoError DiskPath
  /-- `path::absolute(output)` -/
  absoluteOutput : Except IoError (List Component)
  canonicalize : List Component → Except IoError DiskPath
  readDir : ReadDir
  pid : ℕ
  /-- nanoseconds since `UNIX_EPOCH` -/
  stamp : ℕ
  createNew : DiskPath → Option IoError
  /-- `File::open`, with what reading the file then answers -/
  openFile : DiskPath → Except IoError (List ReadEvent)
  /-- after how many bytes and seeks the writer fails -/
  room : Option ℕ
  seeks : Option ℕ
  entropy : Entropy
  /-- what the temporary file holds at the points in between, while it is written -/
  spills : List Bytes
  flush : Option IoError
  syncAll : Option IoError
  rename : Option IoError
  removeFile : Option IoError

/-- An outcome of `sort_unstable_by` on the keys: in order, with equal keys in any order. -/
structure UnstableSort {α : Type} (key : α → List ℕ) where
  sort : List α → List α
  perm : ∀ xs, (sort xs).Perm xs
  sorted : ∀ xs, (sort xs).Pairwise fun x y => key x ≤ key y

/-- The bytes of a path, in the order of `cmp`. -/
def byteKey (path : String) : List ℕ := (asBytes path).map UInt8.toNat

/-- The key that `pack_dir` sorts by. -/
def nameKey (file : String × DiskPath) : List ℕ := byteKey file.1

/-- How a run ends that does not succeed. -/
inductive Stop where
  /-- the error is returned -/
  | error (e : CliError)
  | panic (p : Panic)
  /-- the listing has not come to its end -/
  | unfinished

def CliError.stop : CliError → Stop
  | .archive (.panic p) => .panic p
  | e => .error e

/-- `result?` in `pack_dir`. -/
def onCli {α : Type} : Except CliError α → Except Stop α
  | .ok a => .ok a
  | .error e => .error e.stop

/-- An operation that does not change the disk. -/
def attempt (failure : Option IoError) : Except CliError Unit :=
  match failure with
  | none => .ok ()
  | some e => .error (.io e)

/-! ## Paths -/

def invalidArg (message : String) : IoError := ⟨.invalidInput, message⟩

/-- `path.file_name()`. -/
def fileName (path : List Component) : Option OsName :=
  match path.getLast? with
  | some (.normal name) => some name
  | _ => none

/-- `path.parent()` of an absolute path. -/
def parentPath (path : List Component) : Option (List Component) :=
  if path = [] then none else some path.dropLast

/-- `normalized_output_path`. -/
def normalizedOutputPath (os : Os) : Except IoError DiskPath := do
  let absolute ← os.absoluteOutput
  let name ← match fileName absolute with
    | some name => .ok name
    | none => .error (invalidArg "output has no file name")
  let parent ← match parentPath absolute with
    | some parent => os.canonicalize parent
    | none => .error (invalidArg "output has no parent directory")
  .ok (parent ++ [name])

/-- The part of `pack_dir` that resolves the output where it exists. -/
def existingPath (os : Os) (output : DiskPath) : Except CliError (Option DiskPath) :=
  -- an output that does not exist is no error
  match os.canonicalize (output.map .normal) with
  | .ok path => .ok (some path)
  | .error e => if e.kind = .notFound then .ok none else .error (.io e)

/-- The part of `pack_dir` that lists the files to pack, for at most `turns` directories. -/
def listFiles (os : Os) (turns : ℕ) :
    Except Stop (DiskPath × List (String × DiskPath)) := do
  let root ← onCli (onIo os.canonicalRoot)
  let output ← onCli (onIo (normalizedOutputPath os))
  let existingOutput ← onCli (existingPath os output)
  match collectFiles os.readDir root output existingOutput turns with
  | none => .error .unfinished
  | some files => do
    let files ← onCli files
    .ok (output, files)

/-! ## The temporary file -/

/-- `File::create_new`, which never opens what exists. -/
def createNew (os : Os) (path : DiskPath) : Fallible (Traced Disk) IoError Unit := fun t =>
  match t.now path, os.createNew path with
  | some _, failure => (.error (failure.getD ⟨.alreadyExists, "file exists"⟩), t)
  | none, some e => (.error e, t)
  | none, none => (.ok (), t.change (Function.update t.now path (some (.file []))))

/-- The loop of `create_temp` over the paths to try. -/
def tryPaths (os : Os) : List DiskPath → Fallible (Traced Disk) IoError DiskPath
  | [] => Fallible.fail ⟨.alreadyExists, "could not allocate temporary output name"⟩
  | path :: paths => fun t =>
    match createNew os path t with
    | (.ok (), t') => (.ok path, t')
    | (.error e, t') => if e.kind = .alreadyExists then tryPaths os paths t' else (.error e, t')

/-- `create_temp`. -/
def createTemp (os : Os) (output : DiskPath) : Fallible (Traced Disk) IoError DiskPath :=
  if output = [] then Fallible.fail (invalidArg "output has no parent directory")
  else tryPaths os ((List.range 128).filterMap (tempPath output os.pid os.stamp))

/-- `fs::rename`, which is one change of the disk. -/
def renameFile (os : Os) (source target : DiskPath) : Fallible (Traced Disk) IoError Unit := fun t =>
  match os.rename, t.now source, t.now target with
  | some e, _, _ => (.error e, t)
  | none, none, _ => (.error ⟨.notFound, "no such file"⟩, t)
  | none, some _, some .dir => (.error ⟨.other, "is a directory"⟩, t)
  | none, some node, _ =>
    (.ok (), t.change (Function.update (Function.update t.now target (some node)) source none))

/-- `fs::remove_file`. -/
def removeFile (os : Os) (path : DiskPath) : Fallible (Traced Disk) IoError Unit := fun t =>
  match os.removeFile, t.now path with
  | some e, _ => (.error e, t)
  | none, none => (.error ⟨.notFound, "no such file"⟩, t)
  | none, some _ => (.ok (), t.change (Function.update t.now path none))

/-- What the file at the path holds after the writes so far. -/
def spill (path : DiskPath) : List Bytes → Fallible (Traced Disk) CliError Unit
  | [] => pure ()
  | bytes :: rest => do
    Traced.step fun disk => Function.update disk path (some (.file bytes))
    spill path rest

/-! ## Packing -/

/-- `result?` of a call of the library. -/
def archiving {σ α : Type} (x : Fallible σ Fault α) : Fallible σ CliError α := fun s =>
  match x s with
  | (.ok a, s') => (.ok a, s')
  | (.error f, s') => (.error (.archive f), s')

/-- `result?` of an operation on files, in the closure of `pack_dir`. -/
def onFiles {σ α : Type} (x : Fallible σ IoError α) : Fallible σ CliError α := fun s =>
  match x s with
  | (.ok a, s') => (.ok a, s')
  | (.error e, s') => (.error (.io e), s')

/-- `result?` of an operation on files, in `pack_dir`. -/
def opening {σ α : Type} (x : Fallible σ IoError α) : Fallible σ Stop α := fun s =>
  match x s with
  | (.ok a, s') => (.ok a, s')
  | (.error e, s') => (.error (.error (.io e)), s')

section

variable {W : Type} (D : Dependencies) (R : Destination W)
  (openFile : DiskPath → Except IoError (List ReadEvent))

/-- The loop of `pack_dir` over the files. -/
def addFiles : List (String × DiskPath) → Fallible (PackState W) CliError Unit
  | [] => pure ()
  | (virtualPath, diskPath) :: files => do
    let source ← onIo (openFile diskPath)
    archiving (addReader D R virtualPath source)
    addFiles files

/-- The part of `pack_dir` with the packer. -/
def packFiles (key : Bytes) (options : PackOptions) (files : List (String × DiskPath)) :
    Fallible (PackEnv W) CliError PackSummary := do
  let packer ← archiving (startPacker D R key options)
  let calls : Fallible (PackState W) CliError PackSummary := do
    addFiles D R openFile files
    archiving (finish D R)
  fun env =>
    let r := calls ⟨packer, env.writer, env.entropy, []⟩
    (r.1, ⟨r.2.writer, r.2.entropy⟩)

end

variable (D : Dependencies) (os : Os) (key : Bytes) (options : PackOptions)

/-- The closure of `pack_dir`. The writes go through a buffer: what reaches the file while it is
written is up to the operating system, and after `flush` the file holds them all. -/
def writeArchive (files : List (String × DiskPath)) (tempPath output : DiskPath) :
    Fallible (Traced Disk) CliError PackSummary := do
  spill tempPath os.spills
  let r := packFiles D deviceDestination os.openFile key options files
    ⟨Device.empty os.room os.seeks, os.entropy⟩
  let summary ← r.1
  attempt os.flush
  spill tempPath [r.2.writer.bytes]
  attempt os.syncAll
  onFiles (renameFile os tempPath output)
  pure summary

/-- The closure of `pack_dir` with the clean-up after it. A panic unwinds past the clean-up. -/
def replaceOutput (files : List (String × DiskPath)) (tempPath output : DiskPath) :
    Fallible (Traced Disk) Stop PackSummary := fun t =>
  match writeArchive D os key options files tempPath output t with
  | (.ok summary, t') => (.ok summary, t')
  | (.error e, t') =>
    match e.stop with
    | .error e => (.error (.error e), (removeFile os tempPath t').2)
    | stop => (.error stop, t')

/-- `pack_dir`, for at most `turns` directories. -/
def packDir (sorting : UnstableSort nameKey) (turns : ℕ) :
    Fallible (Traced Disk) Stop PackSummary := do
  let (output, files) ← listFiles os turns
  let tempPath ← opening (createTemp os output)
  replaceOutput D os key options (sorting.sort files) tempPath output

/-! ## The packer of a run -/

/-- The input of a file: its virtual path, with the reader that opening it gives. -/
structure Opens (openFile : DiskPath → Except IoError (List ReadEvent)) (file : String × DiskPath)
    (input : Input) : Prop where
  path : input.path = file.1
  opens : openFile file.2 = .ok input.reader

theorem archiving_eq_ok {σ α : Type} {x : Fallible σ Fault α} {s s' : σ} {a : α} :
    archiving x s = (.ok a, s') ↔ x s = (.ok a, s') := by
  unfold archiving
  rcases x s with ⟨_ | a, s'⟩ <;> simp

theorem onFiles_of_ok {σ α : Type} {x : Fallible σ IoError α} {s s' : σ} {a : α}
    (h : x s = (.ok a, s')) : onFiles x s = (.ok a, s') := by
  rw [onFiles, h]

theorem onFiles_of_error {σ α : Type} {x : Fallible σ IoError α} {s s' : σ} {e : IoError}
    (h : x s = (.error e, s')) : onFiles x s = (.error (.io e), s') := by
  rw [onFiles, h]

theorem opening_of_ok {σ α : Type} {x : Fallible σ IoError α} {s s' : σ} {a : α}
    (h : x s = (.ok a, s')) : opening x s = (.ok a, s') := by
  rw [opening, h]

theorem opening_post {σ α : Type} {x : Fallible σ IoError α} {s : σ} {Q : α → σ → Prop}
    {E : σ → Prop} (h : Fallible.Post x s Q fun _ => E) :
    Fallible.Post (opening x) s Q fun _ => E := by
  unfold Fallible.Post opening at *
  rcases hx : x s with ⟨_ | a, s'⟩ <;> rw [hx] at h <;> exact h

theorem onIo_eq_ok {α : Type} {x : Except IoError α} {a : α} : onIo x = .ok a ↔ x = .ok a := by
  cases x <;> simp [onIo]

section Packer

variable {W : Type} {D : Dependencies} {R : Destination W}
  {openFile : DiskPath → Except IoError (List ReadEvent)} {files : List (String × DiskPath)}

/-- The loop over the files is that over their inputs, where they can be opened. -/
theorem addFiles_eq_ok_iff {s s' : PackState W} :
    addFiles D R openFile files s = (.ok (), s') ↔
      ∃ inputs, List.Forall₂ (Opens openFile) files inputs ∧
        addReaders D R inputs s = (.ok (), s') := by
  induction files generalizing s with
  | nil =>
    constructor
    · rintro ⟨⟩
      exact ⟨[], .nil, rfl⟩
    · rintro ⟨_, _ | _, h⟩
      cases h
      rfl
  | cons file files ih =>
    constructor
    · intro h
      obtain ⟨source, s₀, hsource, h⟩ := Fallible.bind_eq_ok.mp h
      obtain ⟨hopen, rfl⟩ := Fallible.liftM_eq_ok.mp hsource
      obtain ⟨_, s₁, hadd, hrest⟩ := Fallible.bind_eq_ok.mp h
      obtain ⟨inputs, hinputs, hall⟩ := ih.mp hrest
      refine ⟨⟨file.1, source⟩ :: inputs, .cons ⟨rfl, onIo_eq_ok.mp hopen⟩ hinputs, ?_⟩
      exact Fallible.bind_eq_ok.mpr ⟨(), s₁, archiving_eq_ok.mp hadd, hall⟩
    · rintro ⟨_, _ | ⟨hinput, hinputs⟩, h⟩
      obtain ⟨_, s₁, hadd, hrest⟩ := Fallible.bind_eq_ok.mp h
      rw [hinput.path] at hadd
      refine Fallible.bind_eq_ok.mpr
        ⟨_, s, Fallible.liftM_eq_ok.mpr ⟨onIo_eq_ok.mpr hinput.opens, rfl⟩, ?_⟩
      exact Fallible.bind_eq_ok.mpr
        ⟨(), s₁, archiving_eq_ok.mpr hadd, ih.mpr ⟨_, hinputs, hrest⟩⟩

/-- **The packer of a run** succeeds as the calls for the inputs of its files do. -/
theorem packFiles_eq_ok_iff {key : Bytes} {options : PackOptions} {env env' : PackEnv W}
    {summary : PackSummary} :
    packFiles D R openFile key options files env = (.ok summary, env') ↔
      ∃ inputs, List.Forall₂ (Opens openFile) files inputs ∧
        packReaders D R key options inputs env = (.ok summary, env') := by
  constructor
  · intro h
    obtain ⟨packer, env₁, hstart, hrun⟩ := Fallible.bind_eq_ok.mp h
    obtain ⟨hok, rfl⟩ := Prod.mk.injEq .. ▸ hrun
    obtain ⟨_, s₁, hadd, hfinish⟩ := Fallible.bind_eq_ok.mp (Prod.ext hok rfl)
    obtain ⟨inputs, hinputs, hall⟩ := addFiles_eq_ok_iff.mp hadd
    have hcalls := (Fallible.bind_eq_ok (f := fun _ => finish D R)).mpr
      ⟨(), s₁, hall, archiving_eq_ok.mp hfinish⟩
    refine ⟨inputs, hinputs, Fallible.bind_eq_ok.mpr
      ⟨packer, env₁, archiving_eq_ok.mp hstart, ?_⟩⟩
    rw [hcalls]
  · rintro ⟨inputs, hinputs, h⟩
    obtain ⟨packer, env₁, hstart, hrun⟩ := Fallible.bind_eq_ok.mp h
    obtain ⟨hok, rfl⟩ := Prod.mk.injEq .. ▸ hrun
    obtain ⟨_, s₁, hadd, hfinish⟩ := Fallible.bind_eq_ok.mp (Prod.ext hok rfl)
    have hcalls := (Fallible.bind_eq_ok (f := fun _ => archiving (finish D R))).mpr
      ⟨(), s₁, addFiles_eq_ok_iff.mpr ⟨inputs, hinputs, hadd⟩, archiving_eq_ok.mpr hfinish⟩
    refine Fallible.bind_eq_ok.mpr ⟨packer, env₁, archiving_eq_ok.mpr hstart, ?_⟩
    rw [hcalls]

end Packer

end RasenArchive
