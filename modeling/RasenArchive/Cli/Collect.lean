import RasenArchive.Path
import RasenArchive.Library.Worklist

/-!
# Collecting input files

`collect_files`, which lists the regular files below a directory for the packer, and the names that
`create_temp` tries.

## Main definitions

* `OsName`, `DiskPath`: a file name, and an absolute path by its components
* `ReadDir`: `fs::read_dir`, by its answers
* `collectFiles turns`: the function, for at most `turns` directories
* `tempPath output pid stamp attempt`: a path that `create_temp` tries
* `DirTree`: a finite directory tree, with the entries of each directory in their order
* `DirTree.Regular T p`: a regular file of the tree, reached through directories only
* `IsTempOf output p`: `p` is a path that a run with this destination may create
* `DirTree.CollectionEnds`: the traversal ends, however many more turns it may take
* `DirTree.CollectsExactly`: it ends, and where all paths normalise, every regular file is collected
  but the destination and its temporaries

## Main results

* `collectFiles_eq`: what is collected, in the order of the traversal
* `collectFiles_exact_iff`: the collection of any tree ends; it is exact where no temporary file of
  the destination lies in the tree
-/

namespace RasenArchive

/-! ## Names and paths -/

/-- A file name: UTF-8 text, or other bytes. -/
inductive OsName where
  | text (name : String)
  | other (bytes : Bytes)
  deriving DecidableEq, Repr

/-- `OsString::push` of text. -/
def OsName.push (name : OsName) (s : String) : OsName :=
  match name with
  | .text t => .text (t ++ s)
  | .other bytes => .other (bytes ++ asBytes s)

/-- The name as text. -/
def OsName.toStr : OsName → Option String
  | .text name => some name
  | .other _ => none

/-- An absolute path, by its components. -/
abbrev DiskPath : Type := List OsName

/-- `path.to_str()` of a relative path. -/
def pathToStr (relative : DiskPath) : Option String :=
  (relative.mapM OsName.toStr).map (String.intercalate "/")

/-- `path.strip_prefix(root)`. -/
def stripPrefix (root path : DiskPath) : Option DiskPath :=
  if root <+: path then some (path.drop root.length) else none

/-- The errors of the packer. -/
inductive CliError where
  | io (e : IoError)
  | notUtf8 (relative : DiskPath)
  | notBelowRoot
  | archive (f : Fault)

/-- `result?` of an operation on files. -/
def onIo {α : Type} : Except IoError α → Except CliError α
  | .ok a => .ok a
  | .error e => .error (.io e)

/-! ## Directories -/

/-- What `entry.file_type()` says. A symlink is neither a directory nor a file. -/
inductive FileType where
  | dir
  | file
  | symlink
  | special
  deriving DecidableEq, Repr

def FileType.isDir (t : FileType) : Bool := t == .dir

def FileType.isFile (t : FileType) : Bool := t == .file

/-- An entry of a directory. -/
structure DirEntry where
  name : OsName
  fileType : Except IoError FileType

/-- `fs::read_dir`, with the entries in the order in which they are given. -/
abbrev ReadDir : Type := DiskPath → Except IoError (List (Except IoError DirEntry))

/-- The variables of `collect_files`. The top of the stack `pending` comes first. -/
structure Collecting where
  files : List (String × DiskPath)
  pending : List DiskPath

/-- The virtual path of a file. -/
def virtualPath (root diskPath : DiskPath) : Except CliError String := do
  let relative ← match stripPrefix root diskPath with
    | some relative => .ok relative
    | none => .error .notBelowRoot
  let path ← match pathToStr relative with
    | some path => .ok path
    | none => .error (.notUtf8 relative)
  match normalizePath path with
  | .ok normalized => .ok normalized
  | .error f => .error (.archive f)

/-- The body of the inner loop of `collect_files`, for an entry of `dir`. -/
def collectEntry (root output : DiskPath) (existingOutput : Option DiskPath) (dir : DiskPath)
    (s : Collecting) (entry : Except IoError DirEntry) : Except CliError Collecting := do
  let entry ← onIo entry
  let fileType ← onIo entry.fileType
  let diskPath := dir ++ [entry.name]
  -- the output, and the file that it resolves to
  let excluded := decide (diskPath = output) || decide (existingOutput = some diskPath)
  -- links and other files are neither followed nor packed
  match fileType.isDir, fileType.isFile, excluded with
  | true, _, _ => .ok { s with pending := diskPath :: s.pending }
  | false, true, false => do
    let path ← virtualPath root diskPath
    .ok { s with files := s.files ++ [(path, diskPath)] }
  | _, _, _ => .ok s

/-- The loop of `collect_files`, for at most `turns` turns. -/
def collectLoop (readDir : ReadDir) (root output : DiskPath) (existingOutput : Option DiskPath) :
    (turns : ℕ) → Collecting → Option (Except CliError (List (String × DiskPath)))
  | 0, _ => none
  | turns + 1, s =>
    match s.pending with
    | [] => some (.ok s.files)
    | dir :: pending =>
      let step := do
        let entries ← onIo (readDir dir)
        entries.foldlM (collectEntry root output existingOutput dir) { s with pending }
      match step with
      | .ok s => collectLoop readDir root output existingOutput turns s
      | .error e => some (.error e)

/-- `collect_files`, for at most `turns` turns of its loop. -/
def collectFiles (readDir : ReadDir) (root output : DiskPath) (existingOutput : Option DiskPath)
    (turns : ℕ) : Option (Except CliError (List (String × DiskPath))) :=
  collectLoop readDir root output existingOutput turns ⟨[], [root]⟩

/-- `format!("{n:x}")`. -/
def toHex (n : ℕ) : String := String.ofList (Nat.toDigits 16 n)

/-- The path that `create_temp` tries at the given attempt. -/
def tempPath (output : DiskPath) (pid stamp attempt : ℕ) : Option DiskPath :=
  output.getLast?.map fun fileName =>
    output.dropLast ++ [fileName.push s!".tmp.{pid}.{toHex stamp}.{attempt}"]

/-- The path is one that `create_temp` tries for this destination, in some process at some time. The
stamp is the number of nanoseconds of a `Duration`, whose seconds are a `u64`. -/
def IsTempOf (output p : DiskPath) : Prop :=
  ∃ pid stamp attempt, pid < 2 ^ 32 ∧ stamp < 2 ^ 64 * 10 ^ 9 ∧ attempt < 128 ∧
    tempPath output pid stamp attempt = some p

theorem mapM_toStr_eq_some_iff {names : DiskPath} {ss : List String} :
    names.mapM OsName.toStr = some ss ↔ names = ss.map .text := by
  induction names generalizing ss with
  | nil => cases ss <;> simp
  | cons name names ih =>
    rw [List.mapM_cons]
    cases name with
    | other bytes => cases ss <;> simp [OsName.toStr]
    | text t =>
      cases hm : names.mapM OsName.toStr with
      | none => cases ss <;> simp [OsName.toStr, ← ih, hm]
      | some rest => cases ss <;> simp [OsName.toStr, ← ih, hm]

/-- **Which files have a virtual path**: those below the root with UTF-8 names whose path, written
with slashes, has a normal form. -/
theorem virtualPath_eq_ok_iff {root p : DiskPath} {v : String} :
    virtualPath root p = .ok v ↔ ∃ names : List String,
      p = root ++ names.map .text ∧ normalizePath (String.intercalate "/" names) = .ok v := by
  unfold virtualPath stripPrefix pathToStr
  constructor
  · intro h
    split_ifs at h with hpre
    · obtain ⟨relative, rfl⟩ := hpre
      rw [List.drop_left] at h
      cases hm : relative.mapM OsName.toStr with
      | none => simp [hm, bind, Except.bind] at h
      | some names =>
        refine ⟨names, by rw [mapM_toStr_eq_some_iff.mp hm], ?_⟩
        simp only [hm, bind, Except.bind, Option.map_some] at h
        split at h
        · rename_i hn
          rw [hn]
          cases h
          rfl
        · cases h
    · cases h
  · rintro ⟨names, rfl, hn⟩
    rw [if_pos (List.prefix_append _ _), List.drop_left]
    have hm : (names.map OsName.text).mapM OsName.toStr = some names :=
      mapM_toStr_eq_some_iff.mpr rfl
    simp only [hm, bind, Except.bind, Option.map_some, hn]

/-! ## Directory trees -/

/-- The destination, by either of its paths. -/
def excluded (output : DiskPath) (existingOutput : Option DiskPath) (p : DiskPath) : Bool :=
  decide (p = output) || decide (existingOutput = some p)

/-- The paths of the directories in `dir`. -/
def subdirs (entries : DiskPath → List (OsName × FileType)) (dir : DiskPath) : List DiskPath :=
  ((entries dir).filter (·.2.isDir)).map fun entry => dir ++ [entry.1]

/-- The paths of the regular files in `dir` that are not the destination. -/
def keptOf (output : DiskPath) (existingOutput : Option DiskPath) (dir : DiskPath)
    (entries : List (OsName × FileType)) : List DiskPath :=
  ((entries.filter (·.2.isFile)).map fun entry => dir ++ [entry.1]).filter
    fun p => !excluded output existingOutput p

/-- A finite directory tree, with the entries of a directory in the order in which they are
enumerated. What is listed for a path that is no directory of the tree, such as a symlink to one,
does not matter. -/
structure DirTree where
  root : DiskPath
  entries : DiskPath → List (OsName × FileType)
  nodup : ∀ dir, ((entries dir).map Prod.fst).Nodup
  finite : Worklist.Finite (subdirs entries) root

namespace DirTree

variable (T : DirTree)

/-- The answers of `fs::read_dir` for the tree. -/
def readDir : ReadDir := fun dir =>
  .ok ((T.entries dir).map fun entry => .ok ⟨entry.1, .ok entry.2⟩)

/-- The directory `dir` is the root, or is reached from it through directories. -/
def Dir (dir : DiskPath) : Prop := Worklist.Below (subdirs T.entries) T.root dir

/-- A regular file of the tree. -/
def Regular (p : DiskPath) : Prop :=
  ∃ dir name, T.Dir dir ∧ (name, .file) ∈ T.entries dir ∧ p = dir ++ [name]

variable (output : DiskPath) (existingOutput : Option DiskPath)

/-- The regular files in `dir` that are not the destination. -/
def keptFiles (dir : DiskPath) : List DiskPath :=
  keptOf output existingOutput dir (T.entries dir)

/-- The traversal ends with a result that more turns do not change. -/
def CollectionEnds (result : Except CliError (List (String × DiskPath))) : Prop :=
  ∃ enough, ∀ turns, enough ≤ turns →
    collectFiles T.readDir T.root output existingOutput turns = some result

/-- Every regular file but the destination has a virtual path. -/
def PathsNormalise : Prop :=
  ∀ p, T.Regular p → p ≠ output → existingOutput ≠ some p → ∃ v, virtualPath T.root p = .ok v

/-- **The collection is exact**: it ends, and where all paths normalise it gives every regular file
below the root once, with its normalised relative path, but the destination, its target and its
temporary files. -/
def CollectsExactly : Prop :=
  ∃ result, T.CollectionEnds output existingOutput result ∧
    (T.PathsNormalise output existingOutput → ∃ files, result = .ok files ∧
      (files.map Prod.snd).Nodup ∧
      ∀ v p, (v, p) ∈ files ↔
        (T.Regular p ∧ p ≠ output ∧ existingOutput ≠ some p ∧ ¬ IsTempOf output p) ∧
          virtualPath T.root p = .ok v)

end DirTree

/-- A file with its virtual path. -/
def namedFile (root p : DiskPath) : Except CliError (String × DiskPath) := do
  let v ← virtualPath root p
  .ok (v, p)

theorem mapM_eq_ok_iff {α β ε : Type} {f : α → Except ε β} {xs : List α} {ys : List β} :
    xs.mapM f = .ok ys ↔ List.Forall₂ (fun x y => f x = .ok y) xs ys := by
  induction xs generalizing ys with
  | nil =>
    constructor
    · rintro ⟨⟩
      exact .nil
    · rintro ⟨⟩
      rfl
  | cons x xs ih =>
    rw [List.mapM_cons]
    constructor
    · intro h
      rcases hx : f x with e | y <;> rw [hx] at h
      · cases h
      · rcases hrest : xs.mapM f with e | rest <;> rw [hrest] at h <;> cases h
        exact .cons hx (ih.mp hrest)
    · rintro (_ | ⟨hx, hrest⟩)
      rw [hx, ih.mpr hrest]
      rfl

theorem namedFile_eq_ok_iff {root p : DiskPath} {file : String × DiskPath} :
    namedFile root p = .ok file ↔ file.2 = p ∧ virtualPath root p = .ok file.1 := by
  unfold namedFile
  cases virtualPath root p with
  | error e => simp [bind, Except.bind]
  | ok v =>
    rcases file with ⟨v', p'⟩
    simp [bind, Except.bind, and_comm, eq_comm]

theorem mapM_namedFile_eq_ok_iff {root : DiskPath} {ps : List DiskPath}
    {files : List (String × DiskPath)} :
    ps.mapM (namedFile root) = .ok files ↔
      files.map Prod.snd = ps ∧ ∀ file ∈ files, virtualPath root file.2 = .ok file.1 := by
  rw [mapM_eq_ok_iff]
  constructor
  · intro h
    induction h with
    | nil => simp
    | cons hx _ ih =>
      obtain ⟨rfl, hv⟩ := namedFile_eq_ok_iff.mp hx
      exact ⟨by rw [List.map_cons, ih.1], List.forall_mem_cons.mpr ⟨hv, ih.2⟩⟩
  · rintro ⟨rfl, hv⟩
    rw [List.forall₂_map_left_iff, List.forall₂_same]
    exact fun file hfile => namedFile_eq_ok_iff.mpr ⟨rfl, hv file hfile⟩

theorem exists_mapM_namedFile_iff {root : DiskPath} {ps : List DiskPath} :
    (∃ files, ps.mapM (namedFile root) = .ok files) ↔
      ∀ p ∈ ps, ∃ v, virtualPath root p = .ok v := by
  constructor
  · rintro ⟨files, h⟩ p hp
    obtain ⟨rfl, hv⟩ := mapM_namedFile_eq_ok_iff.mp h
    obtain ⟨file, hfile, rfl⟩ := List.mem_map.mp hp
    exact ⟨file.1, hv file hfile⟩
  · intro h
    simp only [mapM_eq_ok_iff]
    induction ps with
    | nil => exact ⟨[], .nil⟩
    | cons p ps ih =>
      obtain ⟨v, hv⟩ := h p (List.mem_cons_self ..)
      obtain ⟨files, hfiles⟩ := ih fun q hq => h q (List.mem_cons_of_mem _ hq)
      exact ⟨(v, p) :: files, .cons (namedFile_eq_ok_iff.mpr ⟨rfl, hv⟩) hfiles⟩

section Collect

variable {T : DirTree} {root output : DiskPath} {existingOutput : Option DiskPath} {dir : DiskPath}

theorem collectEntry_ok (s : Collecting) (name : OsName) (t : FileType) :
    collectEntry root output existingOutput dir s (.ok ⟨name, .ok t⟩) =
      if t.isDir then .ok { s with pending := (dir ++ [name]) :: s.pending }
      else if t.isFile ∧ excluded output existingOutput (dir ++ [name]) = false then
        (namedFile root (dir ++ [name])).map fun file => { s with files := s.files ++ [file] }
      else .ok s := by
  cases t with
  | dir => rfl
  | symlink => rfl
  | special => rfl
  | file =>
    cases hex : excluded output existingOutput (dir ++ [name]) with
    | true =>
      unfold excluded at hex
      simp only [collectEntry, onIo, bind, Except.bind, hex]
      rfl
    | false =>
      unfold excluded at hex
      simp only [collectEntry, onIo, bind, Except.bind, hex, namedFile]
      cases virtualPath root (dir ++ [name]) <;> rfl

theorem keptOf_cons (name : OsName) (t : FileType) (entries : List (OsName × FileType)) :
    keptOf output existingOutput dir ((name, t) :: entries) =
      if t.isFile ∧ excluded output existingOutput (dir ++ [name]) = false then
        (dir ++ [name]) :: keptOf output existingOutput dir entries
      else keptOf output existingOutput dir entries := by
  unfold keptOf
  cases hfile : t.isFile with
  | false => simp [hfile]
  | true => cases hex : excluded output existingOutput (dir ++ [name]) <;> simp [hfile, hex]

/-- **One directory**: its files are collected in order, and its directories are pushed. -/
theorem foldlM_collectEntry (entries : List (OsName × FileType)) (s : Collecting) :
    (entries.map fun entry => (.ok ⟨entry.1, .ok entry.2⟩ : Except IoError DirEntry)).foldlM
        (collectEntry root output existingOutput dir) s =
      ((keptOf output existingOutput dir entries).mapM (namedFile root)).map fun files =>
        ⟨s.files ++ files,
          ((entries.filter (·.2.isDir)).map fun entry => dir ++ [entry.1]).reverse ++ s.pending⟩ := by
  induction entries generalizing s with
  | nil => simp [keptOf, pure, Except.pure, Except.map]
  | cons entry entries ih =>
    rcases entry with ⟨name, t⟩
    rw [List.map_cons, List.foldlM_cons, collectEntry_ok, keptOf_cons]
    cases hdir : t.isDir with
    | true =>
      -- a directory is on top of the ones pushed before
      have hfile : t.isFile = false := by cases t <;> simp_all [FileType.isDir, FileType.isFile]
      rw [if_pos rfl, if_neg (by simp [hfile])]
      refine (ih _).trans ?_
      simp [hdir]
    | false =>
      rw [if_neg (by simp)]
      have hpending : ((name, t) :: entries).filter (·.2.isDir) = entries.filter (·.2.isDir) := by
        simp [hdir]
      rw [hpending]
      split_ifs with hkept
      · rw [List.mapM_cons]
        cases namedFile root (dir ++ [name]) with
        | error e => rfl
        | ok file =>
          refine (ih _).trans ?_
          cases (keptOf output existingOutput dir entries).mapM (namedFile root) <;>
            simp [bind, Except.bind, pure, Except.pure, Except.map]
      · exact ih s

/-- **The loop** gives the kept files of the directories that the traversal visits, or fails at the
first that has no virtual path. -/
theorem collectLoop_eq {turns : ℕ} {stack order : List DiskPath}
    (h : Worklist.walk (subdirs T.entries) turns stack = some order)
    (files : List (String × DiskPath)) :
    collectLoop T.readDir root output existingOutput turns ⟨files, stack⟩ =
      some (((order.flatMap (T.keptFiles output existingOutput)).mapM (namedFile root)).map
        (files ++ ·)) := by
  induction turns generalizing stack order files with
  | zero => cases h
  | succ turns ih =>
    cases stack with
    | nil =>
      cases h
      simp [collectLoop, pure, Except.pure, Except.map]
    | cons dir stack =>
      obtain ⟨rest, hrest, rfl⟩ := Option.map_eq_some_iff.mp h
      have hstep := @foldlM_collectEntry root output existingOutput dir (T.entries dir)
        ⟨files, stack⟩
      rw [List.flatMap_cons, List.mapM_append]
      simp only [collectLoop, DirTree.readDir, onIo, bind, Except.bind, hstep]
      cases hkept : (keptOf output existingOutput dir (T.entries dir)).mapM (namedFile root) with
      | error e =>
        simp only [DirTree.keptFiles, hkept]
        rfl
      | ok kept =>
        simp only [DirTree.keptFiles, hkept, Except.map]
        refine (ih hrest _).trans ?_
        cases (rest.flatMap (T.keptFiles output existingOutput)).mapM (namedFile root) with
        | error e => rfl
        | ok more =>
          show some (Except.ok (files ++ kept ++ more)) = some (.ok (files ++ (kept ++ more)))
          rw [List.append_assoc]

theorem mem_subdirs_iff {entries : DiskPath → List (OsName × FileType)} {d : DiskPath} :
    d ∈ subdirs entries dir ↔ ∃ name, (name, .dir) ∈ entries dir ∧ d = dir ++ [name] := by
  simp only [subdirs, List.mem_map, List.mem_filter, FileType.isDir, beq_iff_eq, Prod.exists]
  constructor
  · rintro ⟨name, t, ⟨hmem, rfl⟩, rfl⟩
    exact ⟨name, hmem, rfl⟩
  · rintro ⟨name, hmem, rfl⟩
    exact ⟨name, .dir, ⟨hmem, rfl⟩, rfl⟩

theorem mem_keptFiles_iff {p : DiskPath} :
    p ∈ T.keptFiles output existingOutput dir ↔
      (∃ name, (name, .file) ∈ T.entries dir ∧ p = dir ++ [name]) ∧
        p ≠ output ∧ existingOutput ≠ some p := by
  simp only [DirTree.keptFiles, keptOf, excluded, List.mem_filter, List.mem_map, FileType.isFile,
    beq_iff_eq, Prod.exists, Bool.not_eq_true', Bool.or_eq_false_iff, decide_eq_false_iff_not]
  refine and_congr_left fun _ => ?_
  constructor
  · rintro ⟨name, t, ⟨hmem, rfl⟩, rfl⟩
    exact ⟨name, hmem, rfl⟩
  · rintro ⟨name, hmem, rfl⟩
    exact ⟨name, .file, ⟨hmem, rfl⟩, rfl⟩

/-- What is below a directory has its path as a prefix. -/
theorem prefix_of_below {entries : DiskPath → List (OsName × FileType)} {d : DiskPath}
    (h : Worklist.Below (subdirs entries) dir d) : dir <+: d := by
  induction h with
  | refl => exact List.prefix_rfl
  | step _ hc ih =>
    obtain ⟨name, -, rfl⟩ := mem_subdirs_iff.mp hc
    exact ih.trans (List.prefix_append _ _)

theorem nodup_names_filter (T : DirTree) (dir : DiskPath) (q : OsName × FileType → Bool) :
    (((T.entries dir).filter q).map fun entry => dir ++ [entry.1]).Nodup := by
  have hnames : (((T.entries dir).filter q).map Prod.fst).Nodup :=
    (T.nodup dir).sublist (List.filter_sublist.map _)
  have hmap : ((T.entries dir).filter q).map (fun entry => dir ++ [entry.1]) =
      (((T.entries dir).filter q).map Prod.fst).map fun name => dir ++ [name] := by
    rw [List.map_map]
    rfl
  rw [hmap]
  exact hnames.map fun a b hab => by simpa using hab

theorem subdirs_apart (T : DirTree) (dir : DiskPath) :
    (subdirs T.entries dir).Pairwise (Worklist.Apart (subdirs T.entries)) := by
  refine (nodup_names_filter T dir (·.2.isDir)).imp_of_mem ?_
  intro a b ha hb hne x hax hbx
  -- both are the prefix of `x` that is one longer than `dir`
  obtain ⟨n, -, rfl⟩ := mem_subdirs_iff.mp ha
  obtain ⟨m, -, rfl⟩ := mem_subdirs_iff.mp hb
  have hpre := List.prefix_of_prefix_length_le (prefix_of_below hax) (prefix_of_below hbx) (by simp)
  exact hne (hpre.eq_of_length (by simp))

/-- **What is collected**: the kept files of every directory of the tree, each directory once. -/
theorem collectFiles_eq (T : DirTree) (output : DiskPath) (existingOutput : Option DiskPath) :
    ∃ (enough : ℕ) (order : List DiskPath), order.Nodup ∧ (∀ dir, dir ∈ order ↔ T.Dir dir) ∧
      ∀ turns, enough ≤ turns →
        collectFiles T.readDir T.root output existingOutput turns =
          some ((order.flatMap (T.keptFiles output existingOutput)).mapM (namedFile T.root)) := by
  have hfinite : ∀ a ∈ [T.root], Worklist.Finite (subdirs T.entries) a := by
    intro a ha
    rw [List.mem_singleton.mp ha]
    exact T.finite
  obtain ⟨enough, order, hwalk⟩ := Worklist.exists_walk hfinite
  refine ⟨enough, order, ?_, ?_, ?_⟩
  · exact Worklist.nodup_walk (subdirs_apart T) (List.pairwise_singleton _ _) hfinite hwalk
  · intro dir
    rw [Worklist.mem_walk_iff hwalk]
    simp [DirTree.Dir]
  · intro turns hturns
    obtain ⟨more, rfl⟩ := Nat.exists_eq_add_of_le hturns
    rw [collectFiles, collectLoop_eq (Worklist.walk_mono hwalk more)]
    cases (order.flatMap (T.keptFiles output existingOutput)).mapM (namedFile T.root) <;> rfl

theorem nodup_keptFiles (T : DirTree) {order : List DiskPath} (h : order.Nodup) :
    (order.flatMap (T.keptFiles output existingOutput)).Nodup := by
  refine List.nodup_flatMap.mpr ⟨fun dir _ => ?_, h.imp ?_⟩
  · exact (nodup_names_filter T dir (·.2.isFile)).sublist List.filter_sublist
  · intro a b hne p ha hb
    -- a file is in one directory only
    obtain ⟨⟨n, -, rfl⟩, -⟩ := mem_keptFiles_iff.mp ha
    obtain ⟨⟨m, -, hp⟩, -⟩ := mem_keptFiles_iff.mp hb
    exact hne (List.append_inj_left' hp rfl)

theorem mem_flatMap_keptFiles_iff {order : List DiskPath} (h : ∀ dir, dir ∈ order ↔ T.Dir dir)
    {p : DiskPath} :
    p ∈ order.flatMap (T.keptFiles output existingOutput) ↔
      T.Regular p ∧ p ≠ output ∧ existingOutput ≠ some p := by
  simp only [List.mem_flatMap, mem_keptFiles_iff, h]
  constructor
  · rintro ⟨dir, hdir, ⟨name, hmem, rfl⟩, hkept⟩
    exact ⟨⟨dir, name, hdir, hmem, rfl⟩, hkept⟩
  · rintro ⟨⟨dir, name, hdir, hmem, rfl⟩, hkept⟩
    exact ⟨dir, hdir, ⟨name, hmem, rfl⟩, hkept⟩

/-- **The collection of any tree ends**, with files or with an error. -/
theorem exists_collectionEnds (T : DirTree) (output : DiskPath) (existingOutput : Option DiskPath) :
    ∃ result, T.CollectionEnds output existingOutput result := by
  obtain ⟨enough, order, -, -, heq⟩ := collectFiles_eq T output existingOutput
  exact ⟨_, enough, heq⟩

theorem DirTree.CollectionEnds.unique {result result' : Except CliError (List (String × DiskPath))}
    (h : T.CollectionEnds output existingOutput result)
    (h' : T.CollectionEnds output existingOutput result') : result = result' := by
  obtain ⟨enough, hrun⟩ := h
  obtain ⟨enough', hrun'⟩ := h'
  have hleft := hrun _ (Nat.le_max_left enough enough')
  have hright := hrun' _ (Nat.le_max_right enough enough')
  exact Option.some.inj (hleft.symm.trans hright)

/-- A tree all of whose kept files have virtual paths is collected. -/
theorem collectFiles_ok (hpaths : T.PathsNormalise output existingOutput) :
    ∃ files, T.CollectionEnds output existingOutput (.ok files) ∧
      (files.map Prod.snd).Nodup ∧
      ∀ v p, (v, p) ∈ files ↔
        (T.Regular p ∧ p ≠ output ∧ existingOutput ≠ some p) ∧ virtualPath T.root p = .ok v := by
  obtain ⟨enough, order, hnodup, hmem, heq⟩ := collectFiles_eq T output existingOutput
  have hvirtual : ∀ p ∈ order.flatMap (T.keptFiles output existingOutput),
      ∃ v, virtualPath T.root p = .ok v := by
    intro p hp
    obtain ⟨hreg, hout, hex⟩ := (mem_flatMap_keptFiles_iff hmem).mp hp
    exact hpaths p hreg hout hex
  obtain ⟨files, hm⟩ := exists_mapM_namedFile_iff.mpr hvirtual
  obtain ⟨hsnd, hnames⟩ := mapM_namedFile_eq_ok_iff.mp hm
  refine ⟨files, ⟨enough, fun turns hturns => by rw [heq turns hturns, hm]⟩, ?_, ?_⟩
  · rw [hsnd]
    exact nodup_keptFiles T hnodup
  · intro v p
    rw [← mem_flatMap_keptFiles_iff hmem, ← hsnd]
    constructor
    · exact fun hfile => ⟨List.mem_map_of_mem hfile, hnames _ hfile⟩
    · rintro ⟨hp, hv⟩
      obtain ⟨⟨v', p'⟩, hfile, rfl⟩ := List.mem_map.mp hp
      cases (hnames _ hfile).symm.trans hv
      exact hfile

/-- Where the collection is exact, no temporary file of the destination is there to be collected. -/
theorem DirTree.CollectsExactly.no_temp (h : T.CollectsExactly output existingOutput)
    (hpaths : T.PathsNormalise output existingOutput) {p : DiskPath} (hp : T.Regular p)
    (htemp : IsTempOf output p) : p = output ∨ existingOutput = some p := by
  obtain ⟨files, hends, -, hmem⟩ := collectFiles_ok hpaths
  obtain ⟨result, hends', hexact⟩ := h
  obtain ⟨files', rfl, -, hmem'⟩ := hexact hpaths
  cases hends.unique hends'
  by_contra hkept
  rw [not_or] at hkept
  -- the file is kept, so it is collected, but the exact list does not have it
  obtain ⟨v, hv⟩ := hpaths p hp hkept.1 hkept.2
  obtain ⟨⟨-, -, -, hnot⟩, -⟩ := (hmem' v p).mp ((hmem v p).mpr ⟨⟨hp, hkept⟩, hv⟩)
  exact hnot htemp

/-- A collection is exact where no temporary file of the destination is there to be collected. -/
theorem collectsExactly_of_no_temp (hclean : T.PathsNormalise output existingOutput →
      ∀ p, T.Regular p → IsTempOf output p → p = output ∨ existingOutput = some p) :
    T.CollectsExactly output existingOutput := by
  obtain ⟨result, hends⟩ := exists_collectionEnds T output existingOutput
  refine ⟨result, hends, fun hpaths => ?_⟩
  obtain ⟨files, hends', hnodup, hmem⟩ := collectFiles_ok hpaths
  refine ⟨files, hends.unique hends', hnodup, fun v p => ?_⟩
  rw [hmem]
  refine and_congr_left fun _ => ?_
  constructor
  · rintro ⟨hp, hout, hex⟩
    refine ⟨hp, hout, hex, fun htemp => ?_⟩
    exact (hclean hpaths p hp htemp).elim hout hex
  · rintro ⟨hp, hout, hex, -⟩
    exact ⟨hp, hout, hex⟩

end Collect

/-- **Exactness of the collection.** The traversal of any tree ends. Where every file that is not the
destination has a virtual path, it gives each regular file once with its virtual path, and follows no
symlink. It leaves out the destination; a temporary file of the destination, left behind by an
interrupted run, is collected like any other file. -/
theorem collectFiles_exact_iff (T : DirTree) (output : DiskPath)
    (existingOutput : Option DiskPath) :
    (∃ result, T.CollectionEnds output existingOutput result) ∧
      (T.CollectsExactly output existingOutput ↔
        (T.PathsNormalise output existingOutput →
          ∀ p, T.Regular p → IsTempOf output p → p = output ∨ existingOutput = some p)) := by
  refine ⟨exists_collectionEnds T output existingOutput, ?_, collectsExactly_of_no_temp⟩
  intro h hpaths p hp htemp
  exact h.no_temp hpaths hp htemp

/-! ## A run that was interrupted -/

/-- The directory `/in` with the entries of the given names, all of them regular files. -/
def flatTree (names : List OsName) (h : names.Nodup) : DirTree where
  root := [.text "in"]
  entries dir := if dir = [.text "in"] then names.map (·, .file) else []
  nodup dir := by
    split_ifs
    · simpa [Function.comp_def] using h
    · exact List.nodup_nil
  finite := by
    refine Acc.intro _ fun d hd => ?_
    obtain ⟨name, hmem, -⟩ := mem_subdirs_iff.mp hd
    split_ifs at hmem
    · simp at hmem
    · cases hmem

theorem flatTree_regular_iff {names : List OsName} {h : names.Nodup} {p : DiskPath} :
    (flatTree names h).Regular p ↔ ∃ name ∈ names, p = [.text "in", name] := by
  constructor
  · rintro ⟨dir, name, hdir, hmem, rfl⟩
    rcases Decidable.em (dir = [.text "in"]) with rfl | hne
    · exact ⟨name, by simpa [flatTree] using hmem, rfl⟩
    · simp [flatTree, hne] at hmem
  · rintro ⟨name, hmem, rfl⟩
    exact ⟨[.text "in"], name, .refl, by simpa [flatTree] using hmem, rfl⟩

/-- The output of the example. -/
def leftoverOutput : DiskPath := [.text "in", .text "out"]

/-- An asset, the old output, and what an interrupted run with this output left behind. -/
def leftoverTree : DirTree :=
  flatTree [.text "a", .text "out", .text "out.tmp.7.ff.0"] (by decide)

/-- The same without what was left behind. -/
def tidyTree : DirTree := flatTree [.text "a", .text "out"] (by decide)

theorem leftoverTree_virtualPath (p : DiskPath) (hp : leftoverTree.Regular p) :
    ∃ v, virtualPath leftoverTree.root p = .ok v := by
  obtain ⟨name, hname, rfl⟩ := flatTree_regular_iff.mp hp
  simp only [List.mem_cons, List.not_mem_nil, or_false] at hname
  rcases hname with rfl | rfl | rfl
  · exact ⟨"a", virtualPath_eq_ok_iff.mpr ⟨["a"], rfl, by decide +kernel⟩⟩
  · exact ⟨"out", virtualPath_eq_ok_iff.mpr ⟨["out"], rfl, by decide +kernel⟩⟩
  · exact ⟨"out.tmp.7.ff.0",
      virtualPath_eq_ok_iff.mpr ⟨["out.tmp.7.ff.0"], rfl, by decide +kernel⟩⟩

theorem leftoverTree_not_exact :
    ¬ leftoverTree.CollectsExactly leftoverOutput (some leftoverOutput) := by
  intro hexact
  have hreg : leftoverTree.Regular [.text "in", .text "out.tmp.7.ff.0"] :=
    flatTree_regular_iff.mpr ⟨_, by simp, rfl⟩
  have htemp : IsTempOf leftoverOutput [.text "in", .text "out.tmp.7.ff.0"] :=
    ⟨7, 255, 0, by decide, by decide, by decide, by decide +kernel⟩
  rcases hexact.no_temp (fun p hp _ _ => leftoverTree_virtualPath p hp) hreg htemp with h | h
  · exact absurd h (by decide)
  · exact absurd h (by decide)

/-- The name of a temporary file is longer than that of the output. -/
theorem IsTempOf.name {dir : DiskPath} {name : String} {p : DiskPath}
    (h : IsTempOf (dir ++ [.text name]) p) :
    ∃ suffix : String, p = dir ++ [.text (name ++ suffix)] := by
  obtain ⟨pid, stamp, attempt, -, -, -, h⟩ := h
  simp only [tempPath, List.getLast?_append, List.getLast?_singleton, Option.some_or,
    Option.map_some, List.dropLast_concat, Option.some.injEq] at h
  exact ⟨_, h.symm⟩

theorem collectFiles_exact_tidy :
    tidyTree.PathsNormalise leftoverOutput (some leftoverOutput) ∧
      tidyTree.CollectsExactly leftoverOutput (some leftoverOutput) := by
  constructor
  · intro p hp hout _
    obtain ⟨name, hname, rfl⟩ := flatTree_regular_iff.mp hp
    simp only [List.mem_cons, List.not_mem_nil, or_false] at hname
    rcases hname with rfl | rfl
    · exact ⟨"a", virtualPath_eq_ok_iff.mpr ⟨["a"], rfl, by decide +kernel⟩⟩
    · exact absurd rfl hout
  · refine (collectFiles_exact_iff tidyTree leftoverOutput (some leftoverOutput)).2.mpr ?_
    intro _ p hp htemp
    obtain ⟨name, hname, rfl⟩ := flatTree_regular_iff.mp hp
    simp only [List.mem_cons, List.not_mem_nil, or_false] at hname
    rcases hname with rfl | rfl
    · -- the name of the asset is too short
      obtain ⟨suffix, hp⟩ := @IsTempOf.name [.text "in"] _ _ htemp
      simp only [List.cons_append, List.nil_append, List.cons.injEq, OsName.text.injEq, and_true,
        true_and] at hp
      have hlen := congrArg (fun s => s.toList.length) hp
      simp only [String.toList_append, List.length_append] at hlen
      have hout : "out".toList.length = 3 := rfl
      have ha : "a".toList.length = 1 := rfl
      omega
    · exact Or.inl rfl

end RasenArchive
