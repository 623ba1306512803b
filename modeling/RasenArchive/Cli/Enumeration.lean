import RasenArchive.Cli.Replacement
import RasenArchive.Pack.Serialise

/-!
# The order of enumeration

The order in which directories are listed has no effect on an XOR archive: the files are sorted by
their virtual paths, and files with the same virtual path are refused.

## Main definitions

* `Os.Steady`: an operating system that serves a directory tree with fixed contents
* `SameTree T T'`: the trees differ in the order of the entries of their directories
* `Ascending assets`: the assets are in the order of the bytes of their paths

## Main results

* `NewArchive.transfer`: an archive does not depend on how its files are read
* `enumeration_independence`: two runs fail both, or leave the same archive
-/

namespace RasenArchive

/-! ## Runs that succeed -/

/-- The operating system lists the tree, delivers the contents of its files, has a free name for the
temporary file, and fails nowhere. -/
structure Os.Steady (os : Os) (T : DirTree) (contents : DiskPath → Bytes) (before : Disk) :
    Prop where
  root : os.canonicalRoot = .ok T.root
  readDir : os.readDir = T.readDir
  opens : ∀ p, T.Regular p → ∃ reader, os.openFile p = .ok reader ∧ Delivers reader (contents p)
  free : ∀ output, normalizedOutputPath os = .ok output → ∃ n < 128, ∃ p,
    tempPath output os.pid os.stamp n = some p ∧ before p = none
  createNew : ∀ p, os.createNew p = none
  room : os.room = none
  seeks : os.seeks = none
  flush : os.flush = none
  syncAll : os.syncAll = none
  rename : os.rename = none

variable {D : Dependencies} {key : Bytes} {options : PackOptions} {os os' : Os} {T T' : DirTree}
  {contents : DiskPath → Bytes} {before : Disk} {output temp : DiskPath}
  {files : List (String × DiskPath)} {summary : PackSummary} {bytes : Bytes}

theorem tryPaths_of_free {t : Traced Disk} (hcreate : ∀ p, os.createNew p = none)
    {paths : List DiskPath} (hfree : ∃ p ∈ paths, t.now p = none) :
    ∃ p t', tryPaths os paths t = (.ok p, t') := by
  induction paths with
  | nil =>
    obtain ⟨p, hp, -⟩ := hfree
    cases hp
  | cons path paths ih =>
    rw [tryPaths_cons]
    unfold createNew
    rw [hcreate]
    cases hnow : t.now path with
    | none => exact ⟨path, _, rfl⟩
    | some node =>
      -- the name is taken, and the next is tried
      apply ih
      obtain ⟨p, hp, hnone⟩ := hfree
      rcases List.mem_cons.mp hp with rfl | hrest
      · rw [hnow] at hnone
        cases hnone
      · exact ⟨p, hrest, hnone⟩

theorem createTemp_of_free {t : Traced Disk} (hcreate : ∀ p, os.createNew p = none) {n : ℕ}
    (hn : n < 128) {p : DiskPath} (hp : tempPath output os.pid os.stamp n = some p)
    (hfree : t.now p = none) : ∃ p t', createTemp os output t = (.ok p, t') := by
  have hne : output ≠ [] := by
    rintro rfl
    cases hp
  rw [createTemp, if_neg hne]
  exact tryPaths_of_free hcreate
    ⟨p, List.mem_filterMap.mpr ⟨n, List.mem_range.mpr hn, hp⟩, hfree⟩

/-- The archive of some files is the one that the packer makes of them. -/
theorem NewArchive.packFiles (h : NewArchive D os key options files summary bytes)
    {d : Device} (hempty : d.bytes = []) (hhealthy : d.Healthy) :
    ∃ env, packFiles D deviceDestination os.openFile key options files ⟨d, os.entropy⟩ =
      (.ok summary, env) ∧ env.writer.bytes = bytes := by
  obtain ⟨inputs, assets, toc, block, stored, hinputs, hpacked, rfl, rfl⟩ := h
  obtain ⟨env, hrun, hbytes, -⟩ := packReaders_of_packed hempty hhealthy hpacked
  exact ⟨env, packFiles_eq_ok_iff.mpr ⟨inputs, hinputs, hrun⟩, hbytes⟩

theorem NewArchive.unique {summary' : PackSummary} {bytes' : Bytes}
    (h : NewArchive D os key options files summary bytes)
    (h' : NewArchive D os key options files summary' bytes') :
    summary = summary' ∧ bytes = bytes' := by
  obtain ⟨env, hrun, hbytes⟩ := h.packFiles (d := Device.empty none none) rfl ⟨rfl, rfl⟩
  obtain ⟨env', hrun', hbytes'⟩ := h'.packFiles (d := Device.empty none none) rfl ⟨rfl, rfl⟩
  rw [hrun] at hrun'
  cases hrun'
  exact ⟨rfl, hbytes.symm.trans hbytes'⟩

/-- The closure succeeds where the files make up an archive and nothing fails. -/
theorem writeArchive_of_archive {t : Traced Disk} (hsteady : os.Steady T contents before)
    (h : t.Always (Besides temp before)) (hne : temp ≠ output)
    (hfile : ∃ b, t.now temp = some (.file b)) (hdir : before output ≠ some .dir)
    (harchive : NewArchive D os key options files summary bytes) :
    ∃ t', writeArchive D os key options files temp output t = (.ok summary, t') := by
  obtain ⟨t₁, hspill, hkept, -⟩ := spill_apply h hfile os.spills
  obtain ⟨env, hrun, -⟩ := @NewArchive.packFiles D key options os files summary bytes harchive
    (Device.empty os.room os.seeks) rfl ⟨hsteady.room, hsteady.seeks⟩
  unfold writeArchive
  rw [Fallible.bind_of_ok hspill, hrun, hsteady.flush, hsteady.syncAll]
  show ∃ t', (onFiles (renameFile os temp output) >>= fun _ => pure summary)
    (t₁.change (Function.update t₁.now temp (some (.file env.writer.bytes)))) = (.ok summary, t')
  have hwritten := hkept.change (besides_update hkept.now (some (.file env.writer.bytes)))
  have hnow : (t₁.change (Function.update t₁.now temp (some (.file env.writer.bytes)))).now temp =
      some (.file env.writer.bytes) := Function.update_self ..
  generalize t₁.change (Function.update t₁.now temp (some (.file env.writer.bytes))) = t₂ at *
  obtain ⟨t₃, hrename⟩ : ∃ t₃, renameFile os temp output t₂ = (.ok (), t₃) := by
    unfold renameFile
    rw [hsteady.rename, hnow, hwritten.now output hne.symm]
    rcases hout : before output with _ | _ | _ | _ | _
    · exact ⟨_, rfl⟩
    · exact absurd hout hdir
    · exact ⟨_, rfl⟩
    · exact ⟨_, rfl⟩
    · exact ⟨_, rfl⟩
  rw [Fallible.bind_of_ok (onFiles_of_ok hrename)]
  exact ⟨t₃, rfl⟩

theorem packDir_of_listFiles {sorting : UnstableSort nameKey} {turns : ℕ} {t : Traced Disk}
    (h : listFiles os turns = .ok (output, files)) :
    packDir D os key options sorting turns t =
      (opening (createTemp os output) >>= fun temp =>
        replaceOutput D os key options (sorting.sort files) temp output) t := by
  unfold packDir
  rw [Fallible.liftM_bind_of_ok h]

/-- **A run succeeds** where its files make up an archive and nothing fails. -/
theorem packDir_of_archive (hsteady : os.Steady T contents before)
    (sorting : UnstableSort nameKey) {turns : ℕ} (hlist : listFiles os turns = .ok (output, files))
    (harchive : NewArchive D os key options (sorting.sort files) summary bytes)
    (hdir : before output ≠ some .dir) :
    ∃ t, packDir D os key options sorting turns (Traced.start before) = (.ok summary, t) ∧
      t.now output = some (.file bytes) := by
  obtain ⟨-, -, -, hout, -⟩ := listFiles_eq_ok hlist
  obtain ⟨n, hn, p, hp, hfree⟩ := hsteady.free output hout
  obtain ⟨temp, t₁, hcreate⟩ := createTemp_of_free (t := Traced.start before) hsteady.createNew hn hp
    hfree
  obtain ⟨hne, hnew, rfl⟩ := createTemp_post.of_ok hcreate
  have hkept : Traced.Always (Besides temp before) (Traced.start before) :=
    Traced.always_start fun _ _ => rfl
  obtain ⟨t₂, hwrite⟩ := writeArchive_of_archive hsteady
    (hkept.change (besides_update hkept.now (some (.file [])))) hne ⟨[], Function.update_self ..⟩
    hdir harchive
  have hrun : packDir D os key options sorting turns (Traced.start before) = (.ok summary, t₂) := by
    rw [packDir_of_listFiles hlist, Fallible.bind_of_ok (opening_of_ok hcreate), replaceOutput,
      hwrite]
  refine ⟨t₂, hrun, ?_⟩
  obtain ⟨output', files', bytes', hlist', harchive', -, hnow, -⟩ := (packDir_post ..).of_ok hrun
  cases hlist.symm.trans hlist'
  rw [hnow, (harchive.unique harchive').2]
  exact Function.update_self ..

/-! ## Two orders of the same tree -/

/-- The trees differ in the order of the entries of their directories. -/
structure SameTree (T T' : DirTree) : Prop where
  root : T.root = T'.root
  entries : ∀ dir, (T.entries dir).Perm (T'.entries dir)

theorem SameTree.symm (h : SameTree T T') : SameTree T' T :=
  ⟨h.root.symm, fun dir => (h.entries dir).symm⟩

theorem SameTree.dir (h : SameTree T T') {dir : DiskPath} (hdir : T.Dir dir) : T'.Dir dir := by
  unfold DirTree.Dir at *
  rw [← h.root]
  induction hdir with
  | refl => exact .refl
  | step _ hc ih =>
    obtain ⟨name, hmem, rfl⟩ := mem_subdirs_iff.mp hc
    exact ih.step (mem_subdirs_iff.mpr ⟨name, (h.entries _).mem_iff.mp hmem, rfl⟩)

theorem SameTree.regular (h : SameTree T T') {p : DiskPath} (hp : T.Regular p) : T'.Regular p := by
  obtain ⟨dir, name, hdir, hmem, rfl⟩ := hp
  exact ⟨dir, name, h.dir hdir, (h.entries dir).mem_iff.mp hmem, rfl⟩

theorem SameTree.regular_iff (h : SameTree T T') {p : DiskPath} : T.Regular p ↔ T'.Regular p :=
  ⟨h.regular, h.symm.regular⟩

variable {existingOutput : Option DiskPath}

/-- The files that are packed: the regular ones but the destination. -/
def DirTree.Packs (T : DirTree) (output : DiskPath) (existingOutput : Option DiskPath)
    (p : DiskPath) : Prop :=
  T.Regular p ∧ p ≠ output ∧ existingOutput ≠ some p

/-- The files to pack, each once with its virtual path. -/
structure DirTree.Collected (T : DirTree) (output : DiskPath) (existingOutput : Option DiskPath)
    (files : List (String × DiskPath)) : Prop where
  nodup : (files.map Prod.snd).Nodup
  mem_iff : ∀ v p, (v, p) ∈ files ↔
    T.Packs output existingOutput p ∧ virtualPath T.root p = .ok v
  virtual : ∀ p, T.Packs output existingOutput p → ∃ v, virtualPath T.root p = .ok v

/-- **The listing ends**, with the files to pack where all of them have virtual paths. -/
theorem collectFiles_ends (T : DirTree) (output : DiskPath) (existingOutput : Option DiskPath) :
    ∃ enough, ∀ turns, enough ≤ turns →
      (∃ files, collectFiles T.readDir T.root output existingOutput turns = some (.ok files) ∧
          T.Collected output existingOutput files) ∨
        (∃ e, collectFiles T.readDir T.root output existingOutput turns = some (.error e)) ∧
          ∃ p, T.Packs output existingOutput p ∧ ∀ v, virtualPath T.root p ≠ .ok v := by
  by_cases hpaths : ∀ p, T.Packs output existingOutput p → ∃ v, virtualPath T.root p = .ok v
  · obtain ⟨files, ⟨enough, hrun⟩, hnodup, hmem⟩ :=
      collectFiles_ok fun p hp hout hex => hpaths p ⟨hp, hout, hex⟩
    exact ⟨enough, fun turns hturns => Or.inl ⟨files, hrun turns hturns, hnodup, hmem, hpaths⟩⟩
  · push Not at hpaths
    obtain ⟨p, hp, hnone⟩ := hpaths
    obtain ⟨enough, order, -, hmem, heq⟩ := collectFiles_eq T output existingOutput
    refine ⟨enough, fun turns hturns => Or.inr ⟨?_, p, hp, hnone⟩⟩
    rw [heq turns hturns]
    cases hm : (order.flatMap (T.keptFiles output existingOutput)).mapM (namedFile T.root) with
    | error e => exact ⟨e, rfl⟩
    | ok files =>
      have hall := exists_mapM_namedFile_iff.mp ⟨files, hm⟩
      obtain ⟨v, hv⟩ := hall p ((mem_flatMap_keptFiles_iff hmem).mpr hp)
      exact absurd hv (hnone v)

/-- **The same files are collected** from the same tree, in another order. -/
theorem DirTree.Collected.perm {files' : List (String × DiskPath)} (hsame : SameTree T T')
    (h : T.Collected output existingOutput files)
    (h' : T'.Collected output existingOutput files') : files.Perm files' := by
  refine (List.perm_ext_iff_of_nodup h.nodup.of_map h'.nodup.of_map).mpr fun file => ?_
  obtain ⟨v, p⟩ := file
  rw [h.mem_iff, h'.mem_iff, DirTree.Packs, DirTree.Packs, hsame.regular_iff, hsame.root]

/-! ## Sorting -/

theorem byteKey_injective : Function.Injective byteKey := by
  intro s s' h
  exact asBytes_injective (List.map_injective_iff.mpr (fun _ _ => UInt8.toNat_inj.mp) h)

/-- **Sorting** does not depend on the order before it, nor on the sort, where no two keys are
equal. -/
theorem UnstableSort.sort_eq (sorting sorting' : UnstableSort nameKey)
    {files' : List (String × DiskPath)} (hperm : files.Perm files')
    (hnames : (files.map Prod.fst).Nodup) : sorting.sort files = sorting'.sort files' := by
  have hsort := sorting.perm files
  have hsort' := (sorting'.perm files').trans hperm.symm
  refine (hsort.trans hsort'.symm).eq_of_pairwise ?_ (sorting.sorted files) (sorting'.sorted files')
  intro a b ha hb hab hba
  have hname := byteKey_injective (le_antisymm hab hba)
  exact List.inj_on_of_nodup_map hnames (hsort.mem_iff.mp ha) (hsort'.mem_iff.mp hb) hname

/-- The virtual paths of the files to pack are in normal form. -/
theorem DirTree.Collected.normal (sorting : UnstableSort nameKey)
    (h : T.Collected output existingOutput files) :
    ∀ file ∈ sorting.sort files, normalizePath file.1 = .ok file.1 := by
  intro file hfile
  have hmem := (sorting.perm files).mem_iff.mp hfile
  obtain ⟨-, hv⟩ := (h.mem_iff file.1 file.2).mp hmem
  obtain ⟨names, -, hn⟩ := virtualPath_eq_ok_iff.mp hv
  exact normalizePath_idempotent hn

/-! ## Two runs -/

/-- The paths of an archive are the virtual paths of its files. -/
theorem paths_of_opens {chunkSize : ℕ} {inputs : List Input} {assets : List Asset}
    (hopens : List.Forall₂ (Opens os.openFile) files inputs)
    (hassets : List.Forall₂ (Asset.Of chunkSize) inputs assets)
    (hnormal : ∀ file ∈ files, normalizePath file.1 = .ok file.1) :
    assets.map Asset.path = files.map Prod.fst := by
  induction hopens generalizing assets with
  | nil =>
    cases hassets
    rfl
  | @cons file input files inputs hopen _ ih =>
    cases hassets with
    | @cons _ a _ assets ha hrest =>
      rw [List.forall_mem_cons] at hnormal
      have hpath := ha.path
      rw [hopen.path, hnormal.1, Except.ok.injEq] at hpath
      rw [List.map_cons, List.map_cons, ← hpath, ih hrest hnormal.2]

/-- The names of the files of an archive differ. -/
theorem NewArchive.nodup (h : NewArchive D os key options files summary bytes)
    (hnormal : ∀ file ∈ files, normalizePath file.1 = .ok file.1) :
    (files.map Prod.fst).Nodup := by
  obtain ⟨inputs, assets, toc, block, stored, hinputs, hpacked, -, -⟩ := h
  rw [← paths_of_opens hinputs hpacked.inputs hnormal]
  exact hpacked.paths

/-- The files deliver their contents. -/
theorem feeds_of_opens {inputs : List Input} (hsteady : os.Steady T contents before)
    (hregular : ∀ file ∈ files, T.Regular file.2)
    (hopens : List.Forall₂ (Opens os.openFile) files inputs) :
    List.Forall₂ Feeds (files.map fun file => ⟨file.1, contents file.2⟩) inputs := by
  induction hopens with
  | nil => exact .nil
  | @cons file input files inputs hopen _ ih =>
    rw [List.forall_mem_cons] at hregular
    obtain ⟨reader, hreader, hdelivers⟩ := hsteady.opens file.2 hregular.1
    have heq := hopen.opens.symm.trans hreader
    rw [Except.ok.injEq] at heq
    rw [← heq] at hdelivers
    exact .cons ⟨hopen.path, hdelivers⟩ (ih hregular.2)

theorem exists_opens (hsteady : os.Steady T contents before)
    (hregular : ∀ file ∈ files, T.Regular file.2) :
    ∃ inputs, List.Forall₂ (Opens os.openFile) files inputs := by
  induction files with
  | nil => exact ⟨[], .nil⟩
  | cons file files ih =>
    rw [List.forall_mem_cons] at hregular
    obtain ⟨reader, hreader, -⟩ := hsteady.opens file.2 hregular.1
    obtain ⟨inputs, hinputs⟩ := ih hregular.2
    exact ⟨⟨file.1, reader⟩ :: inputs, .cons ⟨rfl, hreader⟩ hinputs⟩

/-- **An XOR archive does not depend on how its files are read**, nor on the random source. -/
theorem NewArchive.transfer (hxor : options.protection = .xor)
    (h : NewArchive D os key options files summary bytes) (hsteady : os.Steady T contents before)
    (hsteady' : os'.Steady T' contents before) (hregular : ∀ file ∈ files, T.Regular file.2)
    (hregular' : ∀ file ∈ files, T'.Regular file.2) :
    NewArchive D os' key options files summary bytes := by
  obtain ⟨inputs, assets, toc, block, stored, hinputs, hpacked, hsummary, hbytes⟩ := h
  obtain ⟨inputs', hinputs'⟩ := exists_opens hsteady' hregular'
  have hfeeds := feeds_of_opens hsteady hregular hinputs
  have hfeeds' := feeds_of_opens hsteady' hregular' hinputs'
  have hpacked' := (hpacked.of_feeds hfeeds hfeeds').of_xor hxor os'.entropy
  exact ⟨inputs', assets, toc, block, stored, hinputs', hpacked', hsummary, hbytes⟩

/-- The two runs are given the same paths. -/
structure SamePaths (os os' : Os) : Prop where
  absoluteOutput : os.absoluteOutput = os'.absoluteOutput
  canonicalize : os.canonicalize = os'.canonicalize

theorem SamePaths.normalizedOutputPath (h : SamePaths os os') :
    normalizedOutputPath os = normalizedOutputPath os' := by
  unfold RasenArchive.normalizedOutputPath
  rw [h.absoluteOutput, h.canonicalize]

theorem SamePaths.existingPath (h : SamePaths os os') (output : DiskPath) :
    existingPath os output = existingPath os' output := by
  unfold RasenArchive.existingPath
  rw [h.canonicalize]

/-- The result is a failure, and not for want of turns. -/
def Fails {α : Type} (result : Except Stop α) : Prop :=
  ∃ stop, result = .error stop ∧ stop ≠ .unfinished

theorem CliError.stop_ne_unfinished (e : CliError) : e.stop ≠ .unfinished := by
  unfold CliError.stop
  split <;> simp

theorem fails_onCli {α : Type} (e : CliError) : Fails (onCli (.error e : Except CliError α)) :=
  ⟨e.stop, rfl, e.stop_ne_unfinished⟩

theorem listFiles_of_paths {root : DiskPath} {turns : ℕ} (hroot : os.canonicalRoot = .ok root)
    (hout : normalizedOutputPath os = .ok output)
    (hex : existingPath os output = .ok existingOutput) :
    listFiles os turns =
      match collectFiles os.readDir root output existingOutput turns with
      | none => .error .unfinished
      | some files => (onCli files).map fun files => (output, files) := by
  unfold listFiles
  simp only [hroot, hout, onIo, onCli, bind, Except.bind, hex]
  rcases collectFiles os.readDir root output existingOutput turns with _ | _ | _ <;> rfl

theorem listFiles_fails_of_output {root : DiskPath} {turns : ℕ} {e : IoError}
    (hroot : os.canonicalRoot = .ok root) (hout : normalizedOutputPath os = .error e) :
    Fails (listFiles os turns) := by
  rw [listFiles, hroot, hout]
  exact fails_onCli (.io e)

theorem listFiles_fails_of_existing {root : DiskPath} {turns : ℕ} {e : CliError}
    (hroot : os.canonicalRoot = .ok root) (hout : normalizedOutputPath os = .ok output)
    (hex : existingPath os output = .error e) : Fails (listFiles os turns) := by
  unfold listFiles
  simp only [hroot, hout, onIo, onCli, bind, Except.bind, hex]
  exact fails_onCli e

theorem listFiles_fails_of_collect {root : DiskPath} {turns : ℕ} {e : CliError}
    (hroot : os.canonicalRoot = .ok root) (hout : normalizedOutputPath os = .ok output)
    (hex : existingPath os output = .ok existingOutput)
    (hrun : collectFiles os.readDir root output existingOutput turns = some (.error e)) :
    Fails (listFiles os turns) := by
  rw [listFiles_of_paths hroot hout hex, hrun]
  exact fails_onCli e

/-- **The listings** of two runs end alike. -/
theorem listFiles_ends (hsame : SameTree T T') (hpaths : SamePaths os os')
    (hsteady : os.Steady T contents before) (hsteady' : os'.Steady T' contents before) :
    ∃ enough, ∀ turns turns', enough ≤ turns → enough ≤ turns' →
      (∃ output existingOutput files files', existingPath os output = .ok existingOutput ∧
          listFiles os turns = .ok (output, files) ∧
          listFiles os' turns' = .ok (output, files') ∧
          T.Collected output existingOutput files ∧ T'.Collected output existingOutput files') ∨
        Fails (listFiles os turns) ∧ Fails (listFiles os' turns') := by
  have hout' := hpaths.normalizedOutputPath
  rcases hout : normalizedOutputPath os with e | output
  · exact ⟨0, fun _ _ _ _ => Or.inr ⟨listFiles_fails_of_output hsteady.root hout,
      listFiles_fails_of_output hsteady'.root (hout'.symm.trans hout)⟩⟩
  have hex' := hpaths.existingPath output
  rcases hex : existingPath os output with e | existingOutput
  · exact ⟨0, fun _ _ _ _ => Or.inr ⟨listFiles_fails_of_existing hsteady.root hout hex,
      listFiles_fails_of_existing hsteady'.root (hout'.symm.trans hout) (hex'.symm.trans hex)⟩⟩
  have hrootOut := hout'.symm.trans hout
  have hexOut := hex'.symm.trans hex
  obtain ⟨enough, hends⟩ := collectFiles_ends T output existingOutput
  obtain ⟨enough', hends'⟩ := collectFiles_ends T' output existingOutput
  refine ⟨max enough enough', fun turns turns' hturns hturns' => ?_⟩
  have hend := hends turns (le_trans (Nat.le_max_left ..) hturns)
  have hend' := hends' turns' (le_trans (Nat.le_max_right ..) hturns')
  rw [← hsteady.readDir] at hend
  rw [← hsteady'.readDir] at hend'
  -- a file without a virtual path is one in both trees
  have hpacks : ∀ p, T.Packs output existingOutput p ↔ T'.Packs output existingOutput p := by
    intro p
    rw [DirTree.Packs, DirTree.Packs, hsame.regular_iff]
  rcases hend with ⟨files, hrun, hcollected⟩ | ⟨⟨e, hrun⟩, p, hp, hnone⟩
  · rcases hend' with ⟨files', hrun', hcollected'⟩ | ⟨-, p, hp, hnone⟩
    · refine Or.inl ⟨output, existingOutput, files, files', hex, ?_, ?_, hcollected, hcollected'⟩
      · rw [listFiles_of_paths hsteady.root hout hex, hrun]
        rfl
      · rw [listFiles_of_paths hsteady'.root hrootOut hexOut, hrun']
        rfl
    · obtain ⟨v, hv⟩ := hcollected.virtual p ((hpacks p).mpr hp)
      exact absurd (hsame.root ▸ hv) (hnone v)
  · rcases hend' with ⟨files', -, hcollected'⟩ | ⟨⟨e', hrun'⟩, -⟩
    · obtain ⟨v, hv⟩ := hcollected'.virtual p ((hpacks p).mp hp)
      exact absurd (hsame.root ▸ hv) (hnone v)
    · exact Or.inr ⟨listFiles_fails_of_collect hsteady.root hout hex hrun,
        listFiles_fails_of_collect hsteady'.root hrootOut hexOut hrun'⟩

theorem packDir_of_listFiles_error {sorting : UnstableSort nameKey} {turns : ℕ} {t : Traced Disk}
    (h : Fails (listFiles os turns)) : Fails (packDir D os key options sorting turns t).1 := by
  obtain ⟨stop, hstop, hne⟩ := h
  refine ⟨stop, ?_, hne⟩
  unfold packDir
  rw [Fallible.liftM_bind_of_error hstop]

/-- A run that has its listing does not stop for want of turns. -/
theorem packDir_fails {sorting : UnstableSort nameKey} {turns : ℕ} {t : Traced Disk} {stop : Stop}
    (hlist : listFiles os turns = .ok (output, files))
    (hrun : (packDir D os key options sorting turns t).1 = .error stop) :
    Fails (packDir D os key options sorting turns t).1 := by
  refine ⟨stop, hrun, ?_⟩
  rintro rfl
  rw [packDir_of_listFiles hlist, Fallible.bind_apply] at hrun
  rcases hcreate : createTemp os output t with ⟨e | temp, t₁⟩
  · simp only [opening, hcreate] at hrun
    cases hrun
  · rw [opening_of_ok hcreate] at hrun
    simp only [replaceOutput] at hrun
    rcases hwrite : writeArchive D os key options (sorting.sort files) temp output t₁ with
      ⟨e | summary, t₂⟩
    · rw [hwrite] at hrun
      have hne := e.stop_ne_unfinished
      rcases hstop : e.stop with e' | p | _
      · simp only [hstop] at hrun
        cases hrun
      · simp only [hstop] at hrun
        cases hrun
      · exact hne hstop
    · rw [hwrite] at hrun
      cases hrun

/-- **A run that succeeds** is matched by the other: it leaves the same archive. -/
theorem packDir_transfer (hxor : options.protection = .xor) (hsame : SameTree T T')
    (hsteady : os.Steady T contents before) (hsteady' : os'.Steady T' contents before)
    (sorting sorting' : UnstableSort nameKey) {turns turns' : ℕ}
    {files' : List (String × DiskPath)} (hlist : listFiles os turns = .ok (output, files))
    (hlist' : listFiles os' turns' = .ok (output, files'))
    (hcollected : T.Collected output existingOutput files)
    (hcollected' : T'.Collected output existingOutput files') {t : Traced Disk}
    (hrun : packDir D os key options sorting turns (Traced.start before) = (.ok summary, t)) :
    ∃ bytes t', NewArchive D os key options (sorting.sort files) summary bytes ∧
      ((sorting.sort files).map Prod.fst).Nodup ∧ t.now output = some (.file bytes) ∧
      packDir D os' key options sorting' turns' (Traced.start before) = (.ok summary, t') ∧
      t'.now output = some (.file bytes) := by
  obtain ⟨output₁, files₁, bytes, hlist₁, harchive, hdir, hnow, -⟩ := (packDir_post ..).of_ok hrun
  cases hlist.symm.trans hlist₁
  have hregular : ∀ file ∈ sorting.sort files, T.Regular file.2 := by
    intro file hfile
    have hmem := (sorting.perm files).mem_iff.mp hfile
    exact ((hcollected.mem_iff file.1 file.2).mp hmem).1.1
  have hnames := harchive.nodup (hcollected.normal sorting)
  -- no two names are equal, so both sorts give the same list
  have hsorted := sorting.sort_eq sorting' (hcollected.perm hsame hcollected')
    (((sorting.perm files).map Prod.fst).nodup_iff.mp hnames)
  have harchive' := harchive.transfer hxor hsteady hsteady' hregular
    fun file hfile => hsame.regular (hregular file hfile)
  rw [hsorted] at harchive'
  obtain ⟨t', hrun', hnow'⟩ := packDir_of_archive hsteady' sorting' hlist' harchive' hdir
  refine ⟨bytes, t', harchive, hnames, ?_, hrun', hnow'⟩
  rw [hnow]
  exact Function.update_self ..

/-- The assets are in the order of the bytes of their paths. -/
def Ascending (assets : List Asset) : Prop :=
  (assets.map fun a => byteKey a.path).Pairwise (· < ·)

/-- The archive of sorted files with different names is in ascending order. -/
theorem NewArchive.ascending (sorting : UnstableSort nameKey)
    (h : NewArchive D os key options (sorting.sort files) summary bytes)
    (hnormal : ∀ file ∈ sorting.sort files, normalizePath file.1 = .ok file.1) :
    ∃ assets toc block stored, Archived D ⟨key, options, os.entropy⟩ assets toc block stored ∧
      Ascending assets ∧ bytes = image D ⟨key, options, os.entropy⟩ assets toc stored := by
  have hnames := h.nodup hnormal
  obtain ⟨inputs, assets, toc, block, stored, hinputs, hpacked, -, hbytes⟩ := h
  refine ⟨assets, toc, block, stored, hpacked.toArchived, ?_, hbytes⟩
  have hpaths := paths_of_opens hinputs hpacked.inputs hnormal
  have hkeys : assets.map (fun a => byteKey a.path) = (sorting.sort files).map nameKey := by
    show assets.map (byteKey ∘ Asset.path) = (sorting.sort files).map (byteKey ∘ Prod.fst)
    rw [← List.map_map, ← List.map_map, hpaths]
  rw [Ascending, hkeys, List.pairwise_map]
  have hne : (sorting.sort files).Pairwise fun x y => nameKey x ≠ nameKey y := by
    rw [List.Nodup, List.pairwise_map] at hnames
    exact hnames.imp fun h hkey => h (byteKey_injective hkey)
  exact ((sorting.sorted files).and hne).imp fun h => lt_of_le_of_ne h.1 h.2

/-- Where both listings end, one run succeeds as the other does. -/
theorem fails_or_ok {sorting : UnstableSort nameKey} {turns : ℕ} {t : Traced Disk}
    (hlist : listFiles os turns = .ok (output, files)) :
    Fails (packDir D os key options sorting turns t).1 ∨
      ∃ summary t', packDir D os key options sorting turns t = (.ok summary, t') := by
  rcases hrun : packDir D os key options sorting turns t with ⟨stop | summary, t'⟩
  · left
    have hfails := @packDir_fails D key options os output files sorting turns t stop hlist
    rw [hrun] at hfails
    exact hfails rfl
  · exact Or.inr ⟨summary, t', rfl⟩

/-- **The order of enumeration has no effect.** Two runs over the same tree, whatever the order in
which its directories are listed, how its files are read, and what an unstable sort does with equal
keys, fail both, or leave the same archive, with its entries in ascending order. They fail both where
two files have the same virtual path. -/
theorem enumeration_independence (D : Dependencies) (key : Bytes) (options : PackOptions)
    (hxor : options.protection = .xor) {T T' : DirTree} (hsame : SameTree T T')
    {contents : DiskPath → Bytes} {before : Disk} {os os' : Os} (hpaths : SamePaths os os')
    (hsteady : os.Steady T contents before) (hsteady' : os'.Steady T' contents before)
    (sorting sorting' : UnstableSort nameKey) :
    ∃ enough, ∀ turns turns', enough ≤ turns → enough ≤ turns' →
      let run := packDir D os key options sorting turns (Traced.start before)
      let run' := packDir D os' key options sorting' turns' (Traced.start before)
      (Fails run.1 ∧ Fails run'.1 ∨
        ∃ output summary assets toc block stored, normalizedOutputPath os = .ok output ∧
          Archived D ⟨key, options, os.entropy⟩ assets toc block stored ∧ Ascending assets ∧
          run.1 = .ok summary ∧ run'.1 = .ok summary ∧
          run.2.now output =
            some (.file (image D ⟨key, options, os.entropy⟩ assets toc stored)) ∧
          run'.2.now output =
            some (.file (image D ⟨key, options, os.entropy⟩ assets toc stored))) ∧
      ∀ output existingOutput p q v, normalizedOutputPath os = .ok output →
        existingPath os output = .ok existingOutput → T.Packs output existingOutput p →
        T.Packs output existingOutput q → p ≠ q → virtualPath T.root p = .ok v →
        virtualPath T.root q = .ok v → Fails run.1 ∧ Fails run'.1 := by
  obtain ⟨enough, hends⟩ := listFiles_ends hsame hpaths hsteady hsteady'
  refine ⟨enough, fun turns turns' hturns hturns' => ?_⟩
  dsimp only
  rcases hends turns turns' hturns hturns' with
    ⟨output, existingOutput, files, files', hex, hlist, hlist', hcollected, hcollected'⟩ |
      ⟨hfails, hfails'⟩
  swap
  · refine ⟨Or.inl ⟨?_, ?_⟩, fun _ _ _ _ _ _ _ _ _ _ _ _ => ⟨?_, ?_⟩⟩
    · exact packDir_of_listFiles_error hfails
    · exact packDir_of_listFiles_error hfails'
    · exact packDir_of_listFiles_error hfails
    · exact packDir_of_listFiles_error hfails'
  obtain ⟨-, -, -, hout, -⟩ := listFiles_eq_ok hlist
  rcases fails_or_ok (D := D) hlist with hfails | ⟨summary, t, hrun⟩
  · -- the other run succeeds only where this one does
    have hfails' : Fails (packDir D os' key options sorting' turns' (Traced.start before)).1 := by
      refine (fails_or_ok hlist').resolve_right ?_
      rintro ⟨summary, t', hrun'⟩
      obtain ⟨bytes, t, -, -, -, hrun, -⟩ := packDir_transfer hxor hsame.symm hsteady' hsteady sorting'
        sorting hlist' hlist hcollected' hcollected hrun'
      obtain ⟨stop, hstop, -⟩ := hfails
      rw [hrun] at hstop
      cases hstop
    exact ⟨Or.inl ⟨hfails, hfails'⟩, fun _ _ _ _ _ _ _ _ _ _ _ _ => ⟨hfails, hfails'⟩⟩
  · obtain ⟨bytes, t', harchive, hnames, hnow, hrun', hnow'⟩ := packDir_transfer hxor hsame hsteady
      hsteady' sorting sorting' hlist hlist' hcollected hcollected' hrun
    obtain ⟨assets, toc, block, stored, hdone, hascending, rfl⟩ :=
      harchive.ascending sorting (hcollected.normal sorting)
    refine ⟨Or.inr ⟨output, summary, assets, toc, block, stored, hout, hdone, hascending, ?_⟩, ?_⟩
    · rw [hrun, hrun']
      exact ⟨rfl, rfl, hnow, hnow'⟩
    · intro output₁ existing₁ p q v hout₁ hex₁ hp hq hne hvp hvq
      cases hout.symm.trans hout₁
      cases hex.symm.trans hex₁
      have hnodup := ((sorting.perm files).map Prod.fst).nodup_iff.mp hnames
      have hsame := List.inj_on_of_nodup_map hnodup ((hcollected.mem_iff v p).mpr ⟨hp, hvp⟩)
        ((hcollected.mem_iff v q).mpr ⟨hq, hvq⟩) rfl
      exact absurd (congrArg Prod.snd hsame) hne

/-! ## Two files in both orders -/

/-- An insertion sort. -/
def insertionSorting {α : Type} (key : α → List ℕ) : UnstableSort key where
  sort xs := xs.insertionSort fun x y => key x ≤ key y
  perm xs := xs.perm_insertionSort _
  sorted xs := by
    have htotal : Std.Total fun x y : α => key x ≤ key y := ⟨fun x y => le_total (key x) (key y)⟩
    have htrans : IsTrans α fun x y => key x ≤ key y := ⟨fun _ _ _ => le_trans⟩
    exact xs.pairwise_insertionSort _

/-- A directory with two files. -/
def pairTree : DirTree := flatTree [.text "a", .text "b"] (by decide)

/-- The same directory, listed the other way round. -/
def reversedTree : DirTree := flatTree [.text "b", .text "a"] (by decide)

/-- A system that lists the tree. -/
def pairOs (tree : DirTree) (stamp : ℕ) : Os where
  canonicalRoot := .ok tree.root
  absoluteOutput := .ok [.normal (.text "dst"), .normal (.text "out")]
  canonicalize path :=
    if path = [.normal (.text "dst")] then .ok [.text "dst"]
    else .error ⟨.notFound, "no such file"⟩
  readDir := tree.readDir
  pid := 7
  stamp := stamp
  createNew _ := none
  openFile p := .ok [.data (if p = [.text "in", .text "a"] then [1] else [2, 3])]
  room := none
  seeks := none
  entropy := ⟨fun _ => none, 0, []⟩
  spills := [[0]]
  flush := none
  syncAll := none
  rename := none
  removeFile := none

/-- The disk before the runs. -/
def pairDisk : Disk := fun p =>
  if p = [] ∨ p = [.text "in"] ∨ p = [.text "dst"] then some .dir
  else if p = [.text "in", .text "a"] then some (.file [1])
  else if p = [.text "in", .text "b"] then some (.file [2, 3])
  else none

theorem pairOs_steady (tree : DirTree) (stamp : ℕ) :
    (pairOs tree stamp).Steady tree
      (fun p => if p = [.text "in", .text "a"] then [1] else [2, 3]) pairDisk where
  root := rfl
  readDir := rfl
  opens p _ := by
    refine ⟨_, rfl, ?_⟩
    split_ifs
    · exact .data (by simp) (.atEnd (by simp [AtEnd]))
    · exact .data (by simp) (.atEnd (by simp [AtEnd]))
  free output hout := by
    cases hout
    exact ⟨0, by decide, _, rfl, by simp [pairDisk]⟩
  createNew _ := rfl
  room := rfl
  seeks := rfl
  flush := rfl
  syncAll := rfl
  rename := rfl

/-- The run over a directory with two files. -/
def pairRun (tree : DirTree) (stamp turns : ℕ) : Except Stop PackSummary × Traced Disk :=
  packDir reference (pairOs tree stamp) [7] ⟨2, 4, .debug, .xor⟩ (insertionSorting nameKey) turns
    (Traced.start pairDisk)

/-- Two turns are enough for a directory without directories in it. -/
theorem pairRun_turns (turns : ℕ) : pairRun pairTree 5 (turns + 2) = pairRun pairTree 5 2 := by
  have hlist : listFiles (pairOs pairTree 5) (turns + 2) = listFiles (pairOs pairTree 5) 2 := rfl
  unfold pairRun packDir
  rw [hlist]

theorem enumeration_independence_pair :
    ∃ enough, ∀ turns turns', enough ≤ turns → enough ≤ turns' → ∃ summary bytes,
      (pairRun pairTree 5 turns).1 = .ok summary ∧ (pairRun reversedTree 6 turns').1 = .ok summary ∧
      (pairRun pairTree 5 turns).2.now [.text "dst", .text "out"] = some (.file bytes) ∧
      (pairRun reversedTree 6 turns').2.now [.text "dst", .text "out"] = some (.file bytes) := by
  have hsame : SameTree pairTree reversedTree := by
    refine ⟨rfl, fun dir => ?_⟩
    rcases Decidable.em (dir = [.text "in"]) with rfl | hne
    · exact List.Perm.swap ..
    · simp [pairTree, reversedTree, flatTree, hne]
  have hpaths : SamePaths (pairOs pairTree 5) (pairOs reversedTree 6) := ⟨rfl, rfl⟩
  obtain ⟨enough, hruns⟩ := enumeration_independence reference [7] ⟨2, 4, .debug, .xor⟩ rfl hsame
    hpaths (pairOs_steady _ 5) (pairOs_steady _ 6) (insertionSorting nameKey)
    (insertionSorting nameKey)
  refine ⟨enough + 2, fun turns turns' hturns hturns' => ?_⟩
  obtain ⟨more, rfl⟩ : ∃ more, turns = more + 2 := ⟨turns - 2, by omega⟩
  obtain ⟨hends, -⟩ := hruns (more + 2) turns' (by omega) (by omega)
  have hok : (pairRun pairTree 5 2).1.isOk = true := by decide +kernel
  rcases hends with ⟨⟨stop, hstop, -⟩, -⟩ |
    ⟨output, summary, assets, toc, block, stored, hout, -, -, hrun, hrun', hnow, hnow'⟩
  · -- the run does not fail
    have hrun : (pairRun pairTree 5 (more + 2)).1 = .error stop := hstop
    rw [pairRun_turns] at hrun
    rw [hrun] at hok
    cases hok
  · have hpath : output = [.text "dst", .text "out"] := by
      cases hout
      rfl
    rw [hpath] at hnow hnow'
    unfold pairRun
    exact ⟨summary, _, hrun, hrun', hnow, hnow'⟩

end RasenArchive
