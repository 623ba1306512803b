import RasenArchive.Cli.PackDir

/-!
# Replacing the output

The output of `pack_dir` is replaced in one change, by the complete archive. Until then the run
changes one new file only, and it removes that file when it fails.

## Main definitions

* `Besides temp before disk`: the disk as it was before, but for one path
* `NewArchive`: the bytes that a complete run makes of its files
* `FailureSafe`: what a run does to the disk, wherever it stops

## Main results

* `packDir_post`: what one run may leave, and what it has gone through
* `packDir_failureSafe`: the output is the old one or the complete new one in every state
-/

namespace RasenArchive

/-! ## The temporary file -/

theorem OsName.push_ne (name : OsName) {s : String} (h : s ≠ "") : name.push s ≠ name := by
  have hlen : s.toList ≠ [] := by simpa using h
  cases name with
  | text t =>
    intro he
    rw [OsName.push, OsName.text.injEq] at he
    have htail := congrArg String.toList he
    rw [String.toList_append, List.append_right_eq_self] at htail
    exact hlen htail
  | other bytes =>
    intro he
    rw [OsName.push, OsName.other.injEq, List.append_right_eq_self] at he
    exact h (asBytes_injective (he.trans asBytes_empty.symm))

/-- A temporary path is not that of the output. -/
theorem tempPath_ne {output p : DiskPath} {pid stamp n : ℕ}
    (h : tempPath output pid stamp n = some p) : p ≠ output := by
  obtain ⟨name, hname, rfl⟩ := Option.map_eq_some_iff.mp h
  obtain ⟨parent, rfl⟩ := List.getLast?_eq_some_iff.mp hname
  rw [List.dropLast_concat]
  intro he
  refine name.push_ne ?_ (List.singleton_inj.mp (List.append_cancel_left he))
  intro hempty
  have hlen := congrArg String.length hempty
  simp [String.length_append] at hlen

variable {os : Os} {t : Traced Disk} {before : Disk} {output temp : DiskPath}

/-- A file is created only where there is none. -/
theorem createNew_cases (os : Os) (t : Traced Disk) (path : DiskPath) :
    (t.now path = none ∧
      createNew os path t =
        (.ok (), t.change (Function.update t.now path (some (.file []))))) ∨
      ∃ e, createNew os path t = (.error e, t) := by
  unfold createNew
  rcases t.now path with _ | node
  · rcases os.createNew path with _ | e
    · exact Or.inl ⟨rfl, rfl⟩
    · exact Or.inr ⟨e, rfl⟩
  · exact Or.inr ⟨_, rfl⟩

theorem tryPaths_cons (path : DiskPath) (paths : List DiskPath) :
    tryPaths os (path :: paths) t =
      match createNew os path t with
      | (.ok (), t') => (.ok path, t')
      | (.error e, t') => if e.kind = .alreadyExists then tryPaths os paths t' else (.error e, t') :=
  rfl

theorem tryPaths_post (paths : List DiskPath) :
    Fallible.Post (tryPaths os paths) t
      (fun path t' => path ∈ paths ∧ t.now path = none ∧
        t' = t.change (Function.update t.now path (some (.file []))))
      fun _ t' => t' = t := by
  rw [Fallible.post_iff]
  induction paths with
  | nil =>
    refine ⟨fun path t' h => ?_, fun e t' h => ?_⟩
    · cases h
    · cases h
      rfl
  | cons path paths ih =>
    rw [tryPaths_cons]
    rcases createNew_cases os t path with ⟨hnow, h⟩ | ⟨e, h⟩ <;> rw [h]
    · refine ⟨fun p t' hp => ?_, fun e t' he => ?_⟩
      · cases hp
        exact ⟨List.mem_cons_self .., hnow, rfl⟩
      · cases he
    · dsimp only
      split_ifs
      · exact ⟨fun p t' hp => (ih.1 p t' hp).imp_left (List.mem_cons_of_mem _), ih.2⟩
      · refine ⟨fun p t' hp => ?_, fun e t' he => ?_⟩
        · cases hp
        · cases he
          rfl

/-- **The temporary file** is new, and not the output. -/
theorem createTemp_post :
    Fallible.Post (createTemp os output) t
      (fun path t' => path ≠ output ∧ t.now path = none ∧
        t' = t.change (Function.update t.now path (some (.file []))))
      fun _ t' => t' = t := by
  unfold createTemp
  split_ifs
  · exact rfl
  · refine (tryPaths_post _).mono (fun path t' h => ⟨?_, h.2⟩) fun _ _ h => h
    obtain ⟨n, -, hpath⟩ := List.mem_filterMap.mp h.1
    exact tempPath_ne hpath

/-! ## The clean-up -/

/-- The disk as it was before, but for one path. -/
def Besides (temp : DiskPath) (before disk : Disk) : Prop := ∀ p, p ≠ temp → disk p = before p

/-- The disk with a file in the place of the output. -/
def replaced (before : Disk) (output : DiskPath) (bytes : Bytes) : Disk :=
  Function.update before output (some (.file bytes))

theorem besides_update {disk : Disk} (h : Besides temp before disk) (node : Option Node) :
    Besides temp before (Function.update disk temp node) := by
  intro p hp
  rw [Function.update_of_ne hp]
  exact h p hp

/-- Without its temporary file the disk is as it was before. -/
theorem update_none_eq {disk : Disk} (h : Besides temp before disk) (hnew : before temp = none) :
    Function.update disk temp none = before := by
  funext p
  rcases Decidable.em (p = temp) with rfl | hp
  · rw [Function.update_self, hnew]
  · rw [Function.update_of_ne hp, h p hp]

/-- A temporary file that takes the place of the output. -/
theorem update_update_eq {disk : Disk} {bytes : Bytes} (h : Besides temp before disk)
    (hnew : before temp = none) (hne : temp ≠ output) :
    Function.update (Function.update disk output (some (.file bytes))) temp none =
      replaced before output bytes := by
  rw [Function.update_comm hne.symm, update_none_eq h hnew, replaced]

/-- The writes change nothing but the temporary file. -/
theorem spill_apply (h : t.Always (Besides temp before)) (hfile : ∃ b, t.now temp = some (.file b))
    (spills : List Bytes) :
    ∃ t', spill temp spills t = (.ok (), t') ∧ t'.Always (Besides temp before) ∧
      ∃ b, t'.now temp = some (.file b) := by
  induction spills generalizing t with
  | nil => exact ⟨t, rfl, h, hfile⟩
  | cons bytes rest ih =>
    have hchange := h.change (besides_update h.now (some (.file bytes)))
    obtain ⟨t', ht', hkept, hfile'⟩ := ih hchange ⟨bytes, Function.update_self ..⟩
    exact ⟨t', ht', hkept, hfile'⟩

/-- **The temporary file is removed** where removal works. -/
theorem removeFile_post (h : t.Always (Besides temp before)) (hnew : before temp = none)
    (hfile : ∃ b, t.now temp = some (.file b)) :
    (removeFile os temp t).2.Always (Besides temp before) ∧
      (os.removeFile = none → (removeFile os temp t).2.now = before) := by
  obtain ⟨b, hb⟩ := hfile
  unfold removeFile
  rw [hb]
  cases os.removeFile with
  | some e => exact ⟨h, fun hnone => by cases hnone⟩
  | none => exact ⟨h.change (besides_update h.now none), fun _ => update_none_eq h.now hnew⟩

/-- A rename takes effect as a whole, or not at all. -/
theorem renameFile_cases {b : Bytes} (hb : t.now temp = some (.file b)) :
    (os.rename = none ∧ t.now output ≠ some .dir ∧ renameFile os temp output t =
      (.ok (), t.change (Function.update
        (Function.update t.now output (some (.file b))) temp none))) ∨
      ∃ e, renameFile os temp output t = (.error e, t) := by
  unfold renameFile
  rw [hb]
  rcases os.rename with _ | e
  · rcases hout : t.now output with _ | _ | _ | _ | _
    · exact Or.inl ⟨rfl, by simp, rfl⟩
    · exact Or.inr ⟨_, rfl⟩
    · exact Or.inl ⟨rfl, by simp, rfl⟩
    · exact Or.inl ⟨rfl, by simp, rfl⟩
    · exact Or.inl ⟨rfl, by simp, rfl⟩
  · exact Or.inr ⟨e, rfl⟩

/-! ## Runs -/

section Run

variable {D : Dependencies} {key : Bytes} {options : PackOptions}
  {files : List (String × DiskPath)}

/-- The bytes are those of the archive that the packer makes of these files. -/
def NewArchive (D : Dependencies) (os : Os) (key : Bytes) (options : PackOptions)
    (files : List (String × DiskPath)) (summary : PackSummary) (bytes : Bytes) : Prop :=
  ∃ inputs assets toc block stored, List.Forall₂ (Opens os.openFile) files inputs ∧
    Packed D ⟨key, options, os.entropy⟩ inputs assets toc block stored ∧
    summary = packSummary ⟨key, options, os.entropy⟩ assets stored ∧
    bytes = image D ⟨key, options, os.entropy⟩ assets toc stored

/-- **The closure** replaces the output by the new archive in one change, after it changed only the
temporary file. -/
theorem writeArchive_post (h : t.Always (Besides temp before)) (hnew : before temp = none)
    (hne : temp ≠ output) (hfile : ∃ b, t.now temp = some (.file b)) :
    Fallible.Post (writeArchive D os key options files temp output) t
      (fun summary t' => ∃ bytes, NewArchive D os key options files summary bytes ∧
        before output ≠ some .dir ∧ t'.now = replaced before output bytes ∧
        ∀ s ∈ t'.seen, Besides temp before s ∨ s = replaced before output bytes)
      fun _ t' => t'.Always (Besides temp before) ∧ ∃ b, t'.now temp = some (.file b) := by
  obtain ⟨t₁, hspill, hkept, hfile₁⟩ := spill_apply h hfile os.spills
  unfold writeArchive
  rw [Fallible.post_bind]
  unfold Fallible.Post
  rw [hspill]
  dsimp only
  rcases hrun : packFiles D deviceDestination os.openFile key options files
    ⟨Device.empty os.room os.seeks, os.entropy⟩ with ⟨f | summary, env⟩
  · exact ⟨hkept, hfile₁⟩
  rcases hflush : os.flush with _ | e
  swap
  · exact ⟨hkept, hfile₁⟩
  -- what was flushed is all that was written
  have hwritten := hkept.change (besides_update hkept.now (some (.file env.writer.bytes)))
  rcases hsync : os.syncAll with _ | e
  swap
  · exact ⟨hwritten, _, Function.update_self ..⟩
  obtain ⟨inputs, hinputs, hpack⟩ := packFiles_eq_ok_iff.mp hrun
  obtain ⟨assets, toc, block, stored, hpacked, hsummary, hbytes, -⟩ := packReaders_ok hpack
  have hnow : (t₁.change (Function.update t₁.now temp (some (.file env.writer.bytes)))).now temp =
      some (.file env.writer.bytes) := Function.update_self ..
  show Fallible.Post (onFiles (renameFile os temp output) >>= fun _ => pure summary)
    (t₁.change (Function.update t₁.now temp (some (.file env.writer.bytes)))) _ _
  generalize t₁.change (Function.update t₁.now temp (some (.file env.writer.bytes))) = t₂ at *
  rcases @renameFile_cases os _ output temp _ hnow with ⟨-, hdir, hrename⟩ | ⟨e, hrename⟩
  · rw [hwritten.now output hne.symm] at hdir
    unfold Fallible.Post
    rw [Fallible.bind_of_ok (onFiles_of_ok hrename), update_update_eq hwritten.now hnew hne]
    refine ⟨env.writer.bytes, ⟨inputs, assets, toc, block, stored, hinputs, hpacked, hsummary,
      hbytes⟩, hdir, rfl, fun s hs => ?_⟩
    exact (List.mem_append.mp hs).imp (hwritten.seen s) List.mem_singleton.mp
  · unfold Fallible.Post
    rw [Fallible.bind_of_error (onFiles_of_error hrename)]
    exact ⟨hwritten, _, hnow⟩

/-- **The clean-up** after an error that is returned leaves the disk as it was where removal works. -/
theorem replaceOutput_post (h : t.Always (Besides temp before)) (hnew : before temp = none)
    (hne : temp ≠ output) (hfile : ∃ b, t.now temp = some (.file b)) :
    Fallible.Post (replaceOutput D os key options files temp output) t
      (fun summary t' => ∃ bytes, NewArchive D os key options files summary bytes ∧
        before output ≠ some .dir ∧ t'.now = replaced before output bytes ∧
        ∀ s ∈ t'.seen, Besides temp before s ∨ s = replaced before output bytes)
      fun stop t' => t'.Always (Besides temp before) ∧
        ∀ e, stop = .error e → os.removeFile = none → t'.now = before := by
  have hwrite := @writeArchive_post os t before output temp D key options files h hnew hne hfile
  unfold Fallible.Post replaceOutput
  rcases hrun : writeArchive D os key options files temp output t with ⟨e | summary, t'⟩
  · obtain ⟨hkept, hfile'⟩ := hwrite.of_error hrun
    obtain ⟨hremoved, hclean⟩ := @removeFile_post os t' before temp hkept hnew hfile'
    dsimp only
    cases e.stop with
    | error e => exact ⟨hremoved, fun _ _ hremove => hclean hremove⟩
    | panic p => exact ⟨hkept, fun e he => by cases he⟩
    | unfinished => exact ⟨hkept, fun e he => by cases he⟩
  · exact hwrite.of_ok hrun

/-- **One run**, from any disk: only the temporary file differs until the archive takes the place of
the output, and an error that is returned leaves the disk as it was where removal works. -/
theorem packDir_post (sorting : UnstableSort nameKey) (turns : ℕ) (before : Disk) :
    Fallible.Post (packDir D os key options sorting turns) (Traced.start before)
      (fun summary t' => ∃ output files bytes, listFiles os turns = .ok (output, files) ∧
        NewArchive D os key options (sorting.sort files) summary bytes ∧
        before output ≠ some .dir ∧ t'.now = replaced before output bytes ∧
        ∃ temp, temp ≠ output ∧ before temp = none ∧
          ∀ s ∈ t'.seen, Besides temp before s ∨ s = replaced before output bytes)
      fun stop t' => (t' = Traced.start before ∨ ∃ output files temp,
          listFiles os turns = .ok (output, files) ∧ temp ≠ output ∧ before temp = none ∧
          t'.Always (Besides temp before)) ∧
        ∀ e, stop = .error e → os.removeFile = none → t'.now = before := by
  unfold packDir
  rw [Fallible.post_liftM_bind]
  refine ⟨fun listed hlisted => ?_, fun e _ => ⟨Or.inl rfl, fun _ _ _ => rfl⟩⟩
  obtain ⟨output, files⟩ := listed
  have hcreate := opening_post (@createTemp_post os (Traced.start before) output)
  rw [Fallible.post_bind]
  refine hcreate.mono (fun temp t₁ hnew => ?_) fun stop t₁ hfail => ?_
  swap
  · rw [hfail]
    exact ⟨Or.inl rfl, fun _ _ _ => rfl⟩
  obtain ⟨hne, hnew, rfl⟩ := hnew
  rw [Traced.now_start] at hnew
  have hkept : Traced.Always (Besides temp before) (Traced.start before) :=
    Traced.always_start fun _ _ => rfl
  have hfile : ∃ b, (Function.update before temp (some (.file []))) temp = some (.file b) :=
    ⟨[], Function.update_self ..⟩
  refine (replaceOutput_post (hkept.change (besides_update hkept.now _)) hnew hne hfile).mono ?_ ?_
  · rintro summary t' ⟨bytes, harchive, hdir, hnow, hseen⟩
    exact ⟨output, files, bytes, hlisted, harchive, hdir, hnow, temp, hne, hnew, hseen⟩
  · rintro stop t' ⟨hkept', hclean⟩
    exact ⟨Or.inr ⟨output, files, temp, hlisted, hne, hnew, hkept'⟩, hclean⟩

theorem listFiles_eq_ok {turns : ℕ} (h : listFiles os turns = .ok (output, files)) :
    ∃ root existingOutput, os.canonicalRoot = .ok root ∧ normalizedOutputPath os = .ok output ∧
      existingPath os output = .ok existingOutput ∧
      collectFiles os.readDir root output existingOutput turns = some (.ok files) := by
  unfold listFiles at h
  rcases hroot : os.canonicalRoot with e | root
  · rw [hroot] at h
    cases h
  rcases hout : normalizedOutputPath os with e | out
  · rw [hroot, hout] at h
    cases h
  rcases hex : existingPath os out with e | existing
  · rw [hroot, hout] at h
    simp only [onIo, onCli, bind, Except.bind, hex] at h
    cases h
  simp only [hroot, hout, onIo, onCli, bind, Except.bind, hex] at h
  rcases hcollect : collectFiles os.readDir root out existing turns with _ | e | collected
  · rw [hcollect] at h
    cases h
  · rw [hcollect] at h
    cases h
  · rw [hcollect] at h
    cases h
    exact ⟨root, existing, rfl, rfl, hex, hcollect⟩

end Run

/-- What was there before is not the temporary file. -/
theorem ne_temp {before : Disk} {temp p : DiskPath} (hnew : before temp = none)
    (hp : before p ≠ none) : p ≠ temp := by
  rintro rfl
  exact hp hnew

/-- **Failure safety** of a run from the disk `before`. The states that the run may be stopped in
hold what was there before, but for the output, which is the old one or the complete archive. When
an error is returned and removal works, nothing is left of the run. -/
structure FailureSafe (D : Dependencies) (os : Os) (key : Bytes) (options : PackOptions)
    (sorting : UnstableSort nameKey) (turns : ℕ) (before : Disk)
    (run : Except Stop PackSummary × Traced Disk) : Prop where
  kept : ∀ disk ∈ run.2.seen, ∀ p, before p ≠ none → normalizedOutputPath os ≠ .ok p →
    disk p = before p
  output : ∀ disk ∈ run.2.seen, ∀ output, normalizedOutputPath os = .ok output →
    disk output = before output ∨ ∃ files summary bytes, listFiles os turns = .ok (output, files) ∧
      NewArchive D os key options (sorting.sort files) summary bytes ∧
      disk output = some (.file bytes)
  cleaned : ∀ e, run.1 = .error (.error e) → os.removeFile = none → run.2.now = before
  complete : ∀ summary, run.1 = .ok summary → ∃ output files bytes,
    listFiles os turns = .ok (output, files) ∧
    NewArchive D os key options (sorting.sort files) summary bytes ∧
    run.2.now = replaced before output bytes

/-- **The output is replaced as a whole or not at all**, whatever fails and wherever the run is
stopped. -/
theorem packDir_failureSafe (D : Dependencies) (os : Os) (key : Bytes) (options : PackOptions)
    (sorting : UnstableSort nameKey) (turns : ℕ) (before : Disk) :
    FailureSafe D os key options sorting turns before
      (packDir D os key options sorting turns (Traced.start before)) := by
  have hpost := @packDir_post os D key options sorting turns before
  rcases hrun : packDir D os key options sorting turns (Traced.start before) with
    ⟨stop | summary, t⟩
  · obtain ⟨hstates, hclean⟩ := hpost.of_error hrun
    have hstate : ∀ disk ∈ t.seen, (∀ p, before p ≠ none → disk p = before p) ∧
        ∀ output, normalizedOutputPath os = .ok output → disk output = before output := by
      intro disk hdisk
      rcases hstates with rfl | ⟨output, files, temp, hlist, hne, hnew, hkept⟩
      · obtain rfl := List.mem_singleton.mp hdisk
        exact ⟨fun _ _ => rfl, fun _ _ => rfl⟩
      · refine ⟨fun p hp => hkept.seen disk hdisk p (ne_temp hnew hp), fun output' hout => ?_⟩
        obtain ⟨-, -, -, hout', -⟩ := listFiles_eq_ok hlist
        cases hout.symm.trans hout'
        exact hkept.seen disk hdisk output hne.symm
    exact ⟨fun disk hdisk p hp _ => (hstate disk hdisk).1 p hp,
      fun disk hdisk output hout => Or.inl ((hstate disk hdisk).2 output hout),
      fun e he => hclean e (by cases he; rfl), fun summary hok => by cases hok⟩
  · obtain ⟨output, files, bytes, hlist, harchive, -, hnow, temp, hne, hnew, hseen⟩ :=
      hpost.of_ok hrun
    obtain ⟨-, -, -, hout, -⟩ := listFiles_eq_ok hlist
    refine ⟨fun disk hdisk p hp hother => ?_, fun disk hdisk output' hout' => ?_,
      fun e he => (by cases he), fun s hs => ?_⟩
    · rcases hseen disk hdisk with hkept | rfl
      · exact hkept p (ne_temp hnew hp)
      · have hne' : p ≠ output := by
          rintro rfl
          exact hother hout
        exact Function.update_of_ne hne' ..
    · cases hout.symm.trans hout'
      rcases hseen disk hdisk with hkept | rfl
      · exact Or.inl (hkept output hne.symm)
      · exact Or.inr ⟨files, summary, bytes, hlist, harchive, Function.update_self ..⟩
    · cases hs
      exact ⟨output, files, bytes, hlist, harchive, hnow⟩

end RasenArchive
