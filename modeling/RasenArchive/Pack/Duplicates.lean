import RasenArchive.Pack.Adding
import RasenArchive.Reference

/-!
# Duplicates and collisions

Which calls of `add_reader` fail when nothing else does: the first whose path is refused beside the
paths before it, and all calls after that.

## Main definitions

* `addEach inputs`: one call of `add_reader` after the other, whether they fail or not
* `answers D mode added inputs`: the answers that the paths decide
* `Asset.Of chunkSize input a`: the asset `a` is that of the input

## Main results

* `addEach_failed`: after a failure every call fails, and leaves the state as it is
* `addReaders_packs`: a run of successful calls holds assets with the paths of its inputs
* `addEach_eq_answers`: the answers are those that the paths decide
* `duplicate_detection`: both, for every run of a packer from its start
-/

namespace RasenArchive

section

variable {W : Type} (D : Dependencies) (R : Destination W)

/-- The answers to one call of `add_reader` after the other on one packer, whether they fail or
not. -/
def addEach : List Input → PackState W → List (Result Unit) × PackState W
  | [], s => ([], s)
  | input :: inputs, s =>
    let r := addReader D R input.path input.reader s
    let rest := addEach inputs r.2
    (r.1 :: rest.1, rest.2)

/-- **The answers that the paths decide**, after the normal paths `added`: up to the first path that
is refused all calls succeed, and after it none does. -/
def answers (mode : PackMode) : List String → List Input → List (Result Unit)
  | _, [] => []
  | added, input :: inputs =>
    match refusal D mode added input.path with
    | some e => failWith e :: inputs.map fun _ => failWith .incompletePack
    | none => .ok () :: answers mode (added ++ (normalizePath input.path).toOption.toList) inputs

/-! ## After a failure -/

variable {D R} {s : PackState W}

/-- A packer that is marked adds nothing. -/
theorem addReader_failed (h : s.packer.failed = true) (path : String) (reader : List ReadEvent) :
    addReader D R path reader s = (failWith .incompletePack, s) := by
  have hbad : ensure (s.packer.failed = false) .incompletePack = .error (.error .incompletePack) := by
    rw [ensure_eq_error_iff, h]
    exact ⟨by simp, rfl⟩
  rw [addReader, Fallible.gets_bind_apply, id, Fallible.liftM_bind_of_error hbad]
  rfl

/-- A packer that is marked finishes nothing. -/
theorem finish_failed (h : s.packer.failed = true) :
    finish D R s = (failWith .incompletePack, s) := by
  have hbad : ensure (s.packer.failed = false) .incompletePack = .error (.error .incompletePack) := by
    rw [ensure_eq_error_iff, h]
    exact ⟨by simp, rfl⟩
  rw [finish, Fallible.gets_bind_apply, id, Fallible.liftM_bind_of_error hbad]
  rfl

/-- **After a failure** every call fails, and leaves the state as it is. -/
theorem addEach_failed (h : s.packer.failed = true) (inputs : List Input) :
    addEach D R inputs s = (inputs.map fun _ => failWith .incompletePack, s) := by
  induction inputs with
  | nil => rfl
  | cons input inputs ih =>
    rw [addEach, addReader_failed h]
    simp only [ih, List.map_cons]

/-- A call that fails leaves a mark. -/
theorem failed_of_error {path : String} {reader : List ReadEvent} {f : Fault} {s' : PackState W}
    (h : addReader D R path reader s = (.error f, s')) : s'.packer.failed = true := by
  cases hs : s.packer.failed with
  | true =>
    rw [addReader_failed hs] at h
    cases h
    exact hs
  | false =>
    rw [addReader, Fallible.gets_bind_apply, id, Fallible.liftM_bind_of_ok (ensure_of hs),
      Fallible.modify_bind_apply, marking] at h
    split at h
    · cases h
    · cases h
      rfl

/-- A failure among the answers leaves the packer marked. -/
theorem failed_of_answer {inputs : List Input} {f : Fault}
    (h : .error f ∈ (addEach D R inputs s).1) : (addEach D R inputs s).2.packer.failed = true := by
  induction inputs generalizing s with
  | nil => cases h
  | cons input inputs ih =>
    rcases hr : addReader D R input.path input.reader s with ⟨f' | u, s'⟩
    · have hmark := failed_of_error hr
      rw [addEach, hr, addEach_failed hmark]
      exact hmark
    · rw [addEach, hr] at h ⊢
      rcases List.mem_cons.mp h with h | h
      · cases h
      · exact ih h

end

/-! ## Assets and inputs -/

variable {D : Dependencies} {B : Sealing} {assets : List Asset} {s s' : PackState Device}

/-- The asset is that of the input: under its normal path, with the pieces its reader gives. -/
structure Asset.Of (chunkSize : ℕ) (input : Input) (a : Asset) : Prop where
  path : normalizePath input.path = .ok a.path
  fills : Fills chunkSize input.reader (a.blocks.map Block.content)

/-- The reader of the input does not fail, and gives these pieces. -/
def GivesPieces (chunkSize : ℕ) (input : Input) (pieces : List Bytes) : Prop :=
  Fills chunkSize input.reader pieces

/-- **A run of successful calls** holds the assets of its inputs behind those it had. -/
theorem addReaders_packs (hv : B.options.Valid) {inputs : List Input} (h : Packs D B assets s)
    (hrun : addReaders D deviceDestination inputs s = (.ok (), s')) :
    ∃ new, Packs D B (assets ++ new) s' ∧
      List.Forall₂ (Asset.Of B.options.chunkSize) inputs new := by
  induction inputs generalizing s assets with
  | nil =>
    cases hrun
    exact ⟨[], by simpa using h, .nil⟩
  | cons input inputs ih =>
    obtain ⟨_, s₁, h₁, h₂⟩ := Fallible.bind_eq_ok.mp hrun
    obtain ⟨a, hpath, -, hfills, hpacks, -⟩ :=
      (addReader_post hv h input.path input.reader).of_ok h₁
    obtain ⟨new, hnew, hall⟩ := ih hpacks h₂
    refine ⟨a :: new, ?_, .cons ⟨hpath, hfills⟩ hall⟩
    simpa using hnew

/-- **The answers are those that the paths decide**, where the readers and the file do not fail. -/
theorem addEach_eq_answers (hv : B.options.Valid) (hready : B.Ready D) {inputs : List Input}
    {pieces : List (List Bytes)} (h : Packs D B assets s) (hhealthy : s.writer.Healthy)
    (hreaders : List.Forall₂ (GivesPieces B.options.chunkSize) inputs pieces)
    (hentries : assets.length + inputs.length < 2 ^ 32)
    (hchunks : (allBlocks assets).length + (pieces.map List.length).sum < 2 ^ 32) :
    (addEach D deviceDestination inputs s).1 =
      answers D B.options.mode (assets.map Asset.path) inputs := by
  induction hreaders generalizing s assets with
  | nil => rfl
  | @cons input ps inputs pieces hfills hrest ih =>
    have hpost := addReader_post hv h input.path input.reader
    rw [List.length_cons] at hentries
    rw [List.map_cons, List.sum_cons] at hchunks
    rcases hr : addReader D deviceDestination input.path input.reader s with ⟨f | u, s₁⟩
    · obtain ⟨-, hfailed, ⟨e, href, rfl, -⟩ | ⟨-, hbad⟩⟩ := hpost.of_error hr
      · rw [addEach, hr, answers, href, addEach_failed hfailed]
        rfl
      · obtain ⟨new, rfl, hroom⟩ := hready.storable hv h.stores hfills.forall_mem (by omega)
        exact absurd ⟨hhealthy, by omega, new, hfills, hroom⟩ hbad
    · obtain ⟨a, hpath, href, hfills', hpacks, hkept⟩ := hpost.of_ok hr
      have hcount : a.blocks.length = ps.length := by
        rw [← List.length_map (f := Block.content), hfills'.unique hfills]
      have hrun := @ih (assets ++ [a]) s₁ hpacks (hkept hhealthy)
        (by rw [List.length_append, List.length_singleton]; omega)
        (by rw [allBlocks_append, List.length_append]; omega)
      rw [addEach, hr, answers, href]
      simp only [hrun, hpath, List.map_append, List.map_singleton]
      rfl

/-- Where a call after all the others is possible, they all succeeded. -/
theorem addReaders_of_not_failed {inputs : List Input}
    (h : (addEach D deviceDestination inputs s).2.packer.failed = false) :
    addReaders D deviceDestination inputs s =
      (.ok (), (addEach D deviceDestination inputs s).2) := by
  induction inputs generalizing s with
  | nil => rfl
  | cons input inputs ih =>
    rw [addReaders]
    rcases hr : addReader D deviceDestination input.path input.reader s with ⟨f | u, s₁⟩
    · rw [addEach, hr, addEach_failed (failed_of_error hr)] at h
      rw [failed_of_error hr] at h
      cases h
    · rw [addEach, hr] at h
      rw [Fallible.bind_of_ok hr, ih h, addEach, hr]

/-- The entries of the assets are under their normal paths. -/
theorem map_path_entryTable (first : ℕ) (assets : List Asset) :
    (entryTable D first assets).map TocEntry.path = assets.map Asset.path ∧
      (entryTable D first assets).map TocEntry.pathHash =
        (assets.map Asset.path).map (pathHash D) := by
  induction assets generalizing first with
  | nil => exact ⟨rfl, rfl⟩
  | cons a assets ih =>
    simp only [entryTable, List.map_cons, (ih _).1, (ih _).2]
    exact ⟨rfl, rfl⟩

/-- Valid paths with distinct normal forms are never refused in a debug archive. -/
theorem answers_debug {inputs : List Input} {normals added : List String}
    (h : List.Forall₂ (fun (input : Input) q => normalizePath input.path = .ok q) inputs normals)
    (hnodup : (added ++ normals).Nodup) :
    answers D .debug added inputs = inputs.map fun _ => .ok () := by
  induction h generalizing added with
  | nil => rfl
  | @cons input q inputs normals hq hrest ih =>
    have hnew : q ∉ added := by
      intro hmem
      exact (List.nodup_append.mp hnodup).2.2 q hmem q List.mem_cons_self rfl
    have hnone : refusal D .debug added input.path = none := by
      rw [refusal, hq]
      simp only [refusalNormal, if_neg hnew]
      exact if_neg fun hc => by cases hc.1
    rw [answers, hnone, hq, List.map_cons]
    refine congrArg _ (ih ?_)
    simpa [Except.toOption] using hnodup

/-- **Duplicate and collision detection is exact.** A fresh packer, a file and readers that do not
fail: the calls answer as the paths decide. After a failure every call fails and leaves the state,
and with it the file, as it is. So the entries of every pack that is finished have distinct normal
paths, and distinct hashes in a production archive; a debug archive takes all distinct paths. -/
theorem duplicate_detection {key : Bytes} {options : PackOptions} {d d' : Device} {p : Packer}
    (hnew : newPacker D deviceDestination key options d = (.ok p, d')) (entropy : Entropy) :
    (∀ (inputs : List Input) (pieces : List (List Bytes)), d.Healthy →
        List.Forall₂ (GivesPieces options.chunkSize) inputs pieces → inputs.length < 2 ^ 32 →
        (pieces.map List.length).sum < 2 ^ 32 → Sealing.Ready D ⟨key, options, entropy⟩ →
        (addEach D deviceDestination inputs ⟨p, d', entropy, []⟩).1 =
          answers D options.mode [] inputs) ∧
      (∀ (inputs more : List Input) (f : Fault) (s : PackState Device),
        .error f ∈ (addEach D deviceDestination inputs ⟨p, d', entropy, []⟩).1 →
        (addEach D deviceDestination inputs ⟨p, d', entropy, []⟩).2 = s →
        addEach D deviceDestination more s = (more.map fun _ => failWith .incompletePack, s) ∧
          finish D deviceDestination s = (failWith .incompletePack, s)) ∧
      (∀ (inputs : List Input) (s s' : PackState Device) (summary : PackSummary),
        (addEach D deviceDestination inputs ⟨p, d', entropy, []⟩).2 = s →
        finish D deviceDestination s = (.ok summary, s') →
        List.Forall₂ (fun input entry => normalizePath input.path = .ok entry.path) inputs
            s.packer.entries ∧
          (s.packer.entries.map TocEntry.path).Nodup ∧
          (options.mode = .production → (s.packer.entries.map TocEntry.pathHash).Nodup)) ∧
      (∀ (inputs : List Input) (normals : List String), options.mode = .debug →
        List.Forall₂ (fun input q => normalizePath input.path = .ok q) inputs normals →
        normals.Nodup → answers D options.mode [] inputs = inputs.map fun _ => .ok ()) := by
  obtain ⟨-, hv, hkept, hpacks⟩ := packs_newPacker hnew entropy []
  refine ⟨fun inputs pieces hhealthy hreaders hentries hchunks hready => ?_,
    fun inputs more f s hf hs => ?_, fun inputs s s' summary hs hfin => ?_,
    fun inputs normals hmode hnormals hnodup => ?_⟩
  · -- the answers are those of the paths, call by call
    exact addEach_eq_answers hv hready hpacks (hkept hhealthy) hreaders
      (by rw [List.length_nil]; omega) (by simpa [allBlocks] using hchunks)
  · have hfailed := failed_of_answer hf
    -- a failure marks the packer, and nothing is done from then on
    rw [hs] at hfailed
    exact ⟨addEach_failed hfailed more, finish_failed hfailed⟩
  · -- only a packer that is not marked is finished
    have hfine : s.packer.failed = false := by
      cases hfailed : s.packer.failed with
      | false => rfl
      | true =>
        rw [finish_failed hfailed] at hfin
        cases hfin
    rw [← hs] at hfine
    have hrun := addReaders_of_not_failed hfine
    rw [hs] at hrun
    obtain ⟨assets, hassets, hall⟩ := addReaders_packs hv hpacks hrun
    rw [List.nil_append] at hassets
    obtain ⟨hpaths, hhashes⟩ := @map_path_entryTable D 0 assets
    rw [hassets.entries, hpaths, hhashes]
    refine ⟨?_, hassets.paths, hassets.hashes⟩
    -- the entries have the normal paths of the inputs
    have hmap : List.Forall₂ (fun (input : Input) q => normalizePath input.path = .ok q) inputs
        ((entryTable D 0 assets).map TocEntry.path) := by
      rw [hpaths, List.forall₂_map_right_iff]
      exact hall.imp fun _ _ h => h.path
    rwa [List.forall₂_map_right_iff] at hmap
  · -- in a debug archive equal hashes are no reason to refuse
    rw [hmode]
    exact answers_debug hnormals (by simpa using hnodup)

/-- Two spellings of one path, with a reader that gives three bytes each. -/
theorem duplicate_detection_small :
    (addEach reference deviceDestination
        [⟨"a", [.data [1, 2], .interrupted, .data [3]]⟩, ⟨"./a", []⟩, ⟨"b", []⟩]
        ⟨freshPacker reference [7] .default, ⟨List.replicate 60 0, 60, none, none⟩,
          ⟨fun _ => none, 0, []⟩, []⟩).1 =
      [.ok (), failWith (.duplicatePath "a"), failWith .incompletePack] := by
  have hnew : newPacker reference deviceDestination [7] .default (Device.empty none none) =
      (.ok (freshPacker reference [7] .default), ⟨List.replicate 60 0, 60, none, none⟩) := rfl
  rw [(duplicate_detection hnew ⟨fun _ => none, 0, []⟩).1 _ [[[1, 2, 3]], [], []] ⟨rfl, rfl⟩ ?_
    (by decide) (by decide) ?_]
  · decide +kernel
  · have hfirst : Fills 65536 [.data [1, 2], .interrupted, .data [3]] [[1, 2, 3]] :=
      .more rfl (by simp) (.done rfl)
    exact .cons hfirst (.cons (.done rfl) (.cons (.done rfl) .nil))
  · exact ⟨reference_lz4Lawful, reference_aeadLawful, nofun, nofun⟩

end RasenArchive