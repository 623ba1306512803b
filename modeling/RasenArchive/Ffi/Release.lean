import RasenArchive.Archive.Kept
import RasenArchive.Ffi.Session

/-!
# Callbacks are released once

An archive that is opened through callbacks owns them. They are destroyed when opening fails and
when the archive is freed, and at no other time. In every session, the callbacks that were destroyed
and those of the archives that are still held make up the callbacks that were handed over.

## Main definitions

* `SessionCall.handsOver`: the callbacks that a call hands over
* `Tallied`: a caller who counts how often callbacks were destroyed
* `Balanced`: the books of a session

## Main results

* `ReadCall.body_stays`, `ArchiveCall.body_stays`: calls on an archive read from its source, and
  change nothing else of it
* `SessionCall.body_balanced`: a call keeps the books
* `callbacks_released_once`: the books of every session are balanced
-/

namespace RasenArchive

/-! ## Calls on an archive -/

section Stays

variable {D : Dependencies} {W : Type} {R : RandomAccessRead W} {P : W → Prop}
  {archive : Option Archive} {path : ConstBytes} {dst : MutBytes} {out scratch : Pointer} {β : Type}

theorem readBuffer_stays {read : Archive → Fallible W Fault Bytes}
    (hread : ∀ a, Fallible.Keeps P (read a)) :
    Fallible.Keeps (fun s => P s.source) (readBuffer archive out read) := by
  refine (Fallible.Keeps.liftM _).bind fun a => (Fallible.Keeps.liftM _).bind fun _ => ?_
  exact Fallible.Keeps.bind (fun s hs => hread a s.source hs) fun _ _ hs => hs

theorem readCaller_stays {x : Archive → String → Fallible (ReadState W) Fault β}
    (hx : ∀ a p, Fallible.Keeps (fun s => P s.source) (x a p)) :
    Fallible.Keeps (fun s => P s.source)
      (readCaller archive path dst fun a p => withDefaultScratch (x a p)) := by
  refine (Fallible.Keeps.liftM _).bind fun a => (Fallible.Keeps.liftM _).bind fun p => ?_
  refine (Fallible.Keeps.liftM _).bind fun _ => ?_
  exact fun s hs => hx a p ⟨s.source, dst.view s.dst, {}⟩ hs

theorem readCallerWithScratch_stays {x : Archive → String → Fallible (ReadState W) Fault β}
    (hx : ∀ a p, Fallible.Keeps (fun s => P s.source) (x a p)) :
    Fallible.Keeps (fun s => P s.source) (readCallerWithScratch archive path dst scratch x) := by
  refine (Fallible.Keeps.liftM _).bind fun a => (Fallible.Keeps.liftM _).bind fun p => ?_
  refine (Fallible.Keeps.liftM _).bind fun _ => (Fallible.Keeps.liftM _).bind fun _ => ?_
  exact fun s hs => hx a p ⟨s.source, dst.view s.dst, s.scratch⟩ hs

theorem storeRead_stays (outRead : Pointer) (n : ℕ) :
    Fallible.Keeps (fun s : FfiState W => P s.source) (storeRead outRead n) :=
  (Fallible.Keeps.liftM _).bind fun _ _ hs => hs

theorem storeOut_stays (name : String) (put : FfiMemory → FfiMemory) :
    Fallible.Keeps (fun s : CallState W => P s.source) (storeOut out name put) :=
  (Fallible.Keeps.liftM _).bind fun _ _ hs => hs

variable (h : Stays R P)

include h

/-- **The functions that read** only read from the source. -/
theorem ReadCall.body_stays (call : ReadCall) :
    Fallible.Keeps (fun s => P s.source) (call.body D R archive) := by
  cases call with
  | read path out =>
    exact (Fallible.Keeps.liftM _).bind fun p => readBuffer_stays fun a => read_stays h p
  | readById assetId out => exact readBuffer_stays fun a => readById_stays h _
  | readChunk path i out =>
    exact (Fallible.Keeps.liftM _).bind fun p => readBuffer_stays fun a => readChunk_stays h p i
  | readRange path offset len out =>
    exact (Fallible.Keeps.liftM _).bind fun p =>
      readBuffer_stays fun a => readRange_stays h p offset len
  | readRangeExact path offset len out =>
    exact (Fallible.Keeps.liftM _).bind fun p =>
      readBuffer_stays fun a => readRangeExact_stays h p offset len
  | readInto path dst => exact readCaller_stays fun a p => readIntoWithScratch_stays h p
  | readChunkInto path i dst =>
    exact readCaller_stays fun a p => readChunkIntoWithScratch_stays h p i
  | readIntoWithScratch path dst scratch =>
    exact readCallerWithScratch_stays fun a p => readIntoWithScratch_stays h p
  | readChunkIntoWithScratch path i dst scratch =>
    exact readCallerWithScratch_stays fun a p => readChunkIntoWithScratch_stays h p i
  | readRangeInto path offset dst outRead =>
    exact Fallible.Keeps.bind (readCaller_stays fun a p => readRangeWithScratch_stays h p offset)
      fun n => storeRead_stays outRead n
  | readRangeWithScratch path offset dst scratch outRead =>
    exact Fallible.Keeps.bind
      (readCallerWithScratch_stays fun a p => readRangeWithScratch_stays h p offset)
      fun n => storeRead_stays outRead n

/-- **All functions on an archive** only read from the source. -/
theorem ArchiveCall.body_stays (call : ArchiveCall) :
    Fallible.Keeps (fun s => P s.source) (call.body D R archive) := by
  cases call with
  | info out => exact (Fallible.Keeps.liftM _).bind fun _ => storeOut_stays _ _
  | entryAt index out =>
    exact (Fallible.Keeps.liftM _).bind fun _ => (Fallible.Keeps.liftM _).bind fun _ =>
      storeOut_stays _ _
  | entry path out =>
    exact (Fallible.Keeps.liftM _).bind fun _ => (Fallible.Keeps.liftM _).bind fun _ =>
      (Fallible.Keeps.liftM _).bind fun _ => storeOut_stays _ _
  | entryById assetId out =>
    exact (Fallible.Keeps.liftM _).bind fun _ => (Fallible.Keeps.liftM _).bind fun _ =>
      storeOut_stays _ _
  | contains path out =>
    exact (Fallible.Keeps.liftM _).bind fun _ => (Fallible.Keeps.liftM _).bind fun _ =>
      (Fallible.Keeps.liftM _).bind fun _ => storeOut_stays _ _
  | containsId assetId out =>
    exact (Fallible.Keeps.liftM _).bind fun _ => storeOut_stays _ _
  | verify =>
    exact (Fallible.Keeps.liftM _).bind fun a => fun s hs => verify_stays h s.source hs
  | reading call => exact fun s hs => call.body_stays h s.reading hs

end Stays

/-! ## Books -/

variable {U : Type} {D : Dependencies}

/-- The callbacks that a call hands over. -/
def SessionCall.handsOver (openers : ℕ → Opener U) : SessionCall → Option ℕ
  | .openArchive i _ _ _ =>
    match openers i with
    | .callbacks _ => some i
    | _ => none
  | _ => none

/-- The counts after one more of this number, if there is one. -/
def counted (owner : Option ℕ) (counts : ℕ → ℕ) (i : ℕ) : ℕ :=
  counts i + if owner = some i then 1 else 0

@[simp] theorem counted_none (counts : ℕ → ℕ) : counted none counts = counts := by
  funext i
  simp [counted]

/-- A caller who counts how often the callbacks of each number were destroyed. Reads and files leave
the counts alone. -/
structure Tallied (sys : FfiSystem U) (openers : ℕ → Opener U) (tally : U → ℕ → ℕ) : Prop where
  openFile : ∀ path u, tally (sys.openFile path u).2 = tally u
  file : ∀ path u file u', sys.openFile path u = (.ok file, u') →
    (∀ u, tally (file.len u).2 = tally u) ∧
      ∀ u offset dst, tally (file.readAt u offset dst).2.2 = tally u
  read : ∀ i source f, openers i = .callbacks source → source.readAt = some f →
    ∀ u offset dst, tally (f u offset dst).2.2 = tally u
  destroy : ∀ i source, openers i = .callbacks source →
    ∃ destroy, source.destroy = some destroy ∧ ∀ u, tally (destroy u) = counted (some i) (tally u)

/-- The source owns the callbacks of this number, if there is one: they are destroyed with it. -/
structure Owns (tally : U → ℕ → ℕ) (source : ArchiveSource U) (owner : Option ℕ) : Prop where
  reads : ∀ counts, Stays source.access fun u => tally u = counts
  drop : ∀ u, tally (source.drop u) = counted owner (tally u)

/-- **The books of a session**: what was destroyed and what the archives own make up what was handed
over. -/
def Balanced (tally : U → ℕ → ℕ) (handedOver : ℕ → ℕ) (s : Session U) : Prop :=
  ∃ owners : List (Option (Option ℕ)),
    List.Forall₂ (Option.Rel fun handle owner => Owns tally handle.source owner) s.archives owners ∧
      ∀ i, tally s.user i + owners.count (some (some i)) = handedOver i

section Steps

variable {sys : FfiSystem U} {openers : ℕ → Opener U} {tally : U → ℕ → ℕ} {handedOver : ℕ → ℕ}
  {owner : Option ℕ} {source : ArchiveSource U} {s : Session U} {memory : FfiMemory}

theorem Balanced.congr {s' : Session U} (h : Balanced tally handedOver s)
    (harchives : s'.archives = s.archives) (htally : tally s'.user = tally s.user) :
    Balanced tally handedOver s' := by
  obtain ⟨owners, hrel, hbooks⟩ := h
  exact ⟨owners, harchives ▸ hrel, htally ▸ hbooks⟩

/-! ### Owners -/

theorem owns_memory (bytes : Bytes) : Owns tally (.memory bytes) none :=
  ⟨fun _ => ⟨fun _ hu => hu, fun _ _ _ hu => hu⟩, fun _ => (counted_none _).symm⟩

theorem owns_file {file : StdFile U} (hlen : ∀ u, tally (file.len u).2 = tally u)
    (hread : ∀ u offset dst, tally (file.readAt u offset dst).2.2 = tally u) :
    Owns tally (.file file) none := by
  refine ⟨fun counts => ⟨fun u hu => (hlen u).trans hu, fun u offset dst hu => ?_⟩,
    fun _ => (counted_none _).symm⟩
  obtain ⟨turns, h⟩ := file.readExactAt_eq u offset dst
  exact keeps_of_fileReadExactAt file.toPositionedFile
    (fun u offset dst hu => (hread u offset dst).trans hu) hu h

theorem owns_callbacks {i : ℕ} {source : RasenSource U}
    (hread : ∀ f, source.readAt = some f → ∀ u offset dst,
      tally (f u offset dst).2.2 = tally u)
    (hdestroy : ∃ destroy, source.destroy = some destroy ∧
      ∀ u, tally (destroy u) = counted (some i) (tally u)) :
    Owns tally (.callback source) (some i) := by
  obtain ⟨destroy, hsome, hcount⟩ := hdestroy
  refine ⟨fun counts => ⟨fun u hu => hu, fun u offset dst hu => ?_⟩, fun u => ?_⟩
  · show tally (source.toCallbackSource.readExactAt offset dst u).2.2 = counts
    unfold CallbackSource.readExactAt
    cases hf : source.readAt with
    | none => exact hu
    | some f => exact (hread f hf u offset dst).trans hu
  · show tally (source.destroy.getD id u) = _
    rw [hsome]
    exact hcount u

/-! ### Opening -/

/-- The session holds one more archive, which owns what it was opened from. -/
def Opened (tally : U → ℕ → ℕ) (owner : Option ℕ) (s : Session U) (s' : SessionState U) : Prop :=
  tally s'.1.user = tally s.user ∧ ∃ handle : RasenHandle U, Owns tally handle.source owner ∧
    s'.1.archives = s.archives ++ [some handle]

/-- The session holds the same archives, and what should have been opened was destroyed. -/
def Unopened (tally : U → ℕ → ℕ) (owner : Option ℕ) (s : Session U) (s' : SessionState U) : Prop :=
  tally s'.1.user = counted owner (tally s.user) ∧ s'.1.archives = s.archives

theorem Opened.balanced {s' : SessionState U} (h : Opened tally owner s s')
    (hs : Balanced tally handedOver s) : Balanced tally (counted owner handedOver) s'.1 := by
  obtain ⟨hcount, handle, howns, harchives⟩ := h
  obtain ⟨owners, hrel, hbooks⟩ := hs
  -- the new archive comes last, and so does its owner
  refine ⟨owners ++ [some owner], ?_, fun i => ?_⟩
  · rw [harchives]
    exact List.rel_append hrel (.cons (.some howns) .nil)
  · rw [hcount, counted, ← hbooks i, List.count_append, List.count_singleton]
    simp only [beq_iff_eq, Option.some.injEq]
    omega

theorem Unopened.balanced {s' : SessionState U} (h : Unopened tally owner s s')
    (hs : Balanced tally handedOver s) : Balanced tally (counted owner handedOver) s'.1 := by
  obtain ⟨hcount, harchives⟩ := h
  obtain ⟨owners, hrel, hbooks⟩ := hs
  refine ⟨owners, harchives ▸ hrel, fun i => ?_⟩
  rw [hcount, counted, counted, ← hbooks i]
  omega

theorem openInto_post (h : Owns tally source owner) (key : Bytes)
    (limits : Option RasenArchiveLimits) :
    Fallible.Post (openInto D source key limits) (s, memory) (fun _ => Opened tally owner s)
      (fun _ => Unopened tally none s) := by
  unfold openInto
  have hkept := openWithLimits_stays (D := D) (h.reads (tally s.user)) key (ffiLimits limits)
    s.user rfl
  rw [Fallible.post_bind, Fallible.post_focus, Fallible.post_mapError, Fallible.post_iff]
  refine ⟨fun a u hrun => ?_, fun e u hrun => ?_⟩
  · rw [hrun] at hkept
    exact ⟨hkept, ⟨a, source⟩, h, rfl⟩
  · rw [hrun] at hkept
    exact ⟨hkept.trans (counted_none _).symm, rfl⟩

/-- **A run that owns its source** destroys it when it fails. -/
theorem owning_post {x : Fallible (SessionState U) FfiFault Unit}
    (hdrop : ∀ u, tally (source.drop u) = counted owner (tally u))
    (h : Fallible.Post x (s, memory) (fun _ => Opened tally owner s)
      (fun _ => Unopened tally none s)) :
    Fallible.Post (owning source x) (s, memory) (fun _ => Opened tally owner s)
      (fun _ => Unopened tally owner s) := by
  unfold Fallible.Post owning
  rcases hx : x (s, memory) with ⟨e | a, s'⟩
  · obtain ⟨hcount, harchives⟩ := h.of_error hx
    rw [counted_none] at hcount
    exact ⟨(hdrop _).trans (by rw [hcount]), harchives⟩
  · exact h.of_ok hx

/-- **Opening** hands the callbacks over to the session, or destroys them. -/
theorem Opener.body_post (htally : Tallied sys openers tally) (i : ℕ) (key : ConstBytes)
    (limits : Option RasenArchiveLimits) (out : Pointer) :
    Fallible.Post ((openers i).body D sys key limits out) (s, memory)
      (fun _ => Opened tally ((SessionCall.openArchive i key limits out).handsOver openers) s)
      fun _ => Unopened tally ((SessionCall.openArchive i key limits out).handsOver openers) s := by
  -- a call that is refused before it owns anything destroys nothing
  have hrefused : Unopened tally none s (s, memory) := ⟨(counted_none _).symm, rfl⟩
  cases ho : openers i with
  | memory data =>
    simp only [SessionCall.handsOver, ho, Opener.body, rasenArchiveOpenMemory]
    refine (Fallible.post_liftM_bind _).mpr ⟨fun _ _ => ?_, fun _ _ => hrefused⟩
    refine (Fallible.post_liftM_bind _).mpr ⟨fun bytes _ => ?_, fun _ _ => hrefused⟩
    refine (Fallible.post_liftM_bind _).mpr ⟨fun _ _ => ?_, fun _ _ => hrefused⟩
    exact owning_post (owns_memory bytes).drop (openInto_post (owns_memory bytes) _ _)
  | file path =>
    simp only [SessionCall.handsOver, ho, Opener.body, rasenArchiveOpenFile]
    refine (Fallible.post_liftM_bind _).mpr ⟨fun _ _ => ?_, fun _ _ => hrefused⟩
    refine (Fallible.post_liftM_bind _).mpr ⟨fun p _ => ?_, fun _ _ => hrefused⟩
    refine (Fallible.post_liftM_bind _).mpr ⟨fun _ _ => ?_, fun _ _ => hrefused⟩
    -- opening the file tallies nothing
    have hcount := htally.openFile p s.user
    rcases hopen : sys.openFile p s.user with ⟨e | file, u⟩ <;> rw [hopen] at hcount
    · have hrun : openFile sys p (s, memory) =
          (.error (.failure (.ofError (.io e))), ({ s with user := u }, memory)) := by
        rw [openFile, hopen]
      -- there is no file to own
      rw [Fallible.Post, Fallible.bind_of_error hrun]
      exact ⟨hcount.trans (counted_none _).symm, rfl⟩
    · have hrun : openFile sys p (s, memory) = (.ok file, ({ s with user := u }, memory)) := by
        rw [openFile, hopen]
      have howns : Owns tally (.file file) none :=
        owns_file (htally.file p s.user file u hopen).1 (htally.file p s.user file u hopen).2
      rw [Fallible.Post, Fallible.bind_of_ok hrun]
      -- the file is owned from here on, and carries no callbacks
      refine (owning_post howns.drop (openInto_post howns _ _)).mono ?_ ?_
      · rintro _ s' ⟨hs', hhandle⟩
        exact ⟨hs'.trans hcount, hhandle⟩
      · rintro _ s' ⟨hs', harchives⟩
        exact ⟨by rw [hs', counted_none, counted_none, ← hcount], harchives⟩
  | callbacks source =>
    simp only [SessionCall.handsOver, ho, Opener.body, rasenArchiveOpenSource]
    have howns := owns_callbacks (fun f => htally.read i source f ho) (htally.destroy i source ho)
    -- the callbacks are owned before the pointers are checked
    refine owning_post howns.drop ?_
    refine (Fallible.post_liftM_bind _).mpr ⟨fun _ _ => ?_, fun _ _ => hrefused⟩
    refine (Fallible.post_liftM_bind _).mpr ⟨fun _ _ => ?_, fun _ _ => hrefused⟩
    exact openInto_post howns _ _

/-! ### Every call -/

theorem count_set_none {owners : List (Option (Option ℕ))} {n : ℕ}
    (h : owners[n]? = some (some owner)) (i : ℕ) :
    (owners.set n none).count (some (some i)) + (if owner = some i then 1 else 0) =
      owners.count (some (some i)) := by
  induction owners generalizing n with
  | nil => cases h
  | cons first owners ih =>
    cases n with
    | zero =>
      obtain rfl : first = some owner := Option.some.inj h
      simp [List.count_cons]
    | succ n =>
      have hrest := ih (n := n) h
      simp only [List.set_cons_succ, List.count_cons]
      omega

/-- An archive that is held has an owner in the books. -/
theorem exists_owner {archives : List (Option (RasenHandle U))}
    {owners : List (Option (Option ℕ))}
    (hrel : List.Forall₂ (Option.Rel fun handle owner => Owns tally handle.source owner) archives
      owners) {n : ℕ} {handle : RasenHandle U} (hhandle : archives[n]?.join = some handle) :
    ∃ owner, owners[n]? = some (some owner) ∧ Owns tally handle.source owner := by
  have hn := rel_join_getElem? hrel n
  rw [hhandle] at hn
  rcases howner : owners[n]?.join with _ | owner <;> rw [howner] at hn
  · cases hn
  · cases hn with
    | some howns => exact ⟨owner, Option.join_eq_some_iff.mp howner, howns⟩

/-- **Freeing** an archive destroys what it owns. -/
theorem Balanced.free (h : Balanced tally handedOver s) {n : ℕ} {handle : RasenHandle U}
    (hhandle : s.handle (some n) = some handle) :
    Balanced tally handedOver
      { s with user := handle.source.drop s.user, archives := s.archives.set n none } := by
  obtain ⟨owners, hrel, hbooks⟩ := h
  obtain ⟨owner, howner, howns⟩ := exists_owner hrel hhandle
  refine ⟨owners.set n none, forall₂_set hrel n .none, fun i => ?_⟩
  -- the handle leaves the list
  -- the owner leaves the books, and is counted as destroyed
  have hcount := count_set_none howner i
  rw [howns.drop, counted, ← hbooks i]
  omega

/-- **A call on an archive** destroys nothing. -/
theorem Balanced.onHandle (h : Balanced tally handedOver s) (archive : Option ℕ) (scratch : ℕ)
    (call : ArchiveCall) :
    Balanced tally handedOver (onHandle scratch (call.body D (accessOf (s.handle archive))
      ((s.handle archive).map RasenHandle.inner)) (s, memory)).2.1 := by
  have hreads : Stays (accessOf (s.handle archive)) fun u => tally u = tally s.user := by
    cases archive with
    | none => exact (owns_memory []).reads _
    | some n =>
      rcases hhandle : s.handle (some n) with _ | handle
      · exact (owns_memory []).reads _
      · obtain ⟨owners, hrel, -⟩ := h
        obtain ⟨owner, -, howns⟩ := exists_owner hrel hhandle
        exact howns.reads _
  have hkept : Fallible.Keeps (fun t => tally t.source = tally s.user)
      (call.body D (accessOf (s.handle archive)) ((s.handle archive).map RasenHandle.inner)) :=
    call.body_stays hreads
  apply h.congr
  · rfl
  · exact hkept ⟨s.user, memory, s.scratch scratch⟩ rfl

/-- **Every call** keeps the books: what it hands over is from then on owned or destroyed. -/
theorem SessionCall.body_balanced (htally : Tallied sys openers tally) (call : SessionCall)
    (memory : FfiMemory) (h : Balanced tally handedOver s) :
    Balanced tally (counted (call.handsOver openers) handedOver)
      (call.body D sys openers (s, memory)).2.1 := by
  -- only opening and freeing change the archives
  -- the other functions neither open nor free an archive
  have hothers : ∀ {x : Fallible (SessionState U) FfiFault Unit},
      Fallible.Keeps (fun s' => s'.1.archives = s.archives ∧ s'.1.user = s.user) x →
      Balanced tally (counted none handedOver) (x (s, memory)).2.1 := by
    intro x hx
    rw [counted_none]
    have hkept := hx (s, memory) ⟨rfl, rfl⟩
    exact h.congr hkept.1 (by rw [hkept.2])
  cases call with
  | openArchive i key limits out =>
    have hopen : Fallible.Post ((openers i).body D sys key limits out) (s, memory) _ _ :=
      Opener.body_post htally i key limits out
    -- a failed opening destroyed what it owned
    rcases hrun : (openers i).body D sys key limits out (s, memory) with ⟨e | a, s'⟩
    · have hbalanced := (hopen.of_error hrun).balanced h
      rwa [show (SessionCall.openArchive i key limits out).body D sys openers (s, memory) = _
        from hrun]
    · -- a successful one holds it
      have hbalanced := (hopen.of_ok hrun).balanced h
      rwa [show (SessionCall.openArchive i key limits out).body D sys openers (s, memory) = _
        from hrun]
  | freeArchive archive =>
    cases archive with
    | none => exact hothers (Fallible.Keeps.pure ())
    | some n =>
      rw [show SessionCall.handsOver openers (.freeArchive (some n)) = none from rfl, counted_none]
      rcases hhandle : s.handle (some n) with _ | handle
      · -- there is no such handle, and nothing happens
        have hrun : (SessionCall.freeArchive (some n)).body D sys openers (s, memory) =
            (.ok (), (s, memory)) := by
          show rasenArchiveFree ((s.handle (some n)).map fun handle => (n, handle)) (s, memory) = _
          rw [hhandle]
          rfl
        rw [hrun]
        exact h
      · have hrun : (SessionCall.freeArchive (some n)).body D sys openers (s, memory) =
            (.ok (), ({ s with
              user := handle.source.drop s.user
              archives := s.archives.set n none }, memory)) := by
          show rasenArchiveFree ((s.handle (some n)).map fun handle => (n, handle)) (s, memory) = _
          rw [hhandle]
          rfl
        rw [hrun]
        -- the handle is live, and is dropped with its source
        exact h.free hhandle
  | scratchNew out =>
    apply hothers
    apply Fallible.Keeps.gets_bind
    intro s'
    exact Fallible.Keeps.bind (fun _ hs => hs) fun _ =>
      (Fallible.Keeps.liftM _).bind fun _ _ hs => hs
  | scratchFree scratch =>
    apply hothers
    cases scratch with
    | none => exact Fallible.Keeps.pure ()
    | some n => exact fun _ hs => hs
  | hashPath path out =>
    apply hothers
    exact (Fallible.Keeps.liftM _).bind fun _ => (Fallible.Keeps.liftM _).bind fun _ =>
      (Fallible.Keeps.liftM _).bind fun _ _ hs => hs
  | normalizePath path out =>
    apply hothers
    exact (Fallible.Keeps.liftM _).bind fun _ => (Fallible.Keeps.liftM _).bind fun _ =>
      (Fallible.Keeps.liftM _).bind fun _ _ hs => hs
  | onArchive archive scratch call =>
    rw [show SessionCall.handsOver openers (.onArchive archive scratch call) = none from rfl,
      counted_none]
    exact h.onHandle archive scratch call

end Steps

/-! ## Runs -/

/-- The session after these calls. -/
def runCalls (D : Dependencies) (sys : FfiSystem U) (openers : ℕ → Opener U) :
    List (SessionCall × FfiMemory) → SessionThread U → SessionThread U
  | [], t => t
  | call :: calls, t => runCalls D sys openers calls (clientStep D sys openers call.1 call.2 t).2

/-- How often these calls hand over the callbacks of a number. -/
def handedOverBy (openers : ℕ → Opener U) (calls : List (SessionCall × FfiMemory)) (i : ℕ) : ℕ :=
  calls.countP fun call => call.1.handsOver openers = some i

section Runs

variable {sys : FfiSystem U} {openers : ℕ → Opener U} {tally : U → ℕ → ℕ} {handedOver : ℕ → ℕ}
  {s : Session U}

theorem runCalls_balanced (htally : Tallied sys openers tally)
    (calls : List (SessionCall × FfiMemory)) {t : SessionThread U}
    (h : Balanced tally handedOver t.session) :
    Balanced tally (fun i => handedOver i + handedOverBy openers calls i)
      (runCalls D sys openers calls t).session := by
  induction calls generalizing t handedOver with
  | nil => exact h
  | cons call calls ih =>
    have hstep : Balanced tally (counted (call.1.handsOver openers) handedOver)
        (clientStep D sys openers call.1 call.2 t).2.session := by
      simp only [clientStep, ffiCall_state]
      exact call.1.body_balanced htally call.2 h
    have hrest := ih hstep
    have hcounts : ∀ i, counted (call.1.handsOver openers) handedOver i +
        handedOverBy openers calls i = handedOver i + handedOverBy openers (call :: calls) i := by
      intro i
      simp only [counted, handedOverBy, List.countP_cons, decide_eq_true_eq]
      omega
    simp only [hcounts] at hrest
    exact hrest

theorem Balanced.le (h : Balanced tally handedOver s) (i : ℕ) : tally s.user i ≤ handedOver i := by
  obtain ⟨owners, -, hbooks⟩ := h
  rw [← hbooks i]
  exact Nat.le_add_right _ _

/-- Nothing is left in the books when all archives were freed. -/
theorem Balanced.eq_of_freed (h : Balanced tally handedOver s)
    (hfreed : ∀ archive ∈ s.archives, archive.isNone) (i : ℕ) :
    tally s.user i = handedOver i := by
  obtain ⟨owners, hrel, hbooks⟩ := h
  have hnone : some (some i) ∉ owners := by
    intro hmem
    obtain ⟨n, hn⟩ := List.mem_iff_getElem?.mp hmem
    have hown := rel_join_getElem? hrel n
    rw [hn] at hown
    rcases harchive : s.archives[n]? with _ | _ | handle <;> rw [harchive] at hown
    · cases hown
    · cases hown
    · exact absurd (hfreed _ (List.mem_of_getElem? harchive)) (by simp)
  rw [← hbooks i, List.count_eq_zero_of_not_mem hnone, Nat.add_zero]

end Runs

/-- **Callbacks are released once.** A client opens archives from memory, from files or through
callbacks, uses and frees them, in any calls in any order, whether they succeed or not. At any time,
the callbacks that were destroyed and those that archives still own make up the callbacks that were
handed over. So none are destroyed more often than they were handed over, and when all archives are
freed, they were destroyed as often. -/
theorem callbacks_released_once (D : Dependencies) {sys : FfiSystem U} {openers : ℕ → Opener U}
    {tally : U → ℕ → ℕ} (htally : Tallied sys openers tally) {user : U}
    (huser : ∀ i, tally user i = 0) (calls : List (SessionCall × FfiMemory)) :
    Balanced tally (handedOverBy openers calls)
        (runCalls D sys openers calls (newSession user)).session ∧
      ∀ i, tally (runCalls D sys openers calls (newSession user)).session.user i ≤
          handedOverBy openers calls i ∧
        ((∀ archive ∈ (runCalls D sys openers calls (newSession user)).session.archives,
            archive.isNone) →
          tally (runCalls D sys openers calls (newSession user)).session.user i =
            handedOverBy openers calls i) := by
  have hstart : Balanced tally (fun _ => 0) (newSession user).session :=
    ⟨[], .nil, fun i => huser i⟩
  have hrun := runCalls_balanced (D := D) htally calls hstart
  simp only [Nat.zero_add] at hrun
  exact ⟨hrun, fun i => ⟨hrun.le i, fun hfreed => hrun.eq_of_freed hfreed i⟩⟩

/-- The counting callbacks have the number 0. -/
def countingOpeners : ℕ → Opener (ℕ × ℕ)
  | 0 => .callbacks countingSource
  | _ => .memory (.data [])

/-- How often the counting callbacks were destroyed. -/
def countingTally (u : ℕ × ℕ) (i : ℕ) : ℕ := if i = 0 then u.2 else 0

/-- A client opens an archive, reads its asset and frees it; then it fails to open it once more. -/
def releasingCalls : List (SessionCall × FfiMemory) :=
  [(.openArchive 0 (.data smallKey) none .valid, {}),
    (.onArchive (some 0) 0 (.reading (.read (.data (asBytes "a")) .valid)), {}),
    (.freeArchive (some 0), {}), (.openArchive 0 (.data []) none .valid, {})]

/-- The counting callbacks are destroyed once for each of the two calls that hand them over. -/
theorem callbacks_released_once_small :
    (runCalls reference (noFiles (ℕ × ℕ)) countingOpeners releasingCalls
      (newSession (0, 0))).session.user.2 = 2 := by
  have htally : Tallied (noFiles (ℕ × ℕ)) countingOpeners countingTally := by
    refine ⟨fun _ _ => rfl, fun _ _ _ _ h => ?_, fun i source f hi hf u offset dst => ?_,
      fun i source hi => ?_⟩
    · cases h
    · obtain _ | i := i
      · cases hi
        cases hf
        dsimp only
        split_ifs <;> rfl
      · cases hi
    · obtain _ | i := i
      · cases hi
        refine ⟨_, rfl, fun u => ?_⟩
        funext i
        simp only [countingTally, counted, Option.some.injEq]
        split_ifs <;> omega
      · cases hi
  have hzero : ∀ i, countingTally (0, 0) i = 0 := fun i => ite_self 0
  have hfreed := ((callbacks_released_once reference htally hzero releasingCalls).2 0).2
    (by decide +kernel)
  exact hfreed.trans (by decide +kernel)

end RasenArchive
