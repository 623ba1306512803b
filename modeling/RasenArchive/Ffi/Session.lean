import RasenArchive.Ffi.SameBytes

/-!
# Sessions of the C interface

A client of the C interface opens archives from memory, from files or through callbacks, uses and
frees them, and chooses every call from what it has seen of the calls before. What it sees does not
depend on where the bytes come from: files with short reads and interrupts, and callbacks with a
state, serve a session as bytes in memory do, which have no state at all.

## Main definitions

* `SessionCall`: the calls of a client, with `SessionCall.body`
* `Client`, `runClient`: a client, and what it sees
* `Opener.Offers`: what is opened gives some bytes
* `SessionsAlike`: two sessions that hold the same archives

## Main results

* `SessionCall.body_abreast`: a call ends alike in both sessions
* `session_transparency`: a client sees the same whatever its archives are opened from
-/

namespace RasenArchive

variable {U : Type} (D : Dependencies)

/-! ## Calls of a client -/

/-- What an archive is opened from. -/
inductive Opener (U : Type) where
  | memory (data : ConstBytes)
  | file (path : ConstBytes)
  | callbacks (source : RasenSource U)

/-- The function that opens an archive from it. -/
def Opener.body (sys : FfiSystem U) (key : ConstBytes) (limits : Option RasenArchiveLimits)
    (out : Pointer) : Opener U → Fallible (SessionState U) FfiFault Unit
  | .memory data => rasenArchiveOpenMemory D key limits out data
  | .file path => rasenArchiveOpenFile D key limits out sys path
  | .callbacks source => rasenArchiveOpenSource D key limits out source

/-- A call of a client. Archives and scratch spaces are named by the numbers that the client was
given, and what is opened by a number of its own. -/
inductive SessionCall where
  | openArchive (i : ℕ) (key : ConstBytes) (limits : Option RasenArchiveLimits) (out : Pointer)
  | freeArchive (archive : Option ℕ)
  | scratchNew (out : Pointer)
  | scratchFree (scratch : Option ℕ)
  | hashPath (path : ConstBytes) (out : Pointer)
  | normalizePath (path : ConstBytes) (out : Pointer)
  | onArchive (archive : Option ℕ) (scratch : ℕ) (call : ArchiveCall)

/-- The archive that a pointer points to. Calls with a pointer to what was freed are undefined, and
are calls with a null pointer here. -/
def Session.handle (s : Session U) (archive : Option ℕ) : Option (RasenHandle U) :=
  archive.bind fun n => s.archives[n]?.join

/-- The scratch space of this number. -/
def Session.scratch (s : Session U) (n : ℕ) : ArchiveScratch := s.scratches[n]?.join.getD {}

/-- A call on an archive of the session. -/
def onHandle (scratch : ℕ) (x : Fallible (CallState U) FfiFault Unit) :
    Fallible (SessionState U) FfiFault Unit :=
  Fallible.focus (fun s => ⟨s.1.user, s.2, s.1.scratch scratch⟩)
    (fun t s => ({ s.1 with
      user := t.source
      scratches := s.1.scratches.modify scratch (Option.map fun _ => t.scratch) }, t.memory)) x

/-- What the open archive reads from. A null pointer reads from nothing. -/
def accessOf (handle : Option (RasenHandle U)) : RandomAccessRead U :=
  ((handle.map RasenHandle.source).getD (.memory [])).access

/-- The body of the function that is called. Those that free return no status; they do not fail, and
count as calls with the status `ok`. -/
def SessionCall.body (sys : FfiSystem U) (openers : ℕ → Opener U) :
    SessionCall → Fallible (SessionState U) FfiFault Unit
  | .openArchive i key limits out => (openers i).body D sys key limits out
  | .freeArchive archive => do
    let s ← Fallible.gets fun s => s.1
    rasenArchiveFree (archive.bind fun n => (s.handle (some n)).map fun handle => (n, handle))
  | .scratchNew out => rasenScratchNew out
  | .scratchFree scratch => rasenScratchFree scratch
  | .hashPath path out => rasenHashPath D out path
  | .normalizePath path out => rasenNormalizePath out path
  | .onArchive archive scratch call => do
    let s ← Fallible.gets fun s => s.1
    onHandle scratch
      (call.body D (accessOf (s.handle archive)) ((s.handle archive).map RasenHandle.inner))

/-! ## Clients -/

/-- What a client sees of a call: the status, the last error, and after a success its memory. -/
structure Seen where
  status : RasenStatus
  lastError : String
  memory : Option FfiMemory
  deriving DecidableEq

/-- A client: the next call and the memory for it, by what it has seen so far. -/
abbrev Client : Type := List Seen → SessionCall × FfiMemory

/-- A session with the text of the last error of the thread. -/
structure SessionThread (U : Type) where
  session : Session U
  lastError : String

/-- One call of a client. -/
def clientStep (sys : FfiSystem U) (openers : ℕ → Opener U) (call : SessionCall)
    (memory : FfiMemory) (t : SessionThread U) : Seen × SessionThread U :=
  let result := ffiCall (call.body D sys openers) ⟨(t.session, memory), t.lastError⟩
  (⟨result.1, result.2.lastError, if result.1 = .ok then some result.2.state.2 else none⟩,
    ⟨result.2.state.1, result.2.lastError⟩)

/-- What a client sees in so many calls, behind what it has seen before. -/
def runClient (sys : FfiSystem U) (openers : ℕ → Opener U) (client : Client) :
    ℕ → List Seen → SessionThread U → List Seen
  | 0, seen, _ => seen
  | turns + 1, seen, t =>
    let step := clientStep D sys openers (client seen).1 (client seen).2 t
    runClient sys openers client turns (seen ++ [step.1]) step.2

/-- The thread of a client that has called nothing yet. -/
def newSession (user : U) : SessionThread U := ⟨⟨user, [], []⟩, ""⟩

/-! ## What is opened -/

/-- In the states of `P`, the opener gives the bytes `c`. -/
def Opener.Offers (sys : FfiSystem U) (P : U → Prop) (c : Bytes) : Opener U → Prop
  | .memory data => data.Holds c
  | .file path => ∃ p file, path.Holds (asBytes p) ∧ file.Holds P c ∧
    ∀ u, P u → ∃ u', sys.openFile p u = (.ok file, u') ∧ P u'
  | .callbacks source => source.Gives P c ∧ ∀ destroy ∈ source.destroy, ∀ u, P u → P (destroy u)

/-- Two handles of one archive, from sources that present the same bytes. -/
structure HandlesAlike (P : U → Prop) (h : RasenHandle U) (k : RasenHandle Unit) : Prop where
  inner : h.inner = k.inner
  wellFormed : WellFormed D h.inner
  bytes : ∃ c, HoldsBlocks h.inner c ∧ Presents h.source.access P c ∧
    Presents k.source.access (fun _ => True) c
  drop : ∀ u, P u → P (h.source.drop u)

/-- Two sessions that hold the same archives under the same numbers, and as many scratch spaces. -/
structure SessionsAlike (P : U → Prop) (s : Session U) (t : Session Unit) : Prop where
  user : P s.user
  archives : List.Forall₂ (Option.Rel (HandlesAlike D P)) s.archives t.archives
  scratches : s.scratches.length = t.scratches.length

variable {D} {P : U → Prop} {c : Bytes} {s : Session U} {t : Session Unit} {memory : FfiMemory}

/-- Two sessions in which a call has succeeded. -/
def CallDone (D : Dependencies) (P : U → Prop) (s : SessionState U) (t : SessionState Unit) :
    Prop :=
  SessionsAlike D P s.1 t.1 ∧ s.2 = t.2

/-- Two sessions in which a call has failed. -/
def CallFailed (D : Dependencies) (P : U → Prop) (s : SessionState U) (t : SessionState Unit) :
    Prop :=
  SessionsAlike D P s.1 t.1

theorem rel_join_getElem? {α β : Type} {R : α → β → Prop} {l : List (Option α)}
    {m : List (Option β)} (h : List.Forall₂ (Option.Rel R) l m) (n : ℕ) :
    Option.Rel R l[n]?.join m[n]?.join := by
  induction h generalizing n with
  | nil => exact .none
  | cons hab _ ih =>
    cases n with
    | zero => exact hab
    | succ n => exact ih n

theorem forall₂_set {α β : Type} {R : α → β → Prop} {l : List α} {m : List β}
    (h : List.Forall₂ R l m) (n : ℕ) {a : α} {b : β} (hab : R a b) :
    List.Forall₂ R (l.set n a) (m.set n b) := by
  induction h generalizing n with
  | nil => exact .nil
  | cons hcd htail ih =>
    cases n with
    | zero => exact .cons hab htail
    | succ n => exact .cons hcd (ih n)

theorem SessionsAlike.handle (h : SessionsAlike D P s t) (archive : Option ℕ) :
    Option.Rel (HandlesAlike D P) (s.handle archive) (t.handle archive) := by
  cases archive with
  | none => exact .none
  | some n => exact rel_join_getElem? h.archives n

theorem SessionsAlike.withUser (h : SessionsAlike D P s t) {u : U} {v : Unit} (hu : P u) :
    SessionsAlike D P { s with user := u } { t with user := v } :=
  ⟨hu, h.archives, h.scratches⟩

section Opening

variable {source : ArchiveSource U} (hlen : headerSize ≤ c.length) (hlt : c.length < 2 ^ 64)

include hlen hlt

/-- **Opening** from a source of some bytes, and from the bytes in memory. -/
theorem openInto_abreast (hsource : Presents source.access P c)
    (hdrop : ∀ u, P u → P (source.drop u)) {key : Bytes} {limits : Option RasenArchiveLimits}
    (h : SessionsAlike D P s t) :
    Fallible.Abreast (openInto D source key limits) (s, memory) (openInto D (.memory c) key limits)
      (t, memory) (fun _ s' _ t' => CallDone D P s' t') (CallFailed D P) := by
  have hmemory : Presents (ArchiveSource.memory c).access (fun _ : Unit => True) c :=
    memory_presents hlt
  unfold openInto
  have hopen : Fallible.Abreast (openWithLimits D source.access key (ffiLimits limits)) s.user
      (openWithLimits D (ArchiveSource.memory c).access key (ffiLimits limits)) t.user
      (fun a u b _ => a = b ∧ WellFormed D a ∧ HoldsBlocks a c ∧ P u) fun u _ => P u := by
    -- what opens is well formed, and its blocks are in the bytes, which later reads rely on
    rcases Fallible.abreast_iff.mp (openWithLimits_abreast hsource hmemory h.user trivial hlen) with
      ⟨a, u, b, v, hx, hy, rfl, hu, -⟩ | ⟨e, u, v, hx, hy, hu, -⟩
    · exact Fallible.abreast_ok hx hy
        ⟨rfl, openWithLimits_wellFormed hx, holds_of_open hsource h.user hx, hu⟩
    · exact Fallible.abreast_error hx hy hu
  -- the result of opening goes through the errors of the interface into the session
  refine Fallible.Abreast.bind (Q := fun a s' b t' => a = b ∧ WellFormed D a ∧ HoldsBlocks a c ∧
    CallDone D P s' t') ?_ ?_
  · rw [Fallible.abreast_focus]
    refine (hopen.mapError FfiFault.ofFault).mono ?_ ?_
    · rintro a u b v ⟨rfl, hwf, hin, hu⟩
      exact ⟨rfl, hwf, hin, h.withUser hu, rfl⟩
    · exact fun u v hu => h.withUser hu
  · rintro a s' _ t' ⟨rfl, hwf, hin, hst, hm⟩
    refine Fallible.abreast_ok rfl rfl ⟨⟨hst.user, ?_, hst.scratches⟩, ?_⟩
    · have hhandles : HandlesAlike D P ⟨a, source⟩ ⟨a, .memory c⟩ :=
        ⟨rfl, hwf, ⟨c, hin, hsource, hmemory⟩, hdrop⟩
      -- the new handle is appended on both sides, so its number is the same
      exact List.rel_append hst.archives (.cons (.some hhandles) .nil)
    · show ({ s'.2 with outArchive := some s'.1.archives.length } : FfiMemory) =
        { t'.2 with outArchive := some t'.1.archives.length }
      rw [hm, hst.archives.length_eq]

omit hlen hlt in
/-- Memory and files are dropped without a trace. -/
theorem owning_of_drop {V α : Type} {source : ArchiveSource V} (hdrop : source.drop = id)
    (x : Fallible (SessionState V) FfiFault α) : owning source x = x := by
  funext s
  unfold owning
  rcases hx : x s with ⟨f | a, s'⟩
  · rw [hdrop]
    rfl
  · rfl

omit hlen hlt in
/-- **A run that owns its source** drops it in the states of `P`. -/
theorem owning_abreast (hdrop : ∀ u, P u → P (source.drop u)) {α β : Type}
    {x : Fallible (SessionState U) FfiFault α} {y : Fallible (SessionState Unit) FfiFault β}
    {s : SessionState U} {t : SessionState Unit}
    {Q : α → SessionState U → β → SessionState Unit → Prop}
    (h : Fallible.Abreast x s y t Q (CallFailed D P)) :
    Fallible.Abreast (owning source x) s y t Q (CallFailed D P) := by
  rcases Fallible.abreast_iff.mp h with ⟨a, s', b, t', hx, hy, hQ⟩ | ⟨e, s', t', hx, hy, hE⟩
  · -- a run that succeeds hands the source over
    exact Fallible.abreast_ok (by rw [owning, hx]) hy hQ
  · -- one that fails drops it, which keeps the states of the source in `P`
    have hrun : owning source x s =
        (.error e, ({ s'.1 with user := source.drop s'.1.user }, s'.2)) := by rw [owning, hx]
    exact Fallible.abreast_error hrun hy (SessionsAlike.withUser hE (hdrop _ hE.user))

/-- **What an opener opens** is what opens from its bytes in memory. -/
theorem Opener.body_abreast {sys : FfiSystem U} (sys₀ : FfiSystem Unit) {opener : Opener U}
    (hoffers : opener.Offers sys P c) {key : ConstBytes} {limits : Option RasenArchiveLimits}
    {out : Pointer} (h : SessionsAlike D P s t) :
    Fallible.Abreast (opener.body D sys key limits out) (s, memory)
      ((Opener.memory (.data c)).body D sys₀ key limits out) (t, memory)
      (fun _ s' _ t' => CallDone D P s' t') (CallFailed D P) := by
  have hdata : ConstBytes.bytes (.data c) "data" = .ok c := rfl
  cases opener with
  | memory data =>
    have hbytes : data.bytes "data" = .ok c := ConstBytes.bytes_eq_ok_iff.mpr hoffers
    simp only [Opener.body, rasenArchiveOpenMemory]
    -- the out pointer is checked first, then the bytes and the key
    refine Fallible.abreast_liftM_bind _ h fun _ _ => ?_
    rw [Fallible.Abreast, Fallible.liftM_bind_of_ok hbytes, Fallible.liftM_bind_of_ok hdata]
    refine Fallible.abreast_liftM_bind (key.bytes "key") h fun _ _ => ?_
    rw [owning_of_drop rfl, owning_of_drop rfl]
    exact openInto_abreast hlen hlt (memory_presents hlt) (fun _ hu => hu) h
  | file path =>
    obtain ⟨p, file, hpath, hfile, hopens⟩ := hoffers
    have hutf8 : path.utf8 "path" = .ok p := ConstBytes.utf8_eq_ok_iff.mpr hpath
    -- the file is opened once, and presents its bytes from then on
    obtain ⟨u, hopen, hu⟩ := hopens s.user h.user
    have hrun : openFile sys p (s, memory) = (.ok file, ({ s with user := u }, memory)) := by
      rw [openFile, hopen]
    simp only [Opener.body, rasenArchiveOpenFile, rasenArchiveOpenMemory]
    refine Fallible.abreast_liftM_bind _ h fun _ _ => ?_
    rw [Fallible.Abreast, Fallible.liftM_bind_of_ok hutf8, Fallible.liftM_bind_of_ok hdata]
    refine Fallible.abreast_liftM_bind (key.bytes "key") h fun _ _ => ?_
    rw [Fallible.Abreast, Fallible.bind_of_ok hrun, owning_of_drop rfl, owning_of_drop rfl]
    exact openInto_abreast hlen hlt (file_presents hlt hfile) (fun _ hu => hu) (h.withUser hu)
  | callbacks source =>
    obtain ⟨hgives, hdestroy⟩ := hoffers
    have hdrop : ∀ u, P u → P ((ArchiveSource.callback source).drop u) := by
      intro u hu
      show P (source.destroy.getD id u)
      cases hd : source.destroy with
      | none => exact hu
      | some destroy => exact hdestroy destroy hd u hu
    -- the callbacks are owned from the first line on, and the bytes in memory from the last one
    simp only [Opener.body, rasenArchiveOpenSource, rasenArchiveOpenMemory]
    refine owning_abreast hdrop ?_
    refine Fallible.abreast_liftM_bind _ h fun _ _ => ?_
    rw [Fallible.Abreast, Fallible.liftM_bind_of_ok hdata]
    refine Fallible.abreast_liftM_bind (key.bytes "key") h fun _ _ => ?_
    rw [owning_of_drop rfl]
    exact openInto_abreast hlen hlt (callback_presents hgives) hdrop h

end Opening

/-! ## Sessions over any sources -/

/-- **Every call of a client** ends alike over the openers and over the bytes that they give. -/
theorem SessionCall.body_abreast {sys : FfiSystem U} (sys₀ : FfiSystem Unit)
    {openers : ℕ → Opener U} {contents : ℕ → Bytes}
    (hoffers : ∀ i, (openers i).Offers sys P (contents i))
    (hlen : ∀ i, headerSize ≤ (contents i).length) (hlt : ∀ i, (contents i).length < 2 ^ 64)
    (call : SessionCall) (memory : FfiMemory) (h : SessionsAlike D P s t) :
    Fallible.Abreast (call.body D sys openers) (s, memory)
      (call.body D sys₀ fun i => .memory (.data (contents i))) (t, memory)
      (fun _ s' _ t' => CallDone D P s' t') (CallFailed D P) := by
  cases call with
  | openArchive i key limits out => exact Opener.body_abreast (hlen i) (hlt i) sys₀ (hoffers i) h
  | freeArchive archive =>
    unfold SessionCall.body
    rw [Fallible.abreast_gets_bind]
    cases archive with
    | none => exact Fallible.abreast_ok rfl rfl ⟨h, rfl⟩
    | some n =>
      show Fallible.Abreast (rasenArchiveFree ((s.handle (some n)).map fun handle => (n, handle)))
        (s, memory) (rasenArchiveFree ((t.handle (some n)).map fun handle => (n, handle)))
        (t, memory) _ _
      -- a handle is live on one side exactly when it is on the other
      have hrel := h.handle (some n)
      rcases hs : s.handle (some n) with _ | handle <;>
        rcases ht : t.handle (some n) with _ | handle'
      all_goals rw [hs, ht] at hrel
      · exact Fallible.abreast_ok rfl rfl ⟨h, rfl⟩
      · cases hrel
      · cases hrel
      · cases hrel with
        | some hhandle =>
          refine Fallible.abreast_ok rfl rfl ?_
          refine ⟨?_, rfl⟩
          -- only the source on the left has anything to drop
          exact ⟨hhandle.drop _ h.user, forall₂_set h.archives n .none, h.scratches⟩
  | scratchNew out =>
    unfold SessionCall.body rasenScratchNew
    rw [Fallible.abreast_gets_bind, Fallible.abreast_modify_bind]
    have hmore : SessionsAlike D P { s with scratches := s.scratches ++ [some {}] }
        { t with scratches := t.scratches ++ [some {}] } :=
      ⟨h.user, h.archives, by simp only [List.length_append, h.scratches]⟩
    refine Fallible.abreast_liftM_bind _ hmore fun _ _ => ?_
    refine Fallible.abreast_ok rfl rfl ⟨hmore, ?_⟩
    -- the new scratch space has the same number on both sides
    simp only [h.scratches]
  | scratchFree scratch =>
    cases scratch with
    | none => exact Fallible.abreast_ok rfl rfl ⟨h, rfl⟩
    | some n =>
      refine Fallible.abreast_ok rfl rfl ?_
      refine ⟨?_, rfl⟩
      exact ⟨h.user, h.archives, by simp only [List.length_set, h.scratches]⟩
  | hashPath path out =>
    exact Fallible.abreast_liftM_bind _ h fun _ _ => Fallible.abreast_liftM_bind _ h fun _ _ =>
      Fallible.abreast_liftM_bind _ h fun _ _ => Fallible.abreast_ok rfl rfl ⟨h, rfl⟩
  | normalizePath path out =>
    exact Fallible.abreast_liftM_bind _ h fun _ _ => Fallible.abreast_liftM_bind _ h fun _ _ =>
      Fallible.abreast_liftM_bind _ h fun _ _ => Fallible.abreast_ok rfl rfl ⟨h, rfl⟩
  | onArchive archive scratch call =>
    unfold SessionCall.body
    rw [Fallible.abreast_gets_bind]
    unfold onHandle
    rw [Fallible.abreast_focus]
    -- the bytes behind the handle, as both sides read them
    obtain ⟨c, hinner, hp, hp₀, harchive⟩ : ∃ c,
        (t.handle archive).map RasenHandle.inner = (s.handle archive).map RasenHandle.inner ∧
        Presents (accessOf (s.handle archive)) P c ∧
        Presents (accessOf (t.handle archive)) (fun _ => True) c ∧
        ∀ a ∈ (s.handle archive).map RasenHandle.inner, WellFormed D a ∧ HoldsBlocks a c := by
      have hrel := h.handle archive
      rcases hs : s.handle archive with _ | handle <;> rcases ht : t.handle archive with _ | handle'
      all_goals rw [hs, ht] at hrel
      -- a null pointer reads from nothing, on both sides
      · exact ⟨[], rfl, memory_presents (by decide), memory_presents (by decide), by simp⟩
      · cases hrel
      · cases hrel
      · cases hrel with
        | some hhandle =>
          obtain ⟨c, hin, hp, hp₀⟩ := hhandle.bytes
          refine ⟨c, congrArg some hhandle.inner.symm, hp, hp₀, ?_⟩
          rintro a ha
          cases ha
          exact ⟨hhandle.wellFormed, hin⟩
    rw [hinner]
    -- the function ends alike over any two sources of the same bytes
    refine (call.body_abreast hp hp₀ harchive h.user trivial rfl).mono ?_ ?_
    · rintro _ s' _ t' ⟨hs', -, hm⟩
      exact ⟨⟨hs', h.archives, by simp only [List.length_modify, h.scratches]⟩, hm⟩
    · rintro s' t' ⟨hs', -⟩
      exact ⟨hs', h.archives, by simp only [List.length_modify, h.scratches]⟩

/-- **One call of a client** shows it the same. -/
theorem clientStep_alike {sys : FfiSystem U} (sys₀ : FfiSystem Unit) {openers : ℕ → Opener U}
    {contents : ℕ → Bytes} (hoffers : ∀ i, (openers i).Offers sys P (contents i))
    (hlen : ∀ i, headerSize ≤ (contents i).length) (hlt : ∀ i, (contents i).length < 2 ^ 64)
    (call : SessionCall) (memory : FfiMemory) {s : SessionThread U} {t : SessionThread Unit}
    (h : SessionsAlike D P s.session t.session) (herror : s.lastError = t.lastError) :
    (clientStep D sys openers call memory s).1 =
        (clientStep D sys₀ (fun i => .memory (.data (contents i))) call memory t).1 ∧
      SessionsAlike D P (clientStep D sys openers call memory s).2.session
        (clientStep D sys₀ (fun i => .memory (.data (contents i))) call memory t).2.session ∧
      (clientStep D sys openers call memory s).2.lastError =
        (clientStep D sys₀ (fun i => .memory (.data (contents i))) call memory t).2.lastError := by
  have hcall := call.body_abreast sys₀ hoffers hlen hlt memory h
  unfold clientStep
  rcases ffiCall_abreast s.lastError t.lastError hcall with ⟨s', t', hx, hy, hst, hm⟩ |
    ⟨f, s', t', hne, hx, hy, hst⟩
  · -- the call succeeds, and the memory is compared whole
    rw [hx, hy]
    simp only [herror, hm, if_true]
    exact ⟨trivial, hst, trivial⟩
  · rw [hx, hy]
    -- the memory after a failure is not looked at
    simp only [if_neg hne]
    exact ⟨trivial, hst, trivial⟩

/-- **A run of a client** shows it the same, call by call. -/
theorem runClient_eq {sys : FfiSystem U} (sys₀ : FfiSystem Unit) {openers : ℕ → Opener U}
    {contents : ℕ → Bytes} (hoffers : ∀ i, (openers i).Offers sys P (contents i))
    (hlen : ∀ i, headerSize ≤ (contents i).length) (hlt : ∀ i, (contents i).length < 2 ^ 64)
    (client : Client) (turns : ℕ) (seen : List Seen) {s : SessionThread U}
    {t : SessionThread Unit} (h : SessionsAlike D P s.session t.session)
    (herror : s.lastError = t.lastError) :
    runClient D sys openers client turns seen s =
      runClient D sys₀ (fun i => .memory (.data (contents i))) client turns seen t := by
  -- the client has seen the same so far, so it goes on with the same call
  induction turns generalizing seen s t with
  | zero => rfl
  | succ turns ih =>
    obtain ⟨hseen, hnext, herror'⟩ := clientStep_alike sys₀ hoffers hlen hlt
      (client seen).1 (client seen).2 h herror
    simp only [runClient, hseen]
    exact ih _ hnext herror'

/-- **Where the bytes come from does not show.** A client opens archives from memory, from files
that answer with short reads and interrupts, or through callbacks with a state, and it uses and
frees them; it chooses every call by what it has seen. It sees what it would see if all of the bytes
were in memory: the same statuses, the same last errors, and the same results. -/
theorem session_transparency (D : Dependencies) (P : U → Prop) (sys : FfiSystem U)
    (sys₀ : FfiSystem Unit) (openers : ℕ → Opener U) (contents : ℕ → Bytes)
    (hoffers : ∀ i, (openers i).Offers sys P (contents i))
    (hlen : ∀ i, headerSize ≤ (contents i).length) (hlt : ∀ i, (contents i).length < 2 ^ 64)
    {user : U} (huser : P user) (client : Client) (turns : ℕ) :
    runClient D sys openers client turns [] (newSession user) =
      runClient D sys₀ (fun i => .memory (.data (contents i))) client turns [] (newSession ()) :=
  runClient_eq sys₀ hoffers hlen hlt client turns [] ⟨huser, .nil, rfl⟩ rfl

/-- Callbacks that give the small archive. They count the reads, and how often they are
destroyed. -/
def countingSource : RasenSource (ℕ × ℕ) where
  readAt := some fun u offset dst =>
    if offset + dst.length ≤ smallBytes.length then
      (0, smallBytes.extract offset (offset + dst.length), (u.1 + 1, u.2))
    else (1, dst, (u.1 + 1, u.2))
  len := smallBytes.length
  destroy := some fun u => (u.1, u.2 + 1)
  len_lt := by decide +kernel
  length_readAt h u offset dst := by
    cases h
    dsimp only
    split_ifs with hle
    · rw [length_extract hle, Nat.add_sub_cancel_left]
    · rfl

/-- A system without files. -/
def noFiles (U : Type) : FfiSystem U where
  openFile _ u := (.error ⟨.notFound, "no such file"⟩, u)

/-- A client that opens an archive and reads its asset. -/
def readingClient : Client
  | [] => (.openArchive 0 (.data smallKey) none .valid, {})
  | _ => (.onArchive (some 0) 0 (.reading (.read (.data (asBytes "a")) .valid)), {})

/-- The client reads the asset through the counting callbacks as from memory. -/
theorem session_transparency_small :
    runClient reference (noFiles (ℕ × ℕ)) (fun _ => .callbacks countingSource) readingClient 2 []
        (newSession (0, 0)) =
      runClient reference (noFiles Unit) (fun _ => .memory (.data smallBytes)) readingClient 2 []
        (newSession ()) := by
  refine session_transparency reference (fun _ => True) (noFiles (ℕ × ℕ)) (noFiles Unit)
    (fun _ => .callbacks countingSource) (fun _ => smallBytes) (fun _ => ?_)
    (fun _ => by decide +kernel) (fun _ => by decide +kernel) trivial readingClient 2
  refine ⟨⟨rfl, _, rfl, fun u offset dst _ => ⟨fun hle => ?_, fun hend => ?_⟩⟩,
    fun _ _ _ _ => trivial⟩
  · exact ⟨_, if_pos hle, trivial⟩
  · exact ⟨1, dst, _, by decide, if_neg (by omega), trivial⟩

example : (runClient reference (noFiles Unit) (fun _ => .memory (.data smallBytes)) readingClient 2
    [] (newSession ())).map Seen.status = [.ok, .ok] := by decide +kernel

end RasenArchive
