import RasenArchive.Library.Simulation
import RasenArchive.Pack.Packer

/-!
# The packer over two destinations

The packer over one destination follows the packer over another, as the operations of the first
destination follow those of the second. Nothing but these operations touches the destination.

## Main definitions

* `Destination.Follows R S Rel End E`: the operations of `R` follow those of `S`
* `PackState.withWriter`: the same packer over another destination

## Main results

* `addReader_follows`, `finish_follows`: the functions of the packer
* `packReaders_follows`: a whole run
-/

namespace RasenArchive

open Fallible (Alike Keeps)

variable {V W : Type}

/-- The operations of `R` follow those of `S` on states in `Rel`. A seek to any other place than the
front or the end is the last operation of a run, and leaves states in `End`. -/
structure Destination.Follows (R : Destination V) (S : Destination W) (Rel End : V → W → Prop)
    (E : Fault → W → Prop) : Prop where
  writeAll : ∀ {v w}, Rel v w → ∀ bytes, Fallible.Follows E (RasenArchive.writeAll R bytes) v
    (RasenArchive.writeAll S bytes) w fun _ v' _ w' => Rel v' w'
  seekEnd : ∀ {v w}, Rel v w → Fallible.Follows E (seekTo R (.fromEnd 0)) v
    (seekTo S (.fromEnd 0)) w fun n v' m w' => n = m ∧ Rel v' w'
  seekFront : ∀ {v w}, Rel v w → Fallible.Follows E (seekTo R (.start 0)) v
    (seekTo S (.start 0)) w fun _ v' _ w' => Rel v' w'
  seekLast : ∀ {v w}, Rel v w → ∀ n, Fallible.Follows E (seekTo R (.start n)) v
    (seekTo S (.start n)) w fun _ v' _ w' => End v' w'
  keeps_writeAll : ∀ e bytes, Keeps (E e) (RasenArchive.writeAll S bytes)
  keeps_seekTo : ∀ e position, Keeps (E e) (seekTo S position)

/-- The same packer over another destination. -/
def PackState.withWriter (s : PackState V) (w : W) : PackState W :=
  ⟨s.packer, w, s.entropy, s.reader⟩

/-- The two packers are alike but for their destinations. -/
def Beside (Rel : V → W → Prop) (s : PackState V) (t : PackState W) : Prop :=
  ∃ w, t = s.withWriter w ∧ Rel s.writer w

/-- What excuses a fault of a packer excuses it by its destination. -/
def excuses (E : Fault → W → Prop) (f : Fault) (t : PackState W) : Prop := E f t.writer

/-! ## Beside the destination -/

section Aside

variable {α β : Type}

/-- Two computations that do the same beside the destination, and leave the destination alone. -/
def Aside (x : Fallible (PackState V) Fault α) (y : Fallible (PackState W) Fault α) : Prop :=
  ∀ s w, y (s.withWriter w) = ((x s).1, (x s).2.withWriter w) ∧ (x s).2.writer = s.writer

theorem aside_pure (a : α) :
    Aside (pure a : Fallible (PackState V) Fault α) (pure a : Fallible (PackState W) Fault α) :=
  fun _ _ => ⟨rfl, rfl⟩

theorem aside_liftM (z : Result α) :
    Aside (liftM z : Fallible (PackState V) Fault α)
      (liftM z : Fallible (PackState W) Fault α) := fun _ _ => ⟨rfl, rfl⟩

theorem aside_onReader (x : Fallible (Bytes × List ReadEvent) Fault α) :
    Aside (onReader x : Fallible (PackState V) Fault α)
      (onReader x : Fallible (PackState W) Fault α) := fun _ _ => ⟨rfl, rfl⟩

theorem aside_onEntropy (x : Fallible Entropy Fault α) :
    Aside (onEntropy x : Fallible (PackState V) Fault α)
      (onEntropy x : Fallible (PackState W) Fault α) := fun _ _ => ⟨rfl, rfl⟩

theorem aside_modify {p : PackState V → PackState V} {q : PackState W → PackState W}
    (h : ∀ s w, q (s.withWriter w) = (p s).withWriter w ∧ (p s).writer = s.writer) :
    Aside (Fallible.modify p : Fallible (PackState V) Fault Unit)
      (Fallible.modify q : Fallible (PackState W) Fault Unit) :=
  fun s w => ⟨congrArg (Prod.mk _) (h s w).1, (h s w).2⟩

theorem Aside.bind {x : Fallible (PackState V) Fault α} {y : Fallible (PackState W) Fault α}
    {f : α → Fallible (PackState V) Fault β} {g : α → Fallible (PackState W) Fault β}
    (h : Aside x y) (hf : ∀ a, Aside (f a) (g a)) : Aside (x >>= f) (y >>= g) := by
  intro s w
  obtain ⟨hy, hw⟩ := h s w
  rcases hx : x s with ⟨e | a, s'⟩
  · rw [hx] at hy hw
    rw [Fallible.bind_of_error hx, Fallible.bind_of_error hy]
    exact ⟨rfl, hw⟩
  · rw [hx] at hy hw
    rw [Fallible.bind_of_ok hx, Fallible.bind_of_ok hy]
    obtain ⟨hnext, hw'⟩ := hf a s' w
    exact ⟨hnext, hw'.trans hw⟩

/-- A read of the packer in front of both runs. -/
theorem aside_gets_bind {f : PackState V → Fallible (PackState V) Fault β}
    {g : PackState W → Fallible (PackState W) Fault β}
    (hf : ∀ s w, Aside (f s) (g (s.withWriter w))) :
    Aside (Fallible.gets id >>= f) (Fallible.gets id >>= g) := fun s w => hf s w s w

theorem Aside.alike {x : Fallible (PackState V) Fault α} {y : Fallible (PackState W) Fault α}
    (h : Aside x y) (s : PackState V) (w : W) :
    Alike x s y (s.withWriter w) fun a s' b t' =>
      a = b ∧ s'.writer = s.writer ∧ t' = s'.withWriter w := by
  obtain ⟨hy, hw⟩ := h s w
  rcases hx : x s with ⟨e | a, s'⟩
  · rw [hx] at hy
    exact Fallible.alike_error hx hy
  · rw [hx] at hy hw
    exact Fallible.alike_ok hx hy ⟨rfl, hw, rfl⟩

/-- What is done beside the destination keeps the destination. -/
theorem Aside.keeps {x : Fallible (PackState W) Fault α} (h : Aside x x) (P : W → Prop) :
    Keeps (fun t => P t.writer) x := by
  refine Keeps.of_snd fun t => ?_
  have ht : x t = ((x t).1, (x t).2.withWriter t.writer) := (h t t.writer).1
  rw [ht]
  rfl

variable (D : Dependencies)

theorem aside_compressRaw (rawLen : ℕ) :
    Aside (compressRaw D rawLen : Fallible (PackState V) Fault ℕ)
      (compressRaw D rawLen : Fallible (PackState W) Fault ℕ) := by
  refine aside_gets_bind fun s w => (aside_liftM _).bind fun input => ?_
  have hpacker : (s.withWriter w).packer = s.packer := rfl
  rw [hpacker]
  cases D.compressInto input s.packer.compressed.length with
  | error message => exact fun _ _ => ⟨rfl, rfl⟩
  | ok block => exact Aside.bind (aside_modify fun _ _ => ⟨rfl, rfl⟩) fun _ => aside_pure _

theorem aside_protect (aeadKey : Option Bytes) (plain aad : Bytes) :
    Aside (protect D aeadKey plain aad : Fallible (PackState V) Fault Bytes)
      (protect D aeadKey plain aad : Fallible (PackState W) Fault Bytes) := by
  cases aeadKey with
  | none => exact aside_pure _
  | some key => exact aside_onEntropy _

theorem aside_recordChunk (chunkOffset rawLen storedLen : ℕ) (chunkChecksum : UInt64)
    (isCompressed : Bool) (totals : Totals) :
    Aside (recordChunk chunkOffset rawLen storedLen chunkChecksum isCompressed totals :
        Fallible (PackState V) Fault Totals)
      (recordChunk chunkOffset rawLen storedLen chunkChecksum isCompressed totals :
        Fallible (PackState W) Fault Totals) := by
  refine aside_gets_bind fun s w => (aside_liftM _).bind fun _ => (aside_liftM _).bind fun _ => ?_
  refine Aside.bind (aside_modify fun _ _ => ⟨rfl, rfl⟩) fun _ => (aside_liftM _).bind fun _ =>
    (aside_liftM _).bind fun _ => (aside_liftM _).bind fun _ => ?_
  refine Aside.bind (aside_modify fun _ _ => ⟨rfl, rfl⟩) fun _ => aside_gets_bind fun s w => ?_
  exact (aside_liftM _).bind fun _ => aside_pure _

theorem aside_checkSeen (normalizedPath : String) (pathHash : UInt64) :
    Aside (checkSeen normalizedPath pathHash : Fallible (PackState V) Fault Unit)
      (checkSeen normalizedPath pathHash : Fallible (PackState W) Fault Unit) := by
  refine aside_gets_bind fun s w => ?_
  show Aside (Fallible.modify _ >>= _) (Fallible.modify _ >>= _)
  refine Aside.bind (aside_modify fun _ _ => ⟨rfl, rfl⟩) fun _ => ?_
  show Aside (if pathHash ∈ s.packer.seenHashes then _ else _)
    (if pathHash ∈ s.packer.seenHashes then _ else _)
  split_ifs
  · exact (aside_liftM _).bind fun _ => aside_liftM _
  · exact aside_pure _

theorem aside_storeToc (p : Packer) :
    Aside (storeToc D p : Fallible (PackState V) Fault (Bytes × ℕ × UInt64))
      (storeToc D p : Fallible (PackState W) Fault (Bytes × ℕ × UInt64)) := by
  refine (aside_liftM _).bind fun toc => (aside_liftM _).bind fun _ => (aside_liftM _).bind
    fun _ => ?_
  cases D.compressInto toc (D.getMaximumOutputSize toc.length) with
  | error message => exact fun _ _ => ⟨rfl, rfl⟩
  | ok block =>
    refine Aside.bind ?_ fun stored => (aside_liftM _).bind fun _ => (aside_liftM _).bind
      fun _ => aside_pure _
    unfold protectToc
    cases p.aeadKey with
    | none => exact aside_liftM _
    | some key => exact aside_onEntropy _

end Aside

/-! ## The functions of the packer -/

section Follows

variable {D : Dependencies} {R : Destination V} {S : Destination W} {Rel End : V → W → Prop}
  {E : Fault → W → Prop}

theorem onWriter_follows {α β : Type} {x : Fallible V Fault α} {y : Fallible W Fault β}
    {Q : α → V → β → W → Prop} {s : PackState V} {w : W}
    (h : Fallible.Follows E x s.writer y w Q) :
    Fallible.Follows (excuses E) (onWriter x) s (onWriter y) (s.withWriter w) fun a s' b t' =>
      ∃ v' w', Q a v' b w' ∧ s' = { s with writer := v' } ∧ t' = s'.withWriter w' :=
  (Fallible.follows_focus _ _ _ _ _ _).mpr <| h.mono (fun _ _ he => he) fun _ v' _ w' hq =>
    ⟨v', w', hq, rfl, rfl⟩

theorem keeps_onWriter {β : Type} {P : W → Prop} {y : Fallible W Fault β} (h : Keeps P y) :
    Keeps (fun t : PackState W => P t.writer) (onWriter y) := fun t ht => h t.writer ht

variable (h : R.Follows S Rel End E)

include h

theorem Destination.Follows.keeps_writeZeroes (e : Fault) (turns remaining : ℕ) :
    Keeps (E e) (writeZeroes S turns remaining) := by
  induction turns generalizing remaining with
  | zero => exact .pure _
  | succ turns ih =>
    rw [writeZeroes]
    split_ifs
    · exact (h.keeps_writeAll e _).bind fun _ => (Keeps.liftM _).bind fun _ => ih _
    · exact .pure _

theorem Destination.Follows.writeZeroes {v : V} {w : W} (hrel : Rel v w) (turns remaining : ℕ) :
    Fallible.Follows E (RasenArchive.writeZeroes R turns remaining) v
      (RasenArchive.writeZeroes S turns remaining) w fun _ v' _ w' => Rel v' w' := by
  induction turns generalizing remaining v w with
  | zero => exact (Fallible.alike_ok rfl rfl hrel).follows
  | succ turns ih =>
    rw [RasenArchive.writeZeroes, RasenArchive.writeZeroes]
    split_ifs
    · refine (h.writeAll hrel _).bind
        (fun e _ => (Keeps.liftM _).bind fun _ => h.keeps_writeZeroes e turns _) ?_
      exact fun _ v' _ w' hrel' => Fallible.follows_liftM_bind _ fun _ _ => ih hrel' _
    · exact (Fallible.alike_ok rfl rfl hrel).follows

theorem keeps_align (e : Fault) : Keeps (excuses E e) (align S) :=
  Keeps.gets_bind fun _ => (Keeps.liftM _).bind fun _ => (Keeps.liftM _).bind fun remaining =>
    (keeps_onWriter (h.keeps_writeZeroes e remaining remaining)).bind fun _ =>
      Keeps.modify fun _ ht => ht

theorem align_follows {s : PackState V} {w : W} (hrel : Rel s.writer w) :
    Fallible.Follows (excuses E) (align R) s (align S) (s.withWriter w)
      fun _ s' _ t' => Beside Rel s' t' := by
  refine (Fallible.follows_gets_bind _ _ _ _).mpr ?_
  refine Fallible.follows_liftM_bind _ fun aligned _ =>
    Fallible.follows_liftM_bind _ fun remaining _ => ?_
  refine (onWriter_follows (h.writeZeroes hrel remaining remaining)).bind
    (fun _ _ => Keeps.modify fun _ ht => ht) ?_
  rintro _ _ _ _ ⟨v', w', hrel', rfl, rfl⟩
  exact Alike.follows (Fallible.alike_ok rfl rfl ⟨w', rfl, hrel'⟩)

theorem keeps_storeChunk (e : Fault) (aeadKey : Option Bytes) (plain aad : Bytes)
    (next : Bytes → Fallible (PackState W) Fault Totals)
    (hnext : ∀ stored, Aside (next stored) (next stored)) :
    Keeps (excuses E e) (protect D aeadKey plain aad >>= fun stored =>
      onWriter (writeAll S stored) >>= fun _ => next stored) :=
  ((aside_protect D aeadKey plain aad).keeps _).bind fun stored =>
    (keeps_onWriter (h.keeps_writeAll e stored)).bind fun _ => (hnext stored).keeps _

/-- **One chunk.** -/
theorem addChunk_follows {s : PackState V} {w : W} (hrel : Rel s.writer w) (rawLen : ℕ)
    (totals : Totals) :
    Fallible.Follows (excuses E) (addChunk D R rawLen totals) s (addChunk D S rawLen totals)
      (s.withWriter w) fun a s' b t' => a = b ∧ Beside Rel s' t' := by
  refine ((aside_compressRaw D rawLen).alike s w).follows_bind ?_
  rintro len s₁ _ _ ⟨rfl, hw₁, rfl⟩
  rw [← hw₁] at hrel
  refine (align_follows h hrel).bind (fun e _ => ?_) ?_
  · exact Keeps.gets_bind fun _ => (Keeps.liftM _).bind fun _ => (Keeps.liftM _).bind fun _ =>
      (Keeps.liftM _).bind fun _ => keeps_storeChunk h e _ _ _ _ fun _ => aside_recordChunk _ _ _ _ _ _
  rintro _ s₂ _ _ ⟨w₂, rfl, hrel₂⟩
  refine (Fallible.follows_gets_bind _ _ _ _).mpr ?_
  refine Fallible.follows_liftM_bind _ fun _ _ => Fallible.follows_liftM_bind _ fun _ _ =>
    Fallible.follows_liftM_bind _ fun _ _ => ?_
  refine ((aside_protect D _ _ _).alike s₂ w₂).follows_bind ?_
  rintro stored s₃ _ _ ⟨rfl, hw₃, rfl⟩
  rw [← hw₃] at hrel₂
  refine (onWriter_follows (h.writeAll hrel₂ stored)).bind
    (fun _ _ => (aside_recordChunk _ _ _ _ _ _).keeps _) ?_
  rintro _ _ _ _ ⟨v₄, w₄, hrel₄, rfl, rfl⟩
  refine ((aside_recordChunk _ _ _ _ _ _).alike _ w₄).follows.mono (fun _ _ he => he) ?_
  rintro a s₅ _ _ ⟨rfl, hw₅, rfl⟩
  exact ⟨rfl, w₄, rfl, hw₅ ▸ hrel₄⟩

theorem keeps_addChunk (e : Fault) (rawLen : ℕ) (totals : Totals) :
    Keeps (excuses E e) (addChunk D S rawLen totals) :=
  ((aside_compressRaw D rawLen).keeps _).bind fun _ => (keeps_align h e).bind fun _ =>
    Keeps.gets_bind fun _ => (Keeps.liftM _).bind fun _ => (Keeps.liftM _).bind fun _ =>
      (Keeps.liftM _).bind fun _ =>
        keeps_storeChunk h e _ _ _ _ fun _ => aside_recordChunk _ _ _ _ _ _

theorem keeps_addChunks (e : Fault) (turns : ℕ) (totals : Totals) :
    Keeps (excuses E e) (addChunks D S turns totals) := by
  induction turns generalizing totals with
  | zero => exact .pure _
  | succ turns ih =>
    refine ((aside_onReader _).keeps _).bind fun rawLen => ?_
    split_ifs
    · exact .pure _
    · exact (keeps_addChunk h e rawLen totals).bind fun totals => ih totals

/-- **All chunks of an asset**, by induction on the turns of the loop. -/
theorem addChunks_follows {s : PackState V} {w : W} (hrel : Rel s.writer w) (turns : ℕ)
    (totals : Totals) :
    Fallible.Follows (excuses E) (addChunks D R turns totals) s (addChunks D S turns totals)
      (s.withWriter w) fun a s' b t' => a = b ∧ Beside Rel s' t' := by
  induction turns generalizing s w totals with
  | zero => exact Alike.follows (Fallible.alike_ok rfl rfl ⟨rfl, w, rfl, hrel⟩)
  | succ turns ih =>
    refine ((aside_onReader Pack.readChunk).alike s w).follows_bind ?_
    rintro rawLen s₁ _ _ ⟨rfl, hw₁, rfl⟩
    rw [← hw₁] at hrel
    split_ifs
    · exact Alike.follows (Fallible.alike_ok rfl rfl ⟨rfl, w, rfl, hrel⟩)
    · refine (addChunk_follows h hrel rawLen totals).bind
        (fun e totals => keeps_addChunks h e turns totals) ?_
      rintro totals s₂ _ _ ⟨rfl, w₂, rfl, hrel₂⟩
      exact ih hrel₂ totals

theorem keeps_addReaderInner (e : Fault) (path : String) :
    Keeps (excuses E e) (addReaderInner D S path) := by
  refine (Keeps.liftM _).bind fun _ => ((aside_checkSeen _ _).keeps _).bind fun _ =>
    Keeps.gets_bind fun _ => (Keeps.liftM _).bind fun _ => (keeps_addChunks h e _ _).bind fun _ =>
      Keeps.gets_bind fun _ => (Keeps.liftM _).bind fun _ => (Keeps.liftM _).bind fun _ => ?_
  show Keeps _ (Fallible.modify _ >>= _)
  exact Keeps.bind (Keeps.modify fun _ ht => ht) fun _ => Keeps.gets_bind fun _ =>
    (Keeps.liftM _).bind fun _ => Keeps.pure _

theorem addReaderInner_follows {s : PackState V} {w : W} (hrel : Rel s.writer w) (path : String) :
    Fallible.Follows (excuses E) (addReaderInner D R path) s (addReaderInner D S path)
      (s.withWriter w) fun _ s' _ t' => Beside Rel s' t' := by
  refine Fallible.follows_liftM_bind _ fun normalizedPath _ => ?_
  refine ((aside_checkSeen _ _).alike s w).follows_bind ?_
  rintro _ s₁ _ _ ⟨-, hw₁, rfl⟩
  rw [← hw₁] at hrel
  refine (Fallible.follows_gets_bind _ _ _ _).mpr (Fallible.follows_liftM_bind _ fun _ _ => ?_)
  refine (addChunks_follows h hrel _ _).bind (fun e _ => ?_) ?_
  · refine Keeps.gets_bind fun _ => (Keeps.liftM _).bind fun _ => (Keeps.liftM _).bind fun _ => ?_
    show Keeps _ (Fallible.modify _ >>= _)
    exact Keeps.bind (Keeps.modify fun _ ht => ht) fun _ => Keeps.gets_bind fun _ =>
      (Keeps.liftM _).bind fun _ => Keeps.pure _
  rintro totals s₂ _ _ ⟨rfl, w₂, rfl, hrel₂⟩
  refine (Fallible.follows_gets_bind _ _ _ _).mpr <| Fallible.follows_liftM_bind _ fun _ _ =>
    Fallible.follows_liftM_bind _ fun _ _ => (Fallible.follows_modify_bind _ _ _ _).mpr <|
      (Fallible.follows_gets_bind _ _ _ _).mpr <| Fallible.follows_liftM_bind _ fun _ _ => ?_
  exact Alike.follows (Fallible.alike_ok rfl rfl ⟨w₂, rfl, hrel₂⟩)

omit h in
/-- The mark on a packer that failed changes neither the fault nor the destination. -/
theorem marking_follows {x : Fallible (PackState V) Fault Unit}
    {y : Fallible (PackState W) Fault Unit} {s : PackState V} {t : PackState W}
    {Q : Unit → PackState V → Unit → PackState W → Prop}
    (hxy : Fallible.Follows (excuses E) x s y t Q) :
    Fallible.Follows (excuses E) (marking x) s (marking y) t Q := by
  have hmark : ∀ {U : Type} (z : Fallible (PackState U) Fault Unit) u,
      (marking z u).1 = (z u).1 ∧ (marking z u).2.writer = (z u).2.writer ∧
        ∀ u', z u = (.ok (), u') → marking z u = (.ok (), u') := by
    intro U z u
    unfold marking
    rcases z u with ⟨e | ⟨⟨⟩⟩, u'⟩
    · exact ⟨rfl, rfl, nofun⟩
    · exact ⟨rfl, rfl, fun _ hz => hz⟩
  rw [Fallible.follows_iff] at hxy ⊢
  refine ⟨fun a s' hx => ?_, fun e s' hx => ?_⟩
  · have hok : x s = (.ok (), (x s).2) := Prod.ext (by rw [← (hmark x s).1, hx]) rfl
    obtain ⟨_, t', hy, hq⟩ := hxy.1 () _ hok
    rw [(hmark x s).2.2 _ hok] at hx
    exact ⟨(), t', (hmark y t).2.2 t' hy, (Prod.mk.inj hx).2 ▸ hq⟩
  · have herr : x s = (.error e, (x s).2) := Prod.ext (by rw [← (hmark x s).1, hx]) rfl
    unfold excuses at *
    rw [(hmark y t).2.1]
    refine (hxy.2 e _ herr).imp_left ?_
    rintro ⟨t', hy⟩
    exact ⟨_, Prod.ext (by rw [(hmark y t).1, hy]) rfl⟩

omit h in
theorem keeps_marking {P : W → Prop} {y : Fallible (PackState W) Fault Unit}
    (hy : Keeps (fun t => P t.writer) y) : Keeps (fun t => P t.writer) (marking y) := by
  intro t ht
  have hkept := hy t ht
  unfold marking
  rcases hrun : y t with ⟨e | ⟨⟨⟩⟩, t'⟩ <;> rw [hrun] at hkept <;> exact hkept

theorem keeps_addReader (e : Fault) (path : String) (reader : List ReadEvent) :
    Keeps (excuses E e) (addReader D S path reader) :=
  Keeps.gets_bind fun _ => (Keeps.liftM _).bind fun _ =>
    Keeps.bind (Keeps.modify fun _ ht => ht) fun _ =>
      keeps_marking (keeps_addReaderInner h e path)

/-- **Adding an asset.** -/
theorem addReader_follows {s : PackState V} {w : W} (hrel : Rel s.writer w) (path : String)
    (reader : List ReadEvent) :
    Fallible.Follows (excuses E) (addReader D R path reader) s (addReader D S path reader)
      (s.withWriter w) fun _ s' _ t' => Beside Rel s' t' := by
  refine (Fallible.follows_gets_bind _ _ _ _).mpr <| Fallible.follows_liftM_bind _ fun _ _ =>
    (Fallible.follows_modify_bind _ _ _ _).mpr <| marking_follows ?_
  exact addReaderInner_follows h (s := { s with reader := reader }) hrel path

theorem keeps_addReaders (e : Fault) (inputs : List Input) :
    Keeps (excuses E e) (addReaders D S inputs) := by
  induction inputs with
  | nil => exact .pure _
  | cons input inputs ih => exact (keeps_addReader h e _ _).bind fun _ => ih

/-- **Adding all assets**, by induction on them. -/
theorem addReaders_follows {s : PackState V} {w : W} (hrel : Rel s.writer w)
    (inputs : List Input) :
    Fallible.Follows (excuses E) (addReaders D R inputs) s (addReaders D S inputs)
      (s.withWriter w) fun _ s' _ t' => Beside Rel s' t' := by
  induction inputs generalizing s w with
  | nil => exact Alike.follows (Fallible.alike_ok rfl rfl ⟨w, rfl, hrel⟩)
  | cons input inputs ih =>
    refine (addReader_follows h hrel _ _).bind (fun e _ => keeps_addReaders h e inputs) ?_
    rintro _ s₁ _ _ ⟨w₁, rfl, hrel₁⟩
    exact ih hrel₁

theorem keeps_writeFields (e : Fault) (fields : List Bytes) :
    Keeps (E e) (fields.forM fun field => writeAll S field) := by
  induction fields with
  | nil => exact .pure _
  | cons field fields ih => exact (h.keeps_writeAll e field).bind fun _ => ih

theorem writeHeader_follows {v : V} {w : W} (hrel : Rel v w) (header : Header) :
    Fallible.Follows E (writeHeader R header) v (writeHeader S header) w
      fun _ v' _ w' => Rel v' w' := by
  unfold writeHeader
  induction headerFields header generalizing v w with
  | nil => exact Alike.follows (Fallible.alike_ok rfl rfl hrel)
  | cons field fields ih =>
    exact (h.writeAll hrel field).bind (fun e _ => keeps_writeFields h e fields)
      fun _ _ _ _ hrel' => ih hrel'

/-- The end of `finish`, from the write of the header on. -/
theorem keeps_writeOver (e : Fault) (header : Header) (archiveLen : ℕ) (summary : PackSummary) :
    Keeps (excuses E e) (onWriter (writeHeader S header) >>= fun _ =>
      onWriter (seekTo S (.start archiveLen)) >>= fun _ => pure summary) :=
  (keeps_onWriter (keeps_writeFields h e _)).bind fun _ =>
    (keeps_onWriter (h.keeps_seekTo e _)).bind fun _ => Keeps.pure _

/-- The end of `finish`, from the header on. -/
theorem keeps_fillIn (e : Fault) (header : Result Header) (archiveLen : ℕ)
    (summary : Header → PackSummary) :
    Keeps (excuses E e) (liftM header >>= fun header => onWriter (seekTo S (.start 0)) >>= fun _ =>
      onWriter (writeHeader S header) >>= fun _ =>
        onWriter (seekTo S (.start archiveLen)) >>= fun _ => pure (summary header)) :=
  (Keeps.liftM _).bind fun _ =>
    (keeps_onWriter (h.keeps_seekTo e _)).bind fun _ => keeps_writeOver h e _ _ _

/-- **Finishing.** -/
theorem finish_follows {s : PackState V} {w : W} (hrel : Rel s.writer w) :
    Fallible.Follows (excuses E) (finish D R) s (finish D S) (s.withWriter w)
      fun a s' b t' => a = b ∧ Beside End s' t' := by
  refine (Fallible.follows_gets_bind _ _ _ _).mpr (Fallible.follows_liftM_bind _ fun _ _ => ?_)
  refine (align_follows h hrel).bind (fun e _ => ?_) ?_
  · refine Keeps.gets_bind fun _ => ((aside_storeToc D _).keeps _).bind fun toc => ?_
    exact (keeps_onWriter (h.keeps_writeAll e _)).bind fun _ => (Keeps.liftM _).bind fun _ =>
      Keeps.bind (Keeps.modify fun _ ht => ht) fun _ => keeps_fillIn h e _ _ fun header =>
        ⟨_, header.entryCount, header.chunkCount⟩
  rintro _ s₁ _ _ ⟨w₁, rfl, hrel₁⟩
  refine (Fallible.follows_gets_bind _ _ _ _).mpr ?_
  refine ((aside_storeToc D _).alike s₁ w₁).follows_bind ?_
  rintro ⟨tocStored, tocRawSize, tocHash⟩ s₂ _ _ ⟨rfl, hw₂, rfl⟩
  rw [← hw₂] at hrel₁
  refine (onWriter_follows (h.writeAll hrel₁ tocStored)).bind (fun e _ => ?_) ?_
  · exact (Keeps.liftM _).bind fun _ => Keeps.bind (Keeps.modify fun _ ht => ht) fun _ =>
      keeps_fillIn h e _ _ fun header =>
        ⟨_, header.entryCount, header.chunkCount⟩
  rintro _ _ _ _ ⟨v₃, w₃, hrel₃, rfl, rfl⟩
  refine Fallible.follows_liftM_bind _ fun archiveLen _ =>
    (Fallible.follows_modify_bind _ _ _ _).mpr <| Fallible.follows_liftM_bind _ fun header _ => ?_
  refine (onWriter_follows (h.seekFront hrel₃)).bind (fun e _ => keeps_writeOver h e _ _ _) ?_
  rintro _ _ _ _ ⟨v₄, w₄, hrel₄, rfl, rfl⟩
  refine (onWriter_follows (writeHeader_follows h hrel₄ header)).bind
    (fun e _ => (keeps_onWriter (h.keeps_seekTo e _)).bind fun _ => Keeps.pure _) ?_
  rintro _ _ _ _ ⟨v₅, w₅, hrel₅, rfl, rfl⟩
  refine (onWriter_follows (h.seekLast hrel₅ archiveLen)).bind (fun _ _ => Keeps.pure _) ?_
  rintro _ _ _ _ ⟨v₆, w₆, hend₆, rfl, rfl⟩
  exact Alike.follows (Fallible.alike_ok rfl rfl ⟨rfl, w₆, rfl, hend₆⟩)

theorem keeps_finish (e : Fault) : Keeps (excuses E e) (finish D S) := by
  refine Keeps.gets_bind fun _ => (Keeps.liftM _).bind fun _ => (keeps_align h e).bind fun _ =>
    Keeps.gets_bind fun _ => ((aside_storeToc D _).keeps _).bind fun toc => ?_
  exact (keeps_onWriter (h.keeps_writeAll e _)).bind fun _ => (Keeps.liftM _).bind fun _ =>
    Keeps.bind (Keeps.modify fun _ ht => ht) fun _ => keeps_fillIn h e _ _ fun header =>
        ⟨_, header.entryCount, header.chunkCount⟩

theorem newPacker_follows {v : V} {w : W} (hrel : Rel v w) (key : Bytes) (options : PackOptions) :
    Fallible.Follows E (newPacker D R key options) v (newPacker D S key options) w
      fun a v' b w' => a = b ∧ Rel v' w' := by
  refine Fallible.follows_liftM_bind _ fun _ _ => Fallible.follows_liftM_bind _ fun options _ => ?_
  refine (h.seekEnd hrel).bind (fun e _ => ?_) ?_
  · exact (Keeps.liftM _).bind fun _ => (h.keeps_seekTo e _).bind fun _ =>
      (h.keeps_writeAll e _).bind fun _ => Keeps.pure _
  rintro len v₁ _ w₁ ⟨rfl, hrel₁⟩
  refine Fallible.follows_liftM_bind _ fun _ _ => ?_
  refine (h.seekFront hrel₁).bind
    (fun e _ => (h.keeps_writeAll e _).bind fun _ => Keeps.pure _) ?_
  intro _ v₂ _ w₂ hrel₂
  refine (h.writeAll hrel₂ _).bind (fun _ _ => Keeps.pure _) ?_
  exact fun _ v₃ _ w₃ hrel₃ => Alike.follows (Fallible.alike_ok rfl rfl ⟨rfl, hrel₃⟩)

/-- **A whole run** over one destination follows the same run over the other. -/
theorem packReaders_follows {v : V} {w : W} (hrel : Rel v w) (key : Bytes) (options : PackOptions)
    (inputs : List Input) (entropy : Entropy) :
    Fallible.Follows (fun f env => E f env.writer) (packReaders D R key options inputs) ⟨v, entropy⟩
      (packReaders D S key options inputs) ⟨w, entropy⟩ fun a env b env' =>
        a = b ∧ env.entropy = env'.entropy ∧ End env.writer env'.writer := by
  refine Fallible.Follows.bind (Q := fun p env q env' => p = q ∧ env.entropy = entropy ∧
    env'.entropy = entropy ∧ Rel env.writer env'.writer) ?_ ?_ ?_
  · refine (Fallible.follows_focus _ _ _ _ _ _).mpr ((newPacker_follows h hrel key options).mono
      (fun _ _ he => he) ?_)
    exact fun _ _ _ _ hq => ⟨hq.1, rfl, rfl, hq.2⟩
  · exact fun e p env henv =>
      ((keeps_addReaders h e inputs).bind fun _ => keeps_finish h e) _ henv
  rintro p ⟨v₁, e₁⟩ _ ⟨w₁, e₂⟩ ⟨rfl, he₁, he₂, hrel₁⟩
  obtain rfl : e₁ = entropy := he₁
  obtain rfl : e₂ = e₁ := he₂
  have hcalls : Fallible.Follows (excuses E) (addReaders D R inputs >>= fun _ => finish D R)
      ⟨p, v₁, e₂, []⟩ (addReaders D S inputs >>= fun _ => finish D S) ⟨p, w₁, e₂, []⟩
      fun a s b t => a = b ∧ Beside End s t := by
    refine (addReaders_follows h (s := ⟨p, v₁, e₂, []⟩) hrel₁ inputs).bind
      (fun e _ => keeps_finish h e) ?_
    rintro _ s _ _ ⟨w, rfl, hrel₂⟩
    exact finish_follows h hrel₂
  refine (Fallible.follows_focus
    (fun env : PackEnv V => (⟨p, env.writer, env.entropy, []⟩ : PackState V))
    (fun s _ => ⟨s.writer, s.entropy⟩)
    (fun env : PackEnv W => (⟨p, env.writer, env.entropy, []⟩ : PackState W))
    (fun s _ => ⟨s.writer, s.entropy⟩) _ _).mpr (hcalls.mono (fun _ _ he => he) ?_)
  rintro a s _ _ ⟨rfl, w, rfl, hend⟩
  exact ⟨rfl, rfl, hend⟩

end Follows

end RasenArchive
