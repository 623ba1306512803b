import RasenArchive.Archive.TwoSources

/-!
# Independence of chunks

What an archive opens to depends on its header and its stored table of contents only, and what a
request returns on the stored extents of the chunks that overlap it. Damage anywhere else changes
nothing.

## Main definitions

* `Request`: the requests for a part of an archive, with `Request.run`
* `Overlaps`: a chunk of an entry overlaps a range
* `AgreeOn`: two byte strings agree on the stored extents of some chunks of an entry

## Main results

* `openWithLimits_alike`: opening
* `Request.run_abreast`: requests
* `chunk_independence`: both, and the number of chunks that a request goes through
-/

namespace RasenArchive

/-! ## Requests -/

/-- A request for a whole entry, a chunk or a range, into a fresh buffer or into one of the caller.
A call into a buffer of the caller takes a scratch space, or none: then it is the call that makes
its own. -/
inductive Request where
  | whole (path : String)
  | wholeById (id : AssetId)
  | wholeInto (path : String) (dst : Bytes) (scratch : Option ArchiveScratch)
  | chunk (path : String) (i : UInt32)
  | chunkInto (path : String) (i : UInt32) (dst : Bytes) (scratch : Option ArchiveScratch)
  | range (path : String) (offset len : UInt64) (exact : Bool)
  | rangeInto (path : String) (offset : UInt64) (dst : Bytes) (hdst : dst.length < 2 ^ 64)
      (scratch : Option ArchiveScratch)

variable (D : Dependencies) {W : Type} (R : RandomAccessRead W) (a : Archive)

/-- A call with a destination and a scratch space of the caller, and the destination it leaves. -/
def withDst {α : Type} (dst : Bytes) (scratch : ArchiveScratch)
    (x : Fallible (ReadState W) Fault α) : Fallible W Fault (α × Bytes) := fun w =>
  match x ⟨w, dst, scratch⟩ with
  | (.ok v, s) => (.ok (v, s.dst), s.source)
  | (.error f, s) => (.error f, s.source)

/-- A call with a destination of the caller, and the destination it leaves. -/
def intoDst {α : Type} (dst : Bytes) (x : Fallible (W × Bytes) Fault α) :
    Fallible W Fault (α × Bytes) := fun w =>
  match x (w, dst) with
  | (.ok v, s) => (.ok (v, s.2), s.1)
  | (.error f, s) => (.error f, s.1)

/-- The call for a request: the number of bytes it returns or reports, and the bytes of the fresh
buffer or of the destination. -/
def Request.run : Request → Fallible W Fault (ℕ × Bytes)
  | .whole path => do
    let d ← read D R a path
    pure (d.length, d)
  | .wholeById id => do
    let d ← readById D R a id
    pure (d.length, d)
  | .wholeInto path dst none => do
    let (_, d) ← intoDst dst (readInto D R a path)
    pure (d.length, d)
  | .wholeInto path dst (some scratch) => do
    let (_, d) ← withDst dst scratch (readIntoWithScratch D R a path)
    pure (d.length, d)
  | .chunk path i => do
    let d ← readChunk D R a path i
    pure (d.length, d)
  | .chunkInto path i dst none => do
    let (_, d) ← intoDst dst (readChunkInto D R a path i)
    pure (d.length, d)
  | .chunkInto path i dst (some scratch) => do
    let (_, d) ← withDst dst scratch (readChunkIntoWithScratch D R a path i)
    pure (d.length, d)
  | .range path offset len exact => do
    let d ← if exact then readRangeExact D R a path offset len else readRange D R a path offset len
    pure (d.length, d)
  | .rangeInto path offset dst _ none => intoDst dst (readRangeInto D R a path offset)
  | .rangeInto path offset dst _ (some scratch) =>
    withDst dst scratch (readRangeWithScratch D R a path offset)

/-- The entry that a request is about. -/
def Request.entry : Request → Result Entry
  | .whole path | .wholeInto path _ _ | .chunk path _ | .chunkInto path _ _ _
  | .range path _ _ _ | .rangeInto path _ _ _ _ => RasenArchive.entry D a path
  | .wholeById id => entryById a id

/-- Chunk number `i` of an entry overlaps the `len` bytes at `offset` of the entry. No chunk
overlaps an empty range. -/
def Overlaps (offset len i : ℕ) (chunk : Chunk) : Prop :=
  0 < len ∧ i * a.chunkSize.toNat < offset + len ∧
    offset < i * a.chunkSize.toNat + chunk.originalSize.toNat

/-- The request is for bytes of chunk number `i` of its entry. -/
def Request.Touches : Request → ℕ → Chunk → Prop
  | .whole _ | .wholeById _ | .wholeInto _ _ _ => fun _ _ => True
  | .chunk _ i | .chunkInto _ i _ _ => fun j _ => j = i.toNat
  | .range _ offset len _ => Overlaps a offset.toNat len.toNat
  | .rangeInto _ offset dst _ _ => Overlaps a offset.toNat dst.length

/-- Two byte strings agree on the stored extents of the chunks of an entry that `P` holds of. -/
def AgreeOn (c₁ c₂ : Bytes) (e : Entry) (P : ℕ → Chunk → Prop) : Prop :=
  ∀ i chunk, i < e.chunkCount.toNat → a.chunks[e.firstChunk.toNat + i]? = some chunk →
    P i chunk → c₁.extract chunk.offset.toNat chunk.stop = c₂.extract chunk.offset.toNat chunk.stop

/-! ## Requests without a scratch space -/

section Scratch

variable {D R a} {path : String} {dst : Bytes} {scratch : Option ArchiveScratch}

/-- A call that makes its own scratch space is the one with an empty scratch space. -/
theorem intoDst_withDefaultScratch {α : Type} (x : Fallible (ReadState W) Fault α) :
    intoDst dst (withDefaultScratch x) = withDst dst {} x := by
  funext w
  unfold intoDst withDst withDefaultScratch Fallible.focus
  rcases x ⟨w, dst, {}⟩ with ⟨_ | v, s⟩ <;> rfl

theorem Request.run_wholeInto :
    (Request.wholeInto path dst scratch).run D R a = (do
      let (_, d) ← withDst dst (scratch.getD {}) (readIntoWithScratch D R a path)
      pure (d.length, d)) := by
  cases scratch with
  | none => simp only [Request.run, readInto, intoDst_withDefaultScratch, Option.getD_none]
  | some scratch => rfl

theorem Request.run_chunkInto {i : UInt32} :
    (Request.chunkInto path i dst scratch).run D R a = (do
      let (_, d) ← withDst dst (scratch.getD {}) (readChunkIntoWithScratch D R a path i)
      pure (d.length, d)) := by
  cases scratch with
  | none => simp only [Request.run, readChunkInto, intoDst_withDefaultScratch, Option.getD_none]
  | some scratch => rfl

theorem Request.run_rangeInto {offset : UInt64} {hdst : dst.length < 2 ^ 64} :
    (Request.rangeInto path offset dst hdst scratch).run D R a =
      withDst dst (scratch.getD {}) (readRangeWithScratch D R a path offset) := by
  cases scratch with
  | none => simp only [Request.run, readRangeInto, intoDst_withDefaultScratch, Option.getD_none]
  | some scratch => rfl

end Scratch

/-! ## Opening -/

section Opening

variable {D} {c₁ c₂ : Bytes} (hlen : c₁.length = c₂.length)

include hlen

theorem readAt_alike {offset n : ℕ} (h : c₁.extract offset (offset + n) =
    c₂.extract offset (offset + n)) :
    Fallible.Alike (readAt sliceSource offset n) c₁ (readAt sliceSource offset n) c₂
      fun bs s bs' t => bs = bs' ∧ bs = c₁.extract offset (offset + n) ∧ s = c₁ ∧ t = c₂ := by
  by_cases hle : offset + n ≤ c₁.length
  · obtain ⟨s, hleft, rfl⟩ := readAt_presents (sliceSource_presents c₁) rfl hle
    obtain ⟨t, hright, rfl⟩ := readAt_presents (sliceSource_presents c₂) rfl (hlen ▸ hle)
    exact Fallible.alike_ok hleft hright ⟨h, rfl, rfl, rfl⟩
  · -- the error of a read past the end does not depend on the bytes
    have hpast : ∃ e, ∀ c : Bytes, c.length = c₁.length →
        readAt sliceSource offset n c = (.error e, c) := by
      let message := if offset + (List.replicate n (0 : UInt8)).length < 2 ^ 64
        then "failed to fill whole buffer" else "read range overflow"
      refine ⟨.error (.io ⟨.unexpectedEof, message⟩), fun c hc => ?_⟩
      have hnone : getRange c offset (offset + (List.replicate n (0 : UInt8)).length) = none := by
        rw [List.length_replicate]
        exact if_neg (by omega)
      unfold readAt readExactAt
      simp only [sliceSource, hnone, message]
    obtain ⟨e, he⟩ := hpast
    exact Fallible.alike_error (he c₁ rfl) (he c₂ hlen.symm)

/-- **Opening** depends on the length, the header and the stored table of contents. -/
theorem openWithLimits_alike {key : Bytes} {limits : ArchiveLimits}
    (hheader : c₁.take headerSize = c₂.take headerSize)
    (htoc : ∀ header, (readHeader (c₁.take headerSize)).1 = .ok header →
      c₁.extract header.tocOffset.toNat (header.tocOffset.toNat + header.tocSize.toNat) =
        c₂.extract header.tocOffset.toNat (header.tocOffset.toNat + header.tocSize.toNat)) :
    Fallible.Alike (openWithLimits D sliceSource key limits) c₁
      (openWithLimits D sliceSource key limits) c₂
      fun a s b t => a = b ∧ s = c₁ ∧ t = c₂ := by
  have hwindow : ∀ c : Bytes, c.extract 0 (0 + headerSize) = c.take headerSize := by
    intro c
    simp [List.extract_eq_take_drop]
  unfold openWithLimits
  refine Fallible.alike_liftM_bind _ fun _ _ => ?_
  refine (readAt_alike hlen (by rw [hwindow, hwindow, hheader])).bind ?_
  rintro bs s _ t ⟨rfl, hbs, rfl, rfl⟩
  rw [hwindow] at hbs
  refine Fallible.alike_liftM_bind _ fun header hh => ?_
  have hread : (readHeader (s.take headerSize)).1 = .ok header := by
    simp only [checkHeader, bind_eq_ok, pure_eq_ok_iff] at hh
    obtain ⟨_, hread, _, -, _, -, rfl⟩ := hh
    rw [← hbs]
    exact hread
  have hleft : sourceLen sliceSource s = (.ok s.length, s) := rfl
  have hright : sourceLen sliceSource t = (.ok t.length, t) := rfl
  refine Fallible.Alike.bind (Q := fun n u m v => n = m ∧ u = s ∧ v = t)
    (Fallible.alike_ok hleft hright ⟨hlen, rfl, rfl⟩) ?_
  rintro n u _ v ⟨rfl, rfl, rfl⟩
  refine Fallible.alike_liftM_bind _ fun _ _ => Fallible.alike_liftM_bind _ fun len hlen' => ?_
  obtain ⟨-, rfl⟩ := u64ToUsize_eq_ok_iff.mp hlen'
  refine (readAt_alike hlen (htoc header hread)).bind ?_
  rintro toc s' _ t' ⟨rfl, -, rfl, rfl⟩
  exact Fallible.alike_liftM _ fun _ _ => ⟨rfl, rfl, rfl⟩

end Opening

/-! ## Chunks with the same extent -/

section Extents

variable {D a} {c₁ c₂ : Bytes} {e : Entry} {chunk : Chunk} {i offset n : ℕ}

/-- A block lies within the stored extent of its chunk. -/
theorem WellFormed.blockLength_le (h : WellFormed D a) (hchunk : chunk ∈ a.chunks) :
    blockLength a chunk ≤ chunk.storedSize.toNat := by
  obtain ⟨p, -, -, -, -, hlayout⟩ := h.layout
  unfold blockLength
  split_ifs with hraw
  · rw [(hlayout.chunk chunk hchunk).raw_eq hraw.2]
    exact Nat.le_add_right _ _
  · exact le_rfl

/-- **A chunk comes to the same** from two byte strings that agree on its stored extent. -/
theorem AgreeOn.sameChunk (h : WellFormed D a) (he : e ∈ a.entries) {P : ℕ → Chunk → Prop}
    (hagree : AgreeOn a c₁ c₂ e P) (hi : i < e.chunkCount.toNat)
    (hP : ∀ chunk, a.chunks[e.firstChunk.toNat + i]? = some chunk → P i chunk) :
    SameChunk D a c₁ c₂ (e.firstChunk.toNat + i) := by
  obtain ⟨hrange, -, -, -, -⟩ := h.ownedChunks_spec he
  have hchunk := List.getElem?_eq_getElem (l := a.chunks) (i := e.firstChunk.toNat + i) (by omega)
  set chunk := a.chunks[e.firstChunk.toNat + i]
  have hle := h.blockLength_le (List.mem_of_getElem? hchunk)
  have hextent := congrArg (List.take (blockLength a chunk)) (hagree i chunk hi hchunk (hP _ hchunk))
  rw [take_extract, take_extract, Chunk.stop, Nat.min_eq_right (by omega)] at hextent
  have hat : chunkAt a (e.firstChunk.toNat + i) = .ok chunk := okOr_eq_ok_iff.mpr hchunk
  intro label l
  unfold chunkOutcome
  rw [hat, ok_bind, ok_bind, hextent]

/-- **The chunks that a range goes through** overlap it. -/
theorem WellFormed.overlaps_of_inRange (h : WellFormed D a) (he : e ∈ a.entries)
    (hstop : offset + n ≤ e.originalSize.toNat) (hin : InRange a offset n i)
    (hchunk : a.chunks[e.firstChunk.toNat + i]? = some chunk) (hi : i < e.chunkCount.toNat) :
    Overlaps a offset n i chunk := by
  obtain ⟨hpos, hfirst, hlast⟩ := hin
  have hsize := h.chunkSize_pos
  refine ⟨hpos, ?_, ?_⟩
  · have hle := (Nat.le_div_iff_mul_le hsize).mp hlast
    omega
  · rcases Nat.eq_or_lt_of_le hfirst with rfl | hlt
    · -- the chunk of the first byte reaches past it
      obtain ⟨-, -, -, -, hreach⟩ := h.touchedChunks_spec he (Nat.lt_succ_self offset)
        (by omega) rfl
      have howned : (e.ownedChunks a.chunks)[offset / a.chunkSize.toNat]? = some chunk := by
        rw [← hchunk, TocEntry.ownedChunks, List.extract_eq_take_drop, List.getElem?_take_of_lt
          (by omega), List.getElem?_drop]
      obtain ⟨hlt, hget⟩ := List.getElem?_eq_some_iff.mp howned
      rw [Nat.succ_sub_one, extract_singleton hlt, hget, totalSize_cons, totalSize_nil] at hreach
      omega
    · have hlt' := (Nat.div_lt_iff_lt_mul hsize).mp hlt
      omega

theorem overlaps_of_rangeLen (h : WellFormed D a) {idx len : ℕ} {exact : Bool}
    (hidx : a.entries[idx]? = some e) (hn : rangeLen a idx offset len exact = .ok n)
    (hin : InRange a offset n i) (hchunk : a.chunks[e.firstChunk.toNat + i]? = some chunk)
    (hi : i < e.chunkCount.toNat) : Overlaps a offset len i chunk := by
  obtain ⟨hle, -, -, hlen, -⟩ := (rangeLen_eq_ok_iff h hidx).mp hn
  obtain ⟨hpos, hstart, hreach⟩ := h.overlaps_of_inRange (List.mem_of_getElem? hidx) (by omega)
    hin hchunk hi
  exact ⟨by omega, by omega, hreach⟩

end Extents

/-! ## Requests on two sources -/

section Requests

variable {D a} {W₁ W₂ : Type} {R₁ : RandomAccessRead W₁} {R₂ : RandomAccessRead W₂}
  {P₁ : W₁ → Prop} {P₂ : W₂ → Prop} {w₁ : W₁} {w₂ : W₂} {c₁ c₂ : Bytes}

theorem abreast_withDst {α : Type} {dst : Bytes} {scratch : ArchiveScratch}
    {x : Fallible (ReadState W₁) Fault α} {y : Fallible (ReadState W₂) Fault α}
    (h : Fallible.Abreast x ⟨w₁, dst, scratch⟩ y ⟨w₂, dst, scratch⟩
      (fun v s' v' t' => v = v' ∧ Twins P₁ P₂ s' t') (Siblings P₁ P₂)) :
    Fallible.Abreast (withDst dst scratch x) w₁ (withDst dst scratch y) w₂
      (fun r w₁' r' w₂' => r = r' ∧ P₁ w₁' ∧ P₂ w₂') (fun w₁' w₂' => P₁ w₁' ∧ P₂ w₂') := by
  rcases Fallible.abreast_iff.mp h with ⟨v, s, _, t, hx, hy, rfl, hs, ht, hd⟩ |
    ⟨e, s, t, hx, hy, hs, ht, -⟩
  · exact Fallible.abreast_ok (by rw [withDst, hx]) (by rw [withDst, hy]) ⟨by rw [hd], hs, ht⟩
  · exact Fallible.abreast_error (by rw [withDst, hx]) (by rw [withDst, hy]) ⟨hs, ht⟩

/-- A lookup by path in front of both runs. -/
theorem abreast_locate (h : WellFormed D a) {path : String} {σ τ β γ : Type}
    {k : String × ℕ → Fallible σ Fault β} {k' : String × ℕ → Fallible τ Fault γ} {s : σ} {t : τ}
    {Q : β → σ → γ → τ → Prop} {E : σ → τ → Prop} (hE : E s t)
    (hok : ∀ q idx e, RasenArchive.entry D a path = .ok e → a.entries[idx]? = some e →
      Fallible.Abreast (k (q, idx)) s (k' (q, idx)) t Q E) :
    Fallible.Abreast (liftM (locate D a path) >>= k) s (liftM (locate D a path) >>= k') t Q E := by
  refine Fallible.abreast_liftM_bind _ hE fun r hl => ?_
  obtain ⟨q, idx⟩ := r
  obtain ⟨e, he, hidx⟩ := entry_of_locate h hl
  exact hok q idx e he hidx

variable (hp₁ : Presents R₁ P₁ c₁) (hp₂ : Presents R₂ P₂ c₂) (hin₁ : HoldsBlocks a c₁)
  (hin₂ : HoldsBlocks a c₂) (hw₁ : P₁ w₁) (hw₂ : P₂ w₂)

include hp₁ hp₂ hin₁ hin₂ hw₁ hw₂

/-- **A request ends alike** on two sources that agree on the chunks it overlaps. -/
theorem Request.run_abreast (h : WellFormed D a) (request : Request)
    (hagree : ∀ e, request.entry D a = .ok e → AgreeOn a c₁ c₂ e (request.Touches a)) :
    Fallible.Abreast (request.run D R₁ a) w₁ (request.run D R₂ a) w₂
      (fun r w₁' r' w₂' => r = r' ∧ P₁ w₁' ∧ P₂ w₂') (fun w₁' w₂' => P₁ w₁' ∧ P₂ w₂') := by
  have hmem : ∀ {idx : ℕ} {e : Entry}, a.entries[idx]? = some e → e ∈ a.entries :=
    fun hidx => List.mem_of_getElem? hidx
  -- a whole read is reported with its length, which depends on the bytes alone
  have hdone : ∀ (d : Bytes) (s : W₁) (d' : Bytes) (t : W₂), d = d' ∧ P₁ s ∧ P₂ t →
      Fallible.Abreast (pure (d.length, d) : Fallible W₁ Fault (ℕ × Bytes)) s
        (pure (d'.length, d')) t (fun r s r' t => r = r' ∧ P₁ s ∧ P₂ t)
        (fun s t => P₁ s ∧ P₂ t) := by
    rintro d s _ t ⟨rfl, hs, ht⟩
    exact ⟨rfl, hs, ht⟩
  -- and so is a read into a destination
  have hinto : ∀ (r : Unit × Bytes) (s : W₁) (r' : Unit × Bytes) (t : W₂),
      r = r' ∧ P₁ s ∧ P₂ t →
      Fallible.Abreast (pure (r.2.length, r.2) : Fallible W₁ Fault (ℕ × Bytes)) s
        (pure (r'.2.length, r'.2)) t (fun r s r' t => r = r' ∧ P₁ s ∧ P₂ t)
        (fun s t => P₁ s ∧ P₂ t) := by
    rintro r s _ t ⟨rfl, hs, ht⟩
    exact ⟨rfl, hs, ht⟩
  -- the scratch spaces may differ, as nothing that is read depends on them
  have hstart : ∀ {dst : Bytes} {scratch scratch' : ArchiveScratch},
      Twins P₁ P₂ ⟨w₁, dst, scratch⟩ ⟨w₂, dst, scratch'⟩ := ⟨hw₁, hw₂, rfl⟩
  cases request with
  | whole path =>
    refine Fallible.Abreast.bind (abreast_locate h ⟨hw₁, hw₂⟩ fun q idx e he hidx => ?_) hdone
    -- every chunk of the entry is touched
    exact readFound_abreast hp₁ hp₂ hin₁ hin₂ hw₁ hw₂ hidx fun i hi =>
      (hagree e he).sameChunk h (hmem hidx) hi fun _ _ => trivial
  | wholeById id =>
    refine Fallible.Abreast.bind ?_ hdone
    unfold readById
    refine Fallible.abreast_liftM_bind _ ⟨hw₁, hw₂⟩ fun idx hl =>
      Fallible.abreast_liftM_bind _ ⟨hw₁, hw₂⟩ fun e hidx => ?_
    -- the entry that the identifier names
    have he : entryById a id = .ok e := by rw [entryById, hl, ok_bind, hidx]
    have hidx := index_eq_ok_iff.mp hidx
    exact readFound_abreast hp₁ hp₂ hin₁ hin₂ hw₁ hw₂ hidx fun i hi =>
      (hagree e he).sameChunk h (hmem hidx) hi fun _ _ => trivial
  | wholeInto path dst scratch =>
    rw [Request.run_wholeInto, Request.run_wholeInto]
    refine Fallible.Abreast.bind (abreast_withDst (abreast_locate h hstart.siblings
      fun q idx e he hidx => ?_)) hinto
    refine (readEntryInto_abreast hp₁ hp₂ hin₁ hin₂ hidx (fun i hi => ?_) hstart).mono
      (fun _ _ _ _ htwins => ⟨rfl, htwins⟩) fun _ _ hE => hE
    exact (hagree e he).sameChunk h (hmem hidx) hi fun _ _ => trivial
  | chunk path i =>
    refine Fallible.Abreast.bind (abreast_locate h ⟨hw₁, hw₂⟩ fun q idx e he hidx => ?_) hdone
    exact readChunkFound_abreast hp₁ hp₂ hin₁ hin₂ hw₁ hw₂ hidx fun hi =>
      -- only chunk `i` is touched
      (hagree e he).sameChunk h (hmem hidx) hi fun _ _ => rfl
  | chunkInto path i dst scratch =>
    rw [Request.run_chunkInto, Request.run_chunkInto]
    refine Fallible.Abreast.bind (abreast_withDst (abreast_locate h hstart.siblings
      fun q idx e he hidx => ?_)) hinto
    refine (readChunkIntoFound_abreast hp₁ hp₂ hin₁ hin₂ hidx (fun hi => ?_)
      hstart.siblings).mono (fun _ _ _ _ htwins => ⟨rfl, htwins⟩) fun _ _ hE => hE
    exact (hagree e he).sameChunk h (hmem hidx) hi fun _ _ => rfl
  | range path offset len exact =>
    have hfound : ∀ q idx e, RasenArchive.entry D a path = .ok e → a.entries[idx]? = some e →
        Fallible.Abreast (readRangeFound D R₁ a idx (.path q) offset.toNat len.toNat exact) w₁
          (readRangeFound D R₂ a idx (.path q) offset.toNat len.toNat exact) w₂
          (fun d s d' t => d = d' ∧ P₁ s ∧ P₂ t) (fun s t => P₁ s ∧ P₂ t) := fun q idx e he hidx =>
      readRangeFound_abreast hp₁ hp₂ hin₁ hin₂ hw₁ hw₂ hidx fun n hn i hin hi =>
        -- a chunk that the loop goes through overlaps the range
        (hagree e he).sameChunk h (hmem hidx) hi fun chunk hchunk =>
          overlaps_of_rangeLen h hidx hn hin hchunk hi
    -- both calls for a range are the same one, with `exact` set or not
    cases exact with
    | true => exact Fallible.Abreast.bind (abreast_locate h ⟨hw₁, hw₂⟩ hfound) hdone
    | false => exact Fallible.Abreast.bind (abreast_locate h ⟨hw₁, hw₂⟩ hfound) hdone
  | rangeInto path offset dst hdst scratch =>
    rw [Request.run_rangeInto, Request.run_rangeInto]
    refine abreast_withDst (abreast_locate h hstart.siblings fun q idx e he hidx => ?_)
    exact readRangeIntoFound_abreast hp₁ hp₂ hin₁ hin₂ hidx hstart fun n hn i hin hi =>
      (hagree e he).sameChunk h (hmem hidx) hi fun chunk hchunk =>
        overlaps_of_rangeLen h hidx hn hin hchunk hi

end Requests

/-! ## How many chunks a request goes through -/

/-- Where a request for a range begins. -/
def Request.rangeStart : Request → Option ℕ
  | .range _ offset _ _ | .rangeInto _ offset _ _ _ => some offset.toNat
  | _ => none

section Counts

variable {D a} {R} {P : W → Prop} {w : W} {c : Bytes} {dst : Bytes} {scratch : ArchiveScratch}

theorem post_withDst {α : Type} {x : Fallible (ReadState W) Fault α} {Q : α × Bytes → W → Prop}
    {E : Fault → W → Prop} :
    Fallible.Post (withDst dst scratch x) w Q E ↔
      Fallible.Post x ⟨w, dst, scratch⟩ (fun v s => Q (v, s.dst) s.source)
        (fun f s => E f s.source) := by
  unfold Fallible.Post withDst
  rcases x ⟨w, dst, scratch⟩ with ⟨_ | v, s⟩ <;> rfl

/-- What is known about single chunks over a source that is watched, with the limit once a chunk was
read. -/
theorem counting (hp : Presents R P c) (hin : HoldsBlocks a c) :
    -- a range that is accepted touches no more chunks than one operation may
    TraceSpec D (recorded R) a
      (fun done s => (P s.1 ∧ s.2 = done.map (windowOf a)) ∧
        (done ≠ [] → 1 ≤ a.maxChunksPerOperation))
      (fun g d => chunkContent D a c g = some d)
      fun label l g f => chunkOutcome D a c label l g = .error f where
  length_eq := (deciding hp hin).length_eq
  read {label l g chunk s done} hlimit hchunk hdst hinv := by
    refine ((recording hp hin []).read hlimit hchunk hdst hinv.1).mono ?_ ?_
    · -- a chunk was read, so the limit of one chunk was passed
      rintro _ s' ⟨hsrc, hd⟩
      exact ⟨⟨hsrc, fun _ => hlimit⟩, hd⟩
    · rintro f s' ⟨hsrc, hlen, hf⟩
      exact ⟨⟨hsrc, fun _ => hlimit⟩, hlen, hf⟩

/-- The record of a range that was returned. -/
theorem length_record_of_range (h : WellFormed D a) {path : String} {e : Entry}
    (he : entry D a path = .ok e) {offset len n : ℕ} {exact : Bool}
    (hacc : RangeAccepted a e offset len exact n) :
    ((touchedNumbers a e offset n).map (windowOf a)).length ≤ a.maxChunksPerOperation ∧
      ((touchedNumbers a e offset n).map (windowOf a)).length = overlappingChunks a e offset n := by
  obtain ⟨q, idx, -, hidx⟩ := exists_locate he
  obtain ⟨hle, -, -, hlen, htouched⟩ := hacc
  have hcount : ((touchedNumbers a e offset n).map (windowOf a)).length =
      touched a.chunkSize.toNat offset n := by
    rw [List.length_map, touchedNumbers, List.length_range']
  rw [hcount]
  exact ⟨htouched, touched_eq_overlappingChunks h (List.mem_of_getElem? hidx) (by omega)⟩

/-- A call for no range, whose record is short enough however it ends. -/
theorem post_unranged {α : Type} {x : Fallible (W × List (ℕ × ℕ)) Fault α}
    {s : W × List (ℕ × ℕ)} {f : α → ℕ × Bytes} {Q : ℕ → ℕ × Bytes → W × List (ℕ × ℕ) → Prop}
    (h : Fallible.Post x s (fun _ s => s.2.length ≤ a.maxChunksPerOperation)
      fun _ s => s.2.length ≤ a.maxChunksPerOperation) :
    Fallible.Post (x >>= fun d => pure (f d)) s
      (fun r s => s.2.length ≤ a.maxChunksPerOperation ∧
        ∀ offset, (none : Option ℕ) = some offset → Q offset r s)
      fun _ s => s.2.length ≤ a.maxChunksPerOperation := by
  refine h.bind fun d s hd => ⟨hd, ?_⟩
  intro offset hstart
  cases hstart

/-- **How many chunks are read** for a request: as many as a range overlaps that is returned, and
never more than one operation may. -/
theorem Request.run_counts (h : WellFormed D a) (hp : Presents R P c) (hin : HoldsBlocks a c)
    (hw : P w) (request : Request) :
    Fallible.Post (request.run D (recorded R) a) (w, [])
      (fun r s => s.2.length ≤ a.maxChunksPerOperation ∧
        ∀ offset, request.rangeStart = some offset → ∃ e, request.entry D a = .ok e ∧
          s.2.length = overlappingChunks a e offset r.1)
      (fun _ s => s.2.length ≤ a.maxChunksPerOperation) := by
  -- the record lists the windows of the chunks that were read, in order
  have hspec := counting (D := D) hp hin
  -- no chunk was read yet
  have hnil : (P (w, ([] : List (ℕ × ℕ))).1 ∧
      (w, ([] : List (ℕ × ℕ))).2 = ([] : List ℕ).map (windowOf a)) ∧
      (([] : List ℕ) ≠ [] → 1 ≤ a.maxChunksPerOperation) := ⟨⟨hw, rfl⟩, fun hne => absurd rfl hne⟩
  -- a call that fails has gone through no more chunks than one operation may
  have hbounded : ∀ s : W × List (ℕ × ℕ), Bounded a (fun done s =>
      (P s.1 ∧ s.2 = done.map (windowOf a)) ∧ (done ≠ [] → 1 ≤ a.maxChunksPerOperation)) s →
      s.2.length ≤ a.maxChunksPerOperation := by
    rintro s ⟨done, hle, ⟨-, hs⟩, -⟩
    rw [hs, List.length_map]
    exact hle
  cases request with
  | whole path =>
    refine post_unranged ((read_post hspec h hnil).mono ?_ fun f s hf => hbounded s hf.1)
    -- the record is that of the chunks of the entry, whose number was checked
    rintro d s ⟨e, -, hlimit, ⟨⟨-, hs⟩, -⟩, -⟩
    rw [hs]
    simpa [TocEntry.chunkNumbers] using hlimit
  | wholeById id =>
    refine post_unranged ((readById_post hspec h hnil id).mono ?_ fun f s hf => hbounded s hf.1)
    rintro d s ⟨e, -, hlimit, ⟨⟨-, hs⟩, -⟩, -⟩
    rw [hs]
    simpa [TocEntry.chunkNumbers] using hlimit
  | wholeInto path dst scratch =>
    rw [Request.run_wholeInto]
    refine post_unranged (post_withDst.mpr ?_)
    refine (readIntoWithScratch_post hspec h hnil).mono ?_ fun f s hf => hbounded _ hf.1
    rintro d s ⟨e, -, hlimit, ⟨⟨-, hs⟩, -⟩, -⟩
    rw [hs]
    simpa [TocEntry.chunkNumbers] using hlimit
  | chunk path i =>
    refine post_unranged ((readChunk_post hspec h hnil i).mono ?_ fun f s hf => hbounded s hf.1)
    -- one chunk was read, and the limit is at least one
    rintro d s ⟨e, -, -, ⟨⟨-, hs⟩, hlimit⟩, -⟩
    rw [hs]
    exact hlimit (by simp)
  | chunkInto path i dst scratch =>
    rw [Request.run_chunkInto]
    refine post_unranged (post_withDst.mpr ?_)
    refine (readChunkIntoWithScratch_post hspec h hnil i).mono ?_ fun f s hf => hbounded _ hf.1
    rintro d s ⟨e, -, -, ⟨⟨-, hs⟩, hlimit⟩, -⟩
    rw [hs]
    exact hlimit (by simp)
  | range path offset len exact =>
    have hpost : Fallible.Post (if exact then readRangeExact D (recorded R) a path offset len
        else readRange D (recorded R) a path offset len) (w, [])
        (fun d s => s.2.length ≤ a.maxChunksPerOperation ∧ ∃ e, RasenArchive.entry D a path = .ok e ∧
          s.2.length = overlappingChunks a e offset.toNat d.length)
        (fun _ s => s.2.length ≤ a.maxChunksPerOperation) := by
      refine (readRange_post hspec h hnil offset len exact).mono ?_ fun f s hf => hbounded s hf.1
      -- the record is that of the chunks the accepted range touches
      rintro d s ⟨e, he, ⟨⟨-, hs⟩, -⟩, hacc, -⟩
      rw [hs]
      obtain ⟨hle, hcount⟩ := length_record_of_range h he hacc
      exact ⟨hle, e, he, hcount⟩
    have hfinish : ∀ (d : Bytes) (s : W × List (ℕ × ℕ)), (s.2.length ≤ a.maxChunksPerOperation ∧
        ∃ e, RasenArchive.entry D a path = .ok e ∧
          s.2.length = overlappingChunks a e offset.toNat d.length) →
        Fallible.Post (pure (d.length, d) : Fallible (W × List (ℕ × ℕ)) Fault (ℕ × Bytes)) s
          (fun r s => s.2.length ≤ a.maxChunksPerOperation ∧ ∀ start,
            some offset.toNat = some start → ∃ e, RasenArchive.entry D a path = .ok e ∧
              s.2.length = overlappingChunks a e start r.1)
          (fun _ s => s.2.length ≤ a.maxChunksPerOperation) := by
      rintro d s ⟨hle, hentry⟩
      refine ⟨hle, ?_⟩
      rintro start ⟨⟩
      exact hentry
    cases exact with
    | true => exact Fallible.Post.bind hpost hfinish
    | false => exact Fallible.Post.bind hpost hfinish
  | rangeInto path offset dst hdst scratch =>
    rw [Request.run_rangeInto]
    refine post_withDst.mpr ?_
    refine (readRangeWithScratch_post hspec h hnil offset hdst).mono ?_ fun f s hf => hbounded _ hf.1
    rintro n s ⟨e, he, ⟨⟨-, hs⟩, -⟩, hacc, -⟩
    obtain ⟨hle, hcount⟩ := length_record_of_range h he hacc
    rw [hs]
    refine ⟨hle, ?_⟩
    rintro start ⟨⟩
    exact ⟨e, he, hcount⟩

end Counts

/-- **Independence of chunks.** Two byte strings of one length with the same header and the same
stored table of contents open alike. A request on the open archive comes to the same on both when
they agree on the stored extents of the chunks that it overlaps. A range that is returned was read
from as many chunks as it overlaps, and no request goes through more chunks than one operation
may. -/
theorem chunk_independence (D : Dependencies) {key : Bytes} {limits : ArchiveLimits}
    {c₁ c₂ : Bytes} (hlen : c₁.length = c₂.length)
    (hheader : c₁.take headerSize = c₂.take headerSize)
    (htoc : ∀ header, (readHeader (c₁.take headerSize)).1 = .ok header →
      c₁.extract header.tocOffset.toNat (header.tocOffset.toNat + header.tocSize.toNat) =
        c₂.extract header.tocOffset.toNat (header.tocOffset.toNat + header.tocSize.toNat)) :
    (openWithLimits D sliceSource key limits c₁).1 =
        (openWithLimits D sliceSource key limits c₂).1 ∧
      ∀ a w, openWithLimits D sliceSource key limits c₁ = (.ok a, w) → ∀ request : Request,
        ((∀ e, request.entry D a = .ok e → AgreeOn a c₁ c₂ e (request.Touches a)) →
          (request.run D sliceSource a c₁).1 = (request.run D sliceSource a c₂).1) ∧
        (request.run D (recorded sliceSource) a (c₁, [])).2.2.length ≤ a.maxChunksPerOperation ∧
        ∀ offset n d s, request.rangeStart = some offset →
          request.run D (recorded sliceSource) a (c₁, []) = (.ok (n, d), s) →
          ∃ e, request.entry D a = .ok e ∧ s.2.length = overlappingChunks a e offset n := by
  -- opening reads the header and the table only, which are the same in both
  have hopen : Fallible.Alike (openWithLimits D sliceSource key limits) c₁
      (openWithLimits D sliceSource key limits) c₂ _ := openWithLimits_alike hlen hheader htoc
  refine ⟨hopen.result_eq fun a s b t hab => hab.1, fun a w ha request => ?_⟩
  have h := openWithLimits_wellFormed ha
  -- the blocks of the table lie in both, as they are of one length
  have hin₁ := holds_of_open (sliceSource_presents c₁) rfl ha
  have hin₂ : HoldsBlocks a c₂ := by
    intro chunk hchunk
    rw [← hlen]
    exact hin₁ chunk hchunk
  have hcounts := request.run_counts h (sliceSource_presents c₁) hin₁ rfl
  refine ⟨fun hagree => ?_, ?_, ?_⟩
  · -- the two runs go side by side, and end alike
    have hrun := request.run_abreast (sliceSource_presents c₁) (sliceSource_presents c₂) hin₁ hin₂
      rfl rfl h hagree
    exact hrun.alike.result_eq fun _ _ _ _ heq => heq.1
  · -- both endings keep the record short
    rcases hr : request.run D (recorded sliceSource) a (c₁, []) with ⟨f | r, s⟩
    · exact hcounts.of_error hr
    · exact (hcounts.of_ok hr).1
  · intro offset n d s hstart hr
    exact (hcounts.of_ok hr).2 offset hstart

/-- The small archive with its second chunk damaged. -/
def damagedBytes : Bytes :=
  encodeHeader smallHeader ++ [1, 2, 9] ++ xorBytes (Lz4.literals smallToc) smallKey

/-- The range in the first chunk of the small archive is the same after damage to the second. -/
theorem chunk_independence_small :
    (openWithLimits reference sliceSource smallKey .runtimeDefault smallBytes).1 =
        (openWithLimits reference sliceSource smallKey .runtimeDefault damagedBytes).1 ∧
      ((Request.range "a" 0 2 false).run reference sliceSource smallArchive smallBytes).1 =
        ((Request.range "a" 0 2 false).run reference sliceSource smallArchive damagedBytes).1 := by
  have hread : (readHeader (smallBytes.take headerSize)).1 = .ok smallHeader := by decide +kernel
  have htoc : ∀ header, (readHeader (smallBytes.take headerSize)).1 = .ok header →
      smallBytes.extract header.tocOffset.toNat (header.tocOffset.toNat + header.tocSize.toNat) =
        damagedBytes.extract header.tocOffset.toNat
          (header.tocOffset.toNat + header.tocSize.toNat) := by
    intro header hh
    cases hread.symm.trans hh
    decide +kernel
  obtain ⟨hopen, hrequest⟩ := @chunk_independence reference smallKey .runtimeDefault smallBytes
    damagedBytes (by decide +kernel) (by decide +kernel) htoc
  refine ⟨hopen, (hrequest smallArchive smallBytes openWithLimits_small _).1 fun e he => ?_⟩
  have hentry : entry reference smallArchive "a" = .ok ⟨"a", foldHash [97], 3, 3, 0, 2⟩ := by
    decide +kernel
  cases hentry.symm.trans he
  intro i chunk hi hchunk hover
  -- the second chunk begins behind the range
  have hzero : i = 0 := by
    have hlt := hover.2.1
    change i * 2 < 0 + 2 at hlt
    omega
  subst hzero
  have hfirst : smallArchive.chunks[0]? = some ⟨60, 2, 2, foldHash [1, 2], false⟩ := rfl
  cases hfirst.symm.trans hchunk
  decide +kernel

end RasenArchive
