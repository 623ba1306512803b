import RasenArchive.Pack.Turn

/-!
# Adding assets

`add_reader` refuses a path that is not valid, or that the archive has no room for beside the paths
it has. Otherwise it stores one block for each piece that the reader gives, and one entry.

## Main definitions

* `refusal D mode added path`: the error for a path after these normal paths, if it is refused
* `Packs D B assets s`: the packer holds these assets

## Main results

* `addChunks_post`: the loop of `add_reader` stores the pieces that the reader gives
* `checkSeen_post`: the hashes seen so far decide what a comparison with all paths decides
* `addReader_post`: a call adds the asset, or is refused
-/

namespace RasenArchive

section

variable {D : Dependencies} {B : Sealing} {blocks : List Block} {s s' : PackState Device}

theorem SameAssets.trans {s₁ : PackState Device} (h : SameAssets s s₁) (h' : SameAssets s₁ s') :
    SameAssets s s' :=
  ⟨h'.entries.trans h.entries, h'.seenHashes.trans h.seenHashes, h'.failed.trans h.failed,
    fun hd => h'.healthy (h.healthy hd)⟩

/-- The state after a call of `read_chunk`. -/
def PackState.withReader (s : PackState Device) (raw : Bytes) (reader : List ReadEvent) :
    PackState Device :=
  { s with packer := { s.packer with raw := raw }, reader := reader }

theorem Stores.withReader (h : Stores D B blocks s) {raw : Bytes} (reader : List ReadEvent)
    (hraw : raw.length = s.packer.raw.length) : Stores D B blocks (s.withReader raw reader) :=
  ⟨h.key, h.aeadKey, h.options, hraw.trans h.raw_length, h.compressed_length, h.chunks, h.offset,
    h.offset_lt, h.bytes, h.pos, h.entropy, h.seals, h.count_lt⟩

/-- **A call of `read_chunk`** leaves the next piece of the reader in the buffer. -/
theorem Pack.readChunk_post (s : PackState Device) :
    Fallible.Post (onReader Pack.readChunk) s
      (fun n s' => ∃ piece raw reader', nextFill s.packer.raw.length s.reader [] =
          (.ok piece, reader') ∧ n = piece.length ∧ raw.length = s.packer.raw.length ∧
        raw.take piece.length = piece ∧ s' = s.withReader raw reader')
      (fun f s' => ∃ raw reader', nextFill s.packer.raw.length s.reader [] = (.error f, reader') ∧
        s' = s.withReader raw reader') := by
  rw [onReader, Fallible.post_focus]
  unfold Fallible.Post
  obtain ⟨raw, hlen, ⟨piece, reader', hfill, hle, hfront, heq⟩ | ⟨f, reader', hfill, heq⟩⟩ :=
    Pack.readChunk_eq s.packer.raw s.reader
  · rw [heq]
    refine ⟨piece, raw, reader', hfill, rfl, hlen, ?_, rfl⟩
    rw [List.extract_eq_take_drop] at hfront
    simpa using hfront
  · rw [heq]
    exact ⟨raw, reader', hfill, rfl⟩

/-- The file keeps its bytes when blocks are added. -/
theorem Stores.keeps {new : List Block} (h : Stores D B blocks s)
    (h' : Stores D B (blocks ++ new) s') : s.writer.bytes <+: s'.writer.bytes := by
  rw [h.bytes, h'.bytes, body_append, ← List.append_assoc]
  exact List.prefix_append _ _

/-- There is always room for nothing. -/
theorem Stores.storable_nil {totals : Totals} (h : Stores D B blocks s)
    (htotals : totals.original < 2 ^ 64 ∧ totals.stored < 2 ^ 64) :
    Storable D B blocks totals [] := by
  have hnil : totals.add [] = totals := by simp [Totals.add]
  refine ⟨?_, ?_, ?_, ?_, ?_⟩
  · intro i b hi
    cases hi
  · simpa using h.offset_lt
  · simpa using h.count_lt
  · rw [hnil]
    exact htotals.1
  · rw [hnil]
    exact htotals.2

/-- **The loop of `add_reader_inner`** stores one block for each piece that the reader gives, where
there is room for them. It fails only where there is none, or the reader or the file fails. -/
theorem addChunks_post (hv : B.options.Valid) {turns : ℕ} {totals : Totals}
    (h : Stores D B blocks s) (htotals : totals.original < 2 ^ 64 ∧ totals.stored < 2 ^ 64)
    (hturns : readerSize s.reader < turns) :
    Fallible.Post (addChunks D deviceDestination turns totals) s
      (fun totals' s' => ∃ new, Storable D B blocks totals new ∧ Stores D B (blocks ++ new) s' ∧
        Fills B.options.chunkSize s.reader (new.map Block.content) ∧ SameAssets s s' ∧
        totals' = totals.add new)
      (fun _ s' => s.writer.bytes <+: s'.writer.bytes ∧
        ¬ (s.writer.Healthy ∧ ∃ new, Fills B.options.chunkSize s.reader (new.map Block.content) ∧
          Storable D B blocks totals new)) := by
  -- induction on the turns, of which the reader leaves enough
  induction turns generalizing blocks s totals with
  | zero => omega
  | succ turns ih =>
    rw [addChunks, Fallible.post_bind]
    refine (Pack.readChunk_post s).mono ?_ ?_
    swap
    · -- the reader fails, in front of any end that it could have
      rintro f _ ⟨raw, reader', hfill, rfl⟩
      refine ⟨List.prefix_rfl, ?_⟩
      rintro ⟨-, new, hfills, -⟩
      rw [h.raw_length] at hfill
      exact hfills.no_error hfill
    rintro _ _ ⟨piece, raw, reader', hfill, rfl, hraw, hfront, rfl⟩
    have hstores := h.withReader reader' hraw
    rw [h.raw_length] at hfill
    -- an empty piece is the end of the content
    by_cases hne : piece = []
    · subst hne
      rw [List.length_nil, if_pos rfl, Fallible.post_pure]
      have hnil : totals.add [] = totals := by simp [Totals.add]
      exact ⟨[], h.storable_nil htotals, by simpa using hstores, .done hfill, ⟨rfl, rfl, rfl, id⟩,
        hnil.symm⟩
    · have hlen : piece.length ≠ 0 := by simpa using hne
      rw [if_neg hlen, Fallible.post_bind]
      refine (addChunk_post hv hstores hne hfront totals).mono ?_ ?_
      swap
      · -- there is no room for the first piece
        rintro f s₁ ⟨hkeep, hbad⟩
        refine ⟨hkeep, ?_⟩
        rintro ⟨hhealthy, new, hfills, hroom⟩
        -- any blocks with these contents begin with one for the piece
        obtain ⟨rest, hnew, -⟩ := hfills.uncons hfill hne
        obtain ⟨b, new, rfl, rfl, rfl⟩ := List.map_eq_cons_iff.mp hnew
        exact hbad ⟨hhealthy, b, rfl, ((storable_cons hv).mp hroom).1⟩
      rintro _ s₁ ⟨b, rfl, hroom, hs₁, hsame, hreader, rfl⟩
      -- the reader shrinks with every piece, so the turns suffice
      have hsize := readerSize_lt hfill hne
      have hreader' : s₁.reader = reader' := hreader
      have hrun := ih hs₁ ⟨hroom.original_lt, hroom.stored_lt⟩ (by rw [hreader']; omega)
      rw [hreader'] at hrun
      refine hrun.mono ?_ ?_
      · -- the rest is stored behind the first block
        rintro _ s₂ ⟨new, hrooms, hs₂, hfills, hsame₂, rfl⟩
        refine ⟨b :: new, (storable_cons hv).mpr ⟨hroom, hrooms⟩, by simpa using hs₂,
          .more hfill hne hfills, ?_, ?_⟩
        · exact SameAssets.trans (show SameAssets s s₁ from
            ⟨hsame.entries, hsame.seenHashes, hsame.failed, hsame.healthy⟩) hsame₂
        · simp [Totals.add, Nat.add_assoc]
      · rintro f s₂ ⟨hkeep, hbad⟩
        refine ⟨(hstores.keeps hs₁).trans hkeep, ?_⟩
        rintro ⟨hhealthy, new, hfills, hrooms⟩
        obtain ⟨rest, hnew, hrest⟩ := hfills.uncons hfill hne
        obtain ⟨c, new, rfl, hcontent, rfl⟩ := List.map_eq_cons_iff.mp hnew
        obtain ⟨hc, hlater⟩ := (storable_cons hv).mp hrooms
        -- the first of those blocks is the one that was stored
        obtain rfl : c = b := hc.seals_singleton.unique hroom.seals_singleton hcontent
        exact hbad ⟨hsame.healthy hhealthy, new, hrest, hlater⟩

end

/-! ## Refused paths -/

variable (D : Dependencies)

/-- The hash of a path in normal form. -/
def pathHash (path : String) : UInt64 := checksum D (asBytes path)

/-- The error for a path that is valid, after the normal paths `added`. -/
def refusalNormal (mode : PackMode) (added : List String) (path : String) : Option Error :=
  if path ∈ added then some (.duplicatePath path)
  else if mode = .production ∧ pathHash D path ∈ added.map (pathHash D) then
    some (.hashCollision (pathHash D path))
  else none

/-- **The error that a path is refused with**, after the normal paths `added`. -/
def refusal (mode : PackMode) (added : List String) (path : String) : Option Error :=
  match normalizePath path with
  | .error _ => some .invalidPath
  | .ok normal => refusalNormal D mode added normal

variable {D} {B : Sealing} {assets : List Asset} {s s' : PackState Device} {path : String}

/-- The sizes of an asset. -/
def Asset.totals (a : Asset) : Totals := Totals.add ⟨0, 0⟩ a.blocks

/-- The packer holds these assets: their blocks are stored, their entries recorded, and no two of
them get in the way of each other. -/
structure Packs (D : Dependencies) (B : Sealing) (assets : List Asset)
    (s : PackState Device) : Prop where
  stores : Stores D B (allBlocks assets) s
  entries : s.packer.entries = entryTable D 0 assets
  seenHashes : ∀ h, h ∈ s.packer.seenHashes ↔ h ∈ (assets.map Asset.path).map (pathHash D)
  failed : s.packer.failed = false
  sizes : ∀ a ∈ assets, a.totals.original < 2 ^ 64 ∧ a.totals.stored < 2 ^ 64
  normal : ∀ a ∈ assets, normalizePath a.path = .ok a.path
  paths : (assets.map Asset.path).Nodup
  hashes : B.options.mode = .production → ((assets.map Asset.path).map (pathHash D)).Nodup
  count_lt : assets.length < 2 ^ 32

/-- **A fresh packer** holds no assets. -/
theorem packs_newPacker {key : Bytes} {options : PackOptions} {d d' : Device} {p : Packer}
    (h : newPacker D deviceDestination key options d = (.ok p, d')) (entropy : Entropy)
    (reader : List ReadEvent) :
    key ≠ [] ∧ options.Valid ∧ (d.Healthy → d'.Healthy) ∧
      Packs D ⟨key, options, entropy⟩ [] ⟨p, d', entropy, reader⟩ := by
  obtain ⟨hkey, hv, rfl, hbytes, hpos, hhealthy⟩ :=
    (newPacker_post (bytes_eq_nil_of_newPacker h)).of_ok h
  refine ⟨hkey, hv, hhealthy, ⟨rfl, rfl, rfl, List.length_replicate, List.length_replicate, rfl,
    rfl, ?_, ?_, ?_, ?_, ?_, ?_⟩, rfl, ?_, rfl, nofun, nofun, List.nodup_nil,
    fun _ => List.nodup_nil, ?_⟩
  · exact show headerSize < 2 ^ 64 by decide
  · show d'.bytes = _
    rw [hbytes]
    exact (List.append_nil _).symm
  · show d'.pos = d'.bytes.length
    rw [hpos, hbytes, List.length_replicate]
  · -- no random bytes were drawn yet
    unfold Sealing.entropyAfter
    cases options.protection with
    | xor => rfl
    | aead => simp [allBlocks]
  · rintro g b ⟨⟩
  · exact show 0 < 2 ^ 32 by decide
  · intro hash
    simp [freshPacker]
  · exact show 0 < 2 ^ 32 by decide

/-- The comparison with the entries finds the path among those of the assets. -/
theorem any_entryTable (path : String) (first : ℕ) (assets : List Asset) :
    ((entryTable D first assets).any fun entry =>
        decide (entry.pathHash = pathHash D path) && decide (entry.path = path)) =
      decide (path ∈ assets.map Asset.path) := by
  induction assets generalizing first with
  | nil => simp [entryTable]
  | cons a assets ih =>
    -- the hashes are compared first, and the paths only behind equal hashes
    have hentry : (decide ((assetEntry D first a).pathHash = pathHash D path) &&
        decide ((assetEntry D first a).path = path)) = decide (path = a.path) := by
      rw [Bool.eq_iff_iff, Bool.and_eq_true, decide_eq_true_iff, decide_eq_true_iff,
        decide_eq_true_iff]
      constructor
      · rintro ⟨-, rfl⟩
        rfl
      · rintro rfl
        exact ⟨rfl, rfl⟩
    rw [entryTable, List.any_cons, ih, hentry, List.map_cons]
    simp [List.mem_cons]

/-- The state after a hash was seen. -/
def PackState.withHash (s : PackState Device) (h : UInt64) : PackState Device :=
  { s with packer := { s.packer with seenHashes := insert h s.packer.seenHashes } }

/-- **The set of hashes** decides what a comparison with all paths decides. -/
theorem checkSeen_post (h : Packs D B assets s) (path : String) :
    Fallible.Post (checkSeen path (pathHash D path)) s
      (fun _ s' => refusalNormal D B.options.mode (assets.map Asset.path) path = none ∧
        s' = s.withHash (pathHash D path))
      (fun f s' => s'.writer = s.writer ∧
        ∃ e, refusalNormal D B.options.mode (assets.map Asset.path) path = some e ∧
          f = .error e) := by
  unfold checkSeen refusalNormal
  rw [Fallible.post_bind, Fallible.post_gets, id, Fallible.post_bind, Fallible.post_modify,
    h.entries, any_entryTable, h.stores.options]
  -- the hash was seen before: the path is compared with all entries
  by_cases hseen : pathHash D path ∈ s.packer.seenHashes
  · have hhash := (h.seenHashes _).mp hseen
    rw [if_pos hseen, Fallible.post_liftM_bind]
    refine ⟨fun _ hd => ?_, fun f hd => ⟨rfl, ?_⟩⟩
    · rw [ensure_eq_ok_iff, decide_eq_false_iff_not] at hd
      rw [if_neg hd, Fallible.post_liftM]
      refine ⟨fun _ hm => ?_, fun f hm => ⟨rfl, ?_⟩⟩
      · -- another path with this hash is refused in production only
        have hdebug : B.options.mode ≠ .production := by
          intro hp
          rw [hp, ensure_eq_ok_iff] at hm
          cases hm
        exact ⟨if_neg fun hc => hdebug hc.1, rfl⟩
      · obtain ⟨hstrips, rfl⟩ := ensure_eq_error_iff.mp hm
        have hprod : B.options.mode = .production := by
          cases hmode : B.options.mode with
          | debug => exact absurd (by rw [hmode]; rfl) hstrips
          | production => rfl
        exact ⟨_, if_pos ⟨hprod, hhash⟩, rfl⟩
    · -- the path was added before
      obtain ⟨hdup, rfl⟩ := ensure_eq_error_iff.mp hd
      rw [decide_eq_false_iff_not, not_not] at hdup
      exact ⟨_, if_pos hdup, rfl⟩
  · -- a hash that was not seen is not the hash of any of the paths
    have hhash : pathHash D path ∉ (assets.map Asset.path).map (pathHash D) :=
      fun hc => hseen ((h.seenHashes _).mpr hc)
    have hpath : path ∉ assets.map Asset.path := fun hc => hhash (List.mem_map_of_mem hc)
    rw [if_neg hseen, Fallible.post_pure, if_neg hpath, if_neg fun hc => hhash hc.2]
    exact ⟨rfl, rfl⟩

/-! ## One asset more -/

theorem Packs.length_chunks (h : Packs D B assets s) :
    s.packer.chunks.length = (allBlocks assets).length := by
  rw [h.stores.chunks, length_chunkTable]

theorem allBlocks_append (assets : List Asset) (a : Asset) :
    allBlocks (assets ++ [a]) = allBlocks assets ++ a.blocks := by
  simp [allBlocks]

/-- The state with one entry more. -/
def PackState.withEntry (s : PackState Device) (entry : TocEntry) : PackState Device :=
  { s with packer := { s.packer with entries := s.packer.entries ++ [entry] } }

theorem Stores.withHash {blocks : List Block} (h : Stores D B blocks s) (hash : UInt64) :
    Stores D B blocks (s.withHash hash) :=
  ⟨h.key, h.aeadKey, h.options, h.raw_length, h.compressed_length, h.chunks, h.offset,
    h.offset_lt, h.bytes, h.pos, h.entropy, h.seals, h.count_lt⟩

theorem Stores.withEntry {blocks : List Block} (h : Stores D B blocks s) (entry : TocEntry) :
    Stores D B blocks (s.withEntry entry) :=
  ⟨h.key, h.aeadKey, h.options, h.raw_length, h.compressed_length, h.chunks, h.offset,
    h.offset_lt, h.bytes, h.pos, h.entropy, h.seals, h.count_lt⟩

/-- **One asset more**: its hash was seen, its blocks were stored and its entry was recorded. -/
theorem Packs.append (h : Packs D B assets s) {a : Asset}
    (hnormal : normalizePath a.path = .ok a.path)
    (hsize : a.totals.original < 2 ^ 64 ∧ a.totals.stored < 2 ^ 64)
    (hok : refusalNormal D B.options.mode (assets.map Asset.path) a.path = none)
    (hstores : Stores D B (allBlocks assets ++ a.blocks) s')
    (hsame : SameAssets (s.withHash (pathHash D a.path)) s') (hcount : assets.length + 1 < 2 ^ 32) :
    Packs D B (assets ++ [a]) (s'.withEntry (assetEntry D (allBlocks assets).length a)) := by
  -- the path is new, and under production its hash is
  have hnew : a.path ∉ assets.map Asset.path ∧ ¬ (B.options.mode = .production ∧
      pathHash D a.path ∈ (assets.map Asset.path).map (pathHash D)) := by
    unfold refusalNormal at hok
    split_ifs at hok with hp hh
    exact ⟨hp, hh⟩
  refine ⟨?_, ?_, fun hash => ?_, ?_, ?_, ?_, ?_, fun hmode => ?_, ?_⟩
  · rw [allBlocks_append]
    exact hstores.withEntry _
  · show s'.packer.entries ++ _ = _
    rw [hsame.entries, entryTable_append, Nat.zero_add]
    exact congrArg (· ++ _) h.entries
  · show hash ∈ s'.packer.seenHashes ↔ _
    -- the hash joins the set, and the path the list
    have hinsert : s'.packer.seenHashes = insert (pathHash D a.path) s.packer.seenHashes :=
      hsame.seenHashes
    rw [hinsert, Finset.mem_insert, h.seenHashes, List.map_append, List.map_append,
      List.mem_append, List.map_singleton, List.map_singleton, List.mem_singleton, or_comm]
  · exact hsame.failed.trans h.failed
  · intro b hb
    rcases List.mem_append.mp hb with hb | hb
    · exact h.sizes b hb
    · rw [List.mem_singleton.mp hb]
      exact hsize
  · intro b hb
    rcases List.mem_append.mp hb with hb | hb
    · exact h.normal b hb
    · rw [List.mem_singleton.mp hb]
      exact hnormal
  · rw [List.map_append, List.map_singleton, ← List.concat_eq_append, List.nodup_concat]
    exact ⟨hnew.1, h.paths⟩
  · rw [List.map_append, List.map_append, List.map_singleton, List.map_singleton,
      ← List.concat_eq_append, List.nodup_concat]
    exact ⟨fun hh => hnew.2 ⟨hmode, hh⟩, h.hashes hmode⟩
  · rw [List.length_append]
    exact hcount

/-- **A call of `add_reader_inner`** adds the asset, or is refused; otherwise it fails only where the
reader or the file does, or there is no room for the asset. -/
theorem addReaderInner_post (hv : B.options.Valid) (h : Packs D B assets s) (path : String) :
    Fallible.Post (addReaderInner D deviceDestination path) s
      (fun _ s' => ∃ a, normalizePath path = .ok a.path ∧
        refusal D B.options.mode (assets.map Asset.path) path = none ∧
        Fills B.options.chunkSize s.reader (a.blocks.map Block.content) ∧
        Packs D B (assets ++ [a]) s' ∧ (s.writer.Healthy → s'.writer.Healthy))
      (fun f s' => s.writer.bytes <+: s'.writer.bytes ∧
        ((∃ e, refusal D B.options.mode (assets.map Asset.path) path = some e ∧ f = .error e ∧
            s'.writer = s.writer) ∨
          refusal D B.options.mode (assets.map Asset.path) path = none ∧
            ¬ (s.writer.Healthy ∧ assets.length + 1 < 2 ^ 32 ∧
              ∃ new, Fills B.options.chunkSize s.reader (new.map Block.content) ∧
                Storable D B (allBlocks assets) ⟨0, 0⟩ new))) := by
  unfold addReaderInner refusal
  rw [Fallible.post_liftM_bind]
  refine ⟨fun q hq => ?_, fun f hq => ⟨List.prefix_rfl, Or.inl ⟨.invalidPath, ?_, ?_, rfl⟩⟩⟩
  swap
  · -- a path that is not valid has no hash
    rw [hq]
  swap
  · exact normalizePath_error hq
  rw [hq, Fallible.post_bind]
  refine (checkSeen_post h q).mono ?_ ?_
  swap
  · -- the path is a duplicate, or its hash collides
    rintro f s₁ ⟨hwriter, e, he, rfl⟩
    exact ⟨by rw [hwriter], Or.inl ⟨e, he, rfl, hwriter⟩⟩
  rintro _ _ ⟨hok, rfl⟩
  have hstores := h.stores.withHash (pathHash D q)
  have hchunks : (s.withHash (pathHash D q)).packer.chunks.length = (allBlocks assets).length :=
    h.length_chunks
  have hfirst : usizeToU32 (s.withHash (pathHash D q)).packer.chunks.length "chunk index" =
      .ok (allBlocks assets).length :=
    usizeToU32_eq_ok_iff.mpr ⟨hchunks ▸ h.stores.count_lt, hchunks⟩
  rw [Fallible.post_bind, Fallible.post_gets, id, Fallible.post_liftM_bind_of_ok hfirst,
    Fallible.post_bind]
  refine (@addChunks_post D B _ _ hv (readerSize s.reader + 1) ⟨0, 0⟩ hstores
    ⟨by decide, by decide⟩ (Nat.lt_succ_self _)).mono ?_ ?_
  swap
  · -- the chunks were not all stored
    rintro f s₂ ⟨hkeep, hbad⟩
    exact ⟨hkeep, Or.inr ⟨hok, fun ⟨hhealthy, _, hroom⟩ => hbad ⟨hhealthy, hroom⟩⟩⟩
  rintro _ s₂ ⟨new, hroom, hs₂, hfills, hsame, rfl⟩
  -- the chunks that were recorded since are the blocks of the asset
  -- so the count of the entry is that of its blocks
  have hchunks₂ : s₂.packer.chunks.length = (allBlocks assets).length + new.length := by
    rw [hs₂.chunks, length_chunkTable, List.length_append]
  have hnew : (allBlocks assets).length + new.length < 2 ^ 32 := by
    rw [← List.length_append]
    exact hs₂.count_lt
  have hsub : okOr (checkedSub s₂.packer.chunks.length
      (s.withHash (pathHash D q)).packer.chunks.length) (.tooLarge "entry chunk count") =
      .ok new.length := by
    rw [okOr_eq_ok_iff, checkedSub_eq_some_iff, hchunks, hchunks₂]
    omega
  have hcount : usizeToU32 new.length "entry chunk count" = .ok new.length :=
    usizeToU32_eq_ok_iff.mpr ⟨by omega, rfl⟩
  rw [Fallible.post_bind, Fallible.post_gets, id, Fallible.post_liftM_bind_of_ok hsub,
    Fallible.post_liftM_bind_of_ok hcount, Fallible.post_bind, Fallible.post_modify,
    Fallible.post_bind, Fallible.post_gets, id, Fallible.post_liftM_bind]
  -- the entry is recorded before the entries are counted
  have hentries : (s₂.packer.entries ++ [assetEntry D (allBlocks assets).length ⟨q, new⟩]).length =
      assets.length + 1 := by
    rw [List.length_append, hsame.entries]
    show s.packer.entries.length + 1 = _
    rw [h.entries, length_entryTable]
  have hentry : (⟨q, checksum D (asBytes q), UInt64.ofNat ((⟨0, 0⟩ : Totals).add new).original,
      UInt64.ofNat ((⟨0, 0⟩ : Totals).add new).stored, UInt32.ofNat (allBlocks assets).length,
      UInt32.ofNat new.length⟩ : TocEntry) = assetEntry D (allBlocks assets).length ⟨q, new⟩ := by
    simp only [Totals.add, assetEntry, Nat.zero_add]
  rw [hentry]
  refine ⟨fun _ hn => ?_, fun f hn => ?_⟩
  · obtain ⟨hlt, -⟩ := usizeToU32_eq_ok_iff.mp hn
    refine ⟨⟨q, new⟩, rfl, hok, hfills, ?_, fun hh => hsame.healthy hh⟩
    exact h.append (normalizePath_idempotent hq) ⟨hroom.original_lt, hroom.stored_lt⟩ hok hs₂ hsame
      (hentries ▸ hlt)
  · -- the entries are too many to be counted
    refine ⟨show s.writer.bytes <+: s₂.writer.bytes from hstores.keeps hs₂, Or.inr ⟨hok, ?_⟩⟩
    rintro ⟨-, hlt, -⟩
    rw [usizeToU32_eq_ok_iff.mpr ⟨by rw [hentries]; exact hlt, rfl⟩] at hn
    cases hn

/-- **A call of `add_reader`** adds the asset, or is refused; otherwise it fails only where the
reader or the file does, or there is no room for the asset. After a failure the packer is marked,
and the file keeps what it held. -/
theorem addReader_post (hv : B.options.Valid) (h : Packs D B assets s) (path : String)
    (reader : List ReadEvent) :
    Fallible.Post (addReader D deviceDestination path reader) s
      (fun _ s' => ∃ a, normalizePath path = .ok a.path ∧
        refusal D B.options.mode (assets.map Asset.path) path = none ∧
        Fills B.options.chunkSize reader (a.blocks.map Block.content) ∧
        Packs D B (assets ++ [a]) s' ∧ (s.writer.Healthy → s'.writer.Healthy))
      (fun f s' => s.writer.bytes <+: s'.writer.bytes ∧ s'.packer.failed = true ∧
        ((∃ e, refusal D B.options.mode (assets.map Asset.path) path = some e ∧ f = .error e ∧
            s'.writer = s.writer) ∨
          refusal D B.options.mode (assets.map Asset.path) path = none ∧
            ¬ (s.writer.Healthy ∧ assets.length + 1 < 2 ^ 32 ∧
              ∃ new, Fills B.options.chunkSize reader (new.map Block.content) ∧
                Storable D B (allBlocks assets) ⟨0, 0⟩ new))) := by
  unfold addReader
  rw [Fallible.post_bind, Fallible.post_gets, id,
    Fallible.post_liftM_bind_of_ok (ensure_of h.failed), Fallible.post_bind, Fallible.post_modify]
  have hreader : Packs D B assets { s with reader := reader } :=
    ⟨h.stores.withReader reader rfl, h.entries, h.seenHashes, h.failed, h.sizes, h.normal, h.paths,
      h.hashes, h.count_lt⟩
  have hinner := addReaderInner_post hv hreader path
  unfold Fallible.Post marking at *
  rcases hx : addReaderInner D deviceDestination path { s with reader := reader } with ⟨f | _, s'⟩
  · rw [hx] at hinner
    exact ⟨hinner.1, rfl, hinner.2⟩
  · rw [hx] at hinner
    exact hinner

end RasenArchive
