import RasenArchive.Pack.Image
import RasenArchive.Pack.Packer

/-!
# What the packer writes

The effects of the writes of a packer on a file. Up to the header, each of them goes to the end of
the file, and a write that fails leaves a prefix of its bytes there.

## Main definitions

* `Appended d bytes d'`: the bytes went to the end of the file
* `Torn d bytes f d'`: the file failed on the way
* `freshPacker`: the packer that `Packer::new` returns

## Main results

* `writeAll_post`, `writeZeroes_post`: the writes at the end of a file
* `align_post`: the padding in front of a block
* `newPacker_post`: a fresh packer
-/

namespace RasenArchive

/-- The bytes went to the end of the file. -/
structure Appended (d : Device) (bytes : Bytes) (d' : Device) : Prop where
  bytes_eq : d'.bytes = d.bytes ++ bytes
  pos_eq : d'.pos = d'.bytes.length
  healthy : d.Healthy → d'.Healthy

/-- The file failed on the way: a prefix of the bytes went to its end. -/
structure Torn (d : Device) (bytes : Bytes) (f : Fault) (d' : Device) : Prop where
  bytes_eq : ∃ n, d'.bytes = d.bytes ++ bytes.take n
  io : ∃ e, f = .error (.io e)
  unhealthy : ¬ d.Healthy

section Appended

variable {d d₁ d' : Device} {xs ys : Bytes} {f : Fault}

theorem Appended.refl (hpos : d.pos = d.bytes.length) : Appended d [] d :=
  ⟨(List.append_nil _).symm, hpos, id⟩

theorem Appended.trans (h : Appended d xs d₁) (h' : Appended d₁ ys d') :
    Appended d (xs ++ ys) d' := by
  refine ⟨?_, h'.pos_eq, fun hd => h'.healthy (h.healthy hd)⟩
  rw [h'.bytes_eq, h.bytes_eq, List.append_assoc]

theorem Torn.append (h : Torn d xs f d') (ys : Bytes) : Torn d (xs ++ ys) f d' := by
  obtain ⟨n, hn⟩ := h.bytes_eq
  refine ⟨⟨min n xs.length, ?_⟩, h.io, h.unhealthy⟩
  rw [List.take_append_of_le_length (min_le_right _ _), hn]
  congr 1
  rw [List.take_eq_take_iff]
  omega

theorem Appended.torn (h : Appended d xs d₁) (h' : Torn d₁ ys f d') : Torn d (xs ++ ys) f d' := by
  obtain ⟨n, hn⟩ := h'.bytes_eq
  refine ⟨⟨xs.length + n, ?_⟩, h'.io, fun hd => h'.unhealthy (h.healthy hd)⟩
  rw [hn, h.bytes_eq, List.append_assoc, List.take_length_add_append]

/-- A torn write keeps what the file holds. -/
theorem Torn.keeps (h : Torn d xs f d') :
    d.bytes <+: d'.bytes := by
  obtain ⟨n, hn⟩ := h.bytes_eq
  rw [hn]
  exact List.prefix_append _ _

theorem Appended.keeps (h : Appended d xs d') :
    d.bytes <+: d'.bytes := by
  rw [h.bytes_eq]
  exact List.prefix_append _ _

end Appended

/-! ## Writes at the end of the file -/

theorem writeAll_post {d : Device} (hpos : d.pos = d.bytes.length) (bytes : Bytes) :
    Fallible.Post (writeAll deviceDestination bytes) d (fun _ => Appended d bytes)
      (Torn d bytes) := by
  unfold Fallible.Post
  rcases d.writeAll_cases hpos bytes with ⟨d', h, hb, hp, hh⟩ | ⟨e, d', n, h, -, hb, hh⟩
  · rw [h]
    exact ⟨hb, hp, hh⟩
  · rw [h]
    exact ⟨⟨n, hb⟩, ⟨e, rfl⟩, hh⟩

theorem seekTo_post (d : Device) (position : SeekFrom) :
    Fallible.Post (seekTo deviceDestination position) d (fun _ d' => d' = d.move position)
      (fun _ d' => d' = d ∧ ¬ d.Healthy) := by
  unfold Fallible.Post
  rcases d.seekTo_cases position with h | ⟨e, h, hbad⟩
  · rw [h]
  · rw [h]
    exact ⟨rfl, hbad⟩

/-- **The padding loop** writes as many zeroes as there are to write, block by block. -/
theorem writeZeroes_post {turns remaining : ℕ} (hturns : remaining ≤ turns) {d : Device}
    (hpos : d.pos = d.bytes.length) :
    Fallible.Post (writeZeroes deviceDestination turns remaining) d
      (fun _ => Appended d (List.replicate remaining 0)) (Torn d (List.replicate remaining 0)) := by
  induction turns generalizing remaining d with
  | zero =>
    obtain rfl : remaining = 0 := by omega
    exact .refl hpos
  | succ turns ih =>
    rw [writeZeroes]
    split_ifs with hzero
    · have hblock : min remaining zeroesLen ≤ remaining := min_le_left _ _
      have hprogress : 0 < min remaining zeroesLen := by
        unfold zeroesLen
        omega
      have hsplit : List.replicate remaining (0 : UInt8) =
          List.replicate (min remaining zeroesLen) 0 ++
            List.replicate (remaining - min remaining zeroesLen) 0 := by
        rw [List.replicate_append_replicate]
        congr 1
        omega
      rw [hsplit]
      refine ((writeAll_post hpos _).mono (fun _ _ h => h) fun f d' h => h.append _).bind ?_
      intro _ d' happ
      have hsub : okOr (checkedSub remaining (min remaining zeroesLen)) (.tooLarge "padding") =
          .ok (remaining - min remaining zeroesLen) := by
        simp [checkedSub, okOr, hblock]
      rw [Fallible.post_liftM_bind_of_ok hsub]
      exact (ih (by omega) happ.pos_eq).mono (fun _ _ h => happ.trans h) fun f _ h => happ.torn h
    · obtain rfl : remaining = 0 := by omega
      exact .refl hpos

/-! ## Padding -/

/-- The state with another writer and another offset. -/
def PackState.advance (s : PackState Device) (w : Device) (offset : ℕ) : PackState Device :=
  { s with writer := w, packer := { s.packer with offset := offset } }

/-- **Alignment** writes the padding in front of the next aligned offset, and moves on to it. It
fails where rounding up overflows, or the file does, and leaves what the file held before. -/
theorem align_post {s : PackState Device} {alignment : ℕ}
    (halign : s.packer.options.alignment.toNat = alignment) (ha : alignment.isPowerOfTwo)
    (hpos : s.writer.pos = s.writer.bytes.length) :
    Fallible.Post (align deviceDestination) s
      (fun _ s' => ∃ w, Appended s.writer
          (List.replicate (alignedAt alignment s.packer.offset - s.packer.offset) 0) w ∧
        s' = s.advance w (alignedAt alignment s.packer.offset))
      (fun _ s' => s.writer.bytes <+: s'.writer.bytes ∧
        ¬ (s.writer.Healthy ∧ s.packer.offset + (alignment - 1) < 2 ^ 64)) := by
  have hlt := s.packer.options.alignment.toNat_lt
  have hpow := Nat.pos_of_isPowerOfTwo ha
  have hup := fun aligned => @alignUp_eq_ok_iff s.packer.offset alignment aligned ha (by omega)
  unfold align
  rw [Fallible.post_bind, Fallible.post_gets, id, halign]
  by_cases hfits : s.packer.offset + (alignment - 1) < 2 ^ 64
  · have hle := le_alignedAt hpow s.packer.offset
    rw [Fallible.post_liftM_bind_of_ok ((hup _).mpr ⟨hfits, rfl⟩)]
    have hsub : sub (alignedAt alignment s.packer.offset) s.packer.offset =
        .ok (alignedAt alignment s.packer.offset - s.packer.offset) := sub_of_le hle
    rw [alignedAt] at hsub
    rw [Fallible.post_liftM_bind_of_ok hsub, Fallible.post_bind, onWriter, Fallible.post_focus]
    refine (writeZeroes_post le_rfl hpos).mono (fun _ w happ => ?_) fun f w htorn => ?_
    · rw [Fallible.post_modify]
      exact ⟨w, happ, rfl⟩
    · exact ⟨htorn.keeps, fun hbad => htorn.unhealthy hbad.1⟩
  · have herror : alignUp s.packer.offset alignment =
        .error (.error (.tooLarge "aligned offset")) := by
      unfold alignUp
      rw [sub_of_le (show 1 ≤ alignment from hpow), ok_bind, checkedAdd, if_neg hfits]
      rfl
    unfold Fallible.Post
    rw [Fallible.liftM_bind_of_error herror]
    exact ⟨List.prefix_rfl, fun hbad => hfits hbad.2⟩

/-! ## A fresh packer -/

/-- The key of the AEAD layer, where the options ask for one. -/
def packKey (D : Dependencies) (key : Bytes) (options : PackOptions) : Option Bytes :=
  if options.protection = .aead then some (deriveKey D key) else none

/-- The packer that `Packer::new` returns. -/
def freshPacker (D : Dependencies) (key : Bytes) (options : PackOptions) : Packer :=
  ⟨key, packKey D key options, options, [], [], ∅, List.replicate options.chunkSize 0,
    List.replicate (D.getMaximumOutputSize options.chunkSize) 0, headerSize, false⟩

/-- **A fresh packer** holds the place of the header with zeroes. The call fails for a bad argument
or on a bad file, and leaves no more than some of these zeroes. -/
theorem newPacker_post {D : Dependencies} {key : Bytes} {options : PackOptions} {d : Device}
    (hempty : d.bytes = []) :
    Fallible.Post (newPacker D deviceDestination key options) d
      (fun p d' => key ≠ [] ∧ options.Valid ∧ p = freshPacker D key options ∧
        d'.bytes = List.replicate headerSize 0 ∧ d'.pos = headerSize ∧ (d.Healthy → d'.Healthy))
      (fun _ d' => (∃ n, d'.bytes = (List.replicate headerSize 0).take n) ∧
        ¬ (key ≠ [] ∧ options.Valid ∧ d.Healthy)) := by
  have hnothing : ∃ n, d.bytes = (List.replicate headerSize (0 : UInt8)).take n := ⟨0, hempty⟩
  unfold newPacker
  rw [Fallible.post_bind, Fallible.post_liftM]
  refine ⟨fun _ hkey => ?_, fun f hkey => ⟨hnothing, fun h => ?_⟩⟩
  swap
  · exact (ensure_eq_error_iff.mp hkey).1 h.1
  rw [ensure_eq_ok_iff] at hkey
  rw [Fallible.post_bind, Fallible.post_liftM]
  refine ⟨fun options' hvalid => ?_, fun f hvalid => ⟨hnothing, fun h => ?_⟩⟩
  swap
  · rw [PackOptions.validate_eq_ok_iff.mpr ⟨h.2.1, rfl⟩] at hvalid
    cases hvalid
  obtain ⟨hv, rfl⟩ := PackOptions.validate_eq_ok_iff.mp hvalid
  -- the file is empty, so both seeks go to its front
  rcases d.seekTo_cases (.fromEnd 0) with hseek | ⟨e, hseek, hbad⟩
  swap
  · unfold Fallible.Post
    rw [Fallible.bind_of_error hseek]
    exact ⟨hnothing, fun h => hbad h.2.2⟩
  unfold Fallible.Post
  rw [Fallible.bind_of_ok hseek]
  have hzero : d.target (.fromEnd 0) = 0 := by rw [Device.target, hempty]; rfl
  rw [Fallible.liftM_bind_of_ok (ensure_of hzero)]
  rcases (d.move (.fromEnd 0)).seekTo_cases (.start 0) with hstart | ⟨e, hstart, hbad⟩
  swap
  · rw [Fallible.bind_of_error hstart]
    exact ⟨hnothing, fun h => hbad (h.2.2.move _)⟩
  rw [Fallible.bind_of_ok hstart]
  have hpost := writeAll_post (d := (d.move (.fromEnd 0)).move (.start 0))
    (show 0 = d.bytes.length by rw [hempty]; rfl) (List.replicate headerSize 0)
  refine (hpost.mono (fun _ d' happ => happ) fun f d' htorn => ?_).bind fun _ d' happ => ?_
  · obtain ⟨n, hn⟩ := htorn.bytes_eq
    refine ⟨⟨n, ?_⟩, fun h => htorn.unhealthy ((h.2.2.move _).move _)⟩
    rw [hn, Device.move, Device.move, hempty, List.nil_append]
  · have hbytes : d'.bytes = List.replicate headerSize 0 := by
      rw [happ.bytes_eq, Device.move, Device.move, hempty, List.nil_append]
    refine ⟨hkey, hv, rfl, hbytes, ?_, fun h => happ.healthy ((h.move _).move _)⟩
    rw [happ.pos_eq, hbytes, List.length_replicate]

/-- A packer starts on an empty file only. -/
theorem bytes_eq_nil_of_newPacker {D : Dependencies} {key : Bytes} {options : PackOptions}
    {d d' : Device} {p : Packer}
    (h : newPacker D deviceDestination key options d = (.ok p, d')) : d.bytes = [] := by
  unfold newPacker at h
  obtain ⟨_, d₁, h₁, h⟩ := Fallible.bind_eq_ok.mp h
  obtain ⟨-, rfl⟩ := Fallible.liftM_eq_ok.mp h₁
  obtain ⟨_, d₂, h₂, h⟩ := Fallible.bind_eq_ok.mp h
  obtain ⟨-, rfl⟩ := Fallible.liftM_eq_ok.mp h₂
  obtain ⟨n, d₃, h₃, h⟩ := Fallible.bind_eq_ok.mp h
  obtain ⟨_, d₄, h₄, -⟩ := Fallible.bind_eq_ok.mp h
  have hn := ensure_eq_ok_iff.mp (Fallible.liftM_eq_ok.mp h₄).1
  rcases d.seekTo_cases (.fromEnd 0) with hseek | ⟨e, hseek, -⟩
  · rw [hseek] at h₃
    cases h₃
    exact List.eq_nil_of_length_eq_zero hn
  · rw [hseek] at h₃
    cases h₃

end RasenArchive
