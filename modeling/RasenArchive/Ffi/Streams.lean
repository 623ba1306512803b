import RasenArchive.Archive.File
import RasenArchive.Ffi.Pack
import RasenArchive.Pack.Run
import RasenArchive.Pack.Simulation

/-!
# Packing through callbacks

`rasen_pack_streams`: the assets come from callbacks of the caller, and the archive goes to others.
The writer keeps the position of the caller's cursor on its own, and seeks nowhere but to an
absolute place or to the end.

## Main definitions

* `RasenWriter`, `CallbackWriter`: the callbacks, and the writer over them
* `callbackDestination`: the writer as a destination
* `rasenPackStreams`: packing through callbacks
* `RasenWriter.Honest`, `RasenWriter.Reliable`: callbacks whose successes, and callbacks that always
  succeed

## Main results

* `callbackDestination_follows`: over honest callbacks, the writer does what a file does
* `pack_streams_memory`: packing through callbacks and packing into a buffer agree
-/

namespace RasenArchive

variable {U : Type}

/-! ## The writer -/

/-- `RasenWriter`: the callbacks of the caller, over a state of the caller. They answer with a
status; the one for the length with the length too. -/
structure RasenWriter (U : Type) where
  write : Option (U → (src : Bytes) → ℤ × U)
  seek : Option (U → (position : ℕ) → ℤ × U)
  len : Option (U → ℤ × ℕ × U)

/-- `CallbackWriter`: the state of the caller and the position. -/
structure CallbackWriter (U : Type) where
  user : U
  position : ℕ

/-- The error for a callback that is null. -/
def nullCallback (name : String) : IoError := ⟨.other, name ++ " callback is null"⟩

/-- The error for a callback that answers with another status than 0. -/
def callbackFailed (name : String) (status : ℤ) : IoError :=
  ⟨.other, name ++ " callback failed: " ++ toString status⟩

/-- The position after a write of `n` bytes. -/
def advancePosition (position n : ℕ) : Except IoError ℕ := do
  let len ← okOrIo (tryFrom 64 n) .other "write size overflow"
  okOrIo (checkedAdd 64 position len) .other "writer position overflow"

/-- `write` of `CallbackWriter`. -/
def CallbackWriter.write (callbacks : RasenWriter U) (w : CallbackWriter U) (src : Bytes) :
    Except IoError ℕ × CallbackWriter U :=
  match callbacks.write with
  | none => (.error (nullCallback "write"), w)
  | some write =>
    let (status, user) := write w.user src
    if status ≠ 0 then (.error (callbackFailed "write" status), { w with user }) else
    match advancePosition w.position src.length with
    | .error e => (.error e, { w with user })
    | .ok position => (.ok src.length, ⟨user, position⟩)

/-- `write_all` over `write`, which takes all of its bytes: its loop has at most one turn. -/
def CallbackWriter.writeAll (callbacks : RasenWriter U) (w : CallbackWriter U) (bytes : Bytes) :
    Except IoError Unit × CallbackWriter U :=
  if bytes = [] then (.ok (), w) else
  match w.write callbacks bytes with
  | (.ok _, w') => (.ok (), w')
  | (.error e, w') => (.error e, w')

/-- The part of `seek` of `CallbackWriter` that goes to an absolute place. -/
def CallbackWriter.seekAbsolute (callbacks : RasenWriter U) (w : CallbackWriter U)
    (absolute : ℕ) : Except IoError ℕ × CallbackWriter U :=
  match callbacks.seek with
  | none => (.error (nullCallback "seek"), w)
  | some seek =>
    let (status, user) := seek w.user absolute
    if status ≠ 0 then (.error (callbackFailed "seek" status), { w with user })
    else (.ok absolute, ⟨user, absolute⟩)

/-- `seek` of `CallbackWriter`. -/
def CallbackWriter.seek (callbacks : RasenWriter U) (w : CallbackWriter U) :
    SeekFrom → Except IoError ℕ × CallbackWriter U
  | .start position => w.seekAbsolute callbacks position
  | .fromEnd 0 =>
    match callbacks.len with
    | none => (.error (nullCallback "len"), w)
    | some len =>
      let (status, value, user) := len w.user
      if status ≠ 0 then (.error (callbackFailed "len" status), { w with user })
      else ({ w with user } : CallbackWriter U).seekAbsolute callbacks value
  | .fromEnd (_ + 1) => (.error ⟨.other, "unsupported callback seek"⟩, w)

/-- The writer as a destination. -/
def callbackDestination (callbacks : RasenWriter U) : Destination (CallbackWriter U) where
  writeAll w bytes := w.writeAll callbacks bytes
  seek w position := w.seek callbacks position

/-! ## The function -/

/-- What a read callback of the caller answers to one call. -/
inductive CallbackRead where
  | data (bytes : Bytes)
  | oversized
  | failed (status : ℤ)
  deriving DecidableEq

/-- One `read` of `CallbackReader`. -/
def CallbackRead.event : CallbackRead → ReadEvent
  | .data bytes => .data bytes
  | .oversized => .error ⟨.other, "read callback returned an oversized count"⟩
  | .failed status => .error (callbackFailed "read" status)

/-- `RasenStreamInput`, with what its callback answers. -/
structure RasenStreamInput where
  path : ConstBytes
  read : Option (List CallbackRead)

/-- `CallbackReader`. Without a callback it fails at the first read. -/
def RasenStreamInput.reader (input : RasenStreamInput) : List ReadEvent :=
  match input.read with
  | none => [.error (nullCallback "read")]
  | some answers => answers.map CallbackRead.event

variable (D : Dependencies)

/-- The loop of `rasen_pack_streams` over the inputs. -/
def addStreams {W : Type} (R : Destination W) :
    List RasenStreamInput → Fallible (PackState W) FfiFault Unit
  | [] => pure ()
  | input :: inputs => do
    let path ← input.path.utf8 "input.path"
    Fallible.mapError FfiFault.ofFault (addReader D R path input.reader)
    addStreams R inputs

/-- The part of `rasen_pack_streams` with the packer. -/
def packStreams {W : Type} (R : Destination W) (key : Bytes) (options : PackOptions)
    (inputs : List RasenStreamInput) : Fallible (PackEnv W) FfiFault PackSummary := do
  let packer ← Fallible.mapError FfiFault.ofFault (startPacker D R key options)
  let calls : Fallible (PackState W) FfiFault PackSummary := do
    addStreams D R inputs
    Fallible.mapError FfiFault.ofFault (finish D R)
  Fallible.focus (fun env => ⟨packer, env.writer, env.entropy, []⟩)
    (fun s _ => ⟨s.writer, s.entropy⟩) calls

/-- A packing run over the callbacks of the caller. -/
def onCallbacks (x : Fallible (PackEnv (CallbackWriter U)) FfiFault PackSummary) :
    Fallible (PackCaller U) FfiFault PackSummary :=
  Fallible.focus (fun s => ⟨⟨s.user, 0⟩, s.entropy⟩)
    (fun env s => { s with user := env.writer.user, entropy := env.entropy }) x

/-- `rasen_pack_streams`. -/
def rasenPackStreams (inputs : ConstSlice RasenStreamInput) (key : ConstBytes)
    (options : Option RasenPackOptions) (writer : Option (RasenWriter U)) (outSummary : Pointer) :
    Fallible (PackCaller U) FfiFault Unit := do
  let inputs ← inputs.rawSlice "inputs"
  let key ← key.bytes "key"
  let callbacks ← requiredRef writer "writer"
  let options ← packOptions options
  let summary ← onCallbacks (packStreams D (callbackDestination callbacks) key options inputs)
  storeSummary outSummary summary

/-! ## What callbacks promise -/

/-- **Honest callbacks**: where they answer with success, they did what they were asked for. The
state `user` of the caller holds `bytes`, with the cursor at `pos`, where `Holds user bytes pos`. -/
structure RasenWriter.Honest (callbacks : RasenWriter U) (Holds : U → Bytes → ℕ → Prop) : Prop where
  write : ∀ {write user bytes pos src user'}, callbacks.write = some write →
    Holds user bytes pos → pos ≤ bytes.length → write user src = (0, user') →
      Holds user' (overwrite bytes pos src) (pos + src.length)
  seek : ∀ {seek user bytes pos position user'}, callbacks.seek = some seek →
    Holds user bytes pos → seek user position = (0, user') → Holds user' bytes position
  len : ∀ {len user bytes pos value user'}, callbacks.len = some len → Holds user bytes pos →
    len user = (0, value, user') → value = bytes.length ∧ Holds user' bytes pos

/-- **Reliable callbacks** are there and answer with success. -/
structure RasenWriter.Reliable (callbacks : RasenWriter U) (Holds : U → Bytes → ℕ → Prop) :
    Prop where
  write : ∃ write, callbacks.write = some write ∧
    ∀ user bytes pos src, Holds user bytes pos → (write user src).1 = 0
  seek : ∃ seek, callbacks.seek = some seek ∧
    ∀ user bytes pos position, Holds user bytes pos → (seek user position).1 = 0
  len : ∃ len, callbacks.len = some len ∧
    ∀ user bytes pos, Holds user bytes pos → (len user).1 = 0

/-- The errors for a callback that is null or fails. -/
inductive CallbackError : IoError → Prop
  | null (name : String) : CallbackError (nullCallback name)
  | failed (name : String) (status : ℤ) (h : status ≠ 0) : CallbackError (callbackFailed name status)

/-- The writer works on the same bytes as the file. -/
structure Mirrors (Holds : U → Bytes → ℕ → Prop) (v : CallbackWriter U) (d : Device) : Prop where
  holds : Holds v.user d.bytes d.pos
  position : v.position = d.pos
  pos_le : d.pos ≤ d.bytes.length
  healthy : d.Healthy

/-- What excuses a fault of the writer: a callback that is null or fails, or a file that grows past
all positions. -/
def WriterExcuse (callbacks : RasenWriter U) (Holds : U → Bytes → ℕ → Prop) (f : Fault)
    (d : Device) : Prop :=
  (¬ callbacks.Reliable Holds ∧ ∃ e, f = .error (.io e) ∧ CallbackError e) ∨
    2 ^ 64 ≤ d.bytes.length

theorem advancePosition_cases (position n : ℕ) :
    (position + n < 2 ^ 64 ∧ advancePosition position n = .ok (position + n)) ∨
      (2 ^ 64 ≤ position + n ∧ ∃ e, advancePosition position n = .error e) := by
  unfold advancePosition tryFrom checkedAdd
  by_cases hsum : position + n < 2 ^ 64
  · rw [if_pos (show n < 2 ^ 64 by omega)]
    refine Or.inl ⟨hsum, ?_⟩
    simp only [okOrIo, bind, Except.bind, if_pos hsum]
  · right
    refine ⟨by omega, ?_⟩
    by_cases hn : n < 2 ^ 64
    · simp only [okOrIo, bind, Except.bind, if_pos hn, if_neg hsum]
      exact ⟨_, rfl⟩
    · simp only [okOrIo, bind, Except.bind, if_neg hn]
      exact ⟨_, rfl⟩

/-! ### Each operation of the writer -/

section Operations

variable (callbacks : RasenWriter U) (v : CallbackWriter U)

/-- **A write** fails in its callback, or the callback succeeds and the position moves on, unless it
overflows. -/
theorem callbackWriteAll_cases {bytes : Bytes} (hne : bytes ≠ []) :
    (∃ e v', writeAll (callbackDestination callbacks) bytes v = (.error (.error (.io e)), v') ∧
        CallbackError e ∧ ∀ write, callbacks.write = some write → (write v.user bytes).1 ≠ 0) ∨
      ∃ write user, callbacks.write = some write ∧ write v.user bytes = (0, user) ∧
        ((v.position + bytes.length < 2 ^ 64 ∧
            writeAll (callbackDestination callbacks) bytes v =
              (.ok (), ⟨user, v.position + bytes.length⟩)) ∨
          (2 ^ 64 ≤ v.position + bytes.length ∧
            ∃ e v', writeAll (callbackDestination callbacks) bytes v =
              (.error (.error (.io e)), v'))) := by
  simp only [writeAll, callbackDestination, CallbackWriter.writeAll, if_neg hne,
    CallbackWriter.write]
  rcases hwrite : callbacks.write with _ | write
  · exact Or.inl ⟨_, _, rfl, .null "write", by rintro _ ⟨⟩⟩
  rcases hrun : write v.user bytes with ⟨status, user⟩
  by_cases hstatus : status = 0
  · subst hstatus
    refine Or.inr ⟨write, user, rfl, hrun, ?_⟩
    rcases advancePosition_cases v.position bytes.length with ⟨hlt, hok⟩ | ⟨hle, e, herr⟩
    · exact Or.inl ⟨hlt, by simp [hrun, hok]⟩
    · exact Or.inr ⟨hle, e, ⟨user, v.position⟩, by simp [hrun, herr]⟩
  · refine Or.inl ⟨callbackFailed "write" status, { v with user }, by simp [hrun, hstatus],
      .failed _ _ hstatus, ?_⟩
    rintro _ ⟨⟩
    rw [hrun]
    exact hstatus

/-- **A seek** to an absolute place fails in its callback, or goes there. -/
theorem seekAbsolute_cases (absolute : ℕ) :
    (∃ e v', v.seekAbsolute callbacks absolute = (.error e, v') ∧ CallbackError e ∧
        ∀ seek, callbacks.seek = some seek → (seek v.user absolute).1 ≠ 0) ∨
      ∃ seek user, callbacks.seek = some seek ∧ seek v.user absolute = (0, user) ∧
        v.seekAbsolute callbacks absolute = (.ok absolute, ⟨user, absolute⟩) := by
  unfold CallbackWriter.seekAbsolute
  rcases hseek : callbacks.seek with _ | seek
  · exact Or.inl ⟨_, _, rfl, .null "seek", by rintro _ ⟨⟩⟩
  rcases hrun : seek v.user absolute with ⟨status, user⟩
  by_cases hstatus : status = 0
  · subst hstatus
    exact Or.inr ⟨seek, user, rfl, hrun, by simp [hrun]⟩
  · refine Or.inl ⟨callbackFailed "seek" status, { v with user }, by simp [hrun, hstatus],
      .failed _ _ hstatus, ?_⟩
    rintro _ ⟨⟩
    rw [hrun]
    exact hstatus

/-- **A seek to the end** asks for the length and goes there. -/
theorem seekEnd_cases :
    (∃ e v', v.seek callbacks (.fromEnd 0) = (.error e, v') ∧ CallbackError e ∧
        ∀ len, callbacks.len = some len → (len v.user).1 ≠ 0) ∨
      ∃ len value user, callbacks.len = some len ∧ len v.user = (0, value, user) ∧
        v.seek callbacks (.fromEnd 0) =
          CallbackWriter.seekAbsolute callbacks ⟨user, v.position⟩ value := by
  unfold CallbackWriter.seek
  rcases hlen : callbacks.len with _ | len
  · exact Or.inl ⟨_, _, rfl, .null "len", by rintro _ ⟨⟩⟩
  rcases hrun : len v.user with ⟨status, value, user⟩
  by_cases hstatus : status = 0
  · subst hstatus
    exact Or.inr ⟨len, value, user, rfl, hrun, by simp [hrun]⟩
  · refine Or.inl ⟨callbackFailed "len" status, { v with user }, by simp [hrun, hstatus],
      .failed _ _ hstatus, ?_⟩
    rintro _ ⟨⟩
    rw [hrun]
    exact hstatus

end Operations

theorem Device.Healthy.writeAll_eq {d : Device} (h : d.Healthy) (bytes : Bytes) :
    RasenArchive.writeAll deviceDestination bytes d = (.ok (), d.put bytes) := by
  simp only [RasenArchive.writeAll, deviceDestination, h.accepted_eq, List.take_length, if_true]

theorem Device.Healthy.seekTo_eq {d : Device} (h : d.Healthy) (position : SeekFrom) :
    seekTo deviceDestination position d = (.ok (d.target position), d.move position) := by
  rcases d.seekTo_cases position with hs | ⟨e, -, hno⟩
  · exact hs
  · exact absurd h hno

section Writer

variable {callbacks : RasenWriter U} {Holds : U → Bytes → ℕ → Prop} {v : CallbackWriter U}
  {d : Device}

theorem follows_of_excuse {α β : Type} {x : Fallible (CallbackWriter U) Fault α}
    {y : Fallible Device Fault β} {Q : α → CallbackWriter U → β → Device → Prop} {e : IoError}
    {v' : CallbackWriter U} (hx : x v = (.error (.error (.io e)), v'))
    (hE : WriterExcuse callbacks Holds (.error (.io e)) (y d).2) :
    Fallible.Follows (WriterExcuse callbacks Holds) x v y d Q := by
  unfold Fallible.Follows
  rw [hx]
  exact Or.inr hE

/-- **One write.** -/
theorem callbackWriteAll_follows (hhonest : callbacks.Honest Holds) (h : Mirrors Holds v d)
    (bytes : Bytes) :
    Fallible.Follows (WriterExcuse callbacks Holds) (writeAll (callbackDestination callbacks) bytes)
      v (writeAll deviceDestination bytes) d fun _ v' _ d' => Mirrors Holds v' d' := by
  have hfile := h.healthy.writeAll_eq bytes
  by_cases hempty : bytes = []
  · subst hempty
    have hsame : d.put [] = d := by
      simp [Device.put]
    rw [hsame] at hfile
    exact Fallible.Alike.follows (Fallible.alike_ok rfl hfile h)
  rcases callbackWriteAll_cases callbacks v hempty with
    ⟨e, v', hrun, he, hno⟩ | ⟨write, user, hwrite, hstatus, ⟨hlt, hrun⟩ | ⟨hle, e, v', hrun⟩⟩
  · refine follows_of_excuse hrun (Or.inl ⟨fun hr => ?_, e, rfl, he⟩)
    obtain ⟨write, hwrite, h0⟩ := hr.write
    exact hno write hwrite (h0 _ _ _ _ h.holds)
  · refine Fallible.Alike.follows (Fallible.alike_ok hrun hfile ?_)
    have hholds := hhonest.write hwrite h.holds h.pos_le hstatus
    rw [h.position]
    exact ⟨hholds, rfl, add_length_le_overwrite h.pos_le, h.healthy.put bytes⟩
  · refine follows_of_excuse hrun (Or.inr ?_)
    rw [hfile]
    rw [h.position] at hle
    exact hle.trans (add_length_le_overwrite h.pos_le)

/-- **One seek** to an absolute place. -/
theorem seekAbsolute_follows (hhonest : callbacks.Honest Holds) (h : Mirrors Holds v d) (n : ℕ) :
    Fallible.Follows (WriterExcuse callbacks Holds) (seekTo (callbackDestination callbacks) (.start n))
      v (seekTo deviceDestination (.start n)) d fun a v' b d' => a = b ∧
        Holds v'.user d'.bytes d'.pos ∧ v'.position = n ∧ d' = d.move (.start n) := by
  rcases seekAbsolute_cases callbacks v n with ⟨e, v', hrun, he, hno⟩ | ⟨seek, user, hseek, hstatus, hrun⟩
  · have hfail : seekTo (callbackDestination callbacks) (.start n) v =
        (.error (.error (.io e)), v') := by
      simp only [seekTo, callbackDestination, CallbackWriter.seek, hrun]
    refine follows_of_excuse hfail (Or.inl ⟨fun hr => ?_, e, rfl, he⟩)
    obtain ⟨seek, hseek, h0⟩ := hr.seek
    exact hno seek hseek (h0 _ _ _ _ h.holds)
  · have hok : seekTo (callbackDestination callbacks) (.start n) v = (.ok n, ⟨user, n⟩) := by
      simp only [seekTo, callbackDestination, CallbackWriter.seek, hrun]
    exact Fallible.Alike.follows (Fallible.alike_ok hok (h.healthy.seekTo_eq (.start n))
      ⟨rfl, hhonest.seek hseek h.holds hstatus, rfl, rfl⟩)

/-- **One seek** to the end. -/
theorem seekEnd_follows (hhonest : callbacks.Honest Holds) (h : Mirrors Holds v d) :
    Fallible.Follows (WriterExcuse callbacks Holds) (seekTo (callbackDestination callbacks) (.fromEnd 0))
      v (seekTo deviceDestination (.fromEnd 0)) d fun n v' m d' => n = m ∧ Mirrors Holds v' d' := by
  have hfile := h.healthy.seekTo_eq (.fromEnd 0)
  rcases seekEnd_cases callbacks v with ⟨e, v', hrun, he, hno⟩ | ⟨len, value, user, hlen, hstatus, hrun⟩
  · have hfail : seekTo (callbackDestination callbacks) (.fromEnd 0) v =
        (.error (.error (.io e)), v') := by
      simp only [seekTo, callbackDestination, hrun]
    refine follows_of_excuse hfail (Or.inl ⟨fun hr => ?_, e, rfl, he⟩)
    obtain ⟨len, hlen, h0⟩ := hr.len
    exact hno len hlen (h0 _ _ _ h.holds)
  obtain ⟨rfl, hholds⟩ := hhonest.len hlen h.holds hstatus
  rcases seekAbsolute_cases callbacks ⟨user, v.position⟩ d.bytes.length with
    ⟨e, v', hmove, he, hno⟩ | ⟨seek, user', hseek, hstatus', hmove⟩
  · have hfail : seekTo (callbackDestination callbacks) (.fromEnd 0) v =
        (.error (.error (.io e)), v') := by
      simp only [seekTo, callbackDestination, hrun, hmove]
    refine follows_of_excuse hfail (Or.inl ⟨fun hr => ?_, e, rfl, he⟩)
    obtain ⟨seek, hseek, h0⟩ := hr.seek
    exact hno seek hseek (h0 _ _ _ _ hholds)
  · have hok : seekTo (callbackDestination callbacks) (.fromEnd 0) v =
        (.ok d.bytes.length, ⟨user', d.bytes.length⟩) := by
      simp only [seekTo, callbackDestination, hrun, hmove]
    exact Fallible.Alike.follows (Fallible.alike_ok hok hfile ⟨rfl,
      hhonest.seek hseek hholds hstatus', rfl, le_rfl, h.healthy.move (.fromEnd 0)⟩)

end Writer

/-- **Over honest callbacks** the writer does what a file does. -/
theorem callbackDestination_follows {callbacks : RasenWriter U} {Holds : U → Bytes → ℕ → Prop}
    (hhonest : callbacks.Honest Holds) :
    (callbackDestination callbacks).Follows deviceDestination (Mirrors Holds)
      (fun v d => Holds v.user d.bytes d.pos) (WriterExcuse callbacks Holds) where
  writeAll h bytes := callbackWriteAll_follows hhonest h bytes
  seekEnd h := seekEnd_follows hhonest h
  seekFront h := by
    refine (seekAbsolute_follows hhonest h 0).mono (fun _ _ he => he) ?_
    rintro _ v' _ _ ⟨-, hholds, hposition, rfl⟩
    exact ⟨hholds, hposition, Nat.zero_le _, h.healthy.move (.start 0)⟩
  seekLast h n := (seekAbsolute_follows hhonest h n).mono (fun _ _ he => he)
    fun _ _ _ _ hq => hq.2.1
  keeps_writeAll e bytes d := by
    refine Or.imp_right fun hle => hle.trans ?_
    show _ ≤ (RasenArchive.writeAll deviceDestination bytes d).2.bytes.length
    have hbytes : (RasenArchive.writeAll deviceDestination bytes d).2 =
        d.put (bytes.take (d.accepted bytes.length)) := by
      simp only [RasenArchive.writeAll, deviceDestination]
      split_ifs <;> rfl
    rw [hbytes]
    exact length_le_overwrite _ _ _
  keeps_seekTo e position d := by
    refine Or.imp_right fun hle => ?_
    rcases d.seekTo_cases position with hs | ⟨_, hs, -⟩ <;> rw [hs] <;> exact hle

/-! ## The packer behind the function -/

/-- The input of the packer: the path is a string, and the reader is over the callback. -/
structure RasenStreamInput.IsInput (raw : RasenStreamInput) (input : Input) : Prop where
  path : raw.path.Holds (asBytes input.path)
  reader : input.reader = raw.reader

section Packer

variable {D} {W : Type} {R : Destination W} {raws : List RasenStreamInput} {inputs : List Input}

/-- **The loop over the inputs** is that of the packer, where the paths are strings. -/
theorem addStreams_eq (h : List.Forall₂ RasenStreamInput.IsInput raws inputs) :
    addStreams D R raws = Fallible.mapError FfiFault.ofFault (addReaders D R inputs) := by
  induction h with
  | nil => rfl
  | cons hraw _ ih =>
    rw [addStreams, addReaders, Fallible.mapError_bind, ConstBytes.utf8_eq_ok_iff.mpr hraw.path, ih,
      hraw.reader]
    rfl

theorem packStreams_eq {key : Bytes} {options : PackOptions}
    (h : List.Forall₂ RasenStreamInput.IsInput raws inputs) :
    packStreams D R key options raws =
      Fallible.mapError FfiFault.ofFault (packReaders D R key options inputs) := by
  have hcalls : (addStreams D R raws >>= fun _ => Fallible.mapError FfiFault.ofFault (finish D R)) =
      Fallible.mapError FfiFault.ofFault (addReaders D R inputs >>= fun _ => finish D R) := by
    rw [addStreams_eq h, Fallible.mapError_bind]
  unfold packStreams
  rw [hcalls]
  exact (Fallible.mapError_bind (startPacker D R key options) fun packer =>
    Fallible.focus (fun env : PackEnv W => (⟨packer, env.writer, env.entropy, []⟩ : PackState W))
      (fun s _ => ⟨s.writer, s.entropy⟩) (addReaders D R inputs >>= fun _ => finish D R)).symm

/-- A loop that comes to its end had strings as paths. -/
theorem addStreams_ok {s s' : PackState W} (h : addStreams D R raws s = (.ok (), s')) :
    ∃ inputs, List.Forall₂ RasenStreamInput.IsInput raws inputs := by
  induction raws generalizing s with
  | nil => exact ⟨[], .nil⟩
  | cons raw raws ih =>
    obtain ⟨path, s₁, hpath, h⟩ := Fallible.bind_eq_ok.mp h
    obtain ⟨_, s₂, -, hrest⟩ := Fallible.bind_eq_ok.mp h
    obtain ⟨inputs, hinputs⟩ := ih hrest
    exact ⟨⟨path, raw.reader⟩ :: inputs, .cons
      ⟨ConstBytes.utf8_eq_ok_iff.mp (Fallible.liftM_eq_ok.mp hpath).1, rfl⟩ hinputs⟩

theorem packStreams_ok {key : Bytes} {options : PackOptions} {env env' : PackEnv W}
    {summary : PackSummary} (h : packStreams D R key options raws env = (.ok summary, env')) :
    ∃ inputs, List.Forall₂ RasenStreamInput.IsInput raws inputs ∧
      packReaders D R key options inputs env = (.ok summary, env') := by
  obtain ⟨packer, env₁, -, hrun⟩ := Fallible.bind_eq_ok.mp h
  rw [Fallible.focus_apply, Prod.mk.injEq] at hrun
  obtain ⟨_, s₁, hadd, -⟩ := Fallible.bind_eq_ok.mp (Prod.ext hrun.1 rfl)
  obtain ⟨inputs, hinputs⟩ := addStreams_ok hadd
  rw [packStreams_eq hinputs, Fallible.mapError_eq_ok_iff] at h
  exact ⟨inputs, hinputs, h⟩

end Packer

/-- The stream gives the file: the same path, and the bytes in any reads. -/
structure RasenStreamInput.Gives (raw : RasenInputFile) (stream : RasenStreamInput) : Prop where
  path : stream.path = raw.path
  delivers : ∃ data, raw.data.Holds data ∧ Delivers stream.reader data

section Inputs

variable {D} {raws : List RasenInputFile} {streams : List RasenStreamInput}
  (h : List.Forall₂ RasenStreamInput.Gives raws streams)

include h

/-- Streams whose paths are strings feed the packer with the files. -/
theorem exists_files_of_isInput {inputs : List Input}
    (hinputs : List.Forall₂ RasenStreamInput.IsInput streams inputs) :
    ∃ files, List.Forall₂ RasenInputFile.IsFile raws files ∧ List.Forall₂ Feeds files inputs := by
  induction h generalizing inputs with
  | nil =>
    cases hinputs
    exact ⟨[], .nil, .nil⟩
  | cons hgives _ ih =>
    cases hinputs with
    | @cons _ input _ _ hinput hrest =>
      obtain ⟨files, hfiles, hfeeds⟩ := ih hrest
      obtain ⟨data, hdata, hdelivers⟩ := hgives.delivers
      exact ⟨⟨input.path, data⟩ :: files, .cons ⟨hgives.path ▸ hinput.path, hdata⟩ hfiles,
        .cons ⟨rfl, hinput.reader ▸ hdelivers⟩ hfeeds⟩

/-- Files whose paths are strings are fed to the packer by their streams. -/
theorem exists_inputs_of_isFile {files : List InputFile}
    (hfiles : List.Forall₂ RasenInputFile.IsFile raws files) :
    ∃ inputs, List.Forall₂ RasenStreamInput.IsInput streams inputs ∧
      List.Forall₂ Feeds files inputs := by
  induction h generalizing files with
  | nil =>
    cases hfiles
    exact ⟨[], .nil, .nil⟩
  | @cons raw stream _ _ hgives _ ih =>
    cases hfiles with
    | @cons _ file _ _ hfile hrest =>
      obtain ⟨inputs, hinputs, hfeeds⟩ := ih hrest
      obtain ⟨data, hdata, hdelivers⟩ := hgives.delivers
      obtain rfl : data = file.data := hdata.unique hfile.data
      exact ⟨⟨file.path, stream.reader⟩ :: inputs, .cons ⟨hgives.path ▸ hfile.path, rfl⟩ hinputs,
        .cons ⟨rfl, hdelivers⟩ hfeeds⟩

end Inputs

/-- **Readers of the same files** lead to the same archive, on a file that does not fail. -/
theorem packReaders_of_feeds {key : Bytes} {options : PackOptions} {entropy : Entropy} {d d' : Device}
    {files : List InputFile} {inputs inputs' : List Input} {summary : PackSummary}
    {env : PackEnv Device} (hfeeds : List.Forall₂ Feeds files inputs)
    (hfeeds' : List.Forall₂ Feeds files inputs') (hempty : d'.bytes = []) (hhealthy : d'.Healthy)
    (h : packReaders D deviceDestination key options inputs ⟨d, entropy⟩ = (.ok summary, env)) :
    env.writer.bytes.length < 2 ^ 64 ∧ ∃ env',
      packReaders D deviceDestination key options inputs' ⟨d', entropy⟩ = (.ok summary, env') ∧
        env'.writer.bytes = env.writer.bytes ∧ env'.entropy = env.entropy := by
  obtain ⟨assets, toc, block, stored, hpacked, rfl, hbytes, hentropy⟩ := packReaders_ok h
  obtain ⟨env', hrun, hbytes', hentropy'⟩ :=
    packReaders_of_packed hempty hhealthy (hpacked.of_feeds hfeeds hfeeds')
  refine ⟨?_, env', hrun, hbytes'.trans hbytes.symm, hentropy'.trans hentropy.symm⟩
  rw [hbytes, length_image hpacked.valid]
  exact hpacked.fits

/-! ## Both ways of packing -/

section Agreement

variable {D} {V : Type} {inputs : ConstSlice RasenStreamInput} {key : ConstBytes}
  {options : Option RasenPackOptions} {outSummary : Pointer}

/-- Behind its checks, the function packs over the callbacks and stores the summary. -/
theorem rasenPackStreams_eq {callbacks : RasenWriter U} {raws : List RasenStreamInput}
    {keyBytes : Bytes} {value : PackOptions} (hraws : inputs.Holds raws)
    (hkey : key.Holds keyBytes) (hvalue : packOptions options = .ok value) :
    rasenPackStreams D inputs key options (some callbacks) outSummary =
      onCallbacks (packStreams D (callbackDestination callbacks) keyBytes value raws) >>=
        storeSummary outSummary := by
  unfold rasenPackStreams
  rw [ConstSlice.rawSlice_eq_ok_iff.mpr hraws, ConstBytes.bytes_eq_ok_iff.mpr hkey, hvalue]
  rfl

/-- **Packing through callbacks succeeds** where the pointers and the options are accepted and the
packer succeeds on the inputs. -/
theorem rasenPackStreams_ok {callbacks : RasenWriter U} {s s' : PackCaller U}
    (h : rasenPackStreams D inputs key options (some callbacks) outSummary s = (.ok (), s')) :
    ∃ raws keyBytes value fed summary env, inputs.Holds raws ∧ key.Holds keyBytes ∧
      packOptions options = .ok value ∧ List.Forall₂ RasenStreamInput.IsInput raws fed ∧
      packReaders D (callbackDestination callbacks) keyBytes value fed ⟨⟨s.user, 0⟩, s.entropy⟩ =
        (.ok summary, env) ∧
      s' = ⟨env.writer.user, s.outArchive, outSummary.stored summary s.outSummary,
        env.entropy⟩ := by
  obtain ⟨raws, s₁, hraws, h₁⟩ := Fallible.bind_eq_ok.mp h
  obtain ⟨keyBytes, s₂, hkey, h₂⟩ := Fallible.bind_eq_ok.mp h₁
  obtain ⟨_, s₃, -, h₃⟩ := Fallible.bind_eq_ok.mp h₂
  obtain ⟨value, s₄, hvalue, -⟩ := Fallible.bind_eq_ok.mp h₃
  have hraws' := ConstSlice.rawSlice_eq_ok_iff.mp (Fallible.liftM_eq_ok.mp hraws).1
  have hkey' := ConstBytes.bytes_eq_ok_iff.mp (Fallible.liftM_eq_ok.mp hkey).1
  have hvalue' := (Fallible.liftM_eq_ok.mp hvalue).1
  rw [rasenPackStreams_eq hraws' hkey' hvalue'] at h
  obtain ⟨summary, s₅, hrun, hstore⟩ := Fallible.bind_eq_ok.mp h
  rw [onCallbacks, Fallible.focus_apply, Prod.mk.injEq] at hrun
  obtain ⟨hok, rfl⟩ := hrun
  obtain ⟨fed, hfed, hpack⟩ := packStreams_ok (Prod.ext hok rfl)
  rw [storeSummary_apply] at hstore
  exact ⟨raws, keyBytes, value, fed, summary, _, hraws', hkey', hvalue', hfed, hpack,
    (Prod.mk.inj hstore).2.symm⟩

/-- The archive in the store of one caller is the one in the buffer of the other. -/
structure SameArchive (Holds : U → Bytes → ℕ → Prop) (s : PackCaller U) (t : PackCaller V) :
    Prop where
  outSummary : s.outSummary = t.outSummary
  entropy : s.entropy = t.entropy
  archive : ∃ archive pos, t.outArchive = intoBuffer archive ∧ Holds s.user archive pos

/-- **Packing through callbacks and packing into a buffer agree**, for honest callbacks over an
empty store and streams that give the files. Where packing through the callbacks succeeds, so does
packing into a buffer, with the same archive and the same summary; and where packing into a buffer
succeeds, packing through the callbacks does, or one of the callbacks is null or fails, with the
text of its failure as the last error. -/
theorem pack_streams_memory {callbacks : RasenWriter U} {Holds : U → Bytes → ℕ → Prop}
    (hhonest : callbacks.Honest Holds) {files : ConstSlice RasenInputFile}
    {raws : List RasenInputFile} {streams : List RasenStreamInput} (hraws : files.Holds raws)
    (hstreams : inputs.Holds streams) (hgives : List.Forall₂ RasenStreamInput.Gives raws streams)
    {s : Thread (PackCaller U)} {t : Thread (PackCaller V)}
    (hentropy : t.state.entropy = s.state.entropy) (hempty : Holds s.state.user [] 0) :
    ((ffiCall (rasenPackStreams D inputs key options (some callbacks) .valid) s).1 = .ok →
      (ffiCall (rasenPackMemory D files key options .valid .valid) t).1 = .ok ∧
        SameArchive Holds
          (ffiCall (rasenPackStreams D inputs key options (some callbacks) .valid) s).2.state
          (ffiCall (rasenPackMemory D files key options .valid .valid) t).2.state) ∧
    ((ffiCall (rasenPackMemory D files key options .valid .valid) t).1 = .ok →
      (ffiCall (rasenPackStreams D inputs key options (some callbacks) .valid) s).1 = .ok ∨
        (¬ callbacks.Reliable Holds ∧
          (ffiCall (rasenPackStreams D inputs key options (some callbacks) .valid) s).1 = .io ∧
          ∃ e, CallbackError e ∧
            (ffiCall (rasenPackStreams D inputs key options (some callbacks) .valid) s).2.lastError =
              sanitize (Error.io e).toText)) := by
  -- the empty store mirrors an empty device in memory
  have hmirrors : Mirrors Holds ⟨s.state.user, 0⟩ (Device.empty none none) :=
    ⟨hempty, rfl, le_rfl, rfl, rfl⟩
  -- packing into the callbacks follows packing into that device
  have hfollows := fun keyBytes value fed => packReaders_follows (D := D)
    (callbackDestination_follows hhonest) hmirrors keyBytes value fed s.state.entropy
  constructor
  · intro hok
    obtain ⟨streams', keyBytes, value, fed, summary, env, hstreams', hkey, hvalue, hfed, hpack, hs⟩ :=
      rasenPackStreams_ok (Prod.ext (ffiCall_ok_iff.mp hok) rfl)
    obtain rfl := hstreams'.unique hstreams
    -- the streams give the bytes of the files, in the same order
    obtain ⟨fs, hfs, hfeeds⟩ := exists_files_of_isInput hgives hfed
    obtain ⟨_, env₁, hdevice, rfl, he₁, hholds⟩ := (hfollows keyBytes value fed).ok hpack
    -- slices and streams of the same files pack to the same archive
    obtain ⟨-, env₂, hmemory, hbytes, he₂⟩ := packReaders_of_feeds D hfeeds
      (forall₂_feeds_sliceInput fs) (show (Device.empty none none).bytes = [] from rfl) ⟨rfl, rfl⟩
      hdevice
    rw [← hentropy] at hmemory
    have hmem : rasenPackMemory D files key options .valid .valid t.state = (.ok (), _) :=
      (rasenPackMemory_eq_ok_iff D).mpr ⟨rfl, fs, keyBytes, value, summary, env₂,
        bufferedInputs_eq_ok_iff.mpr ⟨raws, hraws, hfs⟩, hkey, hvalue, hmemory, rfl⟩
    have hstate : (ffiCall (rasenPackStreams D inputs key options (some callbacks) .valid) s).2.state =
      _ := ffiCall_state.trans hs
    -- the summary and the entropy are those of the device
    rw [ffiCall_of_ok hmem, hstate]
    refine ⟨rfl, ?_⟩
    exact ⟨rfl, he₁.trans he₂.symm, env₂.writer.bytes, _, rfl, hbytes.symm ▸ hholds⟩
  · intro hok
    obtain ⟨-, fs, keyBytes, value, summary, env, hfs, hkey, hvalue, hmemory, -⟩ :=
      (rasenPackMemory_eq_ok_iff D).mp
        (Prod.ext (ffiCall_ok_iff.mp hok) rfl : _ = (_, _))
    obtain ⟨raws', hraws', hfiles⟩ := bufferedInputs_eq_ok_iff.mp hfs
    obtain rfl := hraws'.unique hraws
    -- and the other way round
    obtain ⟨fed, hfed, hfeeds⟩ := exists_inputs_of_isFile hgives hfiles
    rw [hentropy] at hmemory
    obtain ⟨hlt, env₁, hdevice, hbytes, -⟩ := packReaders_of_feeds D (forall₂_feeds_sliceInput fs)
      hfeeds (show (Device.empty none none).bytes = [] from rfl) ⟨rfl, rfl⟩ hmemory
    have hcall : rasenPackStreams D inputs key options (some callbacks) .valid = _ :=
      rasenPackStreams_eq hstreams hkey hvalue
    rw [packStreams_eq hfed] at hcall
    -- the run over the callbacks succeeds, is stopped by a callback, or outgrows a number of 64
    -- bits
    rcases (hfollows keyBytes value fed).of_ok hdevice with
      ⟨summary', env₂, hrun, -⟩ | ⟨f, env₂, hrun, ⟨hno, e, rfl, he⟩ | hbig⟩
    · left
      rw [ffiCall_ok_iff, hcall, Fallible.bind_of_ok (a := summary') (by
        rw [onCallbacks, Fallible.focus_apply, Fallible.mapError_of_ok hrun])]
      rw [storeSummary_apply]
    · right
      have hfail : rasenPackStreams D inputs key options (some callbacks) .valid s.state =
          (.error (.ofFault (.error (.io e))),
            { s.state with user := env₂.writer.user, entropy := env₂.entropy }) := by
        rw [hcall]
        refine Fallible.bind_of_error ?_
        rw [onCallbacks, Fallible.focus_apply, Fallible.mapError_of_error hrun]
      rw [ffiCall_of_error hfail]
      exact ⟨hno, rfl, e, he, rfl⟩
    · -- the archive fits the memory of the buffer, so it is no longer than such a number
      rw [hbytes] at hbig
      omega

end Agreement

/-- Callbacks over bytes in memory and a cursor. -/
def byteStore : RasenWriter (Bytes × ℕ) where
  write := some fun user src => (0, overwrite user.1 user.2 src, user.2 + src.length)
  seek := some fun user position => (0, user.1, position)
  len := some fun user => (0, user.1.length, user)

theorem byteStore_honest : byteStore.Honest fun user bytes pos => user = (bytes, pos) where
  write hwrite hholds _ hrun := by
    cases hwrite
    subst hholds
    exact (Prod.mk.inj hrun).2.symm
  seek hseek hholds hrun := by
    cases hseek
    subst hholds
    exact (Prod.mk.inj hrun).2.symm
  len hlen hholds hrun := by
    cases hlen
    subst hholds
    cases hrun
    exact ⟨rfl, rfl⟩

theorem byteStore_reliable : byteStore.Reliable fun user bytes pos => user = (bytes, pos) where
  write := ⟨_, rfl, fun _ _ _ _ _ => rfl⟩
  seek := ⟨_, rfl, fun _ _ _ _ _ => rfl⟩
  len := ⟨_, rfl, fun _ _ _ _ => rfl⟩

/-- A caller with nothing stored and no randomness. -/
def newCaller {U : Type} (user : U) : Thread (PackCaller U) :=
  ⟨⟨user, {}, ⟨0, 0, 0⟩, ⟨fun _ => none, 0, []⟩⟩, ""⟩

/-- One file of three bytes, in a buffer and in two reads of a callback, is packed through callbacks
as it is packed into a buffer. -/
theorem pack_streams_memory_small :
    (ffiCall (rasenPackStreams reference
      (.data [⟨.data (asBytes "./a"), some [.data [1], .data [2, 3]]⟩]) (.data [7])
      (some (.ofOptions ⟨2, 4, .debug, .xor⟩)) (some byteStore) .valid) (newCaller ([], 0))).1 =
        .ok := by
  have hgives : List.Forall₂ RasenStreamInput.Gives
      [⟨.data (asBytes "./a"), .data [1, 2, 3]⟩]
      [⟨.data (asBytes "./a"), some [.data [1], .data [2, 3]]⟩] :=
    .cons ⟨rfl, [1, 2, 3], Or.inl rfl,
      .data (by simp) (.data (by simp) (.atEnd nofun))⟩ .nil
  have hmemory : (ffiCall (rasenPackMemory reference
      (.data [⟨.data (asBytes "./a"), .data [1, 2, 3]⟩]) (.data [7])
      (some (.ofOptions ⟨2, 4, .debug, .xor⟩)) .valid .valid) (newCaller ())).1 = .ok := by
    decide +kernel
  obtain hok | ⟨hno, -⟩ := (pack_streams_memory byteStore_honest (Or.inl rfl) (Or.inl rfl) hgives
    (s := newCaller ([], 0)) (t := newCaller ()) rfl rfl).2 hmemory
  · exact hok
  · exact absurd byteStore_reliable hno

end RasenArchive
