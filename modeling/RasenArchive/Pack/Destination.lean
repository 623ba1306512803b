import RasenArchive.Error
import RasenArchive.Library.Window

/-!
# Destinations of archive bytes

`Write + Seek`, the device that an archive is written to, and one such device: a file that takes a
limited number of bytes and of seeks before it fails. Every point at which a destination fails, or
the process dies while it writes, is such a limit.

## Main definitions

* `Destination W`: a destination with states `W`
* `writeAll`, `seekTo`: its operations with the error conversion of the library
* `Device`, `deviceDestination`: a file with a write position and two budgets
* `Device.unlimited`: the same file without the budgets

## Main results

* `Device.writeAll_cases`: a write at the end of the file takes effect as a prefix of its bytes
-/

namespace RasenArchive

/-- `SeekFrom`. -/
inductive SeekFrom where
  | start (offset : ℕ)
  | fromEnd (offset : ℕ)

/-- `Write + Seek`. -/
structure Destination (W : Type) where
  writeAll : W → Bytes → Except IoError Unit × W
  seek : W → SeekFrom → Except IoError ℕ × W

section

variable {W : Type} (R : Destination W)

/-- `writer.write_all(bytes)?`. -/
def writeAll (bytes : Bytes) : Fallible W Fault Unit := fun w =>
  match R.writeAll w bytes with
  | (.ok (), w') => (.ok (), w')
  | (.error e, w') => (.error (.error (.io e)), w')

/-- `writer.seek(position)?`. -/
def seekTo (position : SeekFrom) : Fallible W Fault ℕ := fun w =>
  match R.seek w position with
  | (.ok n, w') => (.ok n, w')
  | (.error e, w') => (.error (.error (.io e)), w')

end

/-! ## A file with budgets -/

/-- A file that is being written. The budgets are how many more bytes and seeks it takes before it
fails; without one it takes any number. -/
structure Device where
  bytes : Bytes
  pos : ℕ
  room : Option ℕ
  seeks : Option ℕ
  deriving DecidableEq

namespace Device

/-- An empty file. -/
def empty (room seeks : Option ℕ) : Device := ⟨[], 0, room, seeks⟩

/-- The same file without the budgets. -/
def unlimited (d : Device) : Device := { d with room := none, seeks := none }

/-- How many of `n` bytes the file takes. -/
def accepted (d : Device) (n : ℕ) : ℕ :=
  match d.room with
  | none => n
  | some r => min r n

/-- The file after `n` bytes at its position were replaced. -/
def put (d : Device) (bytes : Bytes) : Device :=
  { d with bytes := overwrite d.bytes d.pos bytes, pos := d.pos + bytes.length,
           room := d.room.map fun r => r - bytes.length }

/-- The place that a seek goes to. -/
def target (d : Device) : SeekFrom → ℕ
  | .start n => n
  | .fromEnd n => d.bytes.length + n

/-- The file after a seek. -/
def move (d : Device) (position : SeekFrom) : Device :=
  { d with pos := d.target position, seeks := d.seeks.map fun s => s - 1 }

/-- The file takes everything that it is asked for. -/
structure Healthy (d : Device) : Prop where
  room : d.room = none
  seeks : d.seeks = none

theorem accepted_le (d : Device) (n : ℕ) : d.accepted n ≤ n := by
  unfold accepted
  split
  · exact le_rfl
  · exact min_le_right _ _

theorem Healthy.accepted_eq {d : Device} (h : d.Healthy) (n : ℕ) : d.accepted n = n := by
  simp [accepted, h.room]

theorem healthy_unlimited (d : Device) : d.unlimited.Healthy := ⟨rfl, rfl⟩

end Device

/-- The file as a destination. -/
def deviceDestination : Destination Device where
  writeAll d bytes :=
    let n := d.accepted bytes.length
    (if n = bytes.length then .ok () else .error ⟨.other, "no space left"⟩, d.put (bytes.take n))
  seek d position :=
    if d.seeks = some 0 then (.error ⟨.other, "seek failed"⟩, d)
    else (.ok (d.target position), d.move position)

namespace Device

variable {d : Device} {bytes : Bytes}

/-- **A write at the end** of the file takes effect as a prefix of its bytes: all of them when it
succeeds. -/
theorem writeAll_cases (hpos : d.pos = d.bytes.length) (bytes : Bytes) :
    (∃ d', writeAll deviceDestination bytes d = (.ok (), d') ∧ d'.bytes = d.bytes ++ bytes ∧
        d'.pos = d'.bytes.length ∧ (d.Healthy → d'.Healthy)) ∨
      ∃ e d' n, writeAll deviceDestination bytes d = (.error (.error (.io e)), d') ∧
        n < bytes.length ∧ d'.bytes = d.bytes ++ bytes.take n ∧ ¬ d.Healthy := by
  have hle := d.accepted_le bytes.length
  have hbytes : (d.put (bytes.take (d.accepted bytes.length))).bytes =
      d.bytes ++ bytes.take (d.accepted bytes.length) := by
    rw [put, hpos, overwrite_length]
  by_cases hall : d.accepted bytes.length = bytes.length
  · rw [hall, List.take_length] at hbytes
    refine Or.inl ⟨d.put bytes, ?_, hbytes, ?_, fun h => ⟨?_, h.seeks⟩⟩
    · simp only [writeAll, deviceDestination, hall, if_true, List.take_length]
    · rw [hbytes, put, hpos, List.length_append]
    · rw [put, h.room]
      rfl
  · refine Or.inr ⟨⟨.other, "no space left"⟩, _, d.accepted bytes.length, ?_, by omega, hbytes,
      fun h => hall (h.accepted_eq _)⟩
    simp only [writeAll, deviceDestination, if_neg hall]

theorem Healthy.put {d : Device} (h : d.Healthy) (bytes : Bytes) : (d.put bytes).Healthy :=
  ⟨by simp [Device.put, h.room], h.seeks⟩

theorem Healthy.move {d : Device} (h : d.Healthy) (position : SeekFrom) :
    (d.move position).Healthy := ⟨h.room, by simp [Device.move, h.seeks]⟩

/-- A seek changes the position only. -/
theorem seekTo_cases (d : Device) (position : SeekFrom) :
    seekTo deviceDestination position d = (.ok (d.target position), d.move position) ∨
      ∃ e, seekTo deviceDestination position d = (.error (.error (.io e)), d) ∧ ¬ d.Healthy := by
  by_cases hs : d.seeks = some 0
  · refine Or.inr ⟨⟨.other, "seek failed"⟩, ?_, fun h => ?_⟩
    · simp only [seekTo, deviceDestination, if_pos hs]
    · rw [h.seeks] at hs
      cases hs
  · left
    simp only [seekTo, deviceDestination, if_neg hs]

end Device

end RasenArchive
