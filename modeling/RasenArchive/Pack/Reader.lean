import RasenArchive.Error
import RasenArchive.Library.Pieces

/-!
# Readers of assets

A reader answers each call with some bytes, with none, or with an error. `read_chunk` calls it until
a buffer is full or a call gives no bytes.

## Main definitions

* `ReadEvent`: the answer to one call of `read`
* `Pack.readChunk`: the function, on the buffer and the reader
* `nextFill`: the bytes that it fills the buffer with
* `Fills n reader ps`: the reader gives the pieces `ps`, each a fill of a buffer of `n` bytes, up to
  a fill without bytes
* `Delivers reader data`: the reader gives the bytes `data` and stays at its end
* `resumes n reader`: a fill ends short, and the next one is not empty

## Main results

* `Pack.readChunk_eq`: the buffer holds what was filled in, whatever it held before
* `Delivers.fills`: a reader that delivers data gives the pieces that the data is cut into
* `Fills.fullButLast_iff`: only a reader that resumes gives a short piece before the last one
-/

namespace RasenArchive

/-- What a reader answers to one call of `read`. The bytes that do not fit the buffer of the call
are for the next one; after its last event the reader answers `Ok(0)`. -/
inductive ReadEvent where
  | data (bytes : Bytes)
  | error (e : IoError)
  deriving DecidableEq

/-- An `Interrupted` error. -/
def ReadEvent.interrupted : ReadEvent := .error ⟨.interrupted, "operation interrupted"⟩

/-- The loop of `read_chunk`, from `filled` bytes in the buffer on: the number of bytes it returns,
the buffer, and what is left of the reader. -/
def fillBuffer : List ReadEvent → Bytes → ℕ → Result ℕ × Bytes × List ReadEvent
  | [], buffer, filled => (.ok filled, buffer, [])
  | .data bytes :: events, buffer, filled =>
    if filled < buffer.length then
      -- `Ok(0)` ends the loop, also in a buffer that is partly filled
      if bytes = [] then
        (.ok filled, buffer, events)
      else if bytes.length ≤ buffer.length - filled then
        fillBuffer events (overwrite buffer filled bytes) (filled + bytes.length)
      else
        -- a call is given no more room than is left; the rest is for the next one
        (.ok buffer.length, overwrite buffer filled (bytes.take (buffer.length - filled)),
          .data (bytes.drop (buffer.length - filled)) :: events)
    else
      (.ok filled, buffer, .data bytes :: events)
  | .error e :: events, buffer, filled =>
    if filled < buffer.length then
      -- an interrupted call is made again
      if e.kind = .interrupted then fillBuffer events buffer filled
      else (.error (.error (.io e)), buffer, events)
    else
      (.ok filled, buffer, .error e :: events)

/-- `read_chunk`, on the buffer and the reader. -/
def Pack.readChunk : Fallible (Bytes × List ReadEvent) Fault ℕ := fun s => fillBuffer s.2 s.1 0

/-! ## What is filled in -/

/-- The bytes that a buffer of `n` bytes is filled with, after `filled`. -/
def nextFill (n : ℕ) : List ReadEvent → Bytes → Result Bytes × List ReadEvent
  | [], filled => (.ok filled, [])
  | .data bytes :: events, filled =>
    if filled.length < n then
      if bytes = [] then
        (.ok filled, events)
      else if bytes.length ≤ n - filled.length then
        nextFill n events (filled ++ bytes)
      else
        (.ok (filled ++ bytes.take (n - filled.length)),
          .data (bytes.drop (n - filled.length)) :: events)
    else
      (.ok filled, .data bytes :: events)
  | .error e :: events, filled =>
    if filled.length < n then
      if e.kind = .interrupted then nextFill n events filled
      else (.error (.error (.io e)), events)
    else
      (.ok filled, .error e :: events)

/-- The loop keeps the length of the buffer, and holds the bytes filled in at its front. -/
theorem fillBuffer_eq {events : List ReadEvent} {buffer filled : Bytes}
    (hle : filled.length ≤ buffer.length) (hfront : buffer.take filled.length = filled) :
    (fillBuffer events buffer filled.length).1 =
        (nextFill buffer.length events filled).1.map List.length ∧
      (fillBuffer events buffer filled.length).2.2 = (nextFill buffer.length events filled).2 ∧
      (fillBuffer events buffer filled.length).2.1.length = buffer.length ∧
      ∀ bytes, (nextFill buffer.length events filled).1 = .ok bytes →
        bytes.length ≤ buffer.length ∧
          (fillBuffer events buffer filled.length).2.1.take bytes.length = bytes := by
  -- induction on the answers of the reader that are left
  induction events generalizing buffer filled with
  | nil =>
    refine ⟨rfl, rfl, rfl, ?_⟩
    rintro bytes ⟨⟩
    exact ⟨hle, hfront⟩
  | cons event events ih =>
    cases event with
    | data bytes =>
      simp only [fillBuffer, nextFill]
      split_ifs with hlt hnil hfits
      · -- the reader is at its end
        refine ⟨rfl, rfl, rfl, ?_⟩
        rintro bytes ⟨⟩
        exact ⟨hle, hfront⟩
      · -- the bytes fit behind those filled in
        have hlen : (overwrite buffer filled.length bytes).length = buffer.length :=
          length_overwrite (by omega)
        have htake : (overwrite buffer filled.length bytes).take (filled.length + bytes.length) =
            buffer.take filled.length ++ bytes := take_overwrite hle
        have hstep := @ih (overwrite buffer filled.length bytes) (filled ++ bytes)
          (by rw [hlen, List.length_append]; omega) (by rw [List.length_append, htake, hfront])
        rw [hlen, List.length_append] at hstep
        exact hstep
      · -- the reader gives more than there is room for, and keeps the rest
        obtain ⟨front, hfrontdef⟩ : ∃ front, front = bytes.take (buffer.length - filled.length) :=
          ⟨_, rfl⟩
        have hn : front.length = buffer.length - filled.length := by
          rw [hfrontdef, List.length_take]
          omega
        have hlen : (overwrite buffer filled.length front).length = buffer.length :=
          length_overwrite (by omega)
        have htake : (overwrite buffer filled.length front).take (filled.length + front.length) =
            buffer.take filled.length ++ front := take_overwrite hle
        rw [← hfrontdef]
        refine ⟨?_, rfl, hlen, ?_⟩
        · simp only [Except.map, List.length_append, hn]
          congr 1
          omega
        · rintro bytes ⟨⟩
          rw [List.length_append, htake, hfront, hn]
          exact ⟨by omega, rfl⟩
      · -- the buffer is full
        refine ⟨rfl, rfl, rfl, ?_⟩
        rintro bytes ⟨⟩
        exact ⟨hle, hfront⟩
    | error e =>
      simp only [fillBuffer, nextFill]
      split_ifs with hlt hint
      · -- an interrupted call is made again
        exact ih hle hfront
      · exact ⟨rfl, rfl, rfl, fun bytes hb => by cases hb⟩
      · refine ⟨rfl, rfl, rfl, ?_⟩
        rintro bytes ⟨⟩
        exact ⟨hle, hfront⟩

/-- **`read_chunk`** returns the number of the bytes that the reader gave, and holds them at the
front of the buffer, whatever the buffer held before. -/
theorem Pack.readChunk_eq (buffer : Bytes) (reader : List ReadEvent) :
    ∃ buffer', buffer'.length = buffer.length ∧
      ((∃ bytes reader', nextFill buffer.length reader [] = (.ok bytes, reader') ∧
          bytes.length ≤ buffer.length ∧ buffer'.extract 0 bytes.length = bytes ∧
          Pack.readChunk (buffer, reader) = (.ok bytes.length, buffer', reader')) ∨
        ∃ f reader', nextFill buffer.length reader [] = (.error f, reader') ∧
          Pack.readChunk (buffer, reader) = (.error f, buffer', reader')) := by
  have h := @fillBuffer_eq reader buffer [] (Nat.zero_le _) rfl
  obtain ⟨hfst, hrest, hlen, hfront⟩ := h
  refine ⟨_, hlen, ?_⟩
  rcases hn : nextFill buffer.length reader [] with ⟨f | bytes, reader'⟩
  · rw [hn] at hfst hrest
    refine Or.inr ⟨f, reader', rfl, ?_⟩
    exact Prod.ext hfst (Prod.ext rfl hrest)
  · rw [hn] at hfst hrest hfront
    obtain ⟨hle, htake⟩ := hfront bytes rfl
    refine Or.inl ⟨bytes, reader', rfl, hle, ?_, Prod.ext hfst (Prod.ext rfl hrest)⟩
    rw [List.extract_eq_take_drop]
    simpa using htake

/-! ## Measures of progress -/

/-- How much a reader has left: more than the number of calls and of bytes that are to come. -/
def readerSize : List ReadEvent → ℕ
  | [] => 0
  | .data bytes :: events => bytes.length + 1 + readerSize events
  | .error _ :: events => 1 + readerSize events

variable {n : ℕ} {events events' reader reader' : List ReadEvent} {filled bytes data : Bytes}

theorem nextFill_size (h : nextFill n events filled = (.ok bytes, events')) :
    bytes.length + readerSize events' ≤ filled.length + readerSize events ∧
      (filled.length ≤ n → bytes.length ≤ n) := by
  induction events generalizing filled with
  | nil =>
    cases h
    exact ⟨le_rfl, id⟩
  | cons event events ih =>
    cases event with
    | data bs =>
      rw [nextFill] at h
      split_ifs at h with hlt hnil hfits
      · cases h
        -- `Ok(0)` stops the fill
        exact ⟨by simp [readerSize], id⟩
      · -- a whole answer is taken in
        obtain ⟨hsize, hle⟩ := ih h
        rw [List.length_append] at hsize hle
        exact ⟨by simp only [readerSize]; omega, fun _ => hle (by omega)⟩
      · -- the part that fits is taken in
        cases h
        simp only [readerSize, List.length_append, List.length_take, List.length_drop]
        exact ⟨by omega, fun _ => by omega⟩
      · -- a full buffer asks for nothing
        cases h
        exact ⟨le_rfl, id⟩
    | error e =>
      rw [nextFill] at h
      split_ifs at h with hlt hint
      · obtain ⟨hsize, hle⟩ := ih h
        exact ⟨by simp only [readerSize]; omega, hle⟩
      · cases h
      · cases h
        exact ⟨le_rfl, id⟩

/-- What was filled in before stays. -/
theorem prefix_nextFill (h : nextFill n events filled = (.ok bytes, events')) :
    filled <+: bytes := by
  induction events generalizing filled with
  | nil =>
    cases h
    exact List.prefix_rfl
  | cons event events ih =>
    cases event with
    | data bs =>
      rw [nextFill] at h
      split_ifs at h
      · cases h
        exact List.prefix_rfl
      · exact (List.prefix_append _ _).trans (ih h)
      · cases h
        exact List.prefix_append _ _
      · cases h
        exact List.prefix_rfl
    | error e =>
      rw [nextFill] at h
      split_ifs at h
      · exact ih h
      · cases h
      · cases h
        exact List.prefix_rfl

/-- A fill that is not empty makes progress. -/
theorem readerSize_lt (h : nextFill n reader [] = (.ok bytes, reader')) (hne : bytes ≠ []) :
    readerSize reader' < readerSize reader := by
  have hpos := List.length_pos_iff.mpr hne
  have hsize := (nextFill_size h).1
  rw [List.length_nil] at hsize
  omega

/-! ## The pieces that a reader gives -/

/-- The reader gives the pieces, each as one fill of a buffer of `n` bytes, and then a fill without
bytes. -/
inductive Fills (n : ℕ) : List ReadEvent → List Bytes → Prop
  | done {reader reader' : List ReadEvent} (h : nextFill n reader [] = (.ok [], reader')) :
      Fills n reader []
  | more {reader reader' : List ReadEvent} {piece : Bytes} {pieces : List Bytes}
      (h : nextFill n reader [] = (.ok piece, reader')) (hne : piece ≠ [])
      (hrest : Fills n reader' pieces) : Fills n reader (piece :: pieces)

/-- The pieces are determined by the reader. -/
theorem Fills.unique {ps qs : List Bytes} (hp : Fills n reader ps) (hq : Fills n reader qs) :
    ps = qs := by
  induction hp generalizing qs with
  | done h =>
    cases hq with
    | done _ => rfl
    | more h' hne _ =>
      cases h.symm.trans h'
      exact absurd rfl hne
  | more h hne _ ih =>
    cases hq with
    | done h' =>
      cases h.symm.trans h'
      exact absurd rfl hne
    | more h' _ hrest =>
      cases h.symm.trans h'
      rw [ih hrest]

/-- The first of the pieces is the first fill. -/
theorem Fills.uncons {ps : List Bytes} (hp : Fills n reader ps)
    (h : nextFill n reader [] = (.ok bytes, reader')) (hne : bytes ≠ []) :
    ∃ rest, ps = bytes :: rest ∧ Fills n reader' rest := by
  cases hp with
  | done h' =>
    cases h.symm.trans h'
    exact absurd rfl hne
  | more h' _ hrest =>
    cases h.symm.trans h'
    exact ⟨_, rfl, hrest⟩

/-- A reader that gives pieces does not fail in its first fill. -/
theorem Fills.no_error {ps : List Bytes} (hp : Fills n reader ps) {f : Fault} :
    nextFill n reader [] ≠ (.error f, reader') := by
  intro h
  cases hp with
  | done h' => cases h.symm.trans h'
  | more h' _ _ => cases h.symm.trans h'

theorem Fills.forall_mem {ps : List Bytes} (h : Fills n reader ps) :
    ∀ p ∈ ps, p ≠ [] ∧ p.length ≤ n := by
  induction h with
  | done _ => simp
  | more h hne _ ih =>
    rw [List.forall_mem_cons]
    exact ⟨⟨hne, (nextFill_size h).2 (Nat.zero_le _)⟩, ih⟩

/-! ## Readers that deliver data -/

/-- The reader stays at its end. -/
def AtEnd (events : List ReadEvent) : Prop :=
  ∀ event ∈ events, event = .data [] ∨ ∃ e, event = .error e ∧ e.kind = .interrupted

/-- **The reader delivers the data**, in reads of any sizes and with interruptions in between, and
then stays at its end. -/
inductive Delivers : List ReadEvent → Bytes → Prop
  | atEnd {events : List ReadEvent} (h : AtEnd events) : Delivers events []
  | data {events : List ReadEvent} {bytes rest : Bytes} (hne : bytes ≠ [])
      (h : Delivers events rest) : Delivers (.data bytes :: events) (bytes ++ rest)
  | interrupted {events : List ReadEvent} {data : Bytes} {e : IoError}
      (he : e.kind = .interrupted) (h : Delivers events data) : Delivers (.error e :: events) data

theorem nextFill_atEnd (h : AtEnd events) :
    ∃ events', nextFill n events filled = (.ok filled, events') ∧ AtEnd events' := by
  induction events with
  | nil => exact ⟨[], rfl, h⟩
  | cons event events ih =>
    obtain ⟨hevent, hrest⟩ := List.forall_mem_cons.mp h
    rcases hevent with rfl | ⟨e, rfl, he⟩
    · rw [nextFill, if_pos rfl]
      split_ifs
      · exact ⟨events, rfl, hrest⟩
      · exact ⟨_, rfl, h⟩
    · rw [nextFill]
      split_ifs
      · exact ih hrest
      · exact ⟨_, rfl, h⟩

/-- A fill from a reader that delivers data takes the front of that data. -/
theorem Delivers.nextFill (h : Delivers events data) (hle : filled.length ≤ n) :
    ∃ events', nextFill n events filled =
        (.ok (filled ++ data.take (n - filled.length)), events') ∧
      Delivers events' (data.drop (n - filled.length)) := by
  -- induction on how the reader delivers
  induction h generalizing filled with
  | atEnd h =>
    obtain ⟨events', hfill, hend⟩ := nextFill_atEnd h
    exact ⟨events', by simpa using hfill, by simpa using .atEnd hend⟩
  | @data events bytes rest hne h ih =>
    rw [RasenArchive.nextFill]
    split_ifs with hlt hfits
    · -- the whole answer fits
      have hlen : n - (filled ++ bytes).length = n - filled.length - bytes.length := by
        rw [List.length_append]
        omega
      obtain ⟨events', hfill, hrest⟩ := @ih (filled ++ bytes) (by rw [List.length_append]; omega)
      rw [hlen] at hfill hrest
      refine ⟨events', ?_, ?_⟩
      · rw [hfill, List.take_append, List.take_of_length_le hfits, List.append_assoc]
      · rw [List.drop_append, List.drop_eq_nil_of_le hfits, List.nil_append]
        exact hrest
    · -- the answer is cut in two, and the fill ends
      refine ⟨.data (bytes.drop (n - filled.length)) :: events, ?_, ?_⟩
      · rw [List.take_append_of_le_length (by omega)]
      · rw [List.drop_append_of_le_length (by omega)]
        refine .data (fun hnil => ?_) h
        have := congrArg List.length hnil
        rw [List.length_drop, List.length_nil] at this
        omega
    · -- the buffer is full already
      rw [show n - filled.length = 0 by omega, List.take_zero, List.append_nil, List.drop_zero]
      exact ⟨_, rfl, .data hne h⟩
  | interrupted he h ih =>
    rw [RasenArchive.nextFill]
    split_ifs with hlt
    · exact ih hle
    · rw [show n - filled.length = 0 by omega, List.take_zero, List.append_nil, List.drop_zero]
      exact ⟨_, rfl, .interrupted he h⟩

/-- **A reader that delivers data** gives the pieces that the data is cut into, whatever the sizes
of its reads. -/
theorem Delivers.fills (hn : 0 < n) (h : Delivers reader data) : Fills n reader (cut n data) := by
  -- induction on what is left of the data
  induction hl : data.length using Nat.strong_induction_on generalizing reader data with
  | h l ih =>
    obtain ⟨reader', hfill, hrest⟩ := @Delivers.nextFill n _ [] _ h (Nat.zero_le n)
    rw [List.nil_append, List.length_nil, Nat.sub_zero] at hfill
    by_cases hd : data = []
    · -- the data is at its end
      subst hd
      rw [cut_nil]
      exact .done (by simpa using hfill)
    · have hpos := List.length_pos_iff.mpr hd
      rw [cut_of_ne_nil hn hd]
      -- the first piece, and those of the rest
      refine .more hfill ?_ (ih (data.length - n) (by omega) hrest (by simp))
      rw [Ne, List.take_eq_nil_iff]
      rintro (h0 | h0)
      · omega
      · exact hd h0

/-! ## Readers that resume -/

/-- The next answer of the reader that is no interruption has bytes. -/
def givesMore : List ReadEvent → Bool
  | [] => false
  | .data bytes :: _ => decide (bytes ≠ [])
  | .error e :: events => decide (e.kind = .interrupted) && givesMore events

/-- With `k` of `n` bytes filled in: some call answers `Ok(0)` while a buffer is partly filled, and
the next one has bytes again. -/
def resumesFrom (n : ℕ) : List ReadEvent → ℕ → Bool
  | [], _ => false
  | .data bytes :: events, k =>
    if bytes = [] then decide (k ≠ 0) && givesMore events
    else resumesFrom n events ((k + bytes.length) % n)
  | .error e :: events, k => decide (e.kind = .interrupted) && resumesFrom n events k

/-- The reader resumes after an `Ok(0)` in the middle of a chunk of `n` bytes. -/
def resumes (n : ℕ) (events : List ReadEvent) : Bool := resumesFrom n events 0

/-- The next fill has bytes exactly when the next answer has. -/
theorem givesMore_iff (hn : 0 < n) (h : nextFill n reader [] = (.ok bytes, reader')) :
    givesMore reader = true ↔ bytes ≠ [] := by
  induction reader with
  | nil =>
    cases h
    simp [givesMore]
  | cons event events ih =>
    cases event with
    | data bs =>
      rw [nextFill, if_pos (show ([] : Bytes).length < n from hn)] at h
      by_cases hnil : bs = []
      · rw [if_pos hnil] at h
        cases h
        -- the next answer is `Ok(0)`
        simp [givesMore, hnil]
      · have hpos := List.length_pos_iff.mpr hnil
        rw [if_neg hnil] at h
        -- the fill begins with these bytes
        refine iff_of_true (by simpa [givesMore] using hnil) ?_
        split_ifs at h with hfits
        · rintro rfl
          have := (prefix_nextFill h).length_le
          simp only [List.nil_append, List.length_nil] at this
          omega
        · cases h
          rw [List.nil_append, Ne, List.take_eq_nil_iff]
          rintro (h0 | h0)
          · simp only [List.length_nil] at h0
            omega
          · exact hnil h0
    | error e =>
      rw [nextFill, if_pos (show ([] : Bytes).length < n from hn)] at h
      split_ifs at h with hint
      · -- an interruption is skipped
        rw [givesMore, hint]
        simpa using ih h
      · cases h

/-- Scanning goes on after a full buffer as from the start of a chunk, and ends after a short one
with the question whether the reader gives more. -/
theorem resumesFrom_nextFill (hlt : filled.length < n)
    (h : nextFill n events filled = (.ok bytes, events')) :
    resumesFrom n events filled.length =
      if bytes.length = n then resumesFrom n events' 0
      else decide (bytes ≠ []) && givesMore events' := by
  induction events generalizing filled with
  | nil =>
    cases h
    rw [if_neg (by omega)]
    simp [resumesFrom, givesMore]
  | cons event events ih =>
    cases event with
    | data bs =>
      rw [nextFill, if_pos hlt] at h
      rw [resumesFrom]
      split_ifs at h with hnil hfits
      · -- `Ok(0)` ends the fill, and what follows decides
        cases h
        rw [if_pos hnil, if_neg hlt.ne]
        simp [List.length_eq_zero_iff]
      · rw [if_neg hnil]
        by_cases hfull : (filled ++ bs).length < n
        · rw [← ih hfull h, List.length_append]
          rw [List.length_append] at hfull
          rw [Nat.mod_eq_of_lt hfull]
        · -- the buffer is full, and the fill ends without another call
          have hn : filled.length + bs.length = n := by
            rw [List.length_append] at hfull
            omega
          have hstop : nextFill n events (filled ++ bs) = (.ok (filled ++ bs), events) := by
            cases events with
            | nil => rfl
            | cons event events => cases event <;> rw [nextFill, if_neg hfull]
          rw [hstop] at h
          cases h
          rw [if_pos (by rw [List.length_append]; exact hn), hn, Nat.mod_self]
      · -- the answer reaches over the end of the chunk
        cases h
        have hlen : (filled ++ bs.take (n - filled.length)).length = n := by
          rw [List.length_append, List.length_take]
          omega
        have hdrop : bs.drop (n - filled.length) ≠ [] := by
          rw [Ne, List.drop_eq_nil_iff]
          omega
        rw [if_neg hnil, if_pos hlen, resumesFrom, if_neg hdrop, List.length_drop, Nat.zero_add,
          Nat.mod_eq_sub_mod (show n ≤ filled.length + bs.length by omega)]
        congr 2
        omega
    | error e =>
      rw [nextFill, if_pos hlt] at h
      split_ifs at h with hint
      · -- an interruption is skipped
        rw [resumesFrom, hint]
        simpa using ih hlt h
      · cases h

/-- **Only a reader that resumes** gives a short piece before the last one. -/
theorem Fills.fullButLast_iff (hn : 0 < n) {ps : List Bytes} (h : Fills n reader ps) :
    FullButLast n ps ↔ resumes n reader = false := by
  -- induction on the pieces
  induction h with
  | done h =>
    have hscan := @resumesFrom_nextFill n _ _ [] _ hn h
    rw [if_neg (show ([] : Bytes).length ≠ n by simpa using hn.ne)] at hscan
    refine iff_of_true fullButLast_nil ?_
    rw [resumes]
    simpa using hscan
  | @more reader reader' piece pieces h hne hrest ih =>
    have hscan : resumes n reader =
        if piece.length = n then resumes n reader' else decide (piece ≠ []) && givesMore reader' :=
      @resumesFrom_nextFill n _ _ [] _ hn h
    rw [hscan]
    -- a full piece decides nothing; a short one must be the last
    by_cases hfull : piece.length = n
    · rw [if_pos hfull, ← ih]
      by_cases hnil : pieces = []
      · subst hnil
        exact iff_of_true (fullButLast_singleton _) fullButLast_nil
      · rw [fullButLast_cons hnil]
        exact and_iff_right hfull
    · rw [if_neg hfull]
      simp only [ne_eq, hne, not_false_eq_true, decide_true, Bool.true_and]
      cases hrest with
      | done h' =>
        refine iff_of_true (fullButLast_singleton _) ?_
        have hmore := givesMore_iff hn h'
        simpa using hmore
      | more h' hne' _ =>
        rw [fullButLast_cons (by simp), (givesMore_iff hn h').mpr hne']
        simp [hfull]

end RasenArchive
