import RasenArchive.Error
import RasenArchive.Library.SplitJoin

/-!
# Virtual paths

`normalize_path`, the one canonical form that the packer, the table of contents and every lookup
agree on. A `str` is a `String`; its bytes are its UTF-8 encoding.

## Main definitions

* `asBytes`, `fromUtf8`: the bytes of a string, and the string with given bytes
* `normalizePath`: the normal form of a path
* `parts p`, `keptParts ps`: the components of a path, and those that its normal form keeps
* `Normalizable`, `Canonical`: a path with a normal form, and the shape of normal forms
* `AssetId`: the identifier of an asset

## Main results

* `normalizePath_eq_ok_iff`: when a path has a normal form, and which one
* `normalizePath_idempotent`: a normal form is its own normal form
* `utf8ByteSize_le_of_normalizePath`: a normal form is no longer than the path
* `normalization_canonical`: which paths have a normal form, its shape, and when it is the same
-/

namespace RasenArchive

/-! ## Strings and their bytes -/

/-- `str::as_bytes`. -/
def asBytes (s : String) : Bytes := s.toByteArray.data.toList

/-- `std::str::from_utf8`. -/
def fromUtf8 (bs : Bytes) : Option String := String.fromUTF8? ⟨bs.toArray⟩

theorem asBytes_ofList (cs : List Char) :
    asBytes (String.ofList cs) = cs.flatMap String.utf8EncodeChar := by
  simp [asBytes, String.ofList, List.utf8Encode]

theorem asBytes_eq (s : String) : asBytes s = s.toList.flatMap String.utf8EncodeChar := by
  rw [← asBytes_ofList, String.ofList_toList]

theorem asBytes_injective : Function.Injective asBytes := by
  intro s t h
  apply String.toByteArray_inj.mp
  apply ByteArray.ext
  exact Array.toList_inj.mp h

@[simp] theorem length_asBytes (s : String) : (asBytes s).length = s.utf8ByteSize := rfl

@[simp] theorem asBytes_empty : asBytes "" = [] := rfl

theorem fromUtf8_eq_some_iff {bs : Bytes} {s : String} :
    fromUtf8 bs = some s ↔ asBytes s = bs := by
  unfold fromUtf8 String.fromUTF8?
  constructor
  · intro h
    split at h
    · cases h
      rfl
    · cases h
  · rintro rfl
    have h : (⟨(asBytes s).toArray⟩ : ByteArray) = s.toByteArray := by simp [asBytes]
    rw [h, dif_pos s.isValidUTF8]
    rfl

theorem utf8ByteSize_eq_sum (s : String) :
    s.utf8ByteSize = (s.toList.map Char.utf8Size).sum := by
  rw [← length_asBytes, asBytes_eq, List.length_flatMap]
  simp

theorem zero_ne_ofNat {n : ℕ} (h : 0 < n) (h' : n < 256) : (0 : UInt8) ≠ UInt8.ofNat n := by
  intro he
  have := congrArg UInt8.toNat he
  simp at this
  omega

/-- Only the NUL character has a zero byte in its encoding. -/
theorem zero_mem_utf8EncodeChar {c : Char} : 0 ∈ String.utf8EncodeChar c ↔ c = '\x00' := by
  constructor
  · intro h
    apply Char.ext
    apply UInt32.toNat_inj.mp
    show c.val.toNat = 0
    unfold String.utf8EncodeChar at h
    simp only at h
    split_ifs at h <;> simp only [List.mem_cons, List.not_mem_nil, or_false] at h
    · by_contra hv
      exact zero_ne_ofNat (by omega) (by omega) h
    · rcases h with h | h <;> exact absurd h (zero_ne_ofNat (by omega) (by omega))
    · rcases h with h | h | h <;> exact absurd h (zero_ne_ofNat (by omega) (by omega))
    · rcases h with h | h | h | h <;> exact absurd h (zero_ne_ofNat (by omega) (by omega))
  · rintro rfl
    decide

theorem zero_mem_asBytes {s : String} : 0 ∈ asBytes s ↔ '\x00' ∈ s.toList := by
  rw [asBytes_eq, List.mem_flatMap]
  constructor
  · rintro ⟨c, hc, hz⟩
    rwa [zero_mem_utf8EncodeChar.mp hz] at hc
  · exact fun h => ⟨_, h, zero_mem_utf8EncodeChar.mpr rfl⟩

/-! ## Normalisation -/

/-- `u16::MAX`: the longest path, in bytes. -/
def maxPathLen : ℕ := 65535

/-- The most components of a path that are looked at. -/
def maxPathSegments : ℕ := 1024

/-- The separators `['/', '\\']`. -/
def isSeparator (c : Char) : Bool := c == '/' || c == '\\'

/-- `path.split(['/', '\\'])`. -/
def parts (path : List Char) : List (List Char) := path.splitOnP isSeparator

/-- The loop of `normalize_path` over the parts from number `i` on, with the text built so far. -/
def normalizeParts : ℕ → List Char → List (List Char) → Result (List Char)
  | _, normalized, [] => pure normalized
  | i, normalized, part :: rest => do
    ensure (i < maxPathSegments) .invalidPath
    -- an empty part comes of doubled or trailing separators
    if part = [] ∨ part = ['.'] then
      normalizeParts (i + 1) normalized rest
    else if part = ['.', '.'] then
      failWith .invalidPath
    else
      normalizeParts (i + 1)
        ((if normalized ≠ [] then normalized ++ ['/'] else normalized) ++ part) rest

/-- `path.starts_with(['/', '\\'])`. -/
def startsWithSeparator (path : String) : Bool := path.toList.head?.any isSeparator

/-- `normalize_path`. -/
def normalizePath (path : String) : Result String := do
  ensure (path.utf8ByteSize ≤ maxPathLen ∧ 0 ∉ asBytes path) .invalidPath
  ensure (startsWithSeparator path = false) .invalidPath
  let normalized ← normalizeParts 0 [] (parts path.toList)
  let normalized := String.ofList normalized
  ensure (normalized ≠ "" ∧ normalized.utf8ByteSize ≤ maxPathLen) .invalidPath
  pure normalized

/-- `normalize_lookup_path`. -/
def normalizeLookupPath (path : String) : Result String := normalizePath path

/-- The parts that a normal form keeps: all but the empty ones and `.`. -/
def keptParts (ps : List (List Char)) : List (List Char) :=
  ps.filter fun part => decide (¬ (part = [] ∨ part = ['.']))

/-- The components of a path that its normal form keeps. -/
def components (path : String) : List (List Char) := keptParts (parts path.toList)

theorem mem_keptParts {ps : List (List Char)} {part : List Char} :
    part ∈ keptParts ps ↔ part ∈ ps ∧ part ≠ [] ∧ part ≠ ['.'] := by
  simp [keptParts]

@[simp] theorem keptParts_keptParts (ps : List (List Char)) :
    keptParts (keptParts ps) = keptParts ps := by
  simp [keptParts, List.filter_filter]

/-- **The loop** joins the parts it keeps, unless a part is `..` or there are too many parts. -/
theorem normalizeParts_eq_ok_iff {ps done : List (List Char)} (hdone : ∀ d ∈ done, d ≠ [])
    {i : ℕ} {q : List Char} (hi : i + ps.length ≤ maxPathSegments ∨ i ≤ maxPathSegments) :
    normalizeParts i (['/'].intercalate done) ps = .ok q ↔
      i + ps.length ≤ maxPathSegments ∧ ['.', '.'] ∉ ps ∧
        q = ['/'].intercalate (done ++ keptParts ps) := by
  -- induction on the parts that are left, with those joined so far
  induction ps generalizing i done with
  | nil =>
    simp only [normalizeParts, pure_eq_ok_iff, keptParts, List.filter_nil, List.append_nil,
      List.length_nil, List.not_mem_nil, not_false_eq_true, true_and]
    constructor
    · rintro rfl
      exact ⟨by omega, rfl⟩
    · exact fun h => h.2.symm
  | cons part ps ih =>
    simp only [normalizeParts, bind_eq_ok, ensure_eq_ok_iff, exists_const, List.length_cons,
      List.mem_cons]
    -- an empty part or `.` is dropped
    by_cases hdrop : part = [] ∨ part = ['.']
    · have hdots : ['.', '.'] ≠ part := by rcases hdrop with rfl | rfl <;> decide
      have hkept : keptParts (part :: ps) = keptParts ps := by
        simp only [keptParts]
        rw [List.filter_cons_of_neg (by rw [decide_eq_true_iff, not_not]; exact hdrop)]
      rw [if_pos hdrop, hkept]
      constructor
      · rintro ⟨hlt, h⟩
        obtain ⟨hle, hmem, rfl⟩ := (ih hdone (Or.inr hlt)).mp h
        exact ⟨by omega, by simp [hdots, hmem], rfl⟩
      · rintro ⟨hle, hmem, rfl⟩
        simp only [hdots, false_or] at hmem
        exact ⟨by omega, (ih hdone (Or.inl (by omega))).mpr ⟨by omega, hmem, rfl⟩⟩
    · rw [if_neg hdrop]
      -- `..` is refused
      by_cases hdots : part = ['.', '.']
      · simp [hdots]
      · have hkept : keptParts (part :: ps) = part :: keptParts ps := by
          simp only [keptParts]
          rw [List.filter_cons_of_pos (by simpa using hdrop)]
        have hne : part ≠ [] := fun h => hdrop (Or.inl h)
        have hdone' : ∀ d ∈ done ++ [part], d ≠ [] := by
          intro d hd
          rcases List.mem_append.mp hd with hd | hd
          · exact hdone d hd
          · rwa [List.mem_singleton.mp hd]
        -- the part is joined behind those before it
        have hjoin : (if ['/'].intercalate done ≠ [] then ['/'].intercalate done ++ ['/']
            else ['/'].intercalate done) ++ part = ['/'].intercalate (done ++ [part]) := by
          rw [SplitJoin.intercalate_concat]
          by_cases hd : done = []
          · simp [hd]
          · rw [if_pos ((SplitJoin.intercalate_eq_nil_iff hdone).not.mpr hd), if_neg hd]
        rw [if_neg hdots, hkept, hjoin]
        have happ : done ++ part :: keptParts ps = (done ++ [part]) ++ keptParts ps := by simp
        constructor
        · rintro ⟨hlt, h⟩
          obtain ⟨hle, hmem, rfl⟩ := (ih hdone' (Or.inr hlt)).mp h
          exact ⟨by omega, by simp [Ne.symm hdots, hmem], by rw [happ]⟩
        · rintro ⟨hle, hmem, rfl⟩
          simp only [Ne.symm hdots, false_or] at hmem
          exact ⟨by omega,
            (ih hdone' (Or.inl (by omega))).mpr ⟨by omega, hmem, by rw [happ]⟩⟩

theorem separator_of_mem_parts {path part : List Char} (h : part ∈ parts path) {c : Char}
    (hc : c ∈ part) : isSeparator c = false ∧ c ∈ path := SplitJoin.of_mem_splitOnP h hc

theorem utf8Size_of_isSeparator {c : Char} (h : isSeparator c = true) : c.utf8Size = 1 := by
  simp only [isSeparator, Bool.or_eq_true, beq_iff_eq] at h
  rcases h with rfl | rfl <;> decide

theorem parts_intercalate {ps : List (List Char)} (h : ∀ l ∈ ps, ∀ c ∈ l, isSeparator c = false)
    (hne : ps ≠ []) : parts (['/'].intercalate ps) = ps :=
  SplitJoin.splitOnP_intercalate rfl h hne

/-- Dropping parts makes a path no longer. -/
theorem utf8Size_intercalate_keptParts_le (path : List Char) :
    ((['/'].intercalate (keptParts (parts path))).map Char.utf8Size).sum ≤
      (path.map Char.utf8Size).sum := by
  by_cases hne : keptParts (parts path) = []
  · simp [hne]
  · have h₁ := SplitJoin.weight_intercalate Char.utf8Size (show Char.utf8Size '/' = 1 by decide) hne
    have h₂ := SplitJoin.weight_splitOnP Char.utf8Size
      (fun c hc => utf8Size_of_isSeparator hc) path
    have h₃ : ((keptParts (parts path)).map fun l => (l.map Char.utf8Size).sum + 1).sum ≤
        ((parts path).map fun l => (l.map Char.utf8Size).sum + 1).sum :=
      List.Sublist.sum_le_sum (List.Sublist.map _ List.filter_sublist) fun _ _ => Nat.zero_le _
    unfold parts at h₃ ⊢
    unfold parts at h₁
    omega

theorem startsWithSeparator_eq_false_iff {p : String} :
    startsWithSeparator p = false ↔ ∀ c ∈ p.toList.head?, isSeparator c = false := by
  simp [startsWithSeparator, Option.any_eq_false]

/-- **Normalisation**: which paths have a normal form, and what it is. -/
theorem normalizePath_eq_ok_iff {p q : String} :
    normalizePath p = .ok q ↔
      (p.utf8ByteSize ≤ maxPathLen ∧ '\x00' ∉ p.toList ∧
        (∀ c ∈ p.toList.head?, isSeparator c = false) ∧
        (parts p.toList).length ≤ maxPathSegments ∧ ['.', '.'] ∉ parts p.toList ∧
        components p ≠ []) ∧
      q = String.ofList (['/'].intercalate (components p)) := by
  have hloop : ∀ cs, normalizeParts 0 (['/'].intercalate []) (parts p.toList) = .ok cs ↔ _ :=
    fun cs => normalizeParts_eq_ok_iff (by simp) (Or.inr (Nat.zero_le _))
  simp only [List.intercalate_nil, List.nil_append, zero_add] at hloop
  have hkept : ∀ l ∈ components p, l ≠ [] := fun l hl => (mem_keptParts.mp hl).2.1
  have hempty : ∀ cs : List Char, String.ofList cs ≠ "" ↔ cs ≠ [] := by
    intro cs
    rw [Ne, ← String.ofList_nil, String.ofList_inj]
  simp only [normalizePath, bind_eq_ok, ensure_eq_ok_iff, exists_const, hloop, pure_eq_ok_iff,
    zero_mem_asBytes, hempty, startsWithSeparator_eq_false_iff]
  constructor
  · rintro ⟨⟨hsize, hnul⟩, hhead, cs, ⟨hlen, hdots, rfl⟩, ⟨hne, -⟩, rfl⟩
    refine ⟨⟨hsize, hnul, hhead, hlen, hdots, ?_⟩, rfl⟩
    exact (SplitJoin.intercalate_eq_nil_iff hkept).not.mp hne
  · rintro ⟨⟨hsize, hnul, hhead, hlen, hdots, hne⟩, rfl⟩
    refine ⟨⟨hsize, hnul⟩, hhead, _, ⟨hlen, hdots, rfl⟩, ⟨?_, ?_⟩, rfl⟩
    · exact (SplitJoin.intercalate_eq_nil_iff hkept).not.mpr hne
    · rw [utf8ByteSize_eq_sum] at hsize ⊢
      rw [String.toList_ofList]
      exact (utf8Size_intercalate_keptParts_le p.toList).trans hsize

theorem utf8ByteSize_le_of_normalizePath {p q : String} (h : normalizePath p = .ok q) :
    q.utf8ByteSize ≤ p.utf8ByteSize := by
  obtain ⟨-, rfl⟩ := normalizePath_eq_ok_iff.mp h
  rw [utf8ByteSize_eq_sum, utf8ByteSize_eq_sum, String.toList_ofList]
  exact utf8Size_intercalate_keptParts_le p.toList

/-- The components of a normal form are those of the path. -/
theorem parts_of_normalizePath {p q : String} (h : normalizePath p = .ok q) :
    parts q.toList = components p := by
  obtain ⟨⟨-, -, -, -, -, hne⟩, rfl⟩ := normalizePath_eq_ok_iff.mp h
  rw [String.toList_ofList]
  exact parts_intercalate
    (fun l hl c hc => (separator_of_mem_parts (mem_keptParts.mp hl).1 hc).1) hne

/-- **Normalisation is idempotent.** -/
theorem normalizePath_idempotent {p q : String} (h : normalizePath p = .ok q) :
    normalizePath q = .ok q := by
  have hparts := parts_of_normalizePath h
  have hcomp : components q = components p := by
    rw [components, hparts, components, keptParts_keptParts]
  obtain ⟨⟨hsize, hnul, -, hlen, hdots, hne⟩, hq⟩ := normalizePath_eq_ok_iff.mp h
  refine normalizePath_eq_ok_iff.mpr ⟨⟨?_, ?_, ?_, ?_, ?_, ?_⟩, ?_⟩
  · exact (utf8ByteSize_le_of_normalizePath h).trans hsize
  · rw [hq, String.toList_ofList]
    intro hmem
    rcases SplitJoin.mem_of_mem_intercalate hmem with hc | ⟨l, hl, hc⟩
    · cases hc
    · exact hnul (separator_of_mem_parts (mem_keptParts.mp hl).1 hc).2
  · rw [hq, String.toList_ofList]
    obtain ⟨l, ls, hls⟩ := List.exists_cons_of_ne_nil hne
    have hl : l ∈ components p := by simp [hls]
    obtain ⟨c, cs, rfl⟩ := List.exists_cons_of_ne_nil (mem_keptParts.mp hl).2.1
    have hc := (separator_of_mem_parts (mem_keptParts.mp hl).1 List.mem_cons_self).1
    rw [hls]
    intro d hd
    cases ls <;> simp_all [List.intercalate_cons_cons]
  · rw [hparts]
    exact (List.length_filter_le _ _).trans hlen
  · rw [hparts]
    exact fun hmem => hdots (mem_keptParts.mp hmem).1
  · rwa [hcomp]
  · rw [hcomp, hq]

theorem ne_empty_of_normalizePath {p q : String} (h : normalizePath p = .ok q) : q ≠ "" := by
  rintro rfl
  have := (normalizePath_eq_ok_iff.mp (normalizePath_idempotent h)).1.2.2.2.2.2
  exact this (by decide)

theorem utf8ByteSize_le_maxPathLen {p q : String} (h : normalizePath p = .ok q) :
    q.utf8ByteSize ≤ maxPathLen :=
  (utf8ByteSize_le_of_normalizePath h).trans (normalizePath_eq_ok_iff.mp h).1.1

/-- The only error of normalisation is `InvalidPath`. -/
theorem normalizeParts_error {i : ℕ} {acc : List Char} {ps : List (List Char)} {f : Fault}
    (h : normalizeParts i acc ps = .error f) : f = .error .invalidPath := by
  induction ps generalizing i acc with
  | nil => cases h
  | cons part ps ih =>
    rw [normalizeParts] at h
    by_cases hi : i < maxPathSegments
    · rw [ensure_of hi, ok_bind] at h
      split_ifs at h
      · exact ih h
      · cases h
        rfl
      all_goals exact ih h
    · unfold ensure at h
      rw [if_neg hi] at h
      cases h
      rfl

theorem normalizePath_error {p : String} {f : Fault} (h : normalizePath p = .error f) :
    f = .error .invalidPath := by
  unfold normalizePath ensure at h
  split_ifs at h
  · rw [ok_bind, ok_bind] at h
    cases hn : normalizeParts 0 [] (parts p.toList) with
    | error e =>
      rw [hn] at h
      cases h
      exact normalizeParts_error hn
    | ok cs =>
      rw [hn, ok_bind] at h
      dsimp only at h
      split_ifs at h
      · cases h
      · cases h
        rfl
  all_goals
    cases h
    rfl

/-! ## The canonical form -/

/-- The paths differ only in which of the separators they use. -/
def SameUpToSeparators (p p' : String) : Prop :=
  List.Forall₂ (fun c d => c = d ∨ (isSeparator c = true ∧ isSeparator d = true))
    p.toList p'.toList

/-- A path with a normal form. -/
structure Normalizable (p : String) : Prop where
  size_le : p.utf8ByteSize ≤ 65535
  no_nul : '\x00' ∉ p.toList
  relative : p.toList.head? ≠ some '/' ∧ p.toList.head? ≠ some '\\'
  parts_le : (parts p.toList).length ≤ 1024
  no_parent : ['.', '.'] ∉ parts p.toList
  named : ∃ part ∈ parts p.toList, part ≠ [] ∧ part ≠ ['.']

/-- The form of a normal path: the separators are single slashes inside of it, and its components
are names. -/
structure Canonical (q : String) : Prop where
  no_backslash : '\\' ∉ q.toList
  no_nul : '\x00' ∉ q.toList
  no_leading : q.toList.head? ≠ some '/'
  no_trailing : q.toList.getLast? ≠ some '/'
  no_doubled : ¬ ['/', '/'] <:+: q.toList
  no_dots : ∀ part ∈ parts q.toList, part ≠ ['.'] ∧ part ≠ ['.', '.']

theorem head_not_separator_iff {cs : List Char} :
    (∀ c ∈ cs.head?, isSeparator c = false) ↔ cs.head? ≠ some '/' ∧ cs.head? ≠ some '\\' := by
  cases cs with
  | nil => simp
  | cons c cs => simp [isSeparator]

/-- **Which paths have a normal form.** -/
theorem exists_normalizePath_iff {p : String} :
    (∃ q, normalizePath p = .ok q) ↔ Normalizable p := by
  have hnamed : components p ≠ [] ↔ ∃ part ∈ parts p.toList, part ≠ [] ∧ part ≠ ['.'] := by
    constructor
    · intro hne
      obtain ⟨part, hpart⟩ := List.exists_mem_of_ne_nil _ hne
      exact ⟨part, mem_keptParts.mp hpart⟩
    · rintro ⟨part, hpart⟩
      exact List.ne_nil_of_mem (mem_keptParts.mpr hpart)
  simp only [normalizePath_eq_ok_iff, head_not_separator_iff, hnamed]
  constructor
  · rintro ⟨q, ⟨hsize, hnul, hhead, hlen, hdots, hne⟩, -⟩
    exact ⟨hsize, hnul, hhead, hlen, hdots, hne⟩
  · intro h
    exact ⟨_, ⟨h.size_le, h.no_nul, h.relative, h.parts_le, h.no_parent, h.named⟩, rfl⟩

/-- **A normal path is in canonical form.** -/
theorem canonical_of_normalizePath {p q : String} (h : normalizePath p = .ok q) : Canonical q := by
  have hparts := parts_of_normalizePath h
  have hkept : [] ∉ parts q.toList := by
    rw [hparts]
    exact fun hmem => (mem_keptParts.mp hmem).2.1 rfl
  obtain ⟨⟨-, hnul, hhead, -, hdots, -⟩, -⟩ :=
    normalizePath_eq_ok_iff.mp (normalizePath_idempotent h)
  refine ⟨?_, hnul, (head_not_separator_iff.mp hhead).1, ?_, ?_, fun part hpart => ⟨?_, ?_⟩⟩
  · -- the only separators in the text are those that the components are joined with
    intro hmem
    rw [(normalizePath_eq_ok_iff.mp h).2, String.toList_ofList] at hmem
    rcases SplitJoin.mem_of_mem_intercalate hmem with hc | ⟨l, hl, hc⟩
    · exact absurd hc (by decide)
    · have hsep := (separator_of_mem_parts (mem_keptParts.mp hl).1 hc).1
      exact absurd hsep (by decide)
  · exact fun hlast => hkept (SplitJoin.nil_mem_splitOnP_of_getLast? rfl hlast)
  · exact fun hdouble => hkept (SplitJoin.nil_mem_splitOnP_of_infix rfl hdouble)
  · rw [hparts] at hpart
    exact (mem_keptParts.mp hpart).2.2
  · rintro rfl
    exact hdots hpart

/-- Two paths have the same normal form exactly when they have the same components. -/
theorem normalizePath_eq_iff {p p' q q' : String} (h : normalizePath p = .ok q)
    (h' : normalizePath p' = .ok q') : q = q' ↔ components p = components p' := by
  constructor
  · rintro rfl
    rw [← parts_of_normalizePath h, parts_of_normalizePath h']
  · intro hcomp
    rw [(normalizePath_eq_ok_iff.mp h).2, (normalizePath_eq_ok_iff.mp h').2, hcomp]

/-- A path has the same parts with other separators, and the same length. -/
theorem SameUpToSeparators.congr {p p' : String} (h : SameUpToSeparators p p') :
    parts p.toList = parts p'.toList ∧ p.utf8ByteSize = p'.utf8ByteSize ∧
      ('\x00' ∈ p.toList ↔ '\x00' ∈ p'.toList) ∧
      startsWithSeparator p = startsWithSeparator p' := by
  refine ⟨SplitJoin.splitOnP_congr h, ?_, ?_, ?_⟩
  · -- both separators are one byte long
    rw [utf8ByteSize_eq_sum, utf8ByteSize_eq_sum]
    refine congrArg List.sum (List.forall₂_eq_eq_eq ▸ ?_)
    refine List.forall₂_map_left_iff.mpr (List.forall₂_map_right_iff.mpr (h.imp ?_))
    rintro c d (rfl | ⟨hc, hd⟩)
    · rfl
    · rw [utf8Size_of_isSeparator hc, utf8Size_of_isSeparator hd]
  · -- neither of them is the zero character
    unfold SameUpToSeparators at h
    generalize p.toList = cs at h ⊢
    generalize p'.toList = ds at h ⊢
    induction h with
    | nil => simp
    | @cons c d cs ds hcd _ ih =>
      rw [List.mem_cons, List.mem_cons, ih]
      rcases hcd with rfl | ⟨hc, hd⟩
      · rfl
      · have hne : ∀ {e : Char}, isSeparator e = true → '\x00' ≠ e := by
          rintro e he rfl
          exact absurd he (by decide)
        simp [hne hc, hne hd]
  · -- only the first character matters
    unfold SameUpToSeparators at h
    unfold startsWithSeparator
    generalize p.toList = cs at h ⊢
    generalize p'.toList = ds at h ⊢
    cases h with
    | nil => rfl
    | cons hcd _ =>
      rcases hcd with rfl | ⟨hc, hd⟩
      · rfl
      · simp [hc, hd]

/-- **Separators do not matter**: normalisation answers the same with others. -/
theorem normalizePath_congr {p p' : String} (h : SameUpToSeparators p p') :
    normalizePath p = normalizePath p' := by
  obtain ⟨hparts, hsize, hnul, hstart⟩ := h.congr
  unfold normalizePath
  simp only [zero_mem_asBytes, hparts, hsize, hnul, hstart]

/-- **Path normalisation is canonical.** -/
theorem normalization_canonical :
    (∀ p, (∃ q, normalizePath p = .ok q) ↔ Normalizable p) ∧
    (∀ p q, normalizePath p = .ok q →
      q = String.ofList (['/'].intercalate (components p)) ∧ Canonical q ∧
        q.utf8ByteSize ≤ p.utf8ByteSize ∧ normalizePath q = .ok q) ∧
    (∀ p p' q q', normalizePath p = .ok q → normalizePath p' = .ok q' →
      (q = q' ↔ components p = components p')) ∧
    ∀ p p', SameUpToSeparators p p' → normalizePath p = normalizePath p' := by
  refine ⟨fun p => exists_normalizePath_iff, fun p q h => ?_, fun p p' q q' => normalizePath_eq_iff,
    fun p p' => normalizePath_congr⟩
  exact ⟨(normalizePath_eq_ok_iff.mp h).2, canonical_of_normalizePath h,
    utf8ByteSize_le_of_normalizePath h, normalizePath_idempotent h⟩

/-- A path with every part that is dropped, and both separators. -/
theorem normalization_canonical_small :
    Canonical "a/b" ∧ normalizePath "./a//b\\." = normalizePath "./a//b/." := by
  refine ⟨(normalization_canonical.2.1 "./a//b\\." "a/b" (by decide +kernel)).2.1, ?_⟩
  refine normalization_canonical.2.2.2 _ _ ?_
  have hpath : "./a//b\\.".toList = ['.', '/', 'a', '/', '/', 'b', '\\', '.'] := rfl
  have hpath' : "./a//b/.".toList = ['.', '/', 'a', '/', '/', 'b', '/', '.'] := rfl
  rw [SameUpToSeparators, hpath, hpath']
  simp [isSeparator]

/-! ## Identifiers -/

/-- The identifier of an asset: the hash of its normal path. -/
structure AssetId where
  get : UInt64
  deriving DecidableEq, Repr

/-- `AssetId::from_raw`. -/
def AssetId.fromRaw (value : UInt64) : AssetId := ⟨value⟩

/-- `AssetId` is ordered as its number. -/
instance : LinearOrder AssetId where
  le a b := a.get ≤ b.get
  lt a b := a.get < b.get
  le_refl a := UInt64.le_refl a.get
  le_trans _ _ _ := UInt64.le_trans
  lt_iff_le_not_ge a b := by
    show a.get < b.get ↔ a.get ≤ b.get ∧ ¬ b.get ≤ a.get
    rw [UInt64.not_le]
    exact ⟨fun h => ⟨UInt64.le_of_lt h, h⟩, fun h => h.2⟩
  le_antisymm a b h h' := by
    cases a
    cases b
    exact congrArg AssetId.mk (UInt64.le_antisymm h h')
  le_total a b := UInt64.le_total a.get b.get
  toDecidableLE a b := inferInstanceAs (Decidable (a.get ≤ b.get))
  toDecidableLT a b := inferInstanceAs (Decidable (a.get < b.get))
  toDecidableEq := inferInstance

end RasenArchive
