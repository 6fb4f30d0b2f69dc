import Mathlib.Data.List.DropRight
import TdUtils.Lib.Bytes
import TdUtils.Text.Unicode
import TdUtils.Text.UnicodeCategory
import TdUtils.Text.Utf8

/-!
# Text.CleanFilename — file names that can be used everywhere

`PathView` finds the last slash and the last dot; `clean_filename` filters what is in front of the dot and what is behind
it, and puts both together.  `none` is a failed check, or a read outside of a string.
-/

namespace TdUtils.Text

open Lib Bytes Utf8

/-! ### Parts of a path -/

/-- `narrow_cast<int32>` of a `size_t`. -/
def narrowInt32 (n : ℕ) : Option ℤ := if n < 2 ^ 31 then some n else none

/-- An `int32` as a `size_t`. -/
def toSize (x : ℤ) : ℕ := (x % 2 ^ 64).toNat

def substrFrom (s : List UInt8) (from_ : ℕ) : Option (List UInt8) :=
  if from_ ≤ s.length then some (s.drop from_) else none

def substr (s : List UInt8) (from_ size : ℕ) : Option (List UInt8) :=
  if from_ ≤ s.length then some ((s.drop from_).take (min size (s.length - from_))) else none

structure PathView where
  path : List UInt8
  lastSlash : ℤ
  lastDot : ℤ

namespace PathView

def isSlash (c : UInt8) : Bool := c = ch '/' ∨ c = ch '\\'

/-- The loop that looks for the last slash; `last_slash_` is one less than the number. -/
def slashLoop (path : List UInt8) : ℕ → Option ℤ
  | 0 => some (-1)
  | i + 1 => do
    let c ← path[i]?
    if isSlash c then return i else slashLoop path i

/-- The loop that looks for the last dot; `i` is one less than the number. -/
def dotLoop (path : List UInt8) (lastSlash : ℤ) : ℕ → Option ℤ
  | 0 => some path.length
  | i + 1 =>
    if (i : ℤ) > lastSlash + 1 then do
      let c ← path[i]?
      if c = ch '.' then return i else dotLoop path lastSlash i
    else some path.length

/-- The constructor. -/
def new (path : List UInt8) : Option PathView := do
  let size ← narrowInt32 path.length
  let lastSlash ← slashLoop path size.toNat
  let lastDot ← dotLoop path lastSlash path.length
  return ⟨path, lastSlash, lastDot⟩

def extension (v : PathView) : Option (List UInt8) :=
  if v.lastDot = v.path.length then some [] else substrFrom v.path (toSize (v.lastDot + 1))

def fileStem (v : PathView) : Option (List UInt8) :=
  substr v.path (toSize (v.lastSlash + 1)) (toSize (v.lastDot - v.lastSlash - 1))

end PathView

/-! ### The filter -/

/-- The characters in front of 127 that are not kept. -/
def refused : List ℕ := ['<', '>', ':', '"', '/', '\\', '|', '?', '*', '&', '\x60', '\''].map Char.toNat

def isOk (code : ℕ) : Option Bool := do
  if code < 32 then return false
  else if code < 127 then return code ∉ refused
  else
    let category ← getUnicodeSimpleCategory code
    return category = .letter ∨ category = .decimalNumber ∨ category = .number

section Filter

variable (T : UnicodeTables)

/-- The code that comes in the place of a code; the inner `none` is `continue`. -/
def filenameCode (code : ℕ) : Option (Option ℕ) := do
  if ← isOk code then return some code
  else if (← prepareSearchCharacter T code) = 0 then return none
  else return some 0x20

/-- The loop of `clean_filename_part`; none is too little fuel, too. -/
def cleanLoop (maxLength : ℕ) : ℕ → List UInt8 → List UInt8 → ℕ → Option (List UInt8)
  | 0, _, _, _ => none
  | fuel + 1, it, newName, size =>
    if it = [] ∨ maxLength ≤ size then some newName
    else do
      let (code, it) ← nextUtf8Unsafe it
      match ← filenameCode T code with
      | none => cleanLoop maxLength fuel it newName size
      | some code =>
        if newName = [] ∧ (code = 0x20 ∨ code = 0x2e) then cleanLoop maxLength fuel it newName size
        else cleanLoop maxLength fuel it (appendUtf8Character newName code) (size + 1)

def isSpaceOrDot (c : UInt8) : Bool := c = ch ' ' ∨ c = ch '.'

def cleanFilenamePart (name : List UInt8) (maxLength : ℕ) : Option (List UInt8) := do
  let newName ← cleanLoop T maxLength (name.length + 1) name [] 0
  return newName.rdropWhile isSpaceOrDot

def cleanFilename (name : List UInt8) : Option (List UInt8) :=
  if ¬ checkUtf8 name then some []
  else do
    let pathView ← PathView.new name
    let filename ← cleanFilenamePart T (← pathView.fileStem) 60
    let extension ← cleanFilenamePart T (← pathView.extension) 20
    if extension ≠ [] then
      if filename = [] then return extension else return filename ++ ch '.' :: extension
    else return filename

end Filter

/-! ### The parts are UTF-8 -/

namespace PathView

variable {path : List UInt8}

theorem slash_ascii {c : UInt8} (h : isSlash c = true) : c.toNat < 0x80 := by
  rcases of_decide_eq_true h with rfl | rfl <;> decide

/-- The loop ends in front of the first character, or at a slash. -/
theorem slashLoop_spec {n : ℕ} (hn : n ≤ path.length) : ∃ k ≤ n, slashLoop path n = some ((k : ℤ) - 1) ∧
    (k = 0 ∨ ∃ c, path[k - 1]? = some c ∧ isSlash c = true) := by
  induction n with
  | zero => exact ⟨0, Nat.le_refl 0, rfl, .inl rfl⟩
  | succ n ih =>
    have hget : path[n]? = some path[n] := List.getElem?_eq_getElem hn
    rw [slashLoop, hget]
    by_cases hslash : isSlash path[n] = true
    · refine ⟨n + 1, Nat.le_refl _, ?_, .inr ⟨_, hget, hslash⟩⟩
      simp [hslash]
    · obtain ⟨k, hk, hrun, hend⟩ := ih (Nat.le_of_succ_le hn)
      refine ⟨k, hk.trans (Nat.le_succ n), ?_, hend⟩
      simp [hslash, hrun]

/-- The loop ends at a dot behind the first character of the file name, or finds none. -/
theorem dotLoop_spec {n k : ℕ} (hn : n ≤ path.length) : dotLoop path (k - 1) n = some path.length ∨
    ∃ j : ℕ, dotLoop path (k - 1) n = some (j : ℤ) ∧ k < j ∧ path[j]? = some (ch '.') := by
  induction n with
  | zero => exact .inl rfl
  | succ n ih =>
    have hget : path[n]? = some path[n] := List.getElem?_eq_getElem hn
    rw [dotLoop]
    by_cases hfar : (n : ℤ) > (k : ℤ) - 1 + 1
    · rw [if_pos hfar, hget]
      by_cases hdot : path[n] = ch '.'
      · refine .inr ⟨n, ?_, by omega, by rw [hget, hdot]⟩
        simp [hdot]
      · have hrest := ih (Nat.le_of_succ_le hn)
        simpa [hdot] using hrest
    · rw [if_neg hfar]
      exact .inl rfl

theorem valid_split {s : List UInt8} {i : ℕ} {a : UInt8} (hget : s[i]? = some a) (ha : a.toNat < 0x80) :
    Valid s ↔ Valid (s.take i) ∧ Valid (s.drop (i + 1)) := by
  obtain ⟨hi, rfl⟩ := List.getElem?_eq_some_iff.mp hget
  have hsplit : s = s.take i ++ s[i] :: s.drop (i + 1) := by
    rw [← List.drop_eq_getElem_cons hi, List.take_append_drop]
  rw [← valid_append_cons ha, ← hsplit]

theorem toSize_natCast {n : ℕ} (hn : n < 2 ^ 64) : toSize n = n := by
  unfold toSize
  omega

/-- A path has a stem and an extension, and they are UTF-8 with it. -/
theorem exists_parts (hlen : path.length < 2 ^ 31) (hvalid : Valid path) : ∃ v stem ext,
    new path = some v ∧ v.fileStem = some stem ∧ v.extension = some ext ∧ Valid stem ∧ Valid ext := by
  obtain ⟨k, hk, hslash, hfirst⟩ := slashLoop_spec (Nat.le_refl path.length)
  have hfile : Valid (path.drop k) := by
    rcases hfirst with rfl | ⟨c, hget, hc⟩
    · exact hvalid
    · by_cases hzero : k = 0
      · rw [hzero]
        exact hvalid
      · have hsplit := ((valid_split hget (slash_ascii hc)).mp hvalid).2
        rwa [Nat.sub_add_cancel (Nat.pos_of_ne_zero hzero)] at hsplit
  have hstart : toSize ((k : ℤ) - 1 + 1) = k := by
    rw [Int.sub_add_cancel, toSize_natCast (by omega)]
  have hnew : ∀ d, dotLoop path (k - 1) path.length = some d → new path = some ⟨path, k - 1, d⟩ := by
    intro d hdot
    unfold new narrowInt32
    rw [if_pos hlen]
    simp only [Option.bind_eq_bind, Option.bind_some, Int.toNat_natCast, hslash, hdot]
    rfl
  rcases dotLoop_spec (k := k) (Nat.le_refl path.length) with hdot | ⟨j, hdot, hkj, hget⟩
  · refine ⟨_, path.drop k, [], hnew _ hdot, ?_, if_pos rfl, hfile, valid_nil⟩
    have hsize : toSize (path.length - ((k : ℤ) - 1) - 1) = path.length - k := by
      rw [show path.length - ((k : ℤ) - 1) - 1 = ((path.length - k : ℕ) : ℤ) by omega, toSize_natCast (by omega)]
    show substr path (toSize ((k : ℤ) - 1 + 1)) (toSize (path.length - ((k : ℤ) - 1) - 1)) = _
    rw [hstart, hsize, substr, if_pos hk, Nat.min_self, List.take_of_length_le (by rw [List.length_drop])]
  · obtain ⟨hj, -⟩ := List.getElem?_eq_some_iff.mp hget
    have hget' : (path.drop k)[j - k]? = some (ch '.') := by
      rw [List.getElem?_drop, Nat.add_sub_cancel' hkj.le, hget]
    obtain ⟨hstem, hext⟩ := (valid_split hget' (by decide)).mp hfile
    have hrest : j - k + 1 + k = j + 1 := by omega
    rw [List.drop_drop, Nat.add_comm k, hrest] at hext
    refine ⟨_, _, _, hnew _ hdot, ?_, ?_, hstem, hext⟩
    · have hsize : toSize ((j : ℤ) - ((k : ℤ) - 1) - 1) = j - k := by
        rw [show (j : ℤ) - ((k : ℤ) - 1) - 1 = ((j - k : ℕ) : ℤ) by omega, toSize_natCast (by omega)]
      show substr path (toSize ((k : ℤ) - 1 + 1)) (toSize ((j : ℤ) - ((k : ℤ) - 1) - 1)) = _
      rw [hstart, hsize, substr, if_pos hk, Nat.min_eq_left (by omega)]
    · have hnext : toSize ((j : ℤ) + 1) = j + 1 := toSize_natCast (n := j + 1) (by omega)
      have hne : ¬ ((j : ℤ) = path.length) := by omega
      show (if (j : ℤ) = path.length then _ else substrFrom path (toSize ((j : ℤ) + 1))) = _
      rw [if_neg hne, hnext, substrFrom, if_pos (by omega)]

end PathView

/-! ### What is kept -/

/-- The control characters of Unicode. -/
def Control (c : ℕ) : Prop := c < 32 ∨ 127 ≤ c ∧ c < 160

/-- A character that a clean name may have. -/
def Allowed (c : ℕ) : Prop := Scalar c ∧ ¬ Control c ∧ c ∉ refused

def SpaceOrDot (c : ℕ) : Prop := c = 0x20 ∨ c = 0x2e

/-- The start of a clean name. -/
structure Started (maxLength : ℕ) (cs : List ℕ) : Prop where
  few : cs.length ≤ maxLength
  allowed : ∀ c ∈ cs, Allowed c
  starts : ∀ c ∈ cs.head?, ¬ SpaceOrDot c

/-- The characters of a clean name, or of a part of it. -/
structure Clean (maxLength : ℕ) (cs : List ℕ) : Prop extends Started maxLength cs where
  ends : ∀ c ∈ cs.getLast?, ¬ SpaceOrDot c

theorem allowed_space : Allowed 0x20 := by
  refine ⟨.inl (by decide), ?_, by decide⟩
  unfold Control
  omega

theorem isOk_spec {c : ℕ} (hc : Scalar c) : ∃ ok, isOk c = some ok ∧ (ok = true → Allowed c) := by
  have hlt : c < 0x110000 := by
    unfold Scalar at hc
    omega
  have hrefused : ∀ d ∈ refused, d < 127 := by decide
  unfold isOk
  by_cases hcontrol : c < 32
  · exact ⟨false, if_pos hcontrol, fun h => absurd h Bool.false_ne_true⟩
  rw [if_neg hcontrol]
  by_cases hascii : c < 127
  · refine ⟨_, if_pos hascii, fun h => ⟨hc, ?_, of_decide_eq_true h⟩⟩
    unfold Control
    omega
  rw [if_neg hascii]
  obtain ⟨category, hcategory⟩ := exists_category hlt
  rw [hcategory]
  refine ⟨_, rfl, fun h => ⟨hc, ?_, fun hmem => hascii (hrefused c hmem)⟩⟩
  rintro (hsmall | ⟨hge, hsmall⟩)
  · exact hcontrol hsmall
  · rw [control_category c hsmall hge] at hcategory
    obtain rfl := Option.some.inj hcategory
    exact absurd h (by decide)

section Filter

variable (T : UnicodeTables)

theorem filenameCode_spec {c : ℕ} (hc : Scalar c) :
    ∃ r, filenameCode T c = some r ∧ ∀ d ∈ r, Allowed d := by
  obtain ⟨ok, hok, hallowed⟩ := isOk_spec hc
  obtain ⟨x, hx, -⟩ := T.prepareSearchCharacterTable.lookup_scalar hc
  have hprepare : prepareSearchCharacter T c = some x := hx
  unfold filenameCode
  rw [hok, hprepare]
  by_cases htrue : ok = true
  · refine ⟨some c, by simp [htrue], ?_⟩
    rintro d hd
    obtain rfl := Option.some.inj hd
    exact hallowed htrue
  · by_cases hzero : x = 0
    · exact ⟨none, by simp [htrue, hzero], fun d hd => absurd hd (by simp)⟩
    · refine ⟨some 0x20, by simp [htrue, hzero], ?_⟩
      rintro d hd
      obtain rfl := Option.some.inj hd
      exact allowed_space

/-- One more character. -/
theorem Started.concat {maxLength d : ℕ} {ds : List ℕ} (h : Started maxLength ds) (hfew : ds.length < maxLength)
    (hd : Allowed d) (hstart : ds = [] → ¬ SpaceOrDot d) : Started maxLength (ds ++ [d]) := by
  refine ⟨?_, List.forall_mem_append.mpr ⟨h.allowed, by simpa using hd⟩, ?_⟩
  · rw [List.length_append]
    exact hfew
  · intro c hc
    by_cases hds : ds = []
    · rw [hds] at hc
      obtain rfl := Option.some.inj hc
      exact hstart hds
    · rw [List.head?_append_of_ne_nil _ hds] at hc
      exact h.starts c hc

theorem flatMap_utf8_eq_nil {cs : List ℕ} : cs.flatMap utf8 = [] ↔ cs = [] := by
  cases cs with
  | nil => simp
  | cons c cs => simp [utf8_ne_nil]

theorem cleanLoop_spec (maxLength : ℕ) (cs : List ℕ) (hcs : ∀ c ∈ cs, Scalar c) {fuel : ℕ}
    (hfuel : cs.length < fuel) (ds : List ℕ) (hds : Started maxLength ds) :
    ∃ es, cleanLoop T maxLength fuel (cs.flatMap utf8) (ds.flatMap utf8) ds.length = some (es.flatMap utf8) ∧
      Started maxLength es := by
  induction cs generalizing fuel ds with
  | nil =>
    obtain ⟨fuel, rfl⟩ := Nat.exists_eq_succ_of_ne_zero (Nat.ne_of_gt hfuel)
    exact ⟨ds, if_pos (.inl rfl), hds⟩
  | cons c cs ih =>
    obtain ⟨fuel, rfl⟩ := Nat.exists_eq_succ_of_ne_zero (Nat.ne_of_gt (Nat.zero_lt_of_lt hfuel))
    obtain ⟨hc, htail⟩ := List.forall_mem_cons.mp hcs
    have hrest : cs.length < fuel := Nat.lt_of_succ_lt_succ hfuel
    have hne : ¬ (c :: cs).flatMap utf8 = [] := by
      rw [flatMap_utf8_eq_nil]
      exact List.cons_ne_nil _ _
    rw [cleanLoop]
    by_cases hfull : maxLength ≤ ds.length
    · rw [if_pos (.inr hfull)]
      exact ⟨ds, rfl, hds⟩
    rw [if_neg (not_or.mpr ⟨hne, hfull⟩), List.flatMap_cons, nextUtf8Unsafe_utf8 hc]
    obtain ⟨r, hr, hallowed⟩ := filenameCode_spec T hc
    simp only [Option.bind_eq_bind, Option.bind_some, hr, flatMap_utf8_eq_nil]
    rcases r with - | d
    · exact ih htail hrest ds hds
    · have hd := hallowed d rfl
      by_cases hskip : ds = [] ∧ (d = 0x20 ∨ d = 0x2e)
      · simp only [hskip, and_self, if_true]
        obtain ⟨rfl, -⟩ := hskip
        exact ih htail hrest [] hds
      · have hlt : d < 0x200000 := by
          have hscalar := hd.1
          unfold Scalar at hscalar
          omega
        have hconcat : (ds ++ [d]).flatMap utf8 = ds.flatMap utf8 ++ utf8 d := by simp
        have hlen : (ds ++ [d]).length = ds.length + 1 := List.length_append
        have hnext := ih htail hrest (ds ++ [d])
          (hds.concat (Nat.not_le.mp hfull) hd fun hnil hspace => hskip ⟨hnil, hspace⟩)
        rw [hconcat, hlen] at hnext
        simpa only [if_neg hskip, appendUtf8Character_eq hlt] using hnext

/-! ### The end of a part -/

/-- The last byte of a character is a space or a dot only if the character is. -/
theorem isSpaceOrDot_last {c : ℕ} (hc : Scalar c) : ∃ s b, utf8 c = s ++ [b] ∧
    (isSpaceOrDot b = true ↔ SpaceOrDot c) ∧ (SpaceOrDot c → s = []) := by
  by_cases hascii : c < 0x80
  · have hbyte : (UInt8.ofNat c).toNat = c := toNat_ofNat (by omega)
    have hspace : UInt8.ofNat c = ch ' ' ↔ c = 0x20 := by
      rw [← UInt8.toNat_inj, hbyte]
      rfl
    have hdot : UInt8.ofNat c = ch '.' ↔ c = 0x2e := by
      rw [← UInt8.toNat_inj, hbyte]
      rfl
    refine ⟨[], UInt8.ofNat c, if_pos hascii, ?_, fun _ => rfl⟩
    rw [isSpaceOrDot, decide_eq_true_iff, hspace, hdot]
    rfl
  · have hne := utf8_ne_nil c
    have hlast := utf8_high hc hascii _ (List.getLast_mem hne)
    have hnot : ¬ SpaceOrDot c := by
      unfold SpaceOrDot
      omega
    refine ⟨_, _, (List.dropLast_append_getLast hne).symm, ⟨fun htrue => ?_, fun h => absurd h hnot⟩,
      fun h => absurd h hnot⟩
    rcases of_decide_eq_true htrue with heq | heq <;> rw [heq] at hlast <;> exact absurd hlast (by decide)

theorem Started.trim {maxLength : ℕ} {ds : List ℕ} (h : Started maxLength ds) :
    ∃ es, (ds.flatMap utf8).rdropWhile isSpaceOrDot = es.flatMap utf8 ∧ Clean maxLength es := by
  induction ds using List.reverseRecOn with
  | nil => exact ⟨[], rfl, h, by simp⟩
  | append_singleton ds d ih =>
    obtain ⟨s, b, hutf8, hb, hone⟩ := isSpaceOrDot_last (h.allowed d (by simp)).1
    have hflat : (ds ++ [d]).flatMap utf8 = ds.flatMap utf8 ++ s ++ [b] := by
      rw [List.flatMap_append, List.flatMap_singleton, hutf8, List.append_assoc]
    rw [hflat, List.rdropWhile_concat]
    by_cases hspace : SpaceOrDot d
    · have hstart : Started maxLength ds := by
        refine ⟨?_, fun c hc => h.allowed c (List.mem_append_left _ hc), fun c hc => h.starts c ?_⟩
        · have hfew := h.few
          rw [List.length_append] at hfew
          omega
        · exact List.mem_head?_append_of_mem_head? hc
      rw [if_pos (hb.mpr hspace), hone hspace, List.append_nil]
      exact ih hstart
    · rw [if_neg fun htrue => hspace (hb.mp htrue), ← hflat]
      refine ⟨ds ++ [d], rfl, h, fun c hc => ?_⟩
      rw [List.getLast?_concat] at hc
      obtain rfl := Option.some.inj hc
      exact hspace

theorem cleanFilenamePart_spec (maxLength : ℕ) {name : List UInt8} (hname : Valid name) :
    ∃ cs, cleanFilenamePart T name maxLength = some (cs.flatMap utf8) ∧ Clean maxLength cs := by
  obtain ⟨cs, rfl, hcs⟩ := hname
  have hlen := length_le_flatMap_utf8 cs
  obtain ⟨ds, hrun, hds⟩ := cleanLoop_spec T maxLength cs hcs (Nat.lt_succ_of_le hlen) []
    ⟨Nat.zero_le _, by simp, by simp⟩
  obtain ⟨es, htrim, hes⟩ := hds.trim
  rw [List.flatMap_nil, List.length_nil] at hrun
  refine ⟨es, ?_, hes⟩
  rw [cleanFilenamePart, hrun, ← htrim]
  rfl

/-- A part with a dot and another part behind it. -/
theorem Clean.join {m n : ℕ} {cs ds : List ℕ} (hc : Clean m cs) (hd : Clean n ds) (hcs : cs ≠ []) (hds : ds ≠ []) :
    Clean (m + 1 + n) (cs ++ 0x2e :: ds) := by
  have hdot : Allowed 0x2e := by
    refine ⟨.inl (by decide), ?_, by decide⟩
    unfold Control
    omega
  refine ⟨⟨?_, ?_, ?_⟩, ?_⟩
  · have hm := hc.few
    have hn := hd.few
    rw [List.length_append, List.length_cons]
    omega
  · rw [List.forall_mem_append, List.forall_mem_cons]
    exact ⟨hc.allowed, hdot, hd.allowed⟩
  · rw [List.head?_append_of_ne_nil _ hcs]
    exact hc.starts
  · rw [List.getLast?_append_of_ne_nil _ (List.cons_ne_nil _ _), List.getLast?_cons_of_ne_nil hds]
    exact hd.ends

theorem Clean.mono {m n : ℕ} {cs : List ℕ} (h : Clean m cs) (hle : m ≤ n) : Clean n cs :=
  ⟨⟨h.few.trans hle, h.allowed, h.starts⟩, h.ends⟩

/-- A UTF-8 name that is short enough for `PathView` gets a clean name. -/
theorem cleanFilename_of_lt {name : List UInt8} (hname : Valid name) (hlen : name.length < 2 ^ 31) :
    ∃ cs, cleanFilename T name = some (cs.flatMap utf8) ∧ Clean 81 cs := by
  obtain ⟨v, stem, ext, hnew, hstem, hext, hvalid, hvalid'⟩ := PathView.exists_parts hlen hname
  obtain ⟨cs, hfile, hcs⟩ := cleanFilenamePart_spec T 60 hvalid
  obtain ⟨ds, hextension, hds⟩ := cleanFilenamePart_spec T 20 hvalid'
  unfold cleanFilename
  rw [if_neg (not_not.mpr ((checkUtf8_iff name).mpr hname)), hnew]
  simp only [Option.bind_eq_bind, Option.bind_some, hstem, hext, hfile, hextension, ne_eq, flatMap_utf8_eq_nil]
  by_cases hnone : ds = []
  · rw [if_neg (not_not.mpr hnone)]
    exact ⟨cs, rfl, hcs.mono (by decide)⟩
  rw [if_pos hnone]
  by_cases hempty : cs = []
  · rw [if_pos hempty]
    exact ⟨ds, rfl, hds.mono (by decide)⟩
  · rw [if_neg hempty]
    refine ⟨cs ++ 0x2e :: ds, ?_, hcs.join hds hempty hnone⟩
    rw [List.flatMap_append, List.flatMap_cons]
    rfl

end Filter

/-- A name of at most 81 characters, all of them allowed, without a space or a dot at its ends; so it is neither of
the names of directories. -/
def CleanName (r : List UInt8) : Prop :=
  (∃ cs, Encodes r cs ∧ Clean 81 cs) ∧ r ≠ chs ['.'] ∧ r ≠ chs ['.', '.']

theorem Clean.cleanName {cs : List ℕ} (h : Clean 81 cs) : CleanName (cs.flatMap utf8) := by
  have hencodes : Encodes (cs.flatMap utf8) cs := ⟨rfl, fun c hc => (h.allowed c hc).1⟩
  have hdots : ∀ ds : List ℕ, (∀ d ∈ 0x2e :: ds, Scalar d) → cs.flatMap utf8 ≠ (0x2e :: ds).flatMap utf8 := by
    intro ds hds heq
    obtain rfl := hencodes.inj ⟨heq, hds⟩
    exact h.starts 0x2e rfl (.inr rfl)
  have hscalar : Scalar 0x2e := .inl (by decide)
  exact ⟨⟨cs, hencodes, h⟩, hdots [] (by simpa using hscalar), hdots [0x2e] (by simpa using hscalar)⟩

theorem cleanFilename_of_large (T : UnicodeTables) {name : List UInt8} (hname : checkUtf8 name = true)
    (hlen : 2 ^ 31 ≤ name.length) : cleanFilename T name = none := by
  have hnew : PathView.new name = none := by
    unfold PathView.new narrowInt32
    rw [if_neg (by omega)]
    rfl
  unfold cleanFilename
  rw [if_neg (not_not.mpr hname), hnew]
  rfl

/-- **Clean file names.**  Only a UTF-8 name of `2 ^ 31` bytes fails, in the check of `PathView`; what comes from any
other is clean. -/
theorem cleanFilename_clean (T : UnicodeTables) (name : List UInt8) :
    (cleanFilename T name = none ↔ 2 ^ 31 ≤ name.length ∧ checkUtf8 name = true) ∧
      ∀ r, cleanFilename T name = some r → CleanName r := by
  by_cases hname : checkUtf8 name = true
  · by_cases hlen : name.length < 2 ^ 31
    · obtain ⟨cs, hrun, hcs⟩ := cleanFilename_of_lt T ((checkUtf8_iff name).mp hname) hlen
      rw [hrun]
      refine ⟨⟨fun h => absurd h (by simp), fun h => absurd hlen (Nat.not_lt.mpr h.1)⟩, fun r hr => ?_⟩
      obtain rfl := Option.some.inj hr
      exact hcs.cleanName
    · have hfail := cleanFilename_of_large T hname (Nat.not_lt.mp hlen)
      rw [hfail]
      exact ⟨⟨fun _ => ⟨Nat.not_lt.mp hlen, hname⟩, fun _ => rfl⟩, fun r hr => absurd hr (by simp)⟩
  · have hempty : cleanFilename T name = some [] := if_pos hname
    rw [hempty]
    refine ⟨⟨fun h => absurd h (by simp), fun h => absurd h.2 hname⟩, fun r hr => ?_⟩
    obtain rfl := Option.some.inj hr
    have hclean : Clean 81 [] := ⟨⟨Nat.zero_le _, by simp, by simp⟩, by simp⟩
    exact hclean.cleanName

/-- No name comes from `2 ^ 31` letters. -/
theorem large_name_fails : ¬ ∀ (T : UnicodeTables) (name : List UInt8), ∃ r, cleanFilename T name = some r ∧
    CleanName r := by
  intro hall
  have hvalid : Valid (List.replicate (2 ^ 31) 0x61) :=
    valid_of_ascii fun b hb => by rw [List.eq_of_mem_replicate hb]; decide
  have hlen : 2 ^ 31 ≤ (List.replicate (2 ^ 31) (0x61 : UInt8)).length := by
    rw [List.length_replicate]
  have hfail := cleanFilename_of_large ⟨.identity, .identity⟩ ((checkUtf8_iff _).mpr hvalid) hlen
  obtain ⟨r, hr, -⟩ := hall ⟨.identity, .identity⟩ (List.replicate (2 ^ 31) 0x61)
  rw [hfail] at hr
  exact absurd hr (by simp)

end TdUtils.Text
