import Mathlib.Data.Fintype.Basic
import Mathlib.Logic.Function.Basic
import TdUtils.Lib.Machine

/-!
# Concurrent.AtomicRead — readers copy a value word by word and then look whether it was written meanwhile

Each event is one operation on `version` or on one word; `memcpy` may copy the words in any order.  `none` is a
failed check.
-/

namespace TdUtils

/-- A reader is between two calls, before the first load of `version`, or copying; `dest` is what it has copied. -/
inductive AtomicRead.ReaderAt (n : ℕ) (β : Type) where
  | idle
  | load
  | copy (versionBefore : ℕ) (dest : Fin n → Option β)

open AtomicRead in
/-- `locked` are the writers that have a `Write`. -/
structure AtomicRead (ρ ω : Type) (n : ℕ) (β : Type) where
  version : ℕ := 0
  value : Fin n → β
  reader : ρ → ReaderAt n β := fun _ => .idle
  locked : ω → Bool := fun _ => false

namespace AtomicRead

inductive Event (ρ ω : Type) (n : ℕ) (β : Type) where
  | read (r : ρ)
  | load (r : ρ)
  | copy (r : ρ) (j : Fin n)
  | check (r : ρ)
  | lock (w : ω)
  | write (w : ω) (j : Fin n) (word : β)
  | unlock (w : ω)

/-- `unlocked` also answers with the value that the object has then. -/
inductive Answer (ρ : Type) (n : ℕ) (β : Type) where
  | nothing
  | unlocked (value : Fin n → β)
  | returned (r : ρ) (dest : Fin n → Option β)

variable {ρ ω β : Type} {n : ℕ} [DecidableEq ρ] [DecidableEq ω]

def goes (s : AtomicRead ρ ω n β) (r : ρ) (place : ReaderAt n β) : AtomicRead ρ ω n β :=
  { s with reader := Function.update s.reader r place }

def load (s : AtomicRead ρ ω n β) (r : ρ) : AtomicRead ρ ω n β :=
  if s.version % 2 = 0 then s.goes r (.copy s.version fun _ => none) else s

/-- The second load of `version`, when all words are copied. -/
def check (s : AtomicRead ρ ω n β) (r : ρ) (versionBefore : ℕ) (dest : Fin n → Option β) :
    AtomicRead ρ ω n β × Answer ρ n β :=
  if ∀ j, (dest j).isSome then
    if versionBefore = s.version then (s.goes r .idle, .returned r dest) else (s.goes r .load, .nothing)
  else (s, .nothing)

def doLock (s : AtomicRead ρ ω n β) (w : ω) : Option (AtomicRead ρ ω n β) :=
  if (s.version + 1) % 2 = 1 then
    some { s with version := s.version + 1, locked := Function.update s.locked w true }
  else none

def doUnlock (s : AtomicRead ρ ω n β) (w : ω) : Option (AtomicRead ρ ω n β) :=
  if (s.version + 1) % 2 = 0 then
    some { s with version := s.version + 1, locked := Function.update s.locked w false }
  else none

def step (s : AtomicRead ρ ω n β) : Event ρ ω n β → Option (AtomicRead ρ ω n β × Answer ρ n β)
  | .read r => match s.reader r with
    | .idle => some (s.goes r .load, .nothing)
    | _ => some (s, .nothing)
  | .load r => match s.reader r with
    | .load => some (s.load r, .nothing)
    | _ => some (s, .nothing)
  | .copy r j => match s.reader r with
    | .copy version dest => some (s.goes r (.copy version (Function.update dest j (some (s.value j)))), .nothing)
    | _ => some (s, .nothing)
  | .check r => match s.reader r with
    | .copy version dest => some (s.check r version dest)
    | _ => some (s, .nothing)
  | .lock w => if s.locked w then some (s, .nothing) else (s.doLock w).map fun s => (s, .nothing)
  | .write w j word =>
    if s.locked w then some ({ s with value := Function.update s.value j word }, .nothing) else some (s, .nothing)
  | .unlock w =>
    if s.locked w then (s.doUnlock w).map fun t => (t, .unlocked s.value) else some (s, .nothing)

def machine (ρ ω : Type) (n : ℕ) (β : Type) [DecidableEq ρ] [DecidableEq ω] :
    Lib.Machine (AtomicRead ρ ω n β) (Event ρ ω n β) (Answer ρ n β) := ⟨step⟩

/-- A `Write` is made only while there is no other. -/
def Apart (s : AtomicRead ρ ω n β) : Event ρ ω n β → Prop
  | .lock _ => ∀ w, s.locked w = false
  | _ => True

def start (value : Fin n → β) : AtomicRead ρ ω n β := { value := value }

/-- The values that the object had as a whole, before and after each complete write. -/
def wholes (value : Fin n → β) (answers : List (Answer ρ n β)) : List (Fin n → β) :=
  value :: answers.filterMap fun answer => match answer with
    | .unlocked value => some value
    | _ => none

/-! ### The invariant -/

/-- While `version` is the same, what was copied is what is there. -/
def ReaderOk (s : AtomicRead ρ ω n β) : ReaderAt n β → Prop
  | .copy version dest => version % 2 = 0 ∧ version ≤ s.version ∧
      (version = s.version → ∀ j word, dest j = some word → s.value j = word)
  | _ => True

structure Inv (s : AtomicRead ρ ω n β) (value : Fin n → β) (answers : List (Answer ρ n β)) : Prop where
  one : ∀ v w, s.locked v = true → s.locked w = true → v = w
  odd : s.version % 2 = 1 ↔ ∃ w, s.locked w = true
  whole : s.version % 2 = 0 → (wholes value answers).getLast? = some s.value
  reader : ∀ r, ReaderOk s (s.reader r)

variable {s t : AtomicRead ρ ω n β} {value : Fin n → β} {answers : List (Answer ρ n β)}

omit [DecidableEq ρ] [DecidableEq ω] in
theorem inv_start : Inv (start value : AtomicRead ρ ω n β) value [] where
  one := fun _ _ h => by cases h
  odd := ⟨fun h => (by cases h), fun ⟨_, h⟩ => (by cases h)⟩
  whole := fun _ => rfl
  reader := fun _ => trivial

omit [DecidableEq ρ] in
theorem wholes_concat (answer : Answer ρ n β) (hanswer : ∀ v, answer ≠ .unlocked v) :
    wholes value (answers ++ [answer]) = wholes value answers := by
  unfold wholes
  rw [List.filterMap_append]
  cases answer with
  | unlocked v => exact absurd rfl (hanswer v)
  | _ => exact congrArg (value :: ·) (List.append_nil _)

omit [DecidableEq ω] in
/-- A reader moves. -/
theorem Inv.goes (h : Inv s value answers) (r : ρ) (place : ReaderAt n β) (hplace : ReaderOk s place)
    (answer : Answer ρ n β) (hanswer : ∀ v, answer ≠ .unlocked v) : Inv (s.goes r place) value (answers ++ [answer]) where
  one := h.one
  odd := h.odd
  whole := by
    rw [wholes_concat answer hanswer]
    exact h.whole
  reader := by
    intro q
    show ReaderOk s (Function.update s.reader r place q)
    by_cases hq : q = r
    · rw [hq, Function.update_self]
      exact hplace
    · rw [Function.update_of_ne hq]
      exact h.reader q

omit [DecidableEq ρ] [DecidableEq ω] in
theorem Inv.same (h : Inv s value answers) : Inv s value (answers ++ [Answer.nothing]) where
  one := h.one
  odd := h.odd
  whole := by
    rw [wholes_concat .nothing fun v hv => by cases hv]
    exact h.whole
  reader := h.reader

omit [DecidableEq ρ] [DecidableEq ω] in
/-- `version` has moved on, so nobody has copied at this version. -/
theorem ReaderOk.later {place : ReaderAt n β} (h : ReaderOk s place) (hversion : s.version < t.version) :
    ReaderOk t place := by
  cases place with
  | copy version dest => exact ⟨h.1, h.2.1.trans hversion.le, fun heq => absurd h.2.1 (by omega)⟩
  | _ => trivial

/-! ### Steps -/

omit [DecidableEq ω] in
theorem Inv.load (h : Inv s value answers) (r : ρ) : Inv (s.load r) value (answers ++ [Answer.nothing]) := by
  unfold AtomicRead.load
  by_cases heven : s.version % 2 = 0
  · rw [if_pos heven]
    exact h.goes r (.copy s.version fun _ => none) ⟨heven, le_rfl, fun _ _ _ hword => (by cases hword)⟩ .nothing
       fun v hv => by cases hv
  · rw [if_neg heven]
    exact h.same

omit [DecidableEq ω] in
theorem Inv.copy (h : Inv s value answers) {r : ρ} {version : ℕ} {dest : Fin n → Option β}
    (hat : s.reader r = .copy version dest) (j : Fin n) :
    Inv (s.goes r (.copy version (Function.update dest j (some (s.value j))))) value (answers ++ [Answer.nothing]) := by
  obtain ⟨heven, hle, hsame⟩ : ReaderOk s (.copy version dest) := by
    rw [← hat]
    exact h.reader r
  refine h.goes r (.copy version (Function.update dest j (some (s.value j))))
    ⟨heven, hle, fun heq i word hword => ?_⟩ .nothing fun v hv => by cases hv
  by_cases hi : i = j
  · rw [hi, Function.update_self] at hword
    rw [hi]
    exact Option.some.inj hword
  · rw [Function.update_of_ne hi] at hword
    exact hsame heq i word hword

omit [DecidableEq ρ] in
/-- `do_lock`, while there is no other `Write`. -/
theorem Inv.doLock (h : Inv s value answers) {w : ω} (hapart : ∀ v, s.locked v = false) :
    ∃ t, s.doLock w = some t ∧ Inv t value (answers ++ [Answer.nothing]) := by
  have heven : s.version % 2 = 0 := by
    by_contra hodd
    obtain ⟨v, hv⟩ := h.odd.mp (by omega)
    rw [hapart v] at hv
    cases hv
  have honly : ∀ v, Function.update s.locked w true v = true → v = w := by
    intro v hv
    by_contra hne
    rw [Function.update_of_ne hne, hapart v] at hv
    cases hv
  unfold AtomicRead.doLock
  rw [if_pos (by omega)]
  refine ⟨_, rfl, fun v v' hv hv' => (honly v hv).trans (honly v' hv').symm, ?_, fun hfalse => ?_, fun r => ?_⟩
  · exact ⟨fun _ => ⟨w, Function.update_self ..⟩, fun _ => show (s.version + 1) % 2 = 1 by omega⟩
  · have hfalse : (s.version + 1) % 2 = 0 := hfalse
    omega
  · exact (h.reader r).later (Nat.lt_succ_self s.version)

omit [DecidableEq ρ] in
theorem Inv.doUnlock (h : Inv s value answers) {w : ω} (hlocked : s.locked w = true) :
    ∃ t, s.doUnlock w = some t ∧ Inv t value (answers ++ [Answer.unlocked s.value]) := by
  have hodd := h.odd.mpr ⟨w, hlocked⟩
  have hnone : ∀ v, Function.update s.locked w false v = true → False := by
    intro v hv
    by_cases hvw : v = w
    · rw [hvw, Function.update_self] at hv
      cases hv
    · rw [Function.update_of_ne hvw] at hv
      exact hvw (h.one v w hv hlocked)
  unfold AtomicRead.doUnlock
  rw [if_pos (by omega)]
  refine ⟨_, rfl, fun v _ hv => (hnone v hv).elim, ⟨fun hone => ?_, fun ⟨v, hv⟩ => (hnone v hv).elim⟩, fun _ => ?_,
    fun r => ?_⟩
  · have hone : (s.version + 1) % 2 = 1 := hone
    omega
  · unfold wholes
    rw [List.filterMap_append, ← List.cons_append]
    exact List.getLast?_concat
  · exact (h.reader r).later (Nat.lt_succ_self s.version)

omit [DecidableEq ρ] [DecidableEq ω] in
/-- Words are written only while `version` is odd, and nobody copies at an odd version. -/
theorem Inv.write (h : Inv s value answers) {w : ω} (hlocked : s.locked w = true) (j : Fin n) (word : β) :
    Inv { s with value := Function.update s.value j word } value (answers ++ [Answer.nothing]) := by
  have hodd := h.odd.mpr ⟨w, hlocked⟩
  refine ⟨h.one, h.odd, fun heven => ?_, fun r => ?_⟩
  · have heven : s.version % 2 = 0 := heven
    omega
  · have hreader := h.reader r
    show ReaderOk _ (s.reader r)
    cases hat : s.reader r with
    | copy version dest =>
      rw [hat] at hreader
      refine ⟨hreader.1, hreader.2.1, fun heq => ?_⟩
      have heq : version = s.version := heq
      have heven := hreader.1
      omega
    | _ => trivial

omit [DecidableEq ω] in
/-- A value is returned when it is what is there, as a whole. -/
theorem Inv.check (h : Inv s value answers) {r : ρ} {version : ℕ} {dest : Fin n → Option β}
    (hat : s.reader r = .copy version dest) :
    Inv (s.check r version dest).1 value (answers ++ [(s.check r version dest).2]) ∧
      ∀ q copied, (s.check r version dest).2 = .returned q copied →
        ∃ whole, (wholes value answers).getLast? = some whole ∧ ∀ j, copied j = some (whole j) := by
  obtain ⟨heven, -, hsame⟩ : ReaderOk s (.copy version dest) := by
    rw [← hat]
    exact h.reader r
  unfold AtomicRead.check
  by_cases hall : ∀ j, (dest j).isSome
  · rw [if_pos hall]
    by_cases hversion : version = s.version
    · rw [if_pos hversion]
      refine ⟨h.goes r .idle trivial (.returned r dest) fun v hv => (by cases hv), fun q copied heq => ?_⟩
      cases heq
      refine ⟨s.value, h.whole (by rw [← hversion]; exact heven), fun j => ?_⟩
      obtain ⟨word, hword⟩ := Option.isSome_iff_exists.mp (hall j)
      rw [hword, hsame hversion j word hword]
    · rw [if_neg hversion]
      exact ⟨h.goes r .load trivial .nothing fun v hv => (by cases hv), fun q copied heq => (by cases heq)⟩
  · rw [if_neg hall]
    exact ⟨h.same, fun q copied heq => by cases heq⟩

/-- A step is answered, and answers with a value that is there as a whole. -/
theorem Inv.step (h : Inv s value answers) {event : Event ρ ω n β} (hapart : Apart s event) :
    ∃ t answer, s.step event = some (t, answer) ∧ Inv t value (answers ++ [answer]) ∧
      ∀ r dest, answer = .returned r dest →
        ∃ whole, (wholes value answers).getLast? = some whole ∧ ∀ j, dest j = some (whole j) := by
  have hsame : ∃ t answer, some (s, .nothing) = some (t, answer) ∧ Inv t value (answers ++ [answer]) ∧
      ∀ r dest, answer = .returned r dest →
        ∃ whole, (wholes value answers).getLast? = some whole ∧ ∀ j, dest j = some (whole j) :=
    ⟨s, .nothing, rfl, h.same, fun _ _ heq => by cases heq⟩
  cases event with
  | read r =>
    dsimp only [AtomicRead.step]
    cases hat : s.reader r with
    | idle =>
      exact ⟨_, _, rfl, h.goes r .load trivial .nothing fun v hv => (by cases hv), fun _ _ heq => (by cases heq)⟩
    | _ => exact hsame
  | load r =>
    dsimp only [AtomicRead.step]
    cases hat : s.reader r with
    | load => exact ⟨_, _, rfl, h.load r, fun _ _ heq => by cases heq⟩
    | _ => exact hsame
  | copy r j =>
    dsimp only [AtomicRead.step]
    cases hat : s.reader r with
    | copy version dest => exact ⟨_, _, rfl, h.copy hat j, fun _ _ heq => by cases heq⟩
    | _ => exact hsame
  | check r =>
    dsimp only [AtomicRead.step]
    cases hat : s.reader r with
    | copy version dest =>
      obtain ⟨hinv, hreturned⟩ := h.check hat
      exact ⟨_, _, rfl, hinv, hreturned⟩
    | _ => exact hsame
  | lock w =>
    obtain ⟨t, ht, hinv⟩ := h.doLock (w := w) hapart
    dsimp only [AtomicRead.step]
    rw [if_neg (by rw [hapart w]; exact Bool.false_ne_true), ht]
    exact ⟨t, .nothing, rfl, hinv, fun _ _ heq => by cases heq⟩
  | write w j word =>
    dsimp only [AtomicRead.step]
    by_cases hlocked : s.locked w = true
    · rw [if_pos hlocked]
      exact ⟨_, _, rfl, h.write hlocked j word, fun _ _ heq => by cases heq⟩
    · rw [if_neg hlocked]
      exact hsame
  | unlock w =>
    dsimp only [AtomicRead.step]
    by_cases hlocked : s.locked w = true
    · rw [if_pos hlocked]
      obtain ⟨t, ht, hinv⟩ := h.doUnlock hlocked
      rw [ht]
      exact ⟨t, .unlocked s.value, rfl, hinv, fun _ _ heq => by cases heq⟩
    · rw [if_neg hlocked]
      exact hsame

/-! ### Whole runs -/

/-- Every value that is returned was there before. -/
def Returns (value : Fin n → β) (answers : List (Answer ρ n β)) : Prop :=
  ∀ before r dest after, answers = before ++ .returned r dest :: after →
    ∃ whole, (wholes value before).getLast? = some whole ∧ ∀ j, dest j = some (whole j)

omit [DecidableEq ρ] in
theorem Returns.concat (h : Returns value answers) {answer : Answer ρ n β}
    (hanswer : ∀ r dest, answer = .returned r dest →
      ∃ whole, (wholes value answers).getLast? = some whole ∧ ∀ j, dest j = some (whole j)) :
    Returns value (answers ++ [answer]) := by
  intro before r dest after heq
  rcases List.eq_nil_or_concat' after with rfl | ⟨after, last, rfl⟩
  · obtain ⟨rfl, hlast⟩ := List.append_inj' heq rfl
    exact hanswer r dest (List.cons.inj hlast).1
  · rw [← List.cons_append, ← List.append_assoc] at heq
    obtain ⟨heq, -⟩ := List.append_inj' heq rfl
    exact h before r dest after heq

/-- When no two `Write`s overlap no check fails, and `read` returns what the object was as a whole after the last
complete write before its second look at the version. -/
theorem read_whole (value : Fin n → β) (events : List (Event ρ ω n β))
    (hapart : (machine ρ ω n β).Along Apart (start value) events) :
    ∃ s answers, (machine ρ ω n β).run (start value) events = some (s, answers) ∧
      ∀ before r dest after, answers = before ++ .returned r dest :: after →
        ∃ whole, (wholes value before).getLast? = some whole ∧ ∀ j, dest j = some (whole j) := by
  obtain ⟨s, answers, hrun, -, hreturns⟩ := (machine ρ ω n β).run_history (start value) Apart (fun _ => True)
    (fun _ answers s => Inv s value answers ∧ Returns value answers) (fun _ _ _ => trivial)
    ⟨inv_start, fun before _ _ _ heq => by cases before <;> cases heq⟩ (by
      rintro - answers s event - hapart ⟨h, hreturns⟩
      obtain ⟨t, answer, hstep, hinv, hanswer⟩ := h.step hapart
      exact ⟨t, answer, hstep, hinv, hreturns.concat hanswer⟩) events trivial hapart
  exact ⟨s, answers, hrun, hreturns⟩

/-- A complete write falls between the two words of a copy, which is made again. -/
theorem read_whole_two : ∃ s answers, (machine Unit Unit 2 ℕ).run (start fun _ => 0)
    [.read (), .load (), .copy () 0, .lock (), .write () 1 5, .unlock (), .copy () 1, .check (), .load (), .copy () 0,
      .copy () 1, .check ()] = some (s, answers) ∧
    ∀ before r dest after, answers = before ++ .returned r dest :: after →
      ∃ whole, (wholes (fun _ => 0) before).getLast? = some whole ∧ ∀ j, dest j = some (whole j) := by
  refine read_whole _ _ ?_
  simp [Lib.Machine.Along, machine, AtomicRead.step, Apart, AtomicRead.load, AtomicRead.doLock, AtomicRead.doUnlock,
    AtomicRead.check, start, goes]

end AtomicRead

end TdUtils
