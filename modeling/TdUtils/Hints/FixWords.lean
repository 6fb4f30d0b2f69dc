import TdUtils.Hints.Hints
import TdUtils.Lib.Loops

/-!
# Hints.FixWords — the words that no other word begins with

`fix_words` sorts the words and moves those that stay to the front of the same array, while it compares neighbours
further back.  What a move leaves behind is not specified: it is any function of what the two strings held.
-/

namespace TdUtils.Hints

open Lib Text

/-! ### The array -/

def beginsWith (str prefix_ : Word) : Bool := prefix_.length ≤ str.length ∧ prefix_ = str.take prefix_.length

/-- The next word, if there is one, begins with this one. -/
def isBegun (words : List Word) (i : ℕ) : Option Bool :=
  if i = words.length - 1 then some false else do return beginsWith (← words[i + 1]?) (← words[i]?)

section Array

variable (moved : Word → Word → Word)

/-- `words[j] = std::move(words[i])`. -/
def moveWord (words : List Word) (j i : ℕ) : Option (List Word) := do
  let source ← words[i]?
  let destination ← words[j]?
  return (words.set i (moved destination source)).set j source

/-- The word at `i` stays. -/
def keepWord (words : List Word) (newWordsSize i : ℕ) : Option (List Word) :=
  if i ≠ newWordsSize then moveWord moved words newWordsSize i else some words

/-- One turn of the loop; none is a place outside the array. -/
def fixWordsTurn (state : List Word × ℕ) (i : ℕ) : Option (List Word × ℕ) := do
  let (words, newWordsSize) := state
  if ← isBegun words i then return (words, newWordsSize)
  else return (← keepWord moved words newWordsSize i, newWordsSize + 1)

def fixWordsInPlace (words : List Word) : Option (List Word) := do
  let words := words.insertionSort (· ≤ ·)
  let (words, newWordsSize) ← (List.range' 0 words.length).foldlM (fixWordsTurn moved) (words, 0)
  return words.take newWordsSize

end Array

theorem beginsWith_iff {str prefix_ : Word} : beginsWith str prefix_ = true ↔ prefix_ <+: str := by
  unfold beginsWith
  rw [decide_eq_true_eq, List.prefix_iff_eq_take]
  refine ⟨fun h => h.2, fun h => ⟨?_, h⟩⟩
  rw [h, List.length_take]
  exact Nat.min_le_right _ _

section Loop

variable {moved : Word → Word → Word} {sorted words : List Word} {i newWordsSize : ℕ}

variable (moved) in
/-- A word that stays goes behind those that stayed before it; the array is as before from the next place on. -/
theorem keep_spec {word : Word} (hle : newWordsSize ≤ i) (hword : words[i]? = some word) :
    ∃ words', keepWord moved words newWordsSize i = some words' ∧
      words'.length = words.length ∧ words'.drop (i + 1) = words.drop (i + 1) ∧
      words'.take (newWordsSize + 1) = words.take newWordsSize ++ [word] := by
  have hi : i < words.length := (List.getElem?_eq_some_iff.mp hword).1
  by_cases heq : i = newWordsSize
  · subst heq
    refine ⟨words, if_neg (not_not.mpr rfl), rfl, rfl, ?_⟩
    rw [List.take_add_one, hword]
    rfl
  · have hlt : newWordsSize < words.length := by omega
    refine ⟨(words.set i (moved words[newWordsSize] word)).set newWordsSize word, ?_, ?_, ?_, ?_⟩
    · rw [keepWord, if_pos heq, moveWord, hword, List.getElem?_eq_getElem hlt]
      rfl
    · rw [List.length_set, List.length_set]
    · rw [List.drop_set_of_lt (by omega), List.drop_set_of_lt (by omega)]
    · rw [List.take_add_one, List.getElem?_set_self (by rwa [List.length_set]), List.take_set_of_le (Nat.le_refl _),
        List.take_set_of_le hle]
      rfl

/-- In front of the place `i` the words that stay are in place; from there on the array is as it was. -/
def Fixed (sorted : List Word) (i : ℕ) (state : List Word × ℕ) : Prop :=
  state.1.length = sorted.length ∧ state.2 ≤ i ∧ state.1.drop i = sorted.drop i ∧
    state.1.take state.2 ++ List.dropBefore (· <+: ·) (sorted.drop i) = List.dropBefore (· <+: ·) sorted

theorem Fixed.turn {state : List Word × ℕ} (h : Fixed sorted i state) (hi : i < sorted.length) :
    ∃ state', fixWordsTurn moved state i = some state' ∧ Fixed sorted (i + 1) state' := by
  obtain ⟨words, newWordsSize⟩ := state
  obtain ⟨hlen, hle, hdrop, hfixed⟩ := h
  dsimp only at hlen hle hdrop hfixed
  obtain ⟨word, rest, hrest⟩ : ∃ word rest, sorted.drop i = word :: rest := ⟨_, _, List.drop_eq_getElem_cons hi⟩
  have hnext : sorted.drop (i + 1) = rest := by rw [← List.drop_drop, hrest, List.drop_one, List.tail_cons]
  have hword : words[i]? = some word := by
    rw [← Nat.add_zero i, ← List.getElem?_drop, hdrop, hrest]
    rfl
  have hdrop' : words.drop (i + 1) = rest := by rw [← List.drop_drop, hdrop, hrest, List.drop_one, List.tail_cons]
  -- what the turn does with a word that stays
  have hkeep : List.dropBefore (· <+: ·) (word :: rest) = word :: List.dropBefore (· <+: ·) rest →
      ∃ state', (do return (← keepWord moved words newWordsSize i, newWordsSize + 1)) = some state' ∧
        Fixed sorted (i + 1) state' := by
    intro hstays
    obtain ⟨words', hmove, hlen', hback, hfront⟩ := keep_spec moved hle hword
    refine ⟨(words', newWordsSize + 1), ?_, hlen'.trans hlen, Nat.succ_le_succ hle, ?_, ?_⟩
    · rw [hmove]
      rfl
    · exact hback.trans (hdrop'.trans hnext.symm)
    · rw [hnext, hfront, List.append_assoc, List.singleton_append, ← hstays, ← hrest]
      exact hfixed
  unfold fixWordsTurn isBegun
  dsimp only
  cases hcases : rest with
  | nil =>
    have hlast : i = words.length - 1 := by
      have := congrArg List.length hrest
      rw [hcases, List.length_drop, List.length_singleton] at this
      omega
    rw [if_pos hlast]
    exact hkeep (by rw [hcases]; rfl)
  | cons next others =>
    have hnotLast : i ≠ words.length - 1 := by
      have := congrArg List.length hrest
      rw [hcases, List.length_drop, List.length_cons, List.length_cons] at this
      omega
    have hnextWord : words[i + 1]? = some next := by
      rw [← Nat.add_zero (i + 1), ← List.getElem?_drop, hdrop', hcases]
      rfl
    rw [if_neg hnotLast, hword, hnextWord]
    change ∃ state', (if beginsWith next word = true then _ else _) = some state' ∧ _
    by_cases hbegins : word <+: next
    · rw [if_pos (beginsWith_iff.mpr hbegins)]
      refine ⟨(words, newWordsSize), rfl, hlen, Nat.le_succ_of_le hle, hdrop'.trans hnext.symm, ?_⟩
      rw [hrest, hcases, List.dropBefore_cons_cons, if_pos hbegins] at hfixed
      rw [hnext, hcases]
      exact hfixed
    · rw [if_neg (fun h => hbegins (beginsWith_iff.mp h))]
      exact hkeep (by rw [hcases, List.dropBefore_cons_cons, if_neg hbegins])

/-- The array holds in the end what a list of the words that stay holds. -/
theorem fixWordsInPlace_eq (words : List Word) : fixWordsInPlace moved words = some (fixWords words) := by
  let sorted := words.insertionSort (· ≤ ·)
  obtain ⟨⟨words', newWordsSize⟩, hrun, -, -, hdrop, hfixed⟩ := Loops.foldlM_range' (fixWordsTurn moved) (Fixed sorted)
    sorted.length 0 (sorted, 0) (fun i state _ hi h => h.turn (by omega)) ⟨rfl, Nat.le_refl 0, rfl, rfl⟩
  rw [Nat.zero_add, List.drop_length] at hfixed
  unfold fixWordsInPlace
  dsimp only
  rw [hrun]
  exact congrArg some ((List.append_nil _).symm.trans hfixed)

end Loop

/-! ### The words that stay -/

theorem sorted_pairwise (words : List Word) : (words.insertionSort (· ≤ ·)).Pairwise (· ≤ ·) :=
  List.pairwise_insertionSort (· ≤ ·) words

/-- **The words of `fix_words`.**  No place outside the array is read or written, whatever a move leaves behind.  The
result increases strictly, none of its words is a prefix of another one, it has only words of the input, and each word of
the input is a prefix of one that stays. -/
theorem fixWordsInPlace_spec (moved : Word → Word → Word) (words : List Word) :
    ∃ result, fixWordsInPlace moved words = some result ∧ result.Pairwise (· < ·) ∧ result.Nodup ∧
      (∀ word ∈ result, ∀ other ∈ result, word <+: other → word = other) ∧
      (∀ word ∈ result, word ∈ words) ∧ ∀ word ∈ words, ∃ other ∈ result, word <+: other := by
  have hsorted := sorted_pairwise words
  have hlt : (fixWords words).Pairwise (· < ·) := List.dropBefore_pairwise_lt List.prefix_refl hsorted
  have hsubset : ∀ word ∈ fixWords words, word ∈ words.insertionSort (· ≤ ·) := fun word hword =>
    (List.dropBefore_sublist _).subset hword
  refine ⟨fixWords words, fixWordsInPlace_eq words, hlt, ?_, ?_, ?_, ?_⟩
  · exact hlt.imp fun h => Std.ne_of_lt h
  · intro word hword other hother hprefix
    exact List.dropBefore_eq_of_rel (fun _ _ h => h.le) (fun _ _ _ => List.prefix_of_le) hsorted hword (hsubset other hother)
      hprefix
  · exact fun word hword => (List.mem_insertionSort _).mp (hsubset word hword)
  · intro word hword
    exact List.exists_mem_dropBefore List.prefix_refl (fun _ _ _ => List.IsPrefix.trans) ((List.mem_insertionSort _).mpr hword)

example : fixWordsInPlace (fun _ _ => []) [[98], [97, 98], [97], [98]] = some [[97, 98], [98]] := by decide

end TdUtils.Hints
