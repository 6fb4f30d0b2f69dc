import Mathlib.Data.List.AList
import TdUtils.Lib.SortedMap
import TdUtils.Text.Translit
import TdUtils.Text.Unicode

/-!
# Hints.Hints — names, their words and the search by words

Two inverted indexes lead from words and from transliterations to keys.  `none` is a failed `CHECK`,
or a name or query that is not UTF-8.
-/

namespace TdUtils

open Lib Text

structure Hints where
  wordToKeys : SortedMap Word (List ℤ)
  translitWordToKeys : SortedMap Word (List ℤ)
  keyToName : AList fun _ : ℤ => Word
  keyToRating : AList fun _ : ℤ => ℤ

namespace Hints

def empty : Hints := ⟨.empty, .empty, ∅, ∅⟩

/-! ### Words -/

/-- `fix_words`: a word of the sorted list is dropped where the next one begins with it. -/
def fixWords (words : List Word) : List Word :=
  List.dropBefore (· <+: ·) (words.insertionSort (· ≤ ·))

section Words

variable (T : UnicodeTables)

/-- The loop of `get_words`, and the last word behind it. -/
def getWordsLoop : ℕ → Word → Bool → Word → List Word → Option (List Word)
  | 0, _, _, _, _ => none
  | fuel + 1, pos, inWord, word, words =>
    if pos = [] then some (if inWord then words ++ [word] else words)
    else do
      let (code, pos) ← nextUtf8Unsafe pos
      let code ← prepareSearchCharacter T code
      if code = 0 then getWordsLoop fuel pos inWord word words
      else if code = ' '.toNat then
        if inWord then getWordsLoop fuel pos false [] (words ++ [word])
        else getWordsLoop fuel pos inWord word words
      else
        let code ← removeDiacritics T code
        getWordsLoop fuel pos true (appendUtf8Character word code) words

def getWords (name : Word) : Option (List Word) := do
  return fixWords (← getWordsLoop T (name.length + 1) name false [] [])

end Words

/-! ### Adding and removing -/

def addWord (key : ℤ) (word : Word) (wordToKeys : SortedMap Word (List ℤ)) :
    Option (SortedMap Word (List ℤ)) :=
  let keys := (wordToKeys.find word).getD []
  if key ∈ keys then none else some (wordToKeys.set word (keys ++ [key]))

/-- `*key_it = keys.back(); keys.pop_back();` -/
def swapRemove (key : ℤ) (keys : List ℤ) : List ℤ :=
  (keys.set (keys.idxOf key) (keys.getLastD 0)).dropLast

def deleteWord (key : ℤ) (word : Word) (wordToKeys : SortedMap Word (List ℤ)) :
    Option (SortedMap Word (List ℤ)) :=
  let keys := (wordToKeys.find word).getD []
  if key ∉ keys then none
  else if keys.length = 1 then some (wordToKeys.erase word)
  else if ¬ keys.length > 1 then none
  else some (wordToKeys.set word (swapRemove key keys))

/-- The loop over the words of a name, where `f` adds or deletes a word: the index, and the
transliterations that differ from their words. -/
def eachWord (f : Word → SortedMap Word (List ℤ) → Option (SortedMap Word (List ℤ))) :
    List Word → SortedMap Word (List ℤ) → Option (SortedMap Word (List ℤ) × List Word)
  | [], wordToKeys => some (wordToKeys, [])
  | word :: words, wordToKeys => do
    let wordToKeys ← f word wordToKeys
    let ws ← getWordTransliterations word false
    let (wordToKeys, transliterations) ← eachWord f words wordToKeys
    return (wordToKeys, ws.filter (· ≠ word) ++ transliterations)

section Update

variable (T : UnicodeTables)

/-- Both loops over a name. -/
def updateName (f : Word → SortedMap Word (List ℤ) → Option (SortedMap Word (List ℤ)))
    (name : Word) (h : Hints) : Option Hints := do
  let words ← getWords T name
  let (wordToKeys, transliterations) ← eachWord f words h.wordToKeys
  let translitWordToKeys ← (fixWords transliterations).foldlM (fun m word => f word m)
    h.translitWordToKeys
  return { h with wordToKeys := wordToKeys, translitWordToKeys := translitWordToKeys }

def add (h : Hints) (key : ℤ) (name : Word) : Option Hints :=
  if h.keyToName.lookup key = some name then some h
  else do
    let h ← match h.keyToName.lookup key with
      | some oldName => updateName T (deleteWord key) oldName h
      | none => some h
    if name = [] then
      return { h with keyToName := h.keyToName.erase key, keyToRating := h.keyToRating.erase key }
    else
      let h ← updateName T (addWord key) name h
      return { h with keyToName := h.keyToName.insert key name }

def remove (h : Hints) (key : ℤ) : Option Hints := add T h key []

def setRating (h : Hints) (key rating : ℤ) : Hints :=
  { h with keyToRating := h.keyToRating.insert key rating }

end Update

/-! ### Searching -/

def addSearchResults (results : List ℤ) (word : Word) (wordToKeys : SortedMap Word (List ℤ)) :
    List ℤ :=
  results ++ ((wordToKeys.lowerBound word).takeWhile (word <+: ·.1)).flatMap Prod.snd

def searchWord (h : Hints) (word : Word) : Option (List ℤ) := do
  let results := addSearchResults [] word h.translitWordToKeys
  let ws ← getWordTransliterations word true
  return sortUnique (ws.foldl (fun results w => addSearchResults results w h.wordToKeys) results)

/-- The loop that intersects two increasing lists. -/
def intersect : List ℤ → List ℤ → List ℤ
  | [], _ => []
  | _ :: _, [] => []
  | x :: results, y :: keys =>
    if x < y then intersect results (y :: keys)
    else if y < x then intersect (x :: results) keys
    else x :: intersect results keys
termination_by results keys => results.length + keys.length

/-- The loop over the words of the query. -/
def searchWords (h : Hints) (words : List Word) (results : List ℤ) : Option (List ℤ) :=
  match words with
  | [] => some results
  | word :: words => do
    let keys ← searchWord h word
    words.foldlM (fun results word => do return intersect results (← searchWord h word)) keys

def getRating (h : Hints) (key : ℤ) : ℤ := (h.keyToRating.lookup key).getD 0

def compareByRating (h : Hints) (lhs rhs : ℤ) : Prop :=
  h.getRating lhs < h.getRating rhs ∨ h.getRating lhs = h.getRating rhs ∧ lhs < rhs

instance (h : Hints) (lhs rhs : ℤ) : Decidable (h.compareByRating lhs rhs) :=
  inferInstanceAs (Decidable (_ ∨ _))

/-- `std::sort` by rating. -/
def sortByRating (h : Hints) (results : List ℤ) : List ℤ :=
  results.insertionSort fun x y => ¬ h.compareByRating y x

/-- `std::partial_sort` by rating and `resize`. -/
def partialSortByRating (h : Hints) (limit : ℕ) (results : List ℤ) : List ℤ :=
  (h.sortByRating results).take limit

def search (T : UnicodeTables) (h : Hints) (query : Word) (limit : ℤ)
    (returnAllForEmptyQuery : Bool) : Option (ℕ × List ℤ) :=
  if limit < 0 then some (h.keyToName.keys.length, [])
  else do
    let words ← getWords T query
    let all := if returnAllForEmptyQuery ∧ words = [] then h.keyToName.keys else []
    let results ← searchWords h words all
    if results.length < limit.toNat then return (results.length, h.sortByRating results)
    else return (results.length, h.partialSortByRating limit.toNat results)

def searchEmpty (T : UnicodeTables) (h : Hints) (limit : ℤ) : Option (ℕ × List ℤ) := search T h [] limit true

def hasKey (h : Hints) (key : ℤ) : Bool := (h.keyToName.lookup key).isSome

def keyToString (h : Hints) (key : ℤ) : Word := (h.keyToName.lookup key).getD []

def size (h : Hints) : ℕ := h.keyToName.keys.length

end Hints

end TdUtils
