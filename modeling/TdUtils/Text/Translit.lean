import Mathlib.Data.List.Sort
import TdUtils.Lib.List
import TdUtils.Text.Utf8

/-!
# Text.Translit — transliterations between the Latin and the Cyrillic alphabet

`none` stands for a string that is not UTF-8, on which `next_utf8_unsafe` stops or leaves the string,
and for too little fuel.
-/

namespace TdUtils.Text

open Lib Utf8

abbrev Word := List UInt8

/-- A string literal of the source. -/
def text (cs : List Char) : Word := cs.flatMap fun c => utf8 c.toNat

/-! ### The rules -/

def enToRuSimpleRules : List (Char × List Char) :=
  [('a', ['а']), ('b', ['б']), ('c', ['к']), ('d', ['д']), ('e', ['е']), ('f', ['ф']), ('g', ['г']),
    ('h', ['х']), ('i', ['и']), ('j', ['й']), ('k', ['к']), ('l', ['л']), ('m', ['м']), ('n', ['н']),
    ('o', ['о']), ('p', ['п']), ('q', ['к']), ('r', ['р']), ('s', ['с']), ('t', ['т']), ('u', ['у']),
    ('v', ['в']), ('w', ['в']), ('x', ['к', 'с']), ('y', ['и']), ('z', ['з'])]

def enToRuComplexRules : List (List Char × List Char) :=
  [(['c', 'h'], ['ч']), (['e', 'i'], ['е', 'й']), (['e', 'y'], ['е', 'й']), (['i', 'a'], ['и', 'я']),
    (['i', 'y'], ['и', 'й']), (['j', 'o'], ['е']), (['j', 'u'], ['ю']), (['j', 'a'], ['я']),
    (['k', 'h'], ['х']), (['s', 'h', 'c', 'h'], ['щ']), (['s', 'h'], ['ш']), (['s', 'c', 'h'], ['щ']),
    (['t', 's'], ['ц']), (['y', 'o'], ['е']), (['y', 'u'], ['ю']), (['y', 'a'], ['я']),
    (['z', 'h'], ['ж'])]

def ruToEnSimpleRules : List (Char × List Char) :=
  [('а', ['a']), ('б', ['b']), ('в', ['v']), ('г', ['g']), ('д', ['d']), ('е', ['e']), ('ё', ['e']),
    ('ж', ['z', 'h']), ('з', ['z']), ('и', ['i']), ('й', ['y']), ('к', ['k']), ('л', ['l']),
    ('м', ['m']), ('н', ['n']), ('о', ['o']), ('п', ['p']), ('р', ['r']), ('с', ['s']), ('т', ['t']),
    ('у', ['u']), ('ф', ['f']), ('х', ['k', 'h']), ('ц', ['t', 's']), ('ч', ['c', 'h']),
    ('ш', ['s', 'h']), ('щ', ['s', 'c', 'h']), ('ъ', []), ('ы', ['y']), ('ь', []), ('э', ['e']),
    ('ю', ['y', 'u']), ('я', ['y', 'a'])]

def ruToEnComplexRules : List (List Char × List Char) :=
  [(['и', 'й'], ['y']), (['и', 'я'], ['i', 'a']), (['к', 'с'], ['x']), (['y', 'o'], ['e']),
    (['j', 'o'], ['e'])]

/-! ### The two passes -/

section Passes

variable (simpleRules : List (Char × List Char)) (complexRules : List (List Char × List Char))

/-- Append what the simple rules make of a character. -/
def appendSimple (s : Word) (code : ℕ) : Word :=
  match simpleRules.find? (·.1.toNat = code) with
  | some rule => s ++ text rule.2
  | none => appendUtf8Character s code

/-- The first loop of `add_word_transliterations`. -/
def simpleLoop : ℕ → Word → Word → Option Word
  | 0, _, _ => none
  | fuel + 1, pos, s =>
    if pos = [] then some s
    else do
      let (code, pos) ← nextUtf8Unsafe pos
      simpleLoop fuel pos (appendSimple simpleRules s code)

/-- The loop over the complex rules: the strings it adds to the results, and the rule it stops at. -/
def scanRules (allowPartial : Bool) (s suffix : Word) :
    List (List Char × List Char) → List Word × Option (List Char × List Char)
  | [] => ([], none)
  | rule :: rules =>
    if text rule.1 <+: suffix then ([], some rule)
    else
      let (result, found) := scanRules allowPartial s suffix rules
      (if allowPartial ∧ suffix <+: text rule.1 then (s ++ text rule.2) :: result else result, found)

/-- The second loop of `add_word_transliterations`: the results it adds, and the string it ends with. -/
def complexLoop (allowPartial : Bool) : ℕ → Word → Word → Option (List Word × Word)
  | 0, _, _ => none
  | fuel + 1, pos, s =>
    if pos = [] then some ([], s)
    else match scanRules allowPartial s pos complexRules with
      | (result, some rule) => do
        let (results, s) ← complexLoop allowPartial fuel (pos.drop (text rule.1).length)
          (s ++ text rule.2)
        return (result ++ results, s)
      | (result, none) => do
        let (code, pos) ← nextUtf8Unsafe pos
        let (results, s) ← complexLoop allowPartial fuel pos (appendSimple simpleRules s code)
        return (result ++ results, s)

/-- What `add_word_transliterations` adds to the results. -/
def wordTransliterations (word : Word) (allowPartial : Bool) : Option (List Word) := do
  let s ← simpleLoop simpleRules (word.length + 1) word []
  let (partials, t) ← complexLoop simpleRules complexRules allowPartial (word.length + 1) word []
  return (if s = [] then [] else [s]) ++ partials ++ if t = [] then [] else [t]

end Passes

/-- `std::sort` and `erase(std::unique)`. -/
def sortUnique {α : Type} [LE α] [DecidableLE α] [DecidableEq α] (xs : List α) : List α :=
  List.dropBefore (· = ·) (xs.insertionSort (· ≤ ·))

def getWordTransliterations (word : Word) (allowPartial : Bool) : Option (List Word) := do
  let en ← wordTransliterations enToRuSimpleRules enToRuComplexRules word allowPartial
  let ru ← wordTransliterations ruToEnSimpleRules ruToEnComplexRules word allowPartial
  return sortUnique (en ++ ru)

end TdUtils.Text
