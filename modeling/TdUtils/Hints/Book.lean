import TdUtils.Hints.Indexes
import TdUtils.Lib.Refines

/-!
# Hints.Book — what the names are, whatever the calls before

A `Book` has a name for some keys and a rating for each key.  The hints hold, for the names of the book and for nothing
else, their words in the one index and the transliterations of these words in the other.
-/

namespace TdUtils.Hints

open Lib Text Utf8

/-! ### The words of a name -/

section Words

variable (T : UnicodeTables)

def wordsOf (name : Word) : List Word := (getWords T name).getD []

/-- The transliterations of a word. -/
def formsOf (word : Word) (allowPartial : Bool) : List Word := (getWordTransliterations word allowPartial).getD []

/-- The transliterations of words that differ from the words. -/
def transliterationsOf (words : List Word) : List Word :=
  words.flatMap fun word => (formsOf word false).filter (· ≠ word)

variable {T}

theorem getWordTransliterations_eq {word : Word} (h : Valid word) (allowPartial : Bool) :
    getWordTransliterations word allowPartial = some (formsOf word allowPartial) := by
  obtain ⟨cs, rfl, hcs⟩ := h
  obtain ⟨forms, hforms, -⟩ := getWordTransliterations_spec hcs allowPartial
  unfold formsOf
  rw [hforms]
  rfl

/-- A word in the making. -/
def Growing (inWord : Bool) (word : Word) : Prop := Valid word ∧ (inWord = true → word ≠ [])

theorem getWordsLoop_spec : ∀ (fuel : ℕ) (cs : List ℕ) (inWord : Bool) (word : Word) (words : List Word),
    (∀ c ∈ cs, Scalar c) → (cs.flatMap utf8).length < fuel → Growing inWord word →
    (∀ w ∈ words, Valid w ∧ w ≠ []) →
    ∃ result, getWordsLoop T fuel (cs.flatMap utf8) inWord word words = some result ∧ ∀ w ∈ result, Valid w ∧ w ≠ []
  | 0, _, _, _, _, _, hfuel, _, _ => absurd hfuel (Nat.not_lt_zero _)
  | fuel + 1, [], inWord, word, words, _, _, hword, hwords => by
    have hall : inWord = true → ∀ w ∈ words ++ [word], Valid w ∧ w ≠ [] := fun hin =>
      List.forall_mem_append.mpr ⟨hwords, List.forall_mem_singleton.mpr ⟨hword.1, hword.2 hin⟩⟩
    rw [getWordsLoop, if_pos List.flatMap_nil]
    cases inWord with
    | true => exact ⟨_, rfl, hall rfl⟩
    | false => exact ⟨_, rfl, hwords⟩
  | fuel + 1, c :: cs, inWord, word, words, hcs, hfuel, hword, hwords => by
    obtain ⟨hc, hcs⟩ := List.forall_mem_cons.mp hcs
    have hne : (c :: cs).flatMap utf8 ≠ [] := by simp [utf8_ne_nil]
    have hlen := (length_utf8 c).1
    rw [List.flatMap_cons, List.length_append] at hfuel
    have hfuel : (cs.flatMap utf8).length < fuel := by omega
    obtain ⟨code, hprepare, hcode⟩ := T.prepareSearchCharacterTable.lookup_scalar hc
    obtain ⟨plain, hremove, hplain⟩ := T.withoutDiacriticsTable.lookup_scalar hcode
    rw [getWordsLoop, if_neg hne, List.flatMap_cons, nextUtf8Unsafe_utf8 hc, Option.bind_eq_bind, Option.bind_some]
    dsimp only
    rw [show prepareSearchCharacter T c = some code from hprepare, Option.bind_eq_bind, Option.bind_some]
    split_ifs with hzero hspace hin
    · exact getWordsLoop_spec fuel cs inWord word words hcs hfuel hword hwords
    · refine getWordsLoop_spec fuel cs false [] _ hcs hfuel ⟨valid_nil, fun h => nomatch h⟩ ?_
      exact List.forall_mem_append.mpr ⟨hwords, List.forall_mem_singleton.mpr ⟨hword.1, hword.2 hin⟩⟩
    · exact getWordsLoop_spec fuel cs inWord word words hcs hfuel hword hwords
    · rw [show removeDiacritics T code = some plain from hremove, Option.bind_some,
        appendUtf8Character_eq (Nat.lt_trans (lt_of_scalar hplain) (by decide))]
      refine getWordsLoop_spec fuel cs true _ words hcs hfuel ⟨?_, fun _ => ?_⟩ hwords
      · exact hword.1.append ⟨[plain], by rw [List.flatMap_singleton], List.forall_mem_singleton.mpr hplain⟩
      · simp [utf8_ne_nil]

theorem mem_of_mem_fixWords {word : Word} {words : List Word} (h : word ∈ fixWords words) : word ∈ words :=
  (List.mem_insertionSort _).mp ((List.dropBefore_sublist _).subset h)

theorem fixWords_nodup (words : List Word) : (fixWords words).Nodup :=
  (List.dropBefore_pairwise_lt List.prefix_refl (sorted_pairwise words)).imp fun h => Std.ne_of_lt h

/-- A word that is dropped begins one that stays. -/
theorem exists_mem_fixWords {word : Word} {words : List Word} (h : word ∈ words) :
    ∃ other ∈ fixWords words, word <+: other :=
  List.exists_mem_dropBefore List.prefix_refl (fun _ _ _ => List.IsPrefix.trans) ((List.mem_insertionSort _).mpr h)

variable (T) in
theorem getWords_eq {name : Word} (h : Valid name) : getWords T name = some (wordsOf T name) ∧ (wordsOf T name).Nodup ∧
    ∀ word ∈ wordsOf T name, Valid word ∧ word ≠ [] := by
  obtain ⟨cs, rfl, hcs⟩ := h
  obtain ⟨words, hwords, hok⟩ := getWordsLoop_spec (T := T) (((cs.flatMap utf8).length) + 1) cs false [] [] hcs
    (Nat.lt_succ_self _) ⟨valid_nil, fun h => nomatch h⟩ (fun _ h => absurd h List.not_mem_nil)
  have heq : getWords T (cs.flatMap utf8) = some (fixWords words) := by
    unfold getWords
    rw [hwords]
    rfl
  unfold wordsOf
  rw [heq]
  exact ⟨rfl, fixWords_nodup words, fun word hword => hok word (mem_of_mem_fixWords hword)⟩

/-- The loop over the words is a loop over the index alone, and the transliterations apart. -/
theorem eachWord_eq (f : Word → SortedMap Word (List ℤ) → Option (SortedMap Word (List ℤ))) :
    ∀ (words : List Word) (m : SortedMap Word (List ℤ)), (∀ word ∈ words, Valid word) →
    eachWord f words m = (words.foldlM (fun m word => f word m) m).map fun m => (m, transliterationsOf words)
  | [], _, _ => rfl
  | word :: words, m, hwords => by
    obtain ⟨hword, hwords⟩ := List.forall_mem_cons.mp hwords
    rw [eachWord, List.foldlM_cons]
    cases f word m with
    | none => rfl
    | some m' =>
      simp only [Option.bind_eq_bind, Option.bind_some, getWordTransliterations_eq hword, eachWord_eq f words m' hwords]
      cases words.foldlM (fun m word => f word m) m' <;> rfl

end Words

/-! ### The book -/

structure Book where
  name : ℤ → Option Word
  rating : ℤ → ℤ

namespace Book

def empty : Book := ⟨fun _ => none, fun _ => 0⟩

/-- An empty name takes the key away, with its rating. -/
def add (book : Book) (key : ℤ) (name : Word) : Book :=
  if name = [] then ⟨Function.update book.name key none, Function.update book.rating key 0⟩
  else { book with name := Function.update book.name key (some name) }

def setRating (book : Book) (key rating : ℤ) : Book := { book with rating := Function.update book.rating key rating }

end Book

section Update

variable {T : UnicodeTables}

/-- The pairs of the index of words. -/
def WordPairs (T : UnicodeTables) (names : ℤ → Option Word) (word : Word) (key : ℤ) : Prop :=
  ∃ name, names key = some name ∧ word ∈ wordsOf T name

/-- The pairs of the index of transliterations. -/
def FormPairs (T : UnicodeTables) (names : ℤ → Option Word) (form : Word) (key : ℤ) : Prop :=
  ∃ name, names key = some name ∧ form ∈ fixWords (transliterationsOf (wordsOf T name))

/-- Both indexes are those of the names. -/
structure Indexed (T : UnicodeTables) (h : Hints) (names : ℤ → Option Word) : Prop where
  words : Indexes h.wordToKeys (WordPairs T names)
  forms : Indexes h.translitWordToKeys (FormPairs T names)

/-- The hints of a book. -/
structure Holds (T : UnicodeTables) (h : Hints) (book : Book) : Prop where
  names : ∀ key, h.keyToName.lookup key = book.name key
  ratings : ∀ key, h.getRating key = book.rating key
  valid : ∀ key name, book.name key = some name → Valid name ∧ name ≠ []
  indexed : Indexed T h book.name

theorem holds_empty : Holds T .empty .empty where
  names _ := AList.lookup_empty _
  ratings _ := rfl
  valid _ _ h := absurd h.symm (Option.some_ne_none _)
  indexed.words := indexes_empty.congr fun _ _ => ⟨False.elim, fun ⟨_, h, _⟩ => absurd h.symm (Option.some_ne_none _)⟩
  indexed.forms := indexes_empty.congr fun _ _ => ⟨False.elim, fun ⟨_, h, _⟩ => absurd h.symm (Option.some_ne_none _)⟩

variable {h : Hints} {names : ℤ → Option Word} {key : ℤ} {name : Word}

theorem updateName_eq {f : Word → SortedMap Word (List ℤ) → Option (SortedMap Word (List ℤ))} (hname : Valid name)
    {m m' : SortedMap Word (List ℤ)}
    (hwords : (wordsOf T name).foldlM (fun m word => f word m) h.wordToKeys = some m)
    (hforms : (fixWords (transliterationsOf (wordsOf T name))).foldlM (fun m word => f word m) h.translitWordToKeys =
      some m') :
    updateName T f name h = some { h with wordToKeys := m, translitWordToKeys := m' } := by
  obtain ⟨hget, -, hvalid⟩ := getWords_eq T hname
  unfold updateName
  rw [hget, Option.bind_eq_bind, Option.bind_some, eachWord_eq f _ _ fun word hword => (hvalid word hword).1, hwords,
    Option.map_some, Option.bind_eq_bind, Option.bind_some]
  dsimp only
  rw [hforms]
  rfl

/-- The words of a key without a name. -/
theorem Indexed.addName (hi : Indexed T h names) (hkey : names key = none) (hname : Valid name) :
    ∃ h', updateName T (addWord key) name h = some h' ∧ h'.keyToName = h.keyToName ∧ h'.keyToRating = h.keyToRating ∧
      Indexed T h' (Function.update names key (some name)) := by
  obtain ⟨-, hnodup, -⟩ := getWords_eq T hname
  obtain ⟨m, hwords, hm⟩ := addWords_spec key _ hnodup hi.words fun _ _ ⟨_, hsome, _⟩ =>
    nomatch hkey.symm.trans hsome
  obtain ⟨m', hforms, hm'⟩ := addWords_spec key _ (fixWords_nodup _) hi.forms fun _ _ ⟨_, hsome, _⟩ =>
    nomatch hkey.symm.trans hsome
  refine ⟨_, updateName_eq hname hwords hforms, rfl, rfl, hm.congr fun word key' => ?_, hm'.congr fun form key' => ?_⟩
  · by_cases heq : key' = key
    · subst heq
      simp [WordPairs, hkey]
    · simp [WordPairs, heq]
  · by_cases heq : key' = key
    · subst heq
      simp [FormPairs, hkey]
    · simp [FormPairs, heq]

/-- What was added for a name is there when it is taken away. -/
theorem Indexed.deleteName (hi : Indexed T h names) (hkey : names key = some name) (hname : Valid name) :
    ∃ h', updateName T (deleteWord key) name h = some h' ∧ h'.keyToName = h.keyToName ∧ h'.keyToRating = h.keyToRating ∧
      Indexed T h' (Function.update names key none) := by
  obtain ⟨-, hnodup, -⟩ := getWords_eq T hname
  obtain ⟨m, hwords, hm⟩ := deleteWords_spec key _ hnodup hi.words fun word hword => ⟨name, hkey, hword⟩
  obtain ⟨m', hforms, hm'⟩ := deleteWords_spec key _ (fixWords_nodup _) hi.forms fun form hform =>
    ⟨name, hkey, hform⟩
  refine ⟨_, updateName_eq hname hwords hforms, rfl, rfl, hm.congr fun word key' => ?_, hm'.congr fun form key' => ?_⟩
  · by_cases heq : key' = key
    · subst heq
      simp [WordPairs, hkey]
    · simp [WordPairs, heq]
  · by_cases heq : key' = key
    · subst heq
      simp [FormPairs, hkey]
    · simp [FormPairs, heq]

end Update

end TdUtils.Hints
