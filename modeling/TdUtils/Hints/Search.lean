import TdUtils.Hints.Book

/-!
# Hints.Search — the hints answer as the book says

A word of a query finds a name where a transliteration of the word begins a word of the name, or the word itself begins a
transliteration of a word of the name.  A search gives the keys whose names all words of the query find, in the order of
their ratings, whatever names and ratings the keys had before.
-/

namespace TdUtils.Hints

open Lib Text Utf8

/-! ### Changes -/

section Changes

variable {T : UnicodeTables} {h : Hints} {book : Book}

theorem Book.add_same {key : ℤ} {name : Word} (hname : name ≠ []) (hsame : book.name key = some name) :
    book.add key name = book := by
  unfold Book.add
  rw [if_neg hname, ← hsame, Function.update_eq_self]

/-- What the keys have without the old name of a key. -/
theorem Holds.forget (hh : Holds T h book) (key : ℤ) :
    ∃ h₁, (match h.keyToName.lookup key with
        | some oldName => updateName T (deleteWord key) oldName h
        | none => some h) = some h₁ ∧ h₁.keyToName = h.keyToName ∧ h₁.keyToRating = h.keyToRating ∧
      Indexed T h₁ (Function.update book.name key none) := by
  rw [hh.names key]
  cases hold : book.name key with
  | none => exact ⟨h, rfl, rfl, rfl, by rw [← hold, Function.update_eq_self]; exact hh.indexed⟩
  | some oldName => exact hh.indexed.deleteName hold (hh.valid key oldName hold).1

theorem add_eq {key : ℤ} {name : Word} (hother : h.keyToName.lookup key ≠ some name) : Hints.add T h key name =
    (match h.keyToName.lookup key with
      | some oldName => updateName T (deleteWord key) oldName h
      | none => some h).bind fun h =>
        if name = [] then
          some { h with keyToName := h.keyToName.erase key, keyToRating := h.keyToRating.erase key }
        else (updateName T (addWord key) name h).bind fun h =>
          some { h with keyToName := h.keyToName.insert key name } := by
  unfold Hints.add
  rw [if_neg hother]
  cases h.keyToName.lookup key <;> rfl

section Lookup

variable {α : Type} (entries : AList fun _ : ℤ => α) (key key' : ℤ)

theorem lookup_erase_eq : (entries.erase key).lookup key' = if key' = key then none else entries.lookup key' := by
  split_ifs with heq
  · rw [heq, AList.lookup_erase]
  · exact AList.lookup_erase_ne heq

theorem lookup_insert_eq (a : α) :
    (entries.insert key a).lookup key' = if key' = key then some a else entries.lookup key' := by
  split_ifs with heq
  · rw [heq, AList.lookup_insert]
  · exact AList.lookup_insert_ne heq

end Lookup

theorem Holds.add (hh : Holds T h book) (key : ℤ) {name : Word} (hname : Valid name) :
    ∃ h', Hints.add T h key name = some h' ∧ Holds T h' (book.add key name) := by
  by_cases hsame : h.keyToName.lookup key = some name
  · refine ⟨h, if_pos hsame, ?_⟩
    rw [hh.names] at hsame
    rwa [Book.add_same (hh.valid key name hsame).2 hsame]
  rw [add_eq hsame]
  obtain ⟨h₁, hforget, hnames, hratings, hindexed⟩ := hh.forget key
  rw [hforget, Option.bind_some]
  unfold Book.add
  split_ifs with hempty
  · refine ⟨_, rfl, fun key' => ?_, fun key' => ?_, fun key' name' hsome => ?_, hindexed.words, hindexed.forms⟩
    · dsimp only
      rw [lookup_erase_eq, Function.update_apply, hnames, hh.names]
    · have hrating := hh.ratings key'
      unfold getRating at hrating ⊢
      dsimp only
      rw [lookup_erase_eq, Function.update_apply, hratings, ← hrating]
      split_ifs <;> rfl
    · dsimp only at hsome
      rw [Function.update_apply] at hsome
      split_ifs at hsome with heq
      exact hh.valid key' name' hsome
  · obtain ⟨h₂, hadd, hnames₂, hratings₂, hindexed₂⟩ := hindexed.addName (Function.update_self key none book.name) hname
    rw [Function.update_idem] at hindexed₂
    rw [hadd]
    refine ⟨_, rfl, fun key' => ?_, fun key' => ?_, fun key' name' hsome => ?_, hindexed₂.words, hindexed₂.forms⟩
    · dsimp only
      rw [lookup_insert_eq, Function.update_apply, hnames₂, hnames, hh.names]
    · have hrating := hh.ratings key'
      unfold getRating at hrating ⊢
      dsimp only
      rw [hratings₂, hratings, hrating]
    · dsimp only at hsome
      rw [Function.update_apply] at hsome
      split_ifs at hsome with heq
      · obtain rfl := Option.some.inj hsome
        exact ⟨hname, hempty⟩
      · exact hh.valid key' name' hsome

theorem Holds.setRating (hh : Holds T h book) (key rating : ℤ) :
    Holds T (h.setRating key rating) (book.setRating key rating) := by
  refine ⟨hh.names, fun key' => ?_, hh.valid, hh.indexed.words, hh.indexed.forms⟩
  have hrating := hh.ratings key'
  unfold getRating Hints.setRating Book.setRating at *
  dsimp only
  rw [lookup_insert_eq, Function.update_apply, ← hrating]
  split_ifs <;> rfl

end Changes

/-! ### The keys that one word finds -/

/-- A word of a query finds a name. -/
def Finds (T : UnicodeTables) (name word : Word) : Prop :=
  (∃ form ∈ formsOf word true, ∃ other ∈ wordsOf T name, form <+: other) ∨
    ∃ form ∈ transliterationsOf (wordsOf T name), word <+: form

section Results

variable {m : SortedMap Word (List ℤ)} {P : Word → ℤ → Prop} {results keys : List ℤ} {word : Word} {key : ℤ}

/-- The run of entries from the lower bound on has all words that begin with the word. -/
theorem mem_addSearchResults (hi : Indexes m P) :
    key ∈ addSearchResults results word m ↔ key ∈ results ∨ ∃ other, word <+: other ∧ P other key := by
  have hrun : (m.lowerBound word).takeWhile (word <+: ·.1) = m.entries.filter (word <+: ·.1) := by
    refine SortedMap.takeWhile_lowerBound (p := fun other => decide (word <+: other)) (fun other hother => ?_)
      fun other other' hle hlt hother' => ?_
    · exact List.not_lt.mpr (of_decide_eq_true hother).le
    · exact decide_eq_true (List.prefix_of_le (of_decide_eq_true hother') (List.not_lt.mp hle) (List.le_of_lt hlt))
  unfold addSearchResults
  rw [hrun, List.mem_append, List.mem_flatMap]
  refine or_congr_right ⟨?_, ?_⟩
  · rintro ⟨⟨other, keys⟩, hmem, hkey⟩
    obtain ⟨hmem, hstarts⟩ := List.mem_filter.mp hmem
    exact ⟨other, of_decide_eq_true hstarts, (hi.mem_iff other key).mp ⟨keys, hmem, hkey⟩⟩
  · rintro ⟨other, hstarts, hP⟩
    obtain ⟨keys, hmem, hkey⟩ := (hi.mem_iff other key).mpr hP
    exact ⟨(other, keys), List.mem_filter.mpr ⟨hmem, decide_eq_true hstarts⟩, hkey⟩

theorem mem_foldl_addSearchResults (hi : Indexes m P) : ∀ (forms : List Word) (results : List ℤ),
    key ∈ forms.foldl (fun results form => addSearchResults results form m) results ↔
      key ∈ results ∨ ∃ form ∈ forms, ∃ other, form <+: other ∧ P other key
  | [], results => by simp
  | form :: forms, results => by
    rw [List.foldl_cons, mem_foldl_addSearchResults hi forms, mem_addSearchResults hi, or_assoc]
    simp only [List.mem_cons, exists_eq_or_imp]

theorem sortUnique_pairwise (results : List ℤ) : (sortUnique results).Pairwise (· < ·) :=
  List.dropBefore_pairwise_lt (fun _ => rfl) (List.pairwise_insertionSort (· ≤ ·) results)

theorem searchWord_spec {T : UnicodeTables} {h : Hints} {book : Book} (hh : Holds T h book) (hword : Valid word) :
    ∃ results, h.searchWord word = some results ∧ results.Pairwise (· < ·) ∧
      ∀ key, key ∈ results ↔ ∃ name, book.name key = some name ∧ Finds T name word := by
  unfold searchWord
  rw [getWordTransliterations_eq hword, Option.bind_eq_bind, Option.bind_some]
  refine ⟨_, rfl, sortUnique_pairwise _, fun key => ?_⟩
  rw [mem_sortUnique, mem_foldl_addSearchResults hh.indexed.words, mem_addSearchResults hh.indexed.forms]
  constructor
  · rintro ((hnone | ⟨form, hstarts, name, hname, hform⟩) | ⟨form, hform, other, hstarts, name, hname, hother⟩)
    · exact absurd hnone List.not_mem_nil
    · exact ⟨name, hname, Or.inr ⟨form, mem_of_mem_fixWords hform, hstarts⟩⟩
    · exact ⟨name, hname, Or.inl ⟨form, hform, other, hother, hstarts⟩⟩
  · rintro ⟨name, hname, ⟨form, hform, other, hother, hstarts⟩ | ⟨form, hform, hstarts⟩⟩
    · exact Or.inr ⟨form, hform, other, hstarts, name, hname, hother⟩
    · obtain ⟨other, hother, hbegins⟩ := exists_mem_fixWords hform
      exact Or.inl (Or.inr ⟨other, hstarts.trans hbegins, name, hname, hother⟩)

/-! ### The keys that all words find -/

theorem intersect_spec (hresults : results.Pairwise (· < ·)) (hkeys : keys.Pairwise (· < ·)) :
    (intersect results keys).Pairwise (· < ·) ∧ ∀ key, key ∈ intersect results keys ↔ key ∈ results ∧ key ∈ keys := by
  induction results, keys using intersect.induct with
  | case1 keys =>
    rw [intersect]
    exact ⟨.nil, fun key => by simp⟩
  | case2 x results =>
    rw [intersect]
    exact ⟨.nil, fun key => by simp⟩
  | case3 x results y keys hlt ih =>
    obtain ⟨hx, hrest⟩ := List.pairwise_cons.mp hresults
    obtain ⟨hy, -⟩ := List.pairwise_cons.mp hkeys
    obtain ⟨hsorted, hmem⟩ := ih hrest hkeys
    rw [intersect, if_pos hlt]
    refine ⟨hsorted, fun key => (hmem key).trans (and_congr_left fun hkey => ⟨List.mem_cons_of_mem _, fun h => ?_⟩)⟩
    refine (List.mem_cons.mp h).resolve_left fun heq => ?_
    rcases List.mem_cons.mp hkey with rfl | hkey
    · omega
    · have := hy key hkey
      omega
  | case4 x results y keys hnlt hlt ih =>
    obtain ⟨hx, -⟩ := List.pairwise_cons.mp hresults
    obtain ⟨hy, hrest⟩ := List.pairwise_cons.mp hkeys
    obtain ⟨hsorted, hmem⟩ := ih hresults hrest
    rw [intersect, if_neg hnlt, if_pos hlt]
    refine ⟨hsorted, fun key => (hmem key).trans (and_congr_right fun hkey => ⟨List.mem_cons_of_mem _, fun h => ?_⟩)⟩
    refine (List.mem_cons.mp h).resolve_left fun heq => ?_
    rcases List.mem_cons.mp hkey with rfl | hkey
    · omega
    · have := hx key hkey
      omega
  | case5 x results y keys hnlt hnlt' ih =>
    obtain rfl : x = y := by omega
    obtain ⟨hx, hrest⟩ := List.pairwise_cons.mp hresults
    obtain ⟨hy, hrest'⟩ := List.pairwise_cons.mp hkeys
    obtain ⟨hsorted, hmem⟩ := ih hrest hrest'
    rw [intersect, if_neg hnlt, if_neg hnlt']
    refine ⟨List.pairwise_cons.mpr ⟨fun key hkey => hx key ((hmem key).mp hkey).1, hsorted⟩, fun key => ?_⟩
    rw [List.mem_cons, List.mem_cons, List.mem_cons, hmem, or_and_left]

end Results

section Search

variable {T : UnicodeTables} {h : Hints} {book : Book}

/-- The keys whose names are found by each of the words. -/
def FoundBy (T : UnicodeTables) (book : Book) (words : List Word) (key : ℤ) : Prop :=
  ∃ name, book.name key = some name ∧ ∀ word ∈ words, Finds T name word

theorem foundBy_cons {word : Word} {words : List Word} {key : ℤ} : FoundBy T book (word :: words) key ↔
    FoundBy T book [word] key ∧ FoundBy T book words key := by
  unfold FoundBy
  constructor
  · rintro ⟨name, hname, hall⟩
    obtain ⟨hword, hwords⟩ := List.forall_mem_cons.mp hall
    exact ⟨⟨name, hname, List.forall_mem_singleton.mpr hword⟩, name, hname, hwords⟩
  · rintro ⟨⟨name, hname, hword⟩, name', hname', hwords⟩
    obtain rfl := Option.some.inj (hname.symm.trans hname')
    exact ⟨name, hname, List.forall_mem_cons.mpr ⟨List.forall_mem_singleton.mp hword, hwords⟩⟩

theorem searchWord_foundBy (hh : Holds T h book) {word : Word} (hword : Valid word) :
    ∃ results, h.searchWord word = some results ∧ results.Pairwise (· < ·) ∧
      ∀ key, key ∈ results ↔ FoundBy T book [word] key := by
  obtain ⟨results, hrun, hsorted, hmem⟩ := searchWord_spec hh hword
  refine ⟨results, hrun, hsorted, fun key => (hmem key).trans ?_⟩
  simp [FoundBy]

theorem intersectWords_spec (hh : Holds T h book) : ∀ (words : List Word) (results : List ℤ),
    (∀ word ∈ words, Valid word) → results.Pairwise (· < ·) → (∀ key ∈ results, ∃ name, book.name key = some name) →
    ∃ results', words.foldlM (fun results word => do return intersect results (← h.searchWord word)) results =
        some results' ∧ results'.Pairwise (· < ·) ∧
      ∀ key, key ∈ results' ↔ key ∈ results ∧ FoundBy T book words key
  | [], results, _, hsorted, hnamed => by
    refine ⟨results, rfl, hsorted, fun key => (and_iff_left_of_imp fun hkey => ?_).symm⟩
    obtain ⟨name, hname⟩ := hnamed key hkey
    exact ⟨name, hname, fun _ hword => absurd hword List.not_mem_nil⟩
  | word :: words, results, hwords, hsorted, hnamed => by
    obtain ⟨hword, hwords⟩ := List.forall_mem_cons.mp hwords
    obtain ⟨keys, hrun, hkeys, hmem⟩ := searchWord_foundBy hh hword
    obtain ⟨hboth, hmem'⟩ := intersect_spec hsorted hkeys
    obtain ⟨results', hrun', hsorted', hmem''⟩ := intersectWords_spec hh words _ hwords hboth fun key hkey =>
      hnamed key ((hmem' key).mp hkey).1
    refine ⟨results', ?_, hsorted', fun key => ?_⟩
    · rw [List.foldlM_cons, hrun]
      exact hrun'
    · rw [hmem'', hmem', hmem, and_assoc, ← foundBy_cons]

theorem searchWords_spec (hh : Holds T h book) {words : List Word} (hwords : ∀ word ∈ words, Valid word)
    (all : List ℤ) (hne : words ≠ []) :
    ∃ results, h.searchWords words all = some results ∧ results.Nodup ∧
      ∀ key, key ∈ results ↔ FoundBy T book words key := by
  obtain ⟨word, words, rfl⟩ := List.exists_cons_of_ne_nil hne
  obtain ⟨hword, hwords⟩ := List.forall_mem_cons.mp hwords
  obtain ⟨keys, hrun, hkeys, hmem⟩ := searchWord_foundBy hh hword
  obtain ⟨results, hrun', hsorted, hmem'⟩ := intersectWords_spec hh words keys hwords hkeys fun key hkey =>
    (((hmem key).mp hkey)).imp fun _ hname => hname.1
  refine ⟨results, ?_, hsorted.imp fun hlt => Std.ne_of_lt hlt, fun key => ?_⟩
  · rw [searchWords, hrun]
    exact hrun'
  · rw [hmem', hmem, ← foundBy_cons]

/-! ### The order of the results -/

/-- The order of the ratings, and of the keys where the ratings are the same. -/
def Book.Before (book : Book) (lhs rhs : ℤ) : Prop :=
  book.rating lhs < book.rating rhs ∨ book.rating lhs = book.rating rhs ∧ lhs < rhs

theorem compareByRating_iff (hh : Holds T h book) (lhs rhs : ℤ) : h.compareByRating lhs rhs ↔ book.Before lhs rhs := by
  unfold compareByRating Book.Before
  rw [hh.ratings, hh.ratings]

theorem sortByRating_spec (hh : Holds T h book) {results : List ℤ} (hnodup : results.Nodup) :
    (h.sortByRating results).Pairwise book.Before ∧ (h.sortByRating results).Perm results := by
  have hperm : (h.sortByRating results).Perm results := List.perm_insertionSort _ _
  have htotal : Std.Total fun x y => ¬ h.compareByRating y x := ⟨fun x y => by unfold compareByRating; omega⟩
  have htrans : IsTrans ℤ fun x y => ¬ h.compareByRating y x := ⟨fun x y z => by unfold compareByRating; omega⟩
  have hsorted : (h.sortByRating results).Pairwise fun x y => ¬ h.compareByRating y x :=
    List.pairwise_insertionSort _ results
  refine ⟨(hsorted.and (hperm.nodup_iff.mpr hnodup)).imp fun {x y} hxy => ?_, hperm⟩
  obtain ⟨hnot, hne⟩ := hxy
  rw [compareByRating_iff hh] at hnot
  unfold Book.Before at hnot ⊢
  omega

/-- The keys of a kind in the order of the book, all counted, the first ones listed. -/
def Book.Lists (book : Book) (p : ℤ → Prop) (limit : ℕ) (answer : ℕ × List ℤ) : Prop :=
  ∃ all : List ℤ, all.Pairwise book.Before ∧ (∀ key, key ∈ all ↔ p key) ∧ answer = (all.length, all.take limit)

/-- What a query finds. -/
def Book.Finds (book : Book) (T : UnicodeTables) (query : Word) (returnAllForEmptyQuery : Bool) (key : ℤ) : Prop :=
  FoundBy T book (wordsOf T query) key ∧ (wordsOf T query = [] → returnAllForEmptyQuery = true)

theorem mem_keys_iff (hh : Holds T h book) (key : ℤ) : key ∈ h.keyToName.keys ↔ ∃ name, book.name key = some name := by
  rw [← AList.mem_keys, ← AList.lookup_isSome, hh.names, Option.isSome_iff_exists]

/-- A search counts and lists what the query finds. -/
theorem search_spec (hh : Holds T h book) {query : Word} (hquery : Valid query) {limit : ℤ} (hlimit : 0 ≤ limit)
    (returnAllForEmptyQuery : Bool) : ∃ answer, search T h query limit returnAllForEmptyQuery = some answer ∧
      book.Lists (book.Finds T query returnAllForEmptyQuery) limit.toNat answer := by
  obtain ⟨hget, -, hvalid⟩ := getWords_eq T hquery
  unfold search
  rw [if_neg (not_lt.mpr hlimit), hget, Option.bind_eq_bind, Option.bind_some]
  dsimp only
  obtain ⟨results, hrun, hnodup, hmem⟩ : ∃ results,
      h.searchWords (wordsOf T query)
        (if returnAllForEmptyQuery = true ∧ wordsOf T query = [] then h.keyToName.keys else []) = some results ∧
      results.Nodup ∧ ∀ key, key ∈ results ↔ book.Finds T query returnAllForEmptyQuery key := by
    by_cases hwords : wordsOf T query = []
    · refine ⟨_, by rw [hwords]; rfl, ?_, fun key => ?_⟩
      · split_ifs
        · exact h.keyToName.keys_nodup
        · exact List.nodup_nil
      · unfold Book.Finds FoundBy
        rw [hwords]
        cases returnAllForEmptyQuery with
        | false => simp
        | true => simpa using mem_keys_iff hh key
    · obtain ⟨results, hrun, hnodup, hmem⟩ := searchWords_spec hh (fun word hword => (hvalid word hword).1)
        (if returnAllForEmptyQuery = true ∧ wordsOf T query = [] then h.keyToName.keys else []) hwords
      exact ⟨results, hrun, hnodup, fun key => (hmem key).trans (and_iff_left fun hnil => absurd hnil hwords).symm⟩
  obtain ⟨hsorted, hperm⟩ := sortByRating_spec hh hnodup
  rw [hrun, Option.bind_eq_bind, Option.bind_some]
  have hlists : book.Lists (book.Finds T query returnAllForEmptyQuery) limit.toNat
      (results.length, (h.sortByRating results).take limit.toNat) :=
    ⟨h.sortByRating results, hsorted, fun key => hperm.mem_iff.trans (hmem key), by rw [hperm.length_eq]⟩
  split_ifs with hless
  · refine ⟨_, rfl, ?_⟩
    rwa [List.take_of_length_le (hperm.length_eq.trans_le hless.le)] at hlists
  · exact ⟨_, rfl, hlists⟩

/-! ### Calls -/

inductive Call
  | add (key : ℤ) (name : Word)
  | remove (key : ℤ)
  | setRating (key rating : ℤ)
  | search (query : Word) (limit : ℤ) (returnAllForEmptyQuery : Bool)
  | searchEmpty (limit : ℤ)
  | hasKey (key : ℤ)
  | keyToString (key : ℤ)
  | size

inductive Answer
  | done
  | found (results : ℕ × List ℤ)
  | isKey (known : Bool)
  | string (name : Word)
  | size (count : ℕ)

variable (T) in
def machine : Machine Hints Call Answer where
  step h
    | .add key name => (h.add T key name).map (·, .done)
    | .remove key => (h.remove T key).map (·, .done)
    | .setRating key rating => some (h.setRating key rating, .done)
    | .search query limit all => (h.search T query limit all).map fun results => (h, .found results)
    | .searchEmpty limit => (h.searchEmpty T limit).map fun results => (h, .found results)
    | .hasKey key => some (h, .isKey (h.hasKey key))
    | .keyToString key => some (h, .string (h.keyToString key))
    | .size => some (h, .size h.size)

/-- The names and queries of the calls are UTF-8. -/
def Call.Utf8 : Call → Prop
  | .add _ name => Valid name
  | .search query _ _ => Valid query
  | _ => True

/-- There are so many keys with a name. -/
def Book.Counts (book : Book) (count : ℕ) : Prop :=
  ∃ all : List ℤ, all.Nodup ∧ (∀ key, key ∈ all ↔ ∃ name, book.name key = some name) ∧ count = all.length

/-- What a search may return: a negative limit asks for the number of keys alone. -/
def Book.Returns (book : Book) (T : UnicodeTables) (query : Word) (limit : ℤ) (returnAllForEmptyQuery : Bool)
    (results : ℕ × List ℤ) : Prop :=
  if limit < 0 then book.Counts results.1 ∧ results.2 = []
  else book.Lists (book.Finds T query returnAllForEmptyQuery) limit.toNat results

variable (T) in
def specification : Specification Book Call Answer where
  Pre _ call := call.Utf8
  next book
    | .add key name => book.add key name
    | .remove key => book.add key []
    | .setRating key rating => book.setRating key rating
    | _ => book
  Answer book
    | .search query limit all, .found results => book.Returns T query limit all results
    | .searchEmpty limit, .found results => book.Returns T [] limit true results
    | .hasKey key, .isKey known => known = (book.name key).isSome
    | .keyToString key, .string name => name = (book.name key).getD []
    | .size, .size count => book.Counts count
    | .add .., .done | .remove _, .done | .setRating .., .done => True
    | _, _ => False

theorem counts_size (hh : Holds T h book) : book.Counts h.keyToName.keys.length :=
  ⟨h.keyToName.keys, h.keyToName.keys_nodup, mem_keys_iff hh, rfl⟩

theorem search_returns (hh : Holds T h book) {query : Word} (hquery : Valid query) (limit : ℤ) (all : Bool) :
    ∃ results, h.search T query limit all = some results ∧ book.Returns T query limit all results := by
  unfold Book.Returns
  split_ifs with hlimit
  · exact ⟨_, if_pos hlimit, counts_size hh, rfl⟩
  · exact search_spec hh hquery (not_lt.mp hlimit) all

variable (T) in
theorem machine_refines : (machine T).Refines (specification T) (Holds T) := by
  intro h book call hh hcall
  cases call with
  | add key name =>
    obtain ⟨h', hadd, hh'⟩ := hh.add key (show Valid name from hcall)
    exact ⟨h', .done, congrArg (Option.map (·, Answer.done)) hadd, hh', trivial⟩
  | remove key =>
    obtain ⟨h', hadd, hh'⟩ := hh.add key valid_nil
    exact ⟨h', .done, congrArg (Option.map (·, Answer.done)) hadd, hh', trivial⟩
  | setRating key rating => exact ⟨_, .done, rfl, hh.setRating key rating, trivial⟩
  | search query limit all =>
    obtain ⟨results, hsearch, hreturns⟩ := search_returns hh (show Valid query from hcall) limit all
    exact ⟨h, .found results, congrArg (Option.map fun results => (h, Answer.found results)) hsearch, hh, hreturns⟩
  | searchEmpty limit =>
    obtain ⟨results, hsearch, hreturns⟩ := search_returns hh valid_nil limit true
    exact ⟨h, .found results, congrArg (Option.map fun results => (h, Answer.found results)) hsearch, hh, hreturns⟩
  | hasKey key => exact ⟨h, .isKey _, rfl, hh, congrArg Option.isSome (hh.names key)⟩
  | keyToString key => exact ⟨h, .string _, rfl, hh, congrArg (fun name : Option Word => name.getD []) (hh.names key)⟩
  | size => exact ⟨h, .size _, rfl, hh, counts_size hh⟩

variable (T) in
/-- **The hints are a function of the book.**  In every sequence of calls with names and queries that are UTF-8 no check
fails; the indexes hold the words and the transliterations of the current names, each pair once, and every call is answered
as the book says, whatever names the keys had before. -/
theorem run_refines (calls : List Call) (hcalls : ∀ call ∈ calls, call.Utf8) : ∃ h answers,
    (machine T).run .empty calls = some (h, answers) ∧
      Holds T h (calls.foldl (specification T).next .empty) ∧ (specification T).Answers .empty calls answers :=
  (machine_refines T).run calls holds_empty (Specification.admits_of_forall _ fun _ => hcalls)

end Search

/-- Two names with a common word, and a search for it. -/
theorem run_refines_common : ∃ h answers,
    (machine ⟨.identity, .identity⟩).run .empty [.add 1 [97, 98], .add 2 [97], .remove 1, .search [97] 5 false] =
      some (h, answers) ∧
    Holds ⟨.identity, .identity⟩ h (([.add 1 [97, 98], .add 2 [97], .remove 1, .search [97] 5 false] : List Call).foldl
      (specification ⟨.identity, .identity⟩).next .empty) ∧
    (specification ⟨.identity, .identity⟩).Answers .empty
      [.add 1 [97, 98], .add 2 [97], .remove 1, .search [97] 5 false] answers := by
  refine run_refines ⟨.identity, .identity⟩ _ fun call hcall => ?_
  simp only [List.mem_cons, List.not_mem_nil, or_false] at hcall
  rcases hcall with rfl | rfl | rfl | rfl
  · exact valid_of_ascii (by decide)
  · exact valid_of_ascii (by decide)
  · exact trivial
  · exact valid_of_ascii (by decide)

end TdUtils.Hints
