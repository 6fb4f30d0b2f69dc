import Mathlib.Data.List.Nodup
import Mathlib.Data.List.Perm.Basic
import TdUtils.Hints.FixWords
import TdUtils.Text.TranslitForms

/-!
# Hints.Indexes — what the two indexes hold after any calls

An index is known by the pairs of words and keys that it holds: `Indexes m P` says that they are the pairs of `P`, each of
them once, and that no list of keys is empty.  A call adds the pairs of one key or takes them away.
-/

namespace TdUtils.Hints

open Lib Text Utf8

/-! ### One index -/

structure Indexes (m : SortedMap Word (List ℤ)) (P : Word → ℤ → Prop) : Prop where
  keys_ok : ∀ word keys, (word, keys) ∈ m.entries → keys ≠ [] ∧ keys.Nodup
  mem_iff : ∀ word key, (∃ keys, (word, keys) ∈ m.entries ∧ key ∈ keys) ↔ P word key

section Indexes

variable {m : SortedMap Word (List ℤ)} {P Q : Word → ℤ → Prop} {word : Word} {key : ℤ} {keys : List ℤ}

theorem Indexes.congr (h : Indexes m P) (heq : ∀ word key, P word key ↔ Q word key) : Indexes m Q :=
  ⟨h.keys_ok, fun word key => (h.mem_iff word key).trans (heq word key)⟩

theorem indexes_empty : Indexes .empty fun _ _ => False :=
  ⟨fun _ _ h => absurd h List.not_mem_nil, fun _ _ => ⟨fun ⟨_, h, _⟩ => absurd h List.not_mem_nil, False.elim⟩⟩

/-- The keys of a word. -/
theorem Indexes.find_spec (h : Indexes m P) (word : Word) :
    ((m.find word).getD []).Nodup ∧ ∀ key, key ∈ (m.find word).getD [] ↔ P word key := by
  cases hfind : m.find word with
  | none =>
    refine ⟨List.nodup_nil, fun key => ⟨fun hkey => absurd hkey List.not_mem_nil, fun hP => ?_⟩⟩
    obtain ⟨keys, hmem, -⟩ := (h.mem_iff word key).mpr hP
    exact absurd hmem (SortedMap.find_eq_none_iff.mp hfind keys)
  | some keys =>
    have hmem := SortedMap.find_eq_some_iff.mp hfind
    refine ⟨(h.keys_ok word keys hmem).2, fun key => ⟨fun hkey => (h.mem_iff word key).mp ⟨keys, hmem, hkey⟩, fun hP => ?_⟩⟩
    obtain ⟨keys', hmem', hkey⟩ := (h.mem_iff word key).mpr hP
    rwa [SortedMap.eq_of_mem hmem' hmem] at hkey

/-- Other keys for one word. -/
theorem Indexes.set (h : Indexes m P) (hne : keys ≠ []) (hnodup : keys.Nodup) (word : Word) :
    Indexes (m.set word keys) fun word' key => word' = word ∧ key ∈ keys ∨ word' ≠ word ∧ P word' key := by
  constructor
  · intro word' keys' hmem
    rcases SortedMap.mem_set.mp hmem with heq | ⟨hmem, -⟩
    · obtain ⟨rfl, rfl⟩ := Prod.mk.inj heq
      exact ⟨hne, hnodup⟩
    · exact h.keys_ok word' keys' hmem
  · intro word' key
    constructor
    · rintro ⟨keys', hmem, hkey⟩
      rcases SortedMap.mem_set.mp hmem with heq | ⟨hmem, hword⟩
      · obtain ⟨rfl, rfl⟩ := Prod.mk.inj heq
        exact Or.inl ⟨rfl, hkey⟩
      · exact Or.inr ⟨hword, (h.mem_iff word' key).mp ⟨keys', hmem, hkey⟩⟩
    · rintro (⟨rfl, hkey⟩ | ⟨hword, hP⟩)
      · exact ⟨keys, SortedMap.mem_set.mpr (Or.inl rfl), hkey⟩
      · obtain ⟨keys', hmem, hkey⟩ := (h.mem_iff word' key).mpr hP
        exact ⟨keys', SortedMap.mem_set.mpr (Or.inr ⟨hmem, hword⟩), hkey⟩

theorem Indexes.erase (h : Indexes m P) (word : Word) :
    Indexes (m.erase word) fun word' key => word' ≠ word ∧ P word' key := by
  constructor
  · exact fun word' keys' hmem => h.keys_ok word' keys' (SortedMap.mem_erase.mp hmem).1
  · intro word' key
    constructor
    · rintro ⟨keys', hmem, hkey⟩
      obtain ⟨hmem, hword⟩ := SortedMap.mem_erase.mp hmem
      exact ⟨hword, (h.mem_iff word' key).mp ⟨keys', hmem, hkey⟩⟩
    · rintro ⟨hword, hP⟩
      obtain ⟨keys', hmem, hkey⟩ := (h.mem_iff word' key).mpr hP
      exact ⟨keys', SortedMap.mem_erase.mpr ⟨hmem, hword⟩, hkey⟩

theorem addWord_spec (h : Indexes m P) (hnew : ¬ P word key) : ∃ m', addWord key word m = some m' ∧
    Indexes m' fun word' key' => P word' key' ∨ word' = word ∧ key' = key := by
  obtain ⟨hnodup, hkeys⟩ := h.find_spec word
  have hnot : key ∉ (m.find word).getD [] := fun hmem => hnew ((hkeys key).mp hmem)
  have hnodup' : ((m.find word).getD [] ++ [key]).Nodup :=
    List.nodup_append_comm.mpr (List.nodup_cons.mpr ⟨hnot, hnodup⟩)
  refine ⟨_, if_neg hnot, (h.set (by simp) hnodup' word).congr fun word' key' => ?_⟩
  rw [List.mem_append, hkeys, List.mem_singleton]
  by_cases hword : word' = word
  · subst hword
    simp
  · simp [hword]

/-- What the removal of a key leaves, in some order. -/
theorem swapRemove_perm (hnodup : keys.Nodup) (hkey : key ∈ keys) : (swapRemove key keys).Perm (keys.erase key) := by
  obtain ⟨init, last, rfl⟩ : ∃ init last, keys = init ++ [last] :=
    ⟨keys.dropLast, keys.getLast (List.ne_nil_of_mem hkey), (List.dropLast_append_getLast _).symm⟩
  unfold swapRemove
  rw [List.getLastD_concat]
  by_cases hinit : key ∈ init
  · have hlt : init.idxOf key < init.length := List.idxOf_lt_length_of_mem hinit
    rw [List.idxOf_append_of_mem hinit, List.set_append_left _ _ hlt, List.dropLast_concat, List.erase_append_left _ hinit]
    refine (List.set_perm_cons_eraseIdx hlt last).trans ?_
    rw [List.eraseIdx_idxOf_eq_erase]
    exact (List.perm_append_singleton _ _).symm
  · have hlast : key = last := by
      rcases List.mem_append.mp hkey with hmem | hmem
      · exact absurd hmem hinit
      · exact List.mem_singleton.mp hmem
    subst hlast
    rw [List.idxOf_append_of_notMem hinit, List.erase_append_right _ hinit]
    simp

theorem deleteWord_spec (h : Indexes m P) (hmem : P word key) : ∃ m', deleteWord key word m = some m' ∧
    Indexes m' fun word' key' => P word' key' ∧ ¬ (word' = word ∧ key' = key) := by
  obtain ⟨hnodup, hkeys⟩ := h.find_spec word
  have hkey : key ∈ (m.find word).getD [] := (hkeys key).mpr hmem
  unfold deleteWord
  dsimp only
  rw [if_neg (not_not.mpr hkey)]
  split_ifs with hone hmany
  · obtain ⟨only, honly⟩ := List.length_eq_one_iff.mp hone
    rw [honly] at hkeys hkey
    obtain rfl := List.mem_singleton.mp hkey
    refine ⟨_, rfl, (h.erase word).congr fun word' key' => ?_⟩
    by_cases hword : word' = word
    · subst hword
      simp [← hkeys]
    · simp [hword]
  · have hperm := swapRemove_perm hnodup hkey
    have hne : swapRemove key ((m.find word).getD []) ≠ [] := by
      intro hnil
      have hlen := hperm.length_eq
      rw [hnil, List.length_erase_of_mem hkey, List.length_nil] at hlen
      omega
    refine ⟨_, rfl, (h.set hne (hperm.nodup_iff.mpr (hnodup.erase key)) word).congr fun word' key' => ?_⟩
    rw [hperm.mem_iff, hnodup.mem_erase_iff, hkeys]
    by_cases hword : word' = word
    · subst hword
      simp [and_comm]
    · simp [hword]
  · have hlen := List.length_pos_of_mem hkey
    omega

variable (key) in
theorem addWords_spec : ∀ (words : List Word) {m : SortedMap Word (List ℤ)} {P : Word → ℤ → Prop}, words.Nodup →
    Indexes m P → (∀ word ∈ words, ¬ P word key) →
    ∃ m', words.foldlM (fun m word => addWord key word m) m = some m' ∧
      Indexes m' fun word' key' => P word' key' ∨ word' ∈ words ∧ key' = key
  | [], m, P, _, h, _ => ⟨m, rfl, h.congr fun _ _ => by simp⟩
  | word :: words, m, P, hnodup, h, hnew => by
    obtain ⟨hword, hnodup⟩ := List.nodup_cons.mp hnodup
    obtain ⟨hnew, hnews⟩ := List.forall_mem_cons.mp hnew
    obtain ⟨m₁, hadd, h₁⟩ := addWord_spec h hnew
    obtain ⟨m₂, hrun, h₂⟩ := addWords_spec words hnodup h₁ fun other hother hP =>
      hP.elim (hnews other hother) fun heq => hword (heq.1 ▸ hother)
    refine ⟨m₂, ?_, h₂.congr fun word' key' => ?_⟩
    · rw [List.foldlM_cons, hadd]
      exact hrun
    · rw [List.mem_cons, or_and_right, or_assoc]

variable (key) in
theorem deleteWords_spec : ∀ (words : List Word) {m : SortedMap Word (List ℤ)} {P : Word → ℤ → Prop}, words.Nodup →
    Indexes m P → (∀ word ∈ words, P word key) →
    ∃ m', words.foldlM (fun m word => deleteWord key word m) m = some m' ∧
      Indexes m' fun word' key' => P word' key' ∧ ¬ (word' ∈ words ∧ key' = key)
  | [], m, P, _, h, _ => ⟨m, rfl, h.congr fun _ _ => by simp⟩
  | word :: words, m, P, hnodup, h, hold => by
    obtain ⟨hword, hnodup⟩ := List.nodup_cons.mp hnodup
    obtain ⟨hold, holds⟩ := List.forall_mem_cons.mp hold
    obtain ⟨m₁, hdelete, h₁⟩ := deleteWord_spec h hold
    obtain ⟨m₂, hrun, h₂⟩ := deleteWords_spec words hnodup h₁ fun other hother =>
      ⟨holds other hother, fun heq => hword (heq.1 ▸ hother)⟩
    refine ⟨m₂, ?_, h₂.congr fun word' key' => ?_⟩
    · rw [List.foldlM_cons, hdelete]
      exact hrun
    · rw [List.mem_cons, or_and_right, not_or, and_assoc]

end Indexes

end TdUtils.Hints
