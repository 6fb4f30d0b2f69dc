import Mathlib.Data.List.TakeWhile
import TdUtils.Hints.Search

/-!
# Hints.OwnName — when a name finds itself

A word is found through the pass that leaves its letters, if one of the two passes leaves a prefix of it.  A torn word has
letters of both alphabets: neither what is made of it nor what is stored for a name leads back to it, and it is found only
where another word of the name begins with one of its forms.
-/

namespace TdUtils.Hints

open Lib Text Utf8

/-! ### Forms of a word and the word -/

/-- Latin letters, and more than signs from the first Russian letter on. -/
def Torn (word : Word) : Prop :=
  ∃ cs, Encodes word cs ∧ (∃ c ∈ cs, Latin c) ∧ ∃ c ∈ cs.dropWhile (¬ Russian ·), ¬ Sign c

section Forms

variable {cs : List ℕ}

theorem formsOf_spec (hcs : ∀ c ∈ cs, Scalar c) (allowPartial : Bool) :
    (cs.flatMap (simpleForm enToRuSimpleRules) ≠ [] →
        (cs.flatMap (simpleForm enToRuSimpleRules)).flatMap utf8 ∈ formsOf (cs.flatMap utf8) allowPartial) ∧
      (cs.flatMap (simpleForm ruToEnSimpleRules) ≠ [] →
        (cs.flatMap (simpleForm ruToEnSimpleRules)).flatMap utf8 ∈ formsOf (cs.flatMap utf8) allowPartial) ∧
      ∀ form ∈ formsOf (cs.flatMap utf8) allowPartial, ∃ out, form = out.flatMap utf8 ∧ Form cs out := by
  obtain ⟨forms, hforms, hspec⟩ := getWordTransliterations_spec hcs allowPartial
  unfold formsOf
  rw [hforms]
  exact hspec

/-- The codes up to the first letter, and the codes from it on. -/
theorem exists_first {Letter : ℕ → Prop} [DecidablePred Letter] (h : ∃ c ∈ cs, Letter c) : ∃ front c rest,
    cs = front ++ c :: rest ∧ (∀ x ∈ front, ¬ Letter x) ∧ Letter c ∧ cs.dropWhile (¬ Letter ·) = c :: rest := by
  induction cs with
  | nil =>
    obtain ⟨c, hc, -⟩ := h
    exact absurd hc List.not_mem_nil
  | cons x cs ih =>
    by_cases hx : Letter x
    · exact ⟨[], x, cs, rfl, fun _ h => absurd h List.not_mem_nil, hx, by rw [List.dropWhile_cons_of_neg (by simpa)]⟩
    · obtain ⟨c, hc, hletter⟩ := h
      have hcs : c ∈ cs := (List.mem_cons.mp hc).resolve_left fun heq => hx (heq ▸ hletter)
      obtain ⟨front, d, rest, heq, hfront, hd, hdrop⟩ := ih ⟨c, hcs, hletter⟩
      refine ⟨x :: front, d, rest, by rw [heq, List.cons_append], List.forall_mem_cons.mpr ⟨hx, hfront⟩, hd, ?_⟩
      rw [List.dropWhile_cons_of_pos (by simpa), hdrop]

/-- A form of a torn word does not begin the word. -/
theorem not_prefix_of_torn {out : List ℕ} (hlatin : ∃ c ∈ cs, Latin c)
    (htorn : ∃ c ∈ cs.dropWhile (¬ Russian ·), ¬ Sign c) (hform : Form cs out) : ¬ out <+: cs := by
  intro hstarts
  rcases hform with hyields | hyields
  · obtain ⟨front, c, rest, rfl, hfront, hc, -⟩ := exists_first hlatin
    exact simpleForm_ne_nil c (replaces_latin.simpleForm_of_prefix hc hfront hyields hstarts c List.mem_cons_self)
  · have hrussian : ∃ c ∈ cs, Russian c := by
      by_contra hnone
      have hall : ∀ c ∈ cs, ¬ Russian c := fun c hc hr => hnone ⟨c, hc, hr⟩
      obtain ⟨c, hc, -⟩ := htorn
      rw [List.dropWhile_eq_nil_iff.mpr fun c hc => by simpa using hall c hc] at hc
      exact List.not_mem_nil hc
    obtain ⟨front, c, rest, heq, hfront, hc, hdrop⟩ := exists_first hrussian
    rw [hdrop] at htorn
    obtain ⟨x, hx, hsign⟩ := htorn
    subst heq
    exact hsign (simpleForm_eq_nil_iff.mp (replaces_russian.simpleForm_of_prefix hc hfront hyields hstarts x hx))

/-- A word that is not torn begins with one of its forms. -/
theorem exists_prefix_of_not_torn (hcs : ∀ c ∈ cs, Scalar c) (hne : cs ≠ [])
    (hwhole : (∃ c ∈ cs, Latin c) → ∀ c ∈ cs.dropWhile (¬ Russian ·), Sign c) (allowPartial : Bool) :
    ∃ form ∈ formsOf (cs.flatMap utf8) allowPartial, form <+: cs.flatMap utf8 := by
  obtain ⟨hen, hru, -⟩ := formsOf_spec hcs allowPartial
  by_cases hlatin : ∃ c ∈ cs, Latin c
  · have hsigns := hwhole hlatin
    -- the codes in front of the first Russian letter stay, and the signs make nothing
    have hform : cs.flatMap (simpleForm ruToEnSimpleRules) = cs.takeWhile (¬ Russian ·) := by
      have hfront : ∀ c ∈ cs.takeWhile (¬ Russian ·), ¬ Russian c := fun c hc => by
        simpa using List.mem_takeWhile_imp hc
      have hback : (cs.dropWhile (¬ Russian ·)).flatMap (simpleForm ruToEnSimpleRules) = [] :=
        List.flatMap_eq_nil_iff.mpr fun c hc => simpleForm_eq_nil_iff.mpr (hsigns c hc)
      conv_lhs => rw [← List.takeWhile_append_dropWhile (p := (¬ Russian ·)) (l := cs)]
      rw [List.flatMap_append, replaces_russian.simpleForm_others hfront, hback, List.append_nil]
    have hfront : cs.takeWhile (¬ Russian ·) ≠ [] := by
      intro hnil
      obtain ⟨c, hc, hletter⟩ := hlatin
      rw [← List.takeWhile_append_dropWhile (p := (¬ Russian ·)) (l := cs), hnil, List.nil_append] at hc
      have hsign := hsigns c hc
      rcases hsign with rfl | rfl
      · exact absurd hletter (by decide)
      · exact absurd hletter (by decide)
    rw [hform] at hru
    exact ⟨_, hru hfront, (flatMap_utf8_prefix_iff (fun c hc => hcs c ((List.takeWhile_prefix _).subset hc)) hcs).mpr
      (List.takeWhile_prefix _)⟩
  · have hform := replaces_latin.simpleForm_others fun c hc hletter => hlatin ⟨c, hc, hletter⟩
    rw [hform] at hen
    exact ⟨_, hen hne, List.prefix_refl _⟩

/-- What is stored for a word has no letters of the one or of the other alphabet. -/
theorem not_torn_prefix_of_form {word form : Word} {ds out : List ℕ} (hword : Torn word) (hds : ∀ c ∈ ds, Scalar c)
    (hform : form = out.flatMap utf8) (hout : Form ds out) : ¬ word <+: form := by
  obtain ⟨cs, ⟨rfl, hcs⟩, ⟨latin, hlatin, hletter⟩, russian, hrussian, -⟩ := hword
  subst hform
  have hscalar : ∀ c ∈ out, Scalar c := hout.elim (·.scalar hds) (·.scalar hds)
  rw [flatMap_utf8_prefix_iff hcs hscalar]
  intro hstarts
  rcases hout with hyields | hyields
  · exact replaces_latin.not_letter_of_yields hyields latin (hstarts.subset hlatin) hletter
  · obtain ⟨first, rest, hdrop⟩ := List.exists_cons_of_ne_nil (List.ne_nil_of_mem hrussian)
    have hfirst : Russian first := by
      have hhead := List.head?_dropWhile_not (fun c => decide (¬ Russian c)) cs
      rw [hdrop] at hhead
      simpa using hhead
    have hmem : first ∈ cs := (List.dropWhile_sublist _).subset (hdrop ▸ List.mem_cons_self)
    exact replaces_russian.not_letter_of_yields hyields first (hstarts.subset hmem) hfirst

end Forms

/-! ### Names -/

section Names

variable {T : UnicodeTables} {name word : Word}

/-- When a word of a name finds the name. -/
theorem finds_own_iff (hname : Valid name) (hword : word ∈ wordsOf T name) : Finds T name word ↔
    (Torn word → ∃ form ∈ formsOf word true, ∃ other ∈ wordsOf T name, other ≠ word ∧ form <+: other) := by
  obtain ⟨-, -, hvalid⟩ := getWords_eq T hname
  obtain ⟨⟨cs, hencodes⟩, hne⟩ := hvalid word hword
  obtain ⟨hcs, hscalar⟩ := id hencodes
  constructor
  · rintro hfinds htorn
    rcases hfinds with ⟨form, hform, other, hother, hstarts⟩ | ⟨form, hform, hstarts⟩
    · refine ⟨form, hform, other, hother, fun heq => ?_, hstarts⟩
      subst heq
      obtain ⟨cs', hencodes', hlatin, hsign⟩ := htorn
      obtain rfl := hencodes.inj hencodes'
      rw [hcs] at hform hstarts
      obtain ⟨out, rfl, hout⟩ := (formsOf_spec hscalar true).2.2 form hform
      have hscalar' : ∀ c ∈ out, Scalar c := hout.elim (·.scalar hscalar) (·.scalar hscalar)
      exact not_prefix_of_torn hlatin hsign hout ((flatMap_utf8_prefix_iff hscalar' hscalar).mp hstarts)
    · -- nothing that is stored for another word has all its letters
      obtain ⟨other, hother, hfilter⟩ := List.mem_flatMap.mp hform
      obtain ⟨⟨ds, rfl, hds⟩, -⟩ := hvalid other hother
      obtain ⟨out, hout, hyields⟩ := (formsOf_spec hds false).2.2 form (List.mem_filter.mp hfilter).1
      exact absurd hstarts (not_torn_prefix_of_form htorn hds hout hyields)
  · intro hfound
    by_cases htorn : Torn word
    · obtain ⟨form, hform, other, hother, -, hstarts⟩ := hfound htorn
      exact Or.inl ⟨form, hform, other, hother, hstarts⟩
    · have hwhole : (∃ c ∈ cs, Latin c) → ∀ c ∈ cs.dropWhile (¬ Russian ·), Sign c := fun hlatin c hc =>
        not_not.mp fun hsign => htorn ⟨cs, hencodes, hlatin, c, hc, hsign⟩
      have hnil : cs ≠ [] := fun hnil => hne (by rw [hcs, hnil, List.flatMap_nil])
      obtain ⟨form, hform, hstarts⟩ := exists_prefix_of_not_torn hscalar hnil hwhole true
      rw [← hcs] at hform hstarts
      exact Or.inl ⟨form, hform, word, hword, hstarts⟩

/-- With a limit of all keys, a search lists all that it finds. -/
theorem mem_lists {book : Book} {p : ℤ → Prop} {count limit : ℕ} {answer : ℕ × List ℤ} (hlists : book.Lists p limit answer)
    (hcount : book.Counts count) (hlimit : count ≤ limit) (hnamed : ∀ key, p key → ∃ name, book.name key = some name)
    (key : ℤ) : key ∈ answer.2 ↔ p key := by
  obtain ⟨all, hsorted, hmem, rfl⟩ := hlists
  obtain ⟨keys, -, hkeys, rfl⟩ := hcount
  have hnodup : all.Nodup := hsorted.imp fun {x y} hbefore heq => by
    subst heq
    unfold Book.Before at hbefore
    omega
  have hsubset : all ⊆ keys := fun other hother => (hkeys other).mpr (hnamed other ((hmem other).mp hother))
  have hlen : all.length ≤ keys.length := (List.subperm_of_subset hnodup hsubset).length_le
  dsimp only
  rw [List.take_of_length_le (hlen.trans hlimit), hmem]

/-- **When a name finds itself.**  After any calls a key gets a name that has words.  A search for this name with a limit of
all keys then finds the key if and only if for each torn word of the name another word begins with one of its forms. -/
theorem search_own_name (T : UnicodeTables) (calls : List Call) (hcalls : ∀ call ∈ calls, call.Utf8) (key : ℤ)
    (hname : Valid name) (hwords : wordsOf T name ≠ []) : ∃ h answers h',
      (machine T).run .empty calls = some (h, answers) ∧ h.add T key name = some h' ∧
      ∀ (limit : ℤ) (all : Bool), h'.size ≤ limit → ∃ results, h'.search T name limit all = some results ∧
        (key ∈ results.2 ↔ ∀ word ∈ wordsOf T name, Torn word →
          ∃ form ∈ formsOf word true, ∃ other ∈ wordsOf T name, other ≠ word ∧ form <+: other) := by
  obtain ⟨h, answers, hrun, hh, -⟩ :=
    (machine_refines T).run calls holds_empty (Specification.admits_of_forall _ fun _ => hcalls)
  obtain ⟨h', hadd, hh'⟩ := hh.add key hname
  refine ⟨h, answers, h', hrun, hadd, fun limit all hlimit => ?_⟩
  obtain ⟨results, hsearch, hlists⟩ := search_spec hh' hname (le_trans (Int.natCast_nonneg _) hlimit) all
  refine ⟨results, hsearch, ?_⟩
  rw [mem_lists hlists (counts_size hh') (by unfold size at hlimit; omega) fun other hother =>
    hother.1.imp fun _ hfound => hfound.1]
  have hname' : name ≠ [] := fun hnil => hwords (by rw [hnil]; rfl)
  have hbook : ((calls.foldl (specification T).next .empty).add key name).name key = some name := by
    unfold Book.add
    rw [if_neg hname']
    exact Function.update_self _ _ _
  constructor
  · rintro ⟨⟨name', hsome, hfinds⟩, -⟩ word hword
    obtain rfl := Option.some.inj (hbook.symm.trans hsome)
    exact (finds_own_iff hname hword).mp (hfinds word hword)
  · intro hfound
    exact ⟨⟨name, hbook, fun word hword => (finds_own_iff hname hword).mpr (hfound word hword)⟩,
      fun hnil => absurd hnil hwords⟩

set_option maxRecDepth 8000 in
/-- A name of one word with letters of both alphabets. -/
theorem search_own_name_torn : ∃ h answers h',
    (machine ⟨.identity, .identity⟩).run .empty [.setRating 1 5] = some (h, answers) ∧
      h.add ⟨.identity, .identity⟩ 1 [97, 208, 177] = some h' ∧
      ∀ (limit : ℤ) (all : Bool), h'.size ≤ limit →
        ∃ results, h'.search ⟨.identity, .identity⟩ [97, 208, 177] limit all = some results ∧
          (1 ∈ results.2 ↔ ∀ word ∈ wordsOf ⟨.identity, .identity⟩ [97, 208, 177], Torn word →
            ∃ form ∈ formsOf word true, ∃ other ∈ wordsOf ⟨.identity, .identity⟩ [97, 208, 177],
              other ≠ word ∧ form <+: other) :=
  search_own_name ⟨.identity, .identity⟩ [.setRating 1 5] (List.forall_mem_singleton.mpr trivial) 1
    ⟨[97, 0x431], by decide, by unfold Scalar; decide⟩ (by decide)

end Names

end TdUtils.Hints
