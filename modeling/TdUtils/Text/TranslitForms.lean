import TdUtils.Text.Translit

/-!
# Text.TranslitForms — the transliterations of a word, code by code

Both passes of `add_word_transliterations` come to the end of a word that is UTF-8.  The first one replaces every code by
what a simple rule says.  What the second one adds is put together from what rules make of groups of codes and of single
codes, and from what a rule makes of the end of the word.
-/

namespace TdUtils.Text

open Lib Utf8

/-! ### Codes of literals -/

def codes (cs : List Char) : List ℕ := cs.map Char.toNat

theorem text_eq (cs : List Char) : text cs = (codes cs).flatMap utf8 := by
  unfold text codes
  rw [List.flatMap_map]

theorem scalar_toNat (c : Char) : Scalar c.toNat := by
  rcases c.valid with h | ⟨h, h'⟩
  · exact Or.inl h
  · exact Or.inr ⟨h, h'⟩

theorem scalar_codes (cs : List Char) : ∀ c ∈ codes cs, Scalar c := by
  intro c hc
  obtain ⟨char, -, rfl⟩ := List.mem_map.mp hc
  exact scalar_toNat char

theorem codes_ne_nil {cs : List Char} (h : cs ≠ []) : codes cs ≠ [] := fun hnil => h (List.map_eq_nil_iff.mp hnil)

theorem mem_sortUnique {α : Type} [LE α] [DecidableLE α] [DecidableEq α] {x : α} {xs : List α} : x ∈ sortUnique xs ↔ x ∈ xs := by
  unfold sortUnique
  constructor
  · intro h
    exact (List.mem_insertionSort _).mp ((List.dropBefore_sublist _).subset h)
  · intro h
    obtain ⟨y, hy, rfl⟩ := List.exists_mem_dropBefore (r := (· = ·)) (fun _ => rfl) (fun _ _ _ => Eq.trans)
      ((List.mem_insertionSort (· ≤ ·)).mpr h)
    exact hy

/-! ### The passes -/

/-- What the simple rules make of a code. -/
def simpleForm (simpleRules : List (Char × List Char)) (code : ℕ) : List ℕ :=
  match simpleRules.find? (·.1.toNat = code) with
  | some rule => codes rule.2
  | none => [code]

section Passes

variable {simpleRules : List (Char × List Char)} {complexRules : List (List Char × List Char)}

theorem scalar_simpleForm {code : ℕ} (h : Scalar code) : ∀ c ∈ simpleForm simpleRules code, Scalar c := by
  unfold simpleForm
  split
  · exact scalar_codes _
  · exact List.forall_mem_singleton.mpr h

theorem lt_of_scalar {c : ℕ} (h : Scalar c) : c < 0x110000 := by
  unfold Scalar at h
  omega

theorem appendSimple_eq {code : ℕ} (h : Scalar code) (s : Word) :
    appendSimple simpleRules s code = s ++ (simpleForm simpleRules code).flatMap utf8 := by
  unfold appendSimple simpleForm
  cases simpleRules.find? (·.1.toNat = code) with
  | some rule =>
    dsimp only
    rw [text_eq]
  | none =>
    dsimp only
    rw [appendUtf8Character_eq (Nat.lt_trans (lt_of_scalar h) (by decide)), List.flatMap_singleton]

theorem simpleLoop_eq : ∀ (fuel : ℕ) (cs : List ℕ) (s : Word), (∀ c ∈ cs, Scalar c) → (cs.flatMap utf8).length < fuel →
    simpleLoop simpleRules fuel (cs.flatMap utf8) s = some (s ++ (cs.flatMap (simpleForm simpleRules)).flatMap utf8)
  | 0, _, _, _, hfuel => absurd hfuel (Nat.not_lt_zero _)
  | fuel + 1, [], s, _, _ => by
    rw [simpleLoop, if_pos List.flatMap_nil, List.flatMap_nil, List.flatMap_nil, List.append_nil]
  | fuel + 1, c :: cs, s, hcs, hfuel => by
    obtain ⟨hc, hcs⟩ := List.forall_mem_cons.mp hcs
    have hne : (c :: cs).flatMap utf8 ≠ [] := by simp [utf8_ne_nil]
    have hlen := (length_utf8 c).1
    rw [List.flatMap_cons, List.length_append] at hfuel
    rw [simpleLoop, if_neg hne, List.flatMap_cons, nextUtf8Unsafe_utf8 hc]
    change simpleLoop simpleRules fuel (cs.flatMap utf8) (appendSimple simpleRules s c) = _
    rw [appendSimple_eq hc, simpleLoop_eq fuel cs _ hcs (by omega), List.flatMap_cons, List.flatMap_append,
      List.append_assoc]

variable (simpleRules complexRules) in
/-- What the second pass may add for the codes in front of it. -/
inductive Yields : List ℕ → List ℕ → Prop
  | nil : Yields [] []
  | code (c : ℕ) {cs out : List ℕ} : Yields cs out → Yields (c :: cs) (simpleForm simpleRules c ++ out)
  | rule {rule : List Char × List Char} {cs out : List ℕ} : rule ∈ complexRules → Yields cs out →
      Yields (codes rule.1 ++ cs) (codes rule.2 ++ out)
  | end_ {rule : List Char × List Char} {cs : List ℕ} : rule ∈ complexRules → cs <+: codes rule.1 → cs ≠ [] →
      Yields cs (codes rule.2)

theorem Yields.simple : ∀ cs : List ℕ, Yields simpleRules complexRules cs (cs.flatMap (simpleForm simpleRules))
  | [] => .nil
  | c :: cs => .code c (Yields.simple cs)

theorem Yields.scalar {cs out : List ℕ} (h : Yields simpleRules complexRules cs out) (hcs : ∀ c ∈ cs, Scalar c) :
    ∀ c ∈ out, Scalar c := by
  induction h with
  | nil => exact hcs
  | code c _ ih =>
    obtain ⟨hc, hcs⟩ := List.forall_mem_cons.mp hcs
    exact List.forall_mem_append.mpr ⟨scalar_simpleForm hc, ih hcs⟩
  | rule _ _ ih => exact List.forall_mem_append.mpr ⟨scalar_codes _, ih (List.forall_mem_append.mp hcs).2⟩
  | end_ _ _ _ => exact scalar_codes _

/-- What `scanRules` adds and where it stops. -/
theorem scanRules_spec (allowPartial : Bool) (s suffix : Word) : ∀ rules : List (List Char × List Char),
    (∀ o ∈ (scanRules allowPartial s suffix rules).1, ∃ rule ∈ rules, suffix <+: text rule.1 ∧ o = s ++ text rule.2) ∧
      ∀ rule, (scanRules allowPartial s suffix rules).2 = some rule → rule ∈ rules ∧ text rule.1 <+: suffix
  | [] => ⟨fun _ ho => absurd ho List.not_mem_nil, fun _ hrule => nomatch hrule⟩
  | rule :: rules => by
    obtain ⟨hresult, hfound⟩ := scanRules_spec allowPartial s suffix rules
    rw [scanRules]
    split_ifs with hrule hpart
    · refine ⟨fun _ ho => absurd ho List.not_mem_nil, fun r hr => ?_⟩
      obtain rfl := Option.some.inj hr
      exact ⟨List.mem_cons_self, hrule⟩
    · refine ⟨fun o ho => ?_, fun r hr => ⟨List.mem_cons_of_mem _ (hfound r hr).1, (hfound r hr).2⟩⟩
      rcases List.mem_cons.mp ho with rfl | ho
      · exact ⟨rule, List.mem_cons_self, hpart.2, rfl⟩
      · obtain ⟨r, hr, h⟩ := hresult o ho
        exact ⟨r, List.mem_cons_of_mem _ hr, h⟩
    · refine ⟨fun o ho => ?_, fun r hr => ⟨List.mem_cons_of_mem _ (hfound r hr).1, (hfound r hr).2⟩⟩
      obtain ⟨r, hr, h⟩ := hresult o ho
      exact ⟨r, List.mem_cons_of_mem _ hr, h⟩

variable (simpleRules) in
/-- The second pass comes to the end, and all that it adds is yielded. -/
theorem complexLoop_spec (hrules : ∀ rule ∈ complexRules, rule.1 ≠ []) (allowPartial : Bool) :
    ∀ (fuel : ℕ) (cs : List ℕ) (s : Word), (∀ c ∈ cs, Scalar c) → (cs.flatMap utf8).length < fuel →
      ∃ results t, complexLoop simpleRules complexRules allowPartial fuel (cs.flatMap utf8) s = some (results, t) ∧
        ∀ o, o ∈ results ∨ o = t → ∃ out, o = s ++ out.flatMap utf8 ∧ Yields simpleRules complexRules cs out := by
  intro fuel
  induction fuel with
  | zero => exact fun _ _ _ hfuel => absurd hfuel (Nat.not_lt_zero _)
  | succ fuel ih =>
    intro cs s hcs hfuel
    rcases cs with - | ⟨c, cs⟩
    · refine ⟨[], s, if_pos rfl, fun o ho => ⟨[], ?_, .nil⟩⟩
      rw [List.flatMap_nil, List.append_nil]
      exact ho.resolve_left List.not_mem_nil
    have hne : (c :: cs).flatMap utf8 ≠ [] := by simp [utf8_ne_nil]
    obtain ⟨hresult, hfound⟩ := scanRules_spec allowPartial s ((c :: cs).flatMap utf8) complexRules
    -- what the rules add that the whole rest of the word begins
    have hend : ∀ o ∈ (scanRules allowPartial s ((c :: cs).flatMap utf8) complexRules).1,
        ∃ out, o = s ++ out.flatMap utf8 ∧ Yields simpleRules complexRules (c :: cs) out := by
      intro o ho
      obtain ⟨rule, hrule, hpart, rfl⟩ := hresult o ho
      rw [text_eq] at hpart
      rw [text_eq]
      exact ⟨_, rfl, .end_ hrule ((flatMap_utf8_prefix_iff hcs (scalar_codes _)).mp hpart) (List.cons_ne_nil _ _)⟩
    rw [complexLoop, if_neg hne]
    generalize scanRules allowPartial s ((c :: cs).flatMap utf8) complexRules = scan at hend hfound
    obtain ⟨result, - | rule⟩ := scan
    · obtain ⟨hc, hcs⟩ := List.forall_mem_cons.mp hcs
      have hlen := (length_utf8 c).1
      rw [List.flatMap_cons, List.length_append] at hfuel
      obtain ⟨results, t, hrun, hyields⟩ := ih cs (s ++ (simpleForm simpleRules c).flatMap utf8) hcs (by omega)
      refine ⟨result ++ results, t, ?_, fun o ho => ?_⟩
      · dsimp only
        rw [List.flatMap_cons, nextUtf8Unsafe_utf8 hc]
        change (complexLoop simpleRules complexRules allowPartial fuel (cs.flatMap utf8) (appendSimple simpleRules s c)).bind _ = _
        rw [appendSimple_eq hc, hrun]
        rfl
      · rw [List.mem_append, or_assoc] at ho
        rcases ho with ho | ho
        · exact hend o ho
        · obtain ⟨out, rfl, hout⟩ := hyields o ho
          refine ⟨_, ?_, .code c hout⟩
          rw [List.flatMap_append, List.append_assoc]
    · obtain ⟨hrule, hprefix⟩ := hfound rule rfl
      have hcodes := codes_ne_nil (hrules rule hrule)
      rw [text_eq, flatMap_utf8_prefix_iff (scalar_codes _) hcs] at hprefix
      obtain ⟨rest, hrest⟩ := hprefix
      have hlen : 0 < ((codes rule.1).flatMap utf8).length := by
        rw [List.length_pos_iff]
        obtain ⟨x, xs, hx⟩ := List.exists_cons_of_ne_nil hcodes
        simp [hx, utf8_ne_nil]
      rw [← hrest, List.flatMap_append, List.length_append] at hfuel
      obtain ⟨results, t, hrun, hyields⟩ := ih rest (s ++ (codes rule.2).flatMap utf8)
        (fun x hx => hcs x (hrest ▸ List.mem_append_right _ hx)) (by omega)
      refine ⟨result ++ results, t, ?_, fun o ho => ?_⟩
      · dsimp only
        rw [← hrest, List.flatMap_append, text_eq, text_eq, List.drop_left, hrun]
        rfl
      · rw [List.mem_append, or_assoc] at ho
        rcases ho with ho | ho
        · exact hend o ho
        · obtain ⟨out, rfl, hout⟩ := hyields o ho
          rw [← hrest]
          refine ⟨_, ?_, .rule hrule hout⟩
          rw [List.flatMap_append, List.append_assoc]

variable (simpleRules) in
/-- What `add_word_transliterations` adds: what the first pass makes of the word, unless it is empty, and nothing that is
not yielded. -/
theorem wordTransliterations_spec (hrules : ∀ rule ∈ complexRules, rule.1 ≠ []) {cs : List ℕ} (hcs : ∀ c ∈ cs, Scalar c)
    (allowPartial : Bool) :
    ∃ forms, wordTransliterations simpleRules complexRules (cs.flatMap utf8) allowPartial = some forms ∧
      (cs.flatMap (simpleForm simpleRules) ≠ [] → (cs.flatMap (simpleForm simpleRules)).flatMap utf8 ∈ forms) ∧
      ∀ form ∈ forms, ∃ out, form = out.flatMap utf8 ∧ Yields simpleRules complexRules cs out := by
  obtain ⟨results, t, hrun, hyields⟩ := complexLoop_spec simpleRules hrules allowPartial
    ((cs.flatMap utf8).length + 1) cs [] hcs (Nat.lt_succ_self _)
  unfold wordTransliterations
  rw [simpleLoop_eq _ cs [] hcs (Nat.lt_succ_self _), hrun]
  refine ⟨_, rfl, fun hne => ?_, fun form hform => ?_⟩
  · have hsimple : (cs.flatMap (simpleForm simpleRules)).flatMap utf8 ≠ [] := by
      obtain ⟨x, xs, hx⟩ := List.exists_cons_of_ne_nil hne
      simp [hx, utf8_ne_nil]
    rw [List.nil_append, if_neg hsimple]
    exact List.mem_append_left _ (List.mem_append_left _ (List.mem_singleton_self _))
  · rw [List.nil_append, List.mem_append, List.mem_append] at hform
    rcases hform with (hform | hform) | hform
    · split_ifs at hform
      · exact absurd hform List.not_mem_nil
      · exact ⟨_, List.mem_singleton.mp hform, Yields.simple cs⟩
    · exact hyields form (Or.inl hform)
    · split_ifs at hform
      · exact absurd hform List.not_mem_nil
      · exact hyields form (Or.inr (List.mem_singleton.mp hform))

end Passes

/-! ### Both directions -/

/-- A form of a word in the one or the other alphabet. -/
def Form (cs out : List ℕ) : Prop :=
  Yields enToRuSimpleRules enToRuComplexRules cs out ∨ Yields ruToEnSimpleRules ruToEnComplexRules cs out

/-- The transliterations of a word that is UTF-8. -/
theorem getWordTransliterations_spec {cs : List ℕ} (hcs : ∀ c ∈ cs, Scalar c) (allowPartial : Bool) :
    ∃ forms, getWordTransliterations (cs.flatMap utf8) allowPartial = some forms ∧
      (cs.flatMap (simpleForm enToRuSimpleRules) ≠ [] →
        (cs.flatMap (simpleForm enToRuSimpleRules)).flatMap utf8 ∈ forms) ∧
      (cs.flatMap (simpleForm ruToEnSimpleRules) ≠ [] →
        (cs.flatMap (simpleForm ruToEnSimpleRules)).flatMap utf8 ∈ forms) ∧
      ∀ form ∈ forms, ∃ out, form = out.flatMap utf8 ∧ Form cs out := by
  obtain ⟨en, hen, henSimple, henForms⟩ := wordTransliterations_spec enToRuSimpleRules
    (show ∀ rule ∈ enToRuComplexRules, rule.1 ≠ [] by decide) hcs allowPartial
  obtain ⟨ru, hru, hruSimple, hruForms⟩ := wordTransliterations_spec ruToEnSimpleRules
    (show ∀ rule ∈ ruToEnComplexRules, rule.1 ≠ [] by decide) hcs allowPartial
  refine ⟨sortUnique (en ++ ru), ?_, fun hne => ?_, fun hne => ?_, fun form hform => ?_⟩
  · rw [getWordTransliterations, hen, hru]
    rfl
  · exact mem_sortUnique.mpr (List.mem_append_left _ (henSimple hne))
  · exact mem_sortUnique.mpr (List.mem_append_right _ (hruSimple hne))
  · rcases List.mem_append.mp (mem_sortUnique.mp hform) with hform | hform
    · obtain ⟨out, rfl, hout⟩ := henForms form hform
      exact ⟨out, rfl, Or.inl hout⟩
    · obtain ⟨out, rfl, hout⟩ := hruForms form hform
      exact ⟨out, rfl, Or.inr hout⟩

/-! ### Letters that do not stay -/

theorem yields_cons_inv {simpleRules : List (Char × List Char)} {complexRules : List (List Char × List Char)} {x : ℕ}
    {cs out : List ℕ} (h : Yields simpleRules complexRules (x :: cs) out) (hrules : ∀ rule ∈ complexRules, rule.1 ≠ []) :
    (∃ out', out = simpleForm simpleRules x ++ out' ∧ Yields simpleRules complexRules cs out') ∨
      (∃ rule ∈ complexRules, ∃ left rest, codes rule.1 = x :: left ∧ cs = left ++ rest ∧ codes rule.2 <+: out) ∨
      ∃ rule ∈ complexRules, x :: cs <+: codes rule.1 ∧ out = codes rule.2 := by
  generalize heq : x :: cs = all at h
  cases h with
  | nil => exact absurd heq (List.cons_ne_nil x cs)
  | code c h =>
    obtain ⟨rfl, rfl⟩ := List.cons.inj heq
    exact Or.inl ⟨_, rfl, h⟩
  | @rule rule rest out hrule h =>
    obtain ⟨y, left, hleft⟩ := List.exists_cons_of_ne_nil (codes_ne_nil (hrules rule hrule))
    rw [hleft, List.cons_append] at heq
    obtain ⟨rfl, rfl⟩ := List.cons.inj heq
    exact Or.inr (Or.inl ⟨rule, hrule, left, rest, hleft, rfl, List.prefix_append _ _⟩)
  | end_ hrule hpart _ => exact Or.inr (Or.inr ⟨_, hrule, heq ▸ hpart, rfl⟩)

/-- Rules that leave no letter of an alphabet: those of the letters make something else of them, and a rule for other
characters changes the first one. -/
structure Replaces (Letter : ℕ → Prop) (simpleRules : List (Char × List Char))
    (complexRules : List (List Char × List Char)) : Prop where
  letter_iff : ∀ c, Letter c ↔ c ∈ simpleRules.map (·.1.toNat)
  simple_out : ∀ rule ∈ simpleRules, ∀ c ∈ codes rule.2, ¬ Letter c
  complex_out : ∀ rule ∈ complexRules, codes rule.2 ≠ [] ∧ ∀ c ∈ codes rule.2, ¬ Letter c
  complex_left : ∀ rule ∈ complexRules, rule.1 ≠ [] ∧ ((∀ c ∈ codes rule.1, Letter c) ∨
    (∀ c ∈ codes rule.1, ¬ Letter c) ∧ (codes rule.1).head? ≠ (codes rule.2).head?)

namespace Replaces

variable {Letter : ℕ → Prop} {simpleRules : List (Char × List Char)} {complexRules : List (List Char × List Char)}
  {cs out : List ℕ} {c : ℕ}

theorem simpleForm_other (h : Replaces Letter simpleRules complexRules) (hc : ¬ Letter c) :
    simpleForm simpleRules c = [c] := by
  have hnone : simpleRules.find? (·.1.toNat = c) = none := by
    refine List.find?_eq_none.mpr fun rule hrule hc' => hc ((h.letter_iff c).mpr ?_)
    exact List.mem_map.mpr ⟨rule, hrule, of_decide_eq_true hc'⟩
  unfold simpleForm
  rw [hnone]

theorem simpleForm_others (h : Replaces Letter simpleRules complexRules) : ∀ {cs : List ℕ}, (∀ c ∈ cs, ¬ Letter c) →
    cs.flatMap (simpleForm simpleRules) = cs
  | [], _ => rfl
  | c :: cs, hcs => by
    obtain ⟨hc, hcs⟩ := List.forall_mem_cons.mp hcs
    rw [List.flatMap_cons, h.simpleForm_other hc, h.simpleForm_others hcs, List.singleton_append]

theorem not_letter_simpleForm (h : Replaces Letter simpleRules complexRules) (c : ℕ) :
    ∀ d ∈ simpleForm simpleRules c, ¬ Letter d := by
  by_cases hc : Letter c
  · unfold simpleForm
    cases hfind : simpleRules.find? (·.1.toNat = c) with
    | some rule => exact h.simple_out rule (List.mem_of_find?_eq_some hfind)
    | none =>
      obtain ⟨rule, hrule, heq⟩ := List.mem_map.mp ((h.letter_iff c).mp hc)
      exact absurd (decide_eq_true heq) (List.find?_eq_none.mp hfind rule hrule)
  · rw [h.simpleForm_other hc]
    exact List.forall_mem_singleton.mpr hc

/-- No letter is left. -/
theorem not_letter_of_yields (h : Replaces Letter simpleRules complexRules)
    (hout : Yields simpleRules complexRules cs out) : ∀ d ∈ out, ¬ Letter d := by
  induction hout with
  | nil => exact fun _ hd => absurd hd List.not_mem_nil
  | code c _ ih => exact List.forall_mem_append.mpr ⟨h.not_letter_simpleForm c, ih⟩
  | rule hrule _ ih => exact List.forall_mem_append.mpr ⟨(h.complex_out _ hrule).2, ih⟩
  | end_ hrule _ _ => exact (h.complex_out _ hrule).2

theorem simpleForm_of_yields_nil (h : Replaces Letter simpleRules complexRules) :
    ∀ {cs : List ℕ}, Yields simpleRules complexRules cs [] → ∀ c ∈ cs, simpleForm simpleRules c = []
  | [], _ => fun _ hc => absurd hc List.not_mem_nil
  | c :: cs, hnil => by
    rcases yields_cons_inv hnil fun rule hrule => (h.complex_left rule hrule).1 with
      ⟨out, heq, hrest⟩ | ⟨rule, hrule, -, -, -, -, hprefix⟩ | ⟨rule, hrule, -, heq⟩
    · obtain ⟨hc, rfl⟩ := List.append_eq_nil_iff.mp heq.symm
      exact List.forall_mem_cons.mpr ⟨hc, h.simpleForm_of_yields_nil hrest⟩
    · exact absurd (List.prefix_nil.mp hprefix) (h.complex_out rule hrule).1
    · exact absurd heq.symm (h.complex_out rule hrule).1

/-- A form that the word begins with ends in front of the first letter, and the simple rules make nothing of what is
behind it. -/
theorem simpleForm_of_prefix (h : Replaces Letter simpleRules complexRules) (hc : Letter c) :
    ∀ {front rest out : List ℕ}, (∀ x ∈ front, ¬ Letter x) → Yields simpleRules complexRules (front ++ c :: rest) out →
      out <+: front ++ c :: rest → ∀ x ∈ c :: rest, simpleForm simpleRules x = []
  | [], rest, [], _, hyields, _ => h.simpleForm_of_yields_nil hyields
  | [], rest, d :: out, _, hyields, hprefix => by
    obtain ⟨rfl, -⟩ := List.cons_prefix_cons.mp hprefix
    exact absurd hc (h.not_letter_of_yields hyields d List.mem_cons_self)
  | x :: front, rest, out, hfront, hyields, hprefix => by
    obtain ⟨hx, hfront⟩ := List.forall_mem_cons.mp hfront
    rcases yields_cons_inv hyields fun rule hrule => (h.complex_left rule hrule).1 with
      ⟨out', rfl, hrest⟩ | ⟨rule, hrule, left, -, hleft, -, hright⟩ | ⟨rule, hrule, hpart, -⟩
    · rw [h.simpleForm_other hx, List.cons_append, List.nil_append] at hprefix
      exact h.simpleForm_of_prefix hc hfront hrest (List.cons_prefix_cons.mp hprefix).2
    · -- a rule for other characters makes something else of the first one
      obtain ⟨d, right, hd⟩ := List.exists_cons_of_ne_nil (h.complex_out rule hrule).1
      have hdx : d = x := by
        rw [hd] at hright
        exact (List.cons_prefix_cons.mp (hright.trans hprefix)).1
      rcases (h.complex_left rule hrule).2 with hletters | ⟨-, hhead⟩
      · exact absurd (hletters x (hleft ▸ List.mem_cons_self)) hx
      · rw [hleft, hd, hdx] at hhead
        exact absurd rfl hhead
    · rcases (h.complex_left rule hrule).2 with hletters | ⟨hothers, -⟩
      · exact absurd (hletters x (hpart.subset List.mem_cons_self)) hx
      · exact absurd hc (hothers c (hpart.subset (List.mem_cons_of_mem _ (List.mem_append_right _ List.mem_cons_self))))

end Replaces

/-! ### Latin and Russian letters -/

def Latin (c : ℕ) : Prop := 'a'.toNat ≤ c ∧ c ≤ 'z'.toNat

def Russian (c : ℕ) : Prop := 'а'.toNat ≤ c ∧ c ≤ 'я'.toNat ∨ c = 'ё'.toNat

/-- The letters without a sound of their own. -/
def Sign (c : ℕ) : Prop := c = 'ъ'.toNat ∨ c = 'ь'.toNat

instance (c : ℕ) : Decidable (Latin c) := inferInstanceAs (Decidable (_ ∧ _))

instance (c : ℕ) : Decidable (Russian c) := inferInstanceAs (Decidable (_ ∨ _))

instance (c : ℕ) : Decidable (Sign c) := inferInstanceAs (Decidable (_ ∨ _))

theorem replaces_latin : Replaces Latin enToRuSimpleRules enToRuComplexRules where
  letter_iff c := by
    rw [show enToRuSimpleRules.map (·.1.toNat) = List.range' 97 26 by decide, List.mem_range'_1]
    exact Iff.and Iff.rfl Nat.lt_succ_iff.symm
  simple_out := by decide
  complex_out := by decide
  complex_left := by decide

theorem replaces_russian : Replaces Russian ruToEnSimpleRules ruToEnComplexRules where
  letter_iff c := by
    rw [show ruToEnSimpleRules.map (·.1.toNat) = List.range' 0x430 6 ++ 0x451 :: List.range' 0x436 26 by decide,
      List.mem_append, List.mem_cons, List.mem_range'_1, List.mem_range'_1]
    unfold Russian
    have ha : 'а'.toNat = 0x430 := rfl
    have hya : 'я'.toNat = 0x44f := rfl
    have hyo : 'ё'.toNat = 0x451 := rfl
    omega
  simple_out := by decide
  complex_out := by decide
  complex_left := by decide

theorem simpleForm_ne_nil (c : ℕ) : simpleForm enToRuSimpleRules c ≠ [] := by
  unfold simpleForm
  cases hfind : enToRuSimpleRules.find? (·.1.toNat = c) with
  | some rule => exact (show ∀ rule ∈ enToRuSimpleRules, codes rule.2 ≠ [] by decide) rule (List.mem_of_find?_eq_some hfind)
  | none => exact List.cons_ne_nil _ _

theorem simpleForm_eq_nil_iff {c : ℕ} : simpleForm ruToEnSimpleRules c = [] ↔ Sign c := by
  unfold simpleForm
  cases hfind : ruToEnSimpleRules.find? (·.1.toNat = c) with
  | some rule =>
    have hc : rule.1.toNat = c := by simpa using List.find?_some hfind
    rw [← hc]
    exact (show ∀ rule ∈ ruToEnSimpleRules, codes rule.2 = [] ↔ Sign rule.1.toNat by decide) rule
      (List.mem_of_find?_eq_some hfind)
  | none =>
    refine ⟨fun hnil => absurd hnil (List.cons_ne_nil _ _), fun hsign => ?_⟩
    have hc : c ∈ ruToEnSimpleRules.map (·.1.toNat) := by
      rcases hsign with rfl | rfl <;> decide
    obtain ⟨rule, hrule, heq⟩ := List.mem_map.mp hc
    exact absurd (decide_eq_true heq) (List.find?_eq_none.mp hfind rule hrule)

end TdUtils.Text
