import Mathlib.Algebra.Group.Nat.Defs
import TdUtils.Container.ObjectPool

/-!
# Container.ObjectPoolOwners — what is assigned over is lost, and nothing else

Each storage is owned, free or lost, and each call moves one storage between the three.
-/

namespace TdUtils.ObjectPool

open Lib (hit hit_none hit_self hit_of_ne)

variable {s t : ObjectPool} {answers : List Answer} {lost : List ℕ} {owner : OwnerPtr} {h : ℕ}

/-! ### The invariant -/

/-- Whoever owns a storage knows the pool. -/
def ParentOk (owners : List (Option OwnerPtr)) : Prop :=
  ∀ (h : ℕ) (owner : OwnerPtr), owners[h]? = some (some owner) → owner.storage ≠ none → owner.parent = true

/-- `lost` are the storages that were assigned over. -/
structure Inv (s : ObjectPool) (answers : List Answer) (lost : List ℕ) : Prop where
  places : ∃ free, Lib.Links s.next s.head free ∧
    ∀ b, Lib.refs ownedBy s.owners b + free.count b + lost.count b = if b < s.allocated then 1 else 0
  parent : ParentOk s.owners
  generation : ∀ b, s.generation b = 1 + BitVec.ofNat 32 (answers.count (.released b))
  fresh : ∀ b, s.allocated ≤ b → answers.count (.released b) = 0
  count : s.storageCount = BitVec.ofNat 32 s.allocated

/-- What a weak pointer knows about its storage. -/
structure WeakInv (s : ObjectPool) (answers : List Answer) (lost : List ℕ) : Prop where
  generation : ∀ first ptr mid, answers = first ++ .weak ptr :: mid →
    ptr.generation = 1 + BitVec.ofNat 32 (first.count (.released ptr.storage))
  owned : ∀ first ptr mid, answers = first ++ .weak ptr :: mid → .released ptr.storage ∉ mid →
    0 < Lib.refs ownedBy s.owners ptr.storage + lost.count ptr.storage

theorem inv_start : Inv {} [] [] where
  places := ⟨[], rfl, fun b => (if_neg (Nat.not_lt_zero b)).symm⟩
  parent := fun _ _ hh => by cases hh
  generation := fun _ => rfl
  fresh := fun _ _ => rfl
  count := rfl

theorem weakInv_start : WeakInv {} [] [] where
  generation := fun first _ _ heq => by cases first <;> cases heq
  owned := fun first _ _ heq => by cases first <;> cases heq

/-- A call that releases nothing and moves no storage. -/
theorem Inv.arrange (hinv : Inv s answers lost) {owners : List (Option OwnerPtr)} {answer : Answer}
    (hrefs : ∀ b, Lib.refs ownedBy owners b = Lib.refs ownedBy s.owners b)
    (hparent : ParentOk owners) (hanswer : ∀ b, answer ≠ .released b) : Inv { s with owners := owners } (answers ++ [answer]) lost := by
  have hcount : ∀ b, (answers ++ [answer]).count (.released b) = answers.count (.released b) := by
    intro b
    rw [List.count_append, List.count_singleton, if_neg (by simpa using hanswer b), Nat.add_zero]
  obtain ⟨free, hlinks, hplaces⟩ := hinv.places
  refine ⟨⟨free, hlinks, fun b => ?_⟩, hparent, fun b => ?_, fun b hb => ?_, hinv.count⟩
  · rw [hrefs]
    exact hplaces b
  · rw [hcount]
    exact hinv.generation b
  · rw [hcount]
    exact hinv.fresh b hb

theorem Inv.same (hinv : Inv s answers lost) {answer : Answer} (hanswer : ∀ b, answer ≠ .released b) :
    Inv s (answers ++ [answer]) lost := hinv.arrange (fun _ => rfl) hinv.parent hanswer

/-! ### Each call -/

theorem ParentOk.append {owners : List (Option OwnerPtr)} (hparent : ParentOk owners)
    (howner : owner.storage ≠ none → owner.parent = true) : ParentOk (owners ++ [some owner]) := by
  intro h other hother
  rcases Lib.getElem?_append_inv hother with hother | ⟨-, heq⟩
  · exact hparent h other hother
  · rw [Option.some.inj heq]
    exact howner

theorem ParentOk.set {owners : List (Option OwnerPtr)} (hparent : ParentOk owners) {h : ℕ} {left : Option OwnerPtr}
    (hleft : ∀ owner, left = some owner → owner.storage ≠ none → owner.parent = true) :
    ParentOk (owners.set h left) := by
  intro k other hother
  rcases Lib.getElem?_set_inv hother with ⟨-, hother⟩ | ⟨-, heq⟩
  · exact hparent k other hother
  · exact hleft other heq.symm

/-- A storage that is owned is allocated, and neither free nor lost. -/
theorem Inv.owned (hinv : Inv s answers lost) {b : ℕ} (hpos : 0 < Lib.refs ownedBy s.owners b) :
    ∃ free, Lib.Links s.next s.head free ∧ b ∉ free ∧ b < s.allocated ∧ ∀ c,
      Lib.refs ownedBy s.owners c + free.count c + lost.count c = if c < s.allocated then 1 else 0 := by
  obtain ⟨free, hlinks, hplaces⟩ := hinv.places
  have hb := hplaces b
  by_cases hlt : b < s.allocated
  · rw [if_pos hlt] at hb
    exact ⟨free, hlinks, List.count_eq_zero.mp (by omega), hlt, hplaces⟩
  · rw [if_neg hlt] at hb
    omega

theorem Inv.create (hinv : Inv s answers lost) :
    Inv (s.getStorage.1.push ⟨some s.getStorage.2, true⟩) (answers ++ [Answer.nothing]) lost ∧
      s.getStorage.1.owners = s.owners := by
  have hcount : ∀ b, (answers ++ [Answer.nothing]).count (.released b) = answers.count (.released b) := by
    intro b
    rw [List.count_append]
    exact Nat.add_zero _
  obtain ⟨free, hlinks, hplaces⟩ := hinv.places
  unfold getStorage
  cases hhead : s.head with
  | none =>
    rw [hhead] at hlinks
    obtain rfl := hlinks.nil
    refine ⟨⟨⟨[], rfl, fun b => ?_⟩, hinv.parent.append fun _ => rfl, fun b => ?_, fun b hb => ?_, ?_⟩, rfl⟩
    · show Lib.refs ownedBy (s.owners ++ [some ⟨some s.allocated, true⟩]) b + _ + _ = if b < s.allocated + 1 then 1 else 0
      have hb := hplaces b
      rw [Lib.refs_append]
      by_cases heq : s.allocated = b
      · rw [← heq, if_neg (Nat.lt_irrefl _)] at hb
        rw [← heq, if_pos (Nat.lt_succ_self _)]
        show Lib.refs ownedBy s.owners s.allocated + hit (some s.allocated) s.allocated + _ + _ = 1
        rw [hit_self]
        omega
      · show Lib.refs ownedBy s.owners b + hit (some s.allocated) b + _ + _ = _
        rw [hit_of_ne heq, Nat.add_zero, hb]
        exact if_congr (by omega) rfl rfl
    · rw [hcount]
      show Function.update s.generation s.allocated 1 b = _
      by_cases heq : b = s.allocated
      · rw [heq, Function.update_self, hinv.fresh _ (Nat.le_refl _)]
        rfl
      · rw [Function.update_of_ne heq]
        exact hinv.generation b
    · rw [hcount]
      exact hinv.fresh b (Nat.le_of_succ_le hb)
    · show s.storageCount + 1 = BitVec.ofNat 32 (s.allocated + 1)
      rw [hinv.count, BitVec.ofNat_add]
      rfl
  | some res =>
    rw [hhead] at hlinks
    obtain ⟨rest, rfl, hrest⟩ := hlinks.cons_inv
    refine ⟨⟨⟨rest, hrest, fun b => ?_⟩, hinv.parent.append fun _ => rfl, fun b => ?_, fun b hb => ?_,
      hinv.count⟩, rfl⟩
    · show Lib.refs ownedBy (s.owners ++ [some ⟨some res, true⟩]) b + _ + _ = if b < s.allocated then 1 else 0
      rw [Lib.refs_append, ← hplaces b]
      show Lib.refs ownedBy s.owners b + hit (some res) b + _ + _ = _
      by_cases heq : res = b
      · rw [heq, hit_self, List.count_cons_self]
        omega
      · rw [hit_of_ne heq, List.count_cons_of_ne heq]
        omega
    · rw [hcount]
      exact hinv.generation b
    · rw [hcount]
      exact hinv.fresh b hb

/-- A storage that is released is the first of the free list. -/
theorem Inv.release (hinv : Inv s answers lost) {left : Option OwnerPtr} (hat : s.owners[h]? = some (some owner))
    (hleft : ∀ other, left = some other → other.storage = none) {b : ℕ} (howner : owner.storage = some b) :
    Inv (((s.put h left).destroyData b).releaseStorage b) (answers ++ [Answer.released b]) lost ∧
      ∀ c, Lib.refs ownedBy (s.owners.set h left) c + hit (some b) c = Lib.refs ownedBy s.owners c := by
  have hnull : ownedBy left = none := by
    cases left with
    | none => rfl
    | some other => exact hleft other rfl
  have hset : ∀ c, Lib.refs ownedBy (s.owners.set h left) c + hit (some b) c = Lib.refs ownedBy s.owners c := by
    intro c
    have hset := Lib.refs_set ownedBy hat left c
    rw [hnull, hit_none, Nat.add_zero] at hset
    rwa [show ownedBy (some owner) = some b from howner] at hset
  have hpos : 0 < Lib.refs ownedBy s.owners b := Lib.refs_pos hat howner
  obtain ⟨free, hlinks, hfree, hlt, hplaces⟩ := hinv.owned hpos
  have hcount : ∀ c, (answers ++ [Answer.released b]).count (.released c) =
      answers.count (.released c) + hit (some b) c := by
    intro c
    rw [List.count_append, List.count_singleton]
    unfold hit
    congr 1
    by_cases heq : b = c
    · rw [heq, if_pos rfl, if_pos (by simp)]
    · rw [if_neg (by simpa using heq), if_neg (by simpa using heq)]
  refine ⟨⟨⟨b :: free, hlinks.cons hfree, fun c => ?_⟩, hinv.parent.set fun other hother hne =>
    absurd (hleft other hother) hne, fun c => ?_, fun c hc => ?_, hinv.count⟩, hset⟩
  · show Lib.refs ownedBy (s.owners.set h left) c + _ + _ = if c < s.allocated then 1 else 0
    rw [← hplaces c, ← hset c]
    by_cases heq : b = c
    · rw [heq, hit_self, List.count_cons_self]
      omega
    · rw [hit_of_ne heq, List.count_cons_of_ne heq]
      omega
  · rw [hcount]
    show Function.update s.generation b (s.generation b + 1) c = _
    by_cases heq : c = b
    · rw [heq, Function.update_self, hinv.generation, hit_self, BitVec.ofNat_add, ← BitVec.add_assoc]
      rfl
    · rw [Function.update_of_ne heq, hit_of_ne (Ne.symm heq), Nat.add_zero]
      exact hinv.generation c
  · rw [hcount, hinv.fresh c hc, hit_of_ne (by rintro rfl; exact absurd hlt (Nat.not_lt.mpr hc))]

/-- What the storages are owned by after an assignment. -/
theorem refs_assign {owners : List (Option OwnerPtr)} {dest src : ℕ} (hne : dest ≠ src) {old other : OwnerPtr}
    (hdest : owners[dest]? = some (some old)) (hsrc : owners[src]? = some (some other)) (b : ℕ) :
    Lib.refs ownedBy ((owners.set dest (some other)).set src (some {})) b + hit old.storage b =
      Lib.refs ownedBy owners b := by
  have hput := Lib.refs_set ownedBy hdest (some other) b
  have hsrc : (owners.set dest (some other))[src]? = some (some other) := by
    rw [List.getElem?_set_ne hne]
    exact hsrc
  have hclear : _ + hit other.storage b = _ + 0 := Lib.refs_set ownedBy hsrc (some {}) b
  have hput : _ + hit old.storage b = _ + hit other.storage b := hput
  omega

theorem count_lost (storage : Option ℕ) (lost : List ℕ) (b : ℕ) :
    (storage.toList ++ lost).count b = hit storage b + lost.count b := by
  rw [List.count_append]
  congr 1
  cases storage with
  | none => rfl
  | some c =>
    by_cases heq : c = b
    · rw [heq, hit_self]
      exact List.count_singleton_self
    · rw [hit_of_ne heq]
      exact List.count_eq_zero.mpr fun hmem => heq (List.mem_singleton.mp hmem).symm

/-- The storage of an owner that is assigned to is lost. -/
theorem Inv.assign (hinv : Inv s answers lost) {dest src : ℕ} (hne : dest ≠ src) {old other : OwnerPtr}
    (hdest : s.owners[dest]? = some (some old)) (hsrc : s.owners[src]? = some (some other)) :
    Inv ((s.put dest (some other)).put src (some {})) (answers ++ [Answer.nothing]) (old.storage.toList ++ lost) := by
  have hrefs := refs_assign hne hdest hsrc
  have hcount : ∀ b, (answers ++ [Answer.nothing]).count (.released b) = answers.count (.released b) := by
    intro b
    rw [List.count_append]
    exact Nat.add_zero _
  obtain ⟨free, hlinks, hplaces⟩ := hinv.places
  refine ⟨⟨free, hlinks, fun b => ?_⟩, (hinv.parent.set ?_).set ?_, fun b => ?_, fun b hb => ?_, hinv.count⟩
  · show Lib.refs ownedBy ((s.owners.set dest (some other)).set src (some {})) b + _ + _ =
      if b < s.allocated then 1 else 0
    have hb := hrefs b
    rw [count_lost, ← hplaces b]
    omega
  · rintro _ ⟨⟩
    exact hinv.parent src other hsrc
  · rintro _ ⟨⟩ hnull
    exact absurd rfl hnull
  · rw [hcount]
    exact hinv.generation b
  · rw [hcount]
    exact hinv.fresh b hb

/-- What a call does to the storages and to what is known of them. -/
structure Advances (s : ObjectPool) (answers : List Answer) (lost : List ℕ) (op : Op) (t : ObjectPool)
    (answer : Answer) (lost' : List ℕ) : Prop where
  inv : Inv t (answers ++ [answer]) lost'
  owned : ∀ b, answer ≠ .released b →
    Lib.refs ownedBy s.owners b + lost.count b ≤ Lib.refs ownedBy t.owners b + lost'.count b
  weak : ∀ ptr, answer = .weak ptr →
    ptr.generation = s.generation ptr.storage ∧ 0 < Lib.refs ownedBy t.owners ptr.storage
  kept : (Keeps s op ∧ lost' = lost) ∨ (¬Keeps s op ∧ ∃ b, lost' = b :: lost)

theorem Inv.idle (hinv : Inv s answers lost) {op : Op} (hkeeps : Keeps s op) :
    ∃ t answer lost', some (s, Answer.nothing) = some (t, answer) ∧ Advances s answers lost op t answer lost' :=
  ⟨s, .nothing, lost, rfl, hinv.same (fun _ heq => by cases heq), fun _ _ => Nat.le_refl _,
    (fun _ heq => by cases heq), .inl ⟨hkeeps, rfl⟩⟩

/-- The owner lets go of its storage. -/
theorem Inv.reset (hinv : Inv s answers lost) (op : Op) (hkeeps : Keeps s op) {left : Option OwnerPtr}
    (hat : s.owners[h]? = some (some owner)) (hleft : ∀ other, left = some other → other.storage = none) :
    ∃ t answer lost', s.reset h owner left = some (t, answer) ∧ Advances s answers lost op t answer lost' := by
  have hnull : ownedBy left = none := by
    cases left with
    | none => rfl
    | some other => exact hleft other rfl
  unfold ObjectPool.reset
  cases howner : owner.storage with
  | none =>
    have hrefs : ∀ b, Lib.refs ownedBy (s.owners.set h left) b = Lib.refs ownedBy s.owners b := by
      intro b
      have hset := Lib.refs_set ownedBy hat left b
      rw [hnull, show ownedBy (some owner) = none from howner] at hset
      exact hset
    refine ⟨_, _, lost, rfl, hinv.arrange hrefs (hinv.parent.set fun other hother hne =>
      absurd (hleft other hother) hne) (fun _ heq => by cases heq), fun b _ => ?_, (fun _ heq => by cases heq),
      .inl ⟨hkeeps, rfl⟩⟩
    exact Nat.add_le_add_right (Nat.le_of_eq (hrefs b).symm) _
  | some b =>
    have hparent : owner.parent = true := hinv.parent h owner hat (by rw [howner]; exact Option.some_ne_none b)
    obtain ⟨hrelease, hrefs⟩ := hinv.release hat hleft howner
    refine ⟨((s.put h left).destroyData b).releaseStorage b, .released b, lost, ?_, hrelease, fun c hc => ?_,
      (fun _ heq => by cases heq), .inl ⟨hkeeps, rfl⟩⟩
    · dsimp only
      rw [if_pos hparent]
      rfl
    · have hne : b ≠ c := fun heq => hc (congrArg Answer.released heq)
      have hc := hrefs c
      rw [hit_of_ne hne, Nat.add_zero] at hc
      exact Nat.add_le_add_right (Nat.le_of_eq hc.symm) _

theorem Inv.step (hinv : Inv s answers lost) (op : Op) :
    ∃ t answer lost', s.step op = some (t, answer) ∧ Advances s answers lost op t answer lost' := by
  have hnew : ∀ (pool : ObjectPool) (owner : OwnerPtr) (op : Op), pool.owners = s.owners → Keeps s op →
      Inv (pool.push owner) (answers ++ [Answer.nothing]) lost →
      ∃ t answer lost', some (pool.push owner, Answer.nothing) = some (t, answer) ∧
        Advances s answers lost op t answer lost' := by
    intro pool owner op howners hkeeps hpush
    refine ⟨_, _, lost, rfl, hpush, fun b _ => ?_, (fun _ heq => by cases heq), .inl ⟨hkeeps, rfl⟩⟩
    show _ ≤ Lib.refs ownedBy (pool.owners ++ [some owner]) b + _
    rw [howners, Lib.refs_append]
    omega
  cases op with
  | null =>
    refine hnew s {} .null rfl trivial (hinv.arrange (fun b => ?_) (hinv.parent.append fun hne => absurd rfl hne)
      fun _ heq => by cases heq)
    rw [Lib.refs_append]
    exact Nat.add_zero _
  | create => exact hnew _ _ .create hinv.create.2 trivial hinv.create.1
  | createEmpty => exact hnew _ _ .createEmpty hinv.create.2 trivial hinv.create.1
  | move h =>
    dsimp only [ObjectPool.step]
    split
    · rename_i other hat
      have hrefs : ∀ b, Lib.refs ownedBy (s.owners.set h (some {}) ++ [some other]) b = Lib.refs ownedBy s.owners b := by
        intro b
        have hset : _ = _ + 0 := Lib.refs_set ownedBy hat (some {}) b
        rw [Lib.refs_append]
        exact hset
      refine ⟨_, _, lost, rfl, hinv.arrange hrefs ((hinv.parent.set ?_).append (hinv.parent h other hat))
        (fun _ heq => by cases heq), fun b _ => ?_, (fun _ heq => by cases heq), .inl ⟨trivial, rfl⟩⟩
      · rintro _ ⟨⟩ hnull
        exact absurd rfl hnull
      · exact Nat.add_le_add_right (Nat.le_of_eq (hrefs b).symm) _
    · exact hinv.idle trivial
  | assign dest src =>
    dsimp only [ObjectPool.step]
    split
    · rename_i old other hdest hsrc
      by_cases heq : dest = src
      · rw [if_pos heq]
        exact hinv.idle fun hne => absurd heq hne
      · rw [if_neg heq]
        have hrefs := refs_assign heq hdest hsrc
        refine ⟨_, _, old.storage.toList ++ lost, rfl, hinv.assign heq hdest hsrc, fun b _ => ?_,
          (fun _ heq => by cases heq), ?_⟩
        · show _ ≤ Lib.refs ownedBy ((s.owners.set dest (some other)).set src (some {})) b + _
          have hb := hrefs b
          rw [count_lost]
          omega
        · cases hold : old.storage with
          | none =>
            refine .inl ⟨fun _ _ owner howner => ?_, rfl⟩
            rw [hdest] at howner
            rw [← Option.some.inj howner]
            exact hold
          | some b =>
            refine .inr ⟨fun hkeeps => ?_, b, rfl⟩
            have hnone := hkeeps heq (by rw [hsrc]; exact Option.some_ne_none other) old (by rw [hdest]; rfl)
            rw [hold] at hnone
            cases hnone
    · rename_i hno
      refine hinv.idle fun _ hsrc owner howner => ?_
      cases hdest : s.owners[dest]? with
      | none =>
        rw [hdest] at howner
        cases howner
      | some target =>
        cases hother : s.owners[src]? with
        | none => exact absurd (by rw [hother]; rfl) hsrc
        | some source =>
          cases target with
          | none =>
            rw [hdest] at howner
            cases howner
          | some target =>
            cases source with
            | none => exact absurd (by rw [hother]; rfl) hsrc
            | some source => exact absurd hother (hno target source hdest)
  | reset h =>
    dsimp only [ObjectPool.step]
    split
    · rename_i owner hat
      refine hinv.reset (.reset h) trivial hat ?_
      rintro _ ⟨⟩
      rfl
    · exact hinv.idle trivial
  | destroy h =>
    dsimp only [ObjectPool.step]
    split
    · rename_i owner hat
      exact hinv.reset (.destroy h) trivial hat fun _ heq => by cases heq
    · exact hinv.idle trivial
  | getWeak h =>
    dsimp only [ObjectPool.step]
    split
    · rename_i storage parent hat
      refine ⟨_, _, lost, rfl, hinv.same (fun _ heq => by cases heq), fun _ _ => Nat.le_refl _, ?_,
        .inl ⟨trivial, rfl⟩⟩
      rintro _ ⟨⟩
      exact ⟨rfl, Lib.refs_pos hat rfl⟩
    · exact hinv.idle trivial

/-! ### Weak pointers -/

/-- Where a weak pointer was taken, when one more answer is known. -/
theorem weak_concat {answer : Answer} {first mid : List Answer} {ptr : WeakPtr}
    (heq : answers ++ [answer] = first ++ .weak ptr :: mid) :
    (answer = .weak ptr ∧ first = answers ∧ mid = []) ∨
      ∃ before, mid = before ++ [answer] ∧ answers = first ++ .weak ptr :: before := by
  rcases List.eq_nil_or_concat' mid with rfl | ⟨before, last, rfl⟩
  · obtain ⟨rfl, hlast⟩ := List.append_inj' heq rfl
    exact .inl ⟨(List.cons.inj hlast).1, rfl, rfl⟩
  · rw [← List.cons_append, ← List.append_assoc] at heq
    obtain ⟨rfl, hlast⟩ := List.append_inj' heq rfl
    rw [(List.cons.inj hlast).1]
    exact .inr ⟨before, rfl, rfl⟩

theorem WeakInv.step {op : Op} {answer : Answer} {lost' : List ℕ} (hweak : WeakInv s answers lost)
    (hinv : Inv s answers lost) (hadvances : Advances s answers lost op t answer lost') :
    WeakInv t (answers ++ [answer]) lost' := by
  refine ⟨fun first ptr mid heq => ?_, fun first ptr mid heq hmid => ?_⟩
  · rcases weak_concat heq with ⟨hanswer, rfl, -⟩ | ⟨before, -, hbefore⟩
    · rw [(hadvances.weak ptr hanswer).1]
      exact hinv.generation ptr.storage
    · exact hweak.generation first ptr before hbefore
  · rcases weak_concat heq with ⟨hanswer, -, -⟩ | ⟨before, rfl, hbefore⟩
    · exact Nat.add_pos_left (hadvances.weak ptr hanswer).2 _
    · have howned := hweak.owned first ptr before hbefore fun hmem => hmid (List.mem_append_left _ hmem)
      refine Nat.lt_of_lt_of_le howned (hadvances.owned ptr.storage ?_)
      rintro rfl
      exact hmid (List.mem_append_right _ (List.mem_singleton_self _))

/-- Two generations of a storage that was released less often than an `int32` can count are equal when they are the
same generation. -/
theorem generation_eq_iff {a b : ℕ} (hlt : a + b < 2 ^ 31) :
    1 + BitVec.ofNat 32 a = 1 + BitVec.ofNat 32 (a + b) ↔ b = 0 := by
  constructor
  · intro heq
    have hnat := congrArg BitVec.toNat heq
    simp only [BitVec.toNat_add, BitVec.toNat_ofNat] at hnat
    omega
  · rintro rfl
    rfl

theorem Inv.weakOk (hinv : Inv s answers []) (hweak : WeakInv s answers [])
    (hfew : ∀ b, answers.count (.released b) < 2 ^ 31) : WeakOk s answers := by
  intro first ptr mid heq
  have hcount : answers.count (.released ptr.storage) =
      first.count (.released ptr.storage) + mid.count (.released ptr.storage) := by
    rw [heq, List.count_append, List.count_cons_of_ne fun h => by cases h]
  have hsum := hfew ptr.storage
  rw [hcount] at hsum
  unfold isAlive
  rw [decide_eq_true_iff, hinv.generation, hweak.generation first ptr mid heq, hcount, generation_eq_iff hsum,
    List.count_eq_zero]
  refine ⟨fun hmid => ⟨?_, hmid⟩, fun h => h.2⟩
  exact hweak.owned first ptr mid heq hmid

/-! ### The destructor -/

theorem deleteAll_links {free : List ℕ} : ∀ {s : ObjectPool}, Lib.Links s.next s.head free →
    ∃ t, deleteAll (free.length + 1) s = some t ∧ t.storageCount = s.storageCount - BitVec.ofNat 32 free.length := by
  induction free with
  | nil =>
    intro s hlinks
    have hhead : s.head = none := hlinks
    refine ⟨s, ?_, (BitVec.sub_zero s.storageCount).symm⟩
    unfold deleteAll
    rw [hhead]
  | cons b free ih =>
    intro s hlinks
    obtain ⟨hhead, hrest⟩ := hlinks
    obtain ⟨t, hdelete, hcount⟩ := ih (s := { s with head := s.next b, storageCount := s.storageCount - 1 }) hrest
    refine ⟨t, ?_, ?_⟩
    · show deleteAll (free.length + 1 + 1) s = some t
      unfold deleteAll
      rw [hhead]
      exact hdelete
    · rw [hcount, List.length_cons, Nat.add_comm, BitVec.ofNat_add]
      show s.storageCount - 1 - _ = s.storageCount - (1 + _)
      bv_omega

/-- The free list has all storages when none is owned or lost. -/
theorem Inv.closes (hinv : Inv s answers []) : Closes s := by
  intro hnone
  obtain ⟨free, hlinks, hplaces⟩ := hinv.places
  obtain ⟨t, hdelete, hcount⟩ := deleteAll_links hlinks
  have hperm : free.Perm (List.range s.allocated) := by
    rw [List.perm_iff_count]
    intro b
    have hb := hplaces b
    rw [hnone b, List.count_nil, Nat.zero_add, Nat.add_zero] at hb
    rw [hb]
    split
    · rename_i hlt
      exact (List.count_eq_one_of_mem List.nodup_range (List.mem_range.mpr hlt)).symm
    · rename_i hlt
      exact (List.count_eq_zero.mpr fun hmem => hlt (List.mem_range.mp hmem)).symm
  refine ⟨_, t, hdelete, ?_⟩
  rw [hcount, hinv.count, hperm.length_eq, List.length_range, BitVec.sub_self]
  rfl

/-! ### Whole runs -/

theorem Inv.placed_iff (hinv : Inv s answers lost) : Placed s ↔ lost = [] := by
  obtain ⟨free, hlinks, hplaces⟩ := hinv.places
  constructor
  · rintro ⟨free', hlinks', hplaces'⟩
    obtain rfl := hlinks.unique hlinks'
    refine List.eq_nil_iff_forall_not_mem.mpr fun b hb => ?_
    have hpos := List.count_pos_iff.mpr hb
    have hplace := hplaces b
    have hplace' := hplaces' b
    omega
  · rintro rfl
    exact ⟨free, hlinks, hplaces⟩

theorem run_inv (ops : List Op) :
    ∃ s answers lost, machine.run {} ops = some (s, answers) ∧ Inv s answers lost ∧ WeakInv s answers lost ∧
      (machine.Along Keeps {} ops ↔ lost = []) := by
  induction ops using List.reverseRecOn with
  | nil => exact ⟨{}, [], [], rfl, inv_start, weakInv_start, fun _ => rfl, fun _ => trivial⟩
  | append_singleton ops op ih =>
    obtain ⟨s, answers, lost, hrun, hinv, hweak, hiff⟩ := ih
    obtain ⟨t, answer, lost', hstep, hadvances⟩ := hinv.step op
    refine ⟨t, answers ++ [answer], lost', Lib.Machine.run_concat_of hrun hstep, hadvances.inv,
      hweak.step hinv hadvances, ?_⟩
    rcases hadvances.kept with ⟨hkeeps, rfl⟩ | ⟨hkeeps, b, rfl⟩
    · rw [← hiff]
      exact ⟨Lib.Machine.along_dropLast, fun halong => Lib.Machine.along_concat_of halong hrun hkeeps⟩
    · exact ⟨fun halong => absurd (Lib.Machine.along_concat halong hrun) hkeeps, fun heq => by cases heq⟩

/-- When each storage is released less than 2^31 times, the storages are placed, the weak pointers know and the pool
closes after a run exactly when no owner of a storage was assigned to in it, except itself. -/
theorem placed_iff_keeps (ops : List Op)
    (hfew : ∀ s answers, machine.run {} ops = some (s, answers) → ∀ b, answers.count (.released b) < 2 ^ 31) :
    ∃ s answers, machine.run {} ops = some (s, answers) ∧
      (machine.Along Keeps {} ops ↔ Placed s ∧ WeakOk s answers ∧ Closes s) := by
  obtain ⟨s, answers, lost, hrun, hinv, hweak, hiff⟩ := run_inv ops
  refine ⟨s, answers, hrun, hiff.trans ⟨?_, fun h => hinv.placed_iff.mp h.1⟩⟩
  rintro rfl
  exact ⟨hinv.placed_iff.mpr rfl, hinv.weakOk hweak (hfew s answers hrun), hinv.closes⟩

theorem run_length {ops : List Op} : ∀ {s t : ObjectPool} {answers : List Answer},
    machine.run s ops = some (t, answers) → answers.length = ops.length := by
  induction ops with
  | nil =>
    intro s t answers h
    cases h
    rfl
  | cons op ops ih =>
    intro s t answers h
    obtain ⟨s', answer, rest, -, hrest, rfl⟩ := Lib.Machine.run_cons_inv h
    rw [List.length_cons, List.length_cons, ih hrest]

/-- A storage is released and used again, and another is assigned to an empty pointer. -/
theorem placed_iff_keeps_reuse : ∃ s answers,
    machine.run {} [.create, .getWeak 0, .reset 0, .create, .null, .assign 2 1, .destroy 2] = some (s, answers) ∧
      (machine.Along Keeps {} [.create, .getWeak 0, .reset 0, .create, .null, .assign 2 1, .destroy 2] ↔
        Placed s ∧ WeakOk s answers ∧ Closes s) :=
  placed_iff_keeps _ fun s answers hrun b => by
    have hlength : answers.length = 7 := run_length hrun
    have hcount : answers.count (.released b) ≤ answers.length := List.count_le_length
    omega

/-- A storage that is assigned over is neither owned nor free, and the check of the destructor fails. -/
theorem assign_over_loses : ∃ s answers, machine.run {} [.create, .create, .assign 0 1, .reset 0] = some (s, answers) ∧
    ¬Placed s ∧ ¬Closes s := by
  refine ⟨_, _, rfl, ?_, ?_⟩
  · rintro ⟨free, hlinks, hplaces⟩
    obtain ⟨rest, rfl, hrest⟩ := hlinks.cons_inv
    obtain rfl := Lib.Links.nil hrest
    exact absurd (hplaces 0) (by decide)
  · intro hcloses
    obtain ⟨rounds, t, hdelete, hcount⟩ := hcloses fun b => rfl
    match rounds with
    | 0 => cases hdelete
    | 1 => cases hdelete
    | rounds + 2 =>
      cases hdelete
      exact absurd hcount (by decide)

end TdUtils.ObjectPool
