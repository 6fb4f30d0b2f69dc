import Mathlib.Data.List.TakeWhile
import Mathlib.Data.List.Nodup
import Mathlib.Data.List.Range
import Mathlib.Data.UInt
import TdUtils.Lib.List
import TdUtils.Lib.Machine

/-!
# Flow.ChangesProcessor — changes are delivered in the order of addition once they are finished

`add` issues a token, `finish` marks the change of a token and calls `func` for the changes that
became deliverable, `clear` forgets everything.  A token is the distance of its slot from `offset`,
which moves when the delivered slots are erased and when all are.  `Ledger` says what the component
is for: it keeps every change since the last `clear` and knows nothing of slots.  `Holds` ties a
processor to it; `front` are the changes whose slots are erased.  Tokens repeat after `2 ^ 64` calls of
`add`, and up to there the calls of `func` are the ones of the ledger.
-/

namespace TdUtils.Flow

open Lib

universe u

/-- `offset_` is `size_t` and a token is `uint64`: both wrap around at `2 ^ 64`. -/
structure ChangesProcessor (α : Type u) where
  offset : UInt64 := 1
  readyI : ℕ := 0
  dataArray : List (α × Bool) := []

namespace ChangesProcessor

variable {α : Type u}

def clear (p : ChangesProcessor α) : ChangesProcessor α :=
  ⟨p.offset + UInt64.ofNat p.dataArray.length, 0, []⟩

def add (p : ChangesProcessor α) (data : α) : ChangesProcessor α × UInt64 :=
  ({ p with dataArray := p.dataArray ++ [(data, false)] }, p.offset + UInt64.ofNat p.dataArray.length)

/-- `try_compactify`. -/
def tryCompactify (p : ChangesProcessor α) : ChangesProcessor α :=
  if 5 < p.readyI ∧ p.dataArray.length < p.readyI * 2 % 2 ^ 64 then
    ⟨p.offset + UInt64.ofNat p.readyI, 0, p.dataArray.drop p.readyI⟩
  else p

/-- The `while` loop of `finish`: what it hands to `func`, and `ready_i_` behind it. -/
def deliver (p : ChangesProcessor α) : ChangesProcessor α × List α :=
  let ready := (p.dataArray.drop p.readyI).takeWhile Prod.snd
  ({ p with readyI := p.readyI + ready.length }, ready.map Prod.fst)

/-- `finish`: the new state and the calls of `func`, in order. -/
def finish (p : ChangesProcessor α) (token : UInt64) : ChangesProcessor α × List α :=
  let pos := (token - p.offset).toNat
  match p.dataArray[pos]? with
  | none => (p, [])
  | some (data, _) =>
    let (p, calls) := { p with dataArray := p.dataArray.set pos (data, true) }.deliver
    (p.tryCompactify, calls)

inductive Op (α : Type u)
  | add (data : α)
  | finish (token : UInt64)
  | clear

/-- The answer to an operation is the token it issues, if any, and the calls of `func` it makes. -/
def machine (α : Type u) : Machine (ChangesProcessor α) (Op α) (Option UInt64 × List α) :=
  ⟨fun p op => match op with
    | .add data => some ((p.add data).1, (some (p.add data).2, []))
    | .finish token => some ((p.finish token).1, (none, (p.finish token).2))
    | .clear => some (p.clear, (none, []))⟩

def issued (answers : List (Option UInt64 × List α)) : List UInt64 := answers.filterMap Prod.fst

def delivered (answers : List (Option UInt64 × List α)) : List α := answers.flatMap Prod.snd

def Op.added : Op α → Option α
  | .add data => some data
  | _ => none

/-- The data of the changes that are added, in order. -/
def added (ops : List (Op α)) : List α := ops.filterMap Op.added

/-! ### What the component is for -/

structure Change (α : Type u) where
  token : UInt64
  data : α
  finished : Bool

def Change.finish (token : UInt64) (c : Change α) : Change α :=
  if c.token = token then { c with finished := true } else c

theorem takeWhile_concat_unfinished (cs : List (Change α)) {c : Change α} (h : c.finished = false) :
    (cs ++ [c]).takeWhile Change.finished = cs.takeWhile Change.finished := by
  rw [List.takeWhile_append]
  split_ifs with hall
  · rw [List.takeWhile_cons_of_neg (by simp [h]), List.append_nil,
      (List.takeWhile_prefix _).eq_of_length hall]
  · rfl

/-- The changes added since the last `clear`, and the data delivered before it. -/
structure Ledger (α : Type u) where
  past : List α := []
  changes : List (Change α) := []

namespace Ledger

/-- The data of the changes that are finished, as all changes before them are. -/
def completed (changes : List (Change α)) : List α :=
  (changes.takeWhile Change.finished).map Change.data

def delivered (l : Ledger α) : List α := l.past ++ completed l.changes

/-- An operation and its answer are entered into the ledger. -/
def record (l : Ledger α) : Op α × (Option UInt64 × List α) → Ledger α
  | (.add data, (some token, _)) => { l with changes := l.changes ++ [⟨token, data, false⟩] }
  | (.add _, (none, _)) => l
  | (.finish token, _) => { l with changes := l.changes.map (Change.finish token) }
  | (.clear, _) => ⟨l.delivered, []⟩

def ofHistory (history : List (Op α × (Option UInt64 × List α))) : Ledger α :=
  history.foldl record {}

theorem ofHistory_concat (history : List (Op α × (Option UInt64 × List α)))
    (e : Op α × (Option UInt64 × List α)) :
    ofHistory (history ++ [e]) = (ofHistory history).record e := by
  unfold ofHistory
  rw [List.foldl_append]
  rfl

theorem completed_append {front back : List (Change α)} (h : ∀ c ∈ front, c.finished = true) :
    completed (front ++ back) = front.map Change.data ++ completed back := by
  unfold completed
  rw [List.takeWhile_append_of_pos h, List.map_append]

theorem completed_concat (changes : List (Change α)) {c : Change α} (h : c.finished = false) :
    completed (changes ++ [c]) = completed changes := by
  unfold completed
  rw [takeWhile_concat_unfinished changes h]

end Ledger

/-! ### The changes of a token -/

@[simp] theorem Change.finish_token (token : UInt64) (c : Change α) : (c.finish token).token = c.token := by
  unfold finish
  split_ifs <;> rfl

@[simp] theorem Change.finish_data (token : UInt64) (c : Change α) : (c.finish token).data = c.data := by
  unfold finish
  split_ifs <;> rfl

theorem Change.finish_finished {token : UInt64} {c : Change α} (h : c.finished = true) :
    (c.finish token).finished = true := by
  unfold finish
  split_ifs
  · rfl
  · exact h

theorem Change.finish_eq_self {token : UInt64} {c : Change α} (h : c.token = token → c.finished = true) :
    c.finish token = c := by
  unfold finish
  split_ifs with ht
  · rw [← h ht]
  · rfl

theorem map_finish_eq_self {token : UInt64} {changes : List (Change α)}
    (h : ∀ c ∈ changes, c.token = token → c.finished = true) :
    changes.map (Change.finish token) = changes := by
  conv_rhs => rw [← List.map_id changes]
  exact List.map_congr_left fun c hc => Change.finish_eq_self (h c hc)

/-- The slot of a change. -/
def slot (c : Change α) : α × Bool := (c.data, c.finished)

/-- The changes have the tokens from `k` on. -/
def Numbered (k : ℕ) (changes : List (Change α)) : Prop :=
  changes.map Change.token = (List.range' k changes.length).map UInt64.ofNat

theorem numbered_append {k : ℕ} {front back : List (Change α)} :
    Numbered k (front ++ back) ↔ Numbered k front ∧ Numbered (k + front.length) back := by
  unfold Numbered
  rw [List.map_append, List.length_append, ← List.range'_append_1, List.map_append]
  constructor
  · intro h
    exact List.append_inj h (by simp)
  · rintro ⟨hfront, hback⟩
    rw [hfront, hback]

theorem Numbered.token_eq {k i : ℕ} {changes : List (Change α)} {c : Change α}
    (h : Numbered k changes) (hc : changes[i]? = some c) : c.token = UInt64.ofNat (k + i) := by
  obtain ⟨hi, -⟩ := List.getElem?_eq_some_iff.mp hc
  have hmap := congrArg (fun tokens : List UInt64 => tokens[i]?) h
  rw [List.getElem?_map, List.getElem?_map, hc, List.getElem?_range' hi, one_mul] at hmap
  exact Option.some.inj hmap

theorem Numbered.finish {k : ℕ} {changes : List (Change α)} (h : Numbered k changes) (token : UInt64) :
    Numbered k (changes.map (Change.finish token)) := by
  unfold Numbered at *
  rw [List.length_map, ← h, List.map_map]
  exact List.map_congr_left fun c _ => Change.finish_token token c

theorem ofNat_inj {a b : ℕ} (ha : 1 ≤ a) (hb : 1 ≤ b) (ha' : a ≤ 2 ^ 64) (hb' : b ≤ 2 ^ 64)
    (h : UInt64.ofNat a = UInt64.ofNat b) : a = b := by
  have hmod := congrArg UInt64.toNat h
  rw [UInt64.toNat_ofNat', UInt64.toNat_ofNat'] at hmod
  omega

/-- The slot a token addresses, if the slots have the tokens from `k` on. -/
theorem toNat_sub_ofNat {k i : ℕ} {token : UInt64} (h : (token - UInt64.ofNat k).toNat = i) :
    token = UInt64.ofNat (k + i) := by
  subst h
  rw [UInt64.ofNat_add, UInt64.ofNat_toNat, add_comm, sub_add_cancel]

/-- Marking the change of a token is setting the flag of its slot. -/
theorem Numbered.map_slot {k i : ℕ} {changes : List (Change α)} {c : Change α}
    (h : Numbered k changes) (hk : 1 ≤ k) (hlen : k + changes.length ≤ 2 ^ 64 + 1)
    (hc : changes[i]? = some c) :
    (changes.map (Change.finish (UInt64.ofNat (k + i)))).map slot =
      (changes.map slot).set i (c.data, true) := by
  apply List.ext_getElem?
  intro j
  rw [List.getElem?_set, List.getElem?_map, List.getElem?_map, List.getElem?_map, List.length_map]
  obtain ⟨hi, -⟩ := List.getElem?_eq_some_iff.mp hc
  by_cases hij : i = j
  · subst hij
    rw [hc, if_pos rfl, if_pos hi]
    unfold slot Change.finish
    rw [Option.map_some, Option.map_some, if_pos (h.token_eq hc)]
  · rw [if_neg hij]
    cases hcj : changes[j]? with
    | none => rfl
    | some c' =>
      obtain ⟨hj, -⟩ := List.getElem?_eq_some_iff.mp hcj
      have hne : c'.token ≠ UInt64.ofNat (k + i) := fun heq => by
        have hkj := ofNat_inj (by omega) (by omega) (by omega) (by omega) ((h.token_eq hcj).symm.trans heq)
        omega
      have hsame : c'.finish (UInt64.ofNat (k + i)) = c' :=
        Change.finish_eq_self fun heq => absurd heq hne
      rw [Option.map_some, hsame]

/-! ### The invariant -/

/-- After `n` calls of `add` the slots are those of `back`, the last changes of the ledger; the
changes `front` before them are all delivered. -/
structure Holds (n : ℕ) (changes : List (Change α)) (p : ChangesProcessor α)
    (front back : List (Change α)) : Prop where
  split : changes = front ++ back
  delivered : ∀ c ∈ front, c.finished = true
  array : p.dataArray = back.map slot
  le : changes.length ≤ n
  numbered : Numbered (n - changes.length + 1) changes
  offset : p.offset = UInt64.ofNat (n - back.length + 1)
  ready : p.readyI = (back.takeWhile Change.finished).length
  small : ¬ (5 < p.readyI ∧ p.dataArray.length < p.readyI * 2 % 2 ^ 64)

variable {n : ℕ} {changes front back : List (Change α)} {p : ChangesProcessor α}

theorem Holds.length (h : Holds n changes p front back) :
    front.length + back.length = changes.length := by
  rw [h.split, List.length_append]

theorem Holds.back_numbered (h : Holds n changes p front back) :
    Numbered (n - back.length + 1) back := by
  have hnumbered := h.numbered
  rw [h.split] at hnumbered
  have hback := (numbered_append.mp hnumbered).2
  have hlen := h.length
  have hle := h.le
  rw [List.length_append] at hback
  rwa [show n - (front.length + back.length) + 1 + front.length = n - back.length + 1 by omega] at hback

theorem holds_start : Holds 0 [] ({} : ChangesProcessor α) [] [] where
  split := rfl
  delivered := fun _ hc => absurd hc List.not_mem_nil
  array := rfl
  le := le_rfl
  numbered := rfl
  offset := rfl
  ready := rfl
  small := fun hsmall => absurd hsmall.1 (Nat.not_lt_zero 5)

theorem Holds.add_token (h : Holds n changes p front back) (data : α) :
    (p.add data).2 = UInt64.ofNat (n + 1) := by
  have hlen := h.length
  have hle := h.le
  unfold add
  rw [h.offset, h.array, List.length_map, ← UInt64.ofNat_add]
  apply congrArg UInt64.ofNat
  omega

theorem Holds.add (h : Holds n changes p front back) (data : α) :
    Holds (n + 1) (changes ++ [⟨UInt64.ofNat (n + 1), data, false⟩]) (p.add data).1 front
      (back ++ [⟨UInt64.ofNat (n + 1), data, false⟩]) := by
  have hlen := h.length
  have hle := h.le
  have hsmall := h.small
  refine ⟨?_, h.delivered, ?_, ?_, ?_, ?_, ?_, ?_⟩
  · rw [h.split, List.append_assoc]
  · unfold ChangesProcessor.add
    rw [List.map_append, ← h.array]
    rfl
  · rw [List.length_append]
    exact Nat.succ_le_succ hle
  · rw [List.length_append, List.length_singleton, Nat.add_sub_add_right, numbered_append]
    refine ⟨h.numbered, ?_⟩
    unfold Numbered
    rw [show n - changes.length + 1 + changes.length = n + 1 by omega]
    rfl
  · rw [List.length_append, List.length_singleton, Nat.add_sub_add_right]
    exact h.offset
  · rw [takeWhile_concat_unfinished _ rfl]
    exact h.ready
  · unfold ChangesProcessor.add
    rw [List.length_append, List.length_singleton]
    exact fun hlt => hsmall ⟨hlt.1, Nat.lt_of_succ_lt hlt.2⟩

theorem Holds.clear (h : Holds n changes p front back) : Holds n [] p.clear [] [] := by
  have hlen := h.length
  have hle := h.le
  refine ⟨rfl, fun _ hc => absurd hc List.not_mem_nil, rfl, Nat.zero_le _, rfl, ?_, rfl, ?_⟩
  · unfold ChangesProcessor.clear
    rw [h.offset, h.array, List.length_map, ← UInt64.ofNat_add, List.length_nil]
    apply congrArg UInt64.ofNat
    omega
  · exact fun hsmall => absurd hsmall.1 (Nat.not_lt_zero 5)

/-! ### One call of `finish` -/

theorem drop_takeWhile_length (cs : List (Change α)) :
    cs.drop (cs.takeWhile Change.finished).length = cs.dropWhile Change.finished := by
  have hsplit := List.takeWhile_append_dropWhile (p := Change.finished) (l := cs)
  calc cs.drop (cs.takeWhile Change.finished).length
      = (cs.takeWhile Change.finished ++ cs.dropWhile Change.finished).drop
          (cs.takeWhile Change.finished).length := by rw [hsplit]
    _ = cs.dropWhile Change.finished := List.drop_left

theorem takeWhile_dropWhile : ∀ cs : List (Change α),
    (cs.dropWhile Change.finished).takeWhile Change.finished = []
  | [] => rfl
  | c :: cs => by
    by_cases h : c.finished = true
    · rw [List.dropWhile_cons_of_pos h]
      exact takeWhile_dropWhile cs
    · rw [List.dropWhile_cons_of_neg h, List.takeWhile_cons_of_neg h]

/-- The flags that were set before stay set, so the finished changes at the front are those from before
and the ones that come right behind them. -/
theorem takeWhile_map_finish (token : UInt64) (cs : List (Change α)) :
    (cs.map (Change.finish token)).takeWhile Change.finished =
      (cs.takeWhile Change.finished).map (Change.finish token) ++
        ((cs.map (Change.finish token)).drop (cs.takeWhile Change.finished).length).takeWhile
          Change.finished := by
  rw [← List.map_drop, drop_takeWhile_length]
  conv_lhs => rw [← List.takeWhile_append_dropWhile (p := Change.finished) (l := cs)]
  rw [List.map_append, List.takeWhile_append_of_pos]
  intro c hc
  obtain ⟨c', hc', rfl⟩ := List.mem_map.mp hc
  exact Change.finish_finished (List.mem_takeWhile_imp hc')

/-- What is the case after the loop of `finish`, before the array is compactified. -/
theorem Holds.tryCompactify (split : changes = front ++ back)
    (delivered : ∀ c ∈ front, c.finished = true) (array : p.dataArray = back.map slot)
    (le : changes.length ≤ n) (numbered : Numbered (n - changes.length + 1) changes)
    (offset : p.offset = UInt64.ofNat (n - back.length + 1))
    (ready : p.readyI = (back.takeWhile Change.finished).length) :
    ∃ front back, Holds n changes p.tryCompactify front back := by
  unfold ChangesProcessor.tryCompactify
  split_ifs with hcompact
  · have hready : p.readyI ≤ back.length := by
      rw [ready]
      exact (List.takeWhile_prefix _).length_le
    have hlen : front.length + back.length = changes.length := by
      rw [split, List.length_append]
    refine ⟨front ++ back.takeWhile Change.finished, back.dropWhile Change.finished, ?_, ?_, ?_, le,
      numbered, ?_, ?_, fun hsmall => absurd hsmall.1 (Nat.not_lt_zero 5)⟩
    · rw [List.append_assoc, List.takeWhile_append_dropWhile, split]
    · intro c hc
      rcases List.mem_append.mp hc with hc | hc
      · exact delivered c hc
      · exact List.mem_takeWhile_imp hc
    · rw [array, ← List.map_drop, ready, drop_takeWhile_length]
    · rw [← drop_takeWhile_length, ← ready, List.length_drop, offset, ← UInt64.ofNat_add]
      apply congrArg UInt64.ofNat
      omega
    · rw [takeWhile_dropWhile]
      rfl
  · exact ⟨front, back, split, delivered, array, le, numbered, offset, ready, hcompact⟩

/-- A token whose change is not there, or is finished, has no effect. -/
theorem Holds.finish_stale (h : Holds n changes p front back) {token : UInt64}
    (hstale : ∀ c ∈ changes, c.token = token → c.finished = true) : p.finish token = (p, []) := by
  unfold ChangesProcessor.finish
  dsimp only
  cases hslot : p.dataArray[(token - p.offset).toNat]? with
  | none => rfl
  | some e =>
    rw [h.array, List.getElem?_map, Option.map_eq_some_iff] at hslot
    obtain ⟨c, hc, rfl⟩ := hslot
    have htoken : c.token = token := by
      rw [h.back_numbered.token_eq hc, h.offset]
      exact (toNat_sub_ofNat rfl).symm
    have hmem : c ∈ changes := h.split ▸ List.mem_append_right front (List.mem_of_getElem? hc)
    have hset : p.dataArray.set (token - p.offset).toNat (c.data, true) = p.dataArray := by
      apply List.ext_getElem?
      intro j
      rw [List.getElem?_set]
      split_ifs with hj hlt
      · subst hj
        rw [h.array, List.getElem?_map, hc, Option.map_some, slot, hstale c hmem htoken]
      · subst hj
        rw [List.getElem?_eq_none (Nat.not_lt.mp hlt)]
      · rfl
    have hnone : (p.dataArray.drop p.readyI).takeWhile Prod.snd = [] := by
      rw [h.array, h.ready, ← List.map_drop, drop_takeWhile_length, List.takeWhile_map]
      exact congrArg (List.map slot) (takeWhile_dropWhile back)
    unfold deliver ChangesProcessor.tryCompactify
    dsimp only
    rw [slot, hset, hnone]
    exact Prod.ext (if_neg h.small) rfl

/-- `finish` marks the change of the token, and delivers what that completes. -/
theorem Holds.finish (h : Holds n changes p front back) (hn : n ≤ 2 ^ 64) (token : UInt64) :
    (∃ front back, Holds n (changes.map (Change.finish token)) (p.finish token).1 front back) ∧
      Ledger.completed (changes.map (Change.finish token)) =
        Ledger.completed changes ++ (p.finish token).2 := by
  have hlen := h.length
  have hle := h.le
  by_cases hstale : ∀ c ∈ changes, c.token = token → c.finished = true
  · rw [map_finish_eq_self hstale, h.finish_stale hstale, List.append_nil]
    exact ⟨⟨front, back, h⟩, rfl⟩
  · push Not at hstale
    obtain ⟨c, hc, htoken, hunfinished⟩ := hstale
    have hback : c ∈ back := by
      rw [h.split] at hc
      rcases List.mem_append.mp hc with hc | hc
      · exact absurd (h.delivered c hc) hunfinished
      · exact hc
    obtain ⟨i, hi⟩ := List.mem_iff_getElem?.mp hback
    obtain ⟨hlt, -⟩ := List.getElem?_eq_some_iff.mp hi
    have hnumbered := h.back_numbered
    have hat : token = UInt64.ofNat (n - back.length + 1 + i) := htoken.symm.trans (hnumbered.token_eq hi)
    have hpos : (token - p.offset).toNat = i := by
      rw [h.offset, hat, UInt64.ofNat_add, add_sub_cancel_left, UInt64.toNat_ofNat']
      exact Nat.mod_eq_of_lt (by omega)
    have hslot : p.dataArray[i]? = some (slot c) := by
      rw [h.array, List.getElem?_map, hi]
      rfl
    have hmarked : (back.map (Change.finish token)).map slot = p.dataArray.set i (c.data, true) := by
      rw [h.array, hat]
      exact hnumbered.map_slot (Nat.le_add_left _ _) (by omega) hi
    have hfront : front.map (Change.finish token) = front :=
      map_finish_eq_self fun c hc _ => h.delivered c hc
    set back' := back.map (Change.finish token) with hback'
    have hready : (back'.map slot).drop p.readyI =
        (back'.drop (back.takeWhile Change.finished).length).map slot := by
      rw [h.ready, List.map_drop]
    have hcompleted := takeWhile_map_finish token back
    rw [← hback'] at hcompleted
    unfold ChangesProcessor.finish deliver
    dsimp only
    rw [hpos, hslot]
    dsimp only [slot]
    rw [← hmarked, hready, List.takeWhile_map]
    constructor
    · refine Holds.tryCompactify ?_ h.delivered rfl ?_ ?_ ?_ ?_
      · rw [h.split, List.map_append, hfront]
      · rw [List.length_map]
        exact hle
      · rw [List.length_map]
        exact h.numbered.finish token
      · show p.offset = UInt64.ofNat (n - back'.length + 1)
        rw [hback', List.length_map]
        exact h.offset
      · rw [hcompleted, List.length_append, List.length_map, List.length_map, h.ready]
        rfl
    · rw [h.split, List.map_append, hfront, Ledger.completed_append h.delivered,
        Ledger.completed_append h.delivered, List.append_assoc]
      apply congrArg
      unfold Ledger.completed
      rw [hcompleted, List.map_append, List.map_map, List.map_map]
      refine congrArg₂ (· ++ ·) ?_ rfl
      exact List.map_congr_left fun c _ => Change.finish_data token c

/-! ### Runs -/

/-- What holds after the operations `ops` got the answers `answers`. -/
structure Recorded (ops : List (Op α)) (answers : List (Option UInt64 × List α))
    (p : ChangesProcessor α) : Prop where
  length : ops.length = answers.length
  holds : ∃ front back, Holds (added ops).length (Ledger.ofHistory (ops.zip answers)).changes p front back
  issued : issued answers = (List.range' 1 (added ops).length).map UInt64.ofNat
  delivered : delivered answers = (Ledger.ofHistory (ops.zip answers)).delivered
  order : ((Ledger.ofHistory (ops.zip answers)).past ++
    (Ledger.ofHistory (ops.zip answers)).changes.map Change.data).Sublist (added ops)

variable {ops : List (Op α)} {answers : List (Option UInt64 × List α)}

theorem recorded_start : Recorded [] [] ({} : ChangesProcessor α) :=
  ⟨rfl, ⟨[], [], holds_start⟩, rfl, rfl, List.Sublist.refl _⟩

theorem completed_sublist (changes : List (Change α)) :
    (Ledger.completed changes).Sublist (changes.map Change.data) :=
  (List.takeWhile_sublist _).map _

theorem zip_concat (h : ops.length = answers.length) (op : Op α) (answer : Option UInt64 × List α) :
    (ops ++ [op]).zip (answers ++ [answer]) = ops.zip answers ++ [(op, answer)] :=
  List.zip_append h

theorem added_concat (ops : List (Op α)) (op : Op α) :
    added (ops ++ [op]) = added ops ++ op.added.toList := by
  unfold added
  rw [List.filterMap_append]
  cases op <;> rfl

theorem issued_concat (answers : List (Option UInt64 × List α)) (answer : Option UInt64 × List α) :
    issued (answers ++ [answer]) = issued answers ++ answer.1.toList := by
  unfold issued
  rw [List.filterMap_append]
  obtain ⟨token, calls⟩ := answer
  cases token <;> rfl

theorem delivered_concat (answers : List (Option UInt64 × List α)) (answer : Option UInt64 × List α) :
    delivered (answers ++ [answer]) = delivered answers ++ answer.2 := by
  unfold delivered
  rw [List.flatMap_append, List.flatMap_singleton]

theorem Recorded.add (h : Recorded ops answers p) (data : α) :
    Recorded (ops ++ [Op.add data]) (answers ++ [(some (p.add data).2, [])]) (p.add data).1 := by
  obtain ⟨front, back, hholds⟩ := h.holds
  have htoken := hholds.add_token data
  have hadded : added (ops ++ [Op.add data]) = added ops ++ [data] := added_concat ops _
  refine ⟨?_, ?_, ?_, ?_, ?_⟩
  · rw [List.length_append, List.length_append, h.length]
    rfl
  · rw [zip_concat h.length, Ledger.ofHistory_concat, hadded, List.length_append, htoken]
    exact ⟨front, _, hholds.add data⟩
  · rw [issued_concat, hadded, List.length_append, List.length_singleton, List.range'_1_concat,
      List.map_append, h.issued, htoken, Nat.add_comm]
    rfl
  · rw [delivered_concat, zip_concat h.length, Ledger.ofHistory_concat, h.delivered]
    unfold Ledger.delivered Ledger.record
    rw [Ledger.completed_concat _ rfl, List.append_nil]
  · rw [zip_concat h.length, Ledger.ofHistory_concat, hadded]
    unfold Ledger.record
    rw [List.map_append, ← List.append_assoc]
    exact h.order.append_right [data]

theorem Recorded.finish (h : Recorded ops answers p) (hn : (added ops).length ≤ 2 ^ 64)
    (token : UInt64) :
    Recorded (ops ++ [Op.finish token]) (answers ++ [(none, (p.finish token).2)])
      (p.finish token).1 := by
  obtain ⟨front, back, hholds⟩ := h.holds
  obtain ⟨hfinish, hcompleted⟩ := hholds.finish hn token
  have hadded : added (ops ++ [Op.finish token]) = added ops := by
    rw [added_concat]
    exact List.append_nil _
  refine ⟨?_, ?_, ?_, ?_, ?_⟩
  · rw [List.length_append, List.length_append, h.length]
    rfl
  · rw [zip_concat h.length, Ledger.ofHistory_concat, hadded]
    exact hfinish
  · rw [issued_concat, hadded, h.issued]
    exact List.append_nil _
  · rw [delivered_concat, zip_concat h.length, Ledger.ofHistory_concat, h.delivered]
    unfold Ledger.delivered Ledger.record
    rw [hcompleted, List.append_assoc]
  · rw [zip_concat h.length, Ledger.ofHistory_concat, hadded]
    unfold Ledger.record
    rw [List.map_map, show Change.data ∘ Change.finish token = Change.data from
      funext (Change.finish_data token)]
    exact h.order

theorem Recorded.clear (h : Recorded ops answers p) :
    Recorded (ops ++ [Op.clear]) (answers ++ [(none, [])]) p.clear := by
  obtain ⟨front, back, hholds⟩ := h.holds
  have hadded : added (ops ++ [Op.clear]) = added ops := by
    rw [added_concat]
    exact List.append_nil _
  refine ⟨?_, ⟨[], [], ?_⟩, ?_, ?_, ?_⟩
  · rw [List.length_append, List.length_append, h.length]
    rfl
  · rw [zip_concat h.length, Ledger.ofHistory_concat, hadded]
    exact hholds.clear
  · rw [issued_concat, hadded, h.issued]
    exact List.append_nil _
  · rw [delivered_concat, zip_concat h.length, Ledger.ofHistory_concat, h.delivered]
    rfl
  · rw [zip_concat h.length, Ledger.ofHistory_concat, hadded]
    unfold Ledger.record Ledger.delivered
    rw [List.map_nil, List.append_nil]
    exact (List.Sublist.append_left (completed_sublist _) _).trans h.order

theorem recorded_of_run (ops : List (Op α)) (hadds : (added ops).length ≤ 2 ^ 64) :
    ∃ p answers, (machine α).run {} ops = some (p, answers) ∧ Recorded ops answers p := by
  refine (machine α).run_history {} (fun _ _ => True) (fun ops => (added ops).length ≤ 2 ^ 64)
    Recorded ?_ recorded_start ?_ ops hadds (Machine.along_of_forall _ _ fun _ _ _ => trivial)
  · intro ops op hle
    rw [added_concat, List.length_append] at hle
    omega
  · intro ops answers p op hle _ h
    rw [added_concat, List.length_append] at hle
    cases op with
    | add data => exact ⟨_, _, rfl, h.add data⟩
    | finish token => exact ⟨_, _, rfl, h.finish (by omega) token⟩
    | clear => exact ⟨_, _, rfl, h.clear⟩

/-- The calls of `func` in a run that issued the tokens `issued answers`. -/
structure Delivers (ops : List (Op α)) (answers : List (Option UInt64 × List α))
    (p : ChangesProcessor α) : Prop where
  distinct : (issued answers).Nodup
  order : (delivered answers).Sublist (added ops)
  ledger : delivered answers = (Ledger.ofHistory (ops.zip answers)).delivered
  recent : (Ledger.ofHistory (ops.zip answers)).changes.map Change.token <:+ issued answers
  stale : ∀ token, (∀ c ∈ (Ledger.ofHistory (ops.zip answers)).changes,
    c.token = token → c.finished = true) → p.finish token = (p, [])

theorem Recorded.delivers (h : Recorded ops answers p) (hn : (added ops).length ≤ 2 ^ 64) :
    Delivers ops answers p := by
  obtain ⟨front, back, hholds⟩ := h.holds
  refine ⟨?_, ?_, h.delivered, ?_, fun token => hholds.finish_stale⟩
  · rw [h.issued]
    refine List.Nodup.map_on ?_ List.nodup_range'
    intro a ha b hb hab
    rw [List.mem_range'_1] at ha hb
    exact ofNat_inj ha.1 hb.1 (by omega) (by omega) hab
  · rw [h.delivered]
    exact (List.Sublist.append_left (completed_sublist _) _).trans h.order
  · have hnumbered := hholds.numbered
    have hle := hholds.le
    unfold Numbered at hnumbered
    rw [hnumbered, h.issued]
    set len := (Ledger.ofHistory (ops.zip answers)).changes.length
    refine ⟨(List.range' 1 ((added ops).length - len)).map UInt64.ofNat, ?_⟩
    rw [← List.map_append, Nat.add_comm _ 1, List.range'_append_1, Nat.sub_add_cancel hle]

/-- In every run with at most `2 ^ 64` calls of `add` the tokens are distinct, and the changes are
delivered in the order of addition, each when it and all changes before it are finished. -/
theorem delivers_when_finished (ops : List (Op α)) (hadds : (added ops).length ≤ 2 ^ 64) :
    ∃ p answers, (machine α).run {} ops = some (p, answers) ∧ Delivers ops answers p := by
  obtain ⟨p, answers, hrun, h⟩ := recorded_of_run ops hadds
  exact ⟨p, answers, hrun, h.delivers hadds⟩

/-- The second change is finished first, and the third comes after `clear`. -/
theorem delivers_when_finished_late : ∃ p answers,
    (machine ℕ).run {} [.add 7, .add 8, .finish 2, .finish 1, .clear, .finish 2, .add 9, .finish 3] =
      some (p, answers) ∧
    Delivers [.add 7, .add 8, .finish 2, .finish 1, .clear, .finish 2, .add 9, .finish 3] answers p :=
  delivers_when_finished _ (by decide)

/-! ### After `2 ^ 64` calls of `add` -/

/-- `n` changes that are dropped at once. -/
def rounds (n : ℕ) : List (Op Unit) := (List.replicate n [Op.add (), Op.clear]).flatten

theorem run_rounds : ∀ (n : ℕ) (offset : UInt64), ∃ p answers,
    (machine Unit).run ⟨offset, 0, []⟩ (rounds n) = some (p, answers) ∧
      issued answers = (List.range n).map fun k => offset + UInt64.ofNat k
  | 0, offset => ⟨_, [], rfl, rfl⟩
  | n + 1, offset => by
    obtain ⟨p, answers, hrun, hissued⟩ := run_rounds n (offset + 1)
    have hadd : (machine Unit).step ⟨offset, 0, []⟩ (.add ()) =
        some (⟨offset, 0, [((), false)]⟩, (some offset, [])) := by
      show some (_, (some (offset + 0), _)) = _
      rw [add_zero]
      rfl
    refine ⟨p, (some offset, []) :: (none, []) :: answers,
      Machine.run_cons_of hadd (Machine.run_cons_of rfl hrun), ?_⟩
    show offset :: issued answers = _
    rw [hissued, List.range_succ_eq_map, List.map_cons, List.map_map]
    refine congrArg₂ List.cons (add_zero offset).symm (List.map_congr_left fun k _ => ?_)
    show offset + 1 + UInt64.ofNat k = offset + UInt64.ofNat (k + 1)
    rw [UInt64.ofNat_add, add_assoc, add_comm 1]
    rfl

/-- One call of `add` more, and the last token is the first one again. -/
theorem tokens_repeat : ∃ p answers, (machine Unit).run {} (rounds (2 ^ 64 + 1)) = some (p, answers) ∧
    ¬ (issued answers).Nodup := by
  obtain ⟨p, answers, hrun, hissued⟩ := run_rounds (2 ^ 64 + 1) 1
  refine ⟨p, answers, hrun, ?_⟩
  rw [hissued]
  intro hnodup
  have hinj := List.inj_on_of_nodup_map hnodup (x := 0) (y := 2 ^ 64) (List.mem_range.mpr (by omega))
    (List.mem_range.mpr (by omega)) (by decide)
  omega

end ChangesProcessor

end TdUtils.Flow
