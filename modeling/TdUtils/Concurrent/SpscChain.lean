import Mathlib.Data.List.Infix
import TdUtils.Concurrent.SpscBlockQueue

/-!
# Concurrent.SpscChain — a chain of blocks as a sequence of values

`front` is the block of the reader and `back` that of the writer.  The blocks before `back` are flushed whole,
those before `front` are read, and the reader has not looked at those after `front`.  So what was put, flushed
and got are three prefixes of one sequence.
-/

namespace TdUtils.SpscChainQueue

open SpscBlockQueue (Block)

variable {p : ℕ} {α : Type}

structure Chain (p : ℕ) (α : Type) where
  blocks : ℕ → Block p α
  front : ℕ
  back : ℕ
  front_le : front ≤ back
  closed : ∀ k, k < back → (blocks k).flushed = (blocks k).items.length ∧ 0 < (blocks k).items.length
  gone : ∀ k, k < front → (blocks k).read = (blocks k).items.length
  ahead : ∀ k, front < k → (blocks k).read = 0 ∧ (blocks k).seenFlushed = 0
  fresh : ∀ k, back < k → blocks k = Block.empty

namespace Chain

def before (c : Chain p α) (k : ℕ) : List α := (List.range k).flatMap fun j => (c.blocks j).items

def puts (c : Chain p α) : List α := c.before c.back ++ (c.blocks c.back).items

def flushed (c : Chain p α) : List α :=
  c.before c.back ++ (c.blocks c.back).items.take (c.blocks c.back).flushed

def got (c : Chain p α) : List α :=
  c.before c.front ++ (c.blocks c.front).items.take (c.blocks c.front).read

variable (c : Chain p α)

theorem before_succ (k : ℕ) : c.before (k + 1) = c.before k ++ (c.blocks k).items := by
  unfold before
  rw [List.range_succ, List.flatMap_append, List.flatMap_singleton]

theorem before_le {j k : ℕ} (h : j ≤ k) : c.before j <+: c.before k := by
  induction k, h using Nat.le_induction with
  | base => exact List.prefix_rfl
  | succ k _ ih =>
    rw [before_succ]
    exact ih.trans (List.prefix_append _ _)

theorem flushed_prefix_puts : c.flushed <+: c.puts :=
  List.prefix_append_right_inj _ |>.mpr (List.take_prefix _ _)

theorem got_prefix_flushed : c.got <+: c.flushed := by
  unfold got flushed
  rcases c.front_le.lt_or_eq with hlt | heq
  · have hnext : c.before (c.front + 1) <+: c.before c.back := c.before_le hlt
    rw [before_succ] at hnext
    refine List.IsPrefix.trans ?_ (hnext.trans (List.prefix_append _ _))
    exact (List.prefix_append_right_inj _).mpr (List.take_prefix _ _)
  · rw [heq]
    refine (List.prefix_append_right_inj _).mpr (List.take_prefix_take_left ?_)
    exact (c.blocks c.back).read_le.trans (c.blocks c.back).seenFlushed_le

/-- The reader has got everything that is flushed when it is in the last block and has read it. -/
theorem flushed_eq_got (hfront : c.front = c.back) (hread : (c.blocks c.front).read = (c.blocks c.front).flushed) :
    c.flushed = c.got := by
  unfold flushed got
  rw [hread, hfront]

/-! ### Operations on the last block -/

/-- The writer changes its block; the reader's counters stay. -/
def setBack (b : Block p α) (hread : b.read = (c.blocks c.back).read)
    (hseen : b.seenFlushed = (c.blocks c.back).seenFlushed) : Chain p α where
  blocks := Function.update c.blocks c.back b
  front := c.front
  back := c.back
  front_le := c.front_le
  closed := by
    intro k hk
    rw [Function.update_of_ne hk.ne]
    exact c.closed k hk
  gone := by
    intro k hk
    rw [Function.update_of_ne (hk.trans_le c.front_le).ne]
    exact c.gone k hk
  ahead := by
    intro k hk
    by_cases heq : k = c.back
    · rw [heq, Function.update_self, hread, hseen]
      exact c.ahead _ (heq ▸ hk)
    · rw [Function.update_of_ne heq]
      exact c.ahead k hk
  fresh := by
    intro k hk
    rw [Function.update_of_ne hk.ne']
    exact c.fresh k hk

variable {c} {b : Block p α}

theorem before_update (k : ℕ) {blocks : ℕ → Block p α} (h : ∀ j, j < k → (blocks j).items = (c.blocks j).items) :
    ((List.range k).flatMap fun j => (blocks j).items) = c.before k :=
  List.flatMap_congr fun j hj => h j (List.mem_range.mp hj)

section Back

variable {hread : b.read = (c.blocks c.back).read} {hseen : b.seenFlushed = (c.blocks c.back).seenFlushed}

theorem before_setBack {k : ℕ} (hk : k ≤ c.back) : (c.setBack b hread hseen).before k = c.before k := by
  refine before_update k fun j hj => ?_
  show (Function.update c.blocks c.back b j).items = _
  rw [Function.update_of_ne (by omega)]

theorem puts_setBack : (c.setBack b hread hseen).puts = c.before c.back ++ b.items := by
  unfold puts
  rw [show (c.setBack b hread hseen).back = c.back from rfl, before_setBack le_rfl]
  show _ ++ (Function.update c.blocks c.back b c.back).items = _
  rw [Function.update_self]

theorem flushed_setBack : (c.setBack b hread hseen).flushed = c.before c.back ++ b.items.take b.flushed := by
  unfold flushed
  rw [show (c.setBack b hread hseen).back = c.back from rfl, before_setBack le_rfl]
  show _ ++ (Function.update c.blocks c.back b c.back).items.take (Function.update c.blocks c.back b c.back).flushed = _
  rw [Function.update_self]

theorem got_setBack (hitems : (c.blocks c.back).items <+: b.items) : (c.setBack b hread hseen).got = c.got := by
  unfold got
  rw [show (c.setBack b hread hseen).front = c.front from rfl, before_setBack c.front_le]
  show _ ++ (Function.update c.blocks c.back b c.front).items.take (Function.update c.blocks c.back b c.front).read = _
  by_cases heq : c.front = c.back
  · obtain ⟨more, hmore⟩ := hitems
    rw [heq, Function.update_self, hread, ← hmore, List.take_append_of_le_length Block.read_le_length]
  · rw [Function.update_of_ne heq]

end Back

/-! ### Operations on the first block -/

variable (c) in
/-- The reader changes its block; the items and what is flushed stay. -/
def setFront (b : Block p α) (hitems : b.items = (c.blocks c.front).items)
    (hflushed : b.flushed = (c.blocks c.front).flushed) : Chain p α where
  blocks := Function.update c.blocks c.front b
  front := c.front
  back := c.back
  front_le := c.front_le
  closed := by
    intro k hk
    by_cases heq : k = c.front
    · rw [heq, Function.update_self, hitems, hflushed]
      exact c.closed _ (heq ▸ hk)
    · rw [Function.update_of_ne heq]
      exact c.closed k hk
  gone := by
    intro k hk
    rw [Function.update_of_ne hk.ne]
    exact c.gone k hk
  ahead := by
    intro k hk
    rw [Function.update_of_ne hk.ne']
    exact c.ahead k hk
  fresh := by
    intro k hk
    rw [Function.update_of_ne (c.front_le.trans_lt hk).ne']
    exact c.fresh k hk

section Front

variable {hitems : b.items = (c.blocks c.front).items} {hflushed : b.flushed = (c.blocks c.front).flushed}

theorem items_setFront (k : ℕ) : ((c.setFront b hitems hflushed).blocks k).items = (c.blocks k).items := by
  show (Function.update c.blocks c.front b k).items = _
  by_cases heq : k = c.front
  · rw [heq, Function.update_self, hitems]
  · rw [Function.update_of_ne heq]

theorem before_setFront (k : ℕ) : (c.setFront b hitems hflushed).before k = c.before k :=
  before_update k fun j _ => items_setFront j

theorem puts_setFront : (c.setFront b hitems hflushed).puts = c.puts := by
  unfold puts
  rw [before_setFront, items_setFront]
  rfl

theorem flushed_setFront : (c.setFront b hitems hflushed).flushed = c.flushed := by
  unfold flushed
  rw [before_setFront, items_setFront]
  have hback : ((c.setFront b hitems hflushed).blocks c.back).flushed = (c.blocks c.back).flushed := by
    show (Function.update c.blocks c.front b c.back).flushed = _
    by_cases heq : c.back = c.front
    · rw [heq, Function.update_self, hflushed]
    · rw [Function.update_of_ne heq]
  rw [show (c.setFront b hitems hflushed).back = c.back from rfl, hback]

theorem got_setFront :
    (c.setFront b hitems hflushed).got = c.before c.front ++ (c.blocks c.front).items.take b.read := by
  unfold got
  rw [before_setFront, items_setFront]
  show _ ++ List.take (Function.update c.blocks c.front b c.front).read _ = _
  rw [Function.update_self]
  rfl

end Front

/-! ### Handing over -/

variable (c) in
/-- The writer goes on in a new block. -/
def extend (hflushed : (c.blocks c.back).flushed = (c.blocks c.back).items.length)
    (hpos : 0 < (c.blocks c.back).items.length) : Chain p α where
  blocks := c.blocks
  front := c.front
  back := c.back + 1
  front_le := Nat.le_succ_of_le c.front_le
  closed := by
    intro k hk
    rcases Nat.lt_succ_iff_lt_or_eq.mp hk with hlt | heq
    · exact c.closed k hlt
    · rw [heq]
      exact ⟨hflushed, hpos⟩
  gone := c.gone
  ahead := c.ahead
  fresh := fun k hk => c.fresh k (Nat.lt_of_succ_lt hk)

theorem puts_extend {hflushed : (c.blocks c.back).flushed = (c.blocks c.back).items.length}
    {hpos : 0 < (c.blocks c.back).items.length} : (c.extend hflushed hpos).puts = c.puts := by
  show c.before (c.back + 1) ++ (c.blocks (c.back + 1)).items = _
  rw [before_succ, c.fresh _ (Nat.lt_succ_self _)]
  exact List.append_nil _

theorem flushed_extend {hflushed : (c.blocks c.back).flushed = (c.blocks c.back).items.length}
    {hpos : 0 < (c.blocks c.back).items.length} : (c.extend hflushed hpos).flushed = c.flushed := by
  show c.before (c.back + 1) ++ (c.blocks (c.back + 1)).items.take _ = _
  unfold flushed
  rw [before_succ, c.fresh _ (Nat.lt_succ_self _), hflushed, List.take_length]
  exact (congrArg _ List.take_nil).trans (List.append_nil _)

variable (c) in
/-- The reader goes on in the next block. -/
def advance (hlt : c.front < c.back) (hread : (c.blocks c.front).read = (c.blocks c.front).items.length) :
    Chain p α where
  blocks := c.blocks
  front := c.front + 1
  back := c.back
  front_le := hlt
  closed := c.closed
  gone := by
    intro k hk
    rcases Nat.lt_succ_iff_lt_or_eq.mp hk with hlt | heq
    · exact c.gone k hlt
    · rw [heq]
      exact hread
  ahead := fun k hk => c.ahead k (Nat.lt_of_succ_lt hk)
  fresh := c.fresh

theorem got_advance {hlt : c.front < c.back}
    {hread : (c.blocks c.front).read = (c.blocks c.front).items.length} : (c.advance hlt hread).got = c.got := by
  show c.before (c.front + 1) ++ (c.blocks (c.front + 1)).items.take (c.blocks (c.front + 1)).read = _
  unfold got
  rw [before_succ, (c.ahead _ (Nat.lt_succ_self _)).1, hread, List.take_length]
  exact List.append_nil _

end Chain

end TdUtils.SpscChainQueue
