import TdUtils.Concurrent.SpscChain
import TdUtils.Concurrent.SpscChainQueue

/-!
# Concurrent.SpscChainMemory — the nodes hold a chain

`Holds` says what is in the nodes from the reader's to the writer's; the rules below are about one write to one
node.
-/

namespace TdUtils.SpscChainQueue

open SpscBlockQueue (Block)

variable {p : ℕ} {α : Type}

/-- `next` is the link of the writer's node, which is not closed. -/
structure Holds (nodes : ℕ → Option (Node p α)) (c : Chain p α) (next : Option ℕ) : Prop where
  node : ∀ k, c.front ≤ k → k < c.back →
    ∃ q, nodes k = some ⟨q, true, some (k + 1)⟩ ∧ SpscBlockQueue.Rep q (c.blocks k)
  last : ∃ q, nodes c.back = some ⟨q, false, next⟩ ∧ SpscBlockQueue.Rep q (c.blocks c.back)

variable {nodes : ℕ → Option (Node p α)} {c : Chain p α} {next next' : Option ℕ} {q : SpscBlockQueue p α}
  {b : Block p α}

/-- The reader's node. -/
theorem Holds.first (h : Holds nodes c next) : ∃ node, nodes c.front = some node ∧
    SpscBlockQueue.Rep node.q (c.blocks c.front) ∧ (node.isClosed = true ↔ c.front < c.back) ∧
    (c.front < c.back → node.next = some (c.front + 1)) := by
  rcases c.front_le.lt_or_eq with hlt | heq
  · obtain ⟨q, hnode, hq⟩ := h.node c.front le_rfl hlt
    exact ⟨_, hnode, hq, iff_of_true rfl hlt, fun _ => rfl⟩
  · obtain ⟨q, hnode, hq⟩ := h.last
    rw [heq]
    exact ⟨_, hnode, hq, iff_of_false Bool.false_ne_true (lt_irrefl _), fun hlt => absurd hlt (lt_irrefl _)⟩

/-- A write outside the chain. -/
theorem Holds.outside (h : Holds nodes c next) {k : ℕ} (hk : c.back < k) (node : Option (Node p α)) :
    Holds (Function.update nodes k node) c next where
  node := by
    intro j hfront hback
    rw [Function.update_of_ne (by omega)]
    exact h.node j hfront hback
  last := by
    rw [Function.update_of_ne (by omega)]
    exact h.last

theorem Holds.setBack (h : Holds nodes c next) {hread : b.read = (c.blocks c.back).read}
    {hseen : b.seenFlushed = (c.blocks c.back).seenFlushed} (hq : SpscBlockQueue.Rep q b) :
    Holds (Function.update nodes c.back (some ⟨q, false, next'⟩)) (c.setBack b hread hseen) next' where
  node := by
    intro k hfront hback
    have hne : k ≠ c.back := Nat.ne_of_lt hback
    rw [Function.update_of_ne hne]
    show ∃ q, nodes k = _ ∧ SpscBlockQueue.Rep q (Function.update c.blocks c.back b k)
    rw [Function.update_of_ne hne]
    exact h.node k hfront hback
  last := by
    show ∃ q, Function.update nodes c.back _ c.back = _ ∧ SpscBlockQueue.Rep q (Function.update c.blocks c.back b c.back)
    rw [Function.update_self, Function.update_self]
    exact ⟨q, rfl, hq⟩

theorem Holds.relink (h : Holds nodes c next) (hq : SpscBlockQueue.Rep q (c.blocks c.back)) :
    Holds (Function.update nodes c.back (some ⟨q, false, next'⟩)) c next' where
  node := by
    intro k hfront hback
    rw [Function.update_of_ne hback.ne]
    exact h.node k hfront hback
  last := by
    rw [Function.update_self]
    exact ⟨q, rfl, hq⟩

theorem Holds.setFront (h : Holds nodes c next) {node : Node p α} (hnode : nodes c.front = some node)
    {hitems : b.items = (c.blocks c.front).items} {hflushed : b.flushed = (c.blocks c.front).flushed}
    (hq : SpscBlockQueue.Rep q b) :
    Holds (Function.update nodes c.front (some { node with q := q })) (c.setFront b hitems hflushed) next where
  node := by
    intro k hfront hback
    show ∃ q, _ ∧ SpscBlockQueue.Rep q (Function.update c.blocks c.front b k)
    by_cases heq : k = c.front
    · subst heq
      obtain ⟨q', hold, -⟩ := h.node _ hfront hback
      rw [hnode] at hold
      obtain rfl := Option.some.inj hold
      rw [Function.update_self, Function.update_self]
      exact ⟨q, rfl, hq⟩
    · rw [Function.update_of_ne heq, Function.update_of_ne heq]
      exact h.node k hfront hback
  last := by
    show ∃ q, Function.update nodes c.front _ c.back = _ ∧
      SpscBlockQueue.Rep q (Function.update c.blocks c.front b c.back)
    by_cases heq : c.back = c.front
    · obtain ⟨q', hold, -⟩ := h.last
      rw [heq, hnode] at hold
      obtain rfl := Option.some.inj hold
      rw [heq, Function.update_self, Function.update_self]
      exact ⟨q, rfl, hq⟩
    · rw [Function.update_of_ne heq, Function.update_of_ne heq]
      exact h.last

/-- The closed flag is set, and the new block is the last one. -/
theorem Holds.extend (h : Holds nodes c next) {hflushed : (c.blocks c.back).flushed = (c.blocks c.back).items.length}
    {hpos : 0 < (c.blocks c.back).items.length} (hq : SpscBlockQueue.Rep q (c.blocks c.back))
    (hnew : nodes (c.back + 1) = some {}) :
    Holds (Function.update nodes c.back (some ⟨q, true, some (c.back + 1)⟩)) (c.extend hflushed hpos) none where
  node := by
    intro k hfront hback
    by_cases heq : k = c.back
    · rw [heq, Function.update_self]
      exact ⟨q, rfl, hq⟩
    · rw [Function.update_of_ne heq]
      exact h.node k hfront (lt_of_le_of_ne (Nat.le_of_lt_succ hback) heq)
  last := by
    refine ⟨{}, ?_, ?_⟩
    · show Function.update nodes c.back _ (c.back + 1) = _
      rw [Function.update_of_ne (by omega), hnew]
    · show SpscBlockQueue.Rep {} (c.blocks (c.back + 1))
      rw [c.fresh _ (Nat.lt_succ_self _)]
      exact SpscBlockQueue.Rep.empty

/-- The node that the reader has left is deleted. -/
theorem Holds.advance (h : Holds nodes c next) {hlt : c.front < c.back}
    {hread : (c.blocks c.front).read = (c.blocks c.front).items.length} :
    Holds (Function.update nodes c.front none) (c.advance hlt hread) next where
  node := by
    intro k hfront hback
    have hfront' : c.front + 1 ≤ k := hfront
    rw [Function.update_of_ne (by omega)]
    exact h.node k (by omega) hback
  last := by
    show ∃ q, Function.update nodes c.front none c.back = _ ∧ _
    rw [Function.update_of_ne hlt.ne']
    exact h.last

end TdUtils.SpscChainQueue
