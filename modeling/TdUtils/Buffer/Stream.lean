import Mathlib.Data.List.Basic
import Mathlib.Tactic.SplitIfs
import TdUtils.Buffer.ChainBuffer

/-!
# Buffer.Stream — the nodes as one stream of bytes, and the positions of iterators on it

`Ok` is the invariant of the writer's side.  `At` places an iterator on a node; the bytes from its offset
on are then the rest of `contents`.  `Extends` is what any writer may do to a chain: no byte that stands
in it moves.
-/

namespace TdUtils

namespace BufferSlice

variable {raws : List BufferRaw} {s : BufferSlice}

theorem size_of_some {a : ℕ} (h : s.buffer = some a) : s.size = s.end_ - s.begin_ := by
  unfold size
  rw [h]
  rfl

theorem written_congr {s' : BufferSlice} (h : s'.buffer = s.buffer) :
    s'.written raws = s.written raws := by
  unfold written
  rw [h]

theorem length_asSlice (h : s.end_ ≤ (s.written raws).length) :
    (s.asSlice raws).length = s.end_ - s.begin_ := by
  unfold asSlice
  rw [List.length_drop, List.length_take, Nat.min_eq_left h]

@[simp] theorem asSlice_null : null.asSlice raws = [] := rfl

@[simp] theorem size_null : null.size = 0 := rfl

theorem truncate_of_le {limit : ℕ} (h : s.size ≤ limit) : s.truncate limit = s :=
  if_neg (Nat.not_lt.mpr h)

theorem size_truncate (limit : ℕ) : (s.truncate limit).size = min limit s.size := by
  unfold truncate
  split_ifs with h
  · rcases Option.eq_none_or_eq_some s.buffer with hbuffer | ⟨a, hbuffer⟩
    · unfold size at h
      rw [hbuffer] at h
      exact absurd h (Nat.not_lt_zero _)
    · rw [size_of_some hbuffer] at h
      rw [size_of_some hbuffer, size_of_some (s := { s with end_ := s.begin_ + limit }) hbuffer]
      dsimp only
      omega
  · omega

theorem asSlice_truncate {a : ℕ} (hbuffer : s.buffer = some a) (limit : ℕ) :
    (s.truncate limit).asSlice raws = (s.asSlice raws).take limit := by
  unfold truncate
  split_ifs with h
  · rw [size_of_some hbuffer] at h
    unfold asSlice written
    rw [List.take_drop, List.take_take]
    dsimp only
    rw [Nat.min_eq_left (by omega)]
  · symm
    apply List.take_of_length_le
    rw [size_of_some hbuffer] at h
    unfold asSlice
    rw [List.length_drop, List.length_take]
    omega

end BufferSlice

namespace ChainBufferNode

@[simp] theorem current_buffer (raws : List BufferRaw) (node : ChainBufferNode) :
    (node.current raws).buffer = node.slice.buffer := by
  unfold current
  split_ifs <;> rfl

@[simp] theorem current_begin (raws : List BufferRaw) (node : ChainBufferNode) :
    (node.current raws).begin_ = node.slice.begin_ := by
  unfold current
  split_ifs <;> rfl

end ChainBufferNode

namespace ChainBuffer

variable {c c' : ChainBuffer}

/-- The bytes of a node. -/
def content (c : ChainBuffer) (node : ChainBufferNode) : List UInt8 :=
  (node.current c.raws).asSlice c.raws

/-- Where a node starts in the stream. -/
def start (c : ChainBuffer) (i : ℕ) : ℕ := ((c.nodes.take i).flatMap c.content).length

/-- A slice of what is written. -/
structure Valid (c : ChainBuffer) (s : BufferSlice) : Prop where
  buffer : ∃ a, s.buffer = some a ∧ a < c.raws.length
  le : s.begin_ ≤ s.end_
  last : s.end_ ≤ (s.written c.raws).length

theorem Valid.truncate {s : BufferSlice} (h : c.Valid s) (limit : ℕ) : c.Valid (s.truncate limit) := by
  obtain ⟨a, hbuffer, ha⟩ := h.buffer
  have hle := h.le
  have hlast := h.last
  unfold BufferSlice.truncate
  split_ifs with hlimit
  · rw [BufferSlice.size_of_some hbuffer] at hlimit
    have hwritten : BufferSlice.written c.raws { s with end_ := s.begin_ + limit } =
        s.written c.raws := BufferSlice.written_congr rfl
    refine ⟨⟨a, hbuffer, ha⟩, Nat.le_add_right _ _, ?_⟩
    rw [hwritten]
    dsimp only
    omega
  · exact h

/-- Only the tail may be synced with the buffer of the writer. -/
structure Ok (c : ChainBuffer) : Prop where
  valid : ∀ node ∈ c.nodes, c.Valid (node.current c.raws)
  slice : ∀ node ∈ c.nodes, node.slice.begin_ ≤ node.slice.end_ ∧
    node.slice.end_ ≤ (node.current c.raws).end_
  raws : ∀ raw ∈ c.raws, raw.data.length ≤ raw.dataSize
  tail : ∃ init tail, c.nodes = init ++ [tail] ∧
    ∀ a, c.writer = some a → a < c.raws.length ∧ tail.syncFlag = true ∧ tail.slice.buffer = some a ∧
      ∀ node ∈ init, node.syncFlag = true → node.slice.buffer ≠ some a

/-- A new chain: one node, and a buffer that is full. -/
theorem ok_init : Ok init := by
  refine ⟨?_, ?_, ?_, [], ⟨⟨some 0, 0, 0⟩, true⟩, rfl, ?_⟩
  · intro node hnode
    obtain rfl := List.mem_singleton.mp hnode
    exact ⟨⟨0, rfl, Nat.zero_lt_one⟩, Nat.le_refl _, Nat.le_refl _⟩
  · intro node hnode
    obtain rfl := List.mem_singleton.mp hnode
    exact ⟨Nat.le_refl _, Nat.le_refl _⟩
  · intro raw hraw
    obtain rfl := List.mem_singleton.mp hraw
    exact Nat.zero_le _
  · intro a ha
    obtain rfl := Option.some.inj ha
    exact ⟨Nat.zero_lt_one, rfl, rfl, fun node hnode => absurd hnode List.not_mem_nil⟩

theorem start_le_start {i j : ℕ} (h : i ≤ j) : c.start i ≤ c.start j := by
  unfold start
  rw [← Nat.add_sub_cancel' h, List.take_add, List.flatMap_append, List.length_append]
  exact Nat.le_add_right _ _

theorem start_length : c.start c.nodes.length = c.contents.length := by
  unfold start
  rw [List.take_length]
  rfl

theorem length_content (hok : Ok c) {node : ChainBufferNode} (hnode : node ∈ c.nodes) :
    (c.content node).length = (node.current c.raws).end_ - node.slice.begin_ := by
  unfold content
  rw [BufferSlice.length_asSlice (hok.valid node hnode).last, ChainBufferNode.current_begin]

theorem contents_split {i : ℕ} {node : ChainBufferNode} (h : c.nodes[i]? = some node) :
    c.contents = (c.nodes.take i).flatMap c.content ++
      (c.content node ++ (c.nodes.drop (i + 1)).flatMap c.content) := by
  obtain ⟨hlt, rfl⟩ := List.getElem?_eq_some_iff.mp h
  rw [← List.flatMap_cons, ← List.drop_eq_getElem_cons hlt, ← List.flatMap_append,
    List.take_append_drop]
  rfl

theorem start_succ {i : ℕ} {node : ChainBufferNode} (h : c.nodes[i]? = some node) :
    c.start (i + 1) = c.start i + (c.content node).length := by
  unfold start
  rw [List.take_add_one, h, List.flatMap_append, List.length_append, Option.toList_some,
    List.flatMap_singleton]

/-! ### Iterators -/

/-- The iterator stands on node `i`, with a copy of its slice that may be behind the writer. -/
structure At (c : ChainBuffer) (it : ChainBufferIterator) (i : ℕ) (node : ChainBufferNode) : Prop where
  head : it.head = some i
  standsOn : c.nodes[i]? = some node
  buffer : it.reader.buffer = node.slice.buffer
  needSync : it.needSync = node.syncFlag
  first : node.slice.begin_ ≤ it.reader.begin_
  le : it.reader.begin_ ≤ it.reader.end_
  last : it.reader.end_ ≤ (node.current c.raws).end_
  fixed : node.syncFlag = false → it.reader.end_ = node.slice.end_
  offset : it.offset = c.start i + (it.reader.begin_ - node.slice.begin_)

def Placed (c : ChainBuffer) (it : ChainBufferIterator) : Prop := ∃ i node, At c it i node

variable {it : ChainBufferIterator} {i : ℕ} {node : ChainBufferNode}

theorem At.mem (h : At c it i node) : node ∈ c.nodes := List.mem_of_getElem? h.standsOn

theorem At.size_reader (hok : Ok c) (h : At c it i node) :
    it.reader.size = it.reader.end_ - it.reader.begin_ := by
  obtain ⟨a, ha, -⟩ := (hok.valid node h.mem).buffer
  rw [ChainBufferNode.current_buffer] at ha
  exact BufferSlice.size_of_some (h.buffer.trans ha)

theorem At.valid_reader (hok : Ok c) (h : At c it i node) : c.Valid it.reader := by
  have hvalid := hok.valid node h.mem
  have hbuffer : it.reader.buffer = (node.current c.raws).buffer :=
    h.buffer.trans (ChainBufferNode.current_buffer _ _).symm
  refine ⟨hbuffer ▸ hvalid.buffer, h.le, ?_⟩
  rw [BufferSlice.written_congr hbuffer]
  exact Nat.le_trans h.last hvalid.last

/-- What the iterator has at hand is what comes next in the stream. -/
theorem At.asSlice_reader (hok : Ok c) (h : At c it i node) :
    it.reader.asSlice c.raws = (c.contents.drop it.offset).take it.reader.size := by
  have hvalid := hok.valid node h.mem
  have hlast := h.last
  have hfirst := h.first
  have hle := h.le
  have hlen := length_content hok h.mem
  have hwritten : it.reader.written c.raws = (node.current c.raws).written c.raws :=
    BufferSlice.written_congr (h.buffer.trans (ChainBufferNode.current_buffer _ _).symm)
  have hdrop : (c.content node).drop (it.reader.begin_ - node.slice.begin_) =
      (((node.current c.raws).written c.raws).take (node.current c.raws).end_).drop
        it.reader.begin_ := by
    unfold content BufferSlice.asSlice
    rw [List.drop_drop, ChainBufferNode.current_begin]
    congr 1
    omega
  rw [h.size_reader hok, contents_split h.standsOn, h.offset]
  unfold start
  rw [List.drop_length_add_append, List.drop_append_of_le_length (by omega),
    List.take_append_of_le_length (by rw [List.length_drop]; omega), hdrop, List.take_drop,
    List.take_take, Nat.add_sub_cancel' hle, Nat.min_eq_left hlast]
  unfold BufferSlice.asSlice
  rw [hwritten]

theorem At.offset_le (hok : Ok c) (h : At c it i node) :
    it.offset + it.reader.size ≤ c.contents.length := by
  have hlast := h.last
  have hfirst := h.first
  have hle := h.le
  have hlen := length_content hok h.mem
  have hstart : c.start i = ((c.nodes.take i).flatMap c.content).length := rfl
  rw [h.size_reader hok, contents_split h.standsOn, h.offset, List.length_append, List.length_append]
  omega

/-- An iterator at the end of the last node is at the end of the stream. -/
theorem At.offset_eq (hok : Ok c) (h : At c it i node) (hi : i + 1 = c.nodes.length)
    (hend : it.reader.begin_ = (node.current c.raws).end_) : it.offset = c.contents.length := by
  have hfirst := h.first
  have hlen := length_content hok h.mem
  have hstart : c.start i = ((c.nodes.take i).flatMap c.content).length := rfl
  have hdrop : c.nodes.drop (i + 1) = [] := List.drop_of_length_le (Nat.le_of_eq hi.symm)
  rw [contents_split h.standsOn, h.offset, hdrop, List.length_append, List.length_append, List.flatMap_nil,
    List.length_nil]
  omega

/-- The iterator comes onto the next node. -/
theorem At.next (hok : Ok c) (h : At c it i node) (hi : i + 1 < c.nodes.length)
    (hend : it.reader.begin_ = (node.current c.raws).end_) :
    ∃ node', At c (it.loadHead c (c.next i)) (i + 1) node' ∧
      (it.loadHead c (c.next i)).offset = it.offset := by
  have hnode' : c.nodes[i + 1]? = some c.nodes[i + 1] := List.getElem?_eq_getElem hi
  have hnext : c.next i = some (i + 1) := if_pos hi
  have hload : it.loadHead c (c.next i) =
      { it with
        head := some (i + 1), reader := c.nodes[i + 1].slice, needSync := c.nodes[i + 1].syncFlag } := by
    unfold ChainBufferIterator.loadHead
    rw [hnext, Option.bind_some, hnode']
  have hstart := start_succ h.standsOn
  have hlen := length_content hok h.mem
  have hfirst := h.first
  have hoffset := h.offset
  obtain ⟨hle, hlast⟩ := hok.slice _ (List.mem_of_getElem? hnode')
  rw [hload]
  refine ⟨c.nodes[i + 1], ?_, rfl⟩
  constructor
  case head => rfl
  case standsOn => exact hnode'
  case buffer => rfl
  case needSync => rfl
  case first => exact Nat.le_refl _
  case le => exact hle
  case last => exact hlast
  case fixed => exact fun _ => rfl
  case offset =>
    dsimp only
    omega

end ChainBuffer

end TdUtils
