import TdUtils.Buffer.Readers

/-!
# Buffer.Writer — what a writer does to the stream

Every operation of a writer puts bytes behind the stream (`Appends`), whether they are copied into the
last buffer, into a new one, or stay where they are.
-/

namespace TdUtils

namespace ChainBuffer

variable {c c' c'' : ChainBuffer} {bytes : List UInt8}

/-- No byte that stands in the chain moves, and all nodes but the last are left as they are. -/
structure Extends (c c' : ChainBuffer) : Prop where
  nodes : ∃ more, c'.nodes = c.nodes ++ more
  length : c.raws.length ≤ c'.raws.length
  written : ∀ s : BufferSlice, (∃ a, s.buffer = some a ∧ a < c.raws.length) →
    s.written c.raws <+: s.written c'.raws
  closed : ∀ i node, c.nodes[i]? = some node → i + 1 < c.nodes.length →
    c'.content node = c.content node

structure Appends (c c' : ChainBuffer) (bytes : List UInt8) : Prop where
  ok : Ok c'
  «extends» : Extends c c'
  contents : c'.contents = c.contents ++ bytes

theorem Extends.refl (c : ChainBuffer) : Extends c c :=
  ⟨⟨[], (List.append_nil _).symm⟩, Nat.le_refl _, fun _ _ => List.prefix_refl _, fun _ _ _ _ => rfl⟩

theorem Extends.trans (h₁ : Extends c c') (h₂ : Extends c' c'') : Extends c c'' := by
  obtain ⟨more₁, hnodes₁⟩ := h₁.nodes
  obtain ⟨more₂, hnodes₂⟩ := h₂.nodes
  refine ⟨⟨more₁ ++ more₂, ?_⟩, Nat.le_trans h₁.length h₂.length, ?_, ?_⟩
  · rw [hnodes₂, hnodes₁, List.append_assoc]
  · intro s hs
    obtain ⟨a, ha, hlt⟩ := hs
    exact (h₁.written s ⟨a, ha, hlt⟩).trans (h₂.written s ⟨a, ha, Nat.lt_of_lt_of_le hlt h₁.length⟩)
  · intro i node hnode hi
    have hlt : i < c.nodes.length := by omega
    rw [← h₁.closed i node hnode hi]
    apply h₂.closed i node
    · rw [hnodes₁, List.getElem?_append_left hlt]
      exact hnode
    · rw [hnodes₁, List.length_append]
      omega

theorem Appends.refl (hok : Ok c) : Appends c c [] := ⟨hok, .refl c, (List.append_nil _).symm⟩

theorem Appends.trans {bytes' : List UInt8} (h₁ : Appends c c' bytes) (h₂ : Appends c' c'' bytes') :
    Appends c c'' (bytes ++ bytes') := by
  refine ⟨h₂.ok, h₁.extends.trans h₂.extends, ?_⟩
  rw [h₂.contents, h₁.contents, List.append_assoc]

/-! ### What stays in place -/

theorem Extends.asSlice (h : Extends c c') {s : BufferSlice} (hs : c.Valid s) :
    s.asSlice c'.raws = s.asSlice c.raws := by
  obtain ⟨more, hmore⟩ := h.written s hs.buffer
  unfold BufferSlice.asSlice
  rw [← hmore, List.take_append_of_le_length hs.last]

theorem Extends.valid (h : Extends c c') {s : BufferSlice} (hs : c.Valid s) : c'.Valid s := by
  obtain ⟨a, ha, hlt⟩ := hs.buffer
  refine ⟨⟨a, ha, Nat.lt_of_lt_of_le hlt h.length⟩, hs.le, ?_⟩
  exact Nat.le_trans hs.last (h.written s hs.buffer).length_le

theorem Extends.current_le (h : Extends c c') (hok : Ok c) {node : ChainBufferNode}
    (hnode : node ∈ c.nodes) : (node.current c.raws).end_ ≤ (node.current c'.raws).end_ := by
  have hbuffer := (hok.valid node hnode).buffer
  rw [ChainBufferNode.current_buffer] at hbuffer
  have hwritten := (h.written node.slice hbuffer).length_le
  unfold ChainBufferNode.current
  split_ifs
  · exact hwritten
  · exact Nat.le_refl _

theorem Extends.start_eq (h : Extends c c') {i : ℕ} (hi : i < c.nodes.length) :
    c'.start i = c.start i := by
  obtain ⟨more, hnodes⟩ := h.nodes
  unfold start
  rw [hnodes, List.take_append_of_le_length (Nat.le_of_lt hi)]
  congr 1
  apply List.flatMap_congr
  intro node hnode
  obtain ⟨j, hj, rfl⟩ := List.mem_iff_getElem.mp hnode
  rw [List.length_take] at hj
  rw [List.getElem_take]
  exact h.closed j _ (List.getElem?_eq_getElem (by omega)) (by omega)

theorem At.of_extends {it : ChainBufferIterator} {i : ℕ} {node : ChainBufferNode} (hok : Ok c)
    (he : Extends c c') (h : At c it i node) : At c' it i node := by
  obtain ⟨more, hnodes⟩ := he.nodes
  obtain ⟨hi, -⟩ := List.getElem?_eq_some_iff.mp h.standsOn
  refine ⟨h.head, ?_, h.buffer, h.needSync, h.first, h.le, ?_, h.fixed, ?_⟩
  · rw [hnodes, List.getElem?_append_left hi]
    exact h.standsOn
  · exact Nat.le_trans h.last (he.current_le hok h.mem)
  · rw [he.start_eq hi]
    exact h.offset

/-- Nothing reads `head_` but `extract_reader`. -/
theorem appends_head (hok : Ok c) : Appends c { c with head := false } [] := by
  have hextends : Extends c { c with head := false } :=
    ⟨⟨[], (List.append_nil _).symm⟩, Nat.le_refl _, fun _ _ => List.prefix_refl _, fun _ _ _ _ => rfl⟩
  exact ⟨⟨fun node hnode => hextends.valid (hok.valid node hnode), hok.slice, hok.raws, hok.tail⟩, hextends,
    (List.append_nil _).symm⟩

theorem Live.of_extends {r : ChainBufferReader} {cursor : Cursor} (hok : Ok c) (he : Extends c c')
    (h : Live c r cursor) : Live c' r cursor := by
  obtain ⟨i, node, hbegin⟩ := h.begin_
  obtain ⟨j, node', hend⟩ := h.end_
  exact ⟨⟨i, node, hbegin.of_extends hok he⟩, ⟨j, node', hend.of_extends hok he⟩, h.pos, h.limit, h.le,
    h.syncing⟩

theorem Reads.of_extends {r : ChainBufferReader} {cursor : Cursor} (hok : Ok c) (he : Extends c c')
    (h : Reads c r cursor) : Reads c' r cursor := by
  rcases h with h | h
  · exact Or.inl (h.of_extends hok he)
  · exact Or.inr h

/-! ### New buffers and nodes -/

theorem written_append {raws : List BufferRaw} {s : BufferSlice} (more : List BufferRaw)
    (hs : ∃ a, s.buffer = some a ∧ a < raws.length) :
    s.written (raws ++ more) = s.written raws := by
  obtain ⟨a, ha, hlt⟩ := hs
  unfold BufferSlice.written
  rw [ha]
  dsimp only
  rw [List.getElem?_append_left hlt]

theorem current_congr {raws raws' : List BufferRaw} {node : ChainBufferNode}
    (h : node.slice.written raws' = node.slice.written raws) :
    node.current raws' = node.current raws := by
  unfold ChainBufferNode.current
  rw [h]

theorem content_congr {node : ChainBufferNode}
    (h : node.slice.written c'.raws = node.slice.written c.raws) :
    c'.content node = c.content node := by
  have hbuffer : (node.current c.raws).written c'.raws = (node.current c.raws).written c.raws := by
    have hslice := ChainBufferNode.current_buffer c.raws node
    rw [BufferSlice.written_congr hslice, BufferSlice.written_congr hslice, h]
  unfold content BufferSlice.asSlice
  rw [current_congr h, hbuffer]

theorem Ok.buffer (hok : Ok c) {node : ChainBufferNode} (hnode : node ∈ c.nodes) :
    ∃ a, node.slice.buffer = some a ∧ a < c.raws.length := by
  have hbuffer := (hok.valid node hnode).buffer
  rwa [ChainBufferNode.current_buffer] at hbuffer

/-- More buffers leave all nodes as they are. -/
theorem written_of_mem (hok : Ok c) {node : ChainBufferNode} (hnode : node ∈ c.nodes)
    (more : List BufferRaw) : node.slice.written (c.raws ++ more) = node.slice.written c.raws :=
  written_append more (hok.buffer hnode)

/-- Nodes stay valid while their buffers grow. -/
theorem valid_of_mem (c' : ChainBuffer) (hok : Ok c) {node : ChainBufferNode} (hnode : node ∈ c.nodes)
    (hlen : c.raws.length ≤ c'.raws.length)
    (hwritten : node.slice.written c.raws <+: node.slice.written c'.raws) :
    c'.Valid (node.current c'.raws) ∧ node.slice.begin_ ≤ node.slice.end_ ∧
      node.slice.end_ ≤ (node.current c'.raws).end_ := by
  obtain ⟨a, ha, hlt⟩ := hok.buffer hnode
  obtain ⟨hle, hend⟩ := hok.slice node hnode
  have hlast := (hok.valid node hnode).last
  rw [BufferSlice.written_congr (ChainBufferNode.current_buffer _ _)] at hlast
  have hgrows := hwritten.length_le
  have hbuffer : (node.current c'.raws).written c'.raws = node.slice.written c'.raws :=
    BufferSlice.written_congr (ChainBufferNode.current_buffer _ _)
  have hcurrent : node.slice.end_ ≤ (node.current c'.raws).end_ ∧
      (node.current c'.raws).end_ ≤ (node.slice.written c'.raws).length := by
    unfold ChainBufferNode.current at hend hlast ⊢
    split_ifs at hend hlast ⊢
    · exact ⟨Nat.le_trans hend hgrows, Nat.le_refl _⟩
    · exact ⟨Nat.le_refl _, Nat.le_trans hlast hgrows⟩
  refine ⟨⟨⟨a, ?_, Nat.lt_of_lt_of_le hlt hlen⟩, ?_, ?_⟩, hle, hcurrent.1⟩
  · rw [ChainBufferNode.current_buffer, ha]
  · rw [ChainBufferNode.current_begin]
    exact Nat.le_trans hle hcurrent.1
  · rw [hbuffer]
    exact hcurrent.2

theorem valid_of_append (c' : ChainBuffer) (hok : Ok c) {node : ChainBufferNode} (hnode : node ∈ c.nodes)
    {more : List BufferRaw} (hraws : c'.raws = c.raws ++ more) :
    c'.Valid (node.current c'.raws) ∧ node.slice.begin_ ≤ node.slice.end_ ∧
      node.slice.end_ ≤ (node.current c'.raws).end_ := by
  apply valid_of_mem c' hok hnode
  · rw [hraws, List.length_append]
    omega
  · have hsame : node.slice.written c'.raws = node.slice.written c.raws := by
      rw [hraws, written_of_mem hok hnode]
    exact hsame ▸ List.prefix_refl _

theorem extends_append (hok : Ok c) {more : List BufferRaw} (hraws : c'.raws = c.raws ++ more)
    {nodes : List ChainBufferNode} (hnodes : c'.nodes = c.nodes ++ nodes) : Extends c c' := by
  refine ⟨⟨nodes, hnodes⟩, ?_, ?_, ?_⟩
  · rw [hraws, List.length_append]
    omega
  · intro s hs
    have hsame : s.written c'.raws = s.written c.raws := by
      rw [hraws, written_append more hs]
    exact hsame ▸ List.prefix_refl _
  · intro i node hnode hi
    apply content_congr
    rw [hraws, written_of_mem hok (List.mem_of_getElem? hnode)]

theorem contents_append (c' : ChainBuffer) (hok : Ok c) {more : List BufferRaw} (hraws : c'.raws = c.raws ++ more)
    {nodes : List ChainBufferNode} (hnodes : c'.nodes = c.nodes ++ nodes) :
    c'.contents = c.contents ++ nodes.flatMap c'.content := by
  have hold : c.nodes.flatMap c'.content = c.contents := by
    apply List.flatMap_congr
    intro node hnode
    apply content_congr
    rw [hraws, written_of_mem hok hnode]
  show c'.nodes.flatMap c'.content = _
  rw [hnodes, List.flatMap_append, hold]

/-- A new last node; the writer, if it has a buffer, has the one of this node for itself. -/
theorem appends_node (hok : Ok c) (more : List BufferRaw) (node : ChainBufferNode) (writer : Option ℕ)
    (head : Bool) (hmore : ∀ raw ∈ more, raw.data.length ≤ raw.dataSize)
    (hvalid : Valid ⟨c.raws ++ more, c.nodes ++ [node], writer, head⟩ (node.current (c.raws ++ more)))
    (hslice : node.slice.begin_ ≤ node.slice.end_ ∧
      node.slice.end_ ≤ (node.current (c.raws ++ more)).end_)
    (hwriter : ∀ a, writer = some a → c.raws.length ≤ a ∧ a < c.raws.length + more.length ∧
      node.syncFlag = true ∧ node.slice.buffer = some a) :
    Appends c ⟨c.raws ++ more, c.nodes ++ [node], writer, head⟩
      (content ⟨c.raws ++ more, c.nodes ++ [node], writer, head⟩ node) := by
  refine ⟨⟨?_, ?_, ?_, ⟨c.nodes, node, rfl, ?_⟩⟩, extends_append hok rfl rfl, ?_⟩
  · intro node' hnode'
    rcases List.mem_append.mp hnode' with hold | hnew
    · exact (valid_of_append _ hok hold rfl).1
    · obtain rfl := List.mem_singleton.mp hnew
      exact hvalid
  · intro node' hnode'
    rcases List.mem_append.mp hnode' with hold | hnew
    · exact (valid_of_append ⟨c.raws ++ more, c.nodes ++ [node], writer, head⟩ hok hold rfl).2
    · obtain rfl := List.mem_singleton.mp hnew
      exact hslice
  · intro raw hraw
    rcases List.mem_append.mp hraw with hold | hnew
    · exact hok.raws raw hold
    · exact hmore raw hnew
  · intro a ha
    obtain ⟨hle, hlt, hsync, hbuffer⟩ := hwriter a ha
    refine ⟨by rw [List.length_append]; omega, hsync, hbuffer, ?_⟩
    intro node' hnode' _ hbuffer'
    obtain ⟨b, hb, hblt⟩ := hok.buffer hnode'
    obtain rfl := Option.some.inj (hb.symm.trans hbuffer')
    omega
  · rw [contents_append ⟨c.raws ++ more, c.nodes ++ [node], writer, head⟩ hok rfl rfl,
      List.flatMap_singleton]

theorem appends_newSlice (hok : Ok c) (bytes : List UInt8) :
    Appends c (c.newSlice bytes).1 [] ∧ (c.newSlice bytes).1.Valid (c.newSlice bytes).2 ∧
      (c.newSlice bytes).2.asSlice (c.newSlice bytes).1.raws = bytes ∧
      (c.newSlice bytes).2.size = bytes.length := by
  have hwritten : (c.newSlice bytes).2.written (c.newSlice bytes).1.raws = bytes := by
    simp [newSlice, BufferSlice.written]
  obtain ⟨init, tail, hnodes, hwriter⟩ := hok.tail
  refine ⟨⟨⟨?_, ?_, ?_, ⟨init, tail, hnodes, ?_⟩⟩, ?_, ?_⟩, ⟨?_, Nat.zero_le _, ?_⟩, ?_, rfl⟩
  · exact fun node hnode => (valid_of_append _ hok hnode rfl).1
  · exact fun node hnode => (valid_of_append (c.newSlice bytes).1 hok hnode rfl).2
  · intro raw hraw
    rcases List.mem_append.mp hraw with hold | hnew
    · exact hok.raws raw hold
    · obtain rfl := List.mem_singleton.mp hnew
      exact Nat.le_refl _
  · intro a ha
    obtain ⟨hlt, hrest⟩ := hwriter a ha
    refine ⟨?_, hrest⟩
    show a < (c.raws ++ _).length
    rw [List.length_append]
    omega
  · exact extends_append hok rfl (List.append_nil _).symm
  · exact contents_append (c.newSlice bytes).1 hok rfl (List.append_nil _).symm
  · refine ⟨c.raws.length, rfl, ?_⟩
    show c.raws.length < (c.raws ++ _).length
    rw [List.length_append]
    exact Nat.lt_succ_self _
  · rw [hwritten]
    exact Nat.le_refl _
  · unfold BufferSlice.asSlice
    rw [hwritten]
    exact List.take_length

theorem appends_alloc (hok : Ok c) (hint : ℕ) : Appends c (c.prepareAppendAlloc hint) [] := by
  unfold prepareAppendAlloc
  dsimp only
  generalize hcreate : BufferRaw.create (if hint < 1 <<< 10 then 1 <<< 12 else hint) = raw
  have hdata : raw.data = [] := by
    rw [← hcreate]
    rfl
  have hwritten : BufferSlice.written (c.raws ++ [raw]) ⟨some c.raws.length, 0, 0⟩ = [] := by
    simp [BufferSlice.written, hdata]
  have hcurrent : ChainBufferNode.current (c.raws ++ [raw]) ⟨⟨some c.raws.length, 0, 0⟩, true⟩ =
      ⟨some c.raws.length, 0, 0⟩ := by
    unfold ChainBufferNode.current
    rw [hwritten]
    rfl
  have happends := appends_node hok [raw] ⟨⟨some c.raws.length, 0, 0⟩, true⟩
    (some c.raws.length) c.head ?_ ?_ ?_ ?_
  · have hcontent : content ⟨c.raws ++ [raw], c.nodes ++ [⟨⟨some c.raws.length, 0, 0⟩, true⟩],
        some c.raws.length, c.head⟩ ⟨⟨some c.raws.length, 0, 0⟩, true⟩ = [] := by
      unfold content BufferSlice.asSlice
      rw [hcurrent, hwritten]
      rfl
    rwa [hcontent] at happends
  · intro raw' hraw'
    obtain rfl := List.mem_singleton.mp hraw'
    rw [hdata]
    exact Nat.zero_le _
  · rw [hcurrent]
    refine ⟨⟨c.raws.length, rfl, ?_⟩, Nat.le_refl _, Nat.zero_le _⟩
    rw [List.length_append]
    exact Nat.lt_succ_self _
  · rw [hcurrent]
    exact ⟨Nat.le_refl _, Nat.le_refl _⟩
  · intro a ha
    obtain rfl := Option.some.inj ha
    exact ⟨Nat.le_refl _, Nat.lt_succ_self _, rfl, rfl⟩

/-- A slice that stays where it is. -/
theorem appends_slice (hok : Ok c) {slice : BufferSlice} (hvalid : c.Valid slice) :
    Appends c { c with nodes := c.nodes ++ [⟨slice, false⟩], writer := none }
      (slice.asSlice c.raws) := by
  have happends := appends_node hok [] ⟨slice, false⟩ none c.head ?_ ?_ ?_ ?_
  · rwa [List.append_nil] at happends
  · exact fun raw hraw => absurd hraw List.not_mem_nil
  · rw [List.append_nil]
    exact ⟨hvalid.buffer, hvalid.le, hvalid.last⟩
  · exact ⟨hvalid.le, Nat.le_refl _⟩
  · exact fun a ha => by cases ha

/-! ### The buffer of the writer -/

theorem room_alloc_eq (c : ChainBuffer) (hint : ℕ) :
    (c.prepareAppendAlloc hint).prepareAppendInplace =
      BufferRaw.roundUp (if hint < 1 <<< 10 then 1 <<< 12 else hint) := by
  have hlast : (c.prepareAppendAlloc hint).writer.bind (fun a => (c.prepareAppendAlloc hint).raws[a]?) =
      some (BufferRaw.create (if hint < 1 <<< 10 then 1 <<< 12 else hint)) := by
    unfold prepareAppendAlloc
    dsimp only
    rw [Option.bind_some, List.getElem?_append_right (Nat.le_refl _), Nat.sub_self]
    rfl
  unfold prepareAppendInplace
  rw [hlast]
  unfold BufferRaw.create
  dsimp only
  rw [List.length_nil, Nat.sub_zero, if_neg]
  split_ifs <;> omega

theorem room_alloc {hint : ℕ} (h : hint ≤ 2 ^ 64 - 8) :
    0 < (c.prepareAppendAlloc hint).prepareAppendInplace := by
  rw [room_alloc_eq]
  unfold BufferRaw.roundUp
  split_ifs <;> omega

theorem room_le (hok : Ok c) {a : ℕ} (ha : c.writer = some a) :
    ∃ raw, c.raws[a]? = some raw ∧ c.prepareAppendInplace = raw.dataSize - raw.data.length ∧
      raw.data.length ≤ raw.dataSize := by
  obtain ⟨init, tail, -, hwriter⟩ := hok.tail
  obtain ⟨hlt, -⟩ := hwriter a ha
  have hraw : c.raws[a]? = some c.raws[a] := List.getElem?_eq_getElem hlt
  refine ⟨c.raws[a], hraw, ?_, hok.raws _ (List.getElem_mem hlt)⟩
  unfold prepareAppendInplace
  rw [ha, Option.bind_some, hraw]

/-- Bytes put behind what one buffer holds. -/
def push (raws : List BufferRaw) (a : ℕ) (bytes : List UInt8) : List BufferRaw :=
  raws.modify a fun raw => { raw with data := raw.data ++ bytes }

theorem written_push {raws : List BufferRaw} {s : BufferSlice} (a : ℕ) (bytes : List UInt8) {b : ℕ}
    (hb : s.buffer = some b) (hlt : b < raws.length) :
    s.written (push raws a bytes) = s.written raws ++ (if a = b then bytes else []) := by
  unfold BufferSlice.written push
  rw [hb]
  dsimp only
  rw [List.getElem?_modify, List.getElem?_eq_getElem hlt]
  split_ifs
  · rfl
  · exact (List.append_nil _).symm

theorem length_push (raws : List BufferRaw) (a : ℕ) : (push raws a bytes).length = raws.length :=
  List.length_modify _ _ _

/-- Only the tail sees the bytes. -/
theorem appends_push (hok : Ok c) {a : ℕ} (hw : c.writer = some a)
    (hlen : bytes.length ≤ c.prepareAppendInplace) :
    Appends c { c with raws := push c.raws a bytes } bytes := by
  obtain ⟨raw, hraw, hroom, hsize⟩ := room_le hok hw
  obtain ⟨init, tail, hnodes, hwriter⟩ := hok.tail
  obtain ⟨ha, hsync, hbuffer, hinit⟩ := hwriter a hw
  have hgrows : ∀ s : BufferSlice, (∃ b, s.buffer = some b ∧ b < c.raws.length) →
      s.written c.raws <+: s.written (push c.raws a bytes) := by
    rintro s ⟨b, hb, hlt⟩
    rw [written_push a bytes hb hlt]
    exact List.prefix_append _ _
  have hvalid := fun node (hnode : node ∈ c.nodes) =>
    valid_of_mem { c with raws := push c.raws a bytes } hok hnode
      (Nat.le_of_eq (length_push _ _).symm) (hgrows _ (hok.buffer hnode))
  have hmem : ∀ node ∈ init, node ∈ c.nodes := by
    intro node hnode
    rw [hnodes]
    exact List.mem_append_left _ hnode
  have hclosed : ∀ node ∈ init, content { c with raws := push c.raws a bytes } node = c.content node := by
    intro node hnode
    obtain ⟨b, hb, hlt⟩ := hok.buffer (hmem node hnode)
    cases hflag : node.syncFlag with
    | true =>
      have hne : a ≠ b := by
        rintro rfl
        exact hinit node hnode hflag hb
      apply content_congr
      dsimp only
      rw [written_push a bytes hb hlt, if_neg hne, List.append_nil]
    | false =>
      have hcurrent : ∀ raws, node.current raws = node.slice := fun raws => if_neg (by simp [hflag])
      have hlast := (hok.valid node (hmem node hnode)).last
      unfold content BufferSlice.asSlice
      dsimp only
      rw [hcurrent] at hlast ⊢
      rw [hcurrent, written_push a bytes hb hlt, List.take_append_of_le_length hlast]
  have htail : content { c with raws := push c.raws a bytes } tail = c.content tail ++ bytes := by
    have hwritten := written_push (s := tail.slice) a bytes hbuffer ha
    have hlast := hok.valid tail (by simp [hnodes])
    have hcurrent : ∀ raws, tail.current raws =
        { tail.slice with end_ := (tail.slice.written raws).length } := fun raws => if_pos hsync
    have hcongr : ∀ raws n, BufferSlice.written raws { tail.slice with end_ := n } =
        tail.slice.written raws := fun raws n => BufferSlice.written_congr rfl
    have hle := hlast.le
    rw [hcurrent] at hle
    rw [if_pos rfl] at hwritten
    unfold content BufferSlice.asSlice
    simp only [hcurrent, hcongr]
    rw [List.take_length, List.take_length, hwritten, List.drop_append_of_le_length hle]
  refine ⟨⟨fun node hnode => (hvalid node hnode).1, fun node hnode => (hvalid node hnode).2, ?_, ?_⟩,
    ⟨⟨[], (List.append_nil _).symm⟩, Nat.le_of_eq (length_push _ _).symm, hgrows, ?_⟩, ?_⟩
  · intro raw' hraw'
    obtain ⟨i, hi⟩ := List.getElem?_of_mem hraw'
    unfold push at hi
    dsimp only at hi
    rw [List.getElem?_modify] at hi
    split_ifs at hi with hia
    · subst hia
      rw [hraw] at hi
      obtain rfl := Option.some.inj hi
      dsimp only
      rw [List.length_append]
      omega
    · have hold : c.raws[i]? = some raw' := by simpa using hi
      exact hok.raws raw' (List.mem_of_getElem? hold)
  · refine ⟨init, tail, hnodes, fun b hb => ?_⟩
    obtain ⟨hlt, hrest⟩ := hwriter b hb
    exact ⟨by rwa [length_push], hrest⟩
  · intro i node hnode hi
    rw [hnodes, List.length_append, List.length_singleton] at hi
    rw [hnodes, List.getElem?_append_left (by omega)] at hnode
    exact hclosed node (List.mem_of_getElem? hnode)
  · have hinits : init.flatMap (content { c with raws := push c.raws a bytes }) =
        init.flatMap c.content := List.flatMap_congr hclosed
    have hall : ∀ f : ChainBufferNode → List UInt8, c.nodes.flatMap f = init.flatMap f ++ f tail := by
      intro f
      rw [hnodes, List.flatMap_append, List.flatMap_singleton]
    show c.nodes.flatMap (content { c with raws := push c.raws a bytes }) = c.nodes.flatMap c.content ++ _
    rw [hall, hall, hinits, htail, List.append_assoc]

/-- Nothing is confirmed, or the bytes are in the buffer of the writer. -/
theorem confirmAppend_cases (hrun : c.confirmAppend bytes = some c') :
    bytes.length ≤ c.prepareAppendInplace ∧ (bytes = [] ∧ c' = c ∨
      ∃ a, c.writer = some a ∧ c' = { c with raws := push c.raws a bytes }) := by
  unfold confirmAppend at hrun
  cases hw : c.writer with
  | none =>
    rw [hw] at hrun
    dsimp only at hrun
    split_ifs at hrun with hzero
    obtain rfl := Option.some.inj hrun
    exact ⟨by omega, Or.inl ⟨List.eq_nil_of_length_eq_zero hzero, rfl⟩⟩
  | some a =>
    rw [hw] at hrun
    dsimp only at hrun
    split_ifs at hrun with hle
    exact ⟨hle.1, Or.inr ⟨a, rfl, (Option.some.inj hrun).symm⟩⟩

theorem appends_confirm (hok : Ok c) (hrun : c.confirmAppend bytes = some c') : Appends c c' bytes := by
  obtain ⟨hlen, ⟨rfl, rfl⟩ | ⟨a, hw, rfl⟩⟩ := confirmAppend_cases hrun
  · exact .refl hok
  · exact appends_push hok hw hlen

theorem appends_prepare (hok : Ok c) (hint : ℕ) : Appends c (c.prepareAppend hint) [] := by
  unfold prepareAppend
  split_ifs
  · exact appends_alloc hok hint
  · exact Appends.refl hok

theorem appends_prepareAtLeast (hok : Ok c) (size : ℕ) :
    Appends c (c.prepareAppendAtLeast size) [] := by
  unfold prepareAppendAtLeast
  split_ifs
  · exact appends_alloc hok size
  · exact Appends.refl hok

/-! ### The memory of the buffer of the writer -/

/-- The buffer of the writer has the memory that it says it has. -/
def Roomy (c : ChainBuffer) : Prop :=
  ∀ a raw, c.writer = some a → c.raws[a]? = some raw → raw.dataSize ≤ BufferRaw.memory raw.dataSize

theorem Roomy.le_memoryLeft (h : Roomy c) : c.prepareAppendInplace ≤ c.memoryLeft := by
  unfold prepareAppendInplace memoryLeft
  cases hw : c.writer with
  | none => exact Nat.le_refl _
  | some a =>
    rw [Option.bind_some]
    cases hraw : c.raws[a]? with
    | none => exact Nat.le_refl _
    | some raw => exact Nat.sub_le_sub_right (h a raw hw hraw) _

theorem roomy_of_none (h : c.writer = none) : Roomy c := fun a raw hw => by
  rw [h] at hw
  cases hw

theorem roomy_init : Roomy init := by
  intro a raw hw hraw
  obtain rfl := Option.some.inj hw
  obtain rfl := Option.some.inj hraw
  exact BufferRaw.le_memory_create (Nat.zero_le _)

/-- Nothing but the sizes of the buffers counts. -/
theorem Roomy.of_sizes (h : Roomy c) (hok : Ok c) {raws : List BufferRaw}
    (hsizes : ∀ b raw', b < c.raws.length → raws[b]? = some raw' →
      ∃ raw, c.raws[b]? = some raw ∧ raw'.dataSize = raw.dataSize) : Roomy { c with raws := raws } := by
  intro a raw' hw hraw'
  obtain ⟨init, tail, -, hwriter⟩ := hok.tail
  obtain ⟨raw, hraw, hsize⟩ := hsizes a raw' (hwriter a hw).1 hraw'
  rw [hsize]
  exact h a raw hw hraw

/-- A new buffer beside that of the writer. -/
theorem Roomy.newSlice (h : Roomy c) (hok : Ok c) (bytes : List UInt8) : Roomy (c.newSlice bytes).1 := by
  refine h.of_sizes hok fun b raw hb hraw => ⟨raw, ?_, rfl⟩
  rwa [List.getElem?_append_left hb] at hraw

theorem roomy_alloc (c : ChainBuffer) {hint : ℕ} (h : hint ≤ 2 ^ 64 - 40) : Roomy (c.prepareAppendAlloc hint) := by
  intro a raw hw hraw
  unfold prepareAppendAlloc at hw hraw
  dsimp only at hw hraw
  obtain rfl := Option.some.inj hw
  rw [List.getElem?_append_right (Nat.le_refl _), Nat.sub_self] at hraw
  obtain rfl := Option.some.inj hraw
  apply BufferRaw.le_memory_create
  split_ifs <;> omega

theorem Roomy.prepare (h : Roomy c) {hint : ℕ} (hfits : hint ≤ 2 ^ 64 - 40 ∨ 0 < c.prepareAppendInplace) :
    Roomy (c.prepareAppend hint) := by
  unfold prepareAppend
  split_ifs with hzero
  · exact roomy_alloc c (hfits.resolve_right (by omega))
  · exact h

theorem Roomy.prepareAtLeast (h : Roomy c) {size : ℕ} (hfits : size ≤ 2 ^ 64 - 40 ∨ size ≤ c.prepareAppendInplace) :
    Roomy (c.prepareAppendAtLeast size) := by
  unfold prepareAppendAtLeast
  split_ifs with hlt
  · exact roomy_alloc c (hfits.resolve_right (by omega))
  · exact h

/-- What is confirmed does not change the size of a buffer. -/
theorem Roomy.confirm (h : Roomy c) (hrun : c.confirmAppend bytes = some c') : Roomy c' := by
  obtain ⟨-, ⟨rfl, rfl⟩ | ⟨a, hw, rfl⟩⟩ := confirmAppend_cases hrun
  · exact h
  · intro b raw hb hraw
    obtain rfl := Option.some.inj (hw.symm.trans hb)
    unfold push at hraw
    dsimp only at hraw
    rw [List.getElem?_modify_eq] at hraw
    obtain ⟨old, hold, rfl⟩ := Option.map_eq_some_iff.mp hraw
    exact h a old hw hold

theorem Roomy.exists_confirm (h : Roomy c) (hlen : bytes.length ≤ c.prepareAppendInplace) :
    ∃ c', c.confirmAppend bytes = some c' := by
  unfold confirmAppend
  cases hw : c.writer with
  | none =>
    have hroom : c.prepareAppendInplace = 0 := by
      unfold prepareAppendInplace
      rw [hw]
      rfl
    exact ⟨c, if_pos (by omega)⟩
  | some a => exact ⟨_, if_pos ⟨hlen, Nat.le_trans hlen h.le_memoryLeft⟩⟩

/-! ### `append` -/

/-- The loop puts the whole slice down, if the sizes of the buffers that it asks for do not wrap. -/
theorem appendLoop_spec {hint : ℕ} (fuel : ℕ) :
    ∀ {c : ChainBuffer} (slice : List UInt8), Ok c → Roomy c → slice.length < fuel →
      max slice.length hint ≤ 2 ^ 64 - 40 ∨ slice.length ≤ c.prepareAppendInplace →
      ∃ c', appendLoop hint fuel c slice = some c' ∧ Appends c c' slice ∧ Roomy c' := by
  induction fuel with
  | zero => exact fun slice _ _ hfuel => absurd hfuel (Nat.not_lt_zero _)
  | succ fuel ih =>
    intro c slice hok hroomy hfuel hfits
    rw [appendLoop]
    by_cases hnil : slice = []
    · rw [if_pos hnil, hnil]
      exact ⟨c, rfl, Appends.refl hok, hroomy⟩
    · have hpos : 0 < slice.length := List.length_pos_iff.mpr hnil
      have hprepare := appends_prepare hok (max slice.length hint)
      have hroomy₁ : Roomy (c.prepareAppend (max slice.length hint)) := hroomy.prepare (by omega)
      rw [if_neg hnil]
      dsimp only
      have hroom : 0 < (c.prepareAppend (max slice.length hint)).prepareAppendInplace ∧
          (c.prepareAppendInplace ≤ (c.prepareAppend (max slice.length hint)).prepareAppendInplace) := by
        unfold prepareAppend
        split_ifs with hzero
        · exact ⟨room_alloc (by omega), by omega⟩
        · exact ⟨by omega, Nat.le_refl _⟩
      generalize c.prepareAppend (max slice.length hint) = c₁ at hprepare hroomy₁ hroom ⊢
      generalize hshift : min c₁.prepareAppendInplace slice.length = shift
      have hpiece : (slice.take shift).length ≤ c₁.prepareAppendInplace := by
        rw [List.length_take]
        omega
      obtain ⟨c₂, hconfirm⟩ := hroomy₁.exists_confirm hpiece
      have hput := appends_confirm hprepare.ok hconfirm
      have hdrop : (slice.drop shift).length = slice.length - shift := List.length_drop
      obtain ⟨c', hrun, hrest, hroomy'⟩ :=
        ih (slice.drop shift) hput.ok (hroomy₁.confirm hconfirm) (by omega) (by omega)
      rw [hconfirm, Option.bind_some]
      refine ⟨c', hrun, ?_, hroomy'⟩
      have happends := (hprepare.trans hput).trans hrest
      rwa [List.nil_append, List.take_append_drop] at happends

theorem append_spec (hok : Ok c) (hroomy : Roomy c) (slice : List UInt8) (hint : ℕ)
    (hfits : max slice.length hint ≤ 2 ^ 64 - 40 ∨ slice.length ≤ c.prepareAppendInplace) :
    ∃ c', c.append slice hint = some c' ∧ Appends c c' slice ∧ Roomy c' :=
  appendLoop_spec _ slice hok hroomy (Nat.lt_succ_self _) hfits

theorem valid_of_holds {slice : BufferSlice} (h : slice.holds c.raws = true) : c.Valid slice ∨ slice = .null := by
  rcases of_decide_eq_true h with hnull | ⟨a, ha, hlt, hle, hlast⟩
  · exact Or.inr hnull
  · exact Or.inl ⟨⟨a, ha, hlt⟩, hle, hlast⟩

theorem appendBuffer_spec (hok : Ok c) (hroomy : Roomy c) {slice : BufferSlice}
    (hvalid : c.Valid slice ∨ slice = .null) :
    ∃ c', c.appendBuffer slice = some c' ∧ Appends c c' (slice.asSlice c.raws) ∧ Roomy c' := by
  have hlen : (slice.asSlice c.raws).length = slice.size := by
    rcases hvalid with hvalid | rfl
    · obtain ⟨a, ha, -⟩ := hvalid.buffer
      rw [BufferSlice.length_asSlice hvalid.last, BufferSlice.size_of_some ha]
    · rfl
  unfold appendBuffer
  split_ifs with hcopy
  · apply append_spec hok hroomy
    omega
  · rcases hvalid with hvalid | rfl
    · exact ⟨_, rfl, appends_slice hok hvalid, roomy_of_none rfl⟩
    · exact absurd (Or.inl (by decide)) hcopy

theorem Reads.limit_le {r : ChainBufferReader} {cursor : Cursor} (hok : Ok c) (h : Reads c r cursor) :
    cursor.pos + cursor.size ≤ c.contents.length ∨ cursor.size = 0 := by
  rcases h with h | h
  · have hlimit := h.limit_le hok
    have hle := h.le
    unfold Cursor.size
    omega
  · exact Or.inr h.cursor_size

/-- What a cursor sees does not change when bytes are put behind the stream. -/
theorem Reads.peek_append {r : ChainBufferReader} {cursor : Cursor} (hok : Ok c)
    (h : Reads c r cursor) (bytes : List UInt8) {n : ℕ} (hn : n ≤ cursor.size) :
    cursor.peek (c.contents ++ bytes) n = cursor.peek c.contents n := by
  unfold Cursor.peek
  rcases h.limit_le hok with hlimit | hzero
  · rw [List.drop_append_of_le_length (by omega), List.take_append_of_le_length]
    rw [List.length_drop]
    omega
  · obtain rfl : n = 0 := by omega
    rw [List.take_zero, List.take_zero]

theorem appendReaderLoop_spec (fuel : ℕ) :
    ∀ {c : ChainBuffer} {r : ChainBufferReader} {cursor : Cursor}, Ok c → Roomy c → Reads c r cursor →
      cursor.size < fuel →
      ∃ c' r', appendReaderLoop fuel c r = some (c', r') ∧
        Appends c c' (cursor.peek c.contents cursor.size) ∧ Reads c' r' (cursor.move cursor.size) ∧ Roomy c' := by
  induction fuel with
  | zero => exact fun _ _ _ hfuel => absurd hfuel (Nat.not_lt_zero _)
  | succ fuel ih =>
    intro c r cursor hok hroomy h hfuel
    have hsize := h.size_eq
    rw [appendReaderLoop]
    by_cases hzero : r.size = 0
    · rw [if_pos hzero, ← hsize, hzero]
      exact ⟨c, r, rfl, Appends.refl hok, h, hroomy⟩
    · obtain ⟨r₁, s, hread, hr₁, hvalid, hmax, hmin, hslice⟩ := h.readAsBufferSlice hok r.size
      obtain ⟨c₁, happend, hc₁, hroomy₁⟩ := appendBuffer_spec hok hroomy hvalid
      have hr₁' := hr₁.of_extends hok hc₁.extends
      have hmoved : (cursor.move s.size).size = cursor.size - s.size := by
        unfold Cursor.move Cursor.size
        dsimp only
        omega
      obtain ⟨c', r', hrun, hc', hr', hroomy'⟩ := ih hc₁.ok hroomy₁ hr₁' (by omega)
      rw [if_neg hzero, hread, Option.bind_some]
      dsimp only
      rw [happend, Option.bind_some]
      refine ⟨c', r', hrun, ?_, ?_, hroomy'⟩
      · have happends := hc₁.trans hc'
        rw [hc₁.contents, hr₁.peek_append hok _ (Nat.le_refl _), hmoved, hslice] at happends
        have hpieces : cursor.peek c.contents s.size ++
            (cursor.move s.size).peek c.contents (cursor.size - s.size) =
            cursor.peek c.contents cursor.size := by
          unfold Cursor.peek Cursor.move
          dsimp only
          rw [← List.drop_drop, ← List.take_add, Nat.add_sub_cancel' (by omega)]
        rwa [hpieces] at happends
      · have hend : (cursor.move s.size).move (cursor.move s.size).size = cursor.move cursor.size := by
          rw [hmoved]
          unfold Cursor.move
          dsimp only
          rw [Nat.add_assoc, Nat.add_sub_cancel' (by omega)]
        rwa [hend] at hr'

theorem appendReader_spec {r : ChainBufferReader} {cursor : Cursor} (hok : Ok c) (hroomy : Roomy c)
    (h : Reads c r cursor) :
    ∃ c' r', c.appendReader r = some (c', r') ∧ Appends c c' (cursor.peek c.contents cursor.size) ∧
      Reads c' r' (cursor.move cursor.size) ∧ Roomy c' := by
  unfold appendReader
  rw [h.size_eq]
  exact appendReaderLoop_spec _ hok hroomy h (Nat.lt_succ_self _)

end ChainBuffer

end TdUtils
