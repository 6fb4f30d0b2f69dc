import TdUtils.Buffer.Writer

/-!
# Buffer.Overwrite — writing over bytes that stand in a chain

A flow that works in place writes over what it reads.  In a chain whose nodes share no byte this changes the
stream there and nowhere else, and no reader loses its place.
-/

namespace TdUtils.ChainBuffer

/-- The bytes of a slice, written over. -/
def overwrite (c : ChainBuffer) (s : BufferSlice) (bytes : List UInt8) : ChainBuffer :=
  match s.buffer with
  | none => c
  | some a => { c with raws := c.raws.modify a fun raw =>
      { raw with data := raw.data.take s.begin_ ++ bytes ++ raw.data.drop (s.begin_ + bytes.length) } }

/-- Two nodes have different buffers, or slices of one that do not overlap. -/
def Beside (n m : ChainBufferNode) : Prop :=
  n.slice.buffer ≠ m.slice.buffer ∨ n.syncFlag = false ∧ m.syncFlag = false ∧
    (n.slice.end_ ≤ m.slice.begin_ ∨ m.slice.end_ ≤ n.slice.begin_)

/-- No two nodes share a byte, and a synced one starts empty, at the start of its buffer. -/
structure Private (c : ChainBuffer) : Prop where
  unshared : c.nodes.Pairwise Beside
  fresh : ∀ node ∈ c.nodes, node.syncFlag = true → node.slice.begin_ = 0 ∧ node.slice.end_ = 0

/-- The slice shares no byte with a node. -/
def Unshared (c : ChainBuffer) (s : BufferSlice) : Prop :=
  ∀ node ∈ c.nodes, node.slice.buffer ≠ s.buffer ∨ (node.current c.raws).end_ ≤ s.begin_ ∨ s.end_ ≤ node.slice.begin_

/-- Only bytes have changed. -/
structure Rewritten (c c' : ChainBuffer) : Prop where
  nodes : c'.nodes = c.nodes
  writer : c'.writer = c.writer
  length : c'.raws.length = c.raws.length
  room : ∀ raw' ∈ c'.raws, ∃ raw ∈ c.raws, raw'.dataSize = raw.dataSize ∧
    raw'.data.length = raw.data.length
  sizes : c'.raws.map BufferRaw.dataSize = c.raws.map BufferRaw.dataSize
  written : ∀ s : BufferSlice, (s.written c'.raws).length = (s.written c.raws).length

variable {c c' : ChainBuffer} {it : ChainBufferIterator} {i : ℕ} {node : ChainBufferNode}

theorem Rewritten.current_eq (h : Rewritten c c') (node : ChainBufferNode) :
    node.current c'.raws = node.current c.raws := by
  unfold ChainBufferNode.current
  rw [h.written]

theorem Rewritten.ok (h : Rewritten c c') (hok : Ok c) : Ok c' := by
  refine ⟨?_, ?_, ?_, ?_⟩
  · intro node hnode
    rw [h.nodes] at hnode
    have hvalid := hok.valid node hnode
    rw [h.current_eq]
    refine ⟨?_, hvalid.le, ?_⟩
    · rw [h.length]
      exact hvalid.buffer
    · rw [h.written]
      exact hvalid.last
  · intro node hnode
    rw [h.nodes] at hnode
    rw [h.current_eq]
    exact hok.slice node hnode
  · intro raw' hraw'
    obtain ⟨raw, hraw, hsize, hlen⟩ := h.room raw' hraw'
    rw [hsize, hlen]
    exact hok.raws raw hraw
  · rw [h.nodes, h.writer, h.length]
    exact hok.tail

theorem Rewritten.roomy (h : Rewritten c c') (hroomy : Roomy c) : Roomy c' := by
  intro a raw' hw hraw'
  have hsize := congrArg (fun sizes => sizes[a]?) h.sizes
  rw [List.getElem?_map, List.getElem?_map, hraw'] at hsize
  obtain ⟨raw, hraw, hsame⟩ := Option.map_eq_some_iff.mp hsize.symm
  rw [← hsame]
  exact hroomy a raw (h.writer ▸ hw) hraw

theorem Rewritten.length_content (h : Rewritten c c') (hok : Ok c) (hnode : node ∈ c.nodes) :
    (c'.content node).length = (c.content node).length := by
  have hnode' : node ∈ c'.nodes := by rwa [h.nodes]
  rw [ChainBuffer.length_content hok hnode, ChainBuffer.length_content (h.ok hok) hnode', h.current_eq]

theorem Rewritten.start_eq (h : Rewritten c c') (hok : Ok c) (i : ℕ) : c'.start i = c.start i := by
  unfold start
  rw [h.nodes, List.length_flatMap, List.length_flatMap]
  congr 1
  apply List.map_congr_left
  intro node hnode
  exact h.length_content hok (List.mem_of_mem_take hnode)

theorem Rewritten.at (h : Rewritten c c') (hok : Ok c) (hat : At c it i node) : At c' it i node := by
  refine ⟨hat.head, ?_, hat.buffer, hat.needSync, hat.first, hat.le, ?_, hat.fixed, ?_⟩
  · rw [h.nodes]
    exact hat.standsOn
  · rw [h.current_eq]
    exact hat.last
  · rw [h.start_eq hok]
    exact hat.offset

theorem Rewritten.placed (h : Rewritten c c') (hok : Ok c) (hp : Placed c it) : Placed c' it := by
  obtain ⟨i, node, hat⟩ := hp
  exact ⟨i, node, h.at hok hat⟩

theorem Private.of_nodes (h : Private c) (hnodes : c'.nodes = c.nodes) : Private c' :=
  ⟨hnodes ▸ h.unshared, hnodes ▸ h.fresh⟩

/-! ### One slice -/

/-- `data` with `bytes` written over it. -/
def splice (data : List UInt8) (first : ℕ) (bytes : List UInt8) : List UInt8 :=
  data.take first ++ bytes ++ data.drop (first + bytes.length)

theorem length_splice {data bytes : List UInt8} {first : ℕ} (h : first + bytes.length ≤ data.length) :
    (splice data first bytes).length = data.length := by
  unfold splice
  rw [List.length_append, List.length_append, List.length_take, List.length_drop]
  omega

theorem splice_append_left {data bytes : List UInt8} {first : ℕ} (more : List UInt8)
    (h : first + bytes.length ≤ data.length) :
    splice (data ++ more) first bytes = splice data first bytes ++ more := by
  unfold splice
  rw [List.take_append_of_le_length (by omega), List.drop_append_of_le_length (by omega),
    List.append_assoc _ _ more]

theorem splice_append_right (more : List UInt8) {data bytes : List UInt8} (first : ℕ) :
    splice (more ++ data) (more.length + first) bytes = more ++ splice data first bytes := by
  unfold splice
  rw [List.take_length_add_append, Nat.add_assoc, List.drop_length_add_append, List.append_assoc more,
    List.append_assoc more]

theorem splice_drop {data bytes : List UInt8} {n first : ℕ} (h : first + bytes.length ≤ data.length)
    (hn : n ≤ first) : (splice data first bytes).drop n = splice (data.drop n) (first - n) bytes := by
  have hfirst : n ≤ (data.take first).length := by
    rw [List.length_take]
    omega
  have hrest : n + (first - n + bytes.length) = first + bytes.length := by omega
  unfold splice
  rw [List.append_assoc, List.drop_append_of_le_length hfirst, List.drop_take, List.drop_drop, hrest,
    List.append_assoc]

theorem splice_take {data bytes : List UInt8} {n first : ℕ} (h : first + bytes.length ≤ n)
    (hn : n ≤ data.length) : (splice data first bytes).take n = splice (data.take n) first bytes := by
  have hsplit : data = data.take n ++ data.drop n := (List.take_append_drop n data).symm
  have hlen : first + bytes.length ≤ (data.take n).length := by
    rw [List.length_take]
    omega
  have htake : (splice (data.take n) first bytes).length = n := by
    rw [length_splice hlen, List.length_take]
    omega
  calc (splice data first bytes).take n
      = (splice (data.take n ++ data.drop n) first bytes).take n := by rw [← hsplit]
    _ = (splice (data.take n) first bytes ++ data.drop n).take n := by
        rw [splice_append_left _ hlen]
    _ = splice (data.take n) first bytes := List.take_left' htake

theorem splice_take_before {data : List UInt8} (bytes : List UInt8) {n first : ℕ} (hn : n ≤ first)
    (h : first ≤ data.length) : (splice data first bytes).take n = data.take n := by
  have hfirst : n ≤ (data.take first).length := by
    rw [List.length_take]
    omega
  unfold splice
  rw [List.append_assoc, List.take_append_of_le_length hfirst, List.take_take, Nat.min_eq_left hn]

theorem splice_drop_behind {data bytes : List UInt8} {n first : ℕ} (hn : first + bytes.length ≤ n)
    (h : first + bytes.length ≤ data.length) : (splice data first bytes).drop n = data.drop n := by
  have hlen : (data.take first ++ bytes).length = first + bytes.length := by
    rw [List.length_append, List.length_take]
    omega
  unfold splice
  rw [List.drop_append, List.drop_eq_nil_of_le (by omega), List.nil_append, List.drop_drop, hlen]
  congr 1
  omega

variable {s : BufferSlice} {bytes : List UInt8}

theorem written_overwrite (bytes : List UInt8) {a : ℕ} (ha : s.buffer = some a) (hlt : a < c.raws.length)
    (t : BufferSlice) :
    t.written (c.overwrite s bytes).raws =
      if t.buffer = some a then splice (t.written c.raws) s.begin_ bytes else t.written c.raws := by
  unfold BufferSlice.written overwrite
  rw [ha]
  rcases Option.eq_none_or_eq_some t.buffer with hb | ⟨b, hb⟩
  · rw [hb, if_neg (by simp)]
  · rw [hb]
    dsimp only
    by_cases hab : a = b
    · subst hab
      rw [List.getElem?_modify_eq, if_pos rfl, List.getElem?_eq_getElem hlt]
      rfl
    · have hne : ¬some b = some a := fun h => hab (Option.some.inj h).symm
      rw [List.getElem?_modify_ne _ _ hab, if_neg hne]

theorem rewritten_overwrite (hvalid : c.Valid s) (hlen : bytes.length = s.size) :
    Rewritten c (c.overwrite s bytes) := by
  obtain ⟨a, ha, hlt⟩ := hvalid.buffer
  have hle := hvalid.le
  have hlast := hvalid.last
  rw [BufferSlice.size_of_some ha] at hlen
  have hraws : (c.overwrite s bytes).raws = c.raws.modify a fun raw =>
      { raw with data := splice raw.data s.begin_ bytes } := by
    unfold overwrite
    rw [ha]
    rfl
  have hwritten : s.written c.raws = c.raws[a].data := by
    unfold BufferSlice.written
    rw [ha]
    dsimp only
    rw [List.getElem?_eq_getElem hlt]
    rfl
  refine ⟨?_, ?_, ?_, ?_, ?_, ?_⟩
  · unfold overwrite
    rw [ha]
  · unfold overwrite
    rw [ha]
  · rw [hraws, List.length_modify]
  · intro raw' hraw'
    obtain ⟨j, hj⟩ := List.getElem?_of_mem hraw'
    rw [hraws] at hj
    by_cases hja : a = j
    · subst hja
      rw [List.getElem?_modify_eq, List.getElem?_eq_getElem hlt] at hj
      obtain rfl := Option.some.inj hj
      refine ⟨c.raws[a], List.getElem_mem hlt, rfl, length_splice ?_⟩
      rw [← hwritten]
      omega
    · rw [List.getElem?_modify_ne _ _ hja] at hj
      exact ⟨raw', List.mem_of_getElem? hj, rfl, rfl⟩
  · rw [hraws]
    apply List.ext_getElem?
    intro j
    rw [List.getElem?_map, List.getElem?_map, List.getElem?_modify]
    cases c.raws[j]? with
    | none => rfl
    | some raw =>
      refine congrArg some ?_
      dsimp only
      split_ifs <;> rfl
  · intro t
    rw [written_overwrite bytes ha hlt]
    split_ifs with ht
    · have hsame : t.written c.raws = s.written c.raws := BufferSlice.written_congr (ht.trans ha.symm)
      apply length_splice
      rw [hsame]
      omega
    · rfl

/-- A fixed node whose slice lies beside the bytes stays as it is. -/
theorem content_overwrite_beside (hvalid : c.Valid s) (hlen : bytes.length = s.size) {other : ChainBufferNode}
    (hbuffer : other.slice.buffer = s.buffer) (hfixed : other.syncFlag = false)
    (hbeside : other.slice.end_ ≤ s.begin_ ∨ s.end_ ≤ other.slice.begin_) :
    (c.overwrite s bytes).content other = c.content other := by
  obtain ⟨a, ha, hlt⟩ := hvalid.buffer
  have hle := hvalid.le
  have hlast := hvalid.last
  rw [BufferSlice.size_of_some ha] at hlen
  have hcurrent : ∀ raws, other.current raws = other.slice := fun raws => if_neg (by simp [hfixed])
  have hsame : other.slice.written c.raws = s.written c.raws := BufferSlice.written_congr hbuffer
  have hwritten := written_overwrite bytes ha hlt other.slice
  rw [if_pos (hbuffer.trans ha)] at hwritten
  unfold content BufferSlice.asSlice
  rw [hcurrent, hcurrent, hwritten]
  rcases hbeside with hbefore | hbehind
  · rw [splice_take_before bytes hbefore]
    rw [hsame]
    omega
  · rw [List.drop_take, List.drop_take, splice_drop_behind]
    · omega
    · rw [hsame]
      omega

theorem Beside.symm {n m : ChainBufferNode} (h : Beside n m) : Beside m n := by
  rcases h with hne | ⟨hn, hm, hbeside⟩
  · exact Or.inl (Ne.symm hne)
  · exact Or.inr ⟨hm, hn, hbeside.symm⟩

/-- Nothing but the bytes of the slice changes in the stream. -/
theorem contents_overwrite (hok : Ok c) (hp : Private c) (hat : At c it i node)
    (hbuffer : s.buffer = it.reader.buffer) (hbegin : s.begin_ = it.reader.begin_)
    (hle : s.begin_ ≤ s.end_) (hend : s.end_ ≤ it.reader.end_) (hlen : bytes.length = s.size) :
    (c.overwrite s bytes).contents = splice c.contents it.offset bytes := by
  have hreader := hat.valid_reader hok
  have hvalid : c.Valid s := by
    refine ⟨hbuffer ▸ hreader.buffer, hle, ?_⟩
    rw [BufferSlice.written_congr hbuffer]
    exact Nat.le_trans hend hreader.last
  have hr := rewritten_overwrite hvalid hlen
  obtain ⟨a, ha, hlt⟩ := hvalid.buffer
  have hvalidNode := hok.valid node hat.mem
  have hcurrentLast := hvalidNode.last
  have hlast := hat.last
  have hfirstByte := hat.first
  have hsize := BufferSlice.size_of_some ha
  have hnodeBuffer : node.slice.buffer = some a := hat.buffer.symm.trans (hbuffer.symm.trans ha)
  have hnode := hat.standsOn
  obtain ⟨hi, hget⟩ := List.getElem?_eq_some_iff.mp hnode
  have hsplit : c.nodes = c.nodes.take i ++ node :: c.nodes.drop (i + 1) := by
    rw [← hget, ← List.drop_eq_getElem_cons hi, List.take_append_drop]
  have hothers : ∀ other ∈ c.nodes.take i ++ c.nodes.drop (i + 1),
      (c.overwrite s bytes).content other = c.content other := by
    intro other hother
    have hu := hp.unshared
    rw [hsplit, List.pairwise_append, List.pairwise_cons] at hu
    have hdisjoint : Beside node other := by
      rcases List.mem_append.mp hother with hbefore | hbehind
      · exact (hu.2.2 other hbefore node List.mem_cons_self).symm
      · exact hu.2.1.1 other hbehind
    by_cases hsame : other.slice.buffer = s.buffer
    · obtain ⟨hfixed, hfixed', hbeside⟩ := hdisjoint.resolve_left (not_not.mpr (by rw [hsame, ha, hnodeBuffer]))
      have hcurrent : node.current c.raws = node.slice := if_neg (by simp [hfixed])
      rw [hcurrent] at hlast
      exact content_overwrite_beside hvalid hlen hsame hfixed' (by omega)
    · apply content_congr
      rw [written_overwrite bytes ha hlt, if_neg (ha ▸ hsame)]
  have hthis : (c.overwrite s bytes).content node =
      splice (c.content node) (it.reader.begin_ - node.slice.begin_) bytes := by
    have hcurrent : (node.current c.raws).buffer = some a := by
      rw [ChainBufferNode.current_buffer, hnodeBuffer]
    have hwritten := written_overwrite bytes ha hlt (node.current c.raws)
    rw [if_pos hcurrent] at hwritten
    unfold content BufferSlice.asSlice
    rw [hr.current_eq, hwritten, splice_take (by omega) hvalidNode.last, splice_drop, hbegin,
      ChainBufferNode.current_begin]
    · rw [List.length_take]
      omega
    · rw [ChainBufferNode.current_begin]
      omega
  have hfirst : (c.nodes.take i).flatMap (c.overwrite s bytes).content =
      (c.nodes.take i).flatMap c.content :=
    List.flatMap_congr fun other hother => hothers other (List.mem_append_left _ hother)
  have hrest : (c.nodes.drop (i + 1)).flatMap (c.overwrite s bytes).content =
      (c.nodes.drop (i + 1)).flatMap c.content :=
    List.flatMap_congr fun other hother => hothers other (List.mem_append_right _ hother)
  have hnode' : (c.overwrite s bytes).nodes[i]? = some node := by rw [hr.nodes, hnode]
  rw [contents_split hnode', contents_split hnode, hat.offset, hr.nodes, hfirst, hrest, hthis]
  unfold start
  rw [splice_append_right, splice_append_left]
  rw [ChainBuffer.length_content hok hat.mem]
  omega

/-! ### Appending keeps the buffers apart -/

theorem Private.append (h : Private c) (node : ChainBufferNode) (hdisjoint : ∀ other ∈ c.nodes, Beside other node)
    (hfresh : node.syncFlag = true → node.slice.begin_ = 0 ∧ node.slice.end_ = 0)
    (hnodes : c'.nodes = c.nodes ++ [node]) : Private c' := by
  refine ⟨?_, ?_⟩
  · rw [hnodes, List.pairwise_append]
    refine ⟨h.unshared, List.pairwise_singleton _ _, fun other hother new hnew => ?_⟩
    obtain rfl := List.mem_singleton.mp hnew
    exact hdisjoint other hother
  · intro other hother
    rw [hnodes] at hother
    rcases List.mem_append.mp hother with hold | hnew
    · exact h.fresh other hold
    · obtain rfl := List.mem_singleton.mp hnew
      exact hfresh

theorem Private.alloc (hok : Ok c) (h : Private c) (hint : ℕ) : Private (c.prepareAppendAlloc hint) := by
  refine h.append ⟨⟨some c.raws.length, 0, 0⟩, true⟩ (fun other hother => Or.inl ?_) (fun _ => ⟨rfl, rfl⟩) rfl
  obtain ⟨b, hb, hlt⟩ := hok.buffer hother
  rw [hb]
  exact fun hsame => Nat.ne_of_lt hlt (Option.some.inj hsame)

theorem Private.prepare (hok : Ok c) (h : Private c) (hint : ℕ) : Private (c.prepareAppend hint) := by
  unfold prepareAppend
  split_ifs
  · exact h.alloc hok hint
  · exact h

theorem Private.prepareAtLeast (hok : Ok c) (h : Private c) (size : ℕ) :
    Private (c.prepareAppendAtLeast size) := by
  unfold prepareAppendAtLeast
  split_ifs
  · exact h.alloc hok size
  · exact h

theorem Private.confirm (h : Private c) (hrun : c.confirmAppend bytes = some c') : Private c' := by
  obtain ⟨-, ⟨-, rfl⟩ | ⟨a, -, rfl⟩⟩ := confirmAppend_cases hrun
  · exact h
  · exact h.of_nodes rfl

theorem Private.appendLoop {hint : ℕ} (fuel : ℕ) :
    ∀ {c c' : ChainBuffer} {slice : List UInt8}, Ok c → Private c →
      appendLoop hint fuel c slice = some c' → Private c' := by
  induction fuel with
  | zero => exact fun _ _ hrun => by cases hrun
  | succ fuel ih =>
    intro c c' slice hok h hrun
    rw [ChainBuffer.appendLoop] at hrun
    split_ifs at hrun with hnil
    · cases hrun
      exact h
    · dsimp only at hrun
      have hprepare := appends_prepare hok (max slice.length hint)
      have hprivate := h.prepare hok (max slice.length hint)
      generalize c.prepareAppend (max slice.length hint) = c₁ at hprepare hprivate hrun
      obtain ⟨c₂, hconfirm, hrest⟩ := Option.bind_eq_some_iff.mp hrun
      exact ih (appends_confirm hprepare.ok hconfirm).ok (hprivate.confirm hconfirm) hrest

/-- A slice that becomes a node shares no byte with the others, if it did not before. -/
theorem Private.appendBuffer (hok : Ok c) (h : Private c) {slice : BufferSlice} (hvalid : c.Valid slice ∨ slice = .null)
    (hunshared : slice.size < 1 <<< 8 ∨ slice.size ≤ c.prepareAppendInplace ∨ Unshared c slice)
    (hrun : c.appendBuffer slice = some c') : Private c' := by
  unfold ChainBuffer.appendBuffer at hrun
  split_ifs at hrun with hcopy
  · exact Private.appendLoop _ hok h hrun
  · cases hrun
    have hlarge : ¬slice.size < 1 <<< 8 := fun hlt => hcopy (Or.inl hlt)
    have hnode := (hunshared.resolve_left hlarge).resolve_left fun hle => hcopy (Or.inr hle)
    have hvalid := hvalid.resolve_right (by rintro rfl; exact hlarge (by decide))
    obtain ⟨a, ha, -⟩ := hvalid.buffer
    rw [BufferSlice.size_of_some ha] at hlarge
    refine h.append ⟨slice, false⟩ (fun other hother => ?_) (fun hsync => by cases hsync) rfl
    by_cases hsame : other.slice.buffer = slice.buffer
    · have hbeside := (hnode other hother).resolve_left (not_not.mpr hsame)
      have hwritten : other.slice.written c.raws = slice.written c.raws := BufferSlice.written_congr hsame
      have hlast := hvalid.last
      unfold ChainBufferNode.current at hbeside
      cases hsync : other.syncFlag with
      | true =>
        have hfresh := h.fresh other hother hsync
        rw [hsync, if_pos rfl, hwritten] at hbeside
        dsimp only at hbeside
        omega
      | false =>
        rw [hsync, if_neg Bool.false_ne_true] at hbeside
        exact Or.inr ⟨hsync, rfl, hbeside⟩
    · exact Or.inl hsame

/-! ### Reading node by node -/

/-- A slice just loaded is empty, or the whole node. -/
theorem whole_of_loaded (hok : Ok c) (hp : Private c) (hat : At c it i node)
    (hreader : it.reader = node.slice) :
    it.reader.size = 0 ∨ it.reader.end_ = (node.current c.raws).end_ := by
  cases hsync : node.syncFlag with
  | true =>
    obtain ⟨hbegin, hend⟩ := hp.fresh node hat.mem hsync
    rw [hat.size_reader hok, hreader, hbegin, hend]
    exact Or.inl (Nat.sub_self _)
  | false =>
    right
    rw [hreader]
    unfold ChainBufferNode.current
    rw [if_neg (by simp [hsync])]

/-- What is read next ends where a node ends. -/
theorem prepareReadLoop_whole (hok : Ok c) (hp : Private c) (fuel : ℕ) :
    ∀ {it it' : ChainBufferIterator} {s : BufferSlice} {i : ℕ} {node : ChainBufferNode},
      At c it i node → it.reader.size = 0 ∨ it.reader.end_ = (node.current c.raws).end_ →
      ChainBufferIterator.prepareReadLoop c fuel it = some (it', s) →
      ∃ j < c.nodes.length, c.start j ≤ it.offset ∧ it.offset + s.size = c.start (j + 1) := by
  induction fuel with
  | zero => exact fun _ _ hrun => by cases hrun
  | succ fuel ih =>
    intro it it' s i node hat hwhole hrun
    obtain ⟨head, reader₀, needSync, offset⟩ := it
    obtain rfl : head = some i := hat.head
    obtain ⟨hi, -⟩ := List.getElem?_eq_some_iff.mp hat.standsOn
    have hend : ∀ {reader : BufferSlice},
        At c ⟨some i, reader, needSync, offset⟩ i node → reader.end_ = (node.current c.raws).end_ →
        c.start i ≤ offset ∧ offset + reader.size = c.start (i + 1) := by
      intro reader hat hend
      have hoffset := hat.offset
      have hfirst := hat.first
      have hle := hat.le
      have hsize := hat.size_reader hok
      have hlen := length_content hok hat.mem
      have hstart := start_succ hat.standsOn
      dsimp only at hoffset hfirst hle hsize
      omega
    rw [ChainBufferIterator.prepareReadLoop] at hrun
    dsimp only at hrun hwhole ⊢
    by_cases hsize : reader₀.size ≠ 0
    · rw [if_pos hsize] at hrun
      cases hrun
      exact ⟨i, hi, hend hat (hwhole.resolve_left hsize)⟩
    · obtain ⟨reader, hreader, hat', hlast⟩ := hat.synced hok
      dsimp only at hreader hat'
      rw [if_neg hsize, hreader, Option.bind_some] at hrun
      obtain ⟨hstart, hnext⟩ := hend hat' hlast
      by_cases hsize' : reader.size ≠ 0
      · rw [if_pos hsize'] at hrun
        cases hrun
        exact ⟨i, hi, hstart, hnext⟩
      · have hzero : reader.size = 0 := not_not.mp hsize'
        rw [if_neg hsize'] at hrun
        split_ifs at hrun with hwriter
        · cases hrun
          rw [hzero] at hnext
          exact ⟨i, hi, hstart, hnext⟩
        · have hi' : i + 1 < c.nodes.length := by
            have hne : i + 1 ≠ c.nodes.length := fun h => hwriter (beq_iff_eq.mpr h)
            omega
          have hatEnd : reader.begin_ = (node.current c.raws).end_ := by
            have hle := hat'.le
            have hreaderSize := hat'.size_reader hok
            dsimp only at hle hreaderSize
            omega
          obtain ⟨node', hatNext, hoffset⟩ := hat'.next hok hi' hatEnd
          have hload : c.next i = some (i + 1) := if_pos hi'
          have hreaderNext : (ChainBufferIterator.loadHead c ⟨some i, reader, needSync, offset⟩
              (c.next i)).reader = node'.slice := by
            unfold ChainBufferIterator.loadHead
            rw [hload, Option.bind_some, hatNext.standsOn]
          have hwholeNext := whole_of_loaded hok hp hatNext hreaderNext
          obtain ⟨j, hj, hjstart, hjnext⟩ := ih hatNext hwholeNext hrun
          rw [hoffset] at hjstart hjnext
          exact ⟨j, hj, hjstart, hjnext⟩

theorem prepareRead_whole (hok : Ok c) (hp : Private c) {it' : ChainBufferIterator} {s : BufferSlice}
    (hplaced : Placed c it) (hsize : it.reader.size = 0) (hrun : it.prepareRead c = some (it', s)) :
    ∃ j < c.nodes.length, c.start j ≤ it.offset ∧ it.offset + s.size = c.start (j + 1) := by
  obtain ⟨i, node, hat⟩ := hplaced
  exact prepareReadLoop_whole hok hp _ hat (Or.inl hsize) hrun

end TdUtils.ChainBuffer
