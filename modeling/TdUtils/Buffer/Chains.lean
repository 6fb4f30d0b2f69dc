import TdUtils.Buffer.Writer
import TdUtils.Lib.Machine

/-!
# Buffer.Chains — any number of writers, their chains and their readers

All chains share the buffers: a slice that is read off one chain may become a node of another.  A chain
whose writer is gone ends with an empty node: an iterator on it is one whose `head_` is null.  `Spares` says
which buffers an operation of a writer leaves alone, so that no other chain notices it.
-/

namespace TdUtils

open ChainBuffer

/-- A chain, and what is left of its writer; `tail` is whether `tail_` is set. -/
structure Link where
  nodes : List ChainBufferNode
  writer : Option ℕ
  head : Bool
  tail : Bool
deriving DecidableEq

/-- A reader goes with the number of its chain. -/
structure Chains where
  raws : List BufferRaw
  links : List Link
  readers : List (ℕ × ChainBufferReader)
deriving DecidableEq

namespace Chains

def view (s : Chains) (l : Link) : ChainBuffer := ⟨s.raws, l.nodes, l.writer, l.head⟩

def chain (s : Chains) (k : ℕ) : Option ChainBuffer := s.links[k]?.map s.view

def put (s : Chains) (k : ℕ) (c : ChainBuffer) (tail : Bool) : Chains :=
  { s with raws := c.raws, links := s.links.set k ⟨c.nodes, c.writer, c.head, tail⟩ }

/-- An operation of the writer of chain `k`, with the `CHECK(!empty())`. -/
def write (s : Chains) (k : ℕ) (f : ChainBuffer → Option ChainBuffer) : Option Chains :=
  s.links[k]?.bind fun l => if l.tail then (f (s.view l)).map fun c => s.put k c true else none

/-- An operation of reader `r`. -/
def use (s : Chains) (r : ℕ) (f : ChainBuffer → ChainBufferReader → Option ChainBufferReader) :
    Option Chains :=
  s.readers[r]?.bind fun (k, reader) => (s.chain k).bind fun c => (f c reader).map fun reader =>
    { s with readers := s.readers.set r (k, reader) }

def push (s : Chains) (k : ℕ) (reader : ChainBufferReader) : Chains :=
  { s with readers := s.readers ++ [(k, reader)] }

/-- `ChainBufferWriter()` and `init(size)`. -/
def create (s : Chains) (size : ℕ) : Chains :=
  { s with
    raws := s.raws ++ [.create size]
    links := s.links ++ [⟨[⟨⟨some s.raws.length, 0, 0⟩, true⟩], some s.raws.length, true, true⟩] }

/-- The writer lets go of its last node; the empty node behind it is what iterators have null for. -/
def release (s : Chains) (k : ℕ) : Option Chains :=
  s.links[k]?.bind fun l =>
    if l.tail then some (s.put k
      { s.view l with nodes := l.nodes ++ [⟨⟨some 0, 0, 0⟩, false⟩], writer := none } false)
    else none

/-- The loop of `append(ChainBufferReader)`, of a reader on chain `j`. -/
def appendReaderLoop (k j : ℕ) : ℕ → Chains → ChainBufferReader → Option (Chains × ChainBufferReader)
  | 0, _, _ => none
  | fuel + 1, s, reader =>
    if reader.size = 0 then some (s, reader)
    else
      (s.chain j).bind fun c => (reader.readAsBufferSlice c reader.size).bind fun (reader, slice) =>
        (s.write k fun c => c.appendBuffer slice).bind fun s => appendReaderLoop k j fuel s reader

def appendReader (s : Chains) (k j : ℕ) (reader : ChainBufferReader) :
    Option (Chains × ChainBufferReader) :=
  appendReaderLoop k j (reader.size + 1) s reader

/-- The place where a reader begins, or where it ends. -/
def place (reader : ChainBufferReader) (atEnd : Bool) : ChainBufferIterator :=
  if atEnd then reader.end_ else reader.begin_

/-- `cut_head(pos)` with the place of another reader of the same range. -/
def cutHeadAt (reader : ChainBufferReader) (pos : ChainBufferIterator) :
    ChainBufferReader × ChainBufferReader :=
  ({ reader with begin_ := pos }, ⟨reader.begin_, pos, false⟩)

inductive Op where
  | create (size : UInt64)
  | release (k : ℕ)
  | newBuffer (bytes : List UInt8)
  | append (k : ℕ) (slice : List UInt8) (hint : UInt64)
  | appendBuffer (k : ℕ) (slice : BufferSlice)
  | appendReader (k r : ℕ)
  | prepareAppend (k : ℕ) (hint : UInt64)
  | prepareAppendAtLeast (k : ℕ) (size : UInt64)
  | prepareAppendAlloc (k : ℕ) (hint : UInt64)
  | confirmAppend (k : ℕ) (bytes : List UInt8)
  | extractReader (k : ℕ)
  | clone (r : ℕ)
  | cutHead (r offset : ℕ)
  | cutHeadAt (r q : ℕ) (atEnd : Bool)
  | syncWithWriter (r : ℕ)
  | advanceEnd (r size : ℕ)
  | prepareRead (r : ℕ)
  | confirmRead (r size : ℕ)
  | advance (r offset dest : ℕ)
  | readAsBufferSlice (r limit : ℕ)
  | moveAsBufferSlice (r : ℕ)
deriving DecidableEq

/-- `none` is a failed `CHECK`, a call that does not return or writes outside of the memory of a buffer, a slice that
was never written, or a place outside of the range that it should cut, as that of a null reader is. -/
def step (s : Chains) : Op → Option Chains
  | .create size => some (s.create size.toNat)
  | .release k => s.release k
  | .newBuffer bytes => some { s with raws := s.raws ++ [⟨bytes.length, bytes⟩] }
  | .append k slice hint => s.write k fun c => c.append slice hint.toNat
  | .appendBuffer k slice => if slice.holds s.raws then s.write k fun c => c.appendBuffer slice else none
  | .appendReader k r =>
    s.readers[r]?.bind fun (j, reader) => (s.appendReader k j reader).map fun (s, reader) =>
      { s with readers := s.readers.set r (j, reader) }
  | .prepareAppend k hint => s.write k fun c => some (c.prepareAppend hint.toNat)
  | .prepareAppendAtLeast k size => s.write k fun c => some (c.prepareAppendAtLeast size.toNat)
  | .prepareAppendAlloc k hint => s.write k fun c => some (c.prepareAppendAlloc hint.toNat)
  | .confirmAppend k bytes => s.write k fun c => c.confirmAppend bytes
  | .extractReader k =>
    (s.chain k).bind fun c => c.extractReader.bind fun (_, reader) =>
      (s.write k fun c => some { c with head := false }).map fun s => s.push k reader
  | .clone r => s.readers[r]?.map fun (k, reader) => s.push k reader
  | .cutHead r offset =>
    s.readers[r]?.bind fun (k, reader) => (s.chain k).bind fun c => (reader.cutHead c offset).map
      fun (reader, head) => { s with readers := s.readers.set r (k, reader) ++ [(k, head)] }
  | .cutHeadAt r q atEnd =>
    s.readers[r]?.bind fun (k, reader) => s.readers[q]?.bind fun (j, other) =>
      let pos := place other atEnd
      if k = j ∧ pos.head.isSome = reader.begin_.head.isSome ∧ reader.begin_.offset ≤ pos.offset ∧
          pos.offset ≤ reader.end_.offset then
        let (reader, head) := Chains.cutHeadAt reader pos
        some { s with readers := s.readers.set r (k, reader) ++ [(k, head)] }
      else none
  | .syncWithWriter r => s.use r fun c reader => reader.syncWithWriter c
  | .advanceEnd r size => s.use r fun c reader => reader.advanceEnd c size
  | .prepareRead r => s.use r fun c reader => (reader.prepareRead c).map Prod.fst
  | .confirmRead r size => s.use r fun _ reader => reader.confirmRead size
  | .advance r offset dest => s.use r fun c reader => (reader.advance c offset dest).map Prod.fst
  | .readAsBufferSlice r limit =>
    s.use r fun c reader => (reader.readAsBufferSlice c limit).map Prod.fst
  | .moveAsBufferSlice r => s.use r fun c reader => (reader.moveAsBufferSlice c).map Prod.fst

/-- The room in the buffer of a writer. -/
def room (s : Chains) (k : ℕ) : ℕ := ((s.chain k).map ChainBuffer.prepareAppendInplace).getD 0

/-- The size of a buffer does not wrap when it is rounded up and the header is added, or no new buffer is needed. -/
def Fits (s : Chains) : Op → Prop
  | .create size => size.toNat ≤ 2 ^ 64 - 40
  | .append k slice hint => max slice.length hint.toNat ≤ 2 ^ 64 - 40 ∨ slice.length ≤ s.room k
  | .prepareAppend k hint => hint.toNat ≤ 2 ^ 64 - 40 ∨ 0 < s.room k
  | .prepareAppendAtLeast k size => size.toNat ≤ 2 ^ 64 - 40 ∨ size.toNat ≤ s.room k
  | .prepareAppendAlloc _ hint => hint.toNat ≤ 2 ^ 64 - 40
  | _ => True

instance (s : Chains) (op : Op) : Decidable (Fits s op) := by
  cases op <;> unfold Fits <;> infer_instance

def machine : Lib.Machine Chains Op Unit := ⟨fun s op => (s.step op).map fun s => (s, ())⟩

def start : Chains := ⟨[], [], []⟩

end Chains

namespace ChainBuffer

variable {c c' c'' d : ChainBuffer} {bytes : List UInt8} {slice : BufferSlice}

/-! ### What a writer leaves alone -/

/-- Only the buffer of the writer grows, and what is new in the chain has a new buffer. -/
structure Spares (c c' : ChainBuffer) : Prop where
  length : c.raws.length ≤ c'.raws.length
  same : ∀ b < c.raws.length, c.writer ≠ some b → c'.raws[b]? = c.raws[b]?
  sizes : ∀ b raw', b < c.raws.length → c'.raws[b]? = some raw' →
    ∃ raw, c.raws[b]? = some raw ∧ raw'.dataSize = raw.dataSize
  writer : ∀ b, c'.writer = some b → c.writer = some b ∨ c.raws.length ≤ b
  nodes : ∀ node ∈ c'.nodes, node.syncFlag = true →
    node ∈ c.nodes ∨ ∃ b, node.slice.buffer = some b ∧ c.raws.length ≤ b

theorem Spares.refl (c : ChainBuffer) : Spares c c :=
  ⟨Nat.le_refl _, fun _ _ _ => rfl, fun _ raw _ hraw => ⟨raw, hraw, rfl⟩, fun _ hb => Or.inl hb,
    fun _ hnode _ => Or.inl hnode⟩

/-- New buffers, and nothing else that is not new. -/
theorem spares_append {more : List BufferRaw} (hraws : c'.raws = c.raws ++ more)
    (hwriter : ∀ b, c'.writer = some b → c.writer = some b ∨ c.raws.length ≤ b)
    (hnodes : ∀ node ∈ c'.nodes, node.syncFlag = true →
      node ∈ c.nodes ∨ ∃ b, node.slice.buffer = some b ∧ c.raws.length ≤ b) : Spares c c' := by
  refine ⟨?_, fun b hb _ => ?_, fun b raw' hb hraw' => ⟨raw', ?_, rfl⟩, hwriter, hnodes⟩
  · rw [hraws, List.length_append]
    omega
  · rw [hraws, List.getElem?_append_left hb]
  · rwa [hraws, List.getElem?_append_left hb] at hraw'

theorem Spares.trans (h : Spares c c') (h' : Spares c' c'') : Spares c c'' := by
  refine ⟨Nat.le_trans h.length h'.length, ?_, ?_, ?_, ?_⟩
  · intro b hb hne
    rw [← h.same b hb hne]
    apply h'.same b (Nat.lt_of_lt_of_le hb h.length)
    intro hwriter
    rcases h.writer b hwriter with hold | hnew
    · exact hne hold
    · omega
  · intro b raw'' hb hraw''
    obtain ⟨raw', hraw', hsize'⟩ := h'.sizes b raw'' (Nat.lt_of_lt_of_le hb h.length) hraw''
    obtain ⟨raw, hraw, hsize⟩ := h.sizes b raw' hb hraw'
    exact ⟨raw, hraw, hsize'.trans hsize⟩
  · intro b hb
    rcases h'.writer b hb with hold | hnew
    · exact h.writer b hold
    · exact Or.inr (Nat.le_trans h.length hnew)
  · intro node hnode hsync
    rcases h'.nodes node hnode hsync with hold | ⟨b, hb, hnew⟩
    · exact h.nodes node hold hsync
    · exact Or.inr ⟨b, hb, Nat.le_trans h.length hnew⟩

theorem spares_alloc (c : ChainBuffer) (hint : ℕ) : Spares c (c.prepareAppendAlloc hint) := by
  refine spares_append (by rfl) ?_ ?_
  · intro b hb
    obtain rfl := Option.some.inj hb
    exact Or.inr (Nat.le_refl _)
  · intro node hnode _
    rcases List.mem_append.mp hnode with hold | hnew
    · exact Or.inl hold
    · obtain rfl := List.mem_singleton.mp hnew
      exact Or.inr ⟨_, rfl, Nat.le_refl _⟩

theorem spares_confirm (hrun : c.confirmAppend bytes = some c') : Spares c c' := by
  obtain ⟨-, ⟨rfl, rfl⟩ | ⟨a, hw, rfl⟩⟩ := confirmAppend_cases hrun
  · exact .refl c'
  · refine ⟨Nat.le_of_eq (length_push _ _).symm, ?_, ?_, fun b hb => Or.inl hb, fun node hnode _ => Or.inl hnode⟩
    · intro b _ hne
      have hab : a ≠ b := fun hab => hne (hw.trans (congrArg some hab))
      simp [push, hab]
    · intro b raw' _ hraw'
      unfold push at hraw'
      dsimp only at hraw'
      rw [List.getElem?_modify] at hraw'
      obtain ⟨raw, hraw, rfl⟩ := Option.map_eq_some_iff.mp hraw'
      exact ⟨raw, hraw, by split_ifs <;> rfl⟩

theorem spares_head (c : ChainBuffer) : Spares c { c with head := false } :=
  spares_append (List.append_nil _).symm (fun _ hb => Or.inl hb) fun _ hnode _ => Or.inl hnode

/-- A node that is not synced comes behind the others, and the writer has no buffer. -/
theorem spares_node (c : ChainBuffer) (slice : BufferSlice) :
    Spares c { c with nodes := c.nodes ++ [⟨slice, false⟩], writer := none } := by
  refine spares_append (List.append_nil _).symm (fun b hb => by cases hb) fun node hnode hsync => ?_
  rcases List.mem_append.mp hnode with hold | hnew
  · exact Or.inl hold
  · obtain rfl := List.mem_singleton.mp hnew
    cases hsync

/-- A change that puts bytes behind the stream and leaves the other chains alone. -/
structure Changes (c c' : ChainBuffer) (bytes : List UInt8) : Prop where
  appends : Appends c c' bytes
  spares : Spares c c'

theorem Changes.refl (hok : Ok c) : Changes c c [] := ⟨.refl hok, .refl c⟩

theorem Changes.trans {bytes' : List UInt8} (h : Changes c c' bytes) (h' : Changes c' c'' bytes') :
    Changes c c'' (bytes ++ bytes') :=
  ⟨h.appends.trans h'.appends, h.spares.trans h'.spares⟩

theorem changes_alloc (hok : Ok c) (hint : ℕ) : Changes c (c.prepareAppendAlloc hint) [] :=
  ⟨appends_alloc hok hint, spares_alloc c hint⟩

theorem changes_prepare (hok : Ok c) (hint : ℕ) : Changes c (c.prepareAppend hint) [] := by
  unfold prepareAppend
  split_ifs
  · exact changes_alloc hok hint
  · exact .refl hok

theorem changes_prepareAtLeast (hok : Ok c) (size : ℕ) : Changes c (c.prepareAppendAtLeast size) [] := by
  unfold prepareAppendAtLeast
  split_ifs
  · exact changes_alloc hok size
  · exact .refl hok

theorem changes_confirm (hok : Ok c) (hrun : c.confirmAppend bytes = some c') : Changes c c' bytes :=
  ⟨appends_confirm hok hrun, spares_confirm hrun⟩

/-- Whenever the loop of `append` returns, it has put the slice down. -/
theorem changes_appendLoop {hint : ℕ} (fuel : ℕ) : ∀ {c c' : ChainBuffer} (slice : List UInt8), Ok c →
    appendLoop hint fuel c slice = some c' → Changes c c' slice := by
  induction fuel with
  | zero => exact fun _ _ hrun => by cases hrun
  | succ fuel ih =>
    intro c c' slice hok hrun
    rw [appendLoop] at hrun
    by_cases hnil : slice = []
    · rw [if_pos hnil] at hrun
      obtain rfl := Option.some.inj hrun
      exact hnil ▸ .refl hok
    rw [if_neg hnil] at hrun
    dsimp only at hrun
    obtain ⟨c₁, hconfirm, hrest⟩ := Option.bind_eq_some_iff.mp hrun
    have hprepare := changes_prepare hok (max slice.length hint)
    have hput := changes_confirm hprepare.appends.ok hconfirm
    have hchanges := (hprepare.trans hput).trans (ih _ hput.appends.ok hrest)
    rwa [List.nil_append, List.take_append_drop] at hchanges

theorem changes_append (hok : Ok c) {hint : ℕ} {slice : List UInt8}
    (hrun : c.append slice hint = some c') : Changes c c' slice := changes_appendLoop _ slice hok hrun

theorem changes_node (hok : Ok c) (hvalid : c.Valid slice) :
    Changes c { c with nodes := c.nodes ++ [⟨slice, false⟩], writer := none } (slice.asSlice c.raws) :=
  ⟨appends_slice hok hvalid, spares_node c slice⟩

theorem changes_appendBuffer (hok : Ok c) (hvalid : c.Valid slice ∨ slice = .null)
    (hrun : c.appendBuffer slice = some c') : Changes c c' (slice.asSlice c.raws) := by
  unfold appendBuffer at hrun
  split_ifs at hrun with hcopy
  · exact changes_append hok hrun
  · obtain rfl := Option.some.inj hrun
    rcases hvalid with hvalid | rfl
    · exact changes_node hok hvalid
    · exact absurd (Or.inl (by decide)) hcopy

/-- Another chain, none of whose nodes goes on with the buffer of the writer, stays as it is. -/
theorem Changes.other (h : Changes c c' bytes) (hd : Ok d) (hraws : d.raws = c.raws)
    (hapart : ∀ a, c.writer = some a → ∀ node ∈ d.nodes, node.syncFlag = true →
      node.slice.buffer ≠ some a) :
    Ok { d with raws := c'.raws } ∧ Extends d { d with raws := c'.raws } ∧
      ChainBuffer.contents { d with raws := c'.raws } = d.contents := by
  have hlength : d.raws.length ≤ c'.raws.length := hraws ▸ h.spares.length
  have hgrows : ∀ s : BufferSlice, (∃ a, s.buffer = some a ∧ a < d.raws.length) →
      s.written d.raws <+: s.written c'.raws := by
    rw [hraws]
    exact h.appends.extends.written
  have hvalid := fun node (hnode : node ∈ d.nodes) =>
    valid_of_mem { d with raws := c'.raws } hd hnode hlength (hgrows _ (hd.buffer hnode))
  have hsame : ∀ node ∈ d.nodes, content { d with raws := c'.raws } node = d.content node := by
    intro node hnode
    obtain ⟨b, hb, hlt⟩ := hd.buffer hnode
    cases hflag : node.syncFlag with
    | true =>
      apply content_congr
      unfold BufferSlice.written
      rw [hb]
      dsimp only
      rw [hraws, h.spares.same b (hraws ▸ hlt) fun hw => hapart b hw node hnode hflag hb]
    | false =>
      have hcurrent : ∀ raws, node.current raws = node.slice := fun raws => if_neg (by simp [hflag])
      have hlast := (hd.valid node hnode).last
      rw [hcurrent] at hlast
      obtain ⟨more, hmore⟩ := hgrows node.slice ⟨b, hb, hlt⟩
      unfold content BufferSlice.asSlice
      rw [hcurrent, hcurrent]
      dsimp only
      rw [← hmore, List.take_append_of_le_length hlast]
  refine ⟨⟨fun node hnode => (hvalid node hnode).1, fun node hnode => (hvalid node hnode).2,
    h.appends.ok.raws, ?_⟩, ⟨⟨[], (List.append_nil _).symm⟩, hlength, hgrows, ?_⟩, ?_⟩
  · obtain ⟨init, tail, hnodes, hwriter⟩ := hd.tail
    refine ⟨init, tail, hnodes, fun a ha => ?_⟩
    obtain ⟨hlt, hrest⟩ := hwriter a ha
    exact ⟨Nat.lt_of_lt_of_le hlt hlength, hrest⟩
  · exact fun i node hnode _ => hsame node (List.mem_of_getElem? hnode)
  · exact List.flatMap_congr hsame

end ChainBuffer

end TdUtils
