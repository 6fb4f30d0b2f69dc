import TdUtils.Buffer.Chain
import TdUtils.Buffer.Chains
import TdUtils.Buffer.FindBoundary

/-!
# Buffer.Progress — a reader that is not empty has something to read

`Sound` holds in every state that the calls reach: every chain is well-formed, no chain goes on with the
buffer of another one's writer, and every reader is a cursor on its chain.
-/

namespace TdUtils

open ChainBuffer

namespace ChainBuffer

variable {c : ChainBuffer} {it : ChainBufferIterator} {reader reader' : ChainBufferReader}
  {cursor cursor' : Cursor}

/-- `advance` by any number of bytes stops at the end of the stream. -/
theorem advanceLoop_placed (hok : Ok c) (fuel : ℕ) :
    ∀ {it : ChainBufferIterator} (a : ChainBufferIterator.Advance), Placed c it → a.offset < fuel →
      ∃ it' a', ChainBufferIterator.advanceLoop c fuel it a = some (it', a') ∧ Placed c it' ∧
        it.offset ≤ it'.offset := by
  induction fuel with
  | zero => exact fun a _ hfuel => absurd hfuel (Nat.not_lt_zero _)
  | succ fuel ih =>
    intro it a h hfuel
    rw [ChainBufferIterator.advanceLoop]
    by_cases hzero : a.offset = 0
    · rw [if_pos hzero]
      exact ⟨it, a, rfl, h, Nat.le_refl _⟩
    rw [if_neg hzero]
    obtain ⟨it₁, s, hprepare, hp⟩ := prepareRead_spec hok h
    have hoffset₁ := hp.offset
    rw [hprepare, Option.bind_some]
    dsimp only
    by_cases hsize : s.size = 0
    · rw [if_pos hsize]
      exact ⟨it₁, a, rfl, hp.placed, Nat.le_of_eq hoffset₁.symm⟩
    rw [if_neg hsize]
    have htruncate := s.size_truncate a.offset
    obtain ⟨it₂, hconfirm, hplaced, hoffset₂, -⟩ :=
      confirmRead_spec hok hp.placed (n := (s.truncate a.offset).size) (by
        rw [← hp.size]
        omega)
    rw [hconfirm, Option.bind_some]
    obtain ⟨it', a', hrun, hplaced', hle⟩ := ih
      ⟨a.offset - (s.truncate a.offset).size, a.skipped + (s.truncate a.offset).size,
        a.room - min (s.truncate a.offset).size a.room, a.copied ++
          ((s.truncate a.offset).asSlice c.raws).take (min (s.truncate a.offset).size a.room)⟩
      hplaced (by dsimp only; omega)
    exact ⟨it', a', hrun, hplaced', by omega⟩

theorem Reads.advanceEnd (hok : Ok c) (h : Reads c reader cursor) {n : ℕ}
    (hrun : reader.advanceEnd c n = some reader') : ∃ cursor', Reads c reader' cursor' := by
  obtain ⟨⟨it, res⟩, hadvance, rfl⟩ := Option.map_eq_some_iff.mp hrun
  obtain ⟨⟨it', a⟩, hloop, hpair⟩ := Option.map_eq_some_iff.mp hadvance
  obtain ⟨rfl, -⟩ := Prod.mk.inj hpair
  rcases h with h | h
  · obtain ⟨it'', a', hloop', hplaced, hle⟩ :=
      advanceLoop_placed hok (n + 1) ⟨n, 0, 0, []⟩ h.end_ (Nat.lt_succ_self n)
    obtain ⟨rfl, -⟩ := Prod.mk.inj (Option.some.inj (hloop.symm.trans hloop'))
    have hlimit := h.limit
    have hcursor := h.le
    exact ⟨⟨cursor.pos, it'.offset, reader.syncFlag⟩, Or.inl ⟨h.begin_, hplaced, h.pos, rfl,
      by dsimp only; omega, rfl⟩⟩
  · refine ⟨cursor, Or.inr ⟨h.begin_, ?_, h.pos, h.syncing⟩⟩
    rw [h.end_, ChainBufferIterator.advanceLoop] at hloop
    split_ifs at hloop
    · exact (Prod.mk.inj (Option.some.inj hloop)).1.symm
    · rw [null_prepareRead, Option.bind_some] at hloop
      exact (Prod.mk.inj (Option.some.inj hloop)).1.symm

theorem Reads.of_confirmRead (hok : Ok c) (h : Reads c reader cursor) {n : ℕ}
    (hrun : reader.confirmRead n = some reader') : ∃ cursor', Reads c reader' cursor' := by
  have hsize := h.size_eq
  have hle : n ≤ reader.size ∧ n ≤ reader.begin_.reader.size := by
    unfold ChainBufferReader.confirmRead at hrun
    split_ifs at hrun with hle
    refine ⟨hle, ?_⟩
    obtain ⟨it, hconfirm, -⟩ := Option.map_eq_some_iff.mp hrun
    obtain ⟨slice, hslice, -⟩ := Option.map_eq_some_iff.mp hconfirm
    unfold BufferSlice.confirmRead at hslice
    split_ifs at hslice with hend
    rcases h with h | h
    · obtain ⟨i, node, hat⟩ := h.begin_
      rw [hat.size_reader hok]
      omega
    · have hzero := h.size_eq
      omega
  obtain ⟨r, hconfirm, hreads⟩ := h.confirmRead hok (by omega) hle.2
  obtain rfl := Option.some.inj (hconfirm.symm.trans hrun)
  exact ⟨_, hreads⟩

theorem Reads.of_advance (hok : Ok c) (h : Reads c reader cursor) {n dest : ℕ} {res : ℕ × List UInt8}
    (hrun : reader.advance c n dest = some (reader', res)) : ∃ cursor', Reads c reader' cursor' := by
  have hle : n ≤ reader.size := by
    unfold ChainBufferReader.advance at hrun
    split_ifs at hrun with hle
    exact hle
  obtain ⟨r, hadvance, hreads⟩ := h.advance hok dest (h.size_eq ▸ hle)
  obtain ⟨rfl, -⟩ := Prod.mk.inj (Option.some.inj (hadvance.symm.trans hrun))
  exact ⟨_, hreads⟩

theorem Reads.of_cutHead (hok : Ok c) (h : Reads c reader cursor) {n : ℕ} {head : ChainBufferReader}
    (hrun : reader.cutHead c n = some (reader', head)) :
    (∃ cursor', Reads c reader' cursor') ∧ ∃ cursor', Reads c head cursor' := by
  have hle : n ≤ reader.size := by
    unfold ChainBufferReader.cutHead at hrun
    split_ifs at hrun with hle
    exact hle
  obtain ⟨r, head', hcut, hreads, hhead⟩ := h.cutHead hok (h.size_eq ▸ hle)
  obtain ⟨rfl, rfl⟩ := Prod.mk.inj (Option.some.inj (hcut.symm.trans hrun))
  exact ⟨⟨_, hreads⟩, ⟨_, hhead⟩⟩

/-- The place of a reader is null, or on a node of the chain. -/
theorem Reads.place (h : Reads c reader cursor) (atEnd : Bool) :
    Placed c (Chains.place reader atEnd) ∨ Chains.place reader atEnd = .null := by
  unfold Chains.place
  rcases h with h | h
  · cases atEnd
    · exact Or.inl h.begin_
    · exact Or.inl h.end_
  · cases atEnd
    · exact Or.inr h.begin_
    · exact Or.inr h.end_

/-- A place on the chain cuts a range of it into two. -/
theorem Reads.cutHeadAt (h : Reads c reader cursor) {pos : ChainBufferIterator} (hpos : Placed c pos ∨ pos = .null)
    (hhead : pos.head.isSome = reader.begin_.head.isSome)
    (hfirst : reader.begin_.offset ≤ pos.offset) (hlast : pos.offset ≤ reader.end_.offset) :
    (∃ cursor', Reads c (Chains.cutHeadAt reader pos).1 cursor') ∧
      ∃ cursor', Reads c (Chains.cutHeadAt reader pos).2 cursor' := by
  unfold Chains.cutHeadAt
  rcases h with h | h
  · rcases hpos with hpos | rfl
    · exact ⟨⟨⟨_, _, _⟩, Or.inl ⟨hpos, h.end_, rfl, rfl, hlast, rfl⟩⟩,
        ⟨⟨_, _, _⟩, Or.inl ⟨h.begin_, hpos, rfl, rfl, hfirst, rfl⟩⟩⟩
    · obtain ⟨i, node, hat⟩ := h.begin_
      rw [hat.head] at hhead
      cases hhead
  · rcases hpos with ⟨i, node, hat⟩ | rfl
    · rw [h.begin_, hat.head] at hhead
      cases hhead
    · exact ⟨⟨⟨0, 0, false⟩, Or.inr ⟨rfl, h.end_, rfl, rfl⟩⟩,
        ⟨⟨0, 0, false⟩, Or.inr ⟨h.begin_, rfl, rfl, rfl⟩⟩⟩

end ChainBuffer

namespace Chains

/-- Chain `d` has no node that goes on with the buffer of the writer of `c`. -/
def Apart (c d : ChainBuffer) : Prop :=
  ∀ a, c.writer = some a → ∀ node ∈ d.nodes, node.syncFlag = true → node.slice.buffer ≠ some a

structure Sound (s : Chains) : Prop where
  raws : ∀ raw ∈ s.raws, raw.data.length ≤ raw.dataSize
  ok : ∀ k c, s.chain k = some c → Ok c
  apart : ∀ j k c d, s.chain j = some c → s.chain k = some d → j ≠ k → Apart c d
  reads : ∀ j reader, (j, reader) ∈ s.readers → ∃ c cursor, s.chain j = some c ∧ Reads c reader cursor

variable {s s' : Chains} {j k r : ℕ} {c c' d : ChainBuffer} {bytes : List UInt8} {tail : Bool}
  {reader : ChainBufferReader} {cursor : Cursor} {slice : BufferSlice}

theorem raws_of_chain (h : s.chain k = some c) : c.raws = s.raws := by
  obtain ⟨l, -, rfl⟩ := Option.map_eq_some_iff.mp h
  rfl

/-! ### A chain changes -/

theorem chain_put_self (h : s.chain k = some c) : (s.put k c' tail).chain k = some c' := by
  obtain ⟨l, hl, -⟩ := Option.map_eq_some_iff.mp h
  obtain ⟨hlt, -⟩ := List.getElem?_eq_some_iff.mp hl
  unfold chain put
  dsimp only
  rw [List.getElem?_set_self hlt]
  rfl

theorem chain_put_ne (hne : k ≠ j) (c' : ChainBuffer) (tail : Bool) :
    (s.put k c' tail).chain j = (s.chain j).map fun d => { d with raws := c'.raws } := by
  unfold chain put
  dsimp only
  rw [List.getElem?_set_ne hne, Option.map_map]
  rfl

/-- What the change of chain `k` is for chain `j`. -/
structure Carries (s s' : Chains) (j : ℕ) (d : ChainBuffer) (bytes : List UInt8) : Prop where
  chain : ∃ d', s'.chain j = some d' ∧ Ok d' ∧ Extends d d' ∧ d'.contents = d.contents ++ bytes

theorem Sound.carries (h : Sound s) (hc : s.chain k = some c) (hchanges : Changes c c' bytes)
    (tail : Bool) (hd : s.chain j = some d) :
    ∃ more, Carries s (s.put k c' tail) j d more ∧ (j = k → more = bytes) := by
  by_cases hjk : k = j
  · subst hjk
    obtain rfl := Option.some.inj (hc.symm.trans hd)
    exact ⟨bytes, ⟨c', chain_put_self hc, hchanges.appends.ok, hchanges.appends.extends,
      hchanges.appends.contents⟩, fun _ => rfl⟩
  · have hraws : d.raws = c.raws := (raws_of_chain hd).trans (raws_of_chain hc).symm
    obtain ⟨hok, hextends, hcontents⟩ :=
      hchanges.other (h.ok j d hd) hraws (h.apart k j c d hc hd hjk)
    refine ⟨[], ⟨_, ?_, hok, hextends, hcontents.trans (List.append_nil _).symm⟩, fun hkj => ?_⟩
    · rw [chain_put_ne hjk, hd]
      rfl
    · exact absurd hkj.symm hjk

theorem Sound.put (h : Sound s) (hc : s.chain k = some c) (hchanges : Changes c c' bytes) (tail : Bool) :
    Sound (s.put k c' tail) := by
  -- every chain of the new state comes from the one with its number
  have hback : ∀ j d', (s.put k c' tail).chain j = some d' → ∃ d, s.chain j = some d ∧
      (j = k ∧ d' = c' ∨ j ≠ k ∧ d' = { d with raws := c'.raws }) := by
    intro j d' hd'
    by_cases hjk : k = j
    · subst hjk
      rw [chain_put_self hc] at hd'
      exact ⟨c, hc, Or.inl ⟨rfl, (Option.some.inj hd').symm⟩⟩
    · rw [chain_put_ne hjk] at hd'
      obtain ⟨d, hd, rfl⟩ := Option.map_eq_some_iff.mp hd'
      exact ⟨d, hd, Or.inr ⟨Ne.symm hjk, rfl⟩⟩
  refine ⟨hchanges.appends.ok.raws, ?_, ?_, ?_⟩
  · intro j d' hd'
    obtain ⟨d, hd, -⟩ := hback j d' hd'
    obtain ⟨more, ⟨d'', hd'', hok, -⟩, -⟩ := h.carries hc hchanges tail hd
    obtain rfl := Option.some.inj (hd'.symm.trans hd'')
    exact hok
  · intro i j d' e' hd' he' hij
    obtain ⟨d, hd, hfrom⟩ := hback i d' hd'
    obtain ⟨e, he, hfrom'⟩ := hback j e' he'
    have hold := h.apart i j d e hd he hij
    rcases hfrom with ⟨rfl, rfl⟩ | ⟨-, rfl⟩
    · rcases hfrom' with ⟨rfl, -⟩ | ⟨-, rfl⟩
      · exact absurd rfl hij
      · obtain rfl := Option.some.inj (hc.symm.trans hd)
        intro a ha node hnode hsync hbuffer
        rcases hchanges.spares.writer a ha with hwas | hnew
        · exact hold a hwas node hnode hsync hbuffer
        · obtain ⟨b, hb, hlt⟩ := (h.ok j e he).buffer hnode
          obtain rfl := Option.some.inj (hb.symm.trans hbuffer)
          rw [raws_of_chain he] at hlt
          rw [raws_of_chain hc] at hnew
          omega
    · rcases hfrom' with ⟨rfl, rfl⟩ | ⟨-, rfl⟩
      · obtain rfl := Option.some.inj (hc.symm.trans he)
        intro a ha node hnode hsync hbuffer
        rcases hchanges.spares.nodes node hnode hsync with hwas | ⟨b, hb, hnew⟩
        · exact hold a ha node hwas hsync hbuffer
        · obtain rfl := Option.some.inj (hb.symm.trans hbuffer)
          obtain ⟨init, last, -, hwriter⟩ := (h.ok i d hd).tail
          obtain ⟨hlt, -⟩ := hwriter b ha
          rw [raws_of_chain hd] at hlt
          rw [raws_of_chain hc] at hnew
          omega
      · exact hold
  · intro j reader hreader
    obtain ⟨d, cursor, hd, hreads⟩ := h.reads j reader hreader
    obtain ⟨more, ⟨d', hd', -, hextends, -⟩, -⟩ := h.carries hc hchanges tail hd
    exact ⟨d', cursor, hd', hreads.of_extends (h.ok j d hd) hextends⟩

theorem Sound.write (h : Sound s) {f : ChainBuffer → Option ChainBuffer}
    (hf : ∀ c c', Ok c → c.raws = s.raws → f c = some c' → ∃ bytes, Changes c c' bytes)
    (hrun : s.write k f = some s') : Sound s' := by
  obtain ⟨l, hl, hrun⟩ := Option.bind_eq_some_iff.mp hrun
  split_ifs at hrun
  obtain ⟨c', hc', rfl⟩ := Option.map_eq_some_iff.mp hrun
  have hc : s.chain k = some (s.view l) := by
    unfold chain
    rw [hl]
    rfl
  obtain ⟨bytes, hchanges⟩ := hf _ c' (h.ok k _ hc) rfl hc'
  exact h.put hc hchanges true

/-! ### New buffers and chains -/

theorem valid_congr (hraws : d.raws = c.raws) (h : c.Valid slice) : d.Valid slice :=
  ⟨hraws ▸ h.buffer, h.le, hraws ▸ h.last⟩

/-- New buffers change no chain. -/
theorem changes_raws (hok : Ok c) (raws : List BufferRaw) (hraws : ∀ raw ∈ raws, raw.data.length ≤ raw.dataSize) :
    Changes c { c with raws := c.raws ++ raws } [] := by
  have hvalid := fun node (hnode : node ∈ c.nodes) =>
    valid_of_append { c with raws := c.raws ++ raws } hok hnode rfl
  refine ⟨⟨⟨fun node hnode => (hvalid node hnode).1, fun node hnode => (hvalid node hnode).2, ?_, ?_⟩,
    extends_append hok rfl (List.append_nil _).symm, ?_⟩,
    spares_append rfl (fun _ hb => Or.inl hb) fun _ hnode _ => Or.inl hnode⟩
  · intro raw hraw
    exact (List.mem_append.mp hraw).elim (hok.raws raw) (hraws raw)
  · obtain ⟨init, tail, hnodes, hwriter⟩ := hok.tail
    refine ⟨init, tail, hnodes, fun a ha => ?_⟩
    obtain ⟨hlt, hrest⟩ := hwriter a ha
    refine ⟨?_, hrest⟩
    dsimp only
    rw [List.length_append]
    omega
  · exact contents_append { c with raws := c.raws ++ raws } hok rfl (List.append_nil _).symm

theorem chain_raws (s : Chains) (raws : List BufferRaw) (k : ℕ) :
    ({ s with raws := raws } : Chains).chain k = (s.chain k).map fun c => { c with raws := raws } := by
  unfold chain
  rw [Option.map_map]
  rfl

theorem Sound.newRaws (h : Sound s) (raws : List BufferRaw)
    (hraws : ∀ raw ∈ raws, raw.data.length ≤ raw.dataSize) :
    Sound { s with raws := s.raws ++ raws } := by
  have hback : ∀ k c', ({ s with raws := s.raws ++ raws } : Chains).chain k = some c' →
      ∃ c, s.chain k = some c ∧ c' = { c with raws := c.raws ++ raws } := by
    intro k c' hc'
    rw [chain_raws] at hc'
    obtain ⟨c, hc, rfl⟩ := Option.map_eq_some_iff.mp hc'
    exact ⟨c, hc, by rw [raws_of_chain hc]⟩
  refine ⟨?_, ?_, ?_, ?_⟩
  · intro raw hraw
    exact (List.mem_append.mp hraw).elim (h.raws raw) (hraws raw)
  · intro k c' hc'
    obtain ⟨c, hc, rfl⟩ := hback k c' hc'
    exact (changes_raws (h.ok k c hc) raws hraws).appends.ok
  · intro j k c' d' hc' hd' hjk
    obtain ⟨c, hc, rfl⟩ := hback j c' hc'
    obtain ⟨d, hd, rfl⟩ := hback k d' hd'
    exact h.apart j k c d hc hd hjk
  · intro j reader hreader
    obtain ⟨c, cursor, hc, hreads⟩ := h.reads j reader hreader
    refine ⟨{ c with raws := c.raws ++ raws }, cursor, ?_,
      hreads.of_extends (h.ok j c hc) (changes_raws (h.ok j c hc) raws hraws).appends.extends⟩
    rw [chain_raws, hc, Option.map_some, raws_of_chain hc]

/-- A new chain with its writer. -/
theorem ok_new (raws : List BufferRaw) (size : ℕ)
    (hraws : ∀ raw ∈ raws, raw.data.length ≤ raw.dataSize) (head : Bool) :
    Ok ⟨raws ++ [BufferRaw.create size], [⟨⟨some raws.length, 0, 0⟩, true⟩], some raws.length, head⟩ := by
  have hlt : raws.length < (raws ++ [BufferRaw.create size]).length := by simp
  have hwritten : BufferSlice.written (raws ++ [BufferRaw.create size]) ⟨some raws.length, 0, 0⟩ = [] := by
    simp [BufferSlice.written, BufferRaw.create]
  have hcurrent : ChainBufferNode.current (raws ++ [BufferRaw.create size]) ⟨⟨some raws.length, 0, 0⟩, true⟩ =
      ⟨some raws.length, 0, 0⟩ := by
    unfold ChainBufferNode.current
    rw [hwritten]
    rfl
  refine ⟨?_, ?_, ?_, [], ⟨⟨some raws.length, 0, 0⟩, true⟩, rfl, ?_⟩
  · intro node hnode
    obtain rfl := List.mem_singleton.mp hnode
    dsimp only
    rw [hcurrent]
    exact ⟨⟨_, rfl, hlt⟩, Nat.le_refl _, Nat.zero_le _⟩
  · intro node hnode
    obtain rfl := List.mem_singleton.mp hnode
    exact ⟨Nat.le_refl _, Nat.zero_le _⟩
  · intro raw hraw
    rcases List.mem_append.mp hraw with hold | hnew
    · exact hraws raw hold
    · obtain rfl := List.mem_singleton.mp hnew
      exact Nat.zero_le _
  · intro a ha
    obtain rfl := Option.some.inj ha
    exact ⟨hlt, rfl, rfl, fun node hnode => absurd hnode List.not_mem_nil⟩

theorem roomy_new (raws : List BufferRaw) {size : ℕ} (h : size ≤ 2 ^ 64 - 40) (head : Bool) :
    Roomy ⟨raws ++ [BufferRaw.create size], [⟨⟨some raws.length, 0, 0⟩, true⟩], some raws.length, head⟩ := by
  intro a raw hw hraw
  obtain rfl := Option.some.inj hw
  rw [List.getElem?_append_right (Nat.le_refl _), Nat.sub_self] at hraw
  obtain rfl := Option.some.inj hraw
  exact BufferRaw.le_memory_create h

/-- The chains are the old ones and a new one. -/
theorem chain_create (s : Chains) (size : ℕ) {k : ℕ} {c : ChainBuffer} (hc : (s.create size).chain k = some c) :
    ({ s with raws := s.raws ++ [BufferRaw.create size] } : Chains).chain k = some c ∨ k = s.links.length ∧
      c = ⟨s.raws ++ [BufferRaw.create size], [⟨⟨some s.raws.length, 0, 0⟩, true⟩], some s.raws.length, true⟩ := by
  unfold chain Chains.create at hc
  dsimp only at hc
  rcases Nat.lt_trichotomy k s.links.length with hlt | rfl | hgt
  · rw [List.getElem?_append_left hlt] at hc
    exact Or.inl hc
  · rw [List.getElem?_append_right (Nat.le_refl _), Nat.sub_self] at hc
    exact Or.inr ⟨rfl, (Option.some.inj hc).symm⟩
  · rw [List.getElem?_eq_none (by rw [List.length_append, List.length_singleton]; omega)] at hc
    cases hc

theorem Sound.create (h : Sound s) (size : ℕ) : Sound (s.create size) := by
  have hnew := ok_new s.raws size h.raws true
  have hgrown := h.newRaws [.create size] fun raw hraw => hnew.raws raw (List.mem_append_right _ hraw)
  have hold : ∀ k < s.links.length, (s.create size).chain k =
      ({ s with raws := s.raws ++ [BufferRaw.create size] } : Chains).chain k := by
    intro k hk
    unfold chain Chains.create
    dsimp only
    rw [List.getElem?_append_left hk]
    rfl
  have hback := fun k c => chain_create s size (k := k) (c := c)
  -- what the old chains have is below the new buffer
  have hbelow : ∀ k c, ({ s with raws := s.raws ++ [BufferRaw.create size] } : Chains).chain k = some c →
      (∀ a, c.writer = some a → a < s.raws.length) ∧
        ∀ node ∈ c.nodes, ∃ b, node.slice.buffer = some b ∧ b < s.raws.length := by
    intro k c hc
    rw [chain_raws] at hc
    obtain ⟨d, hd, rfl⟩ := Option.map_eq_some_iff.mp hc
    have hraws := raws_of_chain hd
    obtain ⟨init, last, -, hwriter⟩ := (h.ok k d hd).tail
    exact ⟨fun a ha => hraws ▸ (hwriter a ha).1, fun node hnode => hraws ▸ (h.ok k d hd).buffer hnode⟩
  refine ⟨hnew.raws, ?_, ?_, ?_⟩
  · intro k c hc
    rcases hback k c hc with hc | ⟨-, rfl⟩
    · exact hgrown.ok k c hc
    · exact hnew
  · intro j k c d hc hd hjk
    rcases hback j c hc with hc | ⟨rfl, rfl⟩
    · rcases hback k d hd with hd | ⟨-, rfl⟩
      · exact hgrown.apart j k c d hc hd hjk
      · intro a ha node hnode _ hbuffer
        obtain rfl := List.mem_singleton.mp hnode
        obtain rfl := Option.some.inj hbuffer
        exact absurd ((hbelow j c hc).1 _ ha) (Nat.lt_irrefl _)
    · rcases hback k d hd with hd | ⟨rfl, -⟩
      · intro a ha node hnode _ hbuffer
        obtain rfl := Option.some.inj ha
        obtain ⟨b, hb, hlt⟩ := (hbelow k d hd).2 node hnode
        obtain rfl := Option.some.inj (hb.symm.trans hbuffer)
        exact Nat.lt_irrefl _ hlt
      · exact absurd rfl hjk
  · intro j reader hreader
    obtain ⟨c, cursor, hc, hreads⟩ := hgrown.reads j reader hreader
    refine ⟨c, cursor, ?_, hreads⟩
    obtain ⟨l, hl, -⟩ := Option.map_eq_some_iff.mp hc
    obtain ⟨hlt, -⟩ := List.getElem?_eq_some_iff.mp hl
    exact (hold j hlt).trans hc

/-- A chain loses its writer: the empty node behind it is no change of the stream. -/
theorem Sound.release (h : Sound s) (hrun : s.release k = some s') : Sound s' := by
  obtain ⟨l, hl, hrun⟩ := Option.bind_eq_some_iff.mp hrun
  split_ifs at hrun
  obtain rfl := Option.some.inj hrun
  have hc : s.chain k = some (s.view l) := by
    unfold chain
    rw [hl]
    rfl
  have hok := h.ok k _ hc
  obtain ⟨init, last, hnodes, -⟩ := hok.tail
  have hlast : last ∈ _ := hnodes ▸ List.mem_append_right init (List.mem_singleton_self last)
  obtain ⟨b, -, hlt⟩ := hok.buffer hlast
  have hvalid : (s.view l).Valid ⟨some 0, 0, 0⟩ :=
    ⟨⟨0, rfl, Nat.lt_of_le_of_lt (Nat.zero_le _) hlt⟩, Nat.le_refl _, Nat.zero_le _⟩
  exact h.put hc (changes_node hok hvalid) false

/-! ### Readers -/

theorem Sound.use (h : Sound s) {f : ChainBuffer → ChainBufferReader → Option ChainBufferReader}
    (hf : ∀ c reader reader' cursor, Ok c → Reads c reader cursor → f c reader = some reader' →
      ∃ cursor', Reads c reader' cursor')
    (hrun : s.use r f = some s') : Sound s' := by
  obtain ⟨⟨k, reader⟩, hreader, hrun⟩ := Option.bind_eq_some_iff.mp hrun
  obtain ⟨c, hc, hrun⟩ := Option.bind_eq_some_iff.mp hrun
  obtain ⟨reader', hused, rfl⟩ := Option.map_eq_some_iff.mp hrun
  obtain ⟨c', cursor, hc', hreads⟩ := h.reads k reader (List.mem_of_getElem? hreader)
  obtain rfl := Option.some.inj (hc.symm.trans hc')
  obtain ⟨cursor', hreads'⟩ := hf c reader reader' cursor (h.ok k c hc) hreads hused
  refine ⟨h.raws, h.ok, h.apart, fun j other hother => ?_⟩
  rcases List.mem_or_eq_of_mem_set hother with hold | hnew
  · exact h.reads j other hold
  · obtain ⟨rfl, rfl⟩ := Prod.mk.inj hnew
    exact ⟨c, cursor', hc, hreads'⟩

theorem Sound.push (h : Sound s) (hc : s.chain k = some c) (hreads : Reads c reader cursor) :
    Sound (s.push k reader) := by
  refine ⟨h.raws, h.ok, h.apart, fun j other hother => ?_⟩
  rcases List.mem_append.mp hother with hold | hnew
  · exact h.reads j other hold
  · obtain ⟨rfl, rfl⟩ := Prod.mk.inj (List.mem_singleton.mp hnew)
    exact ⟨c, cursor, hc, hreads⟩

/-- A reader is used up to some place, and another one is made of what it left. -/
theorem Sound.cut (h : Sound s) (hc : s.chain k = some c) {head : ChainBufferReader} {cursor' : Cursor}
    (hreads : Reads c reader cursor) (hhead : Reads c head cursor') (r : ℕ) :
    Sound { s with readers := s.readers.set r (k, reader) ++ [(k, head)] } := by
  refine ⟨h.raws, h.ok, h.apart, fun j other hother => ?_⟩
  rcases List.mem_append.mp hother with hold | hnew
  · rcases List.mem_or_eq_of_mem_set hold with hold | hnew
    · exact h.reads j other hold
    · obtain ⟨rfl, rfl⟩ := Prod.mk.inj hnew
      exact ⟨c, cursor, hc, hreads⟩
  · obtain ⟨rfl, rfl⟩ := Prod.mk.inj (List.mem_singleton.mp hnew)
    exact ⟨c, cursor', hc, hhead⟩

/-! ### `append(ChainBufferReader)` -/

/-- The writer of chain `k` is there. -/
def Open (s : Chains) (k : ℕ) : Prop := ∃ l, s.links[k]? = some l ∧ l.tail = true

theorem open_put (h : Open s k) (c : ChainBuffer) : Open (s.put k c true) k := by
  obtain ⟨l, hl, -⟩ := h
  obtain ⟨hlt, -⟩ := List.getElem?_eq_some_iff.mp hl
  exact ⟨_, List.getElem?_set_self hlt, rfl⟩

theorem write_of_open (h : Open s k) (hc : s.chain k = some c) {f : ChainBuffer → Option ChainBuffer}
    (hf : f c = some c') : s.write k f = some (s.put k c' true) := by
  obtain ⟨l, hl, htail⟩ := h
  unfold chain at hc
  rw [hl] at hc
  obtain rfl := Option.some.inj hc
  unfold write
  rw [hl, Option.bind_some, if_pos htail, hf]
  rfl

/-- One round of the loop: the slice goes over to chain `k`, and the rest is still in front of the reader. -/
theorem Sound.round (h : Sound s) (hc : s.chain j = some c) (hd : s.chain k = some d) (hreads : Reads c reader cursor)
    (hsize : reader.size ≠ 0) :
    ∃ reader' slice, reader.readAsBufferSlice c reader.size = some (reader', slice) ∧
      (d.Valid slice ∨ slice = .null) ∧ (cursor.move slice.size).size < cursor.size ∧
      ∀ d', d.appendBuffer slice = some d' → Sound (s.put k d' true) ∧
        ∃ c', (s.put k d' true).chain j = some c' ∧ Reads c' reader' (cursor.move slice.size) ∧
          d'.contents ++ (cursor.move slice.size).data c'.contents = d.contents ++ cursor.data c.contents := by
  have hok := h.ok j c hc
  obtain ⟨reader', slice, hread, hreads', hvalid, hmax, hmin, hslice⟩ := hreads.readAsBufferSlice hok reader.size
  have hraws : d.raws = c.raws := (raws_of_chain hd).trans (raws_of_chain hc).symm
  have hvalid' : d.Valid slice ∨ slice = .null := hvalid.imp_left (valid_congr hraws)
  have hcursor := hreads.size_eq
  have hmoved := cursor.size_move slice.size
  refine ⟨reader', slice, hread, hvalid', by omega, fun d' happend => ?_⟩
  have hchanges := changes_appendBuffer (h.ok k d hd) hvalid' happend
  obtain ⟨more, ⟨c', hc', -, hextends, hcontents⟩, -⟩ := h.carries hd hchanges true hc
  refine ⟨h.put hd hchanges true, c', hc', hreads'.of_extends hok hextends, ?_⟩
  have hrest : (cursor.move slice.size).data c'.contents = (cursor.data c.contents).drop slice.size := by
    rw [hcontents]
    unfold Cursor.data
    rw [hreads'.peek_append hok more (Nat.le_refl _)]
    exact cursor.data_move c.contents slice.size
  rw [hchanges.appends.contents, hrest, hraws, hslice, List.append_assoc, ← cursor.take_data c.contents (by omega),
    List.take_append_drop]

/-- A loop that returns has taken everything that the reader sees over to chain `k`. -/
theorem appendReaderLoop_inv (fuel : ℕ) : ∀ {s s' : Chains} {reader reader' : ChainBufferReader} {cursor : Cursor}
    {c : ChainBuffer}, Sound s → s.chain j = some c → Reads c reader cursor →
    appendReaderLoop k j fuel s reader = some (s', reader') →
    Sound s' ∧ reader'.size = 0 ∧ (∃ c' cursor', s'.chain j = some c' ∧ Reads c' reader' cursor') ∧
      ∀ d, s.chain k = some d → ∃ d', s'.chain k = some d' ∧ d'.contents = d.contents ++ cursor.data c.contents := by
  induction fuel with
  | zero => exact fun _ _ _ hrun => by cases hrun
  | succ fuel ih =>
    intro s s' reader reader' cursor c h hc hreads hrun
    rw [appendReaderLoop] at hrun
    by_cases hzero : reader.size = 0
    · rw [if_pos hzero] at hrun
      obtain ⟨rfl, rfl⟩ := Prod.mk.inj (Option.some.inj hrun)
      have hnil : cursor.data c.contents = [] := by
        apply List.eq_nil_of_length_eq_zero
        rw [hreads.length_data (h.ok j c hc), ← hreads.size_eq, hzero]
      exact ⟨h, hzero, ⟨c, cursor, hc, hreads⟩, fun d hd => ⟨d, hd, by rw [hnil, List.append_nil]⟩⟩
    rw [if_neg hzero, hc, Option.bind_some] at hrun
    obtain ⟨⟨reader₁, slice⟩, hread, hrun⟩ := Option.bind_eq_some_iff.mp hrun
    obtain ⟨s₁, hwrite, hrest⟩ := Option.bind_eq_some_iff.mp hrun
    obtain ⟨l, hl, hwrite⟩ := Option.bind_eq_some_iff.mp hwrite
    split_ifs at hwrite
    obtain ⟨d₁, happend, rfl⟩ := Option.map_eq_some_iff.mp hwrite
    have hd : s.chain k = some (s.view l) := congrArg (Option.map s.view) hl
    obtain ⟨r₁, slice', hread', -, -, hround⟩ := h.round hc hd hreads hzero
    obtain ⟨rfl, rfl⟩ := Prod.mk.inj (Option.some.inj (hread.symm.trans hread'))
    obtain ⟨h₁, c₁, hc₁, hreads₁, hcontents₁⟩ := hround d₁ happend
    obtain ⟨h', hzero', hc', hdata⟩ := ih h₁ hc₁ hreads₁ hrest
    refine ⟨h', hzero', hc', fun d hd' => ?_⟩
    obtain rfl := Option.some.inj (hd.symm.trans hd')
    obtain ⟨d', hd', hcontents'⟩ := hdata d₁ (chain_put_self hd)
    exact ⟨d', hd', hcontents'.trans hcontents₁⟩

theorem Sound.appendReader (h : Sound s) (hreader : s.readers[r]? = some (j, reader)) {s'' : Chains}
    (hrun : s.appendReader k j reader = some (s'', reader')) :
    Sound { s'' with readers := s''.readers.set r (j, reader') } := by
  obtain ⟨c, cursor, hc, hreads⟩ := h.reads j reader (List.mem_of_getElem? hreader)
  obtain ⟨hsound, -, ⟨c', cursor', hc', hreads'⟩, -⟩ := appendReaderLoop_inv _ h hc hreads hrun
  refine ⟨hsound.raws, hsound.ok, hsound.apart, fun i other hother => ?_⟩
  rcases List.mem_or_eq_of_mem_set hother with hold | hnew
  · exact hsound.reads i other hold
  · obtain ⟨rfl, rfl⟩ := Prod.mk.inj hnew
    exact ⟨c', cursor', hc', hreads'⟩

/-! ### Steps and runs -/

theorem Sound.step (h : Sound s) {op : Op} (hrun : s.step op = some s') : Sound s' := by
  cases op with
  | create size =>
    obtain rfl := Option.some.inj hrun
    exact h.create size.toNat
  | release k => exact h.release hrun
  | newBuffer bytes =>
    obtain rfl := Option.some.inj hrun
    refine h.newRaws _ fun raw hraw => ?_
    obtain rfl := List.mem_singleton.mp hraw
    exact Nat.le_refl _
  | append k slice hint => exact h.write (fun c c' hok _ hf => ⟨_, changes_append hok hf⟩) hrun
  | appendBuffer k slice =>
    unfold Chains.step at hrun
    dsimp only at hrun
    split_ifs at hrun with hholds
    exact h.write (fun c c' hok hraws hf => ⟨_, changes_appendBuffer hok (valid_of_holds (hraws ▸ hholds)) hf⟩) hrun
  | appendReader k r =>
    obtain ⟨⟨j, reader⟩, hreader, hrun⟩ := Option.bind_eq_some_iff.mp hrun
    obtain ⟨⟨s'', reader'⟩, happend, rfl⟩ := Option.map_eq_some_iff.mp hrun
    exact h.appendReader hreader happend
  | prepareAppend k hint =>
    have hwrite : s.write k (fun c => some (c.prepareAppend hint.toNat)) = some s' := hrun
    refine h.write (fun c c' hok _ hf => ⟨[], ?_⟩) hwrite
    exact Option.some.inj hf ▸ changes_prepare hok _
  | prepareAppendAtLeast k size =>
    have hwrite : s.write k (fun c => some (c.prepareAppendAtLeast size.toNat)) = some s' := hrun
    refine h.write (fun c c' hok _ hf => ⟨[], ?_⟩) hwrite
    exact Option.some.inj hf ▸ changes_prepareAtLeast hok _
  | prepareAppendAlloc k hint =>
    have hwrite : s.write k (fun c => some (c.prepareAppendAlloc hint.toNat)) = some s' := hrun
    refine h.write (fun c c' hok _ hf => ⟨[], ?_⟩) hwrite
    exact Option.some.inj hf ▸ changes_alloc hok _
  | confirmAppend k bytes => exact h.write (fun c c' hok _ hf => ⟨_, changes_confirm hok hf⟩) hrun
  | extractReader k =>
    obtain ⟨c, hc, hrun⟩ := Option.bind_eq_some_iff.mp hrun
    obtain ⟨⟨c₁, reader⟩, hextract, hrun⟩ := Option.bind_eq_some_iff.mp hrun
    obtain ⟨s₁, hwrite, rfl⟩ := Option.map_eq_some_iff.mp hrun
    have hhead : c.head = true := by
      unfold ChainBuffer.extractReader at hextract
      split_ifs at hextract with hhead
      exact hhead
    have hok := h.ok k c hc
    obtain ⟨reader', hextract', hreads⟩ := Chain.extractReader_spec hok hhead
    obtain ⟨-, rfl⟩ := Prod.mk.inj (Option.some.inj (hextract.symm.trans hextract'))
    have hchanges : Changes c { c with head := false } [] := ⟨appends_head hok, spares_head c⟩
    obtain ⟨l, hl, hwrite⟩ := Option.bind_eq_some_iff.mp hwrite
    split_ifs at hwrite
    obtain rfl := Option.some.inj hwrite
    unfold chain at hc
    rw [hl] at hc
    obtain rfl := Option.some.inj hc
    have hc : s.chain k = some (s.view l) := by
      unfold chain
      rw [hl]
      rfl
    exact (h.put hc hchanges true).push (chain_put_self hc)
      (hreads.of_extends hok hchanges.appends.extends)
  | clone r =>
    obtain ⟨⟨k, reader⟩, hreader, rfl⟩ := Option.map_eq_some_iff.mp hrun
    obtain ⟨c, cursor, hc, hreads⟩ := h.reads k reader (List.mem_of_getElem? hreader)
    exact h.push hc hreads
  | cutHead r offset =>
    obtain ⟨⟨k, reader⟩, hreader, hrun⟩ := Option.bind_eq_some_iff.mp hrun
    obtain ⟨c, hc, hrun⟩ := Option.bind_eq_some_iff.mp hrun
    obtain ⟨⟨reader', head⟩, hcut, rfl⟩ := Option.map_eq_some_iff.mp hrun
    obtain ⟨c', cursor, hc', hreads⟩ := h.reads k reader (List.mem_of_getElem? hreader)
    obtain rfl := Option.some.inj (hc.symm.trans hc')
    obtain ⟨⟨cursor₁, hreads₁⟩, cursor₂, hreads₂⟩ := hreads.of_cutHead (h.ok k c hc) hcut
    exact h.cut hc hreads₁ hreads₂ r
  | cutHeadAt r q atEnd =>
    obtain ⟨⟨k, reader⟩, hreader, hrun⟩ := Option.bind_eq_some_iff.mp hrun
    obtain ⟨⟨j, other⟩, hother, hrun⟩ := Option.bind_eq_some_iff.mp hrun
    dsimp only at hrun
    split_ifs at hrun with hrange
    obtain ⟨rfl, hhead, hfirst, hlast⟩ := hrange
    obtain rfl := Option.some.inj hrun
    obtain ⟨c, cursor, hc, hreads⟩ := h.reads k reader (List.mem_of_getElem? hreader)
    obtain ⟨c', cursor', hc', hreads'⟩ := h.reads k other (List.mem_of_getElem? hother)
    obtain rfl := Option.some.inj (hc.symm.trans hc')
    obtain ⟨⟨cursor₁, hreads₁⟩, cursor₂, hreads₂⟩ := hreads.cutHeadAt (hreads'.place atEnd) hhead hfirst hlast
    exact h.cut hc hreads₁ hreads₂ r
  | syncWithWriter r =>
    refine h.use (fun c reader reader' cursor hok hreads hf => ?_) hrun
    obtain ⟨r', hsync, hreads'⟩ := hreads.sync hok
    exact ⟨_, Option.some.inj (hsync.symm.trans hf) ▸ hreads'⟩
  | advanceEnd r size => exact h.use (fun c reader reader' cursor hok hreads hf => hreads.advanceEnd hok hf) hrun
  | prepareRead r =>
    have huse : s.use r (fun c reader => (reader.prepareRead c).map Prod.fst) = some s' := hrun
    refine h.use (fun c reader reader' cursor hok hreads hf => ?_) huse
    obtain ⟨r', slice, n, hprepare, hreads', -⟩ := hreads.prepareRead hok
    rw [hprepare] at hf
    exact ⟨cursor, Option.some.inj hf ▸ hreads'⟩
  | confirmRead r size =>
    exact h.use (fun c reader reader' cursor hok hreads hf => hreads.of_confirmRead hok hf) hrun
  | advance r offset dest =>
    have huse : s.use r (fun c reader => (reader.advance c offset dest).map Prod.fst) = some s' := hrun
    refine h.use (fun c reader reader' cursor hok hreads hf => ?_) huse
    obtain ⟨⟨r', res⟩, hadvance, rfl⟩ := Option.map_eq_some_iff.mp hf
    exact hreads.of_advance hok hadvance
  | readAsBufferSlice r limit =>
    have huse : s.use r (fun c reader => (reader.readAsBufferSlice c limit).map Prod.fst) = some s' := hrun
    refine h.use (fun c reader reader' cursor hok hreads hf => ?_) huse
    obtain ⟨r', slice, hread, hreads', -⟩ := hreads.readAsBufferSlice hok limit
    rw [hread] at hf
    obtain rfl : r' = reader' := Option.some.inj hf
    exact ⟨_, hreads'⟩
  | moveAsBufferSlice r =>
    have huse : s.use r (fun c reader => (reader.moveAsBufferSlice c).map Prod.fst) = some s' := hrun
    refine h.use (fun c reader reader' cursor hok hreads hf => ?_) huse
    rw [hreads.moveAsBufferSlice hok] at hf
    obtain rfl : ChainBufferReader.null = reader' := Option.some.inj hf
    exact ⟨_, reads_null cursor⟩

theorem sound_start : Sound start := by
  refine ⟨List.forall_mem_nil _, ?_, ?_, fun j reader hreader => absurd hreader List.not_mem_nil⟩
  · intro k c hc
    cases hc
  · intro j k c d hc
    cases hc

theorem sound_of_run (ops : List Op) {answers : List Unit}
    (hrun : machine.run start ops = some (s, answers)) : Sound s := by
  refine Lib.Machine.run_inv (P := Sound) ?_ ops sound_start hrun
  intro s op s' o h hstep
  obtain ⟨s'', hs, heq⟩ := Option.map_eq_some_iff.mp hstep
  obtain ⟨rfl, -⟩ := Prod.mk.inj heq
  exact h.step hs

/-! ### Buffers that have the memory that they say they have -/

structure Solid (s : Chains) : Prop extends Sound s where
  roomy : ∀ k c, s.chain k = some c → Roomy c

theorem room_of_chain (h : s.chain k = some c) : s.room k = c.prepareAppendInplace := by
  unfold room
  rw [h]
  rfl

/-- Only chain `k` may have a new buffer for its writer. -/
theorem Solid.roomy_put (h : Solid s) (hc : s.chain k = some c) (hspares : Spares c c') (hroomy : Roomy c')
    (tail : Bool) (hd : (s.put k c' tail).chain j = some d) : Roomy d := by
  by_cases hjk : k = j
  · subst hjk
    obtain rfl := Option.some.inj ((chain_put_self hc).symm.trans hd)
    exact hroomy
  · rw [chain_put_ne hjk] at hd
    obtain ⟨e, he, rfl⟩ := Option.map_eq_some_iff.mp hd
    refine (h.roomy j e he).of_sizes (h.ok j e he) ?_
    rw [(raws_of_chain he).trans (raws_of_chain hc).symm]
    exact hspares.sizes

theorem Solid.roomy_write (h : Solid s) {f : ChainBuffer → Option ChainBuffer}
    (hf : ∀ c c', s.chain k = some c → Ok c → Roomy c → f c = some c' → Spares c c' ∧ Roomy c')
    (hrun : s.write k f = some s') (hd : s'.chain j = some d) : Roomy d := by
  obtain ⟨l, hl, hrun⟩ := Option.bind_eq_some_iff.mp hrun
  split_ifs at hrun
  obtain ⟨c', hc', rfl⟩ := Option.map_eq_some_iff.mp hrun
  have hc : s.chain k = some (s.view l) := congrArg (Option.map s.view) hl
  obtain ⟨hspares, hroomy⟩ := hf _ c' hc (h.ok k _ hc) (h.roomy k _ hc) hc'
  exact h.roomy_put hc hspares hroomy true hd

theorem Solid.roomy_raws (h : Solid s) (raws : List BufferRaw)
    (hd : ({ s with raws := s.raws ++ raws } : Chains).chain j = some d) : Roomy d := by
  rw [chain_raws] at hd
  obtain ⟨e, he, rfl⟩ := Option.map_eq_some_iff.mp hd
  refine (h.roomy j e he).of_sizes (h.ok j e he) fun b raw hb hraw => ⟨raw, ?_, rfl⟩
  rw [raws_of_chain he] at hb ⊢
  rwa [List.getElem?_append_left hb] at hraw

/-- The loop of `append(ChainBufferReader)` ends. -/
theorem exists_appendReaderLoop (fuel : ℕ) : ∀ {s : Chains} {reader : ChainBufferReader} {cursor : Cursor}
    {c : ChainBuffer}, Solid s → Open s k → s.chain j = some c → Reads c reader cursor → cursor.size < fuel →
    ∃ s' reader', appendReaderLoop k j fuel s reader = some (s', reader') ∧ Solid s' := by
  induction fuel with
  | zero => exact fun _ _ _ _ hfuel => absurd hfuel (Nat.not_lt_zero _)
  | succ fuel ih =>
    intro s reader cursor c h hopen hc hreads hfuel
    rw [appendReaderLoop]
    by_cases hzero : reader.size = 0
    · rw [if_pos hzero]
      exact ⟨s, reader, rfl, h⟩
    obtain ⟨l, hl, -⟩ := id hopen
    have hd : s.chain k = some (s.view l) := congrArg (Option.map s.view) hl
    obtain ⟨reader₁, slice, hread, hvalid, hless, hround⟩ := h.toSound.round hc hd hreads hzero
    obtain ⟨d₁, happend, -, hroomy⟩ := appendBuffer_spec (h.ok k _ hd) (h.roomy k _ hd) hvalid
    obtain ⟨h₁, c₁, hc₁, hreads₁, -⟩ := hround d₁ happend
    have hspares := (changes_appendBuffer (h.ok k _ hd) hvalid happend).spares
    rw [if_neg hzero, hc, Option.bind_some, hread, Option.bind_some]
    dsimp only
    rw [write_of_open hopen hd happend, Option.bind_some]
    exact ih ⟨h₁, fun i e he => h.roomy_put hd hspares hroomy true he⟩ (open_put hopen d₁) hc₁ hreads₁ (by omega)

/-- A loop that returns went through the writer, if there was anything to append. -/
theorem open_of_appendReader {s'' : Chains} (hrun : s.appendReader k j reader = some (s'', reader'))
    (hsize : reader.size ≠ 0) : Open s k := by
  unfold appendReader at hrun
  rw [appendReaderLoop, if_neg hsize] at hrun
  obtain ⟨c, -, hrun⟩ := Option.bind_eq_some_iff.mp hrun
  obtain ⟨⟨r, slice⟩, -, hrun⟩ := Option.bind_eq_some_iff.mp hrun
  obtain ⟨s₁, hwrite, -⟩ := Option.bind_eq_some_iff.mp hrun
  obtain ⟨l, hl, hrun⟩ := Option.bind_eq_some_iff.mp hwrite
  split_ifs at hrun with htail
  exact ⟨l, hl, htail⟩

theorem Solid.appendReader (h : Solid s) (hreader : s.readers[r]? = some (j, reader)) {s'' : Chains}
    (hrun : s.appendReader k j reader = some (s'', reader')) : Solid s'' := by
  obtain ⟨c, cursor, hc, hreads⟩ := h.reads j reader (List.mem_of_getElem? hreader)
  by_cases hzero : reader.size = 0
  · unfold Chains.appendReader at hrun
    rw [appendReaderLoop, if_pos hzero] at hrun
    obtain ⟨rfl, -⟩ := Prod.mk.inj (Option.some.inj hrun)
    exact h
  · obtain ⟨s₁, reader₁, hrun₁, h₁⟩ := exists_appendReaderLoop (reader.size + 1) h (open_of_appendReader hrun hzero) hc
      hreads (by rw [hreads.size_eq]; omega)
    obtain ⟨rfl, -⟩ := Prod.mk.inj (Option.some.inj (hrun.symm.trans hrun₁))
    exact h₁

theorem Solid.step (h : Solid s) {op : Op} (hfits : Fits s op) (hrun : s.step op = some s') : Solid s' := by
  refine ⟨h.toSound.step hrun, fun j d hd => ?_⟩
  have huse : ∀ {r f}, s.use r f = some s' → Roomy d := by
    intro r f hused
    obtain ⟨_, -, hused⟩ := Option.bind_eq_some_iff.mp hused
    obtain ⟨_, -, hused⟩ := Option.bind_eq_some_iff.mp hused
    obtain ⟨_, -, rfl⟩ := Option.map_eq_some_iff.mp hused
    exact h.roomy j d hd
  cases op with
  | create size =>
    obtain rfl := Option.some.inj hrun
    rcases chain_create s size.toNat hd with hold | ⟨-, rfl⟩
    · exact h.roomy_raws _ hold
    · exact roomy_new s.raws hfits true
  | release k =>
    obtain ⟨l, hl, hrun⟩ := Option.bind_eq_some_iff.mp hrun
    split_ifs at hrun
    obtain rfl := Option.some.inj hrun
    have hc : s.chain k = some (s.view l) := congrArg (Option.map s.view) hl
    exact h.roomy_put hc (spares_node _ _) (roomy_of_none rfl) false hd
  | newBuffer bytes =>
    obtain rfl := Option.some.inj hrun
    exact h.roomy_raws _ hd
  | append k slice hint =>
    refine h.roomy_write (f := fun c => c.append slice hint.toNat) (fun c c' hc hok hroomy hf => ?_) hrun hd
    have hroom := room_of_chain hc
    obtain ⟨c₁, hrun₁, -, hroomy₁⟩ := append_spec hok hroomy slice hint.toNat (hroom ▸ hfits)
    obtain rfl := Option.some.inj (hf.symm.trans hrun₁)
    exact ⟨(changes_append hok hf).spares, hroomy₁⟩
  | appendBuffer k slice =>
    unfold Chains.step at hrun
    dsimp only at hrun
    split_ifs at hrun with hholds
    refine h.roomy_write (fun c c' hc hok hroomy hf => ?_) hrun hd
    have hvalid := valid_of_holds (raws_of_chain hc ▸ hholds)
    obtain ⟨c₁, hrun₁, -, hroomy₁⟩ := appendBuffer_spec hok hroomy hvalid
    obtain rfl := Option.some.inj (hf.symm.trans hrun₁)
    exact ⟨(changes_appendBuffer hok hvalid hf).spares, hroomy₁⟩
  | appendReader k r =>
    obtain ⟨⟨i, reader⟩, hreader, hrun⟩ := Option.bind_eq_some_iff.mp hrun
    obtain ⟨⟨s'', reader'⟩, happend, rfl⟩ := Option.map_eq_some_iff.mp hrun
    exact (h.appendReader hreader happend).roomy j d hd
  | prepareAppend k hint =>
    refine h.roomy_write (f := fun c => some (c.prepareAppend hint.toNat)) (fun c c' hc hok hroomy hf => ?_) hrun hd
    obtain rfl := Option.some.inj hf
    exact ⟨(changes_prepare hok _).spares, hroomy.prepare (room_of_chain hc ▸ hfits)⟩
  | prepareAppendAtLeast k size =>
    refine h.roomy_write (f := fun c => some (c.prepareAppendAtLeast size.toNat))
      (fun c c' hc hok hroomy hf => ?_) hrun hd
    obtain rfl := Option.some.inj hf
    exact ⟨(changes_prepareAtLeast hok _).spares, hroomy.prepareAtLeast (room_of_chain hc ▸ hfits)⟩
  | prepareAppendAlloc k hint =>
    refine h.roomy_write (f := fun c => some (c.prepareAppendAlloc hint.toNat)) (fun c c' hc hok hroomy hf => ?_) hrun hd
    obtain rfl := Option.some.inj hf
    exact ⟨spares_alloc c _, roomy_alloc c hfits⟩
  | confirmAppend k bytes =>
    exact h.roomy_write (fun c c' _ _ hroomy hf => ⟨spares_confirm hf, hroomy.confirm hf⟩) hrun hd
  | extractReader k =>
    obtain ⟨c, hc, hrun⟩ := Option.bind_eq_some_iff.mp hrun
    obtain ⟨⟨c₁, reader⟩, -, hrun⟩ := Option.bind_eq_some_iff.mp hrun
    obtain ⟨s₁, hwrite, rfl⟩ := Option.map_eq_some_iff.mp hrun
    refine h.roomy_write (f := fun c => some { c with head := false }) (fun c c' _ _ hroomy hf => ?_) hwrite hd
    obtain rfl := Option.some.inj hf
    exact ⟨spares_head c, hroomy⟩
  | clone r =>
    obtain ⟨_, -, rfl⟩ := Option.map_eq_some_iff.mp hrun
    exact h.roomy j d hd
  | cutHead r offset =>
    obtain ⟨_, -, hrun⟩ := Option.bind_eq_some_iff.mp hrun
    obtain ⟨_, -, hrun⟩ := Option.bind_eq_some_iff.mp hrun
    obtain ⟨_, -, rfl⟩ := Option.map_eq_some_iff.mp hrun
    exact h.roomy j d hd
  | cutHeadAt r q atEnd =>
    obtain ⟨_, -, hrun⟩ := Option.bind_eq_some_iff.mp hrun
    obtain ⟨_, -, hrun⟩ := Option.bind_eq_some_iff.mp hrun
    dsimp only at hrun
    split_ifs at hrun
    obtain rfl := Option.some.inj hrun
    exact h.roomy j d hd
  | syncWithWriter | advanceEnd | prepareRead | confirmRead | advance | readAsBufferSlice | moveAsBufferSlice =>
    unfold Chains.step at hrun
    exact huse hrun

theorem solid_of_run (ops : List Op) {answers : List Unit} (hfits : machine.Along Fits start ops)
    (hrun : machine.run start ops = some (s, answers)) : Solid s := by
  refine Lib.Machine.run_inv_along (P := Solid) ?_ ops ⟨sound_start, fun k c hc => by cases hc⟩ hfits hrun
  intro s op s' o h hfits hstep
  obtain ⟨s'', hs, heq⟩ := Option.map_eq_some_iff.mp hstep
  obtain ⟨rfl, -⟩ := Prod.mk.inj heq
  exact h.step hfits hs

/-- What a reader that is not empty can do: go on, also through whole loops. -/
structure Progresses (s : Chains) (c : ChainBuffer) (j : ℕ) (reader : ChainBufferReader) : Prop where
  prepareRead : 0 < reader.size →
    ∃ reader' slice, reader.prepareRead c = some (reader', slice) ∧ 0 < slice.size
  readAsBufferSlice : ∀ limit, 0 < reader.size → 0 < limit →
    ∃ reader' slice, reader.readAsBufferSlice c limit = some (reader', slice) ∧ 0 < slice.size
  advance : ∀ offset dest, offset ≤ reader.size →
    ∃ reader' copied, reader.advance c offset dest = some (reader', offset, copied) ∧
      reader'.size = reader.size - offset
  findBoundary : ∀ boundary alreadyRead, boundary ≠ [] →
    boundary.length ≤ ChainBufferReader.maxBoundary → alreadyRead ≤ reader.size →
    ∃ found, reader.findBoundary c boundary alreadyRead = some found
  appendReader : ∀ k d, Open s k → s.chain k = some d →
    ∃ s' reader' d', s.appendReader k j reader = some (s', reader') ∧ reader'.size = 0 ∧
      s'.chain k = some d' ∧
      d'.contents = d.contents ++ (c.contents.drop reader.begin_.offset).take reader.size ∧
      ((c.contents.drop reader.begin_.offset).take reader.size).length = reader.size

theorem Solid.progresses (h : Solid s) (hc : s.chain j = some c) (hreads : Reads c reader cursor) :
    Progresses s c j reader := by
  have hok := h.ok j c hc
  have hsize := hreads.size_eq
  constructor
  case prepareRead =>
    intro hpos
    obtain ⟨r', slice, n, hprepare, -, -, hn, -, hslice, -⟩ := hreads.prepareRead hok
    exact ⟨r', slice, hprepare, hslice ▸ hn (hsize ▸ hpos)⟩
  case readAsBufferSlice =>
    intro limit hpos hlimit
    obtain ⟨r', slice, hread, -, -, -, hslice, -⟩ := hreads.readAsBufferSlice hok limit
    exact ⟨r', slice, hread, hslice (by omega)⟩
  case advance =>
    intro offset dest hle
    obtain ⟨r', hadvance, hreads'⟩ := hreads.advance hok dest (hsize ▸ hle)
    refine ⟨r', _, hadvance, ?_⟩
    rw [hreads'.size_eq, cursor.size_move, hsize]
  case findBoundary =>
    intro boundary alreadyRead hne hlen hle
    obtain ⟨found, k, hfind, -⟩ := findBoundary_spec hok hreads hne hlen alreadyRead (hsize ▸ hle)
    exact ⟨_, hfind⟩
  case appendReader =>
    intro k d hopen hd
    obtain ⟨s', r', hrun, -⟩ := exists_appendReaderLoop (k := k) (reader.size + 1) h hopen hc hreads (by omega)
    obtain ⟨-, hzero, -, hdata⟩ := appendReaderLoop_inv _ h.toSound hc hreads hrun
    obtain ⟨d', hd', hcontents⟩ := hdata d hd
    have hfront : cursor.data c.contents =
        (c.contents.drop reader.begin_.offset).take reader.size := by
      unfold Cursor.data Cursor.peek
      rw [← hsize]
      rcases hreads with hlive | hnull
      · rw [hlive.pos]
      · rw [hnull.size_eq, List.take_zero, List.take_zero]
    refine ⟨s', r', d', hrun, hzero, hd', hfront ▸ hcontents, ?_⟩
    rw [← hfront, hreads.length_data hok, hsize]

/-- In every state that writers and readers reach with buffers whose sizes do not wrap, every reader can go on while
it is not empty: it gets a slice that is not empty, and the loops over it end. -/
theorem reader_progresses (ops : List Op) (answers : List Unit) (hfits : machine.Along Fits start ops)
    (hrun : machine.run start ops = some (s, answers)) (hreader : s.readers[r]? = some (j, reader)) :
    ∃ c, s.chain j = some c ∧ Progresses s c j reader := by
  have h := solid_of_run ops hfits hrun
  obtain ⟨c, cursor, hc, hreads⟩ := h.reads j reader (List.mem_of_getElem? hreader)
  exact ⟨c, hc, h.progresses hc hreads⟩

/-- The reader is on a node that was read to its end, and the empty nodes behind it come before a byte. -/
theorem reader_progresses_behind : ∃ c, Chains.chain ⟨[⟨512, [7]⟩, ⟨4096, []⟩, ⟨4096, [8]⟩],
      [⟨[⟨⟨some 0, 0, 0⟩, true⟩, ⟨⟨some 1, 0, 0⟩, true⟩, ⟨⟨some 2, 0, 0⟩, true⟩], some 2, false, true⟩],
      [(0, ⟨⟨some 0, ⟨some 0, 1, 1⟩, true, 1⟩, ⟨some 2, ⟨some 2, 1, 1⟩, true, 2⟩, true⟩)]⟩ 0 = some c ∧
    Progresses ⟨[⟨512, [7]⟩, ⟨4096, []⟩, ⟨4096, [8]⟩],
      [⟨[⟨⟨some 0, 0, 0⟩, true⟩, ⟨⟨some 1, 0, 0⟩, true⟩, ⟨⟨some 2, 0, 0⟩, true⟩], some 2, false, true⟩],
      [(0, ⟨⟨some 0, ⟨some 0, 1, 1⟩, true, 1⟩, ⟨some 2, ⟨some 2, 1, 1⟩, true, 2⟩, true⟩)]⟩ c 0
      ⟨⟨some 0, ⟨some 0, 1, 1⟩, true, 1⟩, ⟨some 2, ⟨some 2, 1, 1⟩, true, 2⟩, true⟩ :=
  reader_progresses (r := 0) [.create 0, .extractReader 0, .append 0 [7] 0, .syncWithWriter 0, .prepareRead 0,
    .confirmRead 0 1, .prepareAppendAlloc 0 0, .prepareAppendAlloc 0 0, .append 0 [8] 0, .syncWithWriter 0]
    (List.replicate 10 ()) (by decide +kernel) (by decide +kernel) rfl

/-- A writer with a buffer of `2 ^ 64 - 8` bytes, in a block of 40, cannot take over the nine bytes of a reader. -/
theorem append_reader_overruns : ¬∀ (ops : List Op) (answers : List Unit) (s : Chains) (r j : ℕ)
    (reader : ChainBufferReader), machine.run start ops = some (s, answers) → s.readers[r]? = some (j, reader) →
    ∃ c, s.chain j = some c ∧ Progresses s c j reader := by
  intro hall
  have hrun : (machine.run start [.create 0, .append 0 [1, 2, 3, 4, 5, 6, 7, 8, 9] 0, .extractReader 0, .create 0,
      .prepareAppendAlloc 1 0xfffffffffffffff8]).isSome = true := by decide +kernel
  obtain ⟨⟨s, answers⟩, hrun⟩ := Option.isSome_iff_exists.mp hrun
  have hnone : ((machine.run start [.create 0, .append 0 [1, 2, 3, 4, 5, 6, 7, 8, 9] 0, .extractReader 0, .create 0,
      .prepareAppendAlloc 1 0xfffffffffffffff8]).bind fun run => run.1.readers[0]?.bind fun r =>
        if r.2.size = 9 ∧ (run.1.appendReader 1 r.1 r.2).isNone ∧ (run.1.links[1]?.map Link.tail) = some true then
          some r.1 else none) = some 0 := by decide +kernel
  rw [hrun, Option.bind_some] at hnone
  dsimp only at hnone
  obtain ⟨⟨j, reader⟩, hreader, hif⟩ := Option.bind_eq_some_iff.mp hnone
  dsimp only at hif
  split_ifs at hif with hfails
  obtain ⟨-, hstuck, htail⟩ := hfails
  obtain ⟨l, hl, hopen⟩ := Option.map_eq_some_iff.mp htail
  obtain ⟨c, -, hprogresses⟩ := hall _ answers s 0 j reader hrun hreader
  obtain ⟨s', reader', d', happend, -⟩ := hprogresses.appendReader 1 (s.view l) ⟨l, hl, hopen⟩
    (congrArg (Option.map s.view) hl)
  rw [happend] at hstuck
  cases hstuck

/-! ### The search -/

/-- What a reader has in front of it. -/
def inFront (c : ChainBuffer) (reader : ChainBufferReader) : List UInt8 :=
  (c.contents.drop reader.begin_.offset).take reader.size

def OccursAt (data boundary : List UInt8) (p : ℕ) : Prop := Begins boundary (data.drop p)

theorem inFront_eq (hreads : Reads c reader cursor) : inFront c reader = cursor.data c.contents := by
  have hsize := hreads.size_eq
  unfold inFront Cursor.data Cursor.peek
  rw [← hsize]
  rcases hreads with hlive | hnull
  · rw [hlive.pos]
  · rw [hnull.size_eq, List.take_zero, List.take_zero]

/-- A search that found nothing has stopped before everything that is too short for the boundary. -/
theorem not_occurs_behind {boundary data : List UInt8} {k i : ℕ} (hne : boundary ≠ [])
    (h : Searched boundary data false k) (hi : k ≤ i) : ¬ OccursAt data boundary i := by
  intro hoccurs
  have hlen := hoccurs.length_le
  have hpos := List.length_pos_iff.mpr hne
  have hbegins : ¬ Begins boundary (data.drop k) := fun hb => by
    have hfound := h.found.mpr hb
    cases hfound
  rw [List.length_drop] at hlen
  rcases h.stops with hnil | ⟨-, hshort | hb⟩
  · rw [List.drop_eq_nil_iff] at hnil
    omega
  · rw [List.length_drop] at hshort
    omega
  · exact hbegins hb

/-- A search from where an earlier one stopped, after more bytes have come, is one from where the earlier
one started. -/
theorem Searched.resume {boundary data more : List UInt8} {start k k' : ℕ} {found found' : Bool}
    (hstart : start ≤ data.length) (h : Searched boundary (data.drop start) found k)
    (h' : Searched boundary ((data ++ more).drop (start + k)) found' k') :
    Searched boundary ((data ++ more).drop start) found' (k + k') := by
  have hle := h.le
  have hdrop : (data ++ more).drop start = data.drop start ++ more :=
    List.drop_append_of_le_length hstart
  rw [← List.drop_drop] at h'
  refine ChainBuffer.Searched.skip ?_ ?_ h'
  · rw [hdrop, List.length_append]
    omega
  · intro i hi
    rw [hdrop, List.drop_append_of_le_length (by omega)]
    exact not_stops_append (h.passed i hi) more

/-- What `find_boundary` answers for a start, and what a later call makes of it. -/
structure Finds (c : ChainBuffer) (reader : ChainBufferReader) (boundary : List UInt8) (alreadyRead : ℕ)
    (found : Bool) (position : ℕ) : Prop where
  run : reader.findBoundary c boundary alreadyRead = some (found, position)
  iff : found = true ↔ ∃ p, alreadyRead ≤ p ∧ OccursAt (inFront c reader) boundary p
  first : found = true → alreadyRead ≤ position ∧ OccursAt (inFront c reader) boundary position ∧
    ∀ p, alreadyRead ≤ p → p < position → ¬ OccursAt (inFront c reader) boundary p
  range : alreadyRead ≤ position ∧ position ≤ reader.size
  passed : found = false → ∀ (more : List UInt8) (p : ℕ), alreadyRead ≤ p → p < position →
    ¬ OccursAt (inFront c reader ++ more) boundary p
  resume : found = false → ∀ (ops : List Op) (s : Chains) (answers : List Unit) (r j : ℕ)
    (reader' : ChainBufferReader) (c' : ChainBuffer) (more : List UInt8),
    machine.run start ops = some (s, answers) → s.readers[r]? = some (j, reader') →
    s.chain j = some c' → inFront c' reader' = inFront c reader ++ more →
    reader'.findBoundary c' boundary position = reader'.findBoundary c' boundary alreadyRead

theorem finds_of_reads (hok : Ok c) (hreads : Reads c reader cursor) {boundary : List UInt8}
    (hne : boundary ≠ []) (hlen : boundary.length ≤ ChainBufferReader.maxBoundary) {alreadyRead : ℕ}
    (halready : alreadyRead ≤ reader.size) :
    ∃ found position, Finds c reader boundary alreadyRead found position := by
  have hsize := hreads.size_eq
  have hdata := hreads.length_data hok
  obtain ⟨found, k, hrun, hsearched⟩ := findBoundary_spec hok hreads hne hlen alreadyRead (hsize ▸ halready)
  rw [← inFront_eq hreads] at hsearched hdata
  have hle := hsearched.le
  rw [List.length_drop] at hle
  have hat : ∀ i, Begins boundary (((inFront c reader).drop alreadyRead).drop i) ↔
      OccursAt (inFront c reader) boundary (alreadyRead + i) := fun i => by
    rw [List.drop_drop]
    rfl
  have hpassed : ∀ i < k, ¬ OccursAt (inFront c reader) boundary (alreadyRead + i) := fun i hi hoccurs =>
    hsearched.passed i hi (((hat i).mpr hoccurs).stops hne)
  have hfirst : ∀ p, alreadyRead ≤ p → p < alreadyRead + k → ¬ OccursAt (inFront c reader) boundary p := by
    intro p hp hlt
    obtain ⟨i, rfl⟩ := Nat.exists_eq_add_of_le hp
    exact hpassed i (by omega)
  refine ⟨found, alreadyRead + k, hrun, ?_, ?_, ⟨Nat.le_add_right _ _, by omega⟩, ?_, ?_⟩
  · constructor
    · intro hfound
      exact ⟨alreadyRead + k, Nat.le_add_right _ _, (hat k).mp (hsearched.found.mp hfound)⟩
    · rintro ⟨p, hp, hoccurs⟩
      by_contra hnot
      rw [Bool.not_eq_true] at hnot
      subst hnot
      obtain ⟨i, rfl⟩ := Nat.exists_eq_add_of_le hp
      rcases Nat.lt_or_ge i k with hlt | hge
      · exact hpassed i hlt hoccurs
      · exact not_occurs_behind hne hsearched hge ((hat i).mpr hoccurs)
  · intro hfound
    exact ⟨Nat.le_add_right _ _, (hat k).mp (hsearched.found.mp hfound), hfirst⟩
  · intro _ more p hp hlt hoccurs
    obtain ⟨i, rfl⟩ := Nat.exists_eq_add_of_le hp
    have hnot := not_stops_append (hsearched.passed i (by omega)) more
    rw [List.drop_drop] at hnot
    unfold OccursAt at hoccurs
    rw [List.drop_append_of_le_length (by omega)] at hoccurs
    exact hnot (hoccurs.stops hne)
  · intro _ ops s answers r j reader' c' more hrun' hreader' hc' hmore
    have h := sound_of_run ops hrun'
    obtain ⟨c'', cursor', hc'', hreads'⟩ := h.reads j reader' (List.mem_of_getElem? hreader')
    obtain rfl := Option.some.inj (hc'.symm.trans hc'')
    have hok' := h.ok j c' hc'
    have hsize' : (inFront c reader).length + more.length = cursor'.size := by
      rw [← List.length_append, ← hmore, inFront_eq hreads', hreads'.length_data hok']
    obtain ⟨found₁, k₁, hrun₁, hsearched₁⟩ := findBoundary_spec hok' hreads' hne hlen
      alreadyRead (by omega)
    obtain ⟨found₂, k₂, hrun₂, hsearched₂⟩ := findBoundary_spec hok' hreads' hne hlen
      (alreadyRead + k) (by omega)
    rw [← inFront_eq hreads', hmore] at hsearched₁ hsearched₂
    obtain ⟨rfl, rfl⟩ := hsearched₁.unique (Searched.resume (by omega) hsearched hsearched₂)
    rw [hrun₁, hrun₂, Nat.add_assoc]

/-- `find_boundary` on any reader that any calls lead to. -/
theorem findBoundary_finds (ops : List Op) (answers : List Unit)
    (hrun : machine.run start ops = some (s, answers)) (hreader : s.readers[r]? = some (j, reader))
    {boundary : List UInt8} (hne : boundary ≠ [])
    (hlen : boundary.length ≤ ChainBufferReader.maxBoundary) {alreadyRead : ℕ}
    (halready : alreadyRead ≤ reader.size) :
    ∃ c found position, s.chain j = some c ∧ Finds c reader boundary alreadyRead found position := by
  have h := sound_of_run ops hrun
  obtain ⟨c, cursor, hc, hreads⟩ := h.reads j reader (List.mem_of_getElem? hreader)
  obtain ⟨found, position, hfinds⟩ := finds_of_reads (h.ok j c hc) hreads hne hlen halready
  exact ⟨c, found, position, hc, hfinds⟩

/-- A boundary of two bytes that is cut by the end of a buffer. -/
theorem findBoundary_finds_cut : ∃ c found position, Chains.chain
      ⟨[⟨512, [13]⟩, ⟨4096, [10]⟩], [⟨[⟨⟨some 0, 0, 0⟩, true⟩, ⟨⟨some 1, 0, 0⟩, true⟩], some 1, false, true⟩],
        [(0, ⟨⟨some 0, ⟨some 0, 0, 0⟩, true, 0⟩, ⟨some 1, ⟨some 1, 1, 1⟩, true, 2⟩, true⟩)]⟩ 0 = some c ∧
    Finds c ⟨⟨some 0, ⟨some 0, 0, 0⟩, true, 0⟩, ⟨some 1, ⟨some 1, 1, 1⟩, true, 2⟩, true⟩ [13, 10] 0
      found position :=
  findBoundary_finds (r := 0) [.create 0, .extractReader 0, .append 0 [13] 0, .prepareAppendAlloc 0 0,
    .append 0 [10] 0, .syncWithWriter 0] (List.replicate 6 ()) (by decide +kernel) rfl
    (by decide) (by decide) (by decide)

end Chains

end TdUtils
