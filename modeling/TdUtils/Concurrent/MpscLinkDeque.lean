import TdUtils.Concurrent.MpscLinkQueue
import TdUtils.Lib.LinkedList

/-!
# Concurrent.MpscLinkDeque — the reader of the queue has a deque

A node is pushed or delayed once until it is read.  So every node is in one list only, and the pointers of a
list change only where the list does.
-/

namespace TdUtils.MpscLinkQueue

open Lib (Links)

variable {ι ν : Type}

/-! ### What the pointers stand for -/

/-- The list of the reader; its tail matters only while there is one. -/
structure Whole (next : ν → Option ν) (head tail : Option ν) (nodes : List ν) : Prop where
  links : Links next head nodes
  tail : nodes ≠ [] → tail = nodes.getLast?

/-- In the loop of `add` the popped nodes are in two lists, one of them already reversed. -/
def Reading (s : MpscLinkQueue ι ν) (nodes : List ν) : Prop :=
  match s.reader with
  | .idle => Whole s.next s.readerHead s.readerTail nodes
  | .reverse node head tail => ∃ old todo done, nodes = old ++ (todo.reverse ++ done) ∧
      Whole s.next s.readerHead s.readerTail old ∧ Links s.next node todo ∧ Links s.next head done ∧
      (todo.reverse ++ done).getLast? = some tail
  | .count it res => Whole s.next s.readerHead s.readerTail nodes ∧
      ∃ front rest, nodes = front ++ rest ∧ res = front.length ∧ Links s.next it rest

/-- The deque that a state stands for; a node is in one place only. -/
structure Rep (s : MpscLinkQueue ι ν) (d : Deque ν) : Prop where
  stack : Links s.next s.head d.pending.reverse
  reading : Reading s d.nodes
  nodup : (d.pending ++ d.nodes).Nodup
  flying : ∀ i node, s.pusher i = .exchange node → node ∉ d.pending ++ d.nodes
  apart : ∀ i j node, s.pusher i = .exchange node → s.pusher j = .exchange node → i = j

/-- Somewhere in the queue, in the deque or with a pusher. -/
def Used (s : MpscLinkQueue ι ν) (d : Deque ν) (node : ν) : Prop :=
  node ∈ d.pending ++ d.nodes ∨ ∃ i, s.pusher i = .exchange node

variable {s t : MpscLinkQueue ι ν} {d : Deque ν} {node : ν}

theorem Whole.congr {next next' : ν → Option ν} {head tail : Option ν} {nodes : List ν}
    (h : Whole next head tail nodes) (hsame : ∀ n ∈ nodes, next' n = next n) : Whole next' head tail nodes :=
  ⟨h.links.congr hsame, h.tail⟩

/-- The reader does not see what happens to nodes that are not its own. -/
theorem Reading.congr {nodes : List ν} (h : Reading s nodes) (hreader : t.reader = s.reader)
    (hhead : t.readerHead = s.readerHead) (htail : t.readerTail = s.readerTail)
    (hsame : ∀ n ∈ nodes, t.next n = s.next n) : Reading t nodes := by
  unfold Reading at h ⊢
  rw [hreader, hhead, htail]
  cases hat : s.reader with
  | idle =>
    rw [hat] at h
    exact Whole.congr h hsame
  | reverse node head tail =>
    rw [hat] at h
    obtain ⟨old, todo, done, rfl, hold, htodo, hdone, hlast⟩ := h
    refine ⟨old, todo, done, rfl, hold.congr fun n hn => hsame n ?_, htodo.congr fun n hn => hsame n ?_,
      hdone.congr fun n hn => hsame n ?_, hlast⟩ <;> simp [hn]
  | count it res =>
    rw [hat] at h
    obtain ⟨hwhole, front, rest, rfl, hres, hrest⟩ := h
    exact ⟨hwhole.congr hsame, front, rest, rfl, hres, hrest.congr fun n hn => hsame n (by simp [hn])⟩

theorem Rep.whole (h : Rep s d) (hat : s.reader = .idle) :
    Whole s.next s.readerHead s.readerTail d.nodes := by
  have hreading := h.reading
  unfold Reading at hreading
  rwa [hat] at hreading

/-- A node enters once for every time it is read or is still there. -/
theorem Change.perm {d' : Deque ν} {e : Event ι ν × Answer ν} (h : Change d e d') :
    (entered [e] ++ (d.nodes ++ d.pending)).Perm (left [e] ++ (d'.nodes ++ d'.pending)) := by
  cases h with
  | nothing event => cases event <;> exact .refl _
  | started event => cases event <;> exact .refl _
  | pushed i node =>
    show (node :: (d.nodes ++ d.pending)).Perm (d.nodes ++ (d.pending ++ [node]))
    rw [← List.append_assoc]
    exact (List.perm_append_singleton node _).symm
  | popped =>
    show (d.nodes ++ d.pending).Perm (d.nodes ++ d.pending ++ [])
    rw [List.append_nil]
  | read =>
    obtain ⟨pending, nodes⟩ := d
    cases nodes with
    | nil => exact .refl _
    | cons node rest => exact .refl _
  | delayed node => exact .refl _
  | size => exact .refl _

theorem Follows.perm [DecidableEq ι] {history : List (Event ι ν × Answer ν)} {k : Calls ι ν}
    (h : Follows history d k) : (entered history).Perm (left history ++ (d.nodes ++ d.pending)) := by
  induction h with
  | nil => exact .refl _
  | concat h he hk ih =>
    rename_i history d d' k k' e
    have hentered : entered (history ++ [e]) = entered history ++ entered [e] := List.filterMap_append
    have hleft : left (history ++ [e]) = left history ++ left [e] := List.filterMap_append
    rw [hentered, hleft, List.append_assoc]
    have hstep := (List.perm_append_comm.trans he.perm).append_left (left history)
    refine (ih.append_right _).trans ?_
    rw [List.append_assoc]
    exact hstep

theorem rep_start : Rep (start ι ν) ⟨[], []⟩ :=
  ⟨rfl, ⟨rfl, fun hne => absurd rfl hne⟩, List.nodup_nil, fun _ _ h => (by cases h), fun _ _ _ h => by cases h⟩

variable [DecidableEq ν]

theorem Whole.attach {next : ν → Option ν} {head : Option ν} {oldHead oldTail : Option ν}
    {old done : List ν} {tail : ν} (h : Whole next oldHead oldTail old) (hdone : Links next head done)
    (hlast : done.getLast? = some tail) (hnodup : (old ++ done).Nodup) (hold : old ≠ []) :
    ∃ last ∈ old, oldTail = some last ∧
      Whole (Function.update next last head) oldHead (some tail) (old ++ done) := by
  obtain ⟨init, last, rfl⟩ := List.eq_nil_or_concat' old |>.resolve_left hold
  refine ⟨last, by simp, (h.tail hold).trans List.getLast?_concat, ?_, ?_⟩
  · rw [List.nodup_append] at hnodup
    obtain ⟨hinit, -, hapart⟩ := hnodup
    refine h.links.splice hdone ?_ fun hmem => hapart last (by simp) last hmem rfl
    intro hmem
    rw [List.nodup_append] at hinit
    exact hinit.2.2 last hmem last (by simp) rfl
  · intro _
    rw [List.getLast?_append, hlast]
    rfl

/-! ### Steps -/

/-- A step is a change of the deque, and every node in use afterwards was in use or is put into use by it. -/
structure Advances (s : MpscLinkQueue ι ν) (d : Deque ν) (e : Event ι ν × Answer ν) (t : MpscLinkQueue ι ν) :
    Prop where
  change : ∃ d', Change d e d' ∧ Rep t d' ∧
    ∀ n, Used t d' n → ∀ h, (Used s d n → h = true) → holds n h e = true

theorem advances_of_same {event : Event ι ν} {answer : Answer ν} (hchange : Change d (event, answer) d)
    (hrep : Rep t d) (hused : ∀ n, Used t d n → Used s d n) (hquiet : ∀ n h, holds n h (event, answer) = h) :
    Advances s d (event, answer) t := by
  refine ⟨d, hchange, hrep, ?_⟩
  intro n hn h hold
  rw [hquiet]
  exact hold (hused n hn)

/-- Nothing happens. -/
theorem Rep.idle (h : Rep s d) (event : Event ι ν) : Advances s d (event, .nothing) s := by
  refine advances_of_same (.nothing d event) h (fun _ hn => hn) ?_
  intro n h
  cases event <;> rfl

theorem Rep.push [DecidableEq ι] (h : Rep s d) {i : ι} (hnode : ¬Used s d node) :
    Advances s d (.push i node, .started) { s with
      next := Function.update s.next node s.head
      pusher := Function.update s.pusher i (.exchange node) } := by
  unfold Used at hnode
  rw [not_or] at hnode
  obtain ⟨hout, hfree⟩ := hnode
  have hpusher : ∀ j n, Function.update s.pusher i (.exchange node) j = .exchange n →
      (j = i ∧ n = node) ∨ (j ≠ i ∧ s.pusher j = .exchange n) := by
    intro j n hj
    by_cases hji : j = i
    · subst hji
      rw [Function.update_self] at hj
      exact Or.inl ⟨rfl, (PusherAt.exchange.inj hj).symm⟩
    · rw [Function.update_of_ne hji] at hj
      exact Or.inr ⟨hji, hj⟩
  have hsame : ∀ n ∈ d.pending ++ d.nodes, Function.update s.next node s.head n = s.next n :=
    fun n hn => Function.update_of_ne (ne_of_mem_of_not_mem hn hout) _ _
  refine ⟨d, .started d _, ⟨?_, ?_, h.nodup, ?_, ?_⟩, ?_⟩
  · exact h.stack.congr fun n hn => hsame n (List.mem_append_left _ (List.mem_reverse.mp hn))
  · exact h.reading.congr rfl rfl rfl fun n hn => hsame n (List.mem_append_right _ hn)
  · intro j n hj
    rcases hpusher j n hj with ⟨-, rfl⟩ | ⟨-, hold⟩
    · exact hout
    · exact h.flying j n hold
  · intro j k n hj hk
    rcases hpusher j n hj with ⟨rfl, rfl⟩ | ⟨-, hold⟩
    · rcases hpusher k n hk with ⟨rfl, -⟩ | ⟨-, hold'⟩
      · rfl
      · exact absurd ⟨k, hold'⟩ hfree
    · rcases hpusher k n hk with ⟨rfl, rfl⟩ | ⟨-, hold'⟩
      · exact absurd ⟨j, hold⟩ hfree
      · exact h.apart j k n hold hold'
  · intro n hn b hold
    show (if node = n then true else b) = true
    split_ifs with hne
    · rfl
    · refine hold ?_
      rcases hn with hn | ⟨j, hj⟩
      · exact Or.inl hn
      · rcases hpusher j n hj with ⟨-, rfl⟩ | ⟨-, hj'⟩
        · exact absurd rfl hne
        · exact Or.inr ⟨j, hj'⟩

theorem Rep.exchange [DecidableEq ι] (h : Rep s d) {i : ι} (hat : s.pusher i = .exchange node) :
    Advances s d (.exchange i, (s.exchange i node).2) (s.exchange i node).1 := by
  have hout := h.flying i node hat
  unfold MpscLinkQueue.exchange
  split_ifs with hhead
  · have hpusher : ∀ j n, Function.update s.pusher i .idle j = .exchange n →
        j ≠ i ∧ s.pusher j = .exchange n := by
      intro j n hj
      by_cases hji : j = i
      · subst hji
        rw [Function.update_self] at hj
        cases hj
      · rw [Function.update_of_ne hji] at hj
        exact ⟨hji, hj⟩
    refine ⟨_, .pushed d i node, ⟨?_, h.reading.congr rfl rfl rfl fun _ _ => rfl, ?_, ?_, ?_⟩, ?_⟩
    · dsimp only
      rw [List.reverse_append, List.reverse_singleton]
      exact ⟨rfl, hhead ▸ h.stack⟩
    · dsimp only
      rw [List.append_assoc, List.singleton_append, List.nodup_middle]
      exact List.nodup_cons.mpr ⟨hout, h.nodup⟩
    · intro j n hj
      obtain ⟨hji, hold⟩ := hpusher j n hj
      have hne : n ≠ node := fun heq => hji (h.apart j i node (heq ▸ hold) hat)
      have hn := h.flying j n hold
      rw [List.mem_append, not_or] at hn
      simp [hn.1, hn.2, hne]
    · intro j k n hj hk
      exact h.apart j k n (hpusher j n hj).2 (hpusher k n hk).2
    · intro n hn b hold
      refine hold ?_
      rcases hn with hn | ⟨j, hj⟩
      · dsimp only at hn
        rw [List.append_assoc, List.mem_append, List.mem_append, List.mem_singleton] at hn
        rcases hn with hn | rfl | hn
        · exact Or.inl (List.mem_append_left _ hn)
        · exact Or.inr ⟨i, hat⟩
        · exact Or.inl (List.mem_append_right _ hn)
      · exact Or.inr ⟨j, (hpusher j n hj).2⟩
  · have hsame : ∀ n ∈ d.pending ++ d.nodes, Function.update s.next node s.head n = s.next n :=
      fun n hn => Function.update_of_ne (ne_of_mem_of_not_mem hn hout) _ _
    refine advances_of_same (.nothing d _) ⟨?_, ?_, h.nodup, h.flying, h.apart⟩ (fun _ hn => hn)
      fun _ _ => rfl
    · exact h.stack.congr fun n hn => hsame n (List.mem_append_left _ (List.mem_reverse.mp hn))
    · exact h.reading.congr rfl rfl rfl fun n hn => hsame n (List.mem_append_right _ hn)

/-! ### The reader -/

theorem Rep.popAll (h : Rep s d) (hat : s.reader = .idle) :
    Advances s d (.popAll, (s.call (.popAll : Event ι ν)).2) (s.call (.popAll : Event ι ν)).1 := by
  have hwhole := h.whole hat
  have hstack := h.stack
  have hnodup : ([] ++ (d.nodes ++ d.pending)).Nodup := by
    rw [List.nil_append]
    exact (List.perm_append_comm.nodup_iff).mp h.nodup
  have hmem : ∀ n, n ∈ [] ++ (d.nodes ++ d.pending) ↔ n ∈ d.pending ++ d.nodes := by
    intro n
    rw [List.nil_append, List.mem_append, List.mem_append, or_comm]
  have hused : ∀ (t : MpscLinkQueue ι ν), t.pusher = s.pusher →
      ∀ n, Used t ⟨[], d.nodes ++ d.pending⟩ n → Used s d n := by
    rintro t ht n (hn | hn)
    · exact Or.inl ((hmem n).mp hn)
    · exact Or.inr (ht ▸ hn)
  unfold call
  cases hhead : s.head with
  | none =>
    rw [hhead] at hstack
    have hnil : d.pending = [] := List.reverse_eq_nil_iff.mp hstack.nil
    refine ⟨_, .popped d, ⟨hhead, ?_, hnodup, fun i n hi hn => h.flying i n hi ((hmem n).mp hn), h.apart⟩,
      fun n hn b hold => hold (hused s rfl n hn)⟩
    rw [hnil, List.append_nil]
    exact h.reading
  | some node =>
    rw [hhead] at hstack
    obtain ⟨rest, hrest, -⟩ := hstack.cons_inv
    refine ⟨_, .popped d, ⟨rfl, ?_, hnodup, fun i n hi hn => h.flying i n hi ((hmem n).mp hn), h.apart⟩,
      fun n hn b hold => hold (hused _ rfl n hn)⟩
    refine ⟨d.nodes, d.pending.reverse, [], ?_, hwhole, hstack, rfl, ?_⟩
    · rw [List.reverse_reverse, List.append_nil]
    · rw [hrest, List.append_nil, List.getLast?_reverse]
      rfl

theorem Rep.read (h : Rep s d) (hat : s.reader = .idle) :
    Advances s d (.read, (s.call (.read : Event ι ν)).2) (s.call (.read : Event ι ν)).1 := by
  have hwhole := h.whole hat
  unfold call
  cases hhead : s.readerHead with
  | none =>
    rw [hhead] at hwhole
    have hnil : d.nodes = [] := hwhole.links.nil
    have hchange : Change d ((.read : Event ι ν), .read none) d := by
      have hread := Change.read (ι := ι) d
      rw [hnil] at hread
      obtain ⟨pending, nodes⟩ := d
      obtain rfl : nodes = [] := hnil
      exact hread
    exact advances_of_same hchange h (fun _ hn => hn) fun _ _ => rfl
  | some node =>
    rw [hhead] at hwhole
    obtain ⟨rest, hrest, hlinks⟩ := hwhole.links.cons_inv
    have hnodup := h.nodup
    rw [hrest] at hnodup
    have hread := Change.read (ι := ι) d
    rw [hrest] at hread
    rw [List.nodup_middle, List.nodup_cons] at hnodup
    have hsub : ∀ n, n ∈ d.pending ++ rest → n ∈ d.pending ++ d.nodes := by
      intro n hn
      rw [hrest]
      rcases List.mem_append.mp hn with hn | hn
      · exact List.mem_append_left _ hn
      · exact List.mem_append_right _ (List.mem_cons_of_mem _ hn)
    refine ⟨_, hread, ⟨h.stack, ?_, hnodup.2, fun i n hi hn => h.flying i n hi (hsub n hn), h.apart⟩, ?_⟩
    · unfold Reading
      dsimp only
      rw [hat]
      refine ⟨hlinks, fun hne => ?_⟩
      have htail := hwhole.tail (by rw [hrest]; exact List.cons_ne_nil _ _)
      rw [htail, hrest]
      exact List.getLast?_cons_of_ne_nil hne
    · intro n hn b hold
      have hne : node ≠ n := by
        rintro rfl
        rcases hn with hn | ⟨i, hi⟩
        · exact hnodup.1 hn
        · refine h.flying i node hi ?_
          rw [hrest]
          simp
      show (if node = n then false else b) = true
      rw [if_neg hne]
      refine hold ?_
      rcases hn with hn | hn
      · exact Or.inl (hsub n hn)
      · exact Or.inr hn

theorem Rep.delay (h : Rep s d) (hat : s.reader = .idle) (hnode : ¬Used s d node) :
    Advances s d (.delay node, .delayed) (s.delay node) := by
  have hwhole := h.whole hat
  unfold Used at hnode
  rw [not_or, List.mem_append, not_or] at hnode
  obtain ⟨⟨hpending, hnodes⟩, hfree⟩ := hnode
  refine ⟨_, .delayed d node, ⟨?_, ?_, ?_, ?_, h.apart⟩, ?_⟩
  · exact h.stack.update fun hn => hpending (List.mem_reverse.mp hn)
  · unfold Reading MpscLinkQueue.delay
    dsimp only
    rw [hat]
    refine ⟨hwhole.links.cons hnodes, fun _ => ?_⟩
    cases hhead : s.readerHead with
    | none =>
      have hnil : d.nodes = [] := by
        rw [hhead] at hwhole
        exact hwhole.links.nil
      rw [hnil]
      rfl
    | some first =>
      have hne : d.nodes ≠ [] := by
        intro hnil
        have hlinks := hwhole.links
        rw [hnil, hhead] at hlinks
        cases hlinks
      rw [List.getLast?_cons_of_ne_nil hne, ← hwhole.tail hne]
      rfl
  · dsimp only
    rw [List.nodup_middle, List.nodup_cons, List.mem_append]
    exact ⟨not_or.mpr ⟨hpending, hnodes⟩, h.nodup⟩
  · intro i n hi hn
    have hne : n ≠ node := fun heq => hfree ⟨i, heq ▸ hi⟩
    have hold := h.flying i n hi
    dsimp only at hn
    rw [List.mem_append, List.mem_cons] at hn
    rw [List.mem_append, not_or] at hold
    rcases hn with hn | hn | hn
    · exact hold.1 hn
    · exact hne hn
    · exact hold.2 hn
  · intro n hn b hold
    show (if node = n then true else b) = true
    split_ifs with hne
    · rfl
    · refine hold ?_
      rcases hn with hn | hn
      · dsimp only at hn
        rw [List.mem_append, List.mem_cons] at hn
        rcases hn with hn | hn | hn
        · exact Or.inl (List.mem_append_left _ hn)
        · exact absurd hn.symm hne
        · exact Or.inl (List.mem_append_right _ hn)
      · exact Or.inr hn

theorem Rep.attach (h : Rep s d) {head : Option ν} {tail : ν} (hat : s.reader = .reverse none head tail) :
    ∃ t, s.attach head tail = some t ∧ Advances s d (.step, .nothing) t := by
  have hreading := h.reading
  unfold Reading at hreading
  rw [hat] at hreading
  obtain ⟨old, todo, done, hnodes, hold, htodo, hdone, hlast⟩ := hreading
  obtain rfl := htodo.nil
  rw [List.reverse_nil, List.nil_append] at hnodes hlast
  have hnodup := h.nodup
  rw [hnodes, List.nodup_append] at hnodup
  unfold MpscLinkQueue.attach
  cases hhead : s.readerHead with
  | none =>
    rw [hhead] at hold
    obtain rfl := hold.links.nil
    refine ⟨_, rfl, advances_of_same (.nothing d _) ⟨h.stack, ?_, h.nodup, h.flying, h.apart⟩
      (fun _ hn => hn) fun _ _ => rfl⟩
    unfold Reading
    dsimp only
    rw [hnodes]
    exact ⟨hdone, fun _ => hlast.symm⟩
  | some first =>
    have hne : old ≠ [] := by
      rintro rfl
      rw [hhead] at hold
      cases hold.links
    obtain ⟨last, hmem, htail, hwhole⟩ := hold.attach hdone hlast hnodup.2.1 hne
    rw [htail]
    refine ⟨_, rfl, advances_of_same (.nothing d _) ⟨?_, ?_, h.nodup, h.flying, h.apart⟩
      (fun _ hn => hn) fun _ _ => rfl⟩
    · refine h.stack.update fun hn => ?_
      exact hnodup.2.2 last (List.mem_reverse.mp hn) last (List.mem_append_left _ hmem) rfl
    · unfold Reading
      dsimp only
      rw [hnodes, ← hhead]
      exact hwhole

theorem Rep.round (h : Rep s d) : ∃ t answer, s.round = some (t, answer) ∧ Advances s d (.step, answer) t := by
  have hreading := h.reading
  unfold Reading at hreading
  unfold MpscLinkQueue.round
  cases hat : s.reader with
  | idle => exact ⟨s, .nothing, rfl, h.idle _⟩
  | reverse node head tail =>
    cases node with
    | none =>
      obtain ⟨t, hattach, ht⟩ := h.attach hat
      dsimp only
      rw [hattach]
      exact ⟨t, .nothing, rfl, ht⟩
    | some node =>
      rw [hat] at hreading
      obtain ⟨old, todo, done, hnodes, hold, htodo, hdone, hlast⟩ := hreading
      obtain ⟨rest, rfl, hrest⟩ := htodo.cons_inv
      have hnodup := h.nodup
      rw [hnodes, List.reverse_cons, List.append_assoc, List.singleton_append, List.nodup_append,
        List.nodup_append, List.nodup_middle, List.nodup_cons, List.mem_append, not_or] at hnodup
      obtain ⟨-, ⟨-, ⟨⟨hrev, hdone'⟩, -⟩, hold'⟩, hpending⟩ := hnodup
      have hmem : node ∈ rest.reverse ++ node :: done := by simp
      refine ⟨_, .nothing, rfl, advances_of_same (.nothing d _) ⟨?_, ?_, h.nodup, h.flying, h.apart⟩
        (fun _ hn => hn) fun _ _ => rfl⟩
      · refine h.stack.update fun hn => ?_
        exact hpending node (List.mem_reverse.mp hn) node (List.mem_append_right _ hmem) rfl
      · refine ⟨old, rest, node :: done, ?_, ?_, ?_, hdone.cons hdone', ?_⟩
        · rw [hnodes, List.reverse_cons, List.append_assoc, List.singleton_append]
        · exact ⟨hold.links.update fun hn => hold' node hn node hmem rfl, hold.tail⟩
        · exact hrest.update fun hn => hrev (List.mem_reverse.mpr hn)
        · rw [← hlast, List.reverse_cons, List.append_assoc, List.singleton_append]
  | count it res =>
    rw [hat] at hreading
    obtain ⟨hwhole, front, rest, hnodes, hres, hrest⟩ := hreading
    cases it with
    | none =>
      obtain rfl := hrest.nil
      have hlen : res = d.nodes.length := by
        rw [hnodes, List.append_nil]
        exact hres
      subst hlen
      refine ⟨_, _, rfl, advances_of_same (.size d) ⟨h.stack, hwhole, h.nodup, h.flying, h.apart⟩
        (fun _ hn => hn) fun _ _ => rfl⟩
    | some node =>
      obtain ⟨rest, rfl, hlinks⟩ := hrest.cons_inv
      refine ⟨_, _, rfl, advances_of_same (.nothing d _) ⟨h.stack, ?_, h.nodup, h.flying, h.apart⟩
        (fun _ hn => hn) fun _ _ => rfl⟩
      refine ⟨hwhole, front ++ [node], rest, ?_, ?_, hlinks⟩
      · rw [hnodes, List.append_assoc, List.singleton_append]
      · rw [hres, List.length_append, List.length_singleton]

theorem Rep.calcSize (h : Rep s d) (hat : s.reader = .idle) :
    Advances s d (.calcSize, .started) { s with reader := .count s.readerHead 0 } := by
  have hwhole := h.whole hat
  exact advances_of_same (.started d _)
    ⟨h.stack, ⟨hwhole, [], d.nodes, rfl, rfl, hwhole.links⟩, h.nodup, h.flying, h.apart⟩ (fun _ hn => hn)
    fun _ _ => rfl

/-- Every event is answered as the deque answers it. -/
theorem Rep.step [DecidableEq ι] (h : Rep s d) {event : Event ι ν} {past : List (Event ι ν × Answer ν)}
    (hfresh : Fresh past event) (hheld : ∀ n, Used s d n → held n past = true) :
    ∃ t answer, s.step event = some (t, answer) ∧ Advances s d (event, answer) t := by
  have hunused : ∀ node, held node past = false → ¬Used s d node := by
    intro node hfree hused
    rw [hheld node hused] at hfree
    cases hfree
  cases event with
  | push i node =>
    dsimp only [MpscLinkQueue.step]
    cases hat : s.pusher i with
    | idle => exact ⟨_, _, rfl, h.push (hunused node hfresh)⟩
    | exchange _ => exact ⟨s, .nothing, rfl, h.idle _⟩
  | exchange i =>
    dsimp only [MpscLinkQueue.step]
    cases hat : s.pusher i with
    | idle => exact ⟨s, .nothing, rfl, h.idle _⟩
    | exchange node => exact ⟨_, _, rfl, h.exchange hat⟩
  | popAll =>
    dsimp only [MpscLinkQueue.step]
    cases hat : s.reader with
    | idle => exact ⟨_, _, rfl, h.popAll hat⟩
    | _ => exact ⟨s, .nothing, rfl, h.idle _⟩
  | read =>
    dsimp only [MpscLinkQueue.step]
    cases hat : s.reader with
    | idle => exact ⟨_, _, rfl, h.read hat⟩
    | _ => exact ⟨s, .nothing, rfl, h.idle _⟩
  | delay node =>
    dsimp only [MpscLinkQueue.step]
    cases hat : s.reader with
    | idle => exact ⟨_, _, rfl, h.delay hat (hunused node hfresh)⟩
    | _ => exact ⟨s, .nothing, rfl, h.idle _⟩
  | calcSize =>
    dsimp only [MpscLinkQueue.step]
    cases hat : s.reader with
    | idle => exact ⟨_, _, rfl, h.calcSize hat⟩
    | _ => exact ⟨s, .nothing, rfl, h.idle _⟩
  | step => exact h.round

/-! ### The loops end -/

/-- The reader leaves its loop after this many rounds. -/
def Rounds (s : MpscLinkQueue ι ν) (m : ℕ) : Prop :=
  match s.reader with
  | .idle => m = 0
  | .reverse node _ _ => ∃ todo, Links s.next node todo ∧ m = todo.length + 1
  | .count it _ => ∃ rest, Links s.next it rest ∧ m = rest.length + 1

omit [DecidableEq ν] in
theorem Rep.exists_rounds (h : Rep s d) : ∃ m ≤ d.nodes.length + 1, Rounds s m := by
  have hreading := h.reading
  unfold Reading at hreading
  unfold Rounds
  cases hat : s.reader with
  | idle => exact ⟨0, Nat.zero_le _, rfl⟩
  | reverse node head tail =>
    rw [hat] at hreading
    obtain ⟨old, todo, done, hnodes, -, htodo, -, -⟩ := hreading
    refine ⟨todo.length + 1, ?_, todo, htodo, rfl⟩
    rw [hnodes, List.length_append, List.length_append, List.length_reverse]
    omega
  | count it res =>
    rw [hat] at hreading
    obtain ⟨-, front, rest, hnodes, -, hrest⟩ := hreading
    refine ⟨rest.length + 1, ?_, rest, hrest, rfl⟩
    rw [hnodes, List.length_append]
    omega

theorem attach_idle {head : Option ν} {tail : ν} (h : s.attach head tail = some t) : t.reader = .idle := by
  unfold MpscLinkQueue.attach at h
  split at h
  · cases h
    rfl
  · obtain ⟨oldTail, -, rfl⟩ := Option.map_eq_some_iff.mp h
    rfl

theorem Rep.round_rounds (h : Rep s d) {answer : Answer ν} {m : ℕ} (hrun : s.round = some (t, answer))
    (hm : Rounds s (m + 1)) : Rounds t m := by
  have hreading := h.reading
  unfold Reading at hreading
  unfold MpscLinkQueue.round at hrun
  unfold Rounds at hm
  cases hat : s.reader with
  | idle =>
    rw [hat] at hm
    cases hm
  | reverse node head tail =>
    rw [hat] at hrun hm hreading
    obtain ⟨todo, htodo, hlen⟩ := hm
    cases node with
    | none =>
      obtain rfl := htodo.nil
      obtain rfl : m = 0 := Nat.succ.inj hlen
      obtain ⟨u, hattach, hlast⟩ := Option.map_eq_some_iff.mp hrun
      cases hlast
      unfold Rounds
      rw [attach_idle hattach]
    | some node =>
      cases hrun
      obtain ⟨old, todo', done, hnodes, -, htodo', -, -⟩ := hreading
      obtain ⟨rest, rfl, hrest⟩ := htodo.cons_inv
      obtain rfl := htodo.unique htodo'
      have hnodup := h.nodup
      rw [hnodes, List.nodup_append, List.nodup_append, List.nodup_append, List.nodup_reverse,
        List.nodup_cons] at hnodup
      exact ⟨rest, hrest.update hnodup.2.1.2.1.1.1, Nat.succ.inj hlen⟩
  | count it res =>
    rw [hat] at hrun hm
    obtain ⟨rest, hrest, hlen⟩ := hm
    cases it with
    | none =>
      cases hrun
      obtain rfl := hrest.nil
      exact Nat.succ.inj hlen
    | some node =>
      cases hrun
      obtain ⟨rest, rfl, hlinks⟩ := hrest.cons_inv
      exact ⟨rest, hlinks, Nat.succ.inj hlen⟩

theorem Rep.finishes [DecidableEq ι] (m : ℕ) : ∀ {s : MpscLinkQueue ι ν}, Rep s d → Rounds s m →
    ∃ t answers, (machine ι ν).run s (List.replicate m .step) = some (t, answers) ∧ t.reader = .idle := by
  induction m with
  | zero =>
    intro s h hm
    refine ⟨s, [], rfl, ?_⟩
    unfold Rounds at hm
    cases hat : s.reader with
    | idle => rfl
    | reverse node head tail =>
      rw [hat] at hm
      obtain ⟨todo, -, hlen⟩ := hm
      cases hlen
    | count it res =>
      rw [hat] at hm
      obtain ⟨rest, -, hlen⟩ := hm
      cases hlen
  | succ m ih =>
    intro s h hm
    obtain ⟨t, answer, hrun, d', hchange, ht, -⟩ := h.round
    have hsame : d' = d := by cases hchange <;> rfl
    obtain ⟨u, answers, hrest, hu⟩ := ih (hsame ▸ ht) (h.round_rounds hrun hm)
    exact ⟨u, answer :: answers, Lib.Machine.run_cons_of hrun hrest, hu⟩

/-! ### The running calls -/

/-- A pusher is where its call is, its node points to the last pending node that it saw, and the reader has as many
rounds left as its call. -/
structure Tied (s : MpscLinkQueue ι ν) (k : Calls ι ν) : Prop where
  pusher : ∀ i, s.pusher i = match k.pushing i with
    | none => .idle
    | some (node, _) => .exchange node
  seen : ∀ i node seen, k.pushing i = some (node, seen) → s.next node = seen.getLast?
  rounds : Rounds s k.rounds
  counting : match s.reader with
    | .idle => True
    | .reverse _ _ _ => k.counting = false
    | .count _ _ => k.counting = true

section Tied

variable {k : Calls ι ν}

omit [DecidableEq ν]

theorem Tied.pushing_none (h : Tied s k) {i : ι} : k.pushing i = none ↔ s.pusher i = .idle := by
  rw [h.pusher i]
  cases k.pushing i <;> simp

theorem Tied.pushing_some (h : Tied s k) {i : ι} {node : ν} (hat : s.pusher i = .exchange node) :
    ∃ seen, k.pushing i = some (node, seen) := by
  have hpusher := h.pusher i
  rw [hat] at hpusher
  cases hk : k.pushing i with
  | none =>
    rw [hk] at hpusher
    cases hpusher
  | some pushed =>
    rw [hk] at hpusher
    cases hpusher
    exact ⟨pushed.2, rfl⟩

theorem Tied.rounds_zero (h : Tied s k) : k.rounds = 0 ↔ s.reader = .idle := by
  have hrounds := h.rounds
  unfold Rounds at hrounds
  cases hat : s.reader with
  | idle =>
    rw [hat] at hrounds
    simpa using hrounds
  | reverse node head tail =>
    rw [hat] at hrounds
    obtain ⟨todo, -, hlen⟩ := hrounds
    simp [hlen]
  | count it res =>
    rw [hat] at hrounds
    obtain ⟨rest, -, hlen⟩ := hrounds
    simp [hlen]

theorem Rep.head (h : Rep s d) : s.head = d.pending.getLast? := by
  rw [h.stack.head, List.head?_reverse]

/-- The loop of the reader is over its own nodes. -/
theorem Rounds.congr (h : Rep s d) {m : ℕ} (hm : Rounds s m) (hreader : t.reader = s.reader)
    (hsame : ∀ n ∈ d.nodes, t.next n = s.next n) : Rounds t m := by
  have hreading := h.reading
  unfold Reading at hreading
  unfold Rounds at hm ⊢
  rw [hreader]
  cases hat : s.reader with
  | idle =>
    rw [hat] at hm
    exact hm
  | reverse node head tail =>
    rw [hat] at hm hreading
    obtain ⟨todo, htodo, hlen⟩ := hm
    obtain ⟨old, todo', done, hnodes, -, htodo', -, -⟩ := hreading
    obtain rfl := htodo.unique htodo'
    refine ⟨todo, htodo.congr fun n hn => hsame n ?_, hlen⟩
    rw [hnodes]
    simp [hn]
  | count it res =>
    rw [hat] at hm hreading
    obtain ⟨rest, hrest, hlen⟩ := hm
    obtain ⟨-, front, rest', hnodes, -, hrest'⟩ := hreading
    obtain rfl := hrest.unique hrest'
    refine ⟨rest, hrest.congr fun n hn => hsame n ?_, hlen⟩
    rw [hnodes]
    simp [hn]

/-- A pusher makes a step, and the reader does not see it. -/
theorem Tied.push [DecidableEq ι] (h : Tied s k) (hd : Rep s d) {i : ι} (pushed : Option (ν × List ν))
    (hpusher : t.pusher = Function.update s.pusher i (match pushed with
      | none => .idle
      | some (node, _) => .exchange node))
    (hreader : t.reader = s.reader) (hsame : ∀ n ∈ d.nodes, t.next n = s.next n)
    (hothers : ∀ j n, j ≠ i → s.pusher j = .exchange n → t.next n = s.next n)
    (hseen : ∀ node seen, pushed = some (node, seen) → t.next node = seen.getLast?) :
    Tied t { k with pushing := Function.update k.pushing i pushed } where
  pusher := by
    intro j
    rw [hpusher]
    by_cases hj : j = i
    · rw [hj, Function.update_self]
      dsimp only
      rw [Function.update_self]
    · rw [Function.update_of_ne hj]
      dsimp only
      rw [Function.update_of_ne hj]
      exact h.pusher j
  seen := by
    intro j node seen hj
    dsimp only at hj
    by_cases hji : j = i
    · rw [hji, Function.update_self] at hj
      exact hseen node seen hj
    · rw [Function.update_of_ne hji] at hj
      have hat := h.pusher j
      rw [hj] at hat
      rw [hothers j node hji hat]
      exact h.seen j node seen hj
  rounds := h.rounds.congr hd hreader hsame
  counting := by
    rw [hreader]
    exact h.counting

/-- The reader makes a step, and its nodes are in no pusher's hand. -/
theorem Tied.reads (h : Tied s k) {k' : Calls ι ν} (hpushing : k'.pushing = k.pushing)
    (hpusher : t.pusher = s.pusher) (hothers : ∀ i n, s.pusher i = .exchange n → t.next n = s.next n)
    (hrounds : Rounds t k'.rounds) (hcounting : match t.reader with
      | .idle => True
      | .reverse _ _ _ => k'.counting = false
      | .count _ _ => k'.counting = true) : Tied t k' where
  pusher := by
    rw [hpusher, hpushing]
    exact h.pusher
  seen := by
    intro i node seen hi
    rw [hpushing] at hi
    have hat := h.pusher i
    rw [hi] at hat
    rw [hothers i node hat]
    exact h.seen i node seen hi
  rounds := hrounds
  counting := hcounting

/-- A round changes the pointers of the reader's nodes, and answers when it ends `calc_size`. -/
theorem Tied.round [DecidableEq ι] [DecidableEq ν] (h : Tied s k) (hd : Rep s d) {answer : Answer ν}
    (hrun : s.round = some (t, answer)) : ∃ k', k.Answered d (.step, answer) k' ∧ Tied t k' := by
  have hrounds := h.rounds
  have hcounting := h.counting
  have hreading := hd.reading
  have hout : ∀ i n, s.pusher i = .exchange n → n ∉ d.nodes :=
    fun i n hi hn => hd.flying i n hi (List.mem_append_right _ hn)
  cases hm : k.rounds with
  | zero =>
    have hidle := h.rounds_zero.mp hm
    unfold MpscLinkQueue.round at hrun
    rw [hidle] at hrun
    cases hrun
    exact ⟨k, .waits _ hm, h⟩
  | succ m =>
    rw [hm] at hrounds
    have hnext := hd.round_rounds hrun hrounds
    unfold Rounds at hrounds
    unfold Reading at hreading
    unfold MpscLinkQueue.round at hrun
    cases hat : s.reader with
    | idle =>
      rw [hat] at hrounds
      cases hrounds
    | reverse node head tail =>
      rw [hat] at hrun hcounting hreading
      have hfalse : k.counting = true → m ≠ 0 := fun htrue => by
        rw [hcounting] at htrue
        cases htrue
      cases node with
      | none =>
        obtain ⟨u, hattach, hlast⟩ := Option.map_eq_some_iff.mp hrun
        cases hlast
        obtain ⟨old, todo, done, hnodes, hold, htodo, hdone, hgetLast⟩ := hreading
        have hpusher : t.pusher = s.pusher ∧ ∀ n ∉ d.nodes, t.next n = s.next n := by
          unfold MpscLinkQueue.attach at hattach
          split at hattach
          · cases hattach
            exact ⟨rfl, fun _ _ => rfl⟩
          · next first hhead =>
            obtain ⟨last, hlast, rfl⟩ := Option.map_eq_some_iff.mp hattach
            have hne : old ≠ [] := by
              rintro rfl
              rw [hhead] at hold
              cases hold.links
            have hmem : last ∈ d.nodes := by
              rw [hnodes]
              exact List.mem_append_left _ (List.mem_of_getLast? ((hold.tail hne).symm.trans hlast))
            exact ⟨rfl, fun n hn => Function.update_of_ne (fun heq => hn (by rw [heq]; exact hmem)) _ _⟩
        refine ⟨{ k with rounds := m }, .round m hm hfalse, h.reads rfl hpusher.1 (fun i n hi => hpusher.2 n (hout i n hi)) hnext ?_⟩
        rw [attach_idle hattach]
        trivial
      | some node =>
        cases hrun
        obtain ⟨old, todo, done, hnodes, -, htodo, -, -⟩ := hreading
        obtain ⟨rest, rfl, -⟩ := htodo.cons_inv
        have hmem : node ∈ d.nodes := by
          rw [hnodes]
          simp
        refine ⟨{ k with rounds := m }, .round m hm hfalse, h.reads rfl rfl (fun i n hi => ?_) hnext hcounting⟩
        exact Function.update_of_ne (fun heq => hout i n hi (by rw [heq]; exact hmem)) _ _
    | count it res =>
      rw [hat] at hrun hcounting hrounds
      obtain ⟨rest, hrest, hlen⟩ := hrounds
      cases it with
      | none =>
        cases hrun
        obtain rfl := hrest.nil
        obtain rfl : m = 0 := Nat.succ.inj hlen
        exact ⟨{ k with rounds := 0 }, .size res hm hcounting, h.reads rfl rfl (fun _ _ _ => rfl) hnext trivial⟩
      | some node =>
        cases hrun
        obtain ⟨rest, rfl, -⟩ := hrest.cons_inv
        rw [List.length_cons] at hlen
        exact ⟨{ k with rounds := m }, .round m hm (fun _ => by omega), h.reads rfl rfl (fun _ _ _ => rfl) hnext hcounting⟩

/-- The exchange fails only when the pending nodes are not those that the pusher saw. -/
theorem Tied.exchange [DecidableEq ι] [DecidableEq ν] (h : Tied s k) (hd : Rep s d) {i : ι}
    (hat : s.pusher i = .exchange node) :
    ∃ k', k.Answered d (.exchange i, (s.exchange i node).2) k' ∧ Tied (s.exchange i node).1 k' := by
  obtain ⟨seen, hk⟩ := h.pushing_some hat
  have hout : node ∉ d.nodes := fun hn => hd.flying i node hat (List.mem_append_right _ hn)
  unfold MpscLinkQueue.exchange
  split_ifs with hhead
  · exact ⟨_, .pushed i node seen hk, h.push hd none rfl rfl (fun _ _ => rfl) (fun _ _ _ _ => rfl) nofun⟩
  · have hseen : d.pending ≠ seen := by
      rintro rfl
      exact hhead (hd.head.trans (h.seen i node _ hk).symm)
    refine ⟨_, .disturbed i node seen hk hseen,
      h.push hd (some (node, d.pending)) ?_ rfl (fun n hn => ?_) (fun j n hj hn => ?_) ?_⟩
    · dsimp only
      rw [← hat, Function.update_eq_self]
    · exact Function.update_of_ne (ne_of_mem_of_not_mem hn hout) _ _
    · exact Function.update_of_ne (fun heq => hj (hd.apart j i n hn (by rw [heq]; exact hat))) _ _
    · rintro _ _ ⟨⟩
      exact (Function.update_self _ _ _).trans hd.head

/-- A call of the reader that is in no other. -/
theorem Tied.call [DecidableEq ι] [DecidableEq ν] (h : Tied s k) (hd : Rep s d) (hidle : s.reader = .idle) {event : Event ι ν}
    (hevent : event = .popAll ∨ event = .read ∨ (∃ node, event = .delay node ∧ ¬Used s d node) ∨ event = .calcSize) :
    ∃ k', k.Answered d (event, (s.call event).2) k' ∧ Tied (s.call event).1 k' := by
  have hzero := h.rounds_zero.mpr hidle
  have hwhole := hd.whole hidle
  rcases hevent with rfl | rfl | ⟨node, rfl, hnode⟩ | rfl
  · refine ⟨{ k with rounds := if d.pending.isEmpty then 0 else d.pending.length + 1, counting := false }, ?_, ?_⟩
    · unfold MpscLinkQueue.call
      dsimp only
      split <;> exact .popAll hzero
    · have hstack := hd.stack
      unfold MpscLinkQueue.call
      dsimp only
      split
      · next hhead =>
        rw [hhead] at hstack
        rw [List.reverse_eq_nil_iff.mp hstack.nil]
        refine h.reads rfl rfl (fun _ _ _ => rfl) ?_ ?_
        · unfold Rounds
          rw [hidle]
          rfl
        · rw [hidle]
          trivial
      · next node hhead =>
        rw [hhead] at hstack
        refine h.reads rfl rfl (fun _ _ _ => rfl) ⟨_, hstack, ?_⟩ rfl
        dsimp only
        have hne : d.pending ≠ [] := by
          intro hnil
          rw [hnil] at hstack
          cases hstack
        rw [if_neg (by simpa using hne), List.length_reverse]
  · refine ⟨k, ?_, ?_⟩
    · unfold MpscLinkQueue.call
      dsimp only
      split
      · exact .read none hzero
      · exact .read _ hzero
    · unfold MpscLinkQueue.call
      dsimp only
      split
      · exact h
      · refine h.reads rfl rfl (fun _ _ _ => rfl) ?_ ?_
        · have hrounds := h.rounds
          unfold Rounds at hrounds ⊢
          rw [hidle] at hrounds
          dsimp only
          rw [hidle]
          exact hrounds
        · dsimp only
          rw [hidle]
          trivial
  · refine ⟨k, .delay node hzero, h.reads rfl rfl (fun i n hi => ?_) ?_ ?_⟩
    · exact Function.update_of_ne (fun heq => hnode (.inr ⟨i, by rw [← heq]; exact hi⟩)) _ _
    · exact h.rounds.congr hd rfl fun n hn => Function.update_of_ne
        (fun heq => hnode (.inl (List.mem_append_right _ (by rw [← heq]; exact hn)))) _ _
    · unfold MpscLinkQueue.call MpscLinkQueue.delay
      dsimp only
      rw [hidle]
      trivial
  · exact ⟨{ k with rounds := d.nodes.length + 1, counting := true }, .calcSize hzero,
      h.reads rfl rfl (fun _ _ _ => rfl) ⟨_, hwhole.links, rfl⟩ rfl⟩

/-- A call of the reader, which waits for the one before. -/
theorem Tied.calls [DecidableEq ι] [DecidableEq ν] (h : Tied s k) (hd : Rep s d) {event : Event ι ν}
    (hevent : event = .popAll ∨ event = .read ∨ (∃ node, event = .delay node ∧ ¬Used s d node) ∨ event = .calcSize)
    {answer : Answer ν} (hstep : s.step event = some (t, answer)) : ∃ k', k.Answered d (event, answer) k' ∧ Tied t k' := by
  by_cases hidle : s.reader = .idle
  · have hrun : s.step event = some (s.call event) := by
      rcases hevent with rfl | rfl | ⟨node, rfl, -⟩ | rfl
      all_goals
        dsimp only [MpscLinkQueue.step]
        rw [hidle]
    have hcall := h.call hd hidle hevent
    rw [Option.some.inj (hrun.symm.trans hstep)] at hcall
    exact hcall
  · have hrun : s.step event = some (s, .nothing) := by
      rcases hevent with rfl | rfl | ⟨node, rfl, -⟩ | rfl
      all_goals
        dsimp only [MpscLinkQueue.step]
        split
        · next hat => exact absurd hat hidle
        · rfl
    obtain ⟨rfl, rfl⟩ := Prod.mk.inj (Option.some.inj (hrun.symm.trans hstep))
    have hrounds : k.rounds ≠ 0 := mt h.rounds_zero.mp hidle
    refine ⟨k, .waits _ ?_, h⟩
    rcases hevent with rfl | rfl | ⟨node, rfl, -⟩ | rfl
    all_goals exact hrounds

/-- The running calls go on with every step. -/
theorem Tied.step [DecidableEq ι] [DecidableEq ν] (h : Tied s k) (hd : Rep s d) {event : Event ι ν}
    {past : List (Event ι ν × Answer ν)} (hfresh : Fresh past event) (hheld : ∀ n, Used s d n → held n past = true)
    {answer : Answer ν} (hstep : s.step event = some (t, answer)) :
    ∃ k', k.Answered d (event, answer) k' ∧ Tied t k' := by
  have hunused : ∀ node, held node past = false → ¬Used s d node := by
    intro node hfree hused
    rw [hheld node hused] at hfree
    cases hfree
  cases event with
  | push i node =>
    have hnode := hunused node hfresh
    dsimp only [MpscLinkQueue.step] at hstep
    split at hstep
    · next hat =>
      cases hstep
      refine ⟨_, .push i node (h.pushing_none.mpr hat),
        h.push hd (some (node, d.pending)) rfl rfl (fun n hn => ?_) (fun j n _ hn => ?_) ?_⟩
      · exact Function.update_of_ne (fun heq => hnode (.inl (List.mem_append_right _ (by rw [← heq]; exact hn)))) _ _
      · exact Function.update_of_ne (fun heq => hnode (.inr ⟨j, by rw [← heq]; exact hn⟩)) _ _
      · rintro _ _ ⟨⟩
        exact (Function.update_self _ _ _).trans hd.head
    · next other hat =>
      cases hstep
      refine ⟨k, .waits _ fun hnone => ?_, h⟩
      rw [h.pushing_none.mp hnone] at hat
      cases hat
  | exchange i =>
    dsimp only [MpscLinkQueue.step] at hstep
    split at hstep
    · next hat =>
      cases hstep
      exact ⟨k, .waits _ (h.pushing_none.mpr hat), h⟩
    · next node hat =>
      have hexchange := h.exchange hd hat
      rw [Option.some.inj hstep] at hexchange
      exact hexchange
  | popAll => exact h.calls hd (.inl rfl) hstep
  | read => exact h.calls hd (.inr (.inl rfl)) hstep
  | delay node => exact h.calls hd (.inr (.inr (.inl ⟨node, rfl, hunused node hfresh⟩))) hstep
  | calcSize => exact h.calls hd (.inr (.inr (.inr rfl))) hstep
  | step => exact h.round hd hstep

theorem tied_start : Tied (start ι ν) {} := ⟨fun _ => rfl, nofun, rfl, trivial⟩

end Tied

/-! ### Runs -/

theorem held_concat (n : ν) (history : List (Event ι ν × Answer ν)) (e : Event ι ν × Answer ν) :
    held n (history ++ [e]) = holds n (held n history) e := by
  unfold held
  rw [List.foldl_append]
  rfl

instance decidableFresh (past : List (Event ι ν × Answer ν)) (event : Event ι ν) :
    Decidable (Fresh past event) := by
  cases event <;> unfold Fresh <;> infer_instance

/-- Whatever the interleaving, the reader and the pushers together behave as a deque, and every node is read once
for every time it was pushed or delayed.  A reader in no call answers, a pusher starts over only when others have
changed the pending nodes, and the reader comes out of its loops. -/
theorem follows_deque [DecidableEq ι] (ops : List (Event ι ν))
    (hfresh : (machine ι ν).AlongPast Fresh [] (start ι ν) ops) :
    ∃ s answers d k, (machine ι ν).run (start ι ν) ops = some (s, answers) ∧ Follows (ops.zip answers) d k ∧
      (entered (ops.zip answers)).Perm (left (ops.zip answers) ++ (d.nodes ++ d.pending)) ∧
      (d.nodes ++ d.pending).Nodup ∧
      ∃ m ≤ d.nodes.length + 1, ∃ t more, (machine ι ν).run s (List.replicate m .step) = some (t, more) ∧
        t.reader = .idle := by
  obtain ⟨s, answers, hrun, d, k, hd, -, hfollows, -⟩ := Lib.Machine.run_past (M := machine ι ν) (C := Fresh)
    (P := fun past s => ∃ d k, Rep s d ∧ Tied s k ∧ Follows past d k ∧ ∀ n, Used s d n → held n past = true)
    (by
      rintro past s event ⟨d, k, hd, hk, hfollows, hheld⟩ hfresh
      obtain ⟨t, answer, hstep, d', hchange, hd', hused⟩ := hd.step hfresh hheld
      obtain ⟨k', hanswered, hk'⟩ := hk.step hd hfresh hheld hstep
      refine ⟨t, answer, hstep, d', k', hd', hk', .concat hfollows hchange hanswered, fun n hn => ?_⟩
      rw [held_concat]
      exact hused n hn _ (hheld n))
    ops [] (start ι ν)
    ⟨_, _, rep_start, tied_start, .nil, fun n hn => by
      rcases hn with hn | ⟨i, hi⟩
      · cases hn
      · cases hi⟩ hfresh
  obtain ⟨m, hm, hrounds⟩ := hd.exists_rounds
  exact ⟨s, answers, d, k, hrun, hfollows, hfollows.perm, (List.perm_append_comm.nodup_iff).mp hd.nodup, m, hm,
    hd.finishes m hrounds⟩

/-- Two pushers, a drain between their steps, a node that is delayed, and a refill behind it. -/
def drains : List (Event Bool ℕ) :=
  [.push false 1, .push true 2, .exchange true, .exchange false, .exchange false, .popAll, .step, .step, .step, .read,
    .read, .delay 2, .push true 1, .exchange true, .popAll, .step, .step, .calcSize, .step, .step, .step, .read]

theorem follows_deque_two : ∃ s answers d k, (machine Bool ℕ).run (start Bool ℕ) drains = some (s, answers) ∧
    Follows (drains.zip answers) d k ∧
    (entered (drains.zip answers)).Perm (left (drains.zip answers) ++ (d.nodes ++ d.pending)) ∧
    (d.nodes ++ d.pending).Nodup ∧
    ∃ m ≤ d.nodes.length + 1, ∃ t more,
      (machine Bool ℕ).run s (List.replicate m .step) = some (t, more) ∧ t.reader = .idle :=
  follows_deque _ (by decide)

end TdUtils.MpscLinkQueue
