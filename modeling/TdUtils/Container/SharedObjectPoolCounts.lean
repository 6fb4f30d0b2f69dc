import Mathlib.Data.List.Perm.Subperm
import TdUtils.Container.SharedObjectPool

/-!
# Container.SharedObjectPoolCounts — a raw is referred to, or is free once

The counter of a raw is the number of its `Ptr`s, and the free queue with its reader has the raws whose counter is 0.
-/

namespace TdUtils.SharedObjectPool

open Lib (hit hit_none hit_self hit_of_ne)
open MpscLinkQueue (Quiet Deque)

variable {δ : Type} {s : SharedObjectPool δ} {count count' : ℕ → ℕ} {raw : ℕ} {value : SharedPtrRaw δ}

/-! ### The invariant -/

/-- The counter of a raw is right, and its data are there while it is counted. -/
def RawOk (value : SharedPtrRaw δ) (n : ℕ) : Prop := value.refCnt = n ∧ (value.data.isSome = true ↔ 0 < n)

/-- `count` is what has to be counted for a raw, also in the middle of a call. -/
structure Inv (s : SharedObjectPool δ) (count : ℕ → ℕ) : Prop where
  raws : ∀ raw value, s.allocated[raw]? = some value → RawOk value (count raw)
  outside : ∀ raw, s.allocated.length ≤ raw → count raw = 0
  queue : ∃ d, Quiet s.freeQueue d ∧ ∀ raw, raw ∈ d.pending ++ d.nodes ↔ raw < s.allocated.length ∧ count raw = 0

theorem inv_start : Inv ({} : SharedObjectPool δ) (refs ({} : SharedObjectPool δ)) where
  raws := fun _ _ hraw => by cases hraw
  outside := fun _ _ => rfl
  queue := by
    refine ⟨_, MpscLinkQueue.quiet_start, fun raw => ⟨fun hraw => ?_, fun hraw => ?_⟩⟩
    · cases hraw
    · exact absurd hraw.1 (Nat.not_lt_zero raw)

theorem Inv.count_congr (hinv : Inv s count) (hcount : ∀ c, count' c = count c) : Inv s count' := by
  rw [show count' = count from funext hcount]
  exact hinv

/-- The variables are not part of what is counted. -/
theorem Inv.ptrs (hinv : Inv s count) (ptrs : List (Option (Option ℕ))) : Inv { s with ptrs := ptrs } count :=
  ⟨hinv.raws, hinv.outside, hinv.queue⟩

theorem lt_of_raw {l : List (SharedPtrRaw δ)} (hat : l[raw]? = some value) : raw < l.length :=
  (List.getElem?_eq_some_iff.mp hat).1

theorem Inv.raw_of_pos (hinv : Inv s count) (raw : ℕ) (hpos : 0 < count raw) : ∃ value, s.allocated[raw]? = some value := by
  by_cases hlt : raw < s.allocated.length
  · exact ⟨_, List.getElem?_eq_getElem hlt⟩
  · exact absurd (hinv.outside raw (Nat.le_of_not_lt hlt)) (Nat.ne_of_gt hpos)

/-- The raws after one of them has changed. -/
theorem raws_set {l : List (SharedPtrRaw δ)} (hraws : ∀ c other, c ≠ raw → l[c]? = some other → RawOk other (count' c))
    (hvalue : RawOk value (count' raw)) :
    ∀ c other, (l.set raw value)[c]? = some other → RawOk other (count' c) := by
  intro c other hc
  rcases Lib.getElem?_set_inv hc with ⟨hne, hold⟩ | ⟨rfl, rfl⟩
  · exact hraws c other hne hold
  · exact hvalue

/-! ### Counting -/

theorem Inv.inc (hinv : Inv s count) (ptr : Option ℕ) (hpos : ∀ raw, ptr = some raw → 0 < count raw) :
    ∃ t, s.inc ptr = some t ∧ t.ptrs = s.ptrs ∧ Inv t fun c => count c + hit ptr c := by
  cases ptr with
  | none => exact ⟨s, rfl, rfl, hinv⟩
  | some raw =>
    have hpos := hpos raw rfl
    obtain ⟨value, hat⟩ := hinv.raw_of_pos raw hpos
    obtain ⟨hrefCnt, hdata⟩ := hinv.raws raw value hat
    obtain ⟨d, hquiet, hmem⟩ := hinv.queue
    have hother : ∀ c, c ≠ raw → count c + hit (some raw) c = count c := by
      intro c hne
      rw [hit_of_ne hne.symm, Nat.add_zero]
    refine ⟨s.setRaw raw { value with refCnt := value.refCnt + 1 }, ?_, rfl, raws_set (fun c other hne hc => ?_) ?_,
      fun c hc => ?_, d, hquiet, fun c => ?_⟩
    · unfold SharedObjectPool.inc
      dsimp only
      rw [hat]
      rfl
    · rw [hother c hne]
      exact hinv.raws c other hc
    · rw [hit_self]
      refine ⟨congrArg (· + 1) hrefCnt, fun _ => Nat.succ_pos _, fun _ => hdata.mpr hpos⟩
    · have hlen : (s.allocated.set raw { value with refCnt := value.refCnt + 1 }).length ≤ c := hc
      rw [List.length_set] at hlen
      have hlt := lt_of_raw hat
      rw [hother c (by omega)]
      exact hinv.outside c hlen
    · rw [hmem c]
      show _ ↔ c < (s.allocated.set raw _).length ∧ _
      rw [List.length_set]
      by_cases heq : c = raw
      · rw [heq, hit_self]
        exact ⟨fun h => absurd h.2 (Nat.ne_of_gt hpos), fun h => absurd h.2 (Nat.succ_ne_zero _)⟩
      · rw [hother c heq]

/-- A raw whose last `Ptr` goes is put into the free queue. -/
theorem Inv.drop (hinv : Inv s count) (count' : ℕ → ℕ) (ptr : Option ℕ) (hcount : ∀ c, count' c + hit ptr c = count c) :
    ∃ t, s.drop ptr = some t ∧ t.ptrs = s.ptrs ∧ Inv t count' := by
  cases ptr with
  | none => exact ⟨s, rfl, rfl, hinv.count_congr hcount⟩
  | some raw =>
    have hself := hcount raw
    rw [hit_self] at hself
    obtain ⟨value, hat⟩ := hinv.raw_of_pos raw (by omega)
    obtain ⟨hrefCnt, hdata⟩ := hinv.raws raw value hat
    obtain ⟨d, hquiet, hmem⟩ := hinv.queue
    have hother : ∀ c, c ≠ raw → count' c = count c := by
      intro c hne
      have hc := hcount c
      rwa [hit_of_ne hne.symm, Nat.add_zero] at hc
    have hraws : ∀ c other, c ≠ raw → s.allocated[c]? = some other → RawOk other (count' c) := by
      intro c other hne hc
      rw [hother c hne]
      exact hinv.raws c other hc
    have houtside : ∀ c, s.allocated.length ≤ c → count' c = 0 := by
      intro c hc
      have hlt := lt_of_raw hat
      rw [hother c (by omega)]
      exact hinv.outside c hc
    have hout : raw ∉ d.pending ++ d.nodes := fun hraw => by
      have hzero := ((hmem raw).mp hraw).2
      omega
    obtain ⟨data, hsome⟩ := Option.isSome_iff_exists.mp (hdata.mpr (by omega))
    unfold SharedObjectPool.drop
    dsimp only
    rw [hat]
    dsimp only
    by_cases hlast : value.refCnt = 1
    · obtain ⟨freeQueue, hpush, hfree⟩ := hquiet.pushNode hout
      refine ⟨{ s with allocated := s.allocated.set raw { refCnt := value.refCnt - 1 }, freeQueue := freeQueue }, ?_, rfl,
        raws_set hraws ⟨by dsimp only; omega, ?_⟩, ?_, _, hfree, fun c => ?_⟩
      · rw [if_pos hlast, hsome]
        unfold freeRaw
        show Option.map _ (s.freeQueue.pushNode raw) = _
        rw [hpush]
        rfl
      · exact ⟨fun h => absurd h Bool.false_ne_true, fun h => by omega⟩
      · intro c hc
        rw [List.length_set] at hc
        exact houtside c hc
      · dsimp only
        rw [List.length_set, List.append_assoc, List.mem_append, List.singleton_append, List.mem_cons]
        have hold := hmem c
        rw [List.mem_append] at hold
        by_cases heq : c = raw
        · have hlt := lt_of_raw hat
          rw [heq]
          exact ⟨fun _ => ⟨hlt, by omega⟩, fun _ => .inr (.inl rfl)⟩
        · rw [hother c heq, ← hold]
          constructor
          · rintro (h | h | h)
            · exact .inl h
            · exact absurd h heq
            · exact .inr h
          · rintro (h | h)
            · exact .inl h
            · exact .inr (.inr h)
    · refine ⟨s.setRaw raw { value with refCnt := value.refCnt - 1 }, if_neg hlast, rfl,
        raws_set hraws ⟨by dsimp only; omega, ?_⟩, ?_, d, hquiet, fun c => ?_⟩
      · exact ⟨fun _ => by omega, fun _ => hdata.mpr (by omega)⟩
      · intro c hc
        have hlen : (s.allocated.set raw { value with refCnt := value.refCnt - 1 }).length ≤ c := hc
        rw [List.length_set] at hlen
        exact houtside c hlen
      · rw [hmem c]
        show _ ↔ c < (s.allocated.set raw _).length ∧ _
        rw [List.length_set]
        by_cases heq : c = raw
        · rw [heq]
          exact ⟨fun h => by omega, fun h => by omega⟩
        · rw [hother c heq]

/-! ### Allocating -/

theorem queue_length {d : Deque ℕ} (hquiet : Quiet s.freeQueue d)
    (hmem : ∀ raw, raw ∈ d.pending ++ d.nodes ↔ raw < s.allocated.length ∧ count raw = 0) :
    (d.pending ++ d.nodes).length < s.allocated.length + 1 := by
  have hsub : d.pending ++ d.nodes ⊆ List.range s.allocated.length :=
    fun raw hraw => List.mem_range.mpr ((hmem raw).mp hraw).1
  have hle := (List.subperm_of_subset hquiet.rep.nodup hsub).length_le
  rw [List.length_range] at hle
  exact Nat.lt_succ_of_le hle

/-- A raw that is not counted and not in the queue gets data and its first `Ptr`. -/
theorem inv_fill (count : ℕ → ℕ) (hat : s.allocated[raw]? = some value) (hvalue : value.refCnt = 0) (hcount : count raw = 0)
    (hraws : ∀ c other, c ≠ raw → s.allocated[c]? = some other → RawOk other (count c))
    (houtside : ∀ c, s.allocated.length ≤ c → count c = 0)
    (hqueue : ∃ d, Quiet s.freeQueue d ∧
      ∀ c, c ∈ d.pending ++ d.nodes ↔ c ≠ raw ∧ c < s.allocated.length ∧ count c = 0) (data : δ) :
    ∃ t, ((s.initData raw data).bind fun s => s.inc (some raw)) = some t ∧ t.ptrs = s.ptrs ∧
      Inv t fun c => count c + hit (some raw) c := by
  have hlt := lt_of_raw hat
  have hother : ∀ c, c ≠ raw → count c + hit (some raw) c = count c := by
    intro c hne
    rw [hit_of_ne hne.symm, Nat.add_zero]
  have hfilled : (s.setRaw raw { value with data := some data }).allocated[raw]? = some { value with data := some data } := by
    show (s.allocated.set raw _)[raw]? = _
    rw [List.getElem?_set_self hlt]
  refine ⟨(s.setRaw raw { value with data := some data }).setRaw raw { refCnt := value.refCnt + 1, data := some data },
    ?_, rfl, raws_set (fun c other hne hc => ?_) ?_, fun c hc => ?_, ?_⟩
  · unfold initData
    rw [hat]
    show inc _ (some raw) = _
    unfold SharedObjectPool.inc
    dsimp only
    rw [hfilled]
    rfl
  · rw [hother c hne]
    have hc : (s.allocated.set raw _)[c]? = some other := hc
    rw [List.getElem?_set_ne hne.symm] at hc
    exact hraws c other hne hc
  · rw [hit_self]
    refine ⟨?_, fun _ => Nat.succ_pos _, fun _ => rfl⟩
    dsimp only
    rw [hvalue, hcount]
  · have hlen : ((s.allocated.set raw { value with data := some data }).set raw
      { refCnt := value.refCnt + 1, data := some data }).length ≤ c := hc
    rw [List.length_set, List.length_set] at hlen
    rw [hother c (by omega)]
    exact houtside c hlen
  · obtain ⟨d, hquiet, hmem⟩ := hqueue
    refine ⟨d, hquiet, fun c => ?_⟩
    rw [hmem c]
    show _ ↔ c < ((s.allocated.set raw _).set raw _).length ∧ _
    rw [List.length_set, List.length_set]
    by_cases heq : c = raw
    · rw [heq, hit_self]
      exact ⟨fun h => absurd rfl h.1, fun h => absurd h.2 (Nat.succ_ne_zero _)⟩
    · rw [hother c heq]
      exact ⟨fun h => h.2, fun h => ⟨heq, h⟩⟩

/-- The raw that is allocated was free or is new, and the other ones stay as they are. -/
theorem Inv.alloc (hinv : Inv s count) (data : δ) :
    ∃ t raw, s.alloc data = some (t.push (some raw), .allocated raw) ∧ count raw = 0 ∧ t.ptrs = s.ptrs ∧
      Inv t fun c => count c + hit (some raw) c := by
  obtain ⟨d, hquiet, hmem⟩ := hinv.queue
  obtain ⟨popped, hpop, hpopped⟩ := hquiet.popNodes (queue_length hquiet hmem)
  obtain ⟨freeQueue, hread, hfree⟩ := hpopped.readNode
  have hqueue : (s.freeQueue.popNodes (s.allocated.length + 1)).bind MpscLinkQueue.readNode =
      some (freeQueue, (d.nodes ++ d.pending).head?) := by
    rw [hpop]
    exact hread
  have hnodup : (d.nodes ++ d.pending).Nodup := List.nodup_append_comm.mp hquiet.rep.nodup
  have hmem : ∀ c, c ∈ d.nodes ++ d.pending ↔ c < s.allocated.length ∧ count c = 0 := by
    intro c
    rw [← hmem c, List.mem_append, List.mem_append]
    exact or_comm
  unfold SharedObjectPool.alloc allocRaw
  rw [hqueue]
  cases hnodes : d.nodes ++ d.pending with
  | nil =>
    dsimp only [List.head?_nil]
    rw [hnodes] at hfree hmem
    have hfresh := hinv.outside s.allocated.length (Nat.le_refl _)
    have hlast : (s.allocated ++ [({} : SharedPtrRaw δ)])[s.allocated.length]? = some {} := List.getElem?_concat_length
    obtain ⟨t, ht, hptrs, hfill⟩ := inv_fill (s := { s with freeQueue := freeQueue, allocated := s.allocated ++ [{}] })
      count hlast rfl hfresh
      (fun c other hne hc => by
        rcases Lib.getElem?_append_inv hc with hold | ⟨heq, -⟩
        · exact hinv.raws c other hold
        · exact absurd heq hne)
      (fun c hc => by
        rw [List.length_append] at hc
        exact hinv.outside c (Nat.le_of_succ_le hc))
      ⟨_, hfree, fun c => by
        have hc := hmem c
        dsimp only
        rw [List.length_append, List.length_singleton]
        constructor
        · intro h
          cases h
        · rintro ⟨hne, hlt, hzero⟩
          exact absurd (hc.mpr ⟨by omega, hzero⟩) List.not_mem_nil⟩ data
    rw [ht]
    exact ⟨t, _, rfl, hfresh, hptrs, hfill⟩
  | cons raw rest =>
    dsimp only [List.head?_cons]
    rw [hnodes] at hfree hmem hnodup
    obtain ⟨hlt, hzero⟩ := (hmem raw).mp List.mem_cons_self
    have hat : s.allocated[raw]? = some s.allocated[raw] := List.getElem?_eq_getElem hlt
    obtain ⟨t, ht, hptrs, hfill⟩ := inv_fill (s := { s with freeQueue := freeQueue }) count hat
      ((hinv.raws raw _ hat).1.trans hzero) hzero (fun c other _ hc => hinv.raws c other hc) hinv.outside
      ⟨_, hfree, fun c => by
        have hc := hmem c
        rw [List.mem_cons] at hc
        show c ∈ rest ↔ _
        rw [← hc]
        constructor
        · intro h
          exact ⟨fun heq => (List.nodup_cons.mp hnodup).1 (heq ▸ h), .inr h⟩
        · rintro ⟨hne, h | h⟩
          · exact absurd h hne
          · exact h⟩ data
    rw [ht]
    exact ⟨t, _, rfl, hzero, hptrs, hfill⟩

/-! ### Each call -/

/-- What a call keeps, and what a new raw was before it. -/
def Advances (s : SharedObjectPool δ) (t : SharedObjectPool δ) (answer : Answer) : Prop :=
  Inv t (refs t) ∧ ∀ raw, answer = .allocated raw → refs s raw = 0

theorem refs_push (s : SharedObjectPool δ) (ptr : Option ℕ) (c : ℕ) : refs (s.push ptr) c = refs s c + hit ptr c :=
  Lib.refs_append Option.join s.ptrs (some ptr) c

theorem refs_put {h : ℕ} {ptr : Option ℕ} (hat : s.ptrs[h]? = some (some ptr)) (left : Option (Option ℕ)) (c : ℕ) :
    refs (s.put h left) c + hit ptr c = refs s c + hit left.join c := Lib.refs_set Option.join hat left c

theorem refs_of_ptrs {t : SharedObjectPool δ} (hptrs : t.ptrs = s.ptrs) (c : ℕ) : refs t c = refs s c := by
  unfold refs
  rw [hptrs]

theorem Inv.same (hinv : Inv s (refs s)) : Advances s s .nothing := ⟨hinv, fun _ h => by cases h⟩

/-- The variable is left on nothing or destroyed. -/
theorem Inv.release (hinv : Inv s (refs s)) {h : ℕ} {ptr : Option ℕ} (hat : s.ptrs[h]? = some (some ptr))
    {left : Option (Option ℕ)} (hleft : left.join = none) :
    ∃ t answer, ((s.drop ptr).map fun s => (s.put h left, Answer.nothing)) = some (t, answer) ∧ Advances s t answer := by
  obtain ⟨t, hdrop, hptrs, ht⟩ := hinv.drop (refs (s.put h left)) ptr fun c => by
    rw [refs_put hat left c, hleft, hit_none, Nat.add_zero]
  rw [hdrop]
  refine ⟨t.put h left, .nothing, rfl, (ht.ptrs (t.ptrs.set h left)).count_congr fun c => ?_, fun _ heq => by cases heq⟩
  exact refs_of_ptrs (congrArg (·.set h left) hptrs) c

theorem Inv.step (hinv : Inv s (refs s)) (op : Op δ) : ∃ t answer, s.step op = some (t, answer) ∧ Advances s t answer := by
  cases op with
  | null => exact ⟨s.push none, .nothing, rfl, (hinv.ptrs _).count_congr (refs_push s none), fun _ heq => by cases heq⟩
  | alloc data =>
    obtain ⟨t, raw, halloc, hfresh, hptrs, ht⟩ := hinv.alloc data
    refine ⟨_, _, halloc, (ht.ptrs _).count_congr fun c => ?_, ?_⟩
    · rw [← refs_of_ptrs hptrs c]
      exact refs_push t (some raw) c
    · rintro _ ⟨⟩
      exact hfresh
  | copy h =>
    dsimp only [SharedObjectPool.step]
    split
    · rename_i raw hat
      obtain ⟨t, hinc, hptrs, ht⟩ := hinv.inc raw fun b hb => Lib.refs_pos hat hb
      rw [hinc]
      refine ⟨t.push raw, .nothing, rfl, (ht.ptrs _).count_congr fun c => ?_, fun _ heq => by cases heq⟩
      rw [← refs_of_ptrs hptrs c]
      exact refs_push t raw c
    · exact ⟨_, _, rfl, hinv.same⟩
  | move h =>
    dsimp only [SharedObjectPool.step]
    split
    · rename_i raw hat
      refine ⟨_, _, rfl, (hinv.ptrs ((s.ptrs.set h (some none)) ++ [some raw])).count_congr fun c => ?_, fun _ heq => by cases heq⟩
      have hput := refs_put hat (some none) c
      exact (refs_push (s.put h (some none)) raw c).trans hput
    · exact ⟨_, _, rfl, hinv.same⟩
  | assign dest src =>
    dsimp only [SharedObjectPool.step]
    split
    · rename_i raw other hdest hsrc
      obtain ⟨t, hinc, hptrs, ht⟩ := hinv.inc other fun b hb => Lib.refs_pos hsrc hb
      obtain ⟨u, hdrop, huptrs, hu⟩ := ht.drop (refs (s.put dest (some other))) raw fun c => refs_put hdest (some other) c
      rw [hinc]
      refine ⟨u.put dest (some other), .nothing, ?_, (hu.ptrs _).count_congr fun c => ?_, fun _ heq => by cases heq⟩
      · show Option.map _ (t.drop raw) = _
        rw [hdrop]
        rfl
      · exact refs_of_ptrs (congrArg (·.set dest (some other)) (huptrs.trans hptrs)) c
    · exact ⟨_, _, rfl, hinv.same⟩
  | assignMove dest src =>
    dsimp only [SharedObjectPool.step]
    split
    · rename_i raw other hdest hsrc
      obtain ⟨t, hdrop, hptrs, ht⟩ := hinv.drop (refs ((s.put dest (some other)).put src (some none))) raw fun c => by
        have hput := refs_put hdest (some other) c
        have hsrc : (s.put dest (some other)).ptrs[src]? = some (some other) := by
          show (s.ptrs.set dest (some other))[src]? = _
          rw [List.getElem?_set]
          split
          · rename_i heq
            rw [if_pos (List.getElem?_eq_some_iff.mp hdest).1]
          · exact hsrc
        have hclear := refs_put hsrc (some none) c
        have hclear : _ + hit other c = _ + 0 := hclear
        have hput : _ + hit raw c = _ + hit other c := hput
        omega
      rw [hdrop]
      refine ⟨(t.put dest (some other)).put src (some none), .nothing, rfl, (ht.ptrs _).count_congr fun c => ?_,
        fun _ heq => by cases heq⟩
      exact refs_of_ptrs (congrArg (fun ptrs => (ptrs.set dest (some other)).set src (some none)) hptrs) c
    · exact ⟨_, _, rfl, hinv.same⟩
  | reset h =>
    dsimp only [SharedObjectPool.step]
    split
    · rename_i raw hat
      exact hinv.release hat rfl
    · exact ⟨_, _, rfl, hinv.same⟩
  | destroy h =>
    dsimp only [SharedObjectPool.step]
    split
    · rename_i raw hat
      exact hinv.release hat rfl
    · exact ⟨_, _, rfl, hinv.same⟩

/-! ### The destructor -/

/-- The loop of the destructor reads every node. -/
theorem countFree_quiet (rounds : ℕ) : ∀ {q : MpscLinkQueue Unit ℕ} {d : Deque ℕ} (n : ℕ), Quiet q d →
    d.nodes.length < rounds → countFree rounds q n = some (n + d.nodes.length) := by
  induction rounds with
  | zero => exact fun n _ hlt => absurd hlt (Nat.not_lt_zero _)
  | succ rounds ih =>
    intro q d n hquiet hlt
    obtain ⟨t, hread, ht⟩ := hquiet.readNode
    unfold countFree
    rw [hread]
    cases hnodes : d.nodes with
    | nil => rfl
    | cons node rest =>
      rw [hnodes, List.length_cons] at hlt
      rw [hnodes] at ht
      show countFree rounds t (n + 1) = _
      rw [ih (n + 1) ht (Nat.lt_of_succ_lt_succ hlt), List.length_cons]
      show some (n + 1 + rest.length) = _
      congr 1
      omega

/-- Without `Ptr`s every raw is free. -/
theorem Inv.closes (hinv : Inv s count) (hzero : ∀ raw, count raw = 0) : s.closes = true := by
  obtain ⟨d, hquiet, hmem⟩ := hinv.queue
  have hlength := queue_length hquiet hmem
  obtain ⟨popped, hpop, hpopped⟩ := hquiet.popNodes hlength
  have hperm : (d.pending ++ d.nodes).Perm (List.range s.allocated.length) := by
    rw [List.perm_ext_iff_of_nodup hquiet.rep.nodup List.nodup_range]
    intro raw
    rw [hmem raw, List.mem_range]
    exact ⟨fun h => h.1, fun h => ⟨h, hzero raw⟩⟩
  have hlen := hperm.length_eq
  rw [List.length_range, List.length_append] at hlen
  have hall : (s.allocated.all fun raw => decide (raw.refCnt = 0) && raw.data.isNone) = true := by
    rw [List.all_eq_true]
    intro value hvalue
    obtain ⟨raw, hraw⟩ := List.mem_iff_getElem?.mp hvalue
    obtain ⟨hrefCnt, hdata⟩ := hinv.raws raw value hraw
    have hnone : value.data.isNone = true := by
      cases hsome : value.data with
      | none => rfl
      | some data =>
        rw [hsome] at hdata
        exact absurd (hdata.mp rfl) (by rw [hzero raw]; exact Nat.lt_irrefl 0)
    rw [hnone, Bool.and_true]
    exact decide_eq_true (hrefCnt.trans (hzero raw))
  have hcount : countFree (s.allocated.length + 1) popped 0 = some s.allocated.length := by
    rw [countFree_quiet _ 0 hpopped (by rw [List.length_append]; omega), List.length_append]
    congr 1
    omega
  have hread : ((s.freeQueue.popNodes (s.allocated.length + 1)).bind fun freeQueue =>
      countFree (s.allocated.length + 1) freeQueue 0) = some s.allocated.length := by
    rw [hpop]
    exact hcount
  unfold SharedObjectPool.closes
  rw [hread]
  dsimp only
  rw [hall, Bool.and_true]
  exact decide_eq_true rfl

/-- After every sequence of calls, the counter of each raw is the number of the `Ptr`s that refer to it, and the raw is
in the free queue or with its reader once if there are none, and not at all if there are some; no `alloc` has returned
a raw that a `Ptr` referred to; and the destructor's checks hold when there are no `Ptr`s. -/
theorem raws_counted (ops : List (Op δ)) :
    ∃ s answers, (machine δ).run {} ops = some (s, answers) ∧
      (∀ raw value, s.allocated[raw]? = some value → value.refCnt = refs s raw) ∧
      (∃ d, Quiet s.freeQueue d ∧ ∀ raw, raw < s.allocated.length →
        (d.pending ++ d.nodes).count raw = if 0 < refs s raw then 0 else 1) ∧
      (∀ data, ∃ t raw, s.step (.alloc data) = some (t, .allocated raw) ∧ refs s raw = 0) ∧
      ((∀ raw, refs s raw = 0) → s.closes = true) := by
  obtain ⟨s, answers, hrun, hinv, -⟩ := Lib.Machine.run_total (M := machine δ) (P := fun s => Inv s (refs s))
    (Q := fun _ => True) (fun s op hinv => by
      obtain ⟨t, answer, hstep, ht⟩ := hinv.step op
      exact ⟨t, answer, hstep, ht.1, trivial⟩) ops {} inv_start
  obtain ⟨d, hquiet, hmem⟩ := hinv.queue
  refine ⟨s, answers, hrun, fun raw value hraw => (hinv.raws raw value hraw).1, ⟨d, hquiet, fun raw hraw => ?_⟩,
    fun data => ?_, hinv.closes⟩
  · have hraw' := hmem raw
    split
    · rename_i hpos
      exact List.count_eq_zero.mpr fun h => absurd (hraw'.mp h).2 (Nat.ne_of_gt hpos)
    · rename_i hzero
      exact List.count_eq_one_of_mem hquiet.rep.nodup (hraw'.mpr ⟨hraw, by omega⟩)
  · obtain ⟨t, raw, halloc, hfresh, -, -⟩ := hinv.alloc data
    exact ⟨_, raw, halloc, hfresh⟩

end TdUtils.SharedObjectPool
