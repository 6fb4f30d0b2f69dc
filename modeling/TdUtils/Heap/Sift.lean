import Mathlib.Data.List.Nodup
import Mathlib.Data.List.Perm.Basic
import TdUtils.Heap.KHeap
import TdUtils.Lib.KAryHeap

/-!
# Heap.Sift — the two sifts

A sift holds one item in hand and leaves a hole in the array.  `Hole` says what is true of the array with
the item put back and of the back pointers of all other items; a move of the hole swaps two items of that
array.  The order part is the theory of `Lib.KAryHeap`.
-/

namespace TdUtils.KHeap

open Lib KAryHeap

universe u

variable {α N : Type u} [LinearOrder α] [DecidableEq N] {K : ℕ} {h : KHeap α N} {pos q : ℕ}
  {item other : Item α N}

/-! ### Keys and back pointers -/

/-- The keys of an array by position. -/
def keys (array : List (Item α N)) (i : ℕ) : Option α := array[i]?.map Item.key

/-- The back pointers are right. -/
structure Linked (h : KHeap α N) : Prop where
  nodup : (h.array.map Item.node).Nodup
  pos_eq : ∀ (i : ℕ) item, h.array[i]? = some item → h.pos item.node = i
  outside : ∀ node, node ∉ h.array.map Item.node → h.pos node = -1

/-- The back pointers are right but for the item in hand, which belongs to the hole at `pos`. -/
structure Hole (h : KHeap α N) (pos : ℕ) (item : Item α N) : Prop where
  lt : pos < h.array.length
  nodup : ((h.array.set pos item).map Item.node).Nodup
  pos_eq : ∀ (i : ℕ) other, i ≠ pos → h.array[i]? = some other → h.pos other.node = i
  outside : ∀ node, node ∉ (h.array.set pos item).map Item.node → h.pos node = -1

section Hole

omit [LinearOrder α] [DecidableEq N]

theorem le_keys {array : List (Item α N)} [LinearOrder α] {i j : ℕ} :
    Le (keys array) i j ↔ ∀ a b, array[i]? = some a → array[j]? = some b → a.key ≤ b.key := by
  constructor
  · intro h a b ha hb
    exact h a.key b.key (by simp [keys, ha]) (by simp [keys, hb])
  · intro h a b ha hb
    obtain ⟨x, hx, rfl⟩ := Option.map_eq_some_iff.mp ha
    obtain ⟨y, hy, rfl⟩ := Option.map_eq_some_iff.mp hb
    exact h x y hx hy

theorem keys_defined {array : List (Item α N)} {i : ℕ} :
    (∃ a, keys array i = some a) ↔ i < array.length := by
  constructor
  · rintro ⟨a, ha⟩
    obtain ⟨x, hx, -⟩ := Option.map_eq_some_iff.mp ha
    exact (List.getElem?_eq_some_iff.mp hx).1
  · intro hi
    exact ⟨_, by rw [keys, List.getElem?_eq_getElem hi, Option.map_some]⟩

theorem Linked.hole (hl : Linked h) (hitem : h.array[pos]? = some item) : Hole h pos item := by
  obtain ⟨hlt, hget⟩ := List.getElem?_eq_some_iff.mp hitem
  have hset : h.array.set pos item = h.array := by
    rw [← hget]
    exact List.set_getElem_self hlt
  refine ⟨hlt, ?_, fun i other _ => hl.pos_eq i other, ?_⟩
  · rw [hset]
    exact hl.nodup
  · rw [hset]
    exact hl.outside

/-- Items at two positions have two nodes. -/
theorem node_ne_of_nodup {array : List (Item α N)} (hnodup : (array.map Item.node).Nodup) {i j : ℕ}
    {a b : Item α N} (ha : array[i]? = some a) (hb : array[j]? = some b) (hij : i ≠ j) :
    a.node ≠ b.node := by
  intro heq
  have hi : (array.map Item.node)[i]? = some a.node := by simp [ha]
  have hj : (array.map Item.node)[j]? = some a.node := by simp [hb, heq]
  obtain ⟨hlt, -⟩ := List.getElem?_eq_some_iff.mp hi
  exact hij ((List.getElem?_inj hlt hnodup).mp (hi.trans hj.symm))

variable [DecidableEq N]

/-- The item in hand is put back. -/
theorem Hole.finish (hh : Hole h pos item) : Linked (h.place pos item) := by
  refine ⟨hh.nodup, fun i other hi => ?_, fun node hnode => ?_⟩
  · by_cases hpos : i = pos
    · have hself : (h.array.set pos item)[pos]? = some item := by simp [hh.lt]
      rw [hpos] at hi ⊢
      obtain rfl := Option.some.inj (hself.symm.trans hi)
      exact Function.update_self _ _ _
    · have hself : (h.array.set pos item)[pos]? = some item := by simp [hh.lt]
      have hne := node_ne_of_nodup hh.nodup hi hself hpos
      have hold : h.array[i]? = some other := by
        rwa [place, List.getElem?_set_ne (Ne.symm hpos)] at hi
      exact (Function.update_of_ne hne _ _).trans (hh.pos_eq i other hpos hold)
  · have hmem : item.node ∈ (h.array.set pos item).map Item.node :=
      List.mem_map_of_mem (List.mem_set hh.lt item)
    have hne : node ≠ item.node := fun heq => hnode (heq ▸ hmem)
    exact (Function.update_of_ne hne _ _).trans (hh.outside node hnode)

/-- The hole moves to `q`, and the item of `q` to where the hole was. -/
theorem Hole.swap_eq (hh : Hole h pos item) (hq : h.array[q]? = some other) (hne : q ≠ pos) :
    ∃ (hp : pos < (h.array.set pos item).length) (hq : q < (h.array.set pos item).length),
      (h.place pos other).array.set q item =
        ((h.array.set pos item).set pos (h.array.set pos item)[q]).set q
          (h.array.set pos item)[pos] := by
  obtain ⟨hlt, hget⟩ := List.getElem?_eq_some_iff.mp hq
  refine ⟨by simpa using hh.lt, by simpa using hlt, ?_⟩
  rw [List.set_set, List.getElem_set_self, List.getElem_set_ne (Ne.symm hne), hget]
  rfl

theorem Hole.perm (hh : Hole h pos item) (hq : h.array[q]? = some other) (hne : q ≠ pos) :
    ((h.place pos other).array.set q item).Perm (h.array.set pos item) := by
  obtain ⟨hp, hq', heq⟩ := hh.swap_eq hq hne
  rw [heq]
  exact List.set_set_perm hp hq'

theorem Hole.keys_eq (hh : Hole h pos item) (hq : h.array[q]? = some other) (hne : q ≠ pos) :
    keys ((h.place pos other).array.set q item) =
      swapped (keys (h.array.set pos item)) pos q := by
  obtain ⟨hlt, hget⟩ := List.getElem?_eq_some_iff.mp hq
  funext i
  by_cases hi : i = pos
  · rw [hi, swapped_left]
    simp [keys, place, hne, hh.lt, hlt, hget, Ne.symm hne]
  · by_cases hiq : i = q
    · rw [hiq, swapped_right]
      simp [keys, place, hh.lt, hlt]
    · rw [swapped_of_ne hi hiq]
      simp [keys, place, Ne.symm hi, Ne.symm hiq]

theorem Hole.move (hh : Hole h pos item) (hq : h.array[q]? = some other) (hne : q ≠ pos) :
    Hole (h.place pos other) q item := by
  have hperm := hh.perm hq hne
  obtain ⟨hlt, -⟩ := List.getElem?_eq_some_iff.mp hq
  have hnodup := (hperm.map Item.node).nodup_iff.mpr hh.nodup
  refine ⟨by simpa [place] using hlt, hnodup, fun i a hi ha => ?_, fun node hnode => ?_⟩
  · have hV : (h.array.set pos item)[q]? = some other := by
      rw [List.getElem?_set_ne (Ne.symm hne), hq]
    by_cases hpos : i = pos
    · rw [hpos] at ha ⊢
      have hself : (h.place pos other).array[pos]? = some other := by simp [place, hh.lt]
      obtain rfl := Option.some.inj (hself.symm.trans ha)
      exact Function.update_self _ _ _
    · have hold : h.array[i]? = some a := by
        rwa [place, List.getElem?_set_ne (Ne.symm hpos)] at ha
      have hold' : (h.array.set pos item)[i]? = some a := by
        rw [List.getElem?_set_ne (Ne.symm hpos), hold]
      have hnode := node_ne_of_nodup hh.nodup hold' hV hi
      exact (Function.update_of_ne hnode _ _).trans (hh.pos_eq i a hpos hold)
  · have hmem : node ∉ (h.array.set pos item).map Item.node := fun hmem =>
      hnode ((hperm.map Item.node).mem_iff.mpr hmem)
    have hother : other.node ∈ (h.array.set pos item).map Item.node := by
      refine List.mem_map_of_mem (List.mem_of_getElem? (i := q) ?_)
      rw [List.getElem?_set_ne (Ne.symm hne), hq]
    have hne' : node ≠ other.node := fun heq => hmem (heq ▸ hother)
    exact (Function.update_of_ne hne' _ _).trans (hh.outside node hmem)

end Hole

/-! ### `fix_up` -/

omit [LinearOrder α] [DecidableEq N] in
theorem getElem?_of_lt {array : List (Item α N)} {i : ℕ} (h : i < array.length) :
    ∃ a, array[i]? = some a := ⟨_, List.getElem?_eq_getElem h⟩

/-- What a sift is to do: the array has the same items, in heap order, and the back pointers are right. -/
structure Sifted (K : ℕ) (array : List (Item α N)) (h : KHeap α N) : Prop where
  linked : Linked h
  perm : h.array.Perm array
  heaped : Heaped K (keys h.array)

theorem Hole.sifted (hh : Hole h pos item) (hheap : Heaped K (keys (h.array.set pos item))) :
    Sifted K (h.array.set pos item) (h.place pos item) :=
  ⟨hh.finish, List.Perm.refl _, hheap⟩

theorem fixUpLoop_spec (fuel : ℕ) (h : KHeap α N) (pos : ℕ) (hh : Hole h pos item)
    (hfuel : pos < fuel) (ha : Around K (keys (h.array.set pos item)) pos)
    (hb : Below K (keys (h.array.set pos item)) pos) :
    ∃ h', fixUpLoop K item fuel h pos = some h' ∧ Sifted K (h.array.set pos item) h' := by
  induction fuel generalizing h pos with
  | zero => omega
  | succ fuel ih =>
    unfold fixUpLoop
    by_cases hpos : pos = 0
    · have htop : Above K (keys (h.array.set pos item)) pos := fun h0 => absurd hpos (by omega)
      exact ⟨_, if_pos hpos, hh.sifted (ha.heaped hb htop)⟩
    have hpos0 : 0 < pos := by omega
    have hlt : parent K pos < pos := parent_lt hpos0
    obtain ⟨other, hother⟩ := getElem?_of_lt (Nat.lt_trans hlt hh.lt)
    have hother' : h.array[(pos - 1) / K]? = some other := hother
    have hself : (h.array.set pos item)[pos]? = some item := by simp [hh.lt]
    have hpar : (h.array.set pos item)[parent K pos]? = some other := by
      rw [List.getElem?_set_ne (by omega), hother]
    rw [if_neg hpos]
    dsimp only
    rw [hother']
    dsimp only
    by_cases hkey : other.key < item.key
    · have habove : Above K (keys (h.array.set pos item)) pos := by
        intro _
        rw [le_keys]
        intro a b ha hb
        obtain rfl := Option.some.inj (hpar.symm.trans ha)
        obtain rfl := Option.some.inj (hself.symm.trans hb)
        exact hkey.le
      exact ⟨_, if_pos hkey, hh.sifted (ha.heaped hb habove)⟩
    · rw [if_neg hkey]
      have hle : Le (keys (h.array.set pos item)) pos (parent K pos) := by
        rw [le_keys]
        intro a b ha hb
        obtain rfl := Option.some.inj (hself.symm.trans ha)
        obtain rfl := Option.some.inj (hpar.symm.trans hb)
        exact not_lt.mp hkey
      have hne : parent K pos ≠ pos := by omega
      have hup := ha.up hpos0 hle (keys_defined.mpr (by rw [List.length_set]; exact Nat.lt_trans hlt hh.lt))
      rw [← hh.keys_eq hother hne] at hup
      obtain ⟨h', hloop, hs⟩ := ih (h.place pos other) (parent K pos) (hh.move hother hne) (by omega)
        hup.1 hup.2
      exact ⟨h', hloop, hs.linked, hs.perm.trans (hh.perm hother hne), hs.heaped⟩

theorem fixUp_spec (hh : Hole h pos item) (hitem : h.array[pos]? = some item)
    (ha : Around K (keys h.array) pos) (hb : Below K (keys h.array) pos) :
    ∃ h', fixUp K h pos = some h' ∧ Sifted K h.array h' := by
  have hset : h.array.set pos item = h.array := by
    obtain ⟨hlt, hget⟩ := List.getElem?_eq_some_iff.mp hitem
    rw [← hget]
    exact List.set_getElem_self hlt
  have hspec := fixUpLoop_spec (K := K) (pos + 1) h pos hh (Nat.lt_succ_self pos)
  rw [hset] at hspec
  unfold fixUp
  rw [hitem]
  exact hspec ha hb

/-! ### `fix_down` -/

/-- What the scan of the children finds. -/
structure Next (array : List (Item α N)) (pos : ℕ) (key : α) (left right : ℕ) (next : ℕ × α) : Prop where
  le : next.2 ≤ key
  min : ∀ i a, left ≤ i → i < right → array[i]? = some a → next.2 ≤ a.key
  found : next = (pos, key) ∨
    left ≤ next.1 ∧ next.1 < right ∧ next.2 < key ∧ ∃ a, array[next.1]? = some a ∧ a.key = next.2

omit [DecidableEq N] in
theorem foldlM_next (array : List (Item α N)) (n left pos : ℕ) (key : α)
    (hlen : left + n ≤ array.length) :
    ∃ next, (List.range' left n).foldlM (fun next i => array[i]?.map fun item =>
        if item.key < next.2 then (i, item.key) else next) (pos, key) = some next ∧
      Next array pos key left (left + n) next := by
  induction n generalizing left pos key with
  | zero =>
    exact ⟨(pos, key), rfl, le_refl key, fun i a h1 h2 => by omega, Or.inl rfl⟩
  | succ n ih =>
    obtain ⟨a, ha⟩ := getElem?_of_lt (show left < array.length by omega)
    rw [List.range'_succ, List.foldlM_cons, ha, Option.map_some]
    show ∃ next, (List.range' (left + 1) n).foldlM _ (if a.key < key then (left, a.key) else (pos, key)) =
      some next ∧ _
    by_cases hkey : a.key < key
    · rw [if_pos hkey]
      obtain ⟨next, hnext, hle, hmin, hfound⟩ := ih (left + 1) left a.key (by omega)
      refine ⟨next, hnext, hle.trans hkey.le, fun i b h1 h2 hb => ?_, Or.inr ?_⟩
      · rcases Nat.eq_or_lt_of_le h1 with rfl | h1
        · obtain rfl := Option.some.inj (ha.symm.trans hb)
          exact hle
        · exact hmin i b h1 (by omega) hb
      · rcases hfound with rfl | ⟨h1, h2, h3, h4⟩
        · exact ⟨Nat.le_refl _, by simp, hkey, a, ha, rfl⟩
        · exact ⟨by omega, by omega, h3.trans hkey, h4⟩
    · rw [if_neg hkey]
      obtain ⟨next, hnext, hle, hmin, hfound⟩ := ih (left + 1) pos key (by omega)
      refine ⟨next, hnext, hle, fun i b h1 h2 hb => ?_, ?_⟩
      · rcases Nat.eq_or_lt_of_le h1 with rfl | h1
        · obtain rfl := Option.some.inj (ha.symm.trans hb)
          exact hle.trans (not_lt.mp hkey)
        · exact hmin i b h1 (by omega) hb
      · rcases hfound with rfl | ⟨h1, h2, h3, h4⟩
        · exact Or.inl rfl
        · exact Or.inr ⟨by omega, by omega, h3, h4⟩

omit [DecidableEq N] in
theorem nextChild_spec (pos : ℕ) {size : ℕ} (hsize : size ≤ h.array.length) (key : α) :
    ∃ next, nextChild h.array pos key (pos * K + 1) (min (pos * K + 1 + K) size) = some next ∧
      Next h.array pos key (pos * K + 1) (min (pos * K + 1 + K) size) next := by
  unfold nextChild
  by_cases hle : pos * K + 1 ≤ min (pos * K + 1 + K) size
  · have hspec := foldlM_next h.array
      (min (pos * K + 1 + K) size - (pos * K + 1)) (pos * K + 1) pos key (by omega)
    rwa [Nat.add_sub_cancel' hle] at hspec
  · rw [Nat.sub_eq_zero_of_le (by omega)]
    exact ⟨(pos, key), rfl, le_refl key, fun i a h1 h2 => by omega, Or.inl rfl⟩

/-- One round: the item stays, or goes down to its least child. -/
theorem fixDownLoop_cases (hK : 1 ≤ K) (hh : Hole h pos item)
    (hint : h.array.length * K + 1 ≤ intMax) (ha : Around K (keys (h.array.set pos item)) pos)
    (fuel : ℕ) :
    (fixDownLoop K item (fuel + 1) h pos = some (h.place pos item) ∧
        Below K (keys (h.array.set pos item)) pos) ∨
      ∃ (q : ℕ) (other : Item α N), pos < q ∧ h.array[q]? = some other ∧
        fixDownLoop K item (fuel + 1) h pos = fixDownLoop K item fuel (h.place pos other) q ∧
        Around K (keys ((h.place pos other).array.set q item)) q ∧
        Above K (keys ((h.place pos other).array.set q item)) q := by
  have hmul : (pos + 1) * K ≤ h.array.length * K := Nat.mul_le_mul_right K hh.lt
  have hmul' : (pos + 1) * K = pos * K + K := by rw [Nat.succ_mul]
  have hsize : h.intSize = some h.array.length := by
    have hle : h.array.length * 1 ≤ h.array.length * K := Nat.mul_le_mul_left _ hK
    exact if_pos (by omega)
  have hpos_lt : pos < pos * K + 1 := by
    have hle : pos * 1 ≤ pos * K := Nat.mul_le_mul_left _ hK
    omega
  have hself : (h.array.set pos item)[pos]? = some item := by simp [hh.lt]
  obtain ⟨next, hnext, hle, hmin, hfound⟩ :=
    nextChild_spec (K := K) pos (Nat.le_refl h.array.length) item.key
  have hmin' : ∀ c, 0 < c → parent K c = pos → ∀ b, (h.array.set pos item)[c]? = some b →
      next.2 ≤ b.key := by
    intro c hc hpar b hb
    rw [parent_eq_iff hK hc] at hpar
    rw [List.getElem?_set_ne (by omega)] at hb
    obtain ⟨hlt, -⟩ := List.getElem?_eq_some_iff.mp hb
    exact hmin c b hpar.1 (by omega) hb
  rw [fixDownLoop, if_pos (by omega), hsize]
  dsimp only
  rw [hnext]
  dsimp only
  rcases hfound with rfl | ⟨h1, h2, h3, other, hother, hkey⟩
  · left
    refine ⟨if_pos rfl, fun c hc hpar => ?_⟩
    rw [le_keys]
    intro a b ha hb
    obtain rfl := Option.some.inj (hself.symm.trans ha)
    exact hmin' c hc hpar b hb
  · right
    have hq : 0 < next.1 := by omega
    have hpar : parent K next.1 = pos := (parent_eq_iff hK hq).mpr ⟨h1, by omega⟩
    have hV : (h.array.set pos item)[next.1]? = some other := by
      rw [List.getElem?_set_ne (by omega), hother]
    have hle' : Le (keys (h.array.set pos item)) next.1 pos := by
      rw [le_keys]
      intro a b ha hb
      obtain rfl := Option.some.inj (hV.symm.trans ha)
      obtain rfl := Option.some.inj (hself.symm.trans hb)
      exact hkey.trans_le hle
    have hleast : ∀ c, 0 < c → parent K c = pos → Le (keys (h.array.set pos item)) next.1 c := by
      intro c hc hpar
      rw [le_keys]
      intro a b ha hb
      obtain rfl := Option.some.inj (hV.symm.trans ha)
      exact hkey.trans_le (hmin' c hc hpar b hb)
    have hdown := ha.down hq hpar hle' hleast
    have hne : next.1 ≠ pos := by omega
    rw [← hh.keys_eq hother hne] at hdown
    refine ⟨next.1, other, by omega, hother, ?_, hdown.1, hdown.2⟩
    rw [if_neg hne, hother]

theorem fixDownLoop_spec (hK : 1 ≤ K) (fuel : ℕ) (h : KHeap α N) (pos : ℕ) (hh : Hole h pos item)
    (hfuel : h.array.length < pos + fuel + 1) (hint : h.array.length * K + 1 ≤ intMax)
    (ha : Around K (keys (h.array.set pos item)) pos)
    (hb : Above K (keys (h.array.set pos item)) pos) :
    ∃ h', fixDownLoop K item fuel h pos = some h' ∧ Sifted K (h.array.set pos item) h' := by
  induction fuel generalizing h pos with
  | zero =>
    have hlt := hh.lt
    omega
  | succ fuel ih =>
    rcases fixDownLoop_cases hK hh hint ha fuel with ⟨hstop, hbelow⟩ |
      ⟨q, other, hlt, hother, hmove, ha', hb'⟩
    · exact ⟨_, hstop, hh.sifted (ha.heaped hbelow hb)⟩
    · have hne : q ≠ pos := by omega
      have hlen : (h.place pos other).array.length = h.array.length := List.length_set
      obtain ⟨h', hloop, hs⟩ := ih (h.place pos other) q (hh.move hother hne) (by omega)
        (by rwa [hlen]) ha' hb'
      exact ⟨h', hmove.trans hloop, hs.linked, hs.perm.trans (hh.perm hother hne), hs.heaped⟩

/-- `fix_down` on an item that may also be less than its parent. -/
theorem fixDown_spec (hK : 1 ≤ K) (hh : Hole h pos item) (hitem : h.array[pos]? = some item)
    (hint : h.array.length * K + 1 ≤ intMax) (ha : Around K (keys h.array) pos) :
    ∃ h', fixDown K h pos = some h' ∧ Linked h' ∧ h'.array.Perm h.array ∧
      (Heaped K (keys h'.array) ∨ h'.array = h.array ∧ Below K (keys h.array) pos) := by
  obtain ⟨hlt, hget⟩ := List.getElem?_eq_some_iff.mp hitem
  have hset : h.array.set pos item = h.array := by
    rw [← hget]
    exact List.set_getElem_self hlt
  obtain ⟨fuel, hfuel⟩ : ∃ fuel, h.array.length = fuel + 1 := ⟨h.array.length - 1, by omega⟩
  unfold fixDown
  rw [hitem]
  dsimp only
  rw [hfuel]
  have hcases := fixDownLoop_cases hK hh hint (hset.symm ▸ ha) fuel
  rw [hset] at hcases
  rcases hcases with ⟨hstop, hbelow⟩ | ⟨q, other, hlt, hother, hmove, ha', hb'⟩
  · exact ⟨_, hstop, hh.finish, by rw [place, hset], Or.inr ⟨hset, hbelow⟩⟩
  · have hne : q ≠ pos := by omega
    have hlen : (h.place pos other).array.length = h.array.length := List.length_set
    obtain ⟨h', hloop, hs⟩ := fixDownLoop_spec hK fuel (h.place pos other) q (hh.move hother hne)
      (by omega) (by rwa [hlen]) ha' hb'
    have hperm := hs.perm.trans (hh.perm hother hne)
    exact ⟨h', hmove.trans hloop, hs.linked, by rwa [hset] at hperm, Or.inl hs.heaped⟩

end TdUtils.KHeap
