import TdUtils.Heap.Operations

/-!
# Heap.HeapRuns — heaps over whole runs

`Change` says what each operation is to do to the multiset of keys with their nodes, `Follows` what a run
makes of it.  `heap_ok` is the refinement: as long as the `CHECK`s are met and `K` times the size fits in an `int` where `fix_down`
runs, every run goes through and follows.
-/

namespace TdUtils.KHeap

open Lib KAryHeap

universe u

variable {α N : Type u} [LinearOrder α] [DecidableEq N] {K : ℕ} {h : KHeap α N}

/-! ### What a heap is to do -/

/-- One operation on the multiset of keys with their nodes. -/
inductive Change : Multiset (α × N) → Op α N → Answer α N → Multiset (α × N) → Prop where
  | insert {m : Multiset (α × N)} {key : α} {node : N} (hnew : ∀ key', (key', node) ∉ m) :
      Change m (.insert key node) .none ((key, node) ::ₘ m)
  | fix (rest : Multiset (α × N)) (old key : α) (node : N) :
      Change ((old, node) ::ₘ rest) (.fix key node) .none ((key, node) ::ₘ rest)
  | erase (rest : Multiset (α × N)) (key : α) (node : N) :
      Change ((key, node) ::ₘ rest) (.erase node) .none rest
  | pop {rest : Multiset (α × N)} {key : α} {node : N} (hmin : ∀ e ∈ rest, key ≤ e.1) :
      Change ((key, node) ::ₘ rest) .pop (.node node) rest
  | topKey {m : Multiset (α × N)} {key : α} {node : N} (hmem : (key, node) ∈ m)
      (hmin : ∀ e ∈ m, key ≤ e.1) : Change m .topKey (.key key) m

/-- The multiset that a run leaves. -/
inductive Follows : List (Op α N × Answer α N) → Multiset (α × N) → Prop where
  | nil : Follows [] 0
  | concat {events : List (Op α N × Answer α N)} {m m' : Multiset (α × N)} {op : Op α N}
      {answer : Answer α N} (h : Follows events m) (hc : Change m op answer m') :
      Follows (events ++ [(op, answer)]) m'

/-- A heap as a user sees it. -/
structure HeapOk (K : ℕ) (h : KHeap α N) : Prop where
  order : ∀ (i j : ℕ) a b, i * K + 1 ≤ j → j < i * K + 1 + K → h.array[i]? = some a →
    h.array[j]? = some b → a.key ≤ b.key
  pos_eq : ∀ (i : ℕ) item, h.array[i]? = some item → h.pos item.node = i
  outside : ∀ node, (∀ item ∈ h.array, item.node ≠ node) → h.pos node = -1

/-! ### Steps -/

/-- What the `CHECK`s ask for. -/
def Allowed (h : KHeap α N) : Op α N → Prop
  | .insert _ node => h.pos node = -1
  | .fix _ node | .erase node => h.pos node ≠ -1
  | .pop | .topKey => h.array ≠ []

/-- The size is in `int`, and so are the positions that `fix_down` computes, if the operation runs it: a key that gets
less goes up only, and nothing moves when the last item leaves. -/
def Fits (K : ℕ) (h : KHeap α N) : Op α N → Prop
  | .insert _ _ => h.array.length + 1 ≤ intMax
  | .fix key node => (∃ old ∈ h.keyOf node, key < old) ∨ h.array.length * K + 1 ≤ intMax
  | .erase node => h.array.length ≤ intMax ∧
    (h.pos node + 1 = h.array.length ∨ (h.array.length - 1) * K + 1 ≤ intMax)
  | .pop => h.array.length ≤ intMax ∧ (h.array.length = 1 ∨ (h.array.length - 1) * K + 1 ≤ intMax)
  | .topKey => True

omit [LinearOrder α] in
instance decidableAllowed (h : KHeap α N) : ∀ op, Decidable (Allowed h op)
  | .insert _ node => inferInstanceAs (Decidable (h.pos node = -1))
  | .fix _ node | .erase node => inferInstanceAs (Decidable (h.pos node ≠ -1))
  | .pop | .topKey => decidable_of_iff (h.array.isEmpty = false) (by simp [Allowed])

instance decidableFits (K : ℕ) (h : KHeap α N) : ∀ op, Decidable (Fits K h op)
  | .insert _ _ => inferInstanceAs (Decidable (h.array.length + 1 ≤ intMax))
  | .fix _ _ => inferInstanceAs (Decidable (_ ∨ _))
  | .erase _ | .pop => inferInstanceAs (Decidable (_ ∧ (_ ∨ _)))
  | .topKey => isTrue trivial

omit [LinearOrder α] [DecidableEq N] in
theorem exists_top (hne : h.array ≠ []) : ∃ top, h.array[0]? = some top :=
  getElem?_of_lt (List.length_pos_iff.mpr hne)

omit [DecidableEq N] in
theorem Ok.items_le (hok : Ok K h) {top : Item α N} (htop : h.array[0]? = some top) :
    ∀ e ∈ items h, top.key ≤ e.1 := by
  intro e he
  obtain ⟨item, hitem, rfl⟩ := List.mem_map.mp (Multiset.mem_coe.mp he)
  exact hok.root_le htop hitem

theorem Ok.step (hok : Ok K h) (hK : 1 ≤ K) {op : Op α N} (hallowed : Allowed h op)
    (hfits : Fits K h op) :
    ∃ h' answer, KHeap.step K h op = some (h', answer) ∧ Ok K h' ∧
      Change (items h) op answer (items h') := by
  cases op with
  | insert key node =>
    obtain ⟨h', hstep, hok', hitems⟩ := hok.insert key hallowed hfits
    refine ⟨h', .none, congrArg (Option.map _) hstep, hok', hitems ▸ .insert fun key' hmem => ?_⟩
    obtain ⟨item, hitem, heq⟩ := List.mem_map.mp (Multiset.mem_coe.mp hmem)
    refine hok.linked.not_mem hallowed (List.mem_map.mpr ⟨item, hitem, ?_⟩)
    exact congrArg Prod.snd heq
  | fix key node =>
    obtain ⟨h', old, rest, hstep, hok', hold, hnew⟩ := hok.fix hK key hallowed hfits
    refine ⟨h', .none, congrArg (Option.map _) hstep, hok', ?_⟩
    rw [hold, hnew]
    exact .fix rest old key node
  | erase node =>
    obtain ⟨pos, key, hitem, hpos⟩ := hok.linked.of_ne hallowed
    obtain ⟨hsize, hlast⟩ : h.array.length ≤ intMax ∧ _ := hfits
    rw [hpos] at hlast
    obtain ⟨h', hstep, hok', hitems⟩ := hok.erasePos hK hitem hsize (by omega)
    rw [hitems]
    refine ⟨h', .none, ?_, hok', .erase _ key node⟩
    have hnode : h.pos node ≠ -1 := hallowed
    have herase : KHeap.erase K h node = some h' := by
      unfold KHeap.erase
      rw [if_pos hnode, hpos]
      exact hstep
    exact congrArg (Option.map _) herase
  | pop =>
    obtain ⟨top, htop⟩ := exists_top hallowed
    obtain ⟨hsize, hlast⟩ : h.array.length ≤ intMax ∧ _ := hfits
    obtain ⟨h', hstep, hok', hitems⟩ := hok.erasePos hK htop hsize (by omega)
    have hmin := hok.items_le htop
    rw [hitems] at hmin ⊢
    refine ⟨h', .node top.node, ?_, hok', .pop fun e he => hmin e (Multiset.mem_cons_of_mem he)⟩
    have hpop : KHeap.pop K h = some (h', top.node) := by
      unfold KHeap.pop
      rw [htop]
      exact congrArg (Option.map _) hstep
    exact congrArg (Option.map _) hpop
  | topKey =>
    obtain ⟨top, htop⟩ := exists_top hallowed
    have hmem : (top.key, top.node) ∈ items h :=
      Multiset.mem_coe.mpr (List.mem_map.mpr ⟨top, List.mem_of_getElem? htop, rfl⟩)
    refine ⟨h, .key top.key, ?_, hok, .topKey hmem (hok.items_le htop)⟩
    have hkey : topKey h = some top.key := congrArg (Option.map _) htop
    exact congrArg (Option.map _) hkey

/-! ### Runs -/

omit [DecidableEq N] in
theorem ok_new : Ok K (new : KHeap α N) :=
  ⟨⟨List.nodup_nil, fun i item hi => by simp [new] at hi, fun _ _ => rfl⟩,
    fun c _ a b _ hb => by simp [keys, new] at hb⟩

omit [DecidableEq N] in
theorem Ok.heapOk (hok : Ok K h) (hK : 1 ≤ K) : HeapOk K h := by
  refine ⟨fun i j a b h1 h2 ha hb => ?_, hok.linked.pos_eq, fun node hnode => ?_⟩
  · have hj : 0 < j := by omega
    have hpar : parent K j = i := (parent_eq_iff hK hj).mpr ⟨h1, h2⟩
    exact le_keys.mp (hpar ▸ hok.heaped j hj) a b ha hb
  · refine hok.linked.outside node fun hmem => ?_
    obtain ⟨item, hitem, heq⟩ := List.mem_map.mp hmem
    exact hnode item hitem heq

theorem heap_ok (hK : 1 ≤ K) (ops : List (Op α N))
    (hops : (machine α N K).Along (fun h op => Allowed h op ∧ Fits K h op) new ops) :
    ∃ h answers, (machine α N K).run new ops = some (h, answers) ∧ HeapOk K h ∧
      Follows (ops.zip answers) (items h) := by
  let P := fun (ops : List (Op α N)) (answers : List (Answer α N)) h =>
    Ok K h ∧ Follows (ops.zip answers) (items h) ∧ ops.length = answers.length
  have hstep : ∀ ops answers h op, True → (Allowed h op ∧ Fits K h op) → P ops answers h →
      ∃ h' answer, (machine α N K).step h op = some (h', answer) ∧
        P (ops ++ [op]) (answers ++ [answer]) h' := by
    intro ops answers h op _ hop hP
    obtain ⟨hok, hfollows, hlen⟩ := hP
    obtain ⟨h', answer, hs, hok', hchange⟩ := hok.step hK hop.1 hop.2
    refine ⟨h', answer, hs, hok', ?_, by simp [hlen]⟩
    rw [List.zip_append hlen]
    exact .concat hfollows hchange
  obtain ⟨h, answers, hrun, hok, hfollows, -⟩ := Machine.run_history (machine α N K) new
    (fun h op => Allowed h op ∧ Fits K h op) (fun _ => True) P (fun _ _ _ => trivial)
    ⟨ok_new, .nil, rfl⟩ hstep ops trivial hops
  exact ⟨h, answers, hrun, hok.heapOk hK, hfollows⟩

/-- Equal keys, an item that goes up, an item that goes down, and an item that leaves the middle. -/
theorem heap_ok_mixed : ∃ h answers, (machine ℕ ℕ 2).run new [.insert 5 0, .insert 4 1, .insert 4 2,
      .insert 3 3, .topKey, .fix 1 0, .fix 9 3, .erase 1, .pop] = some (h, answers) ∧ HeapOk 2 h ∧
      Follows ([.insert 5 0, .insert 4 1, .insert 4 2, .insert 3 3, .topKey, .fix 1 0, .fix 9 3,
        .erase 1, .pop].zip answers) (items h) :=
  heap_ok (by decide) _ (by decide)

/-- Whatever is in the heap, the last item cannot go down when `K` times the size is not in `int`. -/
theorem fixDown_overflow (hlt : intMax < h.array.length * K + 1) :
    fixDown K h (h.array.length - 1) = none := by
  unfold fixDown
  rcases hitem : h.array[h.array.length - 1]? with - | item
  · rfl
  · obtain ⟨hpos, -⟩ := List.getElem?_eq_some_iff.mp hitem
    obtain ⟨n, hn⟩ : ∃ n, h.array.length = n + 1 := ⟨h.array.length - 1, by omega⟩
    have hmul : (n + 1) * K = n * K + K := Nat.succ_mul n K
    rw [hn, hmul] at hlt
    dsimp only
    rw [hn, fixDownLoop, Nat.add_sub_cancel]
    exact if_neg (by omega)

/-- With the greatest `K` the key of a single item cannot be fixed. -/
theorem heap_overflow : ¬∀ (K : ℕ) (ops : List (Op ℕ ℕ)), 1 ≤ K →
    (machine ℕ ℕ K).Along (fun h op => Allowed h op ∧ h.array.length + 1 ≤ intMax) new ops →
    ∃ h answers, (machine ℕ ℕ K).run new ops = some (h, answers) ∧ HeapOk K h ∧
      Follows (ops.zip answers) (items h) := by
  intro hall
  obtain ⟨h, answers, hrun, -⟩ := hall (2 ^ 31 - 1) [.insert 1 0, .insert 2 1, .fix 3 0] (by decide)
    (by decide)
  have hnone : ((machine ℕ ℕ (2 ^ 31 - 1)).run new [.insert 1 0, .insert 2 1, .fix 3 0]).isNone := by
    decide
  rw [hrun] at hnone
  cases hnone

end TdUtils.KHeap
