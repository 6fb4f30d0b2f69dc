import Mathlib.Data.List.Nodup
import Mathlib.Logic.Function.Basic

/-!
# Lib.LinkedList — singly linked lists in a heap of `next` pointers

`Links next p l`: following `next` from `p` visits the nodes `l` and ends.
-/

namespace TdUtils.Lib

universe u

variable {ν : Type u} {next next' : ν → Option ν} {p q : Option ν} {l l' : List ν} {node : ν}

/-- The list from the pointer `p` on. -/
def Links (next : ν → Option ν) : Option ν → List ν → Prop
  | p, [] => p = none
  | p, node :: l => p = some node ∧ Links next (next node) l

namespace Links

theorem head (h : Links next p l) : p = l.head? := by
  cases l with
  | nil => exact h
  | cons node l => exact h.1

theorem nil (h : Links next none l) : l = [] := by
  cases l with
  | nil => rfl
  | cons node l => cases h.1

/-- A list from a node begins with it. -/
theorem cons_inv (h : Links next (some node) l) : ∃ rest, l = node :: rest ∧ Links next (next node) rest := by
  cases l with
  | nil => cases h
  | cons first rest =>
    obtain ⟨hfirst, hrest⟩ := h
    obtain rfl := Option.some.inj hfirst
    exact ⟨rest, rfl, hrest⟩

theorem unique (h : Links next p l) (h' : Links next p l') : l = l' := by
  induction l generalizing p l' with
  | nil =>
    obtain rfl : p = none := h
    exact h'.nil.symm
  | cons node l ih =>
    obtain ⟨rfl, hrest⟩ := h
    obtain ⟨rest, rfl, hrest'⟩ := h'.cons_inv
    rw [ih hrest hrest']

/-- Only the pointers of its own nodes matter to a list. -/
theorem congr (h : Links next p l) (hsame : ∀ n ∈ l, next' n = next n) : Links next' p l := by
  induction l generalizing p with
  | nil => exact h
  | cons node l ih =>
    refine ⟨h.1, ?_⟩
    rw [hsame node List.mem_cons_self]
    exact ih h.2 fun n hn => hsame n (List.mem_cons_of_mem _ hn)

variable [DecidableEq ν]

theorem update (h : Links next p l) (hnode : node ∉ l) : Links (Function.update next node q) p l :=
  h.congr fun _ hn => Function.update_of_ne (ne_of_mem_of_not_mem hn hnode) _ _

/-- A node in front of a list. -/
theorem cons (h : Links next q l) (hnode : node ∉ l) :
    Links (Function.update next node q) (some node) (node :: l) := by
  refine ⟨rfl, ?_⟩
  rw [Function.update_self]
  exact h.update hnode

/-- The last node of a list is made to point to another list. -/
theorem splice {init : List ν} {last : ν} (h : Links next p (init ++ [last])) (h' : Links next q l')
    (hlast : last ∉ init) (hlast' : last ∉ l') :
    Links (Function.update next last q) p (init ++ [last] ++ l') := by
  induction init generalizing p with
  | nil =>
    refine ⟨h.1, ?_⟩
    rw [Function.update_self]
    exact h'.update hlast'
  | cons first init ih =>
    refine ⟨h.1, ?_⟩
    have hne : first ≠ last := fun heq => hlast (heq ▸ List.mem_cons_self)
    rw [Function.update_of_ne hne]
    exact ih h.2 fun hmem => hlast (List.mem_cons_of_mem _ hmem)

end Links

end TdUtils.Lib
