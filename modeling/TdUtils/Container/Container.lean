import Mathlib.Data.List.Basic
import TdUtils.Lib.Bits
import TdUtils.Lib.Machine

/-!
# Container.Container — objects in slots behind unique ids

An id packs the number of a slot with the generation of the slot; the low 8 bits of a generation are
the type of the object.  `none` as the result of an operation is a failed `CHECK` or a null pointer
that is dereferenced.
-/

namespace TdUtils

open Lib

universe u

/-- Generations are values of `uint32`. -/
structure Slot (D : Type u) where
  generation : ℕ
  data : D
deriving DecidableEq

/-- The last element of `emptySlots` is its back. -/
structure Container (D : Type u) where
  slots : List (Slot D)
  emptySlots : List ℕ
deriving DecidableEq

namespace Container

variable {D : Type u}

def new : Container D := ⟨[], []⟩

def generationStep : ℕ := 1 <<< 8

def typeMask : ℕ := (1 <<< 8) - 1

/-- The conversion to `int32`. -/
def int32 (n : ℕ) : ℤ := Int.bmod n (2 ^ 32)

/-- The generation of a slot. -/
def generation (c : Container D) (id : ℕ) : ℕ := (c.slots[id]?.map Slot.generation).getD 0

def encodeId (c : Container D) (id : ℕ) : ℕ := id <<< 32 ||| c.generation id

/-- The slot of an id; none is -1. -/
def decodeId (c : Container D) (id : ℕ) : Option ℕ :=
  let slotId := int32 (id >>> 32)
  let generation := id % 2 ^ 32
  if slotId < 0 ∨ slotId ≥ int32 c.slots.length then none
  else if generation ≠ c.generation slotId.toNat then none
  else some slotId.toNat

/-- Replace the generation of a slot. -/
def setGeneration (c : Container D) (id generation : ℕ) : Container D :=
  { c with slots := c.slots.modify id fun slot => { slot with generation := generation } }

/-- Replace the data of a slot. -/
def setData (c : Container D) (id : ℕ) (data : D) : Container D :=
  { c with slots := c.slots.modify id fun slot => { slot with data := data } }

def incGeneration (c : Container D) (id : ℕ) : Container D :=
  c.setGeneration id ((c.generation id + generationStep) % 2 ^ 32)

def release [Inhabited D] (c : Container D) (id : ℕ) : Container D :=
  let c := (c.incGeneration id).setData id default
  if c.generation id &&& (2 ^ 32 - 1 - typeMask) ≠ 0 then
    { c with emptySlots := c.emptySlots ++ [id] }
  else c  -- generation overflow. Can't use this id anymore

def store (c : Container D) (data : D) (type : UInt8) : Option (Container D × ℕ) :=
  match c.emptySlots.getLast? with
  | some pos =>
    let c := { c with emptySlots := c.emptySlots.dropLast }.setData pos data
    let generation := c.generation pos
    some (c.setGeneration pos (generation ^^^ (generation &&& typeMask ^^^ type.toNat)), pos)
  | none =>
    if c.slots.length ≤ 2 ^ 31 - 1 then
      some ({ c with slots := c.slots ++ [⟨generationStep + type.toNat, data⟩] }, c.slots.length)
    else none

/-! ### The operations -/

def get (c : Container D) (id : ℕ) : Option D :=
  (c.decodeId id).bind fun slotId => c.slots[slotId]?.map Slot.data

def erase [Inhabited D] (c : Container D) (id : ℕ) : Container D :=
  (c.decodeId id).elim c fun slotId => c.release slotId

def extract [Inhabited D] (c : Container D) (id : ℕ) : Option (Container D × D) :=
  (c.decodeId id).bind fun slotId =>
    c.slots[slotId]?.map fun slot => (c.release slotId, slot.data)

def create (c : Container D) (data : D) (type : UInt8) : Option (Container D × ℕ) :=
  (c.store data type).map fun (c, id) => (c, c.encodeId id)

def resetId (c : Container D) (id : ℕ) : Option (Container D × ℕ) :=
  (c.decodeId id).map fun slotId =>
    let c := c.incGeneration slotId
    (c, c.encodeId slotId)

def ids (c : Container D) : List ℕ :=
  let isBad := c.emptySlots.foldl (fun isBad id => isBad.set id true)
    (List.replicate c.slots.length false)
  ((List.range c.slots.length).filter fun i => !isBad.getD i false).map c.encodeId

/-- The calls of the function that `for_each` gets. -/
def forEach (c : Container D) : Option (List (ℕ × D)) :=
  c.ids.mapM fun id => (c.get id).map fun data => (id, data)

def size (c : Container D) : Option ℕ :=
  if c.emptySlots.length ≤ c.slots.length then some (c.slots.length - c.emptySlots.length) else none

def empty (c : Container D) : Option Bool := c.size.map (· == 0)

/-! ### Runs -/

inductive Op (D : Type u) where
  | create (data : D) (type : UInt8)
  | get (id : ℕ)
  | erase (id : ℕ)
  | extract (id : ℕ)
  | resetId (id : ℕ)

inductive Answer (D : Type u) where
  | id (id : ℕ)
  | data (data : Option D)
  | none
deriving DecidableEq

def step [Inhabited D] (c : Container D) : Op D → Option (Container D × Answer D)
  | .create data type => (c.create data type).map fun r => (r.1, .id r.2)
  | .get id => some (c, .data (c.get id))
  | .erase id => some (c.erase id, .none)
  | .extract id => (c.extract id).map fun r => (r.1, .data (some r.2))
  | .resetId id => (c.resetId id).map fun r => (r.1, .id r.2)

def machine (D : Type u) [Inhabited D] : Machine (Container D) (Op D) (Answer D) := ⟨step⟩

/-! ### Generations as a counter and a type -/

theorem encodeId_eq (c : Container D) {id : ℕ} (h : c.generation id < 2 ^ 32) :
    c.encodeId id = id * 2 ^ 32 + c.generation id := Bits.shiftLeft_or h

/-- The type bits are replaced, the counter stays. -/
theorem retype_eq (g : ℕ) (type : UInt8) :
    g ^^^ (g &&& typeMask ^^^ type.toNat) = g / 256 * 256 + type.toNat := by
  have hmask : g &&& typeMask = g % 2 ^ 8 := Bits.and_low g 8
  have ht : type.toNat < 2 ^ 8 := type.toNat_lt
  rw [hmask, Nat.mul_comm (g / 256), show (256 : ℕ) = 2 ^ 8 from rfl]
  apply Nat.eq_of_testBit_eq
  intro i
  rw [Nat.testBit_two_pow_mul_add _ ht, Nat.testBit_xor, Nat.testBit_xor, Nat.testBit_mod_two_pow,
    Nat.testBit_div_two_pow]
  by_cases hi : i < 8
  · simp [hi]
  · have hhigh : type.toNat.testBit i = false :=
      Nat.testBit_lt_two_pow (Nat.lt_of_lt_of_le ht (Nat.pow_le_pow_right (by decide) (by omega)))
    simp [hi, hhigh, show i - 8 + 8 = i by omega]

/-- The test for the overflow of the counter. -/
theorem and_counter {g : ℕ} (h : g < 2 ^ 32) :
    g &&& (2 ^ 32 - 1 - typeMask) = g / 256 * 256 := by
  have hmask : g &&& (2 ^ 32 - 1 - typeMask) = g / 2 ^ 8 % 2 ^ 24 * 2 ^ 8 := Bits.and_mask g 8 24
  rw [hmask]
  omega

theorem int32_of_lt {n : ℕ} (h : n < 2 ^ 31) : int32 n = n := by
  unfold int32
  rw [Int.bmod_eq_of_le] <;> omega

end Container

end TdUtils
