import TdUtils.Tl.TlParser
import TdUtils.Tl.TlStorers

/-!
# Tl.TlHelpers — store, parse, serialize and unserialize

The overloads of `store` and `parse` for the scalar types, strings, pairs, `Variant` and vectors.
`encode` says which bytes a value stands for: the two storers follow it (`store_eq`), and so does
the parser from any position of its input (`parse_encode`).
-/

namespace TdUtils.Tl

open Lib LittleEndian

/-! ### Types and values -/

/-- The types. -/
inductive Ty where
  | bool
  | int32
  | uint32
  | int64
  | uint64
  | string
  | pair (first second : Ty)
  | variant (types : List Ty)
  | vector (elem : Ty)
  deriving Repr

mutual

/-- `std::is_same`. -/
def Ty.isSame : Ty → Ty → Bool
  | .bool, .bool | .int32, .int32 | .uint32, .uint32 | .int64, .int64 | .uint64, .uint64
  | .string, .string => true
  | .pair a b, .pair c d => a.isSame c && b.isSame d
  | .variant types, .variant types' => areSame types types'
  | .vector a, .vector b => a.isSame b
  | _, _ => false

def areSame : List Ty → List Ty → Bool
  | [], [] => true
  | a :: types, b :: types' => a.isSame b && areSame types types'
  | _, _ => false

end

mutual

theorem Ty.isSame_iff : ∀ a b : Ty, a.isSame b = true ↔ a = b
  | .pair a b, c => by cases c <;> simp [Ty.isSame, Ty.isSame_iff a, Ty.isSame_iff b]
  | .variant types, c => by cases c <;> simp [Ty.isSame, areSame_iff types]
  | .vector a, c => by cases c <;> simp [Ty.isSame, Ty.isSame_iff a]
  | .bool, c | .int32, c | .uint32, c | .int64, c | .uint64, c | .string, c => by
    cases c <;> simp [Ty.isSame]

theorem areSame_iff : ∀ types types' : List Ty, areSame types types' = true ↔ types = types'
  | [], c => by cases c <;> simp [areSame]
  | a :: types, c => by cases c <;> simp [areSame, Ty.isSame_iff a, areSame_iff types]

end

/-- The values; `variant` has the offset of the alternative it holds, and `emptyVariant` is a
`Variant` with the offset `npos`. -/
inductive Value where
  | bool (x : Bool)
  | int32 (x : BitVec 32)
  | uint32 (x : BitVec 32)
  | int64 (x : BitVec 64)
  | uint64 (x : BitVec 64)
  | string (str : List UInt8)
  | pair (first second : Value)
  | variant (offset : ℕ) (value : Value)
  | emptyVariant
  | vector (vec : List Value)
  deriving Repr

/-- `FindTypeOffset`: the first alternative that is `t`. -/
def findTypeOffset (t : Ty) : List Ty → ℕ
  | [] => 0
  | s :: types => if t.isSame s then 0 else findTypeOffset t types + 1

/-- The values of a type: strings are shorter than `2 ^ 32` bytes and vectors than `2 ^ 31`
elements; the offsets of a `Variant` are of type `int`. -/
inductive HasType : Value → Ty → Prop where
  | bool (x : Bool) : HasType (.bool x) .bool
  | int32 (x : BitVec 32) : HasType (.int32 x) .int32
  | uint32 (x : BitVec 32) : HasType (.uint32 x) .uint32
  | int64 (x : BitVec 64) : HasType (.int64 x) .int64
  | uint64 (x : BitVec 64) : HasType (.uint64 x) .uint64
  | string {str : List UInt8} (h : str.length < 2 ^ 32) : HasType (.string str) .string
  | pair {x y : Value} {a b : Ty} (hx : HasType x a) (hy : HasType y b) :
      HasType (.pair x y) (.pair a b)
  | variant {x : Value} {t : Ty} {types : List Ty} (hn : types.length < 2 ^ 31) (ht : t ∈ types)
      (hx : HasType x t) : HasType (.variant (findTypeOffset t types) x) (.variant types)
  | emptyVariant (types : List Ty) : HasType .emptyVariant (.variant types)
  | vector {vec : List Value} {t : Ty} (h : vec.length < 2 ^ 31) (hv : ∀ x ∈ vec, HasType x t) :
      HasType (.vector vec) (.vector t)

mutual

/-- Every `Variant` inside the value holds an alternative. -/
def Value.Held : Value → Prop
  | .pair x y => x.Held ∧ y.Held
  | .variant _ x => x.Held
  | .emptyVariant => False
  | .vector vec => HeldAll vec
  | _ => True

def HeldAll : List Value → Prop
  | [] => True
  | x :: vec => x.Held ∧ HeldAll vec

end

/-! ### store and serialize -/

section Store

variable {σ : Type}

def storeInt32 (S : Storer σ) (x : BitVec 32) : σ → Option σ := S.storeBinary (toLE 4 x.toNat)

def storeInt64 (S : Storer σ) (x : BitVec 64) : σ → Option σ := S.storeBinary (toLE 8 x.toNat)

/-- `narrow_cast<int32>` of a `size_t`, with its two `LOG_CHECK`s. -/
def narrowCast (a : ℕ) : Option (BitVec 32) :=
  let r := BitVec.ofNat 32 a
  if (r.signExtend 64).toNat = a ∧ 0 ≤ r.toInt then some r else none

mutual

def store (S : Storer σ) : Value → σ → Option σ
  | .bool x, s => storeInt32 S (if x then 1 else 0) s
  | .int32 x, s => storeInt32 S x s
  | .uint32 x, s => storeInt32 S x s
  | .int64 x, s => storeInt64 S x s
  | .uint64 x, s => storeInt64 S x s
  | .string str, s => S.storeString str s
  | .pair first second, s => do
    let s ← store S first s
    store S second s
  | .variant offset value, s => do
    let s ← storeInt32 S (BitVec.ofNat 32 offset) s
    store S value s
  | .emptyVariant, s => storeInt32 S (-1) s
  | .vector vec, s => do
    let size ← narrowCast vec.length
    let s ← storeInt32 S size s
    storeAll S vec s

/-- The loop over the elements of a vector. -/
def storeAll (S : Storer σ) : List Value → σ → Option σ
  | [], s => some s
  | x :: vec, s => do
    let s ← store S x s
    storeAll S vec s

end

end Store

/-- `serialize`: the key of the computed length, or stack memory of that length where the key is
not aligned, is written; both branches of the source have this `CHECK`. -/
def serialize (object : Value) : Option (List UInt8) := do
  let length ← store TlStorerCalcLength.storer object 0
  let s ← store TlStorerUnsafe.storer object ⟨length, []⟩
  if s.written.length = length then some s.written
  else none  -- CHECK(storer.get_buf() == data.uend())

/-! ### parse and unserialize -/

/-- `T()`. -/
def Ty.default : Ty → Value
  | .bool => .bool false
  | .int32 => .int32 0
  | .uint32 => .uint32 0
  | .int64 => .int64 0
  | .uint64 => .uint64 0
  | .string => .string []
  | .pair first second => .pair first.default second.default
  | .variant _ => .emptyVariant
  | .vector _ => .vector []

/-- `pair.first`. -/
def Value.first : Value → Value
  | .pair x _ => x
  | x => x

/-- `pair.second`. -/
def Value.second : Value → Value
  | .pair _ y => y
  | x => x

/-- The loop over the `n` elements of a vector. -/
def parseElems (f : TlParser → Option (TlParser × Value)) :
    ℕ → TlParser → Option (TlParser × List Value)
  | 0, p => some (p, [])
  | n + 1, p => do
    let (p, x) ← f p
    let (p, vec) ← parseElems f n p
    return (p, x :: vec)

mutual

/-- `parse(x, parser)` for an object of the type; `x` is what the object is before the call. -/
def parse : Ty → Value → TlParser → Option (TlParser × Value)
  | .bool, _, p => do
    let (p, x) ← p.fetchInt
    return (p, .bool (x ≠ 0))
  | .int32, _, p => do
    let (p, x) ← p.fetchInt
    return (p, .int32 x)
  | .uint32, _, p => do
    let (p, x) ← p.fetchInt
    return (p, .uint32 x)
  | .int64, _, p => do
    let (p, x) ← p.fetchLong
    return (p, .int64 x)
  | .uint64, _, p => do
    let (p, x) ← p.fetchLong
    return (p, .uint64 x)
  | .string, _, p => do
    let (p, str) ← p.fetchString
    return (p, .string str)
  | .pair a b, x, p => do
    let (p, first) ← parse a x.first p
    let (p, second) ← parse b x.second p
    return (p, .pair first second)
  | .variant types, x, p => do
    let (p, typeOffset) ← p.fetchInt
    if typeOffset.toInt < 0 ∨ (BitVec.ofNat 32 types.length).toInt ≤ typeOffset.toInt then
      let p ← p.setError "Invalid type"
      return (p, x)
    else parseEach types typeOffset types 0 x p
  | .vector t, x, p => do
    let (p, size) ← p.fetchInt
    if p.leftLen < size.toNat then
      let p ← p.setError "Wrong vector length"
      return (p, x)
    else
      let (p, vec) ← parseElems (fun p => parse t t.default p) size.toNat p
      return (p, .vector vec)

/-- `for_each` over the alternatives from `offset` on; `variant = T()` sets the offset that
`FindTypeOffset` gives. -/
def parseEach (types : List Ty) (typeOffset : BitVec 32) :
    List Ty → ℕ → Value → TlParser → Option (TlParser × Value)
  | [], _, x, p => some (p, x)
  | t :: rest, offset, x, p =>
    if (offset : ℤ) = typeOffset.toInt then do
      let (p, value) ← parse t t.default p
      parseEach types typeOffset rest (offset + 1) (.variant (findTypeOffset t types) value) p
    else parseEach types typeOffset rest (offset + 1) x p

end

/-- `unserialize(object, data)`: the status, and the object after the call. -/
def unserialize (isAligned : Bool) (t : Ty) (object : Value) (data : List UInt8) :
    Option (Except String Unit × Value) := do
  let p ← TlParser.ofSlice isAligned data
  let (p, object) ← parse t object p
  let p ← p.fetchEnd
  return (p.getStatus, object)

/-! ### The encoding of a value -/

mutual

/-- The bytes that stand for a value. -/
def encode : Value → List UInt8
  | .bool x => toLE 4 (if x then 1 else 0)
  | .int32 x => toLE 4 x.toNat
  | .uint32 x => toLE 4 x.toNat
  | .int64 x => toLE 8 x.toNat
  | .uint64 x => toLE 8 x.toNat
  | .string str => stringEncoding str
  | .pair first second => encode first ++ encode second
  | .variant offset value => toLE 4 offset ++ encode value
  | .emptyVariant => toLE 4 (2 ^ 32 - 1)
  | .vector vec => toLE 4 vec.length ++ encodeAll vec

def encodeAll : List Value → List UInt8
  | [] => []
  | x :: vec => encode x ++ encodeAll vec

end

/-! ### The storers -/

/-- What the storers have in common: the state depends on the bytes stored so far only, and storing
more bytes succeeds as long as they fit. -/
structure Storer.Appends {σ : Type} (S : Storer σ) (after : List UInt8 → σ) (fits : ℕ → Prop) :
    Prop where
  anti : ∀ {m n}, m ≤ n → fits n → fits m
  storeBinary : ∀ w x, fits (w ++ x).length → S.storeBinary x (after w) = some (after (w ++ x))
  storeString : ∀ w str, str.length < 2 ^ 32 → fits (w ++ stringEncoding str).length →
    S.storeString str (after w) = some (after (w ++ stringEncoding str))

theorem TlStorerCalcLength.appends : storer.Appends List.length fun _ => True where
  anti := fun _ _ => trivial
  storeBinary := fun w x _ => by rw [List.length_append]; rfl
  storeString := fun w str h _ => by rw [List.length_append]; exact storeString_eq h _

theorem TlStorerUnsafe.appends (size : ℕ) :
    storer.Appends (fun w => ⟨size, w⟩) fun n => n ≤ size where
  anti := fun h hn => h.trans hn
  storeBinary := fun _ _ h => put_eq h
  storeString := fun _ _ h hs => storeString_eq h hs

theorem msb_ofNat {n : ℕ} (h : n < 2 ^ 31) : (BitVec.ofNat 32 n).msb = false := by
  rw [BitVec.msb_eq_decide, BitVec.toNat_ofNat]
  simp
  omega

/-- A number below `2 ^ 31` is not negative as an `int32`. -/
theorem toInt_ofNat {n : ℕ} (h : n < 2 ^ 31) : (BitVec.ofNat 32 n).toInt = n := by
  rw [BitVec.toInt_eq_toNat_of_msb (msb_ofNat h), BitVec.toNat_ofNat]
  omega

theorem narrowCast_of_lt {n : ℕ} (h : n < 2 ^ 31) : narrowCast n = some (BitVec.ofNat 32 n) := by
  have hs : ((BitVec.ofNat 32 n).signExtend 64).toNat = n := by
    rw [BitVec.signExtend_eq_setWidth_of_msb_false (msb_ofNat h)]
    simp
    omega
  simp [narrowCast, toInt_ofNat h, hs]

theorem toLE_ofNat {n : ℕ} (h : n < 2 ^ 32) : toLE 4 (BitVec.ofNat 32 n).toNat = toLE 4 n := by
  rw [BitVec.toNat_ofNat, Nat.mod_eq_of_lt h]

theorem findTypeOffset_lt {t : Ty} : ∀ {types : List Ty}, t ∈ types →
    findTypeOffset t types < types.length
  | s :: types, h => by
    unfold findTypeOffset
    by_cases hs : t.isSame s
    · simp [hs]
    · have hne : t ≠ s := fun e => hs ((t.isSame_iff s).mpr e)
      have := findTypeOffset_lt ((List.mem_cons.mp h).resolve_left hne)
      simp [hs, this]

section Stored

variable {σ : Type} {S : Storer σ} {after : List UInt8 → σ} {fits : ℕ → Prop}

theorem storeInt32_eq (hS : S.Appends after fits) {w : List UInt8} (x : BitVec 32)
    (hf : fits (w ++ toLE 4 x.toNat).length) :
    storeInt32 S x (after w) = some (after (w ++ toLE 4 x.toNat)) := hS.storeBinary w _ hf

theorem storeAll_eq (hS : S.Appends after fits) : ∀ {vec : List Value} {w : List UInt8},
    (∀ x ∈ vec, ∀ w, fits (w ++ encode x).length →
      store S x (after w) = some (after (w ++ encode x))) →
    fits (w ++ encodeAll vec).length →
    storeAll S vec (after w) = some (after (w ++ encodeAll vec))
  | [], w, _, _ => by simp [storeAll, encodeAll]
  | x :: vec, w, hv, hf => by
    rw [encodeAll, ← List.append_assoc] at hf
    have hx := hv x (List.mem_cons_self ..) w (hS.anti (by simp) hf)
    have ih := storeAll_eq hS (fun y hy => hv y (List.mem_cons_of_mem _ hy)) hf
    simp [storeAll, encodeAll, hx, ih]

/-- A storer stores the encoding. -/
theorem store_eq (hS : S.Appends after fits) {x : Value} {t : Ty} (hx : HasType x t) :
    ∀ w, fits (w ++ encode x).length → store S x (after w) = some (after (w ++ encode x)) := by
  induction hx with
  | bool x =>
    intro w hf
    cases x <;> exact storeInt32_eq hS _ hf
  | int32 x | uint32 x => exact fun w hf => storeInt32_eq hS x hf
  | int64 x | uint64 x => exact fun w hf => hS.storeBinary w _ hf
  | string h => exact fun w hf => hS.storeString w _ h hf
  | pair hx hy ihx ihy =>
    intro w hf
    rw [encode, ← List.append_assoc] at hf
    have h1 := ihx w (hS.anti (by simp) hf)
    simp [store, encode, h1, ihy _ hf]
  | @variant x t types hn ht hx ih =>
    intro w hf
    have hlt := findTypeOffset_lt ht
    rw [encode, ← List.append_assoc] at hf
    have he : toLE 4 (BitVec.ofNat 32 (findTypeOffset t types)).toNat =
        toLE 4 (findTypeOffset t types) := toLE_ofNat (by omega)
    have h1 := storeInt32_eq hS (w := w) (BitVec.ofNat 32 (findTypeOffset t types))
      (hS.anti (by simp) hf)
    rw [he] at h1
    simp [store, encode, h1, ih _ hf]
  | emptyVariant types => exact fun w hf => storeInt32_eq hS (-1) hf
  | @vector vec t h hv ih =>
    intro w hf
    rw [encode, ← List.append_assoc] at hf
    have he : toLE 4 (BitVec.ofNat 32 vec.length).toNat = toLE 4 vec.length :=
      toLE_ofNat (by omega)
    have h1 := storeInt32_eq hS (w := w) (BitVec.ofNat 32 vec.length) (hS.anti (by simp) hf)
    rw [he] at h1
    simp [store, encode, narrowCast_of_lt h, h1, storeAll_eq hS ih hf]

end Stored

theorem calcLength_eq {x : Value} {t : Ty} (hx : HasType x t) :
    store TlStorerCalcLength.storer x 0 = some (encode x).length := by
  simpa using store_eq TlStorerCalcLength.appends hx [] trivial

theorem storeUnsafe_eq {x : Value} {t : Ty} (hx : HasType x t) :
    store TlStorerUnsafe.storer x ⟨(encode x).length, []⟩ =
      some ⟨(encode x).length, encode x⟩ := by
  simpa using store_eq (TlStorerUnsafe.appends (encode x).length) hx [] le_rfl

theorem serialize_eq {x : Value} {t : Ty} (hx : HasType x t) : serialize x = some (encode x) := by
  simp [serialize, calcLength_eq hx, storeUnsafe_eq hx]

/-! ### The parser -/

namespace TlParser

/-- The parser behind the bytes `pre` and before the bytes `rest`. -/
def between (pre rest : List UInt8) : TlParser := good (pre ++ rest) pre.length rest.length

theorem read_between (pre x rest : List UInt8) (left : ℕ) :
    (good (pre ++ (x ++ rest)) pre.length left).read x.length = some x := by
  rw [read_good (by simp), List.drop_left, List.take_left]

theorem fetchSized_between (pre x rest : List UInt8) :
    (between pre (x ++ rest)).fetchSized x.length = some (between (pre ++ x) rest, x) := by
  have h := @fetchSized_good (pre ++ (x ++ rest)) pre.length (x ++ rest).length x.length
    (by simp) (by simp)
  rw [List.drop_left, List.take_left] at h
  rw [between, h]
  simp [between]

theorem fetchInt_between (pre rest : List UInt8) (x : BitVec 32) :
    (between pre (toLE 4 x.toNat ++ rest)).fetchInt =
      some (between (pre ++ toLE 4 x.toNat) rest, x) := by
  have h := fetchSized_between pre (toLE 4 x.toNat) rest
  rw [length_toLE] at h
  rw [fetchInt, h, Option.map_some, ofLE_toLE_of_lt x.isLt, BitVec.ofNat_toNat, BitVec.setWidth_eq]

theorem fetchLong_between (pre rest : List UInt8) (x : BitVec 64) :
    (between pre (toLE 8 x.toNat ++ rest)).fetchLong =
      some (between (pre ++ toLE 8 x.toNat) rest, x) := by
  have h := fetchSized_between pre (toLE 8 x.toNat) rest
  rw [length_toLE] at h
  rw [fetchLong, h, Option.map_some, ofLE_toLE_of_lt x.isLt, BitVec.ofNat_toNat, BitVec.setWidth_eq]

theorem read_first (pre tail : List UInt8) (b : UInt8) (left : ℕ) :
    (good (pre ++ b :: tail) pre.length left).read 1 = some [b] :=
  read_between pre [b] tail left

theorem read_behind_first (pre x tail : List UInt8) (b : UInt8) (left : ℕ) :
    (good (pre ++ b :: (x ++ tail)) (pre.length + 1) left).read x.length = some x := by
  have h := read_between (pre ++ [b]) x tail left
  rwa [List.append_assoc, List.singleton_append, List.length_append, List.length_singleton] at h

/-- The header of a string: `c` bytes are passed at once, the aligned rest completes the encoding. -/
theorem fetchStringHeader_between {n : ℕ} (pre tail : List UInt8) (left : ℕ) (hn : n < 2 ^ 32)
    (hleft : ((stringHeader n).length + n + 3) / 4 * 4 ≤ left) :
    ∃ c alignedLen, (good (pre ++ (stringHeader n ++ tail)) pre.length (left - 4)).fetchStringHeader =
        some (good (pre ++ (stringHeader n ++ tail)) (pre.length + c) (left - c),
          some (n, (.input, pre.length + (stringHeader n).length), alignedLen)) ∧
      c + alignedLen = ((stringHeader n).length + n + 3) / 4 * 4 := by
  unfold fetchStringHeader stringHeader at *
  rcases Nat.lt_or_ge n 254 with h1 | h1
  · rw [if_pos h1] at *
    have hr := read_between pre (toLE 1 n) tail (left - 4)
    rw [length_toLE] at hr hleft ⊢
    simp only [hr, Option.bind_eq_bind, Option.bind_some, advance_good, block_good, data_good,
      align_eq, ofLE_toLE_of_lt (show n < 256 ^ 1 by omega), h1, if_true]
    exact ⟨4, n / 4 * 4, rfl, by omega⟩
  · rw [if_neg (show ¬ n < 254 by omega)] at *
    rcases Nat.lt_or_ge n (2 ^ 24) with h2 | h2
    · rw [if_pos h2] at *
      have hr := read_first pre (toLE 3 n ++ tail) 254 (left - 4)
      have hr' := read_behind_first pre (toLE 3 n) tail 254 (left - 4)
      rw [length_toLE] at hr'
      rw [List.length_cons, length_toLE] at hleft ⊢
      simp only [List.cons_append, hr, hr', Option.bind_eq_bind, Option.bind_some, advance_good,
        block_good, data_good, align_eq, ofLE_toLE_of_lt (show n < 256 ^ 3 by omega)]
      exact ⟨4, (n + 3) / 4 * 4, rfl, by omega⟩
    · rw [if_neg (show ¬ n < 2 ^ 24 by omega)] at *
      have hr := read_first pre (toLE 7 n ++ tail) 255 (left - 4)
      have hr' := read_behind_first pre (toLE 7 n) tail 255 (left - 4 - 4)
      have hmax : ¬ sizeMax - 3 < n := by
        unfold sizeMax
        omega
      rw [length_toLE] at hr'
      rw [List.length_cons, length_toLE] at hleft ⊢
      simp only [List.cons_append, hr, hr', Option.bind_eq_bind, Option.bind_some, advance_good,
        block_good, data_good, align_eq, checkLen_good (show 4 ≤ left - 4 by omega), hmax, if_false,
        ofLE_toLE_of_lt (show n < 256 ^ 7 by omega)]
      exact ⟨8, (n + 3) / 4 * 4, rfl, by omega⟩

theorem fetchStringBody_between (pre str tail : List UInt8) (pos : ℕ) {left alignedLen : ℕ}
    (h : alignedLen ≤ left) :
    (good (pre ++ (str ++ tail)) pos left).fetchStringBody str.length (.input, pre.length)
        alignedLen =
      some (good (pre ++ (str ++ tail)) (pos + alignedLen) (left - alignedLen), str) := by
  have hread : pre.length + str.length ≤
      (good (pre ++ (str ++ tail)) pos (left - alignedLen)).input.length := by simp
  unfold fetchStringBody
  simp [checkLen_good h, readAt_good hread]

theorem fetchString_between {str : List UInt8} (pre rest : List UInt8) (h : str.length < 2 ^ 32) :
    (between pre (stringEncoding str ++ rest)).fetchString =
      some (between (pre ++ stringEncoding str) rest, str) := by
  have hlen := length_stringEncoding str
  have h4 := four_le_length_stringEncoding str
  have henc : stringEncoding str ++ rest = stringHeader str.length ++ (str ++
      (padTo4 ((stringHeader str.length).length + str.length) ++ rest)) := by
    simp [stringEncoding]
  have hleft : (stringEncoding str ++ rest).length = (stringEncoding str).length + rest.length :=
    List.length_append
  obtain ⟨c, al, hh, hc⟩ := fetchStringHeader_between pre
    (str ++ (padTo4 ((stringHeader str.length).length + str.length) ++ rest))
    (stringEncoding str ++ rest).length h (by omega)
  have hb := fetchStringBody_between (pre ++ stringHeader str.length) str
    (padTo4 ((stringHeader str.length).length + str.length) ++ rest) (pre.length + c)
    (show al ≤ (stringEncoding str ++ rest).length - c by omega)
  rw [List.append_assoc, @List.length_append _ pre, ← henc] at hb
  rw [← henc] at hh
  have hend : good (pre ++ (stringEncoding str ++ rest)) (pre.length + c + al)
      ((stringEncoding str ++ rest).length - c - al) =
      between (pre ++ stringEncoding str) rest := by
    unfold between
    congr 1
    · rw [List.append_assoc]
    · rw [List.length_append]
      omega
    · omega
  unfold fetchString
  rw [between, checkLen_good (by omega)]
  simp only [Option.bind_eq_bind, Option.bind_some, hh, hb, hend]

end TlParser

theorem four_le_length_encode : ∀ x : Value, 4 ≤ (encode x).length
  | .string str => four_le_length_stringEncoding str
  | .pair x y => by
    have := four_le_length_encode x
    simp only [encode, List.length_append]
    omega
  | .bool _ | .int32 _ | .uint32 _ | .int64 _ | .uint64 _ | .variant _ _ | .emptyVariant
  | .vector _ => by simp [encode]

/-- Every element takes at least one byte, so that a length that passes `store` passes `parse`. -/
theorem length_le_length_encodeAll : ∀ vec : List Value, vec.length ≤ (encodeAll vec).length
  | [] => Nat.zero_le _
  | x :: vec => by
    have hx := four_le_length_encode x
    have := length_le_length_encodeAll vec
    simp only [encodeAll, List.length_append, List.length_cons]
    omega

theorem heldAll_iff : ∀ vec : List Value, HeldAll vec ↔ ∀ x ∈ vec, x.Held
  | [] => by simp [HeldAll]
  | x :: vec => by simp [HeldAll, heldAll_iff vec]

open TlParser

section Parsed

variable {types : List Ty} {typeOffset : BitVec 32} {x y : Value} {t : Ty} {p p' : TlParser}

theorem parseEach_past : ∀ (rest : List Ty) (k : ℕ), typeOffset.toInt < k →
    parseEach types typeOffset rest k x p = some (p, x)
  | [], _, _ => rfl
  | s :: rest, k, h => by
    rw [parseEach, if_neg (by omega)]
    exact parseEach_past rest (k + 1) (by omega)

variable (types) in
/-- The loop over the alternatives parses the one that the offset means. -/
theorem parseEach_found (hp : parse t t.default p = some (p', y)) : ∀ (rest : List Ty) (k : ℕ),
    t ∈ rest → typeOffset.toInt = k + findTypeOffset t rest →
    parseEach types typeOffset rest k x p = some (p', .variant (findTypeOffset t types) y)
  | s :: rest, k, ht, hk => by
    unfold findTypeOffset at hk
    by_cases hs : t.isSame s
    · obtain rfl := (t.isSame_iff s).mp hs
      rw [if_pos hs] at hk
      rw [parseEach, if_pos (by omega), hp]
      exact parseEach_past rest (k + 1) (by omega)
    · have hne : t ≠ s := fun e => hs ((t.isSame_iff s).mpr e)
      rw [if_neg hs] at hk
      rw [parseEach, if_neg (by omega)]
      exact parseEach_found hp rest (k + 1) ((List.mem_cons.mp ht).resolve_left hne) (by omega)

theorem parseElems_encode {f : TlParser → Option (TlParser × Value)} :
    ∀ (vec : List Value) (pre rest : List UInt8),
      (∀ x ∈ vec, ∀ pre rest, f (between pre (encode x ++ rest)) =
        some (between (pre ++ encode x) rest, x)) →
      parseElems f vec.length (between pre (encodeAll vec ++ rest)) =
        some (between (pre ++ encodeAll vec) rest, vec)
  | [], pre, rest, _ => by simp [parseElems, encodeAll]
  | x :: vec, pre, rest, h => by
    have hx := h x (List.mem_cons_self ..) pre (encodeAll vec ++ rest)
    have ih := parseElems_encode vec (pre ++ encode x) rest
      fun y hy => h y (List.mem_cons_of_mem _ hy)
    rw [List.append_assoc] at ih
    simp [parseElems, encodeAll, hx, ih]

theorem fetchInt_ofNat {n : ℕ} (h : n < 2 ^ 32) (pre rest : List UInt8) :
    (between pre (toLE 4 n ++ rest)).fetchInt =
      some (between (pre ++ toLE 4 n) rest, BitVec.ofNat 32 n) := by
  have hf := fetchInt_between pre rest (BitVec.ofNat 32 n)
  rwa [toLE_ofNat h] at hf

/-- From any position of its input the parser takes the encoding of a value back to the value. -/
theorem parse_encode {x : Value} {t : Ty} (hx : HasType x t) : x.Held → ∀ object pre rest,
    parse t object (between pre (encode x ++ rest)) = some (between (pre ++ encode x) rest, x) := by
  induction hx with
  | bool x =>
    intro _ object pre rest
    cases x <;> simp [parse, encode, fetchInt_ofNat]
  | int32 x | uint32 x => intro _ object pre rest; simp [parse, encode, fetchInt_between]
  | int64 x | uint64 x => intro _ object pre rest; simp [parse, encode, fetchLong_between]
  | string h => intro _ object pre rest; simp [parse, encode, fetchString_between _ _ h]
  | pair hx hy ihx ihy =>
    intro hh object pre rest
    simp [parse, encode, ihx hh.1, ihy hh.2]
  | @variant x t types hn ht hx ih =>
    intro hh object pre rest
    have hlt := findTypeOffset_lt ht
    have hoff := toInt_ofNat (n := findTypeOffset t types) (by omega)
    have hvalue := ih hh t.default (pre ++ toLE 4 (findTypeOffset t types)) rest
    have hfound := parseEach_found types (x := object) hvalue types 0 ht (by rw [hoff]; simp)
    rw [List.append_assoc] at hfound
    rw [parse, encode, List.append_assoc, fetchInt_ofNat (by omega)]
    simp only [Option.bind_eq_bind, Option.bind_some]
    rw [if_neg (by rw [hoff, toInt_ofNat hn]; omega)]
    exact hfound
  | emptyVariant types => exact fun hh => hh.elim
  | @vector vec t h hv ih =>
    intro hh object pre rest
    have hle := length_le_length_encodeAll vec
    have helems := parseElems_encode vec (pre ++ toLE 4 vec.length) rest
      fun x hx => ih x hx ((heldAll_iff vec).mp hh x hx) t.default
    rw [List.append_assoc] at helems
    rw [parse, encode, List.append_assoc, fetchInt_ofNat (by omega)]
    have hsize : (BitVec.ofNat 32 vec.length).toNat = vec.length := by
      rw [BitVec.toNat_ofNat]
      omega
    simp only [Option.bind_eq_bind, Option.bind_some, hsize]
    rw [if_neg, helems]
    · rfl
    · show ¬ (encodeAll vec ++ rest).length < vec.length
      rw [List.length_append]
      omega

end Parsed

/-- **Round trip.**  For every value of a type the counting storer computes the number of bytes that
the writing storer writes, and `serialize` passes its `CHECK`; and where every `Variant` inside holds
an alternative, parsing the bytes into any object yields the value and leaves nothing, with the
status OK. -/
theorem unserialize_serialize {x : Value} {t : Ty} (hx : HasType x t) :
    ∃ bytes, store TlStorerCalcLength.storer x 0 = some bytes.length ∧
      store TlStorerUnsafe.storer x ⟨bytes.length, []⟩ = some ⟨bytes.length, bytes⟩ ∧
      serialize x = some bytes ∧
      (x.Held → ∀ isAligned object,
        (∃ p, parse t object (good bytes 0 bytes.length) = some (p, x) ∧ p.leftLen = 0 ∧
          p.data = bytes.length) ∧
        unserialize isAligned t object bytes = some (.ok (), x)) := by
  refine ⟨encode x, calcLength_eq hx, storeUnsafe_eq hx, serialize_eq hx, ?_⟩
  intro hh isAligned object
  have hp : parse t object (good (encode x) 0 (encode x).length) =
      some (between (encode x) [], x) := by
    simpa [between] using parse_encode hx hh object [] []
  refine ⟨⟨_, hp, rfl, rfl⟩, ?_⟩
  unfold unserialize
  simp only [ofSlice_eq, Option.bind_eq_bind, Option.bind_some, hp]
  rfl

theorem unserialize_serialize_pair :
    HasType (.pair (.string [1, 2, 3]) (.vector [.variant 1 (.bool true)]))
        (.pair .string (.vector (.variant [.int32, .bool]))) ∧
      ∃ bytes, serialize (.pair (.string [1, 2, 3]) (.vector [.variant 1 (.bool true)])) =
          some bytes ∧
        unserialize true (.pair .string (.vector (.variant [.int32, .bool])))
            (.pair (.string []) (.vector [])) bytes =
          some (.ok (), .pair (.string [1, 2, 3]) (.vector [.variant 1 (.bool true)])) := by
  have hv : HasType (.variant 1 (.bool true)) (.variant [.int32, .bool]) :=
    @HasType.variant (.bool true) .bool [.int32, .bool] (by decide)
      (List.mem_cons_of_mem _ (List.mem_cons_self ..)) (.bool true)
  have hx : HasType (.pair (.string [1, 2, 3]) (.vector [.variant 1 (.bool true)]))
      (.pair .string (.vector (.variant [.int32, .bool]))) :=
    .pair (.string (by decide)) (.vector (by decide) fun x hx => List.mem_singleton.mp hx ▸ hv)
  obtain ⟨bytes, -, -, hs, hu⟩ := unserialize_serialize hx
  exact ⟨hx, bytes, hs, (hu ⟨trivial, trivial, trivial⟩ true _).2⟩

/-- A default-constructed `Variant` is stored with the offset -1, which `parse` refuses. -/
theorem emptyVariant_refused : HasType .emptyVariant (.variant [.int32]) ∧
    serialize .emptyVariant = some [255, 255, 255, 255] ∧
    unserialize true (.variant [.int32]) .emptyVariant [255, 255, 255, 255] =
      some (.error "Invalid type at 4", .emptyVariant) :=
  ⟨.emptyVariant _, rfl, rfl⟩

end TdUtils.Tl
