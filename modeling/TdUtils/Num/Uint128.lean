import Mathlib.Algebra.Group.Int.Defs
import Mathlib.Data.Nat.Notation

/-!
# Num.Uint128 — 128-bit integers, by two words and by the compiler

A `uint64` is a `BitVec 64`, an `int64` the same bits read by `toInt`; arithmetic wraps, also the negation
of an `int64`.  `none` is the failed `CHECK` of a division by zero, and for the compiler's type the one
quotient that is out of range.
-/

namespace TdUtils

structure Uint128Emulated where
  hi : BitVec 64
  lo : BitVec 64
deriving DecidableEq

/-- `__builtin_clzll`, and 64 for zero. -/
def countLeadingZeroes64 (x : BitVec 64) : ℕ := if x = 0 then 64 else 63 - x.toNat.log2

namespace Uint128Emulated

def zero : Uint128Emulated := ⟨0, 0⟩

def roundedHi (x : Uint128Emulated) : BitVec 64 := x.hi + x.lo >>> 63

def fromSigned (x : BitVec 64) : Uint128Emulated := if 0 ≤ x.toInt then ⟨0, x⟩ else ⟨-1, x⟩

def add (x other : Uint128Emulated) : Uint128Emulated :=
  let res : Uint128Emulated := ⟨other.hi + x.hi, other.lo + x.lo⟩
  if res.lo < x.lo then { res with hi := res.hi + 1 } else res

def shl (x : Uint128Emulated) (cnt : ℕ) : Uint128Emulated :=
  if cnt = 0 then x
  else if cnt < 64 then ⟨x.hi <<< cnt ||| x.lo >>> (64 - cnt), x.lo <<< cnt⟩
  else if cnt < 128 then ⟨x.lo <<< (cnt - 64), 0⟩
  else zero

def shr (x : Uint128Emulated) (cnt : ℕ) : Uint128Emulated :=
  if cnt = 0 then x
  else if cnt < 64 then ⟨x.hi >>> cnt, x.lo >>> cnt ||| x.hi <<< (64 - cnt)⟩
  else if cnt < 128 then ⟨0, x.hi >>> (cnt - 64)⟩
  else zero

def mult (x other : Uint128Emulated) : Uint128Emulated :=
  let aLo := x.lo &&& 0xffffffff
  let aHi := x.lo >>> 32
  let bLo := other.lo &&& 0xffffffff
  let bHi := other.lo >>> 32
  let res : Uint128Emulated := ⟨x.lo * other.hi + x.hi * other.lo + aHi * bHi, aLo * bLo⟩
  let add1 : Uint128Emulated := ⟨0, aLo * bHi⟩
  let add2 : Uint128Emulated := ⟨0, aHi * bLo⟩
  (res.add (add1.shl 32)).add (add2.shl 32)

/-- `mult(uint64)`. -/
def multWord (x : Uint128Emulated) (other : BitVec 64) : Uint128Emulated := x.mult ⟨0, other⟩

def multSigned (x : Uint128Emulated) (other : BitVec 64) : Uint128Emulated := x.mult (fromSigned other)

def isZero (x : Uint128Emulated) : Bool := x.lo == 0 && x.hi == 0

def sub (x other : Uint128Emulated) : Uint128Emulated :=
  let carry : BitVec 64 := if x.lo < other.lo then 1 else 0
  ⟨x.hi - other.hi - carry, x.lo - other.lo⟩

def isNegative (x : Uint128Emulated) : Bool := x.hi >>> 63 == 1

def countLeadingZeroes (x : Uint128Emulated) : ℕ :=
  if x.hi = 0 then 64 + countLeadingZeroes64 x.lo else countLeadingZeroes64 x.hi

def setLowerBit (x : Uint128Emulated) : Uint128Emulated := ⟨x.hi, x.lo ||| 1⟩

def greaterOrEqual (x other : Uint128Emulated) : Bool :=
  other.hi < x.hi || x.hi == other.hi && other.lo ≤ x.lo

def negate (x : Uint128Emulated) : Uint128Emulated :=
  let res : Uint128Emulated := ⟨~~~x.hi, ~~~x.lo + 1⟩
  if res.lo = 0 then ⟨res.hi + 1, 0⟩ else res

/-- One round of the loop of `divmod`; the state is `from` and `res`. -/
def divStep (other : Uint128Emulated) (i : ℕ) (s : Uint128Emulated × Uint128Emulated) :
    Uint128Emulated × Uint128Emulated :=
  let sub := other.shl i
  let res := s.2.shl 1
  if s.1.greaterOrEqual sub then (s.1.sub sub, res.setLowerBit) else (s.1, res)

/-- The rounds of `divmod` from `i = n - 1` down to `i = 0`. -/
def divLoop (other : Uint128Emulated) :
    ℕ → Uint128Emulated × Uint128Emulated → Uint128Emulated × Uint128Emulated
  | 0, s => s
  | n + 1, s => divLoop other n (divStep other n s)

/-- Quotient and remainder. -/
def divmod (x other : Uint128Emulated) : Option (Uint128Emulated × Uint128Emulated) :=
  if other.isZero then none
  else
    let ctz := x.countLeadingZeroes
    let otherCtz := other.countLeadingZeroes
    if otherCtz < ctz then some (zero, x)
    else
      let s := divLoop other (otherCtz - ctz + 1) (x, zero)
      some (s.2, s.1)

def divmodSigned (x : Uint128Emulated) (y : BitVec 64) : Option (BitVec 64 × BitVec 64) :=
  if y = 0 then none
  else
    let xSgn := x.isNegative
    let ySgn := decide (y.toInt < 0)
    let x := if xSgn then x.negate else x
    let uy := fromSigned y
    let uy := if uy.isNegative then uy.negate else uy
    (x.divmod uy).map fun (tQuot, tMod) =>
      (if xSgn != ySgn then -tQuot.lo else tQuot.lo, if xSgn then -tMod.lo else tMod.lo)

end Uint128Emulated

/-- The compiler's `unsigned __int128`. -/
structure Uint128Intrinsic where
  value : BitVec 128
deriving DecidableEq

namespace Uint128Intrinsic

/-- From the two words. -/
def ofWords (hi lo : BitVec 64) : Uint128Intrinsic := ⟨hi.setWidth 128 <<< 64 ||| lo.setWidth 128⟩

def fromSigned (x : BitVec 64) : Uint128Intrinsic := ⟨x.signExtend 128⟩

def roundedHi (x : Uint128Intrinsic) : BitVec 64 := ((x.value + 1#128 <<< 63) >>> 64).setWidth 64

def add (x other : Uint128Intrinsic) : Uint128Intrinsic := ⟨x.value + other.value⟩

def sub (x other : Uint128Intrinsic) : Uint128Intrinsic := ⟨x.value - other.value⟩

def shl (x : Uint128Intrinsic) (cnt : ℕ) : Uint128Intrinsic :=
  if 128 ≤ cnt then ⟨0⟩ else ⟨x.value <<< cnt⟩

def shr (x : Uint128Intrinsic) (cnt : ℕ) : Uint128Intrinsic :=
  if 128 ≤ cnt then ⟨0⟩ else ⟨x.value >>> cnt⟩

def mult (x other : Uint128Intrinsic) : Uint128Intrinsic := ⟨x.value * other.value⟩

/-- `mult(uint64)`. -/
def multWord (x : Uint128Intrinsic) (other : BitVec 64) : Uint128Intrinsic :=
  ⟨x.value * other.setWidth 128⟩

def multSigned (x : Uint128Intrinsic) (other : BitVec 64) : Uint128Intrinsic :=
  ⟨x.value * other.signExtend 128⟩

def isZero (x : Uint128Intrinsic) : Bool := x.value == 0

def divmod (x other : Uint128Intrinsic) : Option (Uint128Intrinsic × Uint128Intrinsic) :=
  if other.isZero then none else some (⟨x.value / other.value⟩, ⟨x.value % other.value⟩)

/-- Division of `__int128` truncates. -/
def divmodSigned (x : Uint128Intrinsic) (y : BitVec 64) : Option (BitVec 64 × BitVec 64) :=
  if y = 0 then none
  else if x.value.toInt = -2 ^ 127 ∧ y.toInt = -1 then none
  else some (BitVec.ofInt 64 (x.value.toInt.tdiv y.toInt), BitVec.ofInt 64 (x.value.toInt.tmod y.toInt))

end Uint128Intrinsic

end TdUtils
