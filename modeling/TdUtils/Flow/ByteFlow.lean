import Mathlib.Algebra.Group.Nat.Defs
import Mathlib.Data.Nat.Basic

/-!
# Flow.ByteFlow — what every flow and every sink has
-/

namespace TdUtils

inductive Status where
  | ok
  | error (message : String)
deriving DecidableEq

namespace ByteFlow

structure Watermark where
  low : ℕ := 2 ^ 64 - 1
  high : ℕ := 0
deriving DecidableEq

structure Options where
  writeWatermark : Watermark := {}
  readWatermark : Watermark := {}
deriving DecidableEq

/-- The fields of `ByteFlowBaseCommon`; `parent` is whether `parent_` is set. -/
structure Base where
  waitingFlag : Bool := false
  isInputActive : Bool := true
  needSize : ℕ := 0
  canRead : Bool := true
  canWrite : Bool := true
  options : Options := {}
  parent : Bool := true
  stopFlag : Bool := false
deriving DecidableEq

namespace Base

def updateCanRead (b : Base) (readSize : ℕ) : Base :=
  if b.isInputActive then
    let b := if readSize < min b.needSize b.options.readWatermark.low then { b with canRead := false } else b
    if max b.needSize b.options.readWatermark.high ≤ readSize then { b with canRead := true } else b
  else { b with canRead := true }

def updateCanWrite (b : Base) (writeSize : ℕ) : Base :=
  let b := if b.options.writeWatermark.high < writeSize then { b with canWrite := false } else b
  if writeSize ≤ b.options.writeWatermark.low then { b with canWrite := true } else b

end Base

end ByteFlow

structure ByteFlowSink where
  active : Bool
  status : Status
deriving DecidableEq

end TdUtils
