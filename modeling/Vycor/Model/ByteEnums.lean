/-
The enumerations of edges and contexts.

A snapshot stores an enumeration as a byte and casts it back, so a byte without an
enumerator is a value of the type.
-/
import Mathlib.Data.List.Basic

namespace Vycor

/-! ### Edges -/

/-- Spelled as in the source. A byte that names no enumerator is kept as it is. -/
inductive EdgeKind
  | directCall
  | virtualDispatch
  | functionPointer
  | constructorCall
  | destructorCall
  | operatorCall
  | templateInstantiation
  | lambdaCall
  | threadEntry
  | functionPointerReturn
  | unnamed (code : UInt8) (h : 10 ≤ code)
deriving DecidableEq

/-- Spelled as in the source. -/
inductive Confidence
  | Proven
  | Plausible
  | Unknown
  | unnamed (code : UInt8) (h : 3 ≤ code)
deriving DecidableEq

/-- Where the callee runs relative to the caller. -/
inductive ExecutionContext
  | synchronous
  | threadSpawn
  | asyncTask
  | packagedTask
  | invoke
  | unnamed (code : UInt8) (h : 5 ≤ code)
deriving DecidableEq

/-! ### Contexts -/

/-- `RaiiKind`, a byte in the snapshot. -/
inductive RaiiKind
  | lock
  | smartPtr
  | other
  | unnamed (code : UInt8) (h : 3 ≤ code)
deriving DecidableEq

/-- `NoexceptSpec`, a byte in the snapshot. -/
inductive NoexceptSpec
  | none
  | noexcept
  | noexceptFalse
  | throwNone
  | unknown
  | unnamed (code : UInt8) (h : 5 ≤ code)
deriving DecidableEq

end Vycor
