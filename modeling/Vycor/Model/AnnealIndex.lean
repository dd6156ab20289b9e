/-
What one TU contributes to the anneal index, and the diagnostics about it.

`AnnealIndexPayload` is a TU's whole contribution in value form: it is the payload of
the checkpoint's phase-1 records and of the workers' index shards.  A count, a line
number and the other `unsigned` fields keep their 32 bits, an `int` is an `Int32`.
-/
import Vycor.Model.Str

namespace Vycor

/-! ### Index entries

What phase 1 collects of a TU, one record for each kind of finding. The fields
are those of the source; what a check compares is said where the check is
modelled.
-/

/-- A single function overload discovered during indexing. -/
structure FunctionOverloadEntry where
  qualifiedName : Str
  headerPath : Str
  paramTypes : List Str
  returnType : Str
  sourceLine : UInt32 := 0
deriving DecidableEq

/-- A single deduction guide discovered during indexing. -/
structure DeductionGuideEntry where
  templateName : Str
  headerPath : Str
  paramTypes : List Str
  deducedType : Str
  sourceLine : UInt32 := 0
deriving DecidableEq

/-- Coverage-relevant properties of a class member function defined in a header. -/
structure CoveragePropertyEntry where
  qualifiedName : Str
  headerPath : Str
  sourceLine : UInt32 := 0
  enclosingClass : Str
  gvaLinkage : Int32 := -1
  isInlined : Bool := false
  isConstexpr : Bool := false
  isDefaulted : Bool := false
  isTrivial : Bool := false
  isVirtual : Bool := false
  isStaticMethod : Bool := false
  isImplicitlyInstantiable : Bool := false
  templatedKind : Int32 := 0
  storageClass : Int32 := 0
  formalLinkage : Int32 := 0
  bodyStmtCount : UInt32 := 0
  signature : Str
deriving DecidableEq

/-- One definition site of an entity whose definitions the linker merges. -/
structure OdrEntry where
  qualifiedName : Str
  signature : Str
  isClass : Bool := false
  enclosingClass : Str
  filePath : Str
  line : UInt32 := 0
  odrHash : UInt64 := 0
deriving DecidableEq

/-- One explicit class template specialization. -/
structure SpecializationEntry where
  templateName : Str
  argsString : Str
  headerPath : Str
  line : UInt32 := 0
deriving DecidableEq

/-- One default argument written at one declaration site. -/
structure DefaultArgEntry where
  qualifiedName : Str
  signature : Str
  paramIndex : UInt32 := 0
  paramName : Str
  defaultText : Str
  filePath : Str
  line : UInt32 := 0
deriving DecidableEq

/-- One static-initialization root. -/
structure StaticInitEntry where
  qualifiedName : Str
  filePath : Str
  line : UInt32 := 0
  dynamicInit : Bool := false
  isConstructorFn : Bool := false
  referencedGlobals : List Str
  calledFunctions : List Str
deriving DecidableEq

/-- A name-level summary of one function's calls. -/
structure FunctionSummaryEntry where
  qualifiedName : Str
  filePath : Str
  line : UInt32 := 0
  isNoexcept : Bool := false
  hasUncaughtThrow : Bool := false
  calledFunctions : List Str
  unguardedCalls : List Str
  referencedGlobals : List Str
deriving DecidableEq

/-- One internal-linkage variable defined in a header, with the TUs that have a copy. -/
structure HeaderStaticEntry where
  name : Str
  filePath : Str
  line : UInt32 := 0
  isConst : Bool := false
  tuPaths : List Str
deriving DecidableEq

/-- One declaration site's resolved exception specification. -/
structure ExceptionSpecEntry where
  qualifiedName : Str
  signature : Str
  isNoexcept : Bool := false
  filePath : Str
  line : UInt32 := 0
deriving DecidableEq

/-- One TU's complete contribution to the index, in value form. -/
structure AnnealIndexPayload where
  overloads : List FunctionOverloadEntry := []
  guides : List DeductionGuideEntry := []
  coverage : List CoveragePropertyEntry := []
  odrEntries : List OdrEntry := []
  specializations : List SpecializationEntry := []
  defaultArgs : List DefaultArgEntry := []
  staticInits : List StaticInitEntry := []
  functionSummaries : List FunctionSummaryEntry := []
  headerStatics : List HeaderStaticEntry := []
  exceptionSpecs : List ExceptionSpecEntry := []
  /-- (derived, base). -/
  baseEdges : List (Str × Str) := []
  /-- (toType, fromType). -/
  ctorEdges : List (Str × Str) := []
  /-- (fromType, toType). -/
  convOpEdges : List (Str × Str) := []
deriving DecidableEq

/-! ### Diagnostics -/

/-- `Diagnostic::Kind`.  A record stores the raw value, and reading one back casts it, so
a value without an enumerator is a value of the type too. -/
inductive Diagnostic.Kind
  | adlFallback
  | adlAmbiguity
  | adlSameScore
  | ctadFallback
  | coverageGVAMismatch
  | coverageDiscardableODR
  | coverageAvailableExternally
  | coveragePropertyDivergence
  | deadCodePessimistic
  | deadCodeOptimistic
  | odrDuplicateDefinition
  | odrDivergentDefinition
  | specializationInvisible
  | defaultArgDivergent
  | staticInitOrderDependency
  | staticInitHazard
  | exceptionEscape
  | headerStaticDuplicated
  | exceptionSpecDivergent
  | custom
  | unnamed (value : UInt32) (h : 20 ≤ value)
deriving DecidableEq

namespace Diagnostic.Kind

/-- The enumerators, in order of value. -/
def enumerators : List Diagnostic.Kind :=
  [adlFallback, adlAmbiguity, adlSameScore, ctadFallback, coverageGVAMismatch,
    coverageDiscardableODR, coverageAvailableExternally, coveragePropertyDivergence,
    deadCodePessimistic, deadCodeOptimistic, odrDuplicateDefinition, odrDivergentDefinition,
    specializationInvisible, defaultArgDivergent, staticInitOrderDependency, staticInitHazard,
    exceptionEscape, headerStaticDuplicated, exceptionSpecDivergent, custom]

/-- The cast to `uint32_t`. -/
def toU32 : Diagnostic.Kind → UInt32
  | unnamed value _ => value
  | kind => UInt32.ofNat (enumerators.idxOf kind)

/-- The cast from `uint32_t`. -/
def ofU32 (value : UInt32) : Diagnostic.Kind :=
  if h : 20 ≤ value then unnamed value h else enumerators.getD value.toNat custom

theorem ofU32_toU32 (kind : Diagnostic.Kind) : ofU32 kind.toU32 = kind := by
  cases kind with
  | unnamed value h => simp [toU32, ofU32, h]
  | _ => rfl

end Diagnostic.Kind

/-- A diagnostic emitted when analysis finds an issue. -/
structure Diagnostic where
  kind : Diagnostic.Kind
  callLocation : Str
  resolvedDecl : Str
  betterDecl : Str
  missingHeader : Str
  message : Str
  checkName : Str
deriving DecidableEq

end Vycor
