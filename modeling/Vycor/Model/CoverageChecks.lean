/-
The check of coverage properties.

The methods of a class are compared with each other: the linkage that most of them have is what
the others should have, and among those of one linkage a short method is told from a long one.
The classes, and the methods of a class by linkage, are in hash maps; a walk takes their order
as a `HashWalk`.  The groups of a class are walked more than once, in the same order.
-/
import Vycor.Lib.Groups
import Vycor.Model.IndexChecks

namespace Vycor

open GlobalIndex (toStr)

/-- The linkage as the reports name it. -/
def gvaLinkageName (gva : Int32) : Str :=
  if gva = 0 then str "GVA_Internal"
  else if gva = 1 then str "GVA_AvailableExternally"
  else if gva = 2 then str "GVA_DiscardableODR"
  else if gva = 3 then str "GVA_StrongODR"
  else if gva = 4 then str "GVA_StrongExternal"
  else str "Unknown(" ++ decimalInt gva.toInt ++ str ")"

/-! ### Methods

What is reported of a method by itself, and of it beside the other methods of
its class.
-/

/-- A report about one method. -/
def coverageRisk (kind : Diagnostic.Kind) (m : CoveragePropertyEntry) (message : Str) :
    Diagnostic where
  kind := kind
  callLocation := formatSite (m.headerPath, m.sourceLine)
  resolvedDecl := m.signature
  betterDecl := []
  missingHeader := []
  message := message
  checkName := []

/-- Individual methods with risky linkage. -/
def riskyLinkage (m : CoveragePropertyEntry) : List Diagnostic :=
  (if m.gvaLinkage = 2 then
    [coverageRisk .coverageDiscardableODR m
      (str "Coverage risk: " ++ m.signature
        ++ str " has GVA_DiscardableODR linkage. COMDAT deduplication at link "
        ++ str "time may replace the instrumented definition with an "
        ++ str "uninstrumented one from another TU, producing hash 0x0 in "
        ++ str "coverage data.")]
  else [])
  ++ (if m.gvaLinkage = 1 then
    [coverageRisk .coverageAvailableExternally m
      (str "Coverage risk: " ++ m.signature
        ++ str " has GVA_AvailableExternally linkage. The optimizer may "
        ++ str "inline the body and then discard the standalone definition, "
        ++ str "eliminating coverage instrumentation.")]
  else [])

/-- A report about a method whose linkage is not that of the largest group. -/
def gvaMismatch (className : Str) (majorityGVA : Int32) (maxGroupSize : Nat) (gva : Int32)
    (m : CoveragePropertyEntry) : Diagnostic :=
  { coverageRisk .coverageGVAMismatch m
      (str "Coverage divergence in " ++ className ++ str ": " ++ m.signature ++ str " has "
        ++ gvaLinkageName gva ++ str " linkage, but " ++ toStr maxGroupSize
        ++ str " other method(s) in the same class have " ++ gvaLinkageName majorityGVA
        ++ str " linkage. This difference may cause divergent coverage "
        ++ str "instrumentation behavior.") with
    betterDecl := str "majority linkage: " ++ gvaLinkageName majorityGVA }

/-- A short body, or none of its own. -/
def trivialBody (m : CoveragePropertyEntry) : Bool := m.bodyStmtCount ≤ 8 || m.isTrivial

def boolText (b : Bool) : Str := if b then str "true" else str "false"

/-- What a method's body does, as the report has it. -/
def bodySummary (m : CoveragePropertyEntry) : Str :=
  m.signature ++ str " (body complexity: " ++ toStr m.bodyStmtCount.toNat
    ++ str " stmts, inline=" ++ boolText m.isInlined ++ str ", constexpr=" ++ boolText m.isConstexpr

/-- A report about a method with a body beside a trivial one. -/
def complexBeside (className : Str) (complex trivial : CoveragePropertyEntry) : Diagnostic :=
  { coverageRisk .coveragePropertyDivergence complex
      (str "Coverage property divergence in " ++ className ++ str ": " ++ bodySummary complex
        ++ str ") vs " ++ bodySummary trivial
        ++ str "). The more complex method may receive different "
        ++ str "optimization treatment affecting coverage instrumentation.") with
    betterDecl := trivial.signature }

/-- Two methods of which one is trivial. -/
def propertyDivergence (className : Str) (pair : CoveragePropertyEntry × CoveragePropertyEntry) :
    Option Diagnostic :=
  let aTrivial := trivialBody pair.1
  let bTrivial := trivialBody pair.2
  if aTrivial ≠ bTrivial then
    some (complexBeside className (if aTrivial then pair.2 else pair.1)
      (if aTrivial then pair.1 else pair.2))
  else none

/-! ### Classes -/

/-- `byGVA`. -/
def byGVA (methods : List CoveragePropertyEntry) : UMap Int32 (List CoveragePropertyEntry) :=
  methods.foldl (fun groups m => groups.upsert m.gvaLinkage [] (· ++ [m])) ∅

/-- The linkage of the largest group, the first one of several, and its size. -/
def majorityOf (groups : List (Σ _ : Int32, List CoveragePropertyEntry)) : Int32 × Nat :=
  groups.foldl (fun best kv => if best.2 < kv.2.length then (kv.1, kv.2.length) else best) (-1, 0)

/-- The reports of one class. -/
def classCoverage (w : HashWalk) (className : Str) (methods : List CoveragePropertyEntry) :
    List Diagnostic :=
  methods.flatMap riskyLinkage
  ++ (if methods.length < 2 then []
    else
      let groups := w.walk (byGVA methods)
      let majority := majorityOf groups
      (if 1 < groups.length then
        (groups.filter (·.1 ≠ majority.1)).flatMap fun kv =>
          kv.2.map (gvaMismatch className majority.1 majority.2 kv.1)
      else [])
      ++ groups.flatMap fun kv => (Groups.laterPairs kv.2).filterMap (propertyDivergence className))

def analyzeCoverageProperties (w : HashWalk) (index : GlobalIndex) : List Diagnostic :=
  (index.allIndexedClasses w).flatMap fun className =>
    classCoverage w className (index.findClassMethods className)

end Vycor
