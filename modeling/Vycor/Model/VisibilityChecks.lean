/-
The checks of one TU against the index.

The visitor meets calls, variables and class templates.  Where the index knows an overload, a
deduction guide or an explicit specialization in a header that this TU does not include, and it
would have its say on the node, the TU is told so.

What the visitor asks of a node is a record here; a walk of the TU is a list of nodes.  The
files of the TU are all known when the walk begins, so they are given with it.  Fields of the
options that these checks do not read are left out, as are the checks of an organization that
run after them.
-/
import Vycor.Model.IndexChecks
import Vycor.Model.TypeNames

namespace Vycor

open GlobalIndex (toStr bar)

/-! ### Conversions -/

namespace TypeRelationIndex

/-- `isBaseOrSelf` with as many turns as its loop can take. -/
def baseOrSelf (types : TypeRelationIndex) (derived maybeBase : Str) : Bool :=
  (types.isBaseOrSelf types.baseTurns derived maybeBase).getD false

/-- There is an edge between two strings, as far as they have ids. -/
def hasEdge (types : TypeRelationIndex) (edges : UMap SId (List SId)) (source target : Str) :
    Bool :=
  match types.interner.find source with
  | none => false
  | some sourceId =>
    match edges.lookup sourceId with
    | none => false
    | some targets =>
      match types.interner.find target with
      | none => false
      | some targetId => targetId ∈ targets

/-- A class and its base, or a pointer to each. -/
def toBase (types : TypeRelationIndex) (source target : Str) : Bool :=
  let sourceClass := stripPointer source
  let targetClass := stripPointer target
  if sourceClass ≠ source ∨ targetClass ≠ target then
    sourceClass ≠ source && targetClass ≠ target && types.baseOrSelf sourceClass targetClass
  else types.baseOrSelf sourceClass targetClass && sourceClass ≠ targetClass

/-- The same type, two arithmetic ones, or one that converts by a base, a constructor or a
conversion operator. -/
def isConvertible (types : TypeRelationIndex) (source target : Str) : Bool :=
  if source = target then true
  else if isArithmeticTypeName source && isArithmeticTypeName target then true
  else if types.toBase source target then true
  else if types.hasEdge types.ctorEdges target source then true
  else types.hasEdge types.convOpEdges source target

end TypeRelationIndex

/-! ### Options and nodes -/

/-- Which checks are on. -/
structure AnalysisOptions where
  enableAdlDiag : Bool := true
  enableCtadDiag : Bool := true
  enableSpecializationDiag : Bool := true
  warnSameScore : Bool := false
  modelConvertibility : Bool := false

/-- The function that a call resolves to. -/
structure DirectCallee where
  inNamespace : Bool
  qualifiedName : Str
  paramTypes : List Str

/-- A call with the overload that was chosen. -/
structure CallNode where
  inMainFile : Bool
  callee : Option DirectCallee
  /-- The call spells a qualifier. -/
  hasQualifier : Bool := false
  /-- As written, without the implicit conversions. -/
  argTypes : List Str
  location : Str

/-- A variable, as far as class template deduction is looked at. -/
structure VarNode where
  inMainFile : Bool
  hasTypeSource : Bool := true
  /-- The template that the type specializes, where it does. -/
  templateName : Option Str
  hasInit : Bool
  type : Str
  location : Str

/-- One specialization that the TU knows of a class template. -/
structure KnownSpecialization where
  implicitInstantiation : Bool
  args : Str
  pointOfInstantiation : Option Str

/-- A class template with the specializations that the TU knows. -/
structure ClassTemplateNode where
  qualifiedName : Str
  specializations : List KnownSpecialization
  location : Str

/-- What the visitor looks at. -/
inductive AstNode
  | call (node : CallNode)
  | var (node : VarNode)
  | classTemplate (node : ClassTemplateNode)

/-- What an analysis walks over. -/
structure TranslationUnit where
  includedFiles : List Str
  nodes : List AstNode

/-! ### Scores

Overloads are compared position by position, as overload resolution does, but by
names of types.
-/

/-- 2 for the type of the argument, 1 for one that it converts to, 0 for others. -/
def scoreParamMatch (index : GlobalIndex) (modelConvertibility : Bool) (arg cand res : Str) :
    Nat :=
  if cand = arg then 2
  else if cand = res then 1
  else if isArithmeticTypeName cand && isArithmeticTypeName arg then 1
  else if modelConvertibility && index.types.isConvertible arg cand then 1
  else 0

/-- The scores by position, none for a candidate that is not viable. -/
def scorePositions (index : GlobalIndex) (modelConvertibility : Bool) :
    List Str → List Str → List Str → List Nat → List Nat
  | arg :: args, res :: resolved, cand :: candidate, out =>
    let s := scoreParamMatch index modelConvertibility arg cand res
    if s = 0 then []
    else scorePositions index modelConvertibility args resolved candidate (out ++ [s])
  | _, _, _, out => out

/-- The scores of an overload's parameters against the arguments; none where it does not
apply. -/
def scoreOverload (index : GlobalIndex) (modelConvertibility : Bool)
    (argTypes resolvedParamTypes candidateParamTypes : List Str) : List Nat :=
  if candidateParamTypes.length ≠ argTypes.length ∨ resolvedParamTypes.length ≠ argTypes.length
  then []
  else scorePositions index modelConvertibility argTypes resolvedParamTypes candidateParamTypes []

/-- Whether the candidate, and whether the resolved overload, is better somewhere. -/
def compareScores (resolvedScores candidateScores : List Nat) : Bool × Bool :=
  (resolvedScores.zip candidateScores).foldl
    (fun better s =>
      if s.2 > s.1 then (true, better.2) else if s.1 > s.2 then (better.1, true) else better)
    (false, false)

/-! ### Calls -/

/-- `name(type, type)`. -/
def buildSig (qualifiedName : Str) (params : List Str) : Str :=
  qualifiedName ++ str "(" ++ (str ", ").intercalate params ++ str ")"

/-- An overload in a header that is not included ties with the one called. -/
def adlSameScore (location resolvedSig candidateSig header : Str) : Diagnostic where
  kind := .adlSameScore
  callLocation := location
  resolvedDecl := resolvedSig
  betterDecl := candidateSig
  missingHeader := header
  message := str "Same-score ADL candidate: " ++ candidateSig ++ str " exists in " ++ header
    ++ str " but is not visible here. It ties the resolved overload " ++ resolvedSig
    ++ str " on every argument position — inclusion order silently decides "
    ++ str "which one the compiler picks."
  checkName := []

/-- A better overload is in a header that is not included. -/
def adlFallback (location resolvedSig candidateSig header : Str) : Diagnostic where
  kind := .adlFallback
  callLocation := location
  resolvedDecl := resolvedSig
  betterDecl := candidateSig
  missingHeader := header
  message := str "Fragile ADL resolution: " ++ candidateSig ++ str " exists in " ++ header
    ++ str " but is not visible here. The current call resolves to " ++ resolvedSig
    ++ str ". Include " ++ header ++ str " or explicitly qualify the call."
  checkName := []

/-- With the header the call would be ambiguous. -/
def adlAmbiguity (location resolvedSig candidateSig header : Str) : Diagnostic where
  kind := .adlAmbiguity
  callLocation := location
  resolvedDecl := resolvedSig
  betterDecl := candidateSig
  missingHeader := header
  message := str "Potential ADL ambiguity: " ++ candidateSig ++ str " exists in " ++ header
    ++ str " but is not visible here. Including it would make the call to " ++ resolvedSig
    ++ str " an ambiguous overload resolution."
  checkName := []

/-- What is said of one overload of the index at a call. -/
def judgeOverload (index : GlobalIndex) (opts : AnalysisOptions) (includedFiles : List Str)
    (node : CallNode) (callee : DirectCallee) (resolvedScores : List Nat)
    (entry : FunctionOverloadEntry) : Option Diagnostic :=
  if entry.paramTypes = callee.paramTypes then none
  else if entry.headerPath ∈ includedFiles then none
  else if entry.paramTypes.length ≠ node.argTypes.length then none
  else
    let candidateScores := scoreOverload index opts.modelConvertibility
      (normalizeAll node.argTypes) (normalizeAll callee.paramTypes) (normalizeAll entry.paramTypes)
    if candidateScores = [] then none
    else
      let (candidateBetter, resolvedBetter) := compareScores resolvedScores candidateScores
      let resolvedSig := buildSig callee.qualifiedName callee.paramTypes
      let candidateSig := buildSig entry.qualifiedName entry.paramTypes
      if !candidateBetter then
        if opts.warnSameScore && !resolvedBetter && candidateScores = resolvedScores
            && entry.paramTypes ≠ callee.paramTypes then
          some (adlSameScore node.location resolvedSig candidateSig entry.headerPath)
        else none
      else if !resolvedBetter then
        some (adlFallback node.location resolvedSig candidateSig entry.headerPath)
      else some (adlAmbiguity node.location resolvedSig candidateSig entry.headerPath)

/-- The reports about a call. -/
def visitCallExpr (index : GlobalIndex) (opts : AnalysisOptions) (includedFiles : List Str)
    (node : CallNode) : List Diagnostic :=
  if !opts.enableAdlDiag || !node.inMainFile then []
  else
    match node.callee with
    | none => []
    | some callee =>
      if !callee.inNamespace || node.hasQualifier then []
      else
        let overloads := index.findOverloads callee.qualifiedName
        if overloads.length ≤ 1 then []
        else
          let resolvedScores := scoreOverload index opts.modelConvertibility
            (normalizeAll node.argTypes) (normalizeAll callee.paramTypes)
            (normalizeAll callee.paramTypes)
          -- a call without arguments, or with other than the declared number of them
          if resolvedScores = [] then []
          else overloads.filterMap
            (judgeOverload index opts includedFiles node callee resolvedScores)

/-! ### Deduced class templates -/

/-- A deduction guide is in a header that is not included. -/
def ctadFallback (location current deduced header : Str) : Diagnostic where
  kind := .ctadFallback
  callLocation := location
  resolvedDecl := current
  betterDecl := deduced
  missingHeader := header
  message := str "Fragile CTAD resolution: deduction guide in " ++ header
    ++ str " would deduce " ++ deduced
    ++ str " but is not visible here. The current deduction produces " ++ current
    ++ str ". Include " ++ header ++ str " to use the explicit guide."
  checkName := []

/-- The report a guide leads to, if any. -/
def judgeGuide (includedFiles : List Str) (node : VarNode) (entry : DeductionGuideEntry) :
    Option Diagnostic :=
  if entry.headerPath ∈ includedFiles then none
  else if entry.deducedType = node.type then none
  else some (ctadFallback node.location node.type entry.deducedType entry.headerPath)

/-- The reports about a deduction. -/
def visitVarDecl (index : GlobalIndex) (opts : AnalysisOptions) (includedFiles : List Str)
    (node : VarNode) : List Diagnostic :=
  if !opts.enableCtadDiag || !node.inMainFile || !node.hasTypeSource then []
  else
    match node.templateName with
    | none => []
    | some templateName =>
      if !node.hasInit then []
      else (index.findDeductionGuides templateName).filterMap (judgeGuide includedFiles node)

/-! ### Specializations

A specialization is reported once in a TU. The set that sees to it joins the
template's name and the header by a bar.
-/

/-- A specialization is in a header that is not included. -/
def specializationInvisible (location args : Str) (entry : SpecializationEntry) : Diagnostic where
  kind := .specializationInvisible
  callLocation := location
  resolvedDecl := []
  betterDecl := []
  missingHeader := entry.headerPath
  message := str "IFNDR: this TU instantiates the primary template '" ++ entry.templateName
    ++ str "<" ++ args ++ str ">' but an explicit specialization exists at " ++ entry.headerPath
    ++ str ":" ++ toStr entry.line.toNat ++ str " and is not visible here. TUs "
    ++ str "will disagree about which definition to use. Include " ++ entry.headerPath
    ++ str " before the first use, or declare the "
    ++ str "specialization in the primary template's header."
  checkName := []

/-- `reportKey`. -/
def specReportKey (args : Str) (entry : SpecializationEntry) : Str :=
  entry.templateName ++ bar ++ args ++ bar ++ entry.headerPath

/-- The state of the visitor. -/
structure AnalyzerVisitor where
  diagnostics : List Diagnostic := []
  reportedSpecs : List Str := []

/-- The report a specialization leads to, if any. -/
def judgeSpecialization (includedFiles : List Str) (node : ClassTemplateNode)
    (spec : KnownSpecialization) (v : AnalyzerVisitor) (entry : SpecializationEntry) :
    AnalyzerVisitor :=
  if entry.argsString ≠ spec.args then v
  else if entry.headerPath ∈ includedFiles then v
  else if specReportKey spec.args entry ∈ v.reportedSpecs then v
  else
    { diagnostics := v.diagnostics
        ++ [specializationInvisible (spec.pointOfInstantiation.getD node.location) spec.args entry]
      reportedSpecs := v.reportedSpecs ++ [specReportKey spec.args entry] }

/-- The reports about a template's specializations, each once. -/
def visitClassTemplateDecl (index : GlobalIndex) (opts : AnalysisOptions)
    (includedFiles : List Str) (node : ClassTemplateNode) (v : AnalyzerVisitor) :
    AnalyzerVisitor :=
  if !opts.enableSpecializationDiag then v
  else
    let known := index.findSpecializations node.qualifiedName
    node.specializations.foldl
      (fun v spec =>
        if !spec.implicitInstantiation then v
        else known.foldl (judgeSpecialization includedFiles node spec) v) v

/-! ### The walk -/

/-- The reports of a node. -/
def AnalyzerVisitor.visit (index : GlobalIndex) (opts : AnalysisOptions) (includedFiles : List Str)
    (v : AnalyzerVisitor) : AstNode → AnalyzerVisitor
  | .call node =>
    { v with diagnostics := v.diagnostics ++ visitCallExpr index opts includedFiles node }
  | .var node =>
    { v with diagnostics := v.diagnostics ++ visitVarDecl index opts includedFiles node }
  | .classTemplate node => visitClassTemplateDecl index opts includedFiles node v

/-- The diagnostics of a TU. -/
def handleTranslationUnit (index : GlobalIndex) (opts : AnalysisOptions) (tu : TranslationUnit) :
    List Diagnostic :=
  (tu.nodes.foldl (AnalyzerVisitor.visit index opts tu.includedFiles) {}).diagnostics

end Vycor
