/-
The anneal index over all TUs.

Overloads, guides, coverage properties and specializations are filed under an interned name.
The other kinds are plain vectors: four of them drop an entry whose dedup key was seen, and
two merge it into the entry of its key.  Merging a shard and applying a payload both go
through the `add*` functions.  Walking a hash map takes its order as a `HashWalk`; the locks
are not modelled.
-/
import Vycor.Lib.Dedup
import Vycor.Lib.HitSearch
import Vycor.Model.AnnealIndex
import Vycor.Model.Json
import Vycor.Model.Snapshot

namespace Vycor

/-! ### Type relations

Bases, converting constructors and conversion operators, as edges between
interned names.
-/

/-- Type names and the relations between them, for implicit conversions. -/
structure TypeRelationIndex where
  interner : StringInterner := {}
  /-- Derived class to its direct bases. -/
  bases : UMap SId (List SId) := ∅
  /-- Target type to the types its converting constructors take. -/
  ctorEdges : UMap SId (List SId) := ∅
  /-- Source type to the types its conversion operators give. -/
  convOpEdges : UMap SId (List SId) := ∅

namespace TypeRelationIndex

/-- One more edge, unless it is there. -/
def pushEdge (edges : UMap SId (List SId)) (source target : SId) : UMap SId (List SId) :=
  edges.upsert source [] (Dedup.pushUnique · target)

def addBase (types : TypeRelationIndex) (derived base : Str) : TypeRelationIndex :=
  let names := (types.interner.intern derived).intern base
  { types with
    interner := names
    bases := pushEdge types.bases (names.idOf derived) (names.idOf base) }

def addCtorEdge (types : TypeRelationIndex) (toType fromType : Str) : TypeRelationIndex :=
  let names := (types.interner.intern toType).intern fromType
  { types with
    interner := names
    ctorEdges := pushEdge types.ctorEdges (names.idOf toType) (names.idOf fromType) }

def addConvOpEdge (types : TypeRelationIndex) (fromType toType : Str) : TypeRelationIndex :=
  let names := (types.interner.intern fromType).intern toType
  { types with
    interner := names
    convOpEdges := pushEdge types.convOpEdges (names.idOf fromType) (names.idOf toType) }

/-- The edges of a table with their strings, in the order of a walk. -/
def forEachEdge (w : HashWalk) (names : StringInterner) (edges : UMap SId (List SId)) :
    List (Str × Str) :=
  (w.walk edges).flatMap fun entry =>
    entry.2.map fun target => (names.resolve entry.1, names.resolve target)

def forEachBase (w : HashWalk) (types : TypeRelationIndex) : List (Str × Str) :=
  forEachEdge w types.interner types.bases

def forEachCtorEdge (w : HashWalk) (types : TypeRelationIndex) : List (Str × Str) :=
  forEachEdge w types.interner types.ctorEdges

def forEachConvOpEdge (w : HashWalk) (types : TypeRelationIndex) : List (Str × Str) :=
  forEachEdge w types.interner types.convOpEdges

def absorb (w : HashWalk) (types other : TypeRelationIndex) : TypeRelationIndex :=
  let types := (other.forEachBase w).foldl (fun types e => types.addBase e.1 e.2) types
  let types := (other.forEachCtorEdge w).foldl (fun types e => types.addCtorEdge e.1 e.2) types
  (other.forEachConvOpEdge w).foldl (fun types e => types.addConvOpEdge e.1 e.2) types

/-- The turns that the loop of `isBaseOrSelf` takes at most. -/
def baseTurns (types : TypeRelationIndex) : Nat := types.bases.total List.length + 2

/-- `none` if the loop over the bases is not over after `fuel` turns. -/
def isBaseOrSelf (fuel : Nat) (types : TypeRelationIndex) (derived maybeBase : Str) :
    Option Bool :=
  if derived = maybeBase then some true
  else
    match types.interner.find derived, types.interner.find maybeBase with
    | some derivedId, some baseId =>
      HitSearch.search (types.bases.getD · []) baseId fuel [] [derivedId]
    | _, _ => some false

end TypeRelationIndex

/-! ### The index -/

/-- All that phase 1 collected, with the names under which the checks ask for it. -/
structure GlobalIndex where
  interner : StringInterner := {}
  overloads : UMap SId (List FunctionOverloadEntry) := ∅
  guides : UMap SId (List DeductionGuideEntry) := ∅
  coverageProps : UMap SId (List CoveragePropertyEntry) := ∅
  odrEntries : List OdrEntry := []
  odrKeys : List Str := []
  specializations : UMap SId (List SpecializationEntry) := ∅
  defaultArgs : List DefaultArgEntry := []
  defaultArgKeys : List Str := []
  staticInits : List StaticInitEntry := []
  staticInitByName : UMap Str Nat := ∅
  staticInitKeys : List Str := []
  functionSummaries : List FunctionSummaryEntry := []
  functionSummaryByName : UMap Str Nat := ∅
  headerStatics : List HeaderStaticEntry := []
  /-- By file and line. -/
  headerStaticBySite : UMap Str Nat := ∅
  exceptionSpecs : List ExceptionSpecEntry := []
  exceptionSpecKeys : List Str := []
  types : TypeRelationIndex := {}

namespace GlobalIndex

/-! ### Dedup keys

The fields that tell two entries apart, joined by a bar. A bar within a field is
not escaped, so two entries may share a key.
-/

/-- `std::to_string`. -/
def toStr (n : Nat) : Str := decimalInt n

def bar : Str := str "|"

/-- What makes two definitions one entry. -/
def odrKey (e : OdrEntry) : Str :=
  e.qualifiedName ++ bar ++ e.signature ++ (if e.isClass then str "|c|" else str "|f|")
    ++ e.filePath ++ bar ++ toStr e.line.toNat ++ bar ++ toStr e.odrHash.toNat

/-- What makes two default arguments one entry. -/
def defaultArgKey (e : DefaultArgEntry) : Str :=
  e.qualifiedName ++ bar ++ e.signature ++ bar ++ toStr e.paramIndex.toNat ++ bar
    ++ e.defaultText ++ bar ++ e.filePath ++ bar ++ toStr e.line.toNat

/-- What makes two initializers one entry. -/
def staticInitKey (e : StaticInitEntry) : Str :=
  e.qualifiedName ++ bar ++ e.filePath ++ bar ++ toStr e.line.toNat

/-- What makes two exception specifications one entry. -/
def exceptionSpecKey (e : ExceptionSpecEntry) : Str :=
  e.qualifiedName ++ bar ++ e.signature ++ bar ++ (if e.isNoexcept then str "1|" else str "0|")
    ++ e.filePath ++ bar ++ toStr e.line.toNat

/-- What makes two statics of headers one entry. -/
def headerStaticKey (e : HeaderStaticEntry) : Str := e.filePath ++ bar ++ toStr e.line.toNat

/-! ### Adding

An entry is pushed under its name unless its key was met before; summaries and
header statics are merged with the one that is there.
-/

/-- Push under a name. -/
def pushNamed {α : Type} (m : UMap SId (List α)) (id : SId) (entry : α) : UMap SId (List α) :=
  m.upsert id [] (· ++ [entry])

def addFunctionOverload (g : GlobalIndex) (entry : FunctionOverloadEntry) : GlobalIndex :=
  let names := g.interner.intern entry.qualifiedName
  { g with
    interner := names
    overloads := pushNamed g.overloads (names.idOf entry.qualifiedName) entry }

def addDeductionGuide (g : GlobalIndex) (entry : DeductionGuideEntry) : GlobalIndex :=
  let names := g.interner.intern entry.templateName
  { g with
    interner := names
    guides := pushNamed g.guides (names.idOf entry.templateName) entry }

def addCoverageProperty (g : GlobalIndex) (entry : CoveragePropertyEntry) : GlobalIndex :=
  let names := g.interner.intern entry.enclosingClass
  { g with
    interner := names
    coverageProps := pushNamed g.coverageProps (names.idOf entry.enclosingClass) entry }

/-- The specialization is listed under its template already. -/
def sameSpecialization (existing entry : SpecializationEntry) : Bool :=
  existing.argsString = entry.argsString && existing.headerPath = entry.headerPath
    && existing.line = entry.line

/-- `specializations_[key]` makes the entry of the name in any case. -/
def addSpecialization (g : GlobalIndex) (entry : SpecializationEntry) : GlobalIndex :=
  let names := g.interner.intern entry.templateName
  { g with
    interner := names
    specializations := g.specializations.upsert (names.idOf entry.templateName) [] fun v =>
      if v.any (sameSpecialization · entry) then v else v ++ [entry] }

/-- The first entry of a key stays. -/
def addOdrEntry (g : GlobalIndex) (entry : OdrEntry) : GlobalIndex :=
  if odrKey entry ∈ g.odrKeys then g
  else { g with
    odrKeys := g.odrKeys ++ [odrKey entry]
    odrEntries := g.odrEntries ++ [entry] }

/-- The first entry of a key stays. -/
def addDefaultArg (g : GlobalIndex) (entry : DefaultArgEntry) : GlobalIndex :=
  if defaultArgKey entry ∈ g.defaultArgKeys then g
  else { g with
    defaultArgKeys := g.defaultArgKeys ++ [defaultArgKey entry]
    defaultArgs := g.defaultArgs ++ [entry] }

/-- The first entry of a key stays. -/
def addExceptionSpec (g : GlobalIndex) (entry : ExceptionSpecEntry) : GlobalIndex :=
  if exceptionSpecKey entry ∈ g.exceptionSpecKeys then g
  else { g with
    exceptionSpecKeys := g.exceptionSpecKeys ++ [exceptionSpecKey entry]
    exceptionSpecs := g.exceptionSpecs ++ [entry] }

/-- The first entry of a key stays. -/
def addStaticInit (g : GlobalIndex) (entry : StaticInitEntry) : GlobalIndex :=
  if staticInitKey entry ∈ g.staticInitKeys then g
  else { g with
    staticInitKeys := g.staticInitKeys ++ [staticInitKey entry]
    staticInits := g.staticInits ++ [entry]
    staticInitByName := g.staticInitByName.emplace entry.qualifiedName g.staticInits.length }

/-- The names of `from` that are not there are pushed. -/
def mergeNames (into names : List Str) : List Str := names.foldl Dedup.pushUnique into

/-- Lists union, flags OR, the first site wins. -/
def mergeSummary (existing entry : FunctionSummaryEntry) : FunctionSummaryEntry :=
  { existing with
    isNoexcept := existing.isNoexcept || entry.isNoexcept
    hasUncaughtThrow := existing.hasUncaughtThrow || entry.hasUncaughtThrow
    calledFunctions := mergeNames existing.calledFunctions entry.calledFunctions
    unguardedCalls := mergeNames existing.unguardedCalls entry.unguardedCalls
    referencedGlobals := mergeNames existing.referencedGlobals entry.referencedGlobals }

/-- Entries of one name are merged. -/
def addFunctionSummary (g : GlobalIndex) (entry : FunctionSummaryEntry) : GlobalIndex :=
  match g.functionSummaryByName.lookup entry.qualifiedName with
  | none =>
    { g with
      functionSummaries := g.functionSummaries ++ [entry]
      functionSummaryByName :=
        g.functionSummaryByName.emplace entry.qualifiedName g.functionSummaries.length }
  | some i => { g with functionSummaries := g.functionSummaries.modify i (mergeSummary · entry) }

/-- The TUs of both; the rest is the first one's. -/
def mergeHeaderStatic (existing entry : HeaderStaticEntry) : HeaderStaticEntry :=
  { existing with tuPaths := mergeNames existing.tuPaths entry.tuPaths }

/-- Entries of one site are merged. -/
def addHeaderStatic (g : GlobalIndex) (entry : HeaderStaticEntry) : GlobalIndex :=
  match g.headerStaticBySite.lookup (headerStaticKey entry) with
  | none =>
    { g with
      headerStatics := g.headerStatics ++ [entry]
      headerStaticBySite :=
        g.headerStaticBySite.emplace (headerStaticKey entry) g.headerStatics.length }
  | some i => { g with headerStatics := g.headerStatics.modify i (mergeHeaderStatic · entry) }

/-! ### Lookups -/

/-- What a map lists under a name. -/
def findNamed {α : Type} (names : StringInterner) (m : UMap SId (List α)) (name : Str) : List α :=
  match names.find name with
  | none => []
  | some id => m.getD id []

def findOverloads (g : GlobalIndex) (qualifiedName : Str) : List FunctionOverloadEntry :=
  findNamed g.interner g.overloads qualifiedName

def findDeductionGuides (g : GlobalIndex) (templateName : Str) : List DeductionGuideEntry :=
  findNamed g.interner g.guides templateName

def findClassMethods (g : GlobalIndex) (enclosingClass : Str) : List CoveragePropertyEntry :=
  findNamed g.interner g.coverageProps enclosingClass

def findSpecializations (g : GlobalIndex) (templateName : Str) : List SpecializationEntry :=
  findNamed g.interner g.specializations templateName

/-- The classes with methods, in hash order. -/
def allIndexedClasses (w : HashWalk) (g : GlobalIndex) : List Str :=
  (w.walk g.coverageProps).map fun entry => g.interner.resolve entry.1

/-- The first initializer of the name. -/
def findStaticInit (g : GlobalIndex) (name : Str) : Option StaticInitEntry :=
  (g.staticInitByName.lookup name).bind (g.staticInits[·]?)

/-- The summary of the name. -/
def findFunctionSummary (g : GlobalIndex) (name : Str) : Option FunctionSummaryEntry :=
  (g.functionSummaryByName.lookup name).bind (g.functionSummaries[·]?)

/-! ### Walks

The order of a hash map is not determined by its contents, so a walk takes it as
a parameter.
-/

/-- The entries of a map of lists, in the order of a walk. -/
def forEachNamed {α : Type} (w : HashWalk) (m : UMap SId (List α)) : List α :=
  (w.walk m).flatMap (·.2)

def forEachOverload (w : HashWalk) (g : GlobalIndex) : List FunctionOverloadEntry :=
  forEachNamed w g.overloads

def forEachDeductionGuide (w : HashWalk) (g : GlobalIndex) : List DeductionGuideEntry :=
  forEachNamed w g.guides

def forEachCoverageProperty (w : HashWalk) (g : GlobalIndex) : List CoveragePropertyEntry :=
  forEachNamed w g.coverageProps

def forEachSpecialization (w : HashWalk) (g : GlobalIndex) : List SpecializationEntry :=
  forEachNamed w g.specializations

/-- Merge a shard: its entries are added one by one. -/
def absorb (w : HashWalk) (g shard : GlobalIndex) : GlobalIndex :=
  let g := (shard.forEachOverload w).foldl addFunctionOverload g
  let g := (shard.forEachDeductionGuide w).foldl addDeductionGuide g
  let g := (shard.forEachCoverageProperty w).foldl addCoverageProperty g
  let g := shard.odrEntries.foldl addOdrEntry g
  let g := (shard.forEachSpecialization w).foldl addSpecialization g
  let g := shard.defaultArgs.foldl addDefaultArg g
  let g := shard.staticInits.foldl addStaticInit g
  let g := shard.functionSummaries.foldl addFunctionSummary g
  let g := shard.headerStatics.foldl addHeaderStatic g
  let g := shard.exceptionSpecs.foldl addExceptionSpec g
  { g with types := g.types.absorb w shard.types }

end GlobalIndex

/-! ### Payloads -/

namespace AnnealIndexPayload

/-- The contribution of a shard in value form. -/
def capture (w : HashWalk) (shard : GlobalIndex) : AnnealIndexPayload where
  overloads := shard.forEachOverload w
  guides := shard.forEachDeductionGuide w
  coverage := shard.forEachCoverageProperty w
  odrEntries := shard.odrEntries
  specializations := shard.forEachSpecialization w
  defaultArgs := shard.defaultArgs
  staticInits := shard.staticInits
  functionSummaries := shard.functionSummaries
  headerStatics := shard.headerStatics
  exceptionSpecs := shard.exceptionSpecs
  baseEdges := shard.types.forEachBase w
  ctorEdges := shard.types.forEachCtorEdge w
  convOpEdges := shard.types.forEachConvOpEdge w

/-- The entries of the payload are registered, one kind after the other. -/
def applyTo (p : AnnealIndexPayload) (into : GlobalIndex) : GlobalIndex :=
  let into := p.overloads.foldl GlobalIndex.addFunctionOverload into
  let into := p.guides.foldl GlobalIndex.addDeductionGuide into
  let into := p.coverage.foldl GlobalIndex.addCoverageProperty into
  let into := p.odrEntries.foldl GlobalIndex.addOdrEntry into
  let into := p.specializations.foldl GlobalIndex.addSpecialization into
  let into := p.defaultArgs.foldl GlobalIndex.addDefaultArg into
  let into := p.staticInits.foldl GlobalIndex.addStaticInit into
  let into := p.functionSummaries.foldl GlobalIndex.addFunctionSummary into
  let into := p.headerStatics.foldl GlobalIndex.addHeaderStatic into
  let into := p.exceptionSpecs.foldl GlobalIndex.addExceptionSpec into
  let types := p.baseEdges.foldl (fun types e => types.addBase e.1 e.2) into.types
  let types := p.ctorEdges.foldl (fun types e => types.addCtorEdge e.1 e.2) types
  let types := p.convOpEdges.foldl (fun types e => types.addConvOpEdge e.1 e.2) types
  { into with types }

end AnnealIndexPayload

end Vycor
