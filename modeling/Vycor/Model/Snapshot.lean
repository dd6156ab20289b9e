/-
The index file: what a save writes and what a load makes of any bytes.

The file is a header with a section table and four sections: meta, graph, control flow and
channels.  A load decodes each section through a bounded reader of its own, installs the
records directly, with the ids as they stand in the file, and gives up on a section that
went wrong or was not consumed to its end.  `none` is a read outside the file, an index past
a table or a `bad_alloc`; `some none` is a file the load turns down.

The load makes room for the elements of a table as soon as it has read their count.  Room for
as many elements as there are bytes left in the section is always there; for more, the load
depends on its `heap`, the number of elements an allocation is given.

The hash maps of the source are walked in no particular order when they are saved, so a
save takes the order as a `HashWalk`.  A failed write is not modelled, and neither is the
load's time accounting.
-/
import Vycor.Lib.Sticky
import Vycor.Model.CallGraph
import Vycor.Model.ChannelIndex
import Vycor.Model.Dependencies

namespace Vycor

open Sticky (Read Cursor u8 u32 u64 lenStr list listReserved counting counted loop many ifOk
  require reserve entry putList putLenStr fail)
open Wire (leBytes)

/-! ### Enumerations as bytes -/

namespace EdgeKind

def enumerators : List EdgeKind :=
  [directCall, virtualDispatch, functionPointer, constructorCall, destructorCall, operatorCall,
    templateInstantiation, lambdaCall, threadEntry, functionPointerReturn]

def toU8 : EdgeKind → UInt8
  | unnamed code _ => code
  | kind => UInt8.ofNat (enumerators.idxOf kind)

def ofU8 (code : UInt8) : EdgeKind :=
  if h : 10 ≤ code then unnamed code h else enumerators.getD code.toNat directCall

end EdgeKind

namespace Confidence

def enumerators : List Confidence := [Proven, Plausible, Unknown]

def toU8 : Confidence → UInt8
  | unnamed code _ => code
  | confidence => UInt8.ofNat (enumerators.idxOf confidence)

def ofU8 (code : UInt8) : Confidence :=
  if h : 3 ≤ code then unnamed code h else enumerators.getD code.toNat Proven

end Confidence

namespace ExecutionContext

def enumerators : List ExecutionContext :=
  [synchronous, threadSpawn, asyncTask, packagedTask, invoke]

def toU8 : ExecutionContext → UInt8
  | unnamed code _ => code
  | ctx => UInt8.ofNat (enumerators.idxOf ctx)

def ofU8 (code : UInt8) : ExecutionContext :=
  if h : 5 ≤ code then unnamed code h else enumerators.getD code.toNat synchronous

end ExecutionContext

def RaiiKind.ofU8 (code : UInt8) : RaiiKind :=
  if h : 3 ≤ code then unnamed code h else [lock, smartPtr, other].getD code.toNat other

namespace NoexceptSpec

def enumerators : List NoexceptSpec := [none, noexcept, noexceptFalse, throwNone, unknown]

def toU8 : NoexceptSpec → UInt8
  | unnamed code _ => code
  | spec => UInt8.ofNat (enumerators.idxOf spec)

def ofU8 (code : UInt8) : NoexceptSpec :=
  if h : 5 ≤ code then unnamed code h else enumerators.getD code.toNat none

end NoexceptSpec

namespace ChannelOperation

def toU8 : ChannelOperation → UInt8
  | produce => 0
  | consume => 1
  | unnamed code _ => code

def ofU8 (code : UInt8) : ChannelOperation :=
  if h : 2 ≤ code then unnamed code h else if code = 0 then produce else consume

end ChannelOperation

/-! ### The loaded data -/

/-- `ReadOnly` leaves out the maps that only mutation needs. -/
inductive LoadMode
  | mutable
  | readOnly
deriving DecidableEq

/-- The counts of the header. -/
structure IndexSummary where
  nodes : UInt64 := 0
  edges : UInt64 := 0
  callSites : UInt64 := 0
  channelSites : UInt64 := 0
deriving DecidableEq

/-- What a load hands back. -/
structure SnapshotData where
  graph : CallGraph := {}
  cfIndex : ControlFlowIndex := {}
  channels : ChannelIndex := {}
  snapMeta : SnapshotMeta := {}
  summary : IndexSummary := {}
  /-- The `IndexSection` bits actually decoded. -/
  loaded : UInt32 := 0

def kSectionGraph : UInt32 := 1
def kSectionControlFlow : UInt32 := 2
def kSectionChannels : UInt32 := 4
def kSectionAll : UInt32 := 7

/-- An order in which hash maps are walked. -/
structure HashWalk where
  walk : ∀ {κ β : Type}, UMap κ β → List (Σ _ : κ, β)
  perm : ∀ {κ β : Type} (m : UMap κ β), (walk m).Perm m.entries

/-- The maps in the order in which their keys came in. -/
def HashWalk.inOrder : HashWalk where
  walk m := m.entries
  perm _ := List.Perm.refl _

namespace SnapshotIO

abbrev Bytes := List UInt8

def kMagic : Bytes := str "VYCS"
def kFormatVersion : UInt32 := 9
def kHeaderBytes : Nat := 4 + 4 + 32 + 4 + 4 * 17
def kSectionKinds : Nat := 4

def kMetaKind : Nat := 0
def kGraphKind : Nat := 1
def kControlFlowKind : Nat := 2
def kChannelsKind : Nat := 3

/-- No id of the interner: the context has no TU path. -/
def kNoString : UInt32 := 0xFFFFFFFF

/-! ### Emitters

Counts and lengths are cast to 32 bits on the way out, whatever they are. The
sections are written to buffers first, so the table in front knows where each
begins.
-/

def putU8 (v : UInt8) : Bytes := [v]

/-- The low 32 bits: the source casts. -/
def putU32 (v : Nat) : Bytes := leBytes 4 v

def putU64 (v : UInt64) : Bytes := leBytes 8 v.toNat

def putBool (b : Bool) : Bytes := putU8 (if b then 1 else 0)

def emitChannelTypeSpec (spec : ChannelTypeSpec) : Bytes :=
  putLenStr spec.qualifiedTypeName ++ (putList putLenStr spec.produceMethods ++
    (putList putLenStr spec.consumeMethods ++ putLenStr spec.category))

def emitStamp (stamp : FileStamp) : Bytes :=
  putLenStr stamp.path ++ (putU64 stamp.mtimeNs ++ putU64 stamp.size)

/-- A TU without a dependency list gets an empty one. -/
def emitMeta (snapMeta : SnapshotMeta) : Bytes :=
  putList putLenStr snapMeta.collapsePaths ++ (putList putLenStr snapMeta.lockAllowlist ++
    (putBool snapMeta.lockBuiltins ++ (putList emitChannelTypeSpec snapMeta.channelTypes ++
    (putList emitStamp snapMeta.files ++ (putList putLenStr snapMeta.entryPoints ++
    (putList emitStamp snapMeta.deps ++
      (List.range snapMeta.files.length).flatMap fun i =>
        putList putU32 (snapMeta.tuDeps.getD i [])))))))

def emitInternerTable (interner : StringInterner) : Bytes := putList putLenStr interner.strings

def nodeFlags (node : CallGraphNode) : UInt8 :=
  (if node.isEntryPoint then 1 else 0) ||| (if node.isVirtual then 2 else 0)

/-- A node under its usr, with its contributors. -/
def emitNode (g : CallGraph) (entry : Σ _ : SId, CallGraphNode) : Bytes :=
  putU32 entry.1 ++ (putU32 ((g.interner.find entry.2.qualifiedName).getD entry.1) ++
    (putLenStr entry.2.file ++ (putU32 entry.2.line.toNat ++ (putU8 (nodeFlags entry.2) ++
    (putLenStr entry.2.enclosingClass ++
      putList putU32 (g.nodeContributors.getD entry.1 []))))))

/-- The TUs of an edge, once for each registration. -/
def edgeTus (w : HashWalk) (g : CallGraph) (idx : Nat) : List SId :=
  (w.walk g.tuEdges).flatMap fun entry => (entry.2.filter (· = idx)).map fun _ => entry.1

/-- An edge, with its registrations. -/
def emitEdge (w : HashWalk) (g : CallGraph) (stored : StoredEdge × Nat) : Bytes :=
  putU32 stored.1.caller ++ (putU32 stored.1.callee ++ (putU32 stored.1.callSite ++
    (putU8 stored.1.kind.toU8 ++ (putU8 stored.1.confidence.toU8 ++
    (putU8 stored.1.execContext.toU8 ++ (putU32 stored.1.indirectionDepth.toNat ++
    (putU32 stored.1.refs ++ putList putU32 (edgeTus w g stored.2))))))))

def emitPair (pair : SId × SId) : Bytes := putU32 pair.1 ++ putU32 pair.2

/-- A relation as the pairs it consists of. -/
def relationPairs (w : HashWalk) (relation : UMap SId (List SId)) : List (SId × SId) :=
  (w.walk relation).flatMap fun entry => entry.2.map fun b => (entry.1, b)

/-- A relation as pairs, in hash order. -/
def emitPairs (w : HashWalk) (relation : UMap SId (List SId)) : Bytes :=
  putList emitPair (relationPairs w relation)

/-- Live edges only; the forward relations only. -/
def emitGraph (w : HashWalk) (g : CallGraph) : Bytes :=
  emitInternerTable g.interner ++ (putList (emitNode g) (w.walk g.nodes) ++
    (putU32 g.liveEdgeCount ++ ((g.edges.zipIdx.filter (·.1.refs ≠ 0)).flatMap (emitEdge w g) ++
    (emitPairs w g.derivedClasses ++ (emitPairs w g.methodOverrides ++
    (emitPairs w g.effectiveImplClasses ++ emitPairs w g.functionReturns))))))

def emitHandler (h : CatchHandlerInfo) : Bytes :=
  putLenStr h.caughtType ++ (putBool h.isCatchAll ++ (putLenStr h.location ++
    putLenStr h.bodySummary))

def emitScope (scope : TryCatchScope) : Bytes :=
  putLenStr scope.tryLocation ++ (putLenStr scope.enclosingFunction ++
    (putU32 scope.nestingDepth.toNat ++ putList emitHandler scope.handlers))

def emitGuard (g : ConditionalGuard) : Bytes :=
  putLenStr g.conditionText ++ (putLenStr g.location ++ (putBool g.inTrueBranch ++
    putBool g.isAssertion))

def emitLocal (l : StoredRaiiLocal) : Bytes :=
  putU32 l.typeName ++ (putU32 l.varName ++ (putU32 l.declLocation ++ putU8 l.kind.toU8))

/-- A context, by the ids of its strings and sets. -/
def emitContext (se : StoredContext) : Bytes :=
  putU32 se.caller ++ (putU32 se.callee ++ (putU32 se.callerDisplay ++
    (putU32 se.calleeDisplay ++ (putU32 se.site ++
    (putU32 (se.tuPath.getD kNoString.toNat) ++ (putU32 se.scopeSet ++ (putU32 se.guardSet ++
    (putU32 se.raiiSet ++ (putU8 se.callerNoexcept.toU8 ++ putBool se.insideCatchBlock)))))))))

/-- The set tables in full, live contexts only. -/
def emitControlFlow (cf : ControlFlowIndex) : Bytes :=
  emitInternerTable cf.interner ++ (putList (putList emitScope) cf.scopeSets.sets ++
    (putList (putList emitGuard) cf.guardSets.sets ++
    (putList (putList emitLocal) cf.raiiSets.sets ++
    (putU32 cf.liveCount ++ (cf.contexts.filter (·.live)).flatMap emitContext))))

/-- The TUs of a site, once for each registration. -/
def siteTus (w : HashWalk) (ch : ChannelIndex) (idx : Nat) : List Str :=
  (w.walk ch.byTu).flatMap fun entry => (entry.2.filter (· = idx)).map fun _ => entry.1

/-- A channel site, with its registrations. -/
def emitSite (w : HashWalk) (ch : ChannelIndex) (stored : StoredSite × Nat) : Bytes :=
  let site := stored.1.site
  putLenStr site.channelId ++ (putLenStr site.channelTypeName ++ (putLenStr site.category ++
    (putU8 site.op.toU8 ++ (putLenStr site.siteFunctionUsr ++
    (putLenStr site.siteFunctionDisplay ++ (putLenStr site.callSite ++
    (putU32 stored.1.refs ++ (putList emitGuard site.enclosingGuards ++
      putList putLenStr (if stored.1.refs ≠ 0 then siteTus w ch stored.2 else [])))))))))

def emitChannels (w : HashWalk) (ch : ChannelIndex) : Bytes :=
  putU32 ch.liveCount ++ (ch.sites.zipIdx.filter (·.1.live)).flatMap (emitSite w ch)

/-- The section table: each section begins where the one before it ends. -/
def emitTable (sections : List Bytes) : Bytes :=
  sections.zipIdx.flatMap fun (bytes, kind) =>
    putU8 (UInt8.ofNat kind) ++
      (putU64 (UInt64.ofNat (kHeaderBytes + ((sections.take kind).map (·.length)).sum)) ++
        putU64 (UInt64.ofNat bytes.length))

def emitHeader (graph : CallGraph) (cfIndex : ControlFlowIndex) (channels : ChannelIndex)
    (sections : List Bytes) : Bytes :=
  kMagic ++ (putU32 kFormatVersion.toNat ++ (putU64 (UInt64.ofNat graph.nodeCount) ++
    (putU64 (UInt64.ofNat graph.edgeCount) ++ (putU64 (UInt64.ofNat cfIndex.size) ++
    (putU64 (UInt64.ofNat channels.size) ++ (putU32 kSectionKinds ++ emitTable sections))))))

/-- The sections in the order of their kinds. -/
def sectionsOf (w : HashWalk) (graph : CallGraph) (cfIndex : ControlFlowIndex)
    (snapMeta : SnapshotMeta) (channels : ChannelIndex) : List Bytes :=
  [emitMeta snapMeta, emitGraph w graph, emitControlFlow cfIndex, emitChannels w channels]

/-- The file a save leaves. -/
def save (w : HashWalk) (graph : CallGraph) (cfIndex : ControlFlowIndex)
    (snapMeta : SnapshotMeta) (channels : ChannelIndex := {}) : Bytes :=
  let sections := sectionsOf w graph cfIndex snapMeta channels
  emitHeader graph cfIndex channels sections ++ sections.flatten

/-! ### The meta section -/

def readChannelTypeSpec : Read ChannelTypeSpec := do
  return { qualifiedTypeName := ← lenStr, produceMethods := ← list lenStr
           consumeMethods := ← list lenStr, category := ← lenStr }

def readStamp : Read FileStamp := do
  return { path := ← lenStr, mtimeNs := ← u64, size := ← u64 }

/-- An index into a table of this many entries. -/
def readDep (deps : Nat) : Read Nat := do
  let id ← u32
  require (id.toNat < deps)
  return id.toNat

/-- The options, the stamps and the dependencies of the bake. -/
def readMeta : Read SnapshotMeta := do
  let collapsePaths ← list lenStr
  let lockAllowlist ← list lenStr
  let lockBuiltins ← Sticky.bool
  let channelTypes ← list readChannelTypeSpec
  let files ← list readStamp
  let entryPoints ← list lenStr
  let deps ← list readStamp
  let tuDeps ← many (list (readDep deps.length)) files.length
  return { collapsePaths, lockAllowlist, lockBuiltins, channelTypes, files, deps, tuDeps
           entryPoints }

/-- The strings in the order of their ids. -/
def readInternerTable (heap : Nat) : Read StringInterner := do
  return { strings := ← listReserved heap lenStr }

/-! ### The graph section

Reading installs each record as the mutators would, without going through them:
nodes under their ids, edges with index and adjacency, relations forward and,
where there is one, in the reverse map.
-/

/-- Bounds-check a stored id. -/
def checkedId (interner : StringInterner) : Read SId := do
  let id ← u32
  require (id < UInt32.ofNat interner.size)
  return id.toNat

/-- A node under its id and its display name, as `addNode` files it. -/
def installNode (g : CallGraph) (nameId displayId : SId) (node : CallGraphNode) : CallGraph :=
  { g with
    byName := g.byName.upsert displayId [] (Dedup.pushUnique · nameId)
    nodes := g.nodes.emplace nameId node }

/-- The contributors are read past on a read-only load. -/
def readNode (mode : LoadMode) (g : CallGraph) : Read CallGraph := do
  let nameId ← checkedId g.interner
  let displayId ← checkedId g.interner
  let file ← lenStr
  let line ← u32
  let flags ← u8
  let enclosingClass ← lenStr
  let contribCount ← Sticky.count
  ifOk (do
    let usr ← entry g.interner.strings nameId
    let qualifiedName ← entry g.interner.strings displayId
    loop contribCount
      (fun g => do
        let tuId ← checkedId g.interner
        ifOk (return if mode = .mutable then g.addContributor nameId tuId else g) g)
      (installNode g nameId displayId
        { qualifiedName, file, line, isEntryPoint := flags &&& 1 != 0
          isVirtual := flags &&& 2 != 0, enclosingClass, usr })) g

/-- An edge at the next position, with what the mode has use for. -/
def installEdge (mode : LoadMode) (g : CallGraph) (key : EdgeKey SId) (refs : Nat) : CallGraph :=
  let idx := g.edges.length
  { g with
    outEdges := g.outEdges.upsert key.caller [] (· ++ [idx])
    inEdges := g.inEdges.upsert key.callee [] (· ++ [idx])
    edgeIndex := if mode = .mutable then g.edgeIndex.emplace key idx else g.edgeIndex
    edges := g.edges ++ [{ key with refs }]
    liveEdgeCount := g.liveEdgeCount + 1 }

/-- Saved edges are all live, so a record without registrations is corrupt. -/
def readEdge (mode : LoadMode) (g : CallGraph) : Read CallGraph := do
  let caller ← checkedId g.interner
  let callee ← checkedId g.interner
  let callSite ← checkedId g.interner
  let kind := EdgeKind.ofU8 (← u8)
  let confidence := Confidence.ofU8 (← u8)
  let execContext := ExecutionContext.ofU8 (← u8)
  let indirectionDepth ← u32
  let refs ← u32
  let contribCount ← Sticky.count
  require (refs ≠ 0)
  ifOk (do
    let idx := g.edges.length
    loop contribCount
      (fun g => do
        let tuId ← checkedId g.interner
        ifOk (return if mode = .mutable then g.tagEdges tuId [idx] else g) g)
      (installEdge mode g
        { caller, callee, callSite, kind, confidence, execContext, indirectionDepth }
        refs.toNat)) g

def installDerived (g : CallGraph) (baseId derivedId : SId) : CallGraph :=
  { g with derivedClasses := g.derivedClasses.upsert baseId [] (· ++ [derivedId]) }

def installOverride (g : CallGraph) (baseId overrideId : SId) : CallGraph :=
  { g with
    methodOverrides := g.methodOverrides.upsert baseId [] (· ++ [overrideId])
    overrideBases := g.overrideBases.upsert overrideId [] (· ++ [baseId]) }

def installImpl (g : CallGraph) (implId classId : SId) : CallGraph := g.relateImpl implId classId

def installReturn (g : CallGraph) (funcId retId : SId) : CallGraph :=
  { g with
    functionReturns := g.functionReturns.upsert funcId [] (Dedup.setInsert · retId)
    returnedBy := g.returnedBy.upsert retId [] (· ++ [funcId]) }

/-- One pair of a relation, into the forward map and, where there is one, the reverse map. -/
def readPair (install : CallGraph → SId → SId → CallGraph) (g : CallGraph) : Read CallGraph := do
  let a ← checkedId g.interner
  let b ← checkedId g.interner
  ifOk (return install g a b) g

/-- The room made is for `nodes_`, `outEdges_`, `inEdges_` and, where the graph stays mutable,
`nodeContributors_`, each of the same size. -/
def readNodes (heap : Nat) (mode : LoadMode) (interner : StringInterner) : Read CallGraph :=
  counting heap fun nodeCount => loop nodeCount (readNode mode) { interner }

/-- Only a mutable graph has an `edgeIndex_` to make room for.  Nobody has looked at the flag
since the nodes. -/
def readEdges (heap : Nat) (mode : LoadMode) (g : CallGraph) : Read CallGraph :=
  match mode with
  | .mutable => counting heap fun edgeCount => loop edgeCount (readEdge .mutable) g
  | .readOnly => counted (readEdge .readOnly) g

/-- The nodes, the edges and the four relations. -/
def readGraph (heap : Nat) (mode : LoadMode) : Read CallGraph := do
  let interner ← readInternerTable heap
  ifOk (do
    let g ← readNodes heap mode interner
    let g ← readEdges heap mode g
    let g ← counted (readPair installDerived) g
    let g ← counted (readPair installOverride) g
    let g ← counted (readPair installImpl) g
    counted (readPair installReturn) g) {}

/-! ### The control-flow section -/

def readHandler : Read CatchHandlerInfo := do
  return { caughtType := ← lenStr, isCatchAll := ← Sticky.bool, location := ← lenStr
           bodySummary := ← lenStr }

def readScope : Read TryCatchScope := do
  let tryLocation ← lenStr
  let enclosingFunction ← lenStr
  let nestingDepth ← u32
  return { tryLocation, enclosingFunction, handlers := ← list readHandler, nestingDepth }

def readGuard : Read ConditionalGuard := do
  return { conditionText := ← lenStr, location := ← lenStr, inTrueBranch := ← Sticky.bool
           isAssertion := ← Sticky.bool }

def readLocal (interner : StringInterner) : Read StoredRaiiLocal := do
  return { typeName := ← checkedId interner, varName := ← checkedId interner
           declLocation := ← checkedId interner, kind := RaiiKind.ofU8 (← u8) }

/-- Key the entries after entry 0. -/
def rebuildKeys {α : Type} (key : List α → Str) (sets : List (List α)) : UMap Str Nat :=
  (sets.zipIdx.drop 1).foldl (fun ids set => ids.emplace (key set.1) set.2) ∅

/-- A table that was not read in full is given up with its section. -/
def rebuildTable {α : Type} (mode : LoadMode) (key : List α → Str) (sets : List (List α)) :
    SetTable α :=
  { sets, ids := if mode = .mutable then rebuildKeys key sets else ∅ }

/-- The empty set stands at entry 0. -/
def seeded {α : Type} (sets : List (List α)) : Bool :=
  match sets with
  | [] :: _ => true
  | _ => false

/-- `insertStored`; a read-only index does not track its TUs. -/
def installContext (mode : LoadMode) (cf : ControlFlowIndex) (se : StoredContext) :
    ControlFlowIndex :=
  match mode with
  | .mutable => cf.insertStored se
  | .readOnly => { cf.insertStored se with byTu := cf.byTu, noProvenance := cf.noProvenance }

def readTuPath (interner : StringInterner) : Read (Option SId) := do
  let tuPath ← u32
  if tuPath ≠ kNoString then
    require (tuPath < UInt32.ofNat interner.size)
    return some tuPath.toNat
  else
    return none

/-- A context is read and filed. -/
def readContext (mode : LoadMode) (cf : ControlFlowIndex) : Read ControlFlowIndex := do
  let caller ← checkedId cf.interner
  let callee ← checkedId cf.interner
  let callerDisplay ← checkedId cf.interner
  let calleeDisplay ← checkedId cf.interner
  let site ← checkedId cf.interner
  let tuPath ← readTuPath cf.interner
  let scopeSet ← u32
  let guardSet ← u32
  let raiiSet ← u32
  let callerNoexcept := NoexceptSpec.ofU8 (← u8)
  let insideCatchBlock ← Sticky.bool
  require (scopeSet.toNat < cf.scopeSets.sets.length
    && guardSet.toNat < cf.guardSets.sets.length && raiiSet.toNat < cf.raiiSets.sets.length)
  let se : StoredContext :=
    { caller, callee, callerDisplay, calleeDisplay, site, tuPath
      scopeSet := scopeSet.toNat, guardSet := guardSet.toNat, raiiSet := raiiSet.toNat
      callerNoexcept, insideCatchBlock }
  ifOk (return installContext mode cf se) cf

/-- The empty index under the three tables, which have to start with the empty set. -/
def readSetTables (heap : Nat) (mode : LoadMode) (interner : StringInterner) :
    Read ControlFlowIndex := do
  let scopeSets ← list (listReserved heap readScope)
  let guardSets ← list (listReserved heap readGuard)
  let raiiSets ← list (listReserved heap (readLocal interner))
  require (seeded scopeSets && seeded guardSets && seeded raiiSets)
  return { interner
           scopeSets := rebuildTable mode ControlFlowIndex.scopeSetKey scopeSets
           guardSets := rebuildTable mode ControlFlowIndex.guardSetKey guardSets
           raiiSets := rebuildTable mode ControlFlowIndex.raiiSetKey raiiSets }

/-- The room made is for `byCallee_`, `byCaller_` and `bySite_`.  Nobody has looked at the flag
since the interner table. -/
def readContexts (heap : Nat) (mode : LoadMode) (cf : ControlFlowIndex) : Read ControlFlowIndex :=
  counting heap fun ctxCount => loop ctxCount (readContext mode) cf

/-- The strings, the set tables and the contexts. -/
def readControlFlow (heap : Nat) (mode : LoadMode) : Read ControlFlowIndex := do
  let interner ← readInternerTable heap
  ifOk (do
    let cf ← readSetTables heap mode interner
    readContexts heap mode cf) {}

/-! ### The channel section -/

/-- The site's own TU path is the first of the TUs that are listed for it. -/
def installSite (mode : LoadMode) (ch : ChannelIndex) (site : ChannelSite) (refs : Nat)
    (tus : List Str) : ChannelIndex :=
  let idx := ch.sites.length
  let ch := ch.appendSite { site with tuPath := tus.headD [] } refs
  if mode = .mutable then
    { ch with byTu := tus.foldl (fun m tu => ChannelIndex.pushAt m tu idx) ch.byTu }
  else ch

/-- A site's record up to its TUs: the site and its number of registrations. -/
def readSiteHead : Read (ChannelSite × UInt32) := do
  let channelId ← lenStr
  let channelTypeName ← lenStr
  let category ← lenStr
  let op := ChannelOperation.ofU8 (← u8)
  let siteFunctionUsr ← lenStr
  let siteFunctionDisplay ← lenStr
  let callSite ← lenStr
  let refs ← u32
  let enclosingGuards ← list readGuard
  return ({ channelId, channelTypeName, category, op, siteFunctionUsr, siteFunctionDisplay
            callSite, enclosingGuards }, refs)

/-- The site with its TUs.  Nobody has looked at the flag since the record began. -/
def readSiteTail (heap : Nat) (mode : LoadMode) (ch : ChannelIndex)
    (head : ChannelSite × UInt32) : Read ChannelIndex :=
  counting heap fun tuCount => do
    let tus ← many lenStr tuCount
    require (head.2 ≠ 0)
    ifOk (return installSite mode ch head.1 head.2.toNat tus) ch

/-- A channel site is read and filed. -/
def readSite (heap : Nat) (mode : LoadMode) (ch : ChannelIndex) : Read ChannelIndex := do
  readSiteTail heap mode ch (← readSiteHead)

/-- The sites in the order of the file. -/
def readChannels (heap : Nat) (mode : LoadMode) : Read ChannelIndex :=
  counted (readSite heap mode) {}

/-! ### Load -/

/-- Where a section lies in the file. -/
structure Range where
  offset : Nat
  length : Nat
deriving DecidableEq

/-- One entry of the section table: a kind that is new and lies within the file. -/
def readRange (fileSize : Nat) (ranges : List (Option Range)) : Read (List (Option Range)) := do
  let kind ← u8
  let offset ← u64
  let length ← u64
  require (kind.toNat < kSectionKinds)
  ifOk (do
    let slot ← entry ranges kind.toNat
    require (slot.isNone && offset.toNat ≤ fileSize && length.toNat ≤ fileSize - offset.toNat)
    ifOk (return ranges.set kind.toNat (some ⟨offset.toNat, length.toNat⟩)) ranges) ranges

/-- What the header says besides its magic: the counts and where the sections lie. -/
structure Header where
  summary : IndexSummary
  ranges : List (Option Range)

def flag : Read Bool := return (← get).ok

/-- None for a file of another kind or version, or a table that does not fit the file. -/
def readHeader (fileSize : Nat) : Read (Option Header) := do
  let magic ← Sticky.bytes 4
  if !(← flag) || magic != kMagic then
    return none
  if (← u32) != kFormatVersion then
    return none
  let summary : IndexSummary :=
    { nodes := ← u64, edges := ← u64, callSites := ← u64, channelSites := ← u64 }
  let tableCount ← u32
  if !(← flag) || tableCount.toNat != kSectionKinds then
    return none
  let ranges ← loop tableCount.toNat (readRange fileSize) (List.replicate kSectionKinds none)
  return some { summary, ranges }

/-- A load that can be turned down, over one that can fault. -/
abbrev Load := OptionT Option

/-- The bytes of a section; one the table does not list has none. -/
def slice (file : Bytes) : Option Range → Option Bytes
  | none => some []
  | some range =>
    if range.offset + range.length ≤ file.length then
      some ((file.drop range.offset).take range.length)
    else none

/-- Decode the bytes of a section, which have to be consumed exactly. -/
def decode {α : Type} (read : Read α) (bytes : Bytes) : Load α := do
  let (a, cursor) ← OptionT.lift (read ⟨bytes, true⟩)
  if cursor.ok && cursor.rest.isEmpty then
    return a
  failure

/-- A section is read to its end and no further. -/
def readSection {α : Type} (file : Bytes) (h : Header) (kind : Nat) (read : Read α) : Load α := do
  decode read (← OptionT.lift (slice file (h.ranges.getD kind none)))

/-- A section the caller does not need stays empty. -/
def readNeeded {α : Type} (needs bit : UInt32) (empty : α) (read : Load α) : Load α :=
  if needs &&& bit != 0 then read else return empty

/-- A file that loads, loads whatever the heap; so the heap is named only where a load may be
refused its room. -/
def load (file : Bytes) (mode : LoadMode := .mutable) (needs : UInt32 := kSectionAll)
    (heap : Nat := 0) : Load SnapshotData := do
  let (found, cursor) ← OptionT.lift (readHeader file.length ⟨file, true⟩)
  let header ← OptionT.mk (some found)
  if !cursor.ok || file.length - cursor.rest.length != kHeaderBytes then
    failure
  let snapMeta ← readSection file header kMetaKind readMeta
  let graph ← readNeeded needs kSectionGraph {}
    (readSection file header kGraphKind (readGraph heap mode))
  let cfIndex ← readNeeded needs kSectionControlFlow {}
    (readSection file header kControlFlowKind (readControlFlow heap mode))
  let channels ← readNeeded needs kSectionChannels {}
    (readSection file header kChannelsKind (readChannels heap mode))
  return { graph, cfIndex, channels, snapMeta, summary := header.summary
           loaded := needs &&& kSectionAll }

end SnapshotIO

end Vycor
