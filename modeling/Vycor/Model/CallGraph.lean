/-
The call graph: storage, mutators, shard merge, removal and queries.

Everything is keyed by interned ids.  An edge record has a position in `edges`, and the
maps `edgeIndex`, `outEdges`, `inEdges` and `tuEdges` refer to it by that position.  A
record whose `refs` is zero is a tombstone: it keeps its position until `compact`.

Two simplifications.  `refs` and the ids are unbounded here and 32 bits wide in the
source; `Proofs/Provenance.lean` bounds `refs` by the number of registrations.  The maps
are walked in the order of their entries, where the source's hash maps have no order.
A `std::set` of ids is an ascending list.  `transitiveClosure` takes its fuel from the
size of the relation, which is enough for it to end.
-/
import Vycor.Lib.Closure
import Vycor.Lib.Dedup
import Vycor.Lib.UMap
import Vycor.Model.ByteEnums
import Vycor.Model.StringInterner

namespace Vycor

/-! ### Edges and nodes

Strings are interned, so every map of the graph is keyed by ids, and an edge is
stored once with a count of its registrations. A dead edge stays in the table as
a tombstone until the graph is compacted.
-/

/-- A function, under its usr and its display name. -/
structure CallGraphNode where
  qualifiedName : Str
  file : Str := []
  line : UInt32 := 0
  isEntryPoint : Bool := false
  isVirtual : Bool := false
  enclosingClass : Str := []
  usr : Str := []
deriving DecidableEq

/-- An edge as it is registered and as it is shown, with names in place of ids. -/
structure CallGraphEdge where
  callerName : Str
  calleeName : Str
  kind : EdgeKind
  confidence : Confidence
  callSite : Str
  indirectionDepth : UInt32 := 0
  execContext : ExecutionContext := .synchronous
  callerUsr : Str := []
  calleeUsr : Str := []
deriving DecidableEq

/-- Content identity of an edge: every semantic field takes part.  `EdgeRef` of the source
has the same fields. -/
structure EdgeKey (ι : Type) where
  caller : ι
  callee : ι
  callSite : ι
  kind : EdgeKind
  confidence : Confidence
  execContext : ExecutionContext
  indirectionDepth : UInt32
deriving DecidableEq

/-- An edge by the ids of its strings. -/
abbrev EdgeRef := EdgeKey SId

/-- One stored edge; `keyOf` is the key it extends. -/
structure StoredEdge extends EdgeKey SId where
  /-- Number of registrations.  0 is a tombstone. -/
  refs : Nat
deriving DecidableEq

/-- The graph: the stored edges, the maps that find them, and which TU contributed what.
-/
structure CallGraph where
  interner : StringInterner := {}
  nodes : UMap SId CallGraphNode := ∅
  byName : UMap SId (List SId) := ∅
  edges : List StoredEdge := []
  edgeIndex : UMap (EdgeKey SId) Nat := ∅
  outEdges : UMap SId (List Nat) := ∅
  inEdges : UMap SId (List Nat) := ∅
  derivedClasses : UMap SId (List SId) := ∅
  methodOverrides : UMap SId (List SId) := ∅
  /-- Reverse of `methodOverrides`. -/
  overrideBases : UMap SId (List SId) := ∅
  effectiveImplClasses : UMap SId (List SId) := ∅
  functionReturns : UMap SId (List SId) := ∅
  /-- Reverse of `functionReturns`. -/
  returnedBy : UMap SId (List SId) := ∅
  tuEdges : UMap SId (List Nat) := ∅
  nodeContributors : UMap SId (List SId) := ∅
  /-- Reverse of `nodeContributors`. -/
  tuNodes : UMap SId (List SId) := ∅
  liveEdgeCount : Nat := 0
deriving DecidableEq

open Dedup

namespace CallGraphNode

/-- Name-only callers get usr == display. -/
def withUsr (node : CallGraphNode) : CallGraphNode :=
  if node.usr = [] then { node with usr := node.qualifiedName } else node

/-- What a second registration adds to a node. -/
def backfill (old node : CallGraphNode) : CallGraphNode :=
  { old with
    file := if node.file ≠ [] then node.file else old.file
    line := if node.line ≠ 0 then node.line else old.line
    isEntryPoint := if node.isEntryPoint then true else old.isEntryPoint
    isVirtual := if node.isVirtual then true else old.isVirtual
    enclosingClass := if node.enclosingClass ≠ [] then node.enclosingClass else old.enclosingClass }

end CallGraphNode

namespace CallGraph

/-! ### Steps in id space

Each is one change to the maps, shared by the mutators and by `absorb`.
-/

/-- The string gets an id. -/
def intern (g : CallGraph) (s : Str) : CallGraph := { g with interner := g.interner.intern s }

/-- Register a node under a usr id that has none yet. -/
def insertNode (g : CallGraph) (nameId displayId : SId) (node : CallGraphNode) : CallGraph :=
  { g with
    byName := g.byName.upsert displayId [] (pushUnique · nameId)
    nodes := g.nodes.insert nameId node }

/-- A node that is there keeps its fields and gets the ones it lacks. -/
def backfillNode (g : CallGraph) (nameId : SId) (old node : CallGraphNode) : CallGraph :=
  { g with nodes := g.nodes.insert nameId (old.backfill node) }

/-- Register a node, or backfill the one that is there. -/
def putNode (g : CallGraph) (nameId displayId : SId) (node : CallGraphNode) : CallGraph :=
  match g.nodes.lookup nameId with
  | none => g.insertNode nameId displayId node
  | some old => g.backfillNode nameId old node

/-- A TU is entered once for a node. -/
def addContributor (g : CallGraph) (nameId tuId : SId) : CallGraph :=
  { g with
    nodeContributors := g.nodeContributors.upsert nameId [] (setInsert · tuId)
    tuNodes :=
      if tuId ∈ g.nodeContributors.getD nameId [] then g.tuNodes
      else g.tuNodes.upsert tuId [] (· ++ [nameId]) }

/-- The position of the edge: stored already, or the next one. -/
def edgePos (g : CallGraph) (key : EdgeKey SId) : Nat :=
  (g.edgeIndex.lookup key).getD g.edges.length

/-- Store an edge with `refs` registrations, or add them to the stored one. -/
def storeEdge (g : CallGraph) (key : EdgeKey SId) (refs : Nat) : CallGraph :=
  match g.edgeIndex.lookup key with
  | some idx => { g with edges := g.edges.modify idx fun e => { e with refs := e.refs + refs } }
  | none =>
    let idx := g.edges.length
    { g with
      outEdges := g.outEdges.upsert key.caller [] (· ++ [idx])
      inEdges := g.inEdges.upsert key.callee [] (· ++ [idx])
      edges := g.edges ++ [{ key with refs }]
      edgeIndex := g.edgeIndex.insert key idx
      liveEdgeCount := g.liveEdgeCount + 1 }

/-- Record registrations of a TU by position. -/
def tagEdges (g : CallGraph) (tuId : SId) (idxs : List Nat) : CallGraph :=
  { g with tuEdges := g.tuEdges.upsert tuId [] (· ++ idxs) }

/-- A pair of the class relation. -/
def relateDerived (g : CallGraph) (baseId derivedId : SId) : CallGraph :=
  { g with derivedClasses := g.derivedClasses.upsert baseId [] (pushUnique · derivedId) }

/-- A pair of the override relation, in both directions. -/
def relateOverride (g : CallGraph) (baseId overrideId : SId) : CallGraph :=
  { g with
    methodOverrides := g.methodOverrides.upsert baseId [] (pushUnique · overrideId)
    overrideBases := g.overrideBases.upsert overrideId [] (pushUnique · baseId) }

/-- A pair of the implementation relation. -/
def relateImpl (g : CallGraph) (implId classId : SId) : CallGraph :=
  { g with effectiveImplClasses := g.effectiveImplClasses.upsert implId [] (setInsert · classId) }

/-- A pair of the return relation, in both directions. -/
def relateReturn (g : CallGraph) (funcId retId : SId) : CallGraph :=
  { g with
    functionReturns := g.functionReturns.upsert funcId [] (setInsert · retId)
    returnedBy :=
      if retId ∈ g.functionReturns.getD funcId [] then g.returnedBy
      else g.returnedBy.upsert retId [] (· ++ [funcId]) }

/-! ### Mutators -/

/-- Without a TU path no contributor is entered. -/
def addNode (g : CallGraph) (node : CallGraphNode) (tuPath : Str := []) : CallGraph :=
  let node := node.withUsr
  let g := (g.intern node.usr).intern node.qualifiedName
  let nameId := g.interner.idOf node.usr
  let displayId := g.interner.idOf node.qualifiedName
  let g := g.putNode nameId displayId node
  if tuPath ≠ [] then
    let g := g.intern tuPath
    g.addContributor nameId (g.interner.idOf tuPath)
  else g

/-- A second registration of the same edge only counts. -/
def addEdge (g : CallGraph) (edge : CallGraphEdge) (tuPath : Str := []) : CallGraph :=
  let g := ((g.intern edge.callerName).intern edge.calleeName).intern edge.callSite
  let key : EdgeKey SId :=
    { caller := g.interner.idOf edge.callerName, callee := g.interner.idOf edge.calleeName
      callSite := g.interner.idOf edge.callSite, kind := edge.kind, confidence := edge.confidence
      execContext := edge.execContext, indirectionDepth := edge.indirectionDepth }
  let idx := g.edgePos key
  let g := g.storeEdge key 1
  if tuPath ≠ [] then
    let g := g.intern tuPath
    g.tagEdges (g.interner.idOf tuPath) [idx]
  else g

/-- The TU path of a relation is not used. -/
def addDerivedClass (g : CallGraph) (baseClass derivedClass : Str) (_tuPath : Str := []) :
    CallGraph :=
  let g := (g.intern baseClass).intern derivedClass
  g.relateDerived (g.interner.idOf baseClass) (g.interner.idOf derivedClass)

def addMethodOverride (g : CallGraph) (baseMethod overrideMethod : Str) (_tuPath : Str := []) :
    CallGraph :=
  let g := (g.intern baseMethod).intern overrideMethod
  g.relateOverride (g.interner.idOf baseMethod) (g.interner.idOf overrideMethod)

def addEffectiveImpl (g : CallGraph) (concreteClass implMethod : Str) (_tuPath : Str := []) :
    CallGraph :=
  let g := (g.intern implMethod).intern concreteClass
  g.relateImpl (g.interner.idOf implMethod) (g.interner.idOf concreteClass)

def addFunctionReturn (g : CallGraph) (funcName returnedFunc : Str) (_tuPath : Str := []) :
    CallGraph :=
  let g := (g.intern funcName).intern returnedFunc
  g.relateReturn (g.interner.idOf funcName) (g.interner.idOf returnedFunc)

/-! ### Shard merge

A shard has an interner of its own. Its ids are mapped to ids of this graph
table by table, and then its nodes, edges and relations are entered as if they
had been registered here.
-/

/-- Intern a whole table; the ids it gets, by position. -/
def internAll (g : CallGraph) (strings : List Str) : CallGraph × List SId :=
  strings.foldl
    (fun st s => let g := st.1.intern s; (g, st.2 ++ [g.interner.idOf s])) (g, [])

/-- `addNode`'s backfill for a shard node under its usr id here. -/
def absorbFields (g : CallGraph) (nameId : SId) (node : CallGraphNode) : CallGraph :=
  match g.nodes.lookup nameId with
  | none =>
    let g := g.intern node.qualifiedName
    g.insertNode nameId (g.interner.idOf node.qualifiedName) node
  | some old => g.backfillNode nameId old node

/-- A shard's node with its contributors. -/
def absorbNode (shard : CallGraph) (remap : SId → SId) (g : CallGraph)
    (entry : Σ _ : SId, CallGraphNode) : CallGraph :=
  (shard.nodeContributors.getD entry.1 []).foldl
    (fun g shardTu => g.addContributor (remap entry.1) (remap shardTu))
    (g.absorbFields (remap entry.1) entry.2)

/-- The graph so far, and for each shard edge its position in it (none for a tombstone). -/
def absorbEdge (remap : SId → SId) (st : CallGraph × List (Option Nat)) (src : StoredEdge) :
    CallGraph × List (Option Nat) :=
  if src.refs = 0 then (st.1, st.2 ++ [none])
  else
    let key := { src.toEdgeKey with
      caller := remap src.caller, callee := remap src.callee, callSite := remap src.callSite }
    (st.1.storeEdge key src.refs, st.2 ++ [some (st.1.edgePos key)])

/-- What a TU of the shard registered, under the positions here. -/
def absorbTuEdges (remap : SId → SId) (edgeRemap : List (Option Nat)) (g : CallGraph)
    (entry : Σ _ : SId, List Nat) : CallGraph :=
  g.tagEdges (remap entry.1) (entry.2.filterMap fun i => edgeRemap.getD i none)

/-- Add every pair of a relation of the shard. -/
def absorbRelation (remap : SId → SId) (relate : CallGraph → SId → SId → CallGraph)
    (relation : UMap SId (List SId)) (g : CallGraph) : CallGraph :=
  relation.entries.foldl
    (fun g entry => entry.2.foldl (fun g x => relate g (remap entry.1) (remap x)) g) g

/-- Merge another graph object into this one. -/
def absorb (g shard : CallGraph) : CallGraph :=
  let interned := g.internAll shard.interner.strings
  let remap : SId → SId := fun id => interned.2.getD id 0
  let g := shard.nodes.entries.foldl (absorbNode shard remap) interned.1
  let stored := shard.edges.foldl (absorbEdge remap) (g, [])
  let g := shard.tuEdges.entries.foldl (absorbTuEdges remap stored.2) stored.1
  let g := absorbRelation remap relateDerived shard.derivedClasses g
  let g := absorbRelation remap relateOverride shard.methodOverrides g
  let g := absorbRelation remap relateImpl shard.effectiveImplClasses g
  absorbRelation remap relateReturn shard.functionReturns g

/-! ### Per-TU removal

Two passes: the registrations of the TUs are released, which may kill edges, and
then the adjacency vectors of the ends of dead edges are scrubbed. Relations
have no TU.
-/

/-- The first pass: registrations are released, and what dies is noted for the scrub. -/
structure Release where
  g : CallGraph
  dead : List Nat := []
  affectedCallers : List SId := []
  affectedCallees : List SId := []
  removed : Nat := 0

/-- Release one registration; the edge survives while others reference it. -/
def releaseEdge (r : Release) (idx : Nat) : Release :=
  match r.g.edges[idx]? with
  | none => r
  | some edge =>
    if edge.refs = 0 then r
    else
      let g := { r.g with edges := r.g.edges.set idx { edge with refs := edge.refs - 1 } }
      if edge.refs - 1 > 0 then { r with g }
      else
        { g := { g with edgeIndex := g.edgeIndex.erase edge.toEdgeKey
                        liveEdgeCount := g.liveEdgeCount - 1 }
          dead := idx :: r.dead
          affectedCallers := edge.caller :: r.affectedCallers
          affectedCallees := edge.callee :: r.affectedCallees
          removed := r.removed + 1 }

/-- Release every registration of a TU. -/
def releaseTU (r : Release) (tuId : SId) : Release :=
  match r.g.tuEdges.lookup tuId with
  | none => r
  | some idxs =>
    let r := idxs.foldl releaseEdge r
    { r with g := { r.g with tuEdges := r.g.tuEdges.erase tuId } }

/-- Drop the dead edges from the adjacency vectors of the affected ids. -/
def scrub (adjacency : UMap SId (List Nat)) (affected : List SId) (dead : List Nat) :
    UMap SId (List Nat) :=
  affected.foldl (fun m c => m.upsert c [] (·.filter (· ∉ dead))) adjacency

/-- Take a usr off a display name; the last one takes the entry along. -/
def dropCandidate (byName : UMap SId (List SId)) (displayId nodeId : SId) :
    UMap SId (List SId) :=
  match byName.lookup displayId with
  | none => byName
  | some candidates =>
    let rest := candidates.filter (· ≠ nodeId)
    if rest = [] then byName.erase displayId else byName.insert displayId rest

/-- Drop a node and its disambiguation entry. -/
def eraseNode (g : CallGraph) (nodeId : SId) : CallGraph :=
  match g.nodes.lookup nodeId with
  | none => g
  | some node =>
    let byName := match g.interner.find node.qualifiedName with
      | none => g.byName
      | some displayId => dropCandidate g.byName displayId nodeId
    { g with byName, nodes := g.nodes.erase nodeId }

/-- Take one TU off a node's contributors; the last one takes the node along. -/
def dropContributor (tuId : SId) (g : CallGraph) (nodeId : SId) : CallGraph :=
  match g.nodeContributors.lookup nodeId with
  | none => g
  | some contributors =>
    let rest := contributors.filter (· ≠ tuId)
    if rest = [] then
      let g := g.eraseNode nodeId
      { g with nodeContributors := g.nodeContributors.erase nodeId }
    else { g with nodeContributors := g.nodeContributors.insert nodeId rest }

/-- Take a TU off all the nodes it contributed. -/
def dropNodes (g : CallGraph) (tuId : SId) : CallGraph :=
  match g.tuNodes.lookup tuId with
  | none => g
  | some nodeIds =>
    let g := nodeIds.foldl (dropContributor tuId) g
    { g with tuNodes := g.tuNodes.erase tuId }

/-- The graph without the TUs, and how many edges went. -/
def removeTUs (g : CallGraph) (tuPaths : List Str) : CallGraph × Nat :=
  let tuIds := tuPaths.filterMap g.interner.find
  let r := tuIds.foldl releaseTU { g }
  let g := { r.g with
    outEdges := scrub r.g.outEdges r.affectedCallers r.dead
    inEdges := scrub r.g.inEdges r.affectedCallees r.dead }
  (tuIds.foldl dropNodes g, r.removed)

def removeTU (g : CallGraph) (tuPath : Str) : CallGraph × Nat := g.removeTUs [tuPath]

/-- The edge tables without tombstones, and for each old position its new one. -/
structure Compacted where
  edges : List StoredEdge := []
  edgeIndex : UMap (EdgeKey SId) Nat := ∅
  outEdges : UMap SId (List Nat) := ∅
  inEdges : UMap SId (List Nat) := ∅
  remap : List (Option Nat) := []

/-- A live edge moves down to the next position; a tombstone is left out. -/
def compactEdge (c : Compacted) (edge : StoredEdge) : Compacted :=
  if edge.refs = 0 then { c with remap := c.remap ++ [none] }
  else
    let neu := c.edges.length
    { remap := c.remap ++ [some neu]
      outEdges := c.outEdges.upsert edge.caller [] (· ++ [neu])
      inEdges := c.inEdges.upsert edge.callee [] (· ++ [neu])
      edgeIndex := c.edgeIndex.emplace edge.toEdgeKey neu
      edges := c.edges ++ [edge] }

/-- Drop the tombstones and renumber what refers to edges. -/
def compact (g : CallGraph) : CallGraph :=
  let c := g.edges.foldl compactEdge {}
  let tuEdges := UMap.filterMapVals (fun indices =>
    let vec := indices.filterMap fun old => c.remap.getD old none
    if vec = [] then none else some vec) g.tuEdges
  { g with
    edges := c.edges, edgeIndex := c.edgeIndex, outEdges := c.outEdges, inEdges := c.inEdges
    tuEdges }

/-! ### Queries

A query works on every usr its name resolves to. Stored edges come first; calls
through a virtual method or a returned function are expanded when they are asked
for.
-/

/-- The display name of a usr; a usr without a node is its own. -/
def displayFor (g : CallGraph) (usrId : SId) : Str :=
  match g.nodes.lookup usrId with
  | some node => node.qualifiedName
  | none => g.interner.resolve usrId

/-- The usr ids a name resolves to. -/
def resolveUsrIds (g : CallGraph) (name : Str) : List SId :=
  match g.interner.find name with
  | none => []
  | some id =>
    if (g.nodes.lookup id).isSome then [id]
    else
      match g.byName.lookup id with
      | some candidates => if candidates = [] then [id] else candidates
      | none => [id]

/-- The usrs a name resolves to, as strings. -/
def usrsForName (g : CallGraph) (name : Str) : List Str :=
  (g.resolveUsrIds name).map g.interner.resolve

/-- An edge as the queries show it. -/
def materialize (g : CallGraph) (r : EdgeRef) : CallGraphEdge :=
  { callerName := g.displayFor r.caller, calleeName := g.displayFor r.callee, kind := r.kind
    confidence := r.confidence, callSite := g.interner.resolve r.callSite
    indirectionDepth := r.indirectionDepth, execContext := r.execContext
    callerUsr := g.interner.resolve r.caller, calleeUsr := g.interner.resolve r.callee }

/-- What a relation leads to from an id, without the id itself. -/
def transitiveClosure (start : SId) (relation : UMap SId (List SId)) : List SId :=
  if (relation.lookup start).isNone then []
  else
    Closure.closure (relation.getD · []) ((relation.entries.flatMap (·.2)).length + 1) start

/-- The live stored edges at these positions. -/
def liveAt (g : CallGraph) (idxs : List Nat) : List StoredEdge :=
  (idxs.filterMap (g.edges[·]?)).filter (·.refs ≠ 0)

/-- A Plausible virtual dispatch, which queries expand through overrides. -/
def isDispatch (e : StoredEdge) : Bool :=
  e.kind == .virtualDispatch && e.confidence == .Plausible

/-- The kind of an edge synthesized from a function return. -/
def returnKind (execContext : ExecutionContext) : EdgeKind :=
  if execContext ≠ .synchronous then .threadEntry else .functionPointer

/-- The live edges out of a caller. -/
def liveFrom (g : CallGraph) (caller : SId) : List StoredEdge := g.liveAt (g.outEdges.getD caller [])

/-- The live edges into a callee. -/
def liveInto (g : CallGraph) (callee : SId) : List StoredEdge := g.liveAt (g.inEdges.getD callee [])

/-- What the dispatches out of a caller expand to, by target and call site. -/
def dispatchedFrom (g : CallGraph) (caller : SId) : List ((SId × SId) × EdgeRef) :=
  ((g.liveFrom caller).filter isDispatch).flatMap fun e =>
    (transitiveClosure e.callee g.methodOverrides).map fun ovId =>
      ((ovId, e.callSite), { e.toEdgeKey with callee := ovId })

/-- The functions that callees of a caller may return, as callees. -/
def returnedFrom (g : CallGraph) (caller : SId) : List ((SId × SId) × EdgeRef) :=
  ((g.liveFrom caller).filter (·.kind = .functionPointerReturn)).flatMap fun e =>
    (g.functionReturns.getD e.callee []).map fun retId =>
      ((retId, e.callSite), { e.toEdgeKey with callee := retId, kind := returnKind e.execContext })

/-- Which dispatches expand to a callee, by caller and call site. -/
def dispatchedTo (g : CallGraph) (callee : SId) : List ((SId × SId) × EdgeRef) :=
  (transitiveClosure callee g.overrideBases).flatMap fun baseId =>
    ((g.liveInto baseId).filter isDispatch).map fun e =>
      ((e.caller, e.callSite), { e.toEdgeKey with callee := callee })

/-- The callers of functions that may return this one. -/
def returnedTo (g : CallGraph) (callee : SId) : List ((SId × SId) × EdgeRef) :=
  (g.returnedBy.getD callee []).flatMap fun returner =>
    ((g.liveInto returner).filter (·.kind = .functionPointerReturn)).map fun e =>
      ((e.caller, e.callSite), { e.toEdgeKey with callee := callee, kind := returnKind e.execContext })

/-- Stored edges are shown but for function returns; of the expansions, the first at each
target and call site, unless a stored dispatch stands there. -/
def calleeRefsOf (g : CallGraph) (caller : SId) : List EdgeRef :=
  let live := g.liveFrom caller
  let shown := (live.filter (·.kind ≠ .functionPointerReturn)).map (·.toEdgeKey)
  let seen := (live.filter (·.kind = .virtualDispatch)).map fun e => (e.callee, e.callSite)
  (emitAll (emitAll (seen, shown) (g.dispatchedFrom caller)) (g.returnedFrom caller)).2

/-- The same, seen from the callee. -/
def callerRefsOf (g : CallGraph) (callee : SId) : List EdgeRef :=
  let live := (g.liveInto callee).filter (·.kind ≠ .functionPointerReturn)
  let shown := live.map (·.toEdgeKey)
  let seen := live.map fun e => (e.caller, e.callSite)
  (emitAll (emitAll (seen, shown) (g.dispatchedTo callee)) (g.returnedTo callee)).2

/-- The edges out of what the name resolves to, expanded. -/
def calleesOf (g : CallGraph) (name : Str) : List CallGraphEdge :=
  (g.resolveUsrIds name).flatMap fun usrId => (g.calleeRefsOf usrId).map g.materialize

/-- The edges into what the name resolves to, expanded. -/
def callersOf (g : CallGraph) (name : Str) : List CallGraphEdge :=
  (g.resolveUsrIds name).flatMap fun usrId => (g.callerRefsOf usrId).map g.materialize

def nodeCount (g : CallGraph) : Nat := g.nodes.entries.length

def edgeCount (g : CallGraph) : Nat := g.liveEdgeCount

/-- The better of two candidates. -/
def smaller (best : Option CallGraphNode) (node : CallGraphNode) : Option CallGraphNode :=
  match best with
  | none => some node
  | some b => if node.usr < b.usr then some node else some b

/-- Of several candidates, the one with the smallest usr. -/
def findNode (g : CallGraph) (qualifiedName : Str) : Option CallGraphNode :=
  ((g.resolveUsrIds qualifiedName).filterMap g.nodes.lookup).foldl smaller none

def getDerivedClasses (g : CallGraph) (baseClass : Str) : List Str :=
  match g.interner.find baseClass with
  | none => []
  | some id => (g.derivedClasses.getD id []).map g.interner.resolve

/-- The values a usr-keyed relation holds for a name's candidates, each id once. -/
def relatedTo (g : CallGraph) (relation : UMap SId (List SId)) (name : Str) : List SId :=
  (g.resolveUsrIds name).foldl
    (fun seen usrId => (relation.getD usrId []).foldl pushUnique seen) []

def getOverrides (g : CallGraph) (baseMethod : Str) : List Str :=
  (g.relatedTo g.methodOverrides baseMethod).map g.displayFor

def getClassesForImpl (g : CallGraph) (implMethod : Str) : List Str :=
  (g.relatedTo g.effectiveImplClasses implMethod).map g.interner.resolve

def getFunctionReturns (g : CallGraph) (funcName : Str) : List Str :=
  (g.relatedTo g.functionReturns funcName).map g.displayFor

end CallGraph

end Vycor
