/-
The tools that search paths from entry points: `find_call_chain`, `query_locks_held` and
`query_same_lock`.

Both searches run in id space.  A breadth-first search from the starts over callee edges
gives each node the fewest edges a start needs to it; a depth-first search from the target
over caller edges then keeps to nodes from which a start is still within the depth limit.
They differ in what ends a branch and in what may not come twice on a path: a function for
`find_call_chain`, a caller, callee and call site for the locks.

The tools start from what an identity resolved to, so a name is an interned string here.
A depth limit is the value a tool holds after it read its arguments.  Depths and counts are
unbounded; the source's are 32 and 64 bits wide.  `path.size()` of the lock search is the
depth plus one.
-/
import Vycor.Lib.PathSearch
import Vycor.Model.CallGraph
import Vycor.Model.ControlFlowIndex

namespace Vycor

open Dedup PathSearch

/-- The live edges stored into a usr. -/
def CallGraph.storedInDegree (g : CallGraph) (id : SId) : Nat := (g.liveInto id).length

/-! ### Edge filter -/

/-- The order of confidences. -/
def confidenceRank : Confidence → Nat
  | .Proven => 2
  | .Plausible => 1
  | .Unknown => 0
  | .unnamed _ _ => 0

/-- Which edges a search may use. -/
structure EdgeFilter where
  /-- None listed means all. -/
  kinds : List EdgeKind := []
  includeConfidences : List Confidence := []
  useIncludeSet : Bool := false
  minConf : Confidence := .Unknown
  /-- None listed means all. -/
  execContexts : List ExecutionContext := []

/-- The filter on a stored edge. -/
def EdgeFilter.allowsRef (filter : EdgeFilter) (e : EdgeRef) : Bool :=
  if filter.kinds ≠ [] ∧ e.kind ∉ filter.kinds then false
  else if filter.execContexts ≠ [] ∧ e.execContext ∉ filter.execContexts then false
  else if filter.useIncludeSet then e.confidence ∈ filter.includeConfidences
  else confidenceRank filter.minConf ≤ confidenceRank e.confidence

/-! ### Common to both searches -/

/-- The ids of the start names that are interned. -/
def startIds (g : CallGraph) (starts : List Str) : List SId :=
  (starts.filterMap g.interner.find).foldl setInsert []

/-- A node with more stored callers than this; 0 means no node is. -/
def isHub (g : CallGraph) (maxFanIn : Nat) (node : SId) : Bool :=
  0 < maxFanIn && maxFanIn < g.storedInDegree node

/-- A start is near enough to the node for the rest of the budget. -/
def inCorridor (dist : UMap SId Nat) (maxDepth spent : Nat) (node : SId) : Bool :=
  match dist.lookup node with
  | none => false
  | some d => d + spent ≤ maxDepth

/-! ### find_call_chain -/

/-- The limits of a call-chain search. -/
structure ChainLimits where
  maxPaths : Int := 10
  maxDepth : Nat := 20
  maxFanIn : Nat := 1000

/-- One call of a chain. -/
structure ChainHop where
  fromName : Str
  toName : Str
  kind : EdgeKind
  confidence : Confidence
  callSite : Str
  executionContext : ExecutionContext
deriving DecidableEq

/-- The chains found, and the hubs that were not entered. -/
structure CallChains where
  target : Str
  paths : List (List ChainHop)
  skippedHubs : List (Str × Nat)

/-- A hop as a chain shows it. -/
def chainHop (g : CallGraph) (edge : EdgeRef) : ChainHop :=
  { fromName := g.interner.resolve edge.caller, toName := g.interner.resolve edge.callee
    kind := edge.kind, confidence := edge.confidence
    callSite := g.interner.resolve edge.callSite, executionContext := edge.execContext }

/-- Where the filter lets a caller go. -/
def allowedCallees (g : CallGraph) (filter : EdgeFilter) (node : SId) : List SId :=
  ((g.calleeRefsOf node).filter filter.allowsRef).map (·.callee)

/-- The search for call chains as a path search: a function comes once on a path. -/
def chainProblem (g : CallGraph) (startSet : List SId) (minFromStart : UMap SId Nat)
    (limits : ChainLimits) (filter : EdgeFilter) : Problem SId EdgeRef SId where
  edges := g.callerRefsOf
  next := (·.caller)
  key := (·.caller)
  enter depth node deadAt :=
    if limits.maxDepth < depth then .stop
    else if deadAt.any (· ≤ depth) then .stop
    else if node ∈ startSet then .goal
    else if 0 < depth ∧ isHub g limits.maxFanIn node then .skip true
    else .expand
  take onPath depth edge :=
    if edge.caller ∈ onPath then .blocked
    else if !filter.allowsRef edge then .pass
    else if inCorridor minFromStart limits.maxDepth (depth + 1) edge.caller then .go
    else .pass
  maxPaths := limits.maxPaths.toNat

/-- The call chains from one of the starts to a function: `starts` is the resolved `from`,
or the entry points when there is none. -/
def findCallChain (g : CallGraph) (target : Str) (starts : List Str) (limits : ChainLimits := {})
    (filter : EdgeFilter := {}) : CallChains :=
  let startSet := startIds g starts
  let minFromStart := distances (allowedCallees g filter) limits.maxDepth startSet
  let problem := chainProblem g startSet minFromStart limits filter
  let st : State SId EdgeRef :=
    match g.interner.find target with
    | none => {}
    | some targetId =>
      if inCorridor minFromStart limits.maxDepth 0 targetId then
        (dfs problem (limits.maxDepth + 1) 0 targetId [targetId] [] {}).1
      else {}
  { target
    paths := st.found.map fun path => path.2.map (chainHop g)
    skippedHubs := (st.skipped.foldl setInsert []).map fun id =>
      (g.interner.resolve id, g.storedInDegree id) }

/-! ### Locks on the way from an entry point -/

/-- A lock on a path: what it is, and the call at which it is live. -/
structure LockOccurrence where
  typeName : Str
  varName : Str
  /-- The call site where it was in scope. -/
  heldAt : Str
deriving DecidableEq

/-- A path from an entry point with the locks on it. -/
structure PathResult where
  entryPoint : Str
  path : List Str
  locksHeld : List LockOccurrence
deriving DecidableEq

/-- The locks of one walk: its paths, the hubs it passed over, and whether it was cut. -/
structure LocksHeld where
  paths : List PathResult := []
  skippedHubs : UMap Str Nat := ∅
  truncated : Bool := false

def kMaxPaths : Nat := 512

def kDefaultMaxDepth : Nat := 20

def kDefaultMaxFanIn : Nat := 1000

/-- Add the locks live at a call site that are not there by type and variable. -/
def collectLocksOnEdge (cf : ControlFlowIndex) (out : List LockOccurrence) (callSite : Str) :
    List LockOccurrence :=
  match cf.contextAtSite callSite with
  | none => out
  | some cs =>
    (cs.liveRaiiLocals.filter (·.kind = .lock)).foldl
      (fun out l =>
        if out.any fun o => o.typeName = l.typeName ∧ o.varName = l.varName then out
        else out ++ [{ typeName := l.typeName, varName := l.varName, heldAt := callSite }])
      out

/-- Called through a pointer: such a caller has no identity of its own. -/
def indirectName : Str := str "<indirect>"

/-- `EdgeVisitKey`. -/
abbrev EdgeVisitKey := SId × SId × SId

/-- The search for locks as a path search: a call of a function at a site comes once on a
path. -/
def lockProblem (g : CallGraph) (entrySet : List SId) (minFromEntry : UMap SId Nat)
    (maxDepth maxFanIn : Nat) : Problem SId EdgeRef EdgeVisitKey where
  edges := g.callerRefsOf
  next := (·.caller)
  key edge := (edge.caller, edge.callee, edge.callSite)
  enter depth node deadAt :=
    if node ∈ entrySet then .goal
    else if maxDepth ≤ depth + 1 then .stop
    else if deadAt.any (· ≤ depth) then .stop
    else if 0 < depth ∧ isHub g maxFanIn node then .skip false
    else .expand
  take visitedEdges depth edge :=
    if g.interner.find indirectName = some edge.caller then .pass
    else if !inCorridor minFromEntry maxDepth (depth + 2) edge.caller then .pass
    else if (edge.caller, edge.callee, edge.callSite) ∈ visitedEdges then .blocked
    else .go
  maxPaths := kMaxPaths

/-- A path as found: the edges lead from the entry to the target, and the locks are
collected from the target up. -/
def lockPath (g : CallGraph) (cf : ControlFlowIndex) (targetId : SId)
    (found : SId × List EdgeRef) : PathResult :=
  { entryPoint := g.interner.resolve found.1
    path := (found.2.map fun edge => g.interner.resolve edge.caller) ++ [g.interner.resolve targetId]
    locksHeld := (found.2.reverse.map fun edge => g.interner.resolve edge.callSite).foldl
      (collectLocksOnEdge cf) [] }

/-- The paths from the entry points to a function, with their locks. -/
def collectLocksHeld (g : CallGraph) (cf : ControlFlowIndex) (target : Str)
    (entryPoints : List Str) (maxDepth : Nat := kDefaultMaxDepth)
    (maxFanIn : Nat := kDefaultMaxFanIn) : LocksHeld :=
  match g.interner.find target with
  | none => {}
  | some targetId =>
    let entrySet := startIds g entryPoints
    let minFromEntry :=
      distances (fun node => (g.calleeRefsOf node).map (·.callee)) (maxDepth - 1) entrySet
    if inCorridor minFromEntry maxDepth 1 targetId then
      let problem := lockProblem g entrySet minFromEntry maxDepth maxFanIn
      let st := (dfs problem (maxDepth + 1) 0 targetId [] [] {}).1
      { paths := st.found.map (lockPath g cf targetId)
        skippedHubs := st.skipped.foldl
          (fun m id => m.insert (g.interner.resolve id) (g.storedInDegree id)) ∅
        truncated := kMaxPaths ≤ st.found.length }
    else {}

/-- `configured` are the entry points of the session, used when the call names none. -/
def queryLocksHeld (g : CallGraph) (cf : ControlFlowIndex) (function : Str)
    (entryPoints configured : List Str) (maxDepth : Int := kDefaultMaxDepth)
    (maxFanIn : Nat := kDefaultMaxFanIn) : LocksHeld :=
  collectLocksHeld g cf function (if entryPoints = [] then configured else entryPoints)
    (max 1 maxDepth).toNat maxFanIn

/-- A lock that both functions have on some path, with these paths. -/
structure SharedLock where
  typeName : Str
  varName : Str
  pathsA : List PathResult
  pathsB : List PathResult

/-- The locks two functions share, with the walk of each. -/
structure SameLock where
  walkA : LocksHeld
  walkB : LocksHeld
  sharedLocks : List SharedLock
  aOnly : Nat
  bOnly : Nat
  truncated : Bool
  skippedHubs : UMap Str Nat

/-- The locks of a walk by type and variable, each once. -/
def lockKeys (walk : LocksHeld) : List (Str × Str) :=
  (walk.paths.flatMap fun p => p.locksHeld.map fun l => (l.typeName, l.varName)).foldl pushUnique []

/-- The paths of a walk that hold a lock. -/
def pathsWith (walk : LocksHeld) (key : Str × Str) : List PathResult :=
  walk.paths.filter fun p => p.locksHeld.any fun l => (l.typeName, l.varName) = key

/-- A lock is shared when it is on some path of each. -/
def querySameLock (g : CallGraph) (cf : ControlFlowIndex) (fnA fnB : Str)
    (entryPoints configured : List Str) (maxDepth : Int := kDefaultMaxDepth)
    (maxFanIn : Nat := kDefaultMaxFanIn) : SameLock :=
  let walkA := queryLocksHeld g cf fnA entryPoints configured maxDepth maxFanIn
  let walkB := queryLocksHeld g cf fnB entryPoints configured maxDepth maxFanIn
  let shared := (lockKeys walkA).filter (· ∈ lockKeys walkB)
  { walkA, walkB
    sharedLocks := shared.map fun key =>
      { typeName := key.1, varName := key.2
        pathsA := pathsWith walkA key, pathsB := pathsWith walkB key }
    aOnly := (lockKeys walkA).length - shared.length
    bOnly := (lockKeys walkB).length - shared.length
    truncated := walkA.truncated || walkB.truncated
    skippedHubs := walkA.skippedHubs ∪ walkB.skippedHubs }

end Vycor
