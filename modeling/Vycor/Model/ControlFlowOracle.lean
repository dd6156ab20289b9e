/-
The exception queries.

`findPathsToTarget` walks callers backwards from a function, depth first and never twice
through one function of the current path, until it meets an entry point; it stops for good
once it has `maxPaths` paths.  A path is a list of display names.
`queryExceptionProtection` then asks, for each path and each hop, whether the call site
lies in a try scope that catches the exception.  The site it takes for a hop is the first
one recorded for that caller and callee name.  `queryNearestCatches` walks callers on its own,
each function once, and stops at the first try scope on the way.

The recursion of the walk takes fuel from the number of names the graph can answer with: no
name is on a path twice, and all but the target's come out of the graph.
-/
import Mathlib.Data.List.DropRight
import Vycor.Model.CallGraph
import Vycor.Model.ControlFlowIndex

namespace Vycor

/-! ### Exception types

The hierarchy of the standard exceptions is a table of names; nothing is known
of other types but their own name.
-/

/-- Derived exception types and their known bases. -/
def stdExceptionHierarchy : List (Str × Str) :=
  [(str "std::bad_alloc", str "std::exception"),
    (str "std::bad_cast", str "std::exception"),
    (str "std::bad_typeid", str "std::exception"),
    (str "std::bad_function_call", str "std::exception"),
    (str "std::bad_weak_ptr", str "std::exception"),
    (str "std::bad_array_new_length", str "std::bad_alloc"),
    (str "std::logic_error", str "std::exception"),
    (str "std::runtime_error", str "std::exception"),
    (str "std::domain_error", str "std::logic_error"),
    (str "std::invalid_argument", str "std::logic_error"),
    (str "std::length_error", str "std::logic_error"),
    (str "std::out_of_range", str "std::logic_error"),
    (str "std::overflow_error", str "std::runtime_error"),
    (str "std::underflow_error", str "std::runtime_error"),
    (str "std::range_error", str "std::runtime_error"),
    (str "std::system_error", str "std::runtime_error"),
    (str "std::ios_base::failure", str "std::system_error"),
    (str "std::filesystem::filesystem_error", str "std::system_error")]

/-- Strip reference and const qualifiers for matching. -/
def stripType (t : Str) : Str :=
  let s := t.rdropWhile (· == 38)
  let s := if (str "const ").isPrefixOf s then s.drop 6 else s
  s.rdropWhile (· == 32)

/-- Walk up from a type to a base with this name; `visited` ends a cycle. -/
def walkHierarchy (caught : Str) : Nat → List Str → Str → Bool
  | 0, _, _ => false
  | fuel + 1, visited, current =>
    match stdExceptionHierarchy.find? (·.1 = current) with
    | none => false
    | some (_, base) =>
      if base = caught then true
      else if base ∈ current :: visited then false
      else walkHierarchy caught fuel (current :: visited) base

/-- Whether the thrown type is the caught one or has it as a known base. -/
def isSubtypeOf (thrownType caughtType : Str) : Bool :=
  if thrownType = caughtType then true
  else
    let thrown := stripType thrownType
    let caught := stripType caughtType
    if thrown = caught then true
    else walkHierarchy caught (stdExceptionHierarchy.length + 1) [] thrown

namespace ControlFlowOracle

/-- Whether a handler takes the exception. -/
def handles (exceptionType : Str) (handler : CatchHandlerInfo) : Bool :=
  handler.isCatchAll || isSubtypeOf exceptionType handler.caughtType

/-- Some handler of the scope takes the exception. -/
def isCaughtByScope (exceptionType : Str) (scope : TryCatchScope) : Bool :=
  scope.handlers.any (handles exceptionType)

/-! ### Paths -/

/-- The callers of a node in turn: skip what is on the path, and stop once there are
enough paths. -/
def walkCallers (dfs : Str → List (List Str) → List (List Str)) (path : List Str)
    (maxPaths : Nat) : List CallGraphEdge → List (List Str) → List (List Str)
  | [], outPaths => outPaths
  | edge :: rest, outPaths =>
    if edge.callerName ∈ path then walkCallers dfs path maxPaths rest outPaths
    else
      let outPaths := dfs edge.callerName outPaths
      if maxPaths ≤ outPaths.length then outPaths else walkCallers dfs path maxPaths rest outPaths

/-- Extend the path, kept with its newest function first, backwards to an entry point. -/
def dfs (graph : CallGraph) (entries : List Str) (maxPaths : Nat) :
    Nat → List Str → Str → List (List Str) → List (List Str)
  | 0, _, _, outPaths => outPaths
  | fuel + 1, currentPath, node, outPaths =>
    if maxPaths ≤ outPaths.length then outPaths
    else
      let currentPath := node :: currentPath
      if node ∈ entries then outPaths ++ [currentPath]
      else
        walkCallers (dfs graph entries maxPaths fuel currentPath) currentPath maxPaths
          (graph.callersOf node) outPaths

/-- The simple paths from an entry point to the target, up to a number. -/
def findPathsToTarget (graph : CallGraph) (target : Str) (entryPoints : List Str)
    (maxPaths : Nat) : List (List Str) :=
  dfs graph entryPoints maxPaths (graph.interner.size + graph.nodeCount + 3) [] target []

/-! ### Exception protection

For each path from an entry point the try scopes of its hops, from the entry on,
and the first of them that catches. The verdict is over at most a hundred paths.
-/

/-- The verdict over the paths. -/
inductive Protection
  | alwaysCaught
  | sometimesCaught
  | neverCaught
  | noexceptBarrier
  | unknown
deriving DecidableEq

/-- One path with what was met along it. -/
structure PathInfo where
  /-- Entry first, target last. -/
  callChain : List Str
  tryCatchesOnPath : List TryCatchScope := []
  guardsOnPath : List ConditionalGuard := []
  isCaught : Bool := false
  caughtAt : Str := []
  caughtBy : Str := []

/-- The answer of an exception query. -/
structure ExceptionPathResult where
  protection : Protection := .unknown
  paths : List PathInfo := []
  summary : Str := []

/-- Add a scope; the first one that catches the exception is the one reported. -/
def PathInfo.enter (exceptionType : Str) (pi : PathInfo) (scope : TryCatchScope) : PathInfo :=
  let pi := { pi with tryCatchesOnPath := pi.tryCatchesOnPath ++ [scope] }
  if !pi.isCaught && isCaughtByScope exceptionType scope then
    { pi with
      isCaught := true
      caughtAt := scope.tryLocation
      caughtBy := match scope.handlers.find? (handles exceptionType) with
        | some h => if h.isCatchAll then str "..." else h.caughtType
        | none => pi.caughtBy }
  else pi

/-- The first context recorded for a hop. -/
def hopContext (cfIndex : ControlFlowIndex) (caller callee : Str) : Option CallSiteContext :=
  (cfIndex.contextsForCaller caller).find? (·.calleeName = callee)

/-- Collect the scopes and guards of one hop.  A noexcept caller changes nothing here. -/
def walkHop (cfIndex : ControlFlowIndex) (exceptionType : Str) (pi : PathInfo)
    (hop : Str × Str) : PathInfo :=
  match hopContext cfIndex hop.1 hop.2 with
  | none => pi
  | some ctx =>
    let pi := ctx.enclosingTryCatches.foldl (PathInfo.enter exceptionType) pi
    { pi with guardsOnPath := pi.guardsOnPath ++ ctx.enclosingGuards }

/-- The hops of a chain, from the entry on. -/
def hops (chain : List Str) : List (Str × Str) := chain.zip (chain.drop 1)

/-- Walk the hops of a chain. -/
def pathInfo (cfIndex : ControlFlowIndex) (exceptionType : Str) (chain : List Str) : PathInfo :=
  (hops chain).foldl (walkHop cfIndex exceptionType) { callChain := chain }

def decimal (n : Nat) : Str := str (toString n)

def buildSummary (result : ExceptionPathResult) (functionName exceptionType : Str) : Str :=
  let subject := functionName ++ str " throwing " ++ exceptionType
  let total := decimal result.paths.length
  match result.protection with
  | .alwaysCaught =>
    subject ++ str " is caught on all " ++ total ++ str " path(s) from entry points."
      ++ match result.paths with
        | p :: _ =>
          if p.caughtBy = [] then []
          else str " Caught by " ++ p.caughtBy ++ str " at " ++ p.caughtAt ++ str "."
        | [] => []
  | .neverCaught =>
    subject ++ str " is NOT caught on any of the " ++ total ++ str " path(s) from entry points."
  | .sometimesCaught =>
    subject ++ str " is caught on " ++ decimal (result.paths.countP (·.isCaught)) ++ str " of "
      ++ total ++ str " path(s)."
      ++ match result.paths.find? (!·.isCaught) with
        | some p => str " Uncaught path: " ++ (str " -> ").intercalate p.callChain ++ str "."
        | none => []
  | .noexceptBarrier =>
    functionName ++ str " is called through a noexcept function, "
      ++ str "which would cause std::terminate rather than propagation."
  | .unknown => str "No call paths found from entry points to " ++ functionName ++ str "."

/-- The verdict on a non-empty list of paths. -/
def verdict (paths : List PathInfo) : Protection :=
  if paths.countP (!·.isCaught) = 0 then .alwaysCaught
  else if paths.countP (·.isCaught) = 0 then .neverCaught
  else .sometimesCaught

def queryExceptionProtection (graph : CallGraph) (cfIndex : ControlFlowIndex)
    (functionName exceptionType : Str) (entryPoints : List Str) : ExceptionPathResult :=
  let rawPaths := findPathsToTarget graph functionName entryPoints 100
  let result : ExceptionPathResult :=
    if rawPaths = [] then { protection := .unknown }
    else
      let paths := rawPaths.map (pathInfo cfIndex exceptionType)
      { protection := verdict paths, paths }
  { result with summary := buildSummary result functionName exceptionType }

/-- The same query under another name. -/
def queryThrowPropagation (graph : CallGraph) (cfIndex : ControlFlowIndex)
    (throwingFunction thrownType : Str) (entryPoints : List Str) : ExceptionPathResult :=
  queryExceptionProtection graph cfIndex throwingFunction thrownType entryPoints

/-! ### Path contexts -/

/-- Collect the scopes and guards of one hop, whatever they catch. -/
def collectHop (cfIndex : ControlFlowIndex) (pi : PathInfo) (hop : Str × Str) : PathInfo :=
  match hopContext cfIndex hop.1 hop.2 with
  | none => pi
  | some ctx =>
    { pi with
      tryCatchesOnPath := pi.tryCatchesOnPath ++ ctx.enclosingTryCatches
      guardsOnPath := pi.guardsOnPath ++ ctx.enclosingGuards }

/-- The paths with all their scopes and guards, whatever is caught. -/
def queryAllPathContexts (graph : CallGraph) (cfIndex : ControlFlowIndex) (functionName : Str)
    (entryPoints : List Str) (maxPaths : Nat) : List PathInfo :=
  (findPathsToTarget graph functionName entryPoints maxPaths).map fun chain =>
    (hops chain).foldl (collectHop cfIndex) { callChain := chain }

/-! ### Nearest catches

A walk up the callers that ends where a call stands in a try. What is called a
queue is taken from its back.
-/

/-- A function that catches around a call towards the target. -/
structure NearestCatchInfo where
  framesFromTarget : Nat
  /-- From the caller with the scope down to the target. -/
  pathSegment : List Str
  /-- The innermost scope around the call. -/
  scope : TryCatchScope

/-- A function on the way up, how it was come to and how many calls it is from the target.
-/
structure SearchState where
  func : Str
  pathSoFar : List Str
  depth : Nat

/-- The states still to look at, the last pushed first, the functions seen and the catches. -/
structure CatchSearch where
  queue : List SearchState
  visited : List Str
  result : List NearestCatchInfo := []

/-- A caller that catches is reported and the walk ends there, without marking it seen. -/
def searchCaller (cfIndex : ControlFlowIndex) (state : SearchState) (search : CatchSearch)
    (edge : CallGraphEdge) : CatchSearch :=
  if edge.callerName ∈ search.visited then search
  else
    match (hopContext cfIndex edge.callerName state.func).bind (·.enclosingTryCatches.head?) with
    | some scope =>
      { search with
        result := search.result ++
          [{ framesFromTarget := state.depth + 1
             pathSegment := edge.callerName :: state.pathSoFar, scope }] }
    | none =>
      { search with
        visited := edge.callerName :: search.visited
        queue :=
          { func := edge.callerName, pathSoFar := edge.callerName :: state.pathSoFar
            depth := state.depth + 1 } :: search.queue }

/-- The loop: one function at a time, until nothing is left to look at. -/
def searchCatches (graph : CallGraph) (cfIndex : ControlFlowIndex) :
    Nat → CatchSearch → CatchSearch
  | 0, search => search
  | fuel + 1, search =>
    match search.queue with
    | [] => search
    | state :: rest =>
      let search := { search with queue := rest }
      searchCatches graph cfIndex fuel
        (if 20 < state.depth then search
          else (graph.callersOf state.func).foldl (searchCaller cfIndex state) search)

/-- A name is pushed once, so the walk ends before its fuel does. -/
def queryNearestCatches (graph : CallGraph) (cfIndex : ControlFlowIndex) (functionName : Str) :
    List NearestCatchInfo :=
  (searchCatches graph cfIndex (graph.interner.size + graph.nodeCount + 3)
    { queue := [{ func := functionName, pathSoFar := [functionName], depth := 0 }]
      visited := [functionName] }).result

end ControlFlowOracle

end Vycor
