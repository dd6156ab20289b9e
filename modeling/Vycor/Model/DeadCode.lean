/-
Dead-code analysis: reachability from the entry points, twice.

The pessimistic walk follows Proven edges.  The optimistic one follows the others too, but a
virtual dispatch only when a class of its target has been constructed on the way; a dispatch
that is not followed is put off and looked at again after a round that constructed a class.
The walk goes by usr; the results are by display name, the most alive overload first.

A walk takes fuel: a usr is queued once, and a round that does not end the walk has
constructed a class that was not constructed before.
-/
import Vycor.Model.CallGraph

namespace Vycor

/-- What is said of a function. -/
inductive Liveness
  | alive
  | optimisticallyAlive
  | dead
deriving DecidableEq

/-- The nodes, in the order of the map. -/
def CallGraph.allNodes (g : CallGraph) : List CallGraphNode := g.nodes.entries.map (·.2)

namespace DeadCodeAnalyzer

/-- The functions met and still to look at, the classes known to be constructed, and the
dispatches put off. -/
structure Walk where
  alive : List Str := []
  queue : List Str := []
  constructedClasses : List Str := []
  deferredVirtualEdges : List Str := []
  changed : Bool := false

/-- A usr is queued once. -/
def enqueue (w : Walk) (usr : Str) : Walk :=
  if usr ∈ w.alive then w
  else { w with alive := w.alive ++ [usr], queue := w.queue ++ [usr] }

/-- A name seeds every usr it resolves to. -/
def seed (graph : CallGraph) (w : Walk) (name : Str) : Walk :=
  (graph.usrsForName name).foldl enqueue w

/-- A class that has the target as its implementation is constructed, or the target's own. -/
def isConstructed (graph : CallGraph) (w : Walk) (calleeUsr : Str) : Bool :=
  (graph.getClassesForImpl calleeUsr).any (· ∈ w.constructedClasses) ||
    match graph.findNode calleeUsr with
    | some node => node.enclosingClass ≠ [] && node.enclosingClass ∈ w.constructedClasses
    | none => false

/-- The pessimistic walk follows proven edges alone; the optimistic one follows a virtual
call only to what is constructed. -/
def shouldFollowEdge (graph : CallGraph) (includeVirtualPlausible : Bool) (w : Walk)
    (edge : CallGraphEdge) : Bool :=
  if edge.confidence = .Proven then true
  else if !includeVirtualPlausible then false
  else if edge.kind = .functionPointer then true
  else if edge.kind = .virtualDispatch then isConstructed graph w edge.calleeUsr
  else true

/-- A constructor call constructs the class of its target. -/
def noteConstructed (graph : CallGraph) (w : Walk) (edge : CallGraphEdge) : Walk :=
  if edge.kind = .constructorCall then
    match graph.findNode edge.calleeUsr with
    | some node =>
      if node.enclosingClass ≠ [] ∧ node.enclosingClass ∉ w.constructedClasses then
        { w with
          constructedClasses := w.constructedClasses ++ [node.enclosingClass], changed := true }
      else w
    | none => w
  else w

/-- Follow an edge or put it off. -/
def visitEdge (graph : CallGraph) (includeVirtualPlausible : Bool) (w : Walk)
    (edge : CallGraphEdge) : Walk :=
  let w := noteConstructed graph w edge
  if shouldFollowEdge graph includeVirtualPlausible w edge then enqueue w edge.calleeUsr
  else if includeVirtualPlausible && edge.kind = .virtualDispatch
      && edge.confidence = .Plausible then
    { w with deferredVirtualEdges := w.deferredVirtualEdges ++ [edge.calleeUsr] }
  else w

/-- Work off the queue. -/
def drain (graph : CallGraph) (includeVirtualPlausible : Bool) : Nat → Walk → Walk
  | 0, w => w
  | fuel + 1, w =>
    match w.queue with
    | [] => w
    | current :: rest =>
      drain graph includeVirtualPlausible fuel
        ((graph.calleesOf current).foldl (visitEdge graph includeVirtualPlausible)
          { w with queue := rest })

/-- Look again at a dispatch that was put off. -/
def recheck (graph : CallGraph) (w : Walk) (calleeUsr : Str) : Walk :=
  if isConstructed graph w calleeUsr then enqueue w calleeUsr
  else { w with deferredVirtualEdges := w.deferredVirtualEdges ++ [calleeUsr] }

/-- Look again at what was put off until nothing new comes of it. -/
def rounds (graph : CallGraph) (includeVirtualPlausible : Bool) : Nat → Walk → Walk
  | 0, w => w
  | fuel + 1, w =>
    let w := drain graph includeVirtualPlausible (graph.interner.size + 2)
      { w with changed := false }
    if !w.changed then w
    else if includeVirtualPlausible then
      rounds graph includeVirtualPlausible fuel
        (w.deferredVirtualEdges.foldl (recheck graph) { w with deferredVirtualEdges := [] })
    else rounds graph includeVirtualPlausible fuel w

/-- The usrs a walk reaches from the names. -/
def bfs (graph : CallGraph) (entryPoints : List Str) (includeVirtualPlausible : Bool) :
    List Str :=
  (rounds graph includeVirtualPlausible (graph.nodeCount + 2)
    (entryPoints.foldl (seed graph) {})).alive

/-- `publicApi_` is a set: its names in order, each once. -/
def publicApiSet (publicApi : List Str) : List Str :=
  (publicApi.foldl Dedup.pushUnique []).mergeSort fun a b => !decide (b < a)

/-- The names a walk is seeded with. -/
def seedNames (entryPoints publicApi : List Str) : List Str := entryPoints ++ publicApiSet publicApi

/-- What proven edges reach. -/
def analyzePessimistic (graph : CallGraph) (entryPoints publicApi : List Str) : List Str :=
  bfs graph (seedNames entryPoints publicApi) false

/-- What may be reached, virtual calls leading to constructed classes. -/
def analyzeOptimistic (graph : CallGraph) (entryPoints publicApi : List Str) : List Str :=
  bfs graph (seedNames entryPoints publicApi) true

def rank : Liveness → Nat
  | .alive => 2
  | .optimisticallyAlive => 1
  | .dead => 0

/-- Alive in both walks, in the optimistic one alone, or in neither. -/
def livenessOf (pessimisticAlive optimisticAlive : List Str) (usr : Str) : Liveness :=
  if usr ∈ pessimisticAlive then .alive
  else if usr ∈ optimisticAlive then .optimisticallyAlive
  else .dead

/-- The verdict on a display name only rises. -/
def record (results : UMap Str Liveness) (name : Str) (liveness : Liveness) :
    UMap Str Liveness :=
  match results.lookup name with
  | none => results.insert name liveness
  | some old => if rank old < rank liveness then results.insert name liveness else results

/-- The verdict on each display name, the best of its functions. -/
def getResults (graph : CallGraph) (pessimisticAlive optimisticAlive : List Str) :
    UMap Str Liveness :=
  graph.allNodes.foldl
    (fun results node =>
      record results node.qualifiedName (livenessOf pessimisticAlive optimisticAlive node.usr)) ∅

/-- Both analyses, or the pessimistic one alone. -/
def analyze (graph : CallGraph) (entryPoints : List Str) (includeOptimistic : Bool) :
    UMap Str Liveness :=
  getResults graph (bfs graph entryPoints false)
    (if includeOptimistic then bfs graph entryPoints true else [])

end DeadCodeAnalyzer

end Vycor
