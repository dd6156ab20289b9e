/-
Static initializers that reach a hazard.

The search goes breadth first through the callees of a name in the call graph.  It asks whether a
name is a hazard when it first meets it, and stops there, so a later name of the same list is not
met any more.  The empty name says that nothing was hit.
-/
import Vycor.Model.CallGraph
import Vycor.Model.IndexChecks

namespace Vycor

namespace StaticInitHazards

open GlobalIndex (toStr)

/-- The names that are hazards by themselves. -/
def builtinHazards : List Str :=
  [str "dlopen", str "dlsym", str "dlclose", str "dladdr", str "pthread_create",
    str "pthread_join", str "std::thread::thread", str "std::thread::join", str "std::async",
    str "std::call_once"]

/-- With the names that extensions and the organization's configuration add. -/
def hazards (added : List Str) : List Str := added.foldl Dedup.pushUnique builtinHazards

def kMaxDepth : Nat := 25

/-- The search starts at what is initialized dynamically. -/
def isRoot (e : StaticInitEntry) : Bool :=
  e.dynamicInit && (e.isConstructorFn || e.calledFunctions ≠ [])

/-- What a root's initializer calls. -/
def seeds (root : StaticInitEntry) : List Str :=
  if root.isConstructorFn then [root.qualifiedName] else root.calledFunctions

/-- A search with the first hazard it came to. -/
structure HazardSearch extends CallSearch where
  hit : Str := []

/-- Meet names from a caller, up to a hazard. -/
def meetAll (hazards : List Str) (caller : Str) (depth : Nat) :
    List Str → HazardSearch → HazardSearch
  | [], s => s
  | name :: rest, s =>
    if (s.parent.lookup name).isSome then meetAll hazards caller depth rest s
    else
      let s := { s with parent := s.parent.insert name caller }
      if name ∈ hazards then { s with hit := name }
      else meetAll hazards caller depth rest { s with queue := s.queue ++ [(name, depth)] }

/-- Work off the queue until there is a hit. -/
def followCallees (hazards : List Str) (graph : CallGraph) : Nat → HazardSearch → HazardSearch
  | 0, s => s
  | fuel + 1, s =>
    if s.hit ≠ [] then s
    else
      match s.queue with
      | [] => s
      | (name, depth) :: rest =>
        let s := { s with queue := rest }
        if kMaxDepth ≤ depth then followCallees hazards graph fuel s
        else
          followCallees hazards graph fuel
            (meetAll hazards name (depth + 1) ((graph.calleesOf name).map (·.calleeName)) s)

/-- A name is queued once, and it is a seed or the name of a callee. -/
def followFuel (graph : CallGraph) (root : StaticInitEntry) : Nat :=
  (seeds root).length + graph.interner.size + graph.nodeCount + 1

/-- The report of an initializer that comes to a hazard. -/
def hazardDiagnostic (root : StaticInitEntry) (hit chain : Str) : Diagnostic :=
  let site := formatSite (root.filePath, root.line)
  flagged .staticInitHazard site
    (str "Static-init hazard: "
      ++ (if root.isConstructorFn then str "constructor function '"
          else str "the dynamic initializer of '")
      ++ root.qualifiedName ++ str "' (" ++ site ++ str ") reaches '" ++ hit ++ str "' (" ++ chain
      ++ str "). Static initializers run under the dynamic linker's global lock "
      ++ str "when this library is loaded via dlopen/System.loadLibrary; "
      ++ str "re-entering the loader or creating-and-waiting-on threads there "
      ++ str "can deadlock, and whether it fires depends on link order. Defer "
      ++ str "this work to an explicit init call or a function-local static.")

/-- The search from a root. -/
def search (hazards : List Str) (graph : CallGraph) (root : StaticInitEntry) : HazardSearch :=
  followCallees hazards graph (followFuel graph root) (meetAll hazards [] 0 (seeds root) {})

/-- One report for a root at most. -/
def hazardsOf (hazards : List Str) (graph : CallGraph) (root : StaticInitEntry) :
    List Diagnostic :=
  let s := search hazards graph root
  if s.hit = [] then [] else [hazardDiagnostic root s.hit (s.chain s.hit)]

/-- Every dynamic initializer, from each of its calls. -/
def analyzeStaticInitHazards (index : GlobalIndex) (graph : CallGraph) (added : List Str) :
    List Diagnostic :=
  (sortByTie staticInitTie (index.staticInits.filter isRoot)).flatMap
    (hazardsOf (hazards added) graph)

end StaticInitHazards

end Vycor
