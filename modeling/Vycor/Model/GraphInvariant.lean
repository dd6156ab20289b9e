/-
The invariant of a call graph, and what the graph stands for.

`WF` collects what every mutator keeps: ids are in range and mean what they say, the edge
table is in step with itself, no edge has more registrations by TUs than it has in all,
and each reverse map is the reverse of its map.  `spec` reads the abstract graph off the
maps: a string is looked up at its id, and a string that was never interned gets an id
past every key, so it reads as absent without a case of its own.
-/
import Vycor.Model.GraphSpec

namespace Vycor

namespace CallGraph

/-- The stored map of a relation. -/
def relation (g : CallGraph) : Relation → UMap SId (List SId)
  | .derivedClass => g.derivedClasses
  | .methodOverride => g.methodOverrides
  | .effectiveImpl => g.effectiveImplClasses
  | .functionReturn => g.functionReturns

/-! ### Live edges

`edges`, `edgeIndex`, the two adjacency maps and the live count describe one set of live
edges.  `EdgesOK` says how, in terms of one notion, an edge that is live at a position. -/

/-- The record at position `i` has key `k` and is not a tombstone. -/
def LiveAt (edges : List StoredEdge) (i : Nat) (k : EdgeKey SId) : Prop :=
  ∃ e, edges[i]? = some e ∧ e.toEdgeKey = k ∧ 0 < e.refs

/-- The index holds exactly the keys of live edges, each with the edge's position. -/
def Indexed (edges : List StoredEdge) (index : UMap (EdgeKey SId) Nat) : Prop :=
  ∀ k i, index.lookup k = some i ↔ LiveAt edges i k

/-- `side` is the end an adjacency map files edges under.  It lists each live edge with that
end once, and no other edge. -/
def Adjacent (side : EdgeKey SId → SId) (edges : List StoredEdge) (adj : UMap SId (List Nat)) :
    Prop :=
  ∀ c, (adj.getD c []).Nodup ∧
    ∀ i, i ∈ adj.getD c [] ↔ ∃ k, LiveAt edges i k ∧ side k = c

/-- The number of live records. -/
def liveCount (edges : List StoredEdge) : Nat := edges.countP fun e => 0 < e.refs

/-- The edge table is in step with itself. -/
structure EdgesOK (edges : List StoredEdge) (index : UMap (EdgeKey SId) Nat)
    (out inn : UMap SId (List Nat)) (live : Nat) : Prop where
  indexed : Indexed edges index
  out : Adjacent EdgeKey.caller edges out
  inn : Adjacent EdgeKey.callee edges inn
  count : live = liveCount edges

/-- The registrations of a position; none past the end. -/
def refsAt (edges : List StoredEdge) (i : Nat) : Nat := (edges[i]?.map (·.refs)).getD 0

/-! ### The invariant -/

/-- All three ids of a key are below `n`. -/
def KeyBelow (n : Nat) (k : EdgeKey SId) : Prop := k.caller < n ∧ k.callee < n ∧ k.callSite < n

/-- Every id in the maps is an interned one, and a node's id is its usr's. -/
structure IdsOK (g : CallGraph) : Prop where
  nodup : g.interner.strings.Nodup
  node : ∀ i n, g.nodes.lookup i = some n →
    i < g.interner.size ∧ g.interner.resolve i = n.usr ∧ n.qualifiedName ∈ g.interner.strings
  edge : ∀ i k, LiveAt g.edges i k → KeyBelow g.interner.size k
  contributor : ∀ i t, t ∈ g.nodeContributors.getD i [] → i < g.interner.size ∧ t < g.interner.size
  tuEdge : ∀ t l, g.tuEdges.lookup t = some l → t < g.interner.size
  related : ∀ r i j, j ∈ (g.relation r).getD i [] → i < g.interner.size ∧ j < g.interner.size

/-- `byName` lists exactly the registered nodes of each display name, each once. -/
def NodesOK (t : StringInterner) (nodes : UMap SId CallGraphNode) (byName : UMap SId (List SId)) :
    Prop :=
  ∀ d, (byName.getD d []).Nodup ∧
    ∀ i, i ∈ byName.getD d [] ↔ ∃ n, nodes.lookup i = some n ∧ t.idOf n.qualifiedName = d

/-- `rev` is `fwd` backwards, each pair once. -/
def ReverseOf (fwd rev : UMap SId (List SId)) : Prop :=
  ∀ y, (rev.getD y []).Nodup ∧ ∀ x, x ∈ rev.getD y [] ↔ y ∈ fwd.getD x []

/-- TUs have registered an edge no more often than it was registered. -/
def ProvOK (edges : List StoredEdge) (tuEdges : UMap SId (List Nat)) : Prop :=
  ∀ i, UMap.total (List.count i) tuEdges ≤ refsAt edges i

/-- What every mutator keeps. -/
structure WF (g : CallGraph) : Prop where
  ids : IdsOK g
  edges : EdgesOK g.edges g.edgeIndex g.outEdges g.inEdges g.liveEdgeCount
  prov : ProvOK g.edges g.tuEdges
  nodes : NodesOK g.interner g.nodes g.byName
  contributed : ∀ i t, t ∈ g.nodeContributors.getD i [] → (g.nodes.lookup i).isSome
  tuNodes : ReverseOf g.nodeContributors g.tuNodes
  overrideBases : ReverseOf g.methodOverrides g.overrideBases
  returnedBy : ReverseOf g.functionReturns g.returnedBy

/-! ### What a graph stands for -/

/-- A property of the position of a key, zero when the key is not stored. -/
def atKey (index : UMap (EdgeKey SId) Nat) (k : EdgeKey SId) (f : Nat → Nat) : Nat :=
  ((index.lookup k).map f).getD 0

/-- Registrations at a position that no TU made. -/
def looseAt (edges : List StoredEdge) (tuEdges : UMap SId (List Nat)) (i : Nat) : Nat :=
  refsAt edges i - UMap.total (List.count i) tuEdges

/-- The abstract graph that `g` stands for. -/
def spec (g : CallGraph) : GraphSpec where
  node u := g.nodes.lookup (g.interner.idOf u)
  contributors u := {t | g.interner.idOf t ∈ g.nodeContributors.getD (g.interner.idOf u) []}
  refs k := atKey g.edgeIndex (k.map g.interner.idOf) (refsAt g.edges)
  untagged k := atKey g.edgeIndex (k.map g.interner.idOf) (looseAt g.edges g.tuEdges)
  reg t k := atKey g.edgeIndex (k.map g.interner.idOf) fun i =>
    (g.tuEdges.getD (g.interner.idOf t) []).count i
  related r x y := g.interner.idOf y ∈ (g.relation r).getD (g.interner.idOf x) []

end CallGraph

end Vycor
