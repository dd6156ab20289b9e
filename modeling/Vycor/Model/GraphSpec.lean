/-
What a call graph is for, without ids and positions.

A `GraphSpec` answers by string: the node of a usr, the TUs that contribute it, how often
an edge is registered in all, by each TU and by no TU, and which pairs each relation
holds.  Its operations say what registering, merging and removing mean.  Nothing here is
the program's, except that a `Call` is one call of a mutator that registers something, and
`CallGraph.register` makes a list of such calls.

Every mutator implements one of the operations; `Proofs/CallGraphOps.lean` and the modules
after it are those refinements.
-/
import Mathlib.Data.Set.Insert
import Vycor.Model.CallGraph

namespace Vycor

/-! ### Keys and nodes -/

/-- The same edge identity with its ends renamed. -/
def EdgeKey.map {ι κ : Type} (f : ι → κ) (k : EdgeKey ι) : EdgeKey κ :=
  { k with caller := f k.caller, callee := f k.callee, callSite := f k.callSite }

/-- The identity of the edge that `addEdge` registers. -/
def CallGraphEdge.key (e : CallGraphEdge) : EdgeKey Str :=
  { caller := e.callerName, callee := e.calleeName, callSite := e.callSite, kind := e.kind
    confidence := e.confidence, execContext := e.execContext
    indirectionDepth := e.indirectionDepth }

/-- What a registration makes of the node that is there. -/
def CallGraphNode.onto (old : Option CallGraphNode) (node : CallGraphNode) : CallGraphNode :=
  match old with
  | none => node
  | some old => old.backfill node

/-! ### The abstract graph

Strings in place of ids, functions in place of maps, and no positions: what can
be asked of a graph is a number of registrations, a node, a set of TUs, a pair
of names.
-/

/-- The four relations of the graph. -/
inductive Relation
  | derivedClass
  | methodOverride
  | effectiveImpl
  | functionReturn
deriving DecidableEq

/-- A call graph as its users see it. -/
@[ext] structure GraphSpec where
  /-- The node of a usr. -/
  node : Str → Option CallGraphNode
  /-- The TUs that contribute the node of a usr. -/
  contributors : Str → Set Str
  /-- All registrations of an edge. -/
  refs : EdgeKey Str → Nat
  /-- Its registrations under no TU. -/
  untagged : EdgeKey Str → Nat
  /-- Its registrations under a TU. -/
  reg : Str → EdgeKey Str → Nat
  /-- The pairs of a relation, whichever TU brought them. -/
  related : Relation → Str → Str → Prop

namespace GraphSpec

/-- Nothing registered. -/
def empty : GraphSpec where
  node _ := none
  contributors _ := ∅
  refs _ := 0
  untagged _ := 0
  reg _ _ := 0
  related _ _ _ := False

/-- A node is filed under its usr, and its TU among the contributors. -/
def addNode (s : GraphSpec) (node : CallGraphNode) (tu : Str) : GraphSpec :=
  let node := node.withUsr
  { s with
    node := fun u => if u = node.usr then some (node.onto (s.node u)) else s.node u
    contributors := fun u =>
      if u = node.usr ∧ tu ≠ [] then insert tu (s.contributors u) else s.contributors u }

/-- One more registration of an edge, under a TU or under none. -/
def addEdge (s : GraphSpec) (key : EdgeKey Str) (tu : Str) : GraphSpec :=
  { s with
    refs := fun k => s.refs k + if k = key then 1 else 0
    untagged := fun k => s.untagged k + if k = key ∧ tu = [] then 1 else 0
    reg := fun t k => s.reg t k + if k = key ∧ tu ≠ [] ∧ t = tu then 1 else 0 }

/-- A pair is added to a relation. -/
def relate (s : GraphSpec) (r : Relation) (a b : Str) : GraphSpec :=
  { s with related := fun r' x y => s.related r' x y ∨ (r' = r ∧ x = a ∧ y = b) }

/-- The node of a usr when one graph is merged into another. -/
def mergedNode (master shard : Option CallGraphNode) : Option CallGraphNode :=
  match shard with
  | none => master
  | some node => some (node.onto master)

/-- Registrations of both are kept, and `t`'s nodes are filed over `s`'s. -/
def merge (s t : GraphSpec) : GraphSpec where
  node u := mergedNode (s.node u) (t.node u)
  contributors u := s.contributors u ∪ t.contributors u
  refs k := s.refs k + t.refs k
  untagged k := s.untagged k + t.untagged k
  reg tu k := s.reg tu k + t.reg tu k
  related r x y := s.related r x y ∨ t.related r x y

/-- Take back the registrations of a TU. -/
def releaseTU (s : GraphSpec) (tu : Str) : GraphSpec :=
  { s with
    refs := fun k => s.refs k - s.reg tu k
    reg := fun t k => if t = tu then 0 else s.reg t k }

open Classical in
/-- Take a TU off the nodes; those it alone contributes go. -/
noncomputable def dropNodes (s : GraphSpec) (tu : Str) : GraphSpec :=
  { s with
    node := fun u => if tu ∈ s.contributors u ∧ s.contributors u ⊆ {tu} then none else s.node u
    contributors := fun u => s.contributors u \ {tu} }

/-- Drop a TU.  The relations keep what it added to them. -/
noncomputable def removeTU (s : GraphSpec) (tu : Str) : GraphSpec := (s.releaseTU tu).dropNodes tu

/-- The TUs are removed one after the other. -/
noncomputable def removeTUs (s : GraphSpec) (tus : List Str) : GraphSpec := tus.foldl removeTU s

end GraphSpec

/-! ### Registrations -/

/-- One call of a mutator that registers something. -/
inductive Call
  | node (node : CallGraphNode) (tu : Str)
  | edge (edge : CallGraphEdge) (tu : Str)
  | derivedClass (baseClass derivedClass tu : Str)
  | methodOverride (baseMethod overrideMethod tu : Str)
  | effectiveImpl (concreteClass implMethod tu : Str)
  | functionReturn (funcName returnedFunc tu : Str)
deriving DecidableEq

namespace Call

/-- The call itself. -/
def apply (g : CallGraph) : Call → CallGraph
  | node n tu => g.addNode n tu
  | edge e tu => g.addEdge e tu
  | derivedClass a b tu => g.addDerivedClass a b tu
  | methodOverride a b tu => g.addMethodOverride a b tu
  | effectiveImpl a b tu => g.addEffectiveImpl a b tu
  | functionReturn a b tu => g.addFunctionReturn a b tu

/-- The TU path the call is tagged with. -/
def tu : Call → Str
  | node _ tu | edge _ tu | derivedClass _ _ tu | methodOverride _ _ tu
  | effectiveImpl _ _ tu | functionReturn _ _ tu => tu

/-- What the call means.  An effective implementation is filed under its method. -/
def spec (s : GraphSpec) : Call → GraphSpec
  | node n tu => s.addNode n tu
  | edge e tu => s.addEdge e.key tu
  | derivedClass a b _ => s.relate .derivedClass a b
  | methodOverride a b _ => s.relate .methodOverride a b
  | effectiveImpl a b _ => s.relate .effectiveImpl b a
  | functionReturn a b _ => s.relate .functionReturn a b

end Call

/-- The graph that a list of registrations makes of `g`. -/
def CallGraph.register (g : CallGraph) (calls : List Call) : CallGraph := calls.foldl Call.apply g

/-- What a list of registrations means. -/
def GraphSpec.register (s : GraphSpec) (calls : List Call) : GraphSpec :=
  calls.foldl Call.spec s

end Vycor
