/-
Merging abstract graphs is registering in place.

`merge_register` is why a shard can be built apart: merging what a list of registrations
builds is making the registrations in place.  It rests on one algebraic fact, that
backfilling node fields is associative.
-/
import Mathlib.Data.List.Induction
import Vycor.Model.GraphSpec

namespace Vycor

/-! ### Nodes -/

namespace CallGraphNode

theorem backfill_assoc (a b c : CallGraphNode) :
    (a.backfill b).backfill c = a.backfill (b.backfill c) := by
  unfold backfill
  congr 1
  · by_cases h : c.file = [] <;> simp [h]
  · by_cases h : c.line = 0 <;> simp [h]
  · cases b.isEntryPoint <;> cases c.isEntryPoint <;> rfl
  · cases b.isVirtual <;> cases c.isVirtual <;> rfl
  · by_cases h : c.enclosingClass = [] <;> simp [h]

theorem onto_onto (m : Option CallGraphNode) (a b : CallGraphNode) :
    onto (some (onto m a)) b = onto m (a.backfill b) := by
  cases m with
  | none => rfl
  | some m => exact backfill_assoc m a b

end CallGraphNode

namespace GraphSpec

/-- The registrations and the nodes are separate, so all of one can go first. -/
theorem removeTUs_eq (s : GraphSpec) (tus : List Str) :
    s.removeTUs tus = tus.foldl dropNodes (tus.foldl releaseTU s) := by
  have hswap : ∀ (tus : List Str) (s : GraphSpec) (tu : Str),
      tus.foldl releaseTU (s.dropNodes tu) = (tus.foldl releaseTU s).dropNodes tu := by
    intro tus
    induction tus with
    | nil => exact fun _ _ => rfl
    | cons x rest ih =>
        intro s tu
        rw [List.foldl_cons, List.foldl_cons]
        exact ih (s.releaseTU x) tu
  unfold removeTUs
  induction tus generalizing s with
  | nil => rfl
  | cons tu rest ih =>
      rw [List.foldl_cons, List.foldl_cons, List.foldl_cons, ih, ← hswap]
      rfl

/-! ### Merging is registering in place

The merge of two abstract graphs agrees with replaying the registrations of one
on the other. With it the refinement of `absorb` says what a shard is worth.
-/

theorem merge_empty (s : GraphSpec) : s.merge empty = s := by
  ext
  · rfl
  · simp [merge, empty]
  · rfl
  · rfl
  · rfl
  · simp [merge, empty]

theorem merge_addNode (s t : GraphSpec) (node : CallGraphNode) (tu : Str) :
    s.merge (t.addNode node tu) = (s.merge t).addNode node tu := by
  refine GraphSpec.ext ?_ ?_ rfl rfl rfl rfl
  · funext u
    show mergedNode (s.node u) (if u = _ then _ else t.node u)
      = if u = _ then _ else mergedNode (s.node u) (t.node u)
    by_cases hu : u = node.withUsr.usr
    · rw [if_pos hu, if_pos hu]
      show some (CallGraphNode.onto (s.node u) (CallGraphNode.onto (t.node u) _))
        = some (CallGraphNode.onto (mergedNode (s.node u) (t.node u)) _)
      cases t.node u with
      | none => rfl
      | some old => rw [mergedNode, CallGraphNode.onto_onto]; rfl
    · rw [if_neg hu, if_neg hu]
  · funext u
    show s.contributors u ∪ (if _ then insert tu (t.contributors u) else t.contributors u)
      = if _ then insert tu (s.contributors u ∪ t.contributors u) else s.contributors u ∪ t.contributors u
    split
    · exact Set.union_insert
    · rfl

theorem merge_addEdge (s t : GraphSpec) (key : EdgeKey Str) (tu : Str) :
    s.merge (t.addEdge key tu) = (s.merge t).addEdge key tu := by
  refine GraphSpec.ext rfl rfl ?_ ?_ ?_ rfl
  · funext k
    exact (Nat.add_assoc _ _ _).symm
  · funext k
    exact (Nat.add_assoc _ _ _).symm
  · funext t' k
    exact (Nat.add_assoc _ _ _).symm

theorem merge_relate (s t : GraphSpec) (r : Relation) (a b : Str) :
    s.merge (t.relate r a b) = (s.merge t).relate r a b := by
  refine GraphSpec.ext rfl rfl rfl rfl rfl ?_
  funext r' x y
  exact propext or_assoc.symm

theorem merge_spec (s t : GraphSpec) (call : Call) :
    s.merge (call.spec t) = call.spec (s.merge t) := by
  cases call with
  | node n tu => exact merge_addNode s t n tu
  | edge e tu => exact merge_addEdge s t e.key tu
  | derivedClass a b _ => exact merge_relate s t _ a b
  | methodOverride a b _ => exact merge_relate s t _ a b
  | effectiveImpl a b _ => exact merge_relate s t _ b a
  | functionReturn a b _ => exact merge_relate s t _ a b

/-- **Merging what registrations build is registering in place.** -/
theorem merge_register (s : GraphSpec) (calls : List Call) :
    s.merge (empty.register calls) = s.register calls := by
  unfold register
  induction calls using List.reverseRecOn with
  | nil => exact merge_empty s
  | append_singleton calls call ih =>
      rw [List.foldl_append, List.foldl_append, List.foldl_cons, List.foldl_nil, merge_spec, ih]
      rfl

end GraphSpec

end Vycor
