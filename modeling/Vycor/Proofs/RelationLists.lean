/-
A relation lists each of its pairs once.

The mutators add a pair through `pushUnique` or a set, and no other step touches the maps of
the relations.  The reverse maps are rebuilt from the pairs when a snapshot is loaded, with
one entry per pair, so a pair listed twice would come back as a wrong reverse map.
-/
import Vycor.Proofs.Provenance

namespace Vycor

namespace CallGraph

open Dedup

/-- No relation lists a pair twice. -/
def PairsOnce (g : CallGraph) : Prop := ∀ r x, ((g.relation r).getD x []).Nodup

variable {g g' : CallGraph}

theorem PairsOnce.frame (h : g.PairsOnce) (hsame : ∀ r, g'.relation r = g.relation r) :
    g'.PairsOnce := by
  intro r x
  rw [hsame]
  exact h r x

theorem pairsOnce_empty : PairsOnce {} := by
  intro r x
  cases r <;> exact List.nodup_nil

theorem nodup_upsert {m : UMap SId (List SId)} (h : ∀ x, (m.getD x []).Nodup)
    {f : List SId → List SId} (hf : ∀ l : List SId, l.Nodup → (f l).Nodup) (i x : SId) :
    ((m.upsert i [] f).getD x []).Nodup := by
  rw [UMap.getD_upsert]
  split
  · exact hf _ (h i)
  · exact h x

theorem PairsOnce.relateStep (h : g.PairsOnce) (r : Relation) (i j : SId) :
    (CallGraph.relateStep r g i j).PairsOnce := by
  have hpush : ∀ l : List SId, l.Nodup → (pushUnique l j).Nodup :=
    fun l hl => nodup_pushUnique hl j
  have hinsert : ∀ l : List SId, l.Nodup → (setInsert l j).Nodup :=
    fun l hl => nodup_setInsert hl j
  intro r' x
  cases r with
  | derivedClass =>
      cases r' with
      | derivedClass => exact nodup_upsert (h .derivedClass) hpush i x
      | methodOverride => exact h .methodOverride x
      | effectiveImpl => exact h .effectiveImpl x
      | functionReturn => exact h .functionReturn x
  | methodOverride =>
      cases r' with
      | methodOverride => exact nodup_upsert (h .methodOverride) hpush i x
      | derivedClass => exact h .derivedClass x
      | effectiveImpl => exact h .effectiveImpl x
      | functionReturn => exact h .functionReturn x
  | effectiveImpl =>
      cases r' with
      | effectiveImpl => exact nodup_upsert (h .effectiveImpl) hinsert i x
      | derivedClass => exact h .derivedClass x
      | methodOverride => exact h .methodOverride x
      | functionReturn => exact h .functionReturn x
  | functionReturn =>
      cases r' with
      | functionReturn => exact nodup_upsert (h .functionReturn) hinsert i x
      | derivedClass => exact h .derivedClass x
      | methodOverride => exact h .methodOverride x
      | effectiveImpl => exact h .effectiveImpl x

/-! ### Steps that leave the relations alone -/

theorem relation_intern (g : CallGraph) (s : Str) (r : Relation) :
    (g.intern s).relation r = g.relation r := by
  cases r <;> rfl

theorem relation_putNode (g : CallGraph) (i d : SId) (node : CallGraphNode) (r : Relation) :
    (g.putNode i d node).relation r = g.relation r := by
  unfold putNode
  split <;> cases r <;> rfl

theorem relation_addContributor (g : CallGraph) (i t : SId) (r : Relation) :
    (g.addContributor i t).relation r = g.relation r := by
  cases r <;> rfl

theorem relation_storeEdge (g : CallGraph) (key : EdgeKey SId) (n : Nat) (r : Relation) :
    (g.storeEdge key n).relation r = g.relation r := by
  obtain ⟨_, _, _, _, _, h⟩ := storeEdge_frame g key n
  rw [h]
  cases r <;> rfl

theorem relation_tagEdges (g : CallGraph) (t : SId) (idxs : List Nat) (r : Relation) :
    (g.tagEdges t idxs).relation r = g.relation r := by
  cases r <;> rfl

/-! ### Registrations -/

theorem PairsOnce.relate (h : g.PairsOnce) (r : Relation) (a b : Str) (i j : SId) :
    (CallGraph.relateStep r ((g.intern a).intern b) i j).PairsOnce :=
  ((h.frame (relation_intern g a)).frame (relation_intern _ b)).relateStep r i j

theorem PairsOnce.addNode (h : g.PairsOnce) (node : CallGraphNode) (tu : Str) :
    (g.addNode node tu).PairsOnce := by
  have hput := ((h.frame (relation_intern g node.withUsr.usr)).frame
    (relation_intern _ node.withUsr.qualifiedName)).frame (relation_putNode _
      (((g.intern node.withUsr.usr).intern node.withUsr.qualifiedName).interner.idOf
        node.withUsr.usr)
      (((g.intern node.withUsr.usr).intern node.withUsr.qualifiedName).interner.idOf
        node.withUsr.qualifiedName) node.withUsr)
  unfold CallGraph.addNode
  dsimp only
  split
  · exact (hput.frame (relation_intern _ tu)).frame (relation_addContributor _ _ _)
  · exact hput

theorem PairsOnce.addEdge (h : g.PairsOnce) (edge : CallGraphEdge) (tu : Str) :
    (g.addEdge edge tu).PairsOnce := by
  have hstore := fun key => (((h.frame (relation_intern g edge.callerName)).frame
    (relation_intern _ edge.calleeName)).frame (relation_intern _ edge.callSite)).frame
    (relation_storeEdge _ key 1)
  unfold CallGraph.addEdge
  dsimp only
  split
  · exact ((hstore _).frame (relation_intern _ tu)).frame (relation_tagEdges _ _ _)
  · exact hstore _

theorem PairsOnce.call (h : g.PairsOnce) (c : Call) : (c.apply g).PairsOnce := by
  cases c with
  | node n tu => exact h.addNode n tu
  | edge e tu => exact h.addEdge e tu
  | derivedClass a b tu => exact h.relate .derivedClass a b _ _
  | methodOverride a b tu => exact h.relate .methodOverride a b _ _
  | effectiveImpl a b tu => exact h.relate .effectiveImpl b a _ _
  | functionReturn a b tu => exact h.relate .functionReturn a b _ _

/-! ### Removal -/

theorem relation_releaseEdge (r : Release) (idx : Nat) (rel : Relation) :
    (releaseEdge r idx).g.relation rel = r.g.relation rel := by
  unfold releaseEdge
  split
  · rfl
  · split
    · rfl
    · dsimp only
      split <;> cases rel <;> rfl

theorem relation_releaseTU (r : Release) (tuId : SId) (rel : Relation) :
    (releaseTU r tuId).g.relation rel = r.g.relation rel := by
  unfold releaseTU
  split
  · rfl
  · rename_i idxs _
    have hfold : (idxs.foldl releaseEdge r).g.relation rel = r.g.relation rel :=
      List.foldlRecOn idxs releaseEdge (motive := fun r' => r'.g.relation rel = r.g.relation rel)
        rfl fun r' h idx _ => (relation_releaseEdge r' idx rel).trans h
    refine Eq.trans ?_ hfold
    cases rel <;> rfl

theorem relation_eraseNode (g : CallGraph) (nodeId : SId) (r : Relation) :
    (g.eraseNode nodeId).relation r = g.relation r := by
  unfold eraseNode
  split <;> cases r <;> rfl

theorem relation_dropContributor (tuId : SId) (g : CallGraph) (nodeId : SId) (r : Relation) :
    (dropContributor tuId g nodeId).relation r = g.relation r := by
  unfold dropContributor
  split
  · rfl
  · dsimp only
    split
    · refine Eq.trans ?_ (relation_eraseNode g nodeId r)
      cases r <;> rfl
    · cases r <;> rfl

theorem relation_dropNodes (g : CallGraph) (tuId : SId) (r : Relation) :
    (g.dropNodes tuId).relation r = g.relation r := by
  unfold CallGraph.dropNodes
  split
  · rfl
  · rename_i nodeIds _
    have hfold : (nodeIds.foldl (dropContributor tuId) g).relation r = g.relation r :=
      List.foldlRecOn nodeIds (dropContributor tuId)
        (motive := fun g' => g'.relation r = g.relation r)
        rfl fun g' h nodeId _ => (relation_dropContributor tuId g' nodeId r).trans h
    refine Eq.trans ?_ hfold
    cases r <;> rfl

theorem PairsOnce.removeTUs (h : g.PairsOnce) (tuPaths : List Str) :
    (g.removeTUs tuPaths).1.PairsOnce := by
  have hreleased : ∀ r, ((tuPaths.filterMap g.interner.find).foldl releaseTU { g }).g.relation r
      = g.relation r := fun r =>
    List.foldlRecOn _ releaseTU (motive := fun r' => r'.g.relation r = g.relation r)
      rfl fun r' hr' tuId _ => (relation_releaseTU r' tuId r).trans hr'
  have hscrubbed : PairsOnce
      (scrubbed ((tuPaths.filterMap g.interner.find).foldl releaseTU { g })) := by
    refine h.frame ?_
    intro r
    refine Eq.trans ?_ (hreleased r)
    cases r <;> rfl
  exact List.foldlRecOn (tuPaths.filterMap g.interner.find) CallGraph.dropNodes
    (motive := PairsOnce) hscrubbed fun g' hg' tuId _ => hg'.frame (relation_dropNodes g' tuId)

theorem PairsOnce.compact (h : g.PairsOnce) : g.compact.PairsOnce := by
  refine h.frame ?_
  intro r
  cases r <;> rfl

theorem PairsOnce.apply (h : g.PairsOnce) (op : GraphOp) : (op.apply g).PairsOnce := by
  cases op with
  | call c => exact h.call c
  | removeTUs tus => exact h.removeTUs tus
  | compact => exact h.compact

/-! ### Merging -/

theorem relation_absorbNode (shard : CallGraph) (remap : SId → SId) (g : CallGraph)
    (entry : Σ _ : SId, CallGraphNode) (r : Relation) :
    (absorbNode shard remap g entry).relation r = g.relation r := by
  have hfields : (g.absorbFields (remap entry.1) entry.2).relation r = g.relation r := by
    unfold absorbFields
    split <;> cases r <;> rfl
  exact List.foldlRecOn (shard.nodeContributors.getD entry.1 []) _
    (motive := fun g' : CallGraph => g'.relation r = g.relation r) hfields
    fun g' h tu _ => (relation_addContributor g' _ _ r).trans h

theorem relation_absorbEdge (remap : SId → SId) (st : CallGraph × List (Option Nat))
    (e : StoredEdge) (r : Relation) : (absorbEdge remap st e).1.relation r = st.1.relation r := by
  unfold absorbEdge
  split
  · rfl
  · exact relation_storeEdge _ _ _ r

theorem PairsOnce.absorbRelation (h : g.PairsOnce) (r : Relation) (remap : SId → SId)
    (relation : UMap SId (List SId)) :
    (CallGraph.absorbRelation remap (CallGraph.relateStep r) relation g).PairsOnce :=
  List.foldlRecOn relation.entries _ (motive := PairsOnce) h fun _ hg entry _ =>
    List.foldlRecOn entry.2 _ (motive := PairsOnce) hg fun _ hg' x _ =>
      hg'.relateStep r (remap entry.1) (remap x)

theorem PairsOnce.absorb (h : g.PairsOnce) (shard : CallGraph) : (g.absorb shard).PairsOnce := by
  obtain ⟨t, hinterned, -, -, -, -⟩ := internAll_eq shard.interner.strings g
  have hstart : (g.internAll shard.interner.strings).1.PairsOnce := by
    rw [hinterned]
    refine h.frame ?_
    intro r
    cases r <;> rfl
  have hnodes := List.foldlRecOn shard.nodes.entries
    (absorbNode shard fun id => (g.internAll shard.interner.strings).2.getD id 0)
    (motive := PairsOnce) hstart fun g' hg' entry _ => hg'.frame (relation_absorbNode _ _ g' entry)
  have hedges := List.foldlRecOn shard.edges
    (absorbEdge fun id => (g.internAll shard.interner.strings).2.getD id 0)
    (motive := fun st : CallGraph × List (Option Nat) => st.1.PairsOnce) (b := (_, [])) hnodes
    fun st hst e _ => hst.frame (relation_absorbEdge _ st e)
  have htus := fun edgeRemap => List.foldlRecOn shard.tuEdges.entries
    (absorbTuEdges (fun id => (g.internAll shard.interner.strings).2.getD id 0) edgeRemap)
    (motive := PairsOnce) hedges fun g' hg' entry _ => hg'.frame (relation_tagEdges g' _ _)
  exact ((((htus _).absorbRelation .derivedClass _ _).absorbRelation .methodOverride _ _
    ).absorbRelation .effectiveImpl _ _).absorbRelation .functionReturn _ _

end CallGraph

theorem Script.pairsOnce : ∀ s : Script, s.graph.PairsOnce
  | .empty => CallGraph.pairsOnce_empty
  | .op s o => s.pairsOnce.apply o
  | .absorb s shard => s.pairsOnce.absorb shard.graph

end Vycor
