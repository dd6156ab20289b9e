/-
Graphs that stay in step.

Two graphs are in step when they say the same of every string, have given out the same ids
and hold their live edges in one order.  Every mutator keeps two graphs in step, so that no
later call tells them apart: the strings and the order of the live edges after a call are
settled by those before it, or for a removal by which edges the abstract graph has left.
-/
import Vycor.Lib.Ordered
import Vycor.Model.DeadCode
import Vycor.Proofs.BatchRemoval
import Vycor.Proofs.EdgeOrder

namespace Vycor

namespace CallGraph

open Dedup

variable {g g' : CallGraph} {t : StringInterner} {order : List (EdgeKey SId)}

/-! ### The strings and the order of the edges -/

/-- The strings of a graph and the order of its live edges. -/
structure Lists (g : CallGraph) (t : StringInterner) (order : List (EdgeKey SId)) : Prop where
  interner : g.interner = t
  inOrder : g.InOrder
  liveOrder : g.liveOrder = order

theorem Lists.intern (h : Lists g t order) (s : Str) : Lists (g.intern s) (t.intern s) order :=
  ⟨congrArg (·.intern s) h.interner, h.inOrder, h.liveOrder⟩

theorem Lists.frame (h : Lists g t order) (hinterner : g'.interner = g.interner)
    (hside : g'.edgeSide = g.edgeSide) : Lists g' t order :=
  ⟨hinterner.trans h.interner, h.inOrder.frame hside, (liveOrder_frame hside).trans h.liveOrder⟩

theorem Lists.storeEdge (h : Lists g t order)
    (htable : EdgesOK g.edges g.edgeIndex g.outEdges g.inEdges g.liveEdgeCount)
    (key : EdgeKey SId) {n : Nat} (hn : 0 < n) :
    Lists (g.storeEdge key n) t (pushUnique order key) where
  interner := (storeEdge_interner g key n).trans h.interner
  inOrder := h.inOrder.storeEdge htable.out key n
  liveOrder := (liveOrder_storeEdge htable.indexed key hn).trans (by rw [h.liveOrder])

theorem Lists.addEdge (h : Lists g t order)
    (htable : EdgesOK g.edges g.edgeIndex g.outEdges g.inEdges g.liveEdgeCount)
    (edge : CallGraphEdge) (tu : Str) :
    let t' := ((t.intern edge.callerName).intern edge.calleeName).intern edge.callSite
    Lists (g.addEdge edge tu) (if tu ≠ [] then t'.intern tu else t')
      (pushUnique order (edge.key.map t'.idOf)) := by
  intro t'
  have hinterned := ((h.intern edge.callerName).intern edge.calleeName).intern edge.callSite
  have hstored := hinterned.storeEdge htable (edge.key.map t'.idOf) Nat.one_pos
  have hkey : edge.key.map t'.idOf = edge.key.map
      (((g.intern edge.callerName).intern edge.calleeName).intern edge.callSite).interner.idOf := by
    rw [hinterned.interner]
  rw [hkey] at hstored ⊢
  unfold CallGraph.addEdge
  dsimp only
  split
  · exact (hstored.intern tu).frame rfl rfl
  · exact hstored

theorem Lists.addNode (h : Lists g t order) (node : CallGraphNode) (tu : Str) :
    let t' := (t.intern node.withUsr.usr).intern node.withUsr.qualifiedName
    Lists (g.addNode node tu) (if tu ≠ [] then t'.intern tu else t') order := by
  intro t'
  have hinterned := (h.intern node.withUsr.usr).intern node.withUsr.qualifiedName
  have hput := fun i d => hinterned.frame (putNode_interner _ i d node.withUsr)
    (edgeSide_putNode _ i d node.withUsr)
  unfold CallGraph.addNode
  dsimp only
  split
  · exact ((hput _ _).intern tu).frame rfl rfl
  · exact hput _ _

theorem Lists.relate (h : Lists g t order) (r : Relation) (a b : Str) (i j : SId) :
    Lists (relateStep r ((g.intern a).intern b) i j) ((t.intern a).intern b) order :=
  ((h.intern a).intern b).frame (relateStep_interner r _ i j) (edgeSide_relateStep r _ i j)

/-- **A registration settles the strings and the order.** -/
theorem Lists.call (h : Lists g t order) (h' : Lists g' t order) (hwf : WF g) (hwf' : WF g')
    (c : Call) : ∃ t' order', Lists (c.apply g) t' order' ∧ Lists (c.apply g') t' order' := by
  cases c with
  | node n tu => exact ⟨_, _, h.addNode n tu, h'.addNode n tu⟩
  | edge e tu => exact ⟨_, _, h.addEdge hwf.edges e tu, h'.addEdge hwf'.edges e tu⟩
  | derivedClass a b tu =>
      exact ⟨_, _, h.relate .derivedClass a b _ _, h'.relate .derivedClass a b _ _⟩
  | methodOverride a b tu =>
      exact ⟨_, _, h.relate .methodOverride a b _ _, h'.relate .methodOverride a b _ _⟩
  | effectiveImpl a b tu =>
      exact ⟨_, _, h.relate .effectiveImpl b a _ _, h'.relate .effectiveImpl b a _ _⟩
  | functionReturn a b tu =>
      exact ⟨_, _, h.relate .functionReturn a b _ _, h'.relate .functionReturn a b _ _⟩

/-! ### Merging -/

variable {shard : CallGraph}

/-- The ids a table gets are settled by the strings before it. -/
theorem internAll_congr (h : g.interner = g'.interner) (strings : List Str) :
    (g.internAll strings).1.interner = (g'.internAll strings).1.interner ∧
      (g.internAll strings).2 = (g'.internAll strings).2 := by
  unfold internAll
  induction strings using List.reverseRecOn with
  | nil => exact ⟨h, rfl⟩
  | append_singleton strings s ih =>
      rw [List.foldl_append, List.foldl_append]
      obtain ⟨hinterner, hids⟩ := ih
      have hgrown := congrArg (·.intern s) hinterner
      refine ⟨hgrown, ?_⟩
      show _ ++ [((_ : StringInterner).intern s).idOf s] = _ ++ [((_ : StringInterner).intern s).idOf s]
      rw [hids, hinterner]

theorem interner_absorb (hwf : WF g) (hshard : WF shard) :
    (g.absorb shard).interner = (g.internAll shard.interner.strings).1.interner := by
  obtain ⟨t, heq, hpre, hnd, hmem, hids⟩ := internAll_eq shard.interner.strings g
  have hre := internAll_remaps shard g hmem hids
  have hwf₀ := hwf.grow hpre (hnd hwf.ids.nodup)
  rw [← heq] at hwf₀
  have hint₀ : (g.internAll shard.interner.strings).1.interner = t := by rw [heq]
  obtain ⟨hwf₁, hint₁, -⟩ := absorbNodes_spec hshard hre hwf₀ hint₀
  obtain ⟨hwf₂, hint₂, -⟩ :=
    absorbTuEdges_spec hshard hre (absorbEdges_spec hshard hre hwf₁ hint₁)
  obtain ⟨hwf₃, hint₃, -⟩ := absorbRelation_spec hshard hre .derivedClass hwf₂ hint₂
  obtain ⟨hwf₄, hint₄, -⟩ := absorbRelation_spec hshard hre .methodOverride hwf₃ hint₃
  obtain ⟨hwf₅, hint₅, -⟩ := absorbRelation_spec hshard hre .effectiveImpl hwf₄ hint₄
  obtain ⟨-, hint₆, -⟩ := absorbRelation_spec hshard hre .functionReturn hwf₅ hint₅
  exact hint₆.trans hint₀.symm

theorem edgeSide_absorbNode (shard : CallGraph) (remap : SId → SId) (g : CallGraph)
    (entry : Σ _ : SId, CallGraphNode) :
    (absorbNode shard remap g entry).edgeSide = g.edgeSide ∧
      (absorbNode shard remap g entry).edgeIndex = g.edgeIndex ∧
      (absorbNode shard remap g entry).inEdges = g.inEdges ∧
      (absorbNode shard remap g entry).liveEdgeCount = g.liveEdgeCount := by
  unfold absorbNode
  refine List.foldlRecOn (shard.nodeContributors.getD entry.1 []) _
    (motive := fun g' : CallGraph => g'.edgeSide = g.edgeSide ∧ g'.edgeIndex = g.edgeIndex ∧
      g'.inEdges = g.inEdges ∧ g'.liveEdgeCount = g.liveEdgeCount) ?_ fun g' hg' tu _ => hg'
  unfold absorbFields
  split <;> exact ⟨rfl, rfl, rfl, rfl⟩

theorem edgeSide_absorbRelation (remap : SId → SId) (r : Relation) (relation : UMap SId (List SId))
    (g : CallGraph) :
    (absorbRelation remap (relateStep r) relation g).edgeSide = g.edgeSide := by
  refine List.foldlRecOn relation.entries _
    (motive := fun g' : CallGraph => g'.edgeSide = g.edgeSide) rfl fun g' hg' entry _ => ?_
  exact List.foldlRecOn entry.2 _ (motive := fun g'' : CallGraph => g''.edgeSide = g.edgeSide) hg'
    fun g'' hg'' x _ => (edgeSide_relateStep r g'' (remap entry.1) (remap x)).trans hg''

/-- The edge pass stores the live edges of the shard, in their order. -/
theorem absorbEdges_order (remap : SId → SId) (edges : List StoredEdge) :
    ∀ st : CallGraph × List (Option Nat), st.1.InOrder →
      EdgesOK st.1.edges st.1.edgeIndex st.1.outEdges st.1.inEdges st.1.liveEdgeCount →
      let g' := (edges.foldl (absorbEdge remap) st).1
      g'.InOrder ∧ g'.liveOrder
        = ((edges.filter fun e => 0 < e.refs).map fun e => e.toEdgeKey.map remap).foldl pushUnique
            st.1.liveOrder := by
  induction edges with
  | nil => exact fun st h _ => ⟨h, rfl⟩
  | cons e rest ih =>
      intro st h htable
      rw [List.foldl_cons, List.filter_cons]
      by_cases hz : e.refs = 0
      · have hskip : (absorbEdge remap st e).1 = st.1 := by
          unfold absorbEdge
          rw [if_pos hz]
        have hrest := ih (absorbEdge remap st e) (hskip ▸ h) (hskip ▸ htable)
        rw [hskip] at hrest
        rw [if_neg (by simp [hz])]
        exact hrest
      · have hpos : 0 < e.refs := Nat.pos_of_ne_zero hz
        have hstore : (absorbEdge remap st e).1 = st.1.storeEdge (e.toEdgeKey.map remap) e.refs := by
          unfold absorbEdge
          rw [if_neg hz]
          rfl
        have hrest := ih (absorbEdge remap st e)
          (hstore ▸ h.storeEdge htable.out (e.toEdgeKey.map remap) e.refs)
          (hstore ▸ htable.storeEdge (e.toEdgeKey.map remap) hpos)
        rw [hstore, liveOrder_storeEdge htable.indexed _ hpos] at hrest
        rw [if_pos (decide_eq_true hpos), List.map_cons, List.foldl_cons]
        exact hrest

/-- **A merge adds the shard's edges that are new, in their order.** -/
theorem absorb_order (hwf : WF g) (h : g.InOrder) (shard : CallGraph) :
    let remap : SId → SId := fun id => (g.internAll shard.interner.strings).2.getD id 0
    (g.absorb shard).InOrder ∧ (g.absorb shard).liveOrder
      = (shard.liveOrder.map (EdgeKey.map remap)).foldl pushUnique g.liveOrder := by
  intro remap
  obtain ⟨t, heq, -, -, -, -⟩ := internAll_eq shard.interner.strings g
  set g₁ := shard.nodes.entries.foldl (absorbNode shard remap) (g.internAll shard.interner.strings).1
    with hg₁
  have hside : g₁.edgeSide = g.edgeSide ∧ g₁.edgeIndex = g.edgeIndex ∧ g₁.inEdges = g.inEdges ∧
      g₁.liveEdgeCount = g.liveEdgeCount := by
    refine List.foldlRecOn shard.nodes.entries (absorbNode shard remap)
      (motive := fun g' : CallGraph => g'.edgeSide = g.edgeSide ∧ g'.edgeIndex = g.edgeIndex ∧
        g'.inEdges = g.inEdges ∧ g'.liveEdgeCount = g.liveEdgeCount)
      (by rw [heq]; exact ⟨rfl, rfl, rfl, rfl⟩) ?_
    intro g' hg' entry _
    obtain ⟨h₁, h₂, h₃, h₄⟩ := edgeSide_absorbNode shard remap g' entry
    exact ⟨h₁.trans hg'.1, h₂.trans hg'.2.1, h₃.trans hg'.2.2.1, h₄.trans hg'.2.2.2⟩
  obtain ⟨hedgeSide, hindex, hin, hcount⟩ := hside
  have htable : EdgesOK g₁.edges g₁.edgeIndex g₁.outEdges g₁.inEdges g₁.liveEdgeCount := by
    have hedges : g₁.edges = g.edges := congrArg Prod.fst hedgeSide
    have hout : g₁.outEdges = g.outEdges := congrArg Prod.snd hedgeSide
    rw [hedges, hout, hindex, hin, hcount]
    exact hwf.edges
  obtain ⟨horder, hlive⟩ :=
    absorbEdges_order remap shard.edges (g₁, []) (h.frame hedgeSide) htable
  set stored := shard.edges.foldl (absorbEdge remap) (g₁, []) with hstored
  have htus : ∀ g' : CallGraph,
      (shard.tuEdges.entries.foldl (absorbTuEdges remap stored.2) g').edgeSide = g'.edgeSide := by
    intro g'
    rw [absorbTuEdges_eq]
    rfl
  have hrest : (g.absorb shard).edgeSide = stored.1.edgeSide :=
    (edgeSide_absorbRelation remap .functionReturn shard.functionReturns _).trans
      ((edgeSide_absorbRelation remap .effectiveImpl shard.effectiveImplClasses _).trans
        ((edgeSide_absorbRelation remap .methodOverride shard.methodOverrides _).trans
          ((edgeSide_absorbRelation remap .derivedClass shard.derivedClasses _).trans
            (htus stored.1))))
  refine ⟨horder.frame hrest, ?_⟩
  rw [liveOrder_frame hrest, hlive, liveOrder_frame hedgeSide]
  show _ = (((shard.edges.filter fun e => 0 < e.refs).map fun e => e.toEdgeKey).map _).foldl _ _
  rw [List.map_map]
  rfl

/-! ### In step

The relation that every mutator keeps: one abstract graph, one set of strings,
and the live edges in one order. It is what a saved and reloaded graph has in
common with its original.
-/

/-- Two graphs that no call tells apart. -/
structure InStep (g g' : CallGraph) : Prop where
  wf : WF g
  wf' : WF g'
  spec : g.spec = g'.spec
  lists : ∃ t order, Lists g t order ∧ Lists g' t order

/-- What is done to a graph: its own operations, and merges. -/
inductive Mutation
  | op (op : GraphOp)
  | absorb (shard : Script)

/-- The change on the graph. -/
def Mutation.apply (g : CallGraph) : Mutation → CallGraph
  | op o => o.apply g
  | absorb shard => g.absorb shard.graph

theorem WF.mutate (hwf : WF g) (m : Mutation) : WF (m.apply g) := by
  cases m with
  | op o => exact (o.apply_wf_spec hwf).1
  | absorb shard => exact (absorb_wf_spec hwf shard.wf).1

theorem spec_mutate (hwf : WF g) (hwf' : WF g') (hspec : g.spec = g'.spec) (m : Mutation) :
    (m.apply g).spec = (m.apply g').spec := by
  cases m with
  | op o =>
      show (o.apply g).spec = (o.apply g').spec
      rw [(o.apply_wf_spec hwf).2, (o.apply_wf_spec hwf').2, hspec]
  | absorb shard =>
      show (g.absorb shard.graph).spec = (g'.absorb shard.graph).spec
      rw [(absorb_wf_spec hwf shard.wf).2, (absorb_wf_spec hwf' shard.wf).2, hspec]

/-- What two graphs with one abstract graph have left of one order is the same. -/
theorem liveOrder_ext (hwf : WF g) (hwf' : WF g') (hspec : g.spec = g'.spec)
    (hinterner : g.interner = g'.interner) (hnodup : order.Nodup)
    (hsub : g.liveOrder.Sublist order) (hsub' : g'.liveOrder.Sublist order) :
    g.liveOrder = g'.liveOrder := by
  refine sublist_ext hsub hsub' hnodup fun k => ?_
  rw [hwf.mem_liveOrder_spec, hwf'.mem_liveOrder_spec, hspec, hinterner]

/-- **Every mutator keeps two graphs in step.** -/
theorem InStep.mutate (h : InStep g g') (m : Mutation) : InStep (m.apply g) (m.apply g') := by
  have hwf := h.wf.mutate m
  have hwf' := h.wf'.mutate m
  have hspec := spec_mutate h.wf h.wf' h.spec m
  refine ⟨hwf, hwf', hspec, ?_⟩
  obtain ⟨t, order, hl, hl'⟩ := h.lists
  have hsame : g.interner = g'.interner := hl.interner.trans hl'.interner.symm
  cases m with
  | op o =>
      cases o with
      | call c => exact hl.call hl' h.wf h.wf' c
      | removeTUs tus =>
          obtain ⟨horder, hsub, hint⟩ := removeTUs_order h.wf hl.inOrder tus
          obtain ⟨horder', hsub', hint'⟩ := removeTUs_order h.wf' hl'.inOrder tus
          rw [hl.liveOrder, ← hl'.liveOrder] at hsub
          have hkept := liveOrder_ext hwf hwf' hspec (hint.trans (hsame.trans hint'.symm))
            (nodup_liveOrder h.wf'.edges.indexed) hsub hsub'
          exact ⟨_, _, ⟨hint.trans hsame, horder, hkept⟩, ⟨hint', horder', rfl⟩⟩
      | compact =>
          obtain ⟨horder, hlive⟩ := compact_order g
          obtain ⟨horder', hlive'⟩ := compact_order g'
          exact ⟨t, order, ⟨hl.interner, horder, hlive.trans hl.liveOrder⟩,
            ⟨hl'.interner, horder', hlive'.trans hl'.liveOrder⟩⟩
  | absorb shard =>
      obtain ⟨horder, hlive⟩ := absorb_order h.wf hl.inOrder shard.graph
      obtain ⟨horder', hlive'⟩ := absorb_order h.wf' hl'.inOrder shard.graph
      obtain ⟨hinterned, hids⟩ := internAll_congr hsame shard.graph.interner.strings
      rw [hids, hl.liveOrder, ← hl'.liveOrder] at hlive
      exact ⟨_, _,
        ⟨(interner_absorb h.wf shard.wf).trans hinterned, horder, hlive⟩,
        ⟨interner_absorb h.wf' shard.wf, horder', hlive'⟩⟩

/-- **And so does every run of them.** -/
theorem InStep.run (h : InStep g g') (later : List Mutation) :
    InStep (later.foldl Mutation.apply g) (later.foldl Mutation.apply g') := by
  induction later generalizing g g' with
  | nil => exact h
  | cons m rest ih => exact ih (h.mutate m)

/-! ### The edges out of a usr -/

/-- **The out-list of a usr lists its live edges in order.** -/
theorem WF.liveFrom_order (hwf : WF g) (h : g.InOrder) (u : SId) :
    (g.liveFrom u).map (fun e => e.toEdgeKey) = g.liveOrder.filter (·.caller = u) := by
  have hidxs : g.outEdges.getD u []
      = Postings.positions g.edges fun e => decide (0 < e.refs ∧ e.caller = u) := by
    have hless : Ordered.Strict fun i j : Nat => decide (i < j) :=
      Ordered.strict_decide Nat.lt_trans Nat.lt_asymm (by omega)
    refine Ordered.Ascending.ext hless ?_ ?_ ?_
    · exact (h u).imp fun hij => decide_eq_true hij
    · exact (List.pairwise_lt_range.filter _).imp fun hij => decide_eq_true hij
    · intro i
      rw [(hwf.edges.out u).2 i, Postings.mem_positions]
      constructor
      · rintro ⟨k, ⟨e, he, rfl, hpos⟩, hcaller⟩
        exact ⟨e, he, decide_eq_true ⟨hpos, hcaller⟩⟩
      · rintro ⟨e, he, hlive⟩
        obtain ⟨hpos, hcaller⟩ := of_decide_eq_true hlive
        exact ⟨_, ⟨e, he, rfl, hpos⟩, hcaller⟩
  have hlive : g.liveFrom u = g.edges.filter fun e => decide (0 < e.refs ∧ e.caller = u) := by
    unfold liveFrom CallGraph.liveAt
    rw [hidxs]
    show (Postings.rowsAt g.edges _).filter _ = _
    rw [Postings.rowsAt_positions, List.filter_filter]
    refine List.filter_congr fun e _ => ?_
    by_cases hpos : 0 < e.refs
    · simp [hpos, Nat.ne_of_gt hpos]
    · simp [hpos]
  rw [hlive]
  unfold liveOrder
  rw [List.filter_map, List.filter_filter]
  congr 1
  refine List.filter_congr fun e _ => ?_
  simp [Bool.and_comm]

/-! ### Ids that stand for the same -/

theorem InStep.interner (h : InStep g g') : g.interner = g'.interner := by
  obtain ⟨t, order, hl, hl'⟩ := h.lists
  exact hl.interner.trans hl'.interner.symm

theorem InStep.liveOrder (h : InStep g g') : g.liveOrder = g'.liveOrder := by
  obtain ⟨t, order, hl, hl'⟩ := h.lists
  exact hl.liveOrder.trans hl'.liveOrder.symm

theorem InStep.symm (h : InStep g g') : InStep g' g := by
  obtain ⟨t, order, hl, hl'⟩ := h.lists
  exact ⟨h.wf', h.wf, h.spec.symm, t, order, hl', hl⟩

/-- One id has one node. -/
theorem InStep.lookup_node (h : InStep g g') (i : SId) : g.nodes.lookup i = g'.nodes.lookup i := by
  by_cases hi : i < g.interner.size
  · have hid : g.interner.idOf (g.interner.resolve i) = i :=
      StringInterner.idOf_resolve h.wf.ids.nodup hi
    have hid' : g'.interner.idOf (g.interner.resolve i) = i := h.interner ▸ hid
    have hnode : g.nodes.lookup (g.interner.idOf (g.interner.resolve i))
        = g'.nodes.lookup (g'.interner.idOf (g.interner.resolve i)) :=
      congrFun (congrArg GraphSpec.node h.spec) _
    rwa [hid, hid'] at hnode
  · have hnone {g : CallGraph} (hwf : WF g) (hi : ¬ i < g.interner.size) :
        g.nodes.lookup i = none := by
      cases hl : g.nodes.lookup i with
      | none => rfl
      | some n => exact absurd (hwf.ids.node i n hl).1 hi
    rw [hnone h.wf hi, hnone h.wf' (h.interner ▸ hi)]

/-- One id is related to the same ids, in whatever order. -/
theorem InStep.mem_relation (h : InStep g g') (r : Relation) (i j : SId) :
    j ∈ (g.relation r).getD i [] ↔ j ∈ (g'.relation r).getD i [] := by
  have hone {g g' : CallGraph} (h : InStep g g') (hj : j ∈ (g.relation r).getD i []) :
      j ∈ (g'.relation r).getD i [] := by
    obtain ⟨hi, hlt⟩ := h.wf.ids.related r i j hj
    have hid := StringInterner.idOf_resolve h.wf.ids.nodup hi
    have hjd := StringInterner.idOf_resolve h.wf.ids.nodup hlt
    have hrel : g.spec.related r (g.interner.resolve i) (g.interner.resolve j) := by
      show g.interner.idOf _ ∈ (g.relation r).getD (g.interner.idOf _) []
      rwa [hid, hjd]
    rw [h.spec] at hrel
    have hrel' : g'.interner.idOf (g.interner.resolve j)
        ∈ (g'.relation r).getD (g'.interner.idOf (g.interner.resolve i)) [] := hrel
    rwa [← h.interner, hid, hjd] at hrel'
  exact ⟨hone h, hone h.symm⟩

theorem InStep.mem_overrides (h : InStep g g') (i j : SId) :
    j ∈ transitiveClosure i g.methodOverrides ↔ j ∈ transitiveClosure i g'.methodOverrides := by
  have hstep : (fun a b => b ∈ g.methodOverrides.getD a [])
      = fun a b => b ∈ g'.methodOverrides.getD a [] := by
    funext a b
    exact propext (h.mem_relation .methodOverride a b)
  rw [transitiveClosure_spec, transitiveClosure_spec, hstep]

theorem InStep.displayFor (h : InStep g g') (i : SId) : g.displayFor i = g'.displayFor i := by
  unfold CallGraph.displayFor
  rw [h.lookup_node, h.interner]

theorem InStep.materialize (h : InStep g g') (b : EdgeRef) : g.materialize b = g'.materialize b := by
  unfold CallGraph.materialize
  rw [h.displayFor, h.displayFor, h.interner]

theorem InStep.mem_resolveUsrIds (h : InStep g g') (name : Str) (i : SId) :
    i ∈ g.resolveUsrIds name ↔ i ∈ g'.resolveUsrIds name := by
  by_cases hname : name ∈ g.interner.strings
  · rw [h.wf.mem_resolveUsrIds hname, h.wf'.mem_resolveUsrIds (h.interner ▸ hname), h.spec,
      h.interner]
  · rw [resolveUsrIds_unknown hname, resolveUsrIds_unknown (h.interner ▸ hname)]

/-! ### Rows -/

section Rows

variable {u v site : SId}

/-- What stands at a call site is read off the order. -/
theorem exists_storedAt (g : CallGraph) (u v site : SId) (P : EdgeKey SId → Prop) :
    (∃ e, g.StoredAt u v site e ∧ P e.toEdgeKey) ↔
      ∃ k ∈ g.liveOrder, k.caller = u ∧ k.callee = v ∧ k.callSite = site ∧ P k := by
  unfold StoredAt liveOrder
  constructor
  · rintro ⟨e, ⟨hmem, hpos, hcaller, hcallee, hsite⟩, hP⟩
    exact ⟨e.toEdgeKey, List.mem_map_of_mem (List.mem_filter.mpr ⟨hmem, decide_eq_true hpos⟩),
      hcaller, hcallee, hsite, hP⟩
  · rintro ⟨k, hk, hcaller, hcallee, hsite, hP⟩
    obtain ⟨e, he, rfl⟩ := List.mem_map.mp hk
    obtain ⟨hmem, hpos⟩ := List.mem_filter.mp he
    exact ⟨e, ⟨hmem, of_decide_eq_true hpos, hcaller, hcallee, hsite⟩, hP⟩

theorem InStep.namedAt (h : InStep g g') : g.NamedAt u v site ↔ g'.NamedAt u v site := by
  have hg := exists_storedAt g u v site fun k => k.kind = .virtualDispatch
  have hg' := exists_storedAt g' u v site fun k => k.kind = .virtualDispatch
  rw [h.liveOrder] at hg
  exact hg.trans hg'.symm

theorem InStep.shownAt (h : InStep g g') : g.ShownAt u v site ↔ g'.ShownAt u v site := by
  have hg := exists_storedAt g u v site fun k => k.kind ≠ .functionPointerReturn
  have hg' := exists_storedAt g' u v site fun k => k.kind ≠ .functionPointerReturn
  rw [h.liveOrder] at hg
  exact hg.trans hg'.symm

theorem InStep.stored (h : InStep g g') (b : EdgeRef) : g.Stored b ↔ g'.Stored b := by
  have hg := exists_storedAt g b.caller b.callee b.callSite fun k =>
    k.kind ≠ .functionPointerReturn ∧ k = b
  have hg' := exists_storedAt g' b.caller b.callee b.callSite fun k =>
    k.kind ≠ .functionPointerReturn ∧ k = b
  rw [h.liveOrder] at hg
  exact hg.trans hg'.symm

/-- The first edge of the out-list that a key test finds is the first in the order. -/
theorem find_liveFrom (hwf : WF g) (hin : g.InOrder) (u : SId) (P : EdgeKey SId → Prop)
    [DecidablePred P] :
    ((g.liveFrom u).find? fun e => P e.toEdgeKey).map (fun e => e.toEdgeKey)
      = (g.liveOrder.filter (·.caller = u)).find? fun k => P k := by
  rw [← hwf.liveFrom_order hin, List.find?_map]
  rfl

theorem InStep.find_liveFrom (h : InStep g g') (u : SId) {P Q : EdgeKey SId → Prop}
    [DecidablePred P] [DecidablePred Q] (hP : ∀ k, P k ↔ Q k) :
    ((g.liveFrom u).find? fun e => P e.toEdgeKey).map (fun e => e.toEdgeKey)
      = ((g'.liveFrom u).find? fun e => Q e.toEdgeKey).map fun e => e.toEdgeKey := by
  obtain ⟨t, order, hl, hl'⟩ := h.lists
  rw [CallGraph.find_liveFrom h.wf hl.inOrder, CallGraph.find_liveFrom h.wf' hl'.inOrder,
    h.liveOrder]
  congr 1
  funext k
  exact decide_eq_decide.mpr (hP k)

/-- **The callees of a usr are expanded alike.** -/
theorem InStep.outAt (h : InStep g g') (u v site : SId) : g.outAt u v site = g'.outAt u v site := by
  have hdispatch : (g.earliestDispatch u v site).map (fun e => e.toEdgeKey)
      = (g'.earliestDispatch u v site).map fun e => e.toEdgeKey :=
    h.find_liveFrom u
      (P := fun k => (k.kind == .virtualDispatch && k.confidence == .Plausible) ∧
        k.callSite = site ∧ v ∈ transitiveClosure k.callee g.methodOverrides)
      (Q := fun k => (k.kind == .virtualDispatch && k.confidence == .Plausible) ∧
        k.callSite = site ∧ v ∈ transitiveClosure k.callee g'.methodOverrides)
      fun k => and_congr_right fun _ => and_congr_right fun _ => h.mem_overrides _ _
  have hreturn : (g.earliestReturn u v site).map (fun e => e.toEdgeKey)
      = (g'.earliestReturn u v site).map fun e => e.toEdgeKey :=
    h.find_liveFrom u
      (P := fun k => k.kind = .functionPointerReturn ∧ k.callSite = site ∧
        v ∈ g.functionReturns.getD k.callee [])
      (Q := fun k => k.kind = .functionPointerReturn ∧ k.callSite = site ∧
        v ∈ g'.functionReturns.getD k.callee [])
      fun k => and_congr_right fun _ => and_congr_right fun _ =>
        h.mem_relation .functionReturn _ _
  have hviaDispatch := congrArg
    (Option.map fun k : EdgeKey SId => ({ k with callee := v } : EdgeRef)) hdispatch
  have hviaReturn := congrArg (Option.map fun k : EdgeKey SId =>
    ({ k with callee := v, kind := returnKind k.execContext } : EdgeRef)) hreturn
  rw [Option.map_map, Option.map_map] at hviaDispatch hviaReturn
  exact congrArg₂ Option.or hviaDispatch hviaReturn

theorem WF.caller_of_mem (hwf : WF g) {b : EdgeRef} (hb : b ∈ g.calleeRefsOf u) : b.caller = u := by
  unfold calleeRefsOf at hb
  rcases (mem_emitAll_emitAll_first _ _ _ _ b).mp hb with hshown | ⟨⟨v, site⟩, -, hfirst⟩
  · obtain ⟨e, he, rfl⟩ := List.mem_map.mp hshown
    exact ((hwf.mem_liveFrom u e).mp (List.mem_filter.mp he).1).2.2
  · rw [firstOf_dispatchedFrom, firstOf_returnedFrom] at hfirst
    exact (hwf.outAt_ends hfirst).1

theorem WF.callee_of_mem (hwf : WF g) {b : EdgeRef} (hb : b ∈ g.callerRefsOf v) : b.callee = v := by
  unfold callerRefsOf at hb
  rcases (mem_emitAll_emitAll_first _ _ _ _ b).mp hb with hshown | ⟨⟨u, site⟩, -, hfirst⟩
  · obtain ⟨e, he, rfl⟩ := List.mem_map.mp hshown
    exact ((hwf.mem_liveInto v e).mp (List.mem_filter.mp he).1).2.2
  · rw [firstOf_dispatchedTo, firstOf_returnedTo] at hfirst
    exact (hwf.intoAt_ends hfirst).2.1

/-- **The same rows lead out of an id.** -/
theorem InStep.mem_calleeRefsOf (h : InStep g g') (u : SId) (b : EdgeRef) :
    b ∈ g.calleeRefsOf u ↔ b ∈ g'.calleeRefsOf u := by
  by_cases hu : b.caller = u
  · subst hu
    rw [h.wf.mem_calleeRefsOf_site, h.wf'.mem_calleeRefsOf_site, h.stored, h.namedAt, h.outAt]
  · exact iff_of_false (fun hb => hu (h.wf.caller_of_mem hb)) fun hb => hu (h.wf'.caller_of_mem hb)

/-- An expansion is shown at a site when some edge expands there. -/
theorem WF.intoAt_none (hwf : WF g) :
    g.intoAt u v site = none ↔
      (∀ e, ¬ g.DispatchesAt u v site e) ∧ ∀ e, ¬ g.JoinsAt u v site e := by
  unfold CallGraph.intoAt
  rw [Option.or_eq_none_iff, Option.map_eq_none_iff, Option.map_eq_none_iff,
    hwf.nearestDispatch_none, hwf.nearestReturn_none]

theorem WF.outAt_none (hwf : WF g) :
    g.outAt u v site = none ↔
      (∀ e, ¬ g.DispatchesAt u v site e) ∧ ∀ e, ¬ g.JoinsAt u v site e := by
  unfold CallGraph.outAt
  rw [Option.or_eq_none_iff, Option.map_eq_none_iff, Option.map_eq_none_iff,
    hwf.earliestDispatch_none, hwf.earliestReturn_none]

/-- **The same calls lead into an id**, but a row that several edges expand to may be shown as
another of them does. -/
theorem InStep.exists_callerRef (h : InStep g g') {b : EdgeRef} (hb : b ∈ g.callerRefsOf v) :
    ∃ b' ∈ g'.callerRefsOf v,
      b'.caller = b.caller ∧ b'.callee = b.callee ∧ b'.callSite = b.callSite := by
  have hcallee := h.wf.callee_of_mem hb
  subst hcallee
  rcases (h.wf.mem_callerRefsOf_site b).mp hb with hstored | ⟨hnot, hinto⟩
  · exact ⟨b, (h.wf'.mem_callerRefsOf_site b).mpr (Or.inl ((h.stored b).mp hstored)), rfl, rfl, rfl⟩
  · have hsome : g'.intoAt b.caller b.callee b.callSite ≠ none := by
      rw [Ne, h.wf'.intoAt_none, ← h.wf'.outAt_none, ← h.outAt, h.wf.outAt_none, ← h.wf.intoAt_none,
        hinto]
      exact Option.some_ne_none b
    obtain ⟨b', hb'⟩ := Option.ne_none_iff_exists'.mp hsome
    obtain ⟨hcaller, hcallee, hsite⟩ := h.wf'.intoAt_ends hb'
    refine ⟨b', ?_, hcaller, hcallee, hsite⟩
    rw [← hcallee]
    refine (h.wf'.mem_callerRefsOf_site b').mpr (Or.inr ?_)
    rw [hcaller, hcallee, hsite]
    exact ⟨fun hshown => hnot (h.shownAt.mpr hshown), hb'⟩

end Rows

/-! ### Answers -/

/-- A call between the same functions at the same site. -/
structure SameCall (e e' : CallGraphEdge) : Prop where
  callerName : e'.callerName = e.callerName
  calleeName : e'.calleeName = e.calleeName
  callSite : e'.callSite = e.callSite
  callerUsr : e'.callerUsr = e.callerUsr
  calleeUsr : e'.calleeUsr = e.calleeUsr

/-- No query tells the graphs apart, where lists of answers count as sets; a row among the
callers of a name may be shown as another edge at its site expands to it. -/
structure Indistinct (g g' : CallGraph) : Prop where
  findNode : ∀ name, g.findNode name = g'.findNode name
  usrsForName : ∀ name u, u ∈ g.usrsForName name ↔ u ∈ g'.usrsForName name
  calleesOf : ∀ name e, e ∈ g.calleesOf name ↔ e ∈ g'.calleesOf name
  callersOf : ∀ name, ∀ e ∈ g.callersOf name, ∃ e' ∈ g'.callersOf name, SameCall e e'
  callersOf' : ∀ name, ∀ e' ∈ g'.callersOf name, ∃ e ∈ g.callersOf name, SameCall e' e
  getDerivedClasses : ∀ name x, x ∈ g.getDerivedClasses name ↔ x ∈ g'.getDerivedClasses name
  getOverrides : ∀ name x, x ∈ g.getOverrides name ↔ x ∈ g'.getOverrides name
  getClassesForImpl : ∀ name x, x ∈ g.getClassesForImpl name ↔ x ∈ g'.getClassesForImpl name
  getFunctionReturns : ∀ name x, x ∈ g.getFunctionReturns name ↔ x ∈ g'.getFunctionReturns name
  allNodes : ∀ n, n ∈ g.allNodes ↔ n ∈ g'.allNodes
  nodeCount : g.nodeCount = g'.nodeCount
  edgeCount : g.edgeCount = g'.edgeCount
  removeTUs : ∀ tus, (g.removeTUs tus).2 = (g'.removeTUs tus).2

theorem InStep.mem_entries (h : InStep g g') (entry : Σ _ : SId, CallGraphNode) :
    entry ∈ g.nodes.entries ↔ entry ∈ g'.nodes.entries := by
  rw [UMap.mem_entries, UMap.mem_entries, h.lookup_node]

theorem InStep.callersOf (h : InStep g g') (name : Str) :
    ∀ e ∈ g.callersOf name, ∃ e' ∈ g'.callersOf name, SameCall e e' := by
  unfold CallGraph.callersOf
  intro e he
  obtain ⟨v, hv, hrow⟩ := List.mem_flatMap.mp he
  obtain ⟨b, hb, rfl⟩ := List.mem_map.mp hrow
  obtain ⟨b', hb', hcaller, hcallee, hsite⟩ := h.exists_callerRef hb
  refine ⟨g'.materialize b', List.mem_flatMap.mpr
    ⟨v, (h.mem_resolveUsrIds name v).mp hv, List.mem_map_of_mem hb'⟩, ?_⟩
  rw [h.materialize b]
  constructor
  · exact congrArg g'.displayFor hcaller
  · exact congrArg g'.displayFor hcallee
  · exact congrArg g'.interner.resolve hsite
  · exact congrArg g'.interner.resolve hcaller
  · exact congrArg g'.interner.resolve hcallee

theorem InStep.edgeCount (h : InStep g g') : g.edgeCount = g'.edgeCount := by
  have hlength : ∀ {g : CallGraph}, WF g → g.edgeCount = g.liveOrder.length := by
    intro g hwf
    unfold CallGraph.liveOrder
    rw [List.length_map, ← List.countP_eq_length_filter]
    exact hwf.edges.count
  rw [hlength h.wf, hlength h.wf', h.liveOrder]

/-- **Graphs in step answer alike.** -/
theorem InStep.indistinct (h : InStep g g') : Indistinct g g' where
  findNode := h.wf.findNode_eq h.wf' h.spec
  usrsForName name u := by
    unfold CallGraph.usrsForName
    simp only [List.mem_map, h.mem_resolveUsrIds name, h.interner]
  calleesOf name e := by
    unfold CallGraph.calleesOf
    simp only [List.mem_flatMap, List.mem_map, h.mem_resolveUsrIds name, h.mem_calleeRefsOf,
      h.materialize]
  callersOf := h.callersOf
  callersOf' := h.symm.callersOf
  getDerivedClasses name x := by
    rw [h.wf.mem_getDerivedClasses, h.wf'.mem_getDerivedClasses, h.spec]
  getOverrides name x := by
    rw [h.wf.mem_getOverrides, h.wf'.mem_getOverrides, h.spec]
  getClassesForImpl name x := by
    rw [h.wf.mem_getClassesForImpl, h.wf'.mem_getClassesForImpl, h.spec]
  getFunctionReturns name x := by
    rw [h.wf.mem_getFunctionReturns, h.wf'.mem_getFunctionReturns, h.spec]
  allNodes n := by
    unfold CallGraph.allNodes
    simp only [List.mem_map, h.mem_entries]
  nodeCount :=
    ((List.perm_ext_iff_of_nodup g.nodes.nodupKeys.nodup g'.nodes.nodupKeys.nodup).mpr
      h.mem_entries).length_eq
  edgeCount := h.edgeCount
  removeTUs tus := by
    have hleft := (h.mutate (.op (.removeTUs tus))).edgeCount
    have hcount := h.wf.removeTUs_count tus
    have hcount' := h.wf'.removeTUs_count tus
    have hsame := h.edgeCount
    dsimp only [Mutation.apply, GraphOp.apply] at hleft
    omega

/-- **Where expansions do not disagree, the callers are the same rows too.** -/
theorem InStep.sameAnswers (h : InStep g g') (huniform : g.spec.Uniform) : SameAnswers g g' :=
  h.wf.sameAnswers h.wf' h.spec huniform

end CallGraph

/-- A graph that operations and merges make is in step with itself. -/
theorem Script.inStep : ∀ s : Script, CallGraph.InStep s.graph s.graph
  | .empty => by
      refine ⟨CallGraph.wf_empty, CallGraph.wf_empty, rfl, {}, [], ?_, ?_⟩ <;>
        exact ⟨rfl, fun _ => List.Pairwise.nil, rfl⟩
  | .op s o => s.inStep.mutate (.op o)
  | .absorb s shard => s.inStep.mutate (.absorb shard)

end Vycor
