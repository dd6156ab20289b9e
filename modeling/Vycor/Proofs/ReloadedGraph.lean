/-
The reloaded graph stands for the saved one.

A load installs each node, each live edge and each pair as if it were the first of its kind.
Since a save writes none of them twice, the installs are the steps that the mutators take:
the nodes arrive as in a merge, the edge tables come out as compacting would leave them, and
the pairs are related one by one.
-/
import Vycor.Proofs.SnapshotGraph

namespace Vycor

namespace SnapshotIO

open CallGraph (WF PairsOnce Compacting Retagged compacting_edges relateStep)

variable {w : HashWalk} {g : CallGraph}

/-! ### Nodes

The load installs each node with `emplace`, where a merge would look for it
first. For nodes that come once each the two are the same.
-/

/-- An install of a node touches the nodes and their indexes only. -/
theorem reloadNode_frame (g acc : CallGraph) (entry : Σ _ : SId, CallGraphNode) :
    ∃ byName nodeContributors tuNodes, reloadNode g acc entry
      = { acc with nodes := acc.nodes.emplace entry.1 entry.2, byName, nodeContributors, tuNodes } :=
  List.foldlRecOn (g.nodeContributors.getD entry.1 []) _
    (motive := fun acc' : CallGraph => ∃ byName nodeContributors tuNodes, acc'
      = { acc with nodes := acc.nodes.emplace entry.1 entry.2, byName, nodeContributors, tuNodes })
    ⟨_, _, _, rfl⟩ (by
      rintro _ ⟨byName, nodeContributors, tuNodes, rfl⟩ tu _
      exact ⟨_, _, _, rfl⟩)

/-- A node that is not there yet is installed as a merge would put it. -/
theorem reloadNode_fresh (hwf : WF g) {acc : CallGraph} (hacc : acc.interner = g.interner)
    {entry : Σ _ : SId, CallGraphNode} (hentry : entry ∈ g.nodes.entries)
    (hfresh : acc.nodes.lookup entry.1 = none) :
    reloadNode g acc entry = CallGraph.absorbNode g id acc entry := by
  obtain ⟨i, node⟩ := entry
  obtain ⟨-, -, hmem⟩ := hwf.ids.node i node ((UMap.mem_entries _ _ _).mp hentry)
  rw [← hacc] at hmem
  have hfields : acc.absorbFields i node
      = installNode acc i (g.interner.idOf node.qualifiedName) node := by
    rw [CallGraph.absorbFields_eq i hmem, hacc]
    unfold CallGraph.putNode installNode
    rw [hfresh, UMap.emplace_of_none hfresh]
    rfl
  unfold CallGraph.absorbNode reloadNode
  dsimp only [id]
  rw [hfields]

theorem reloadNodes_eq (hwf : WF g) (entries : List (Σ _ : SId, CallGraphNode)) :
    ∀ acc : CallGraph, acc.interner = g.interner → (∀ entry ∈ entries, entry ∈ g.nodes.entries) →
      (entries.map (·.1)).Nodup → (∀ entry ∈ entries, acc.nodes.lookup entry.1 = none) →
      entries.foldl (reloadNode g) acc = entries.foldl (CallGraph.absorbNode g id) acc := by
  induction entries with
  | nil => exact fun _ _ _ _ _ => rfl
  | cons entry rest ih =>
      intro acc hacc hmem hnd hfresh
      rw [List.map_cons, List.nodup_cons] at hnd
      obtain ⟨_, _, _, hframe⟩ := reloadNode_frame g acc entry
      have hinterner : (reloadNode g acc entry).interner = acc.interner := by rw [hframe]
      have hnodes : (reloadNode g acc entry).nodes = acc.nodes.emplace entry.1 entry.2 := by
        rw [hframe]
      have hstep := reloadNode_fresh hwf hacc (hmem entry List.mem_cons_self)
        (hfresh entry List.mem_cons_self)
      rw [List.foldl_cons, List.foldl_cons, ← hstep]
      refine ih _ (hinterner.trans hacc) (fun e he => hmem e (List.mem_cons_of_mem _ he)) hnd.2 ?_
      intro e he
      rw [hnodes, UMap.lookup_emplace, if_neg]
      · exact hfresh e (List.mem_cons_of_mem _ he)
      · intro hc
        exact hnd.1 (hc ▸ List.mem_map_of_mem he)

/-- A graph whose nodes are filed in another order. -/
theorem wf_spec_walked (hwf : WF g) (w : HashWalk) :
    WF { g with nodes := walked w g.nodes } ∧
      ({ g with nodes := walked w g.nodes } : CallGraph).spec = g.spec := by
  have hlookup := lookup_walked w g.nodes
  refine ⟨{ hwf with
    ids := { hwf.ids with node := ?_ }, nodes := ?_, contributed := ?_ }, ?_⟩
  · intro i n hn
    exact hwf.ids.node i n ((hlookup i).symm.trans hn)
  · intro d
    refine ⟨(hwf.nodes d).1, ?_⟩
    intro i
    rw [(hwf.nodes d).2 i]
    simp only [hlookup]
  · intro i t ht
    show ((walked w g.nodes).lookup i).isSome
    rw [hlookup]
    exact hwf.contributed i t ht
  · refine GraphSpec.ext ?_ rfl rfl rfl rfl rfl
    funext u
    exact hlookup _

/-- A load that has read the nodes has nothing else yet. -/
theorem reloadNodes_frame (w : HashWalk) (g : CallGraph) :
    ∃ nodes byName nodeContributors tuNodes, reloadNodes w g
      = { interner := g.interner, nodes, byName, nodeContributors, tuNodes } := by
  refine List.foldlRecOn (w.walk g.nodes) (reloadNode g)
    (motive := fun acc : CallGraph => ∃ nodes byName nodeContributors tuNodes, acc
      = { interner := g.interner, nodes, byName, nodeContributors, tuNodes })
    ⟨_, _, _, _, rfl⟩ ?_
  rintro _ ⟨nodes, byName, nodeContributors, tuNodes, rfl⟩ entry _
  obtain ⟨_, _, _, hframe⟩ := reloadNode_frame g
    { interner := g.interner, nodes, byName, nodeContributors, tuNodes } entry
  exact ⟨_, _, _, _, hframe⟩

/-- **The reloaded nodes are the saved ones.** -/
theorem reloadNodes_wf_spec (hwf : WF g) (w : HashWalk) :
    WF (reloadNodes w g) ∧ (reloadNodes w g).interner = g.interner ∧
      (reloadNodes w g).spec.node = g.spec.node ∧
      (reloadNodes w g).spec.contributors = g.spec.contributors := by
  have hstart : WF { interner := g.interner } :=
    CallGraph.wf_empty.grow (List.nil_prefix) hwf.ids.nodup
  obtain ⟨hshard, hshardSpec⟩ := wf_spec_walked hwf w
  have hremaps : CallGraph.Remaps { g with nodes := walked w g.nodes } g.interner id :=
    ⟨fun s hs => hs, fun i hi => (StringInterner.idOf_resolve hwf.ids.nodup hi).symm⟩
  have heq : reloadNodes w g = (walked w g.nodes).entries.foldl
      (CallGraph.absorbNode { g with nodes := walked w g.nodes } id) { interner := g.interner } :=
    reloadNodes_eq hwf (w.walk g.nodes) { interner := g.interner } rfl
      (fun entry hentry => mem_walk.mp hentry) (nodup_walk w g.nodes)
      fun entry _ => AList.lookup_empty entry.1
  obtain ⟨hwf', hinterner, hspec⟩ := CallGraph.absorbNodes_spec hshard hremaps hstart rfl
  rw [hshardSpec, ← heq] at hspec
  rw [← heq] at hwf' hinterner
  refine ⟨hwf', hinterner, ?_, ?_⟩
  · rw [hspec]
    funext u
    show GraphSpec.mergedNode none (g.spec.node u) = _
    cases g.spec.node u <;> rfl
  · rw [hspec]
    funext u
    have hnone : ({ interner := g.interner } : CallGraph).spec.contributors u = ∅ :=
      Set.eq_empty_iff_forall_notMem.mpr fun t ht => absurd ht List.not_mem_nil
    show ({ interner := g.interner } : CallGraph).spec.contributors u ∪ g.spec.contributors u = _
    rw [hnone, Set.empty_union]

/-! ### Edges

Saved edges are the live ones in order, so the load builds the tables that
compacting builds, and the TU lists are those of the compacted graph in another
order.
-/

/-- Tagging one edge under each of some TUs. -/
theorem tagAll (tus : List SId) (idx : Nat) (acc : CallGraph) :
    ∃ m, tus.foldl (fun acc tu => acc.tagEdges tu [idx]) acc = { acc with tuEdges := m } ∧
      (∀ t j, (m.getD t []).count j
        = (acc.tuEdges.getD t []).count j + if j = idx then tus.count t else 0) ∧
      ∀ t l, m.lookup t = some l → t ∈ tus ∨ ∃ l', acc.tuEdges.lookup t = some l' := by
  induction tus generalizing acc with
  | nil => exact ⟨acc.tuEdges, rfl, by simp, fun t l h => Or.inr ⟨l, h⟩⟩
  | cons tu rest ih =>
      obtain ⟨m, hm, hcount, hkeys⟩ := ih (acc.tagEdges tu [idx])
      have htag : (acc.tagEdges tu [idx]).tuEdges = acc.tuEdges.upsert tu [] (· ++ [idx]) := rfl
      refine ⟨m, by rw [List.foldl_cons, hm]; rfl, ?_, ?_⟩
      · intro t j
        rw [hcount, htag, UMap.getD_upsert, List.count_cons]
        by_cases ht : t = tu
        · subst ht
          by_cases hj : j = idx
          · subst hj
            simp
            omega
          · simp [hj, Ne.symm hj]
        · simp [ht, Ne.symm ht]
      · intro t l hl
        rcases hkeys t l hl with ht | ⟨l', hl'⟩
        · exact Or.inl (List.mem_cons_of_mem _ ht)
        · rw [htag, UMap.lookup_upsert] at hl'
          by_cases ht : t = tu
          · exact Or.inl (ht ▸ List.mem_cons_self)
          · rw [if_neg ht] at hl'
            exact Or.inr ⟨l', hl'⟩

/-- What a load has after the edges of `pre`: the tables that compacting makes of them, and
the TUs of each edge under its new position. -/
structure EdgesReloaded (g start : CallGraph) (pre : List StoredEdge) (c : CallGraph.Compacted)
    (acc : CallGraph) : Prop where
  graph : acc = { start with
    edges := c.edges, edgeIndex := c.edgeIndex, outEdges := c.outEdges, inEdges := c.inEdges
    liveEdgeCount := CallGraph.liveCount pre, tuEdges := acc.tuEdges }
  length : c.remap.length = pre.length
  below : ∀ i j, c.remap.getD i none = some j → j < c.edges.length
  tu : ∀ t l, acc.tuEdges.lookup t = some l → t < g.interner.size
  count : ∀ t i j, c.remap.getD i none = some j →
    (acc.tuEdges.getD t []).count j = (g.tuEdges.getD t []).count i
  fresh : ∀ t j, c.edges.length ≤ j → (acc.tuEdges.getD t []).count j = 0

theorem getD_concat {l : List (Option Nat)} {a : Option Nat} {i j : Nat} :
    (l ++ [a]).getD i none = some j ↔
      l.getD i none = some j ∨ (i = l.length ∧ a = some j) := by
  rw [CallGraph.moved_iff, CallGraph.moved_iff, CallGraph.getElem?_concat]
  simp only [eq_comm]

theorem EdgesReloaded.tombstone {start acc : CallGraph} {pre : List StoredEdge}
    {c : CallGraph.Compacted} (h : EdgesReloaded g start pre c acc) {e : StoredEdge}
    (hzero : e.refs = 0) :
    EdgesReloaded g start (pre ++ [e]) (CallGraph.compactEdge c e) acc := by
  have hcompact : CallGraph.compactEdge c e = { c with remap := c.remap ++ [none] } := if_pos hzero
  have hcount : CallGraph.liveCount (pre ++ [e]) = CallGraph.liveCount pre := by
    simp [CallGraph.liveCount, hzero]
  have hold : ∀ i j, (c.remap ++ [none]).getD i none = some j → c.remap.getD i none = some j := by
    intro i j hij
    rcases getD_concat.mp hij with hij | ⟨-, hc⟩
    · exact hij
    · simp at hc
  rw [hcompact]
  refine ⟨?_, by simp [h.length], fun i j hij => h.below i j (hold i j hij), h.tu,
    fun t i j hij => h.count t i j (hold i j hij), h.fresh⟩
  rw [hcount]
  exact h.graph

theorem EdgesReloaded.edge (hwf : WF g) {start acc : CallGraph} {pre : List StoredEdge}
    {c : CallGraph.Compacted} (h : EdgesReloaded g start pre c acc) {e : StoredEdge}
    (hpos : e.refs ≠ 0) :
    EdgesReloaded g start (pre ++ [e]) (CallGraph.compactEdge c e)
      (reloadEdge w g acc (e, pre.length)) := by
  have hedges : acc.edges = c.edges := by rw [h.graph]
  obtain ⟨m, hm, hcount, hkeys⟩ := tagAll (edgeTus w g pre.length) acc.edges.length
    (installEdge .mutable acc e.toEdgeKey e.refs)
  have htus : (installEdge .mutable acc e.toEdgeKey e.refs).tuEdges = acc.tuEdges := rfl
  have hacc : reloadEdge w g acc (e, pre.length)
      = { installEdge .mutable acc e.toEdgeKey e.refs with tuEdges := m } := hm
  have htuEdges : (reloadEdge w g acc (e, pre.length)).tuEdges = m := by rw [hacc]
  have hcompact : CallGraph.compactEdge c e =
      { remap := c.remap ++ [some c.edges.length]
        outEdges := c.outEdges.upsert e.caller [] (· ++ [c.edges.length])
        inEdges := c.inEdges.upsert e.callee [] (· ++ [c.edges.length])
        edgeIndex := c.edgeIndex.emplace e.toEdgeKey c.edges.length
        edges := c.edges ++ [e] } := if_neg hpos
  have hlive : CallGraph.liveCount (pre ++ [e]) = CallGraph.liveCount pre + 1 := by
    simp [CallGraph.liveCount, Nat.pos_of_ne_zero hpos]
  rw [hcompact]
  refine ⟨?_, by simp [h.length], ?_, ?_, ?_, ?_⟩
  · rw [hacc, hlive, h.graph]
    rfl
  · intro i j hij
    show j < (c.edges ++ [e]).length
    rw [List.length_append, List.length_singleton]
    rcases getD_concat.mp hij with hij | ⟨-, hj⟩
    · exact Nat.lt_succ_of_lt (h.below i j hij)
    · injection hj with hj
      omega
  · intro t l hl
    rw [htuEdges] at hl
    rcases hkeys t l hl with ht | ⟨l', hl'⟩
    · exact edgeTu_lt hwf ht
    · exact h.tu t l' hl'
  · intro t i j hij
    rw [htuEdges, hcount, htus, hedges]
    rcases getD_concat.mp hij with hij | ⟨hi, hj⟩
    · rw [if_neg (Nat.ne_of_lt (h.below i j hij)), h.count t i j hij, Nat.add_zero]
    · injection hj with hj
      rw [if_pos hj.symm, h.fresh t j (Nat.le_of_eq hj), Nat.zero_add, edgeTus_eq, count_holders,
        hi, h.length]
  · intro t j hj
    have hj' : c.edges.length + 1 ≤ j := by
      simpa using hj
    rw [htuEdges, hcount, htus, hedges, h.fresh t j (by omega), if_neg (by omega)]

theorem edgesReloaded (hwf : WF g) (w : HashWalk) (pre : List StoredEdge) :
    EdgesReloaded g (reloadNodes w g) pre (pre.foldl CallGraph.compactEdge {})
      ((savedEdges pre).foldl (reloadEdge w g) (reloadNodes w g)) := by
  obtain ⟨nodes, byName, nodeContributors, tuNodes, hstart⟩ := reloadNodes_frame w g
  rw [hstart]
  induction pre using List.reverseRecOn with
  | nil =>
      refine ⟨rfl, rfl, by simp, ?_, by simp, fun t j _ => rfl⟩
      intro t l hl
      exact absurd hl (by simp [savedEdges])
  | append_singleton pre e ih =>
      have hsaved : savedEdges (pre ++ [e])
          = savedEdges pre ++ if e.refs ≠ 0 then [(e, pre.length)] else [] := by
        unfold savedEdges
        rw [List.zipIdx_append, List.filter_append, Nat.zero_add]
        by_cases hzero : e.refs = 0 <;> simp [hzero]
      rw [hsaved, List.foldl_append, List.foldl_append, List.foldl_cons, List.foldl_nil]
      by_cases hzero : e.refs = 0
      · rw [if_neg (not_not.mpr hzero)]
        exact ih.tombstone hzero
      · rw [if_pos hzero]
        exact ih.edge hwf hzero

/-- **The reloaded edges have the registrations of the saved ones.** -/
theorem reloadEdges_wf_spec (hwf : WF g) (w : HashWalk) :
    WF (reloadEdges w g) ∧ (reloadEdges w g).interner = g.interner ∧
      (reloadEdges w g).spec = { g.spec with related := (reloadEdges w g).spec.related } ∧
      ∀ r, (reloadEdges w g).relation r = ∅ := by
  obtain ⟨hnodesWf, hinterner, hnode, hcontributors⟩ := reloadNodes_wf_spec hwf w
  obtain ⟨_, _, _, _, hframe⟩ := reloadNodes_frame w g
  have hc := compacting_edges hwf.edges.indexed
  have h := edgesReloaded hwf w g.edges
  have hsaved : (savedEdges g.edges).foldl (reloadEdge w g) (reloadNodes w g) = reloadEdges w g :=
    rfl
  rw [hsaved] at h
  generalize hacc : reloadEdges w g = acc at h ⊢
  have htags : Retagged g (g.edges.foldl CallGraph.compactEdge {}) acc.tuEdges := by
    refine ⟨h.tu, h.count, ?_⟩
    intro t j hnew
    refine List.count_eq_zero.mp (h.fresh t j (Nat.le_of_not_lt fun hlt => ?_))
    obtain ⟨i, hi⟩ := hc.onto j hlt
    exact hnew i (CallGraph.moved_iff.mpr hi)
  have hedges : acc.edges = (g.edges.foldl CallGraph.compactEdge {}).edges := by rw [h.graph]
  have hindex : acc.edgeIndex = (g.edges.foldl CallGraph.compactEdge {}).edgeIndex := by
    rw [h.graph]
  have hint : acc.interner = g.interner := by
    rw [h.graph]
    exact hinterner
  obtain ⟨hrefs, huntagged, hreg⟩ := htags.spec hc hwf hint hedges hindex
  have hspecNode : acc.spec.node = (reloadNodes w g).spec.node := by rw [h.graph]; rfl
  have hspecContributors : acc.spec.contributors = (reloadNodes w g).spec.contributors := by
    rw [h.graph]
    rfl
  refine ⟨?_, hint, ?_, ?_⟩
  · rw [h.graph]
    refine { hnodesWf with
      ids := { hnodesWf.ids with edge := ?_, tuEdge := ?_ }
      edges := hc.table
      prov := htags.prov hc hwf }
    · intro j k hl
      obtain ⟨i, -, hlive⟩ := hc.to_live hl
      show CallGraph.KeyBelow (reloadNodes w g).interner.size k
      rw [hinterner]
      exact hwf.ids.edge i k hlive
    · intro t l hl
      show t < (reloadNodes w g).interner.size
      rw [hinterner]
      exact htags.tu t l hl
  · exact GraphSpec.ext (hspecNode.trans hnode) (hspecContributors.trans hcontributors) hrefs
      huntagged hreg rfl
  · intro r
    rw [h.graph, hframe]
    cases r <;> rfl

/-! ### Relations -/

/-- A pair that is not there yet is installed as the mutators relate it. -/
theorem installOf_fresh {acc : CallGraph} (hwf : WF acc) (r : Relation) {a b : SId}
    (hfresh : b ∉ (acc.relation r).getD a []) : installOf r acc a b = relateStep r acc a b := by
  have hpush : ∀ {m : UMap SId (List SId)} {i j : SId}, j ∉ m.getD i [] →
      m.upsert i [] (· ++ [j]) = m.upsert i [] (Dedup.pushUnique · j) := by
    intro m i j hj
    have hone : Dedup.pushUnique (m.getD i []) j = m.getD i [] ++ [j] := if_neg hj
    unfold UMap.upsert
    exact congrArg (fun l => AList.insert i l m) hone.symm
  cases r with
  | derivedClass =>
      have hderived := hpush (m := acc.derivedClasses) hfresh
      exact congrArg (fun m => { acc with derivedClasses := m }) hderived
  | methodOverride =>
      have hback : a ∉ acc.overrideBases.getD b [] := fun hc =>
        hfresh (((hwf.overrideBases b).2 a).mp hc)
      have hover := hpush (m := acc.methodOverrides) hfresh
      have hbases := hpush (m := acc.overrideBases) hback
      exact congrArg₂ (fun m m' => { acc with methodOverrides := m, overrideBases := m' })
        hover hbases
  | effectiveImpl => rfl
  | functionReturn =>
      have hnot : b ∉ acc.functionReturns.getD a [] := hfresh
      show _ = CallGraph.relateReturn acc a b
      unfold CallGraph.relateReturn
      rw [if_neg hnot]
      rfl

/-- Relating pairs one after the other. -/
theorem relatePairs_wf_spec (r : Relation) (pairs : List (SId × SId)) :
    ∀ acc : CallGraph, WF acc →
      (∀ pair ∈ pairs, pair.1 < acc.interner.size ∧ pair.2 < acc.interner.size) →
      let acc' := pairs.foldl (fun acc pair => relateStep r acc pair.1 pair.2) acc
      WF acc' ∧ acc'.interner = acc.interner ∧
        acc'.spec = { acc.spec with related := acc'.spec.related } ∧
        ∀ r' x y, y ∈ (acc'.relation r').getD x [] ↔
          y ∈ (acc.relation r').getD x [] ∨ (r' = r ∧ (x, y) ∈ pairs) := by
  induction pairs with
  | nil =>
      intro acc hwf _
      exact ⟨hwf, rfl, rfl, by simp⟩
  | cons pair rest ih =>
      intro acc hwf hids
      obtain ⟨hi, hj⟩ := hids pair List.mem_cons_self
      have hinterner := CallGraph.relateStep_interner r acc pair.1 pair.2
      obtain ⟨hwf', hinterner', hspec', hmem'⟩ := ih (relateStep r acc pair.1 pair.2)
        (hwf.relateStep r hi hj) fun p hp => by
          rw [hinterner]
          exact hids p (List.mem_cons_of_mem _ hp)
      have hspec : (relateStep r acc pair.1 pair.2).spec
          = { acc.spec with related := (relateStep r acc pair.1 pair.2).spec.related } := by
        cases r <;> rfl
      refine ⟨hwf', hinterner'.trans hinterner, ?_, ?_⟩
      · refine hspec'.trans ?_
        rw [hspec]
        rfl
      · intro r' x y
        refine (hmem' r' x y).trans ?_
        rw [CallGraph.mem_relateStep r r' acc pair.1 pair.2 x y, List.mem_cons, Prod.ext_iff]
        tauto

/-- Pairs that are not there yet, each once, are installed as the mutators relate them. -/
theorem installPairs_eq (r : Relation) (pairs : List (SId × SId)) :
    ∀ acc : CallGraph, WF acc →
      (∀ pair ∈ pairs, pair.1 < acc.interner.size ∧ pair.2 < acc.interner.size) → pairs.Nodup →
      (∀ pair ∈ pairs, pair.2 ∉ (acc.relation r).getD pair.1 []) →
      pairs.foldl (fun acc pair => installOf r acc pair.1 pair.2) acc
        = pairs.foldl (fun acc pair => relateStep r acc pair.1 pair.2) acc := by
  induction pairs with
  | nil => exact fun _ _ _ _ _ => rfl
  | cons pair rest ih =>
      intro acc hwf hids hnd hfresh
      obtain ⟨hnotin, hrest⟩ := List.nodup_cons.mp hnd
      obtain ⟨hi, hj⟩ := hids pair List.mem_cons_self
      rw [List.foldl_cons, List.foldl_cons,
        installOf_fresh hwf r (hfresh pair List.mem_cons_self)]
      refine ih _ (hwf.relateStep r hi hj) ?_ hrest ?_
      · intro p hp
        rw [CallGraph.relateStep_interner]
        exact hids p (List.mem_cons_of_mem _ hp)
      · intro p hp hc
        rcases (CallGraph.mem_relateStep r r acc pair.1 pair.2 p.1 p.2).mp hc with hc | ⟨-, h₁, h₂⟩
        · exact hfresh p (List.mem_cons_of_mem _ hp) hc
        · exact hnotin (Prod.ext h₁ h₂ ▸ hp)

theorem nodup_relationPairs (w : HashWalk) {m : UMap SId (List SId)}
    (h : ∀ x, (m.getD x []).Nodup) : (relationPairs w m).Nodup := by
  have hget : ∀ entry ∈ w.walk m, m.getD entry.1 [] = entry.2 := by
    intro entry hentry
    rw [UMap.getD, (UMap.mem_entries m entry.1 entry.2).mp (mem_walk.mp hentry)]
    rfl
  unfold relationPairs
  rw [List.nodup_flatMap]
  refine ⟨?_, ?_⟩
  · intro entry hentry
    refine List.Nodup.map (fun a b hab => (Prod.mk.inj hab).2) ?_
    rw [← hget entry hentry]
    exact h entry.1
  · refine (List.pairwise_map.mp (nodup_walk w m)).imp ?_
    intro entry entry' hne pair hpair hpair'
    obtain ⟨b, -, rfl⟩ := List.mem_map.mp hpair
    obtain ⟨b', -, heq⟩ := List.mem_map.mp hpair'
    exact hne (Prod.mk.inj heq).1.symm

/-- A graph with the nodes and the edges of `g`, and with the pairs of the relations in `done`. -/
structure Related (g : CallGraph) (done : List Relation) (acc : CallGraph) : Prop where
  wf : WF acc
  interner : acc.interner = g.interner
  spec : acc.spec = { g.spec with related := acc.spec.related }
  once : PairsOnce acc
  mem : ∀ r x y, y ∈ (acc.relation r).getD x [] ↔ r ∈ done ∧ y ∈ (g.relation r).getD x []

theorem Related.start (hwf : WF g) (w : HashWalk) : Related g [] (reloadEdges w g) := by
  obtain ⟨hwf', hinterner, hspec, hnone⟩ := reloadEdges_wf_spec hwf w
  refine ⟨hwf', hinterner, hspec, ?_, ?_⟩
  · intro r x
    rw [hnone r]
    exact List.nodup_nil
  · intro r x y
    rw [hnone r]
    simp

/-- The pairs of one more relation. -/
theorem Related.reloadPairs {done : List Relation} {acc : CallGraph} (h : Related g done acc)
    (hwf : WF g) (hpairs : PairsOnce g) (w : HashWalk) {r : Relation} (hr : r ∉ done) :
    Related g (r :: done) (reloadPairs w g r acc) := by
  have hids : ∀ pair ∈ relationPairs w (g.relation r),
      pair.1 < acc.interner.size ∧ pair.2 < acc.interner.size := by
    intro pair hpair
    rw [h.interner]
    exact hwf.ids.related r _ _ (mem_relationPairs.mp hpair)
  have heq : SnapshotIO.reloadPairs w g r acc = _ := installPairs_eq r _ acc h.wf hids
    (nodup_relationPairs w (hpairs r)) fun pair _ hc => hr ((h.mem r _ _).mp hc).1
  obtain ⟨hwf', hinterner, hspec, hmem⟩ := relatePairs_wf_spec r _ acc h.wf hids
  rw [heq]
  refine ⟨hwf', hinterner.trans h.interner, ?_, ?_, ?_⟩
  · refine hspec.trans ?_
    rw [h.spec]
  · exact List.foldlRecOn _ _ (motive := PairsOnce) h.once fun _ honce pair _ =>
      honce.relateStep r pair.1 pair.2
  · intro r' x y
    have hpair : (x, y) ∈ relationPairs w (g.relation r) ↔ y ∈ (g.relation r).getD x [] :=
      mem_relationPairs
    refine (hmem r' x y).trans ?_
    rw [h.mem r' x y, hpair, List.mem_cons]
    constructor
    · rintro (⟨hin, hy⟩ | ⟨rfl, hy⟩)
      · exact ⟨Or.inr hin, hy⟩
      · exact ⟨Or.inl rfl, hy⟩
    · rintro ⟨rfl | hin, hy⟩
      · exact Or.inr ⟨rfl, hy⟩
      · exact Or.inl ⟨hin, hy⟩

/-- The four relations come one after the other. -/
theorem related_reloadGraph (hwf : WF g) (hpairs : PairsOnce g) (w : HashWalk) :
    Related g [.functionReturn, .effectiveImpl, .methodOverride, .derivedClass]
      (reloadGraph w g) := by
  have hderived : Related g [.derivedClass] _ :=
    (Related.start hwf w).reloadPairs hwf hpairs w List.not_mem_nil
  have hoverride : Related g [.methodOverride, .derivedClass] _ :=
    hderived.reloadPairs hwf hpairs w (by decide)
  have himpl : Related g [.effectiveImpl, .methodOverride, .derivedClass] _ :=
    hoverride.reloadPairs hwf hpairs w (by decide)
  exact himpl.reloadPairs hwf hpairs w (by decide)

/-- **A reloaded graph is well formed and stands for what the saved one stands for.** -/
theorem reloadGraph_wf_spec (hwf : WF g) (hpairs : PairsOnce g) (w : HashWalk) :
    WF (reloadGraph w g) ∧ (reloadGraph w g).spec = g.spec := by
  have h := related_reloadGraph hwf hpairs w
  refine ⟨h.wf, ?_⟩
  have hrelated : (reloadGraph w g).spec.related = g.spec.related := by
    funext r x y
    refine propext ?_
    show (reloadGraph w g).interner.idOf y
      ∈ ((reloadGraph w g).relation r).getD ((reloadGraph w g).interner.idOf x) [] ↔ _
    rw [h.interner, h.mem]
    have hdone : r ∈ [Relation.functionReturn, .effectiveImpl, .methodOverride, .derivedClass] := by
      cases r <;> decide
    exact and_iff_right hdone
  rw [h.spec, hrelated]

end SnapshotIO

end Vycor
