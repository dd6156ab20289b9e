/-
The graph section, read back.

A load registers the saved nodes with their contributors, stores the live edges with their
tags, and relates the saved pairs.  Each of these is a step that the mutators take as well,
once it is known that a node, an edge and a pair are saved only once.
-/
import Vycor.Proofs.RelationLists
import Vycor.Proofs.SnapshotContexts
import Vycor.Proofs.Walks

namespace Vycor

open Sticky

namespace SnapshotIO

open CallGraph (WF)

/-! ### What fits the format -/

/-- Every length of the node fits its 32-bit field. -/
structure NodeFits (g : CallGraph) (entry : Σ _ : SId, CallGraphNode) : Prop where
  file : Short entry.2.file
  enclosingClass : Short entry.2.enclosingClass
  contributors : Short (g.nodeContributors.getD entry.1 [])

/-- The strings, nodes, live edges and pairs of a graph fit 32-bit lengths and counts. -/
structure GraphFits (g : CallGraph) : Prop where
  stringCount : Short g.interner.strings
  strings : ∀ s ∈ g.interner.strings, Short s
  nodeCount : Short g.nodes.entries
  nodes : ∀ entry ∈ g.nodes.entries, NodeFits g entry
  edgeCount : g.liveEdgeCount < 2 ^ 32
  refs : ∀ e ∈ g.edges, e.refs < 2 ^ 32
  related : ∀ r, UMap.total List.length (g.relation r) < 2 ^ 32

/-! ### Records -/

/-- What a saved node installs. -/
def reloadNode (g acc : CallGraph) (entry : Σ _ : SId, CallGraphNode) : CallGraph :=
  (g.nodeContributors.getD entry.1 []).foldl (fun acc tu => acc.addContributor entry.1 tu)
    (installNode acc entry.1 (g.interner.idOf entry.2.qualifiedName) entry.2)

/-- The records of a save: the live edges with their positions. -/
def savedEdges (edges : List StoredEdge) : List (StoredEdge × Nat) :=
  edges.zipIdx.filter (·.1.refs ≠ 0)

/-- What a saved edge installs. -/
def reloadEdge (w : HashWalk) (g acc : CallGraph) (stored : StoredEdge × Nat) : CallGraph :=
  (edgeTus w g stored.2).foldl (fun acc' tu => acc'.tagEdges tu [acc.edges.length])
    (installEdge .mutable acc stored.1.toEdgeKey stored.1.refs)

/-- What a pair of a relation installs. -/
def installOf : Relation → CallGraph → SId → SId → CallGraph
  | .derivedClass => installDerived
  | .methodOverride => installOverride
  | .effectiveImpl => installImpl
  | .functionReturn => installReturn

/-- What the saved pairs of a relation install. -/
def reloadPairs (w : HashWalk) (g : CallGraph) (r : Relation) (acc : CallGraph) : CallGraph :=
  (relationPairs w (g.relation r)).foldl (fun acc pair => installOf r acc pair.1 pair.2) acc

/-- The nodes of a load. -/
def reloadNodes (w : HashWalk) (g : CallGraph) : CallGraph :=
  (w.walk g.nodes).foldl (reloadNode g) { interner := g.interner }

/-- The nodes and edges of a load. -/
def reloadEdges (w : HashWalk) (g : CallGraph) : CallGraph :=
  (savedEdges g.edges).foldl (reloadEdge w g) (reloadNodes w g)

/-- The graph a load makes of a saved one. -/
def reloadGraph (w : HashWalk) (g : CallGraph) : CallGraph :=
  reloadPairs w g .functionReturn (reloadPairs w g .effectiveImpl
    (reloadPairs w g .methodOverride (reloadPairs w g .derivedClass (reloadEdges w g))))

variable {w : HashWalk} {g : CallGraph} {heap : Nat}

theorem nodeFlags_read (node : CallGraphNode) :
    (nodeFlags node &&& 1 != 0) = node.isEntryPoint ∧
      (nodeFlags node &&& 2 != 0) = node.isVirtual := by
  unfold nodeFlags
  cases node.isEntryPoint <;> cases node.isVirtual <;> exact ⟨rfl, rfl⟩

theorem interner_addContributors (i : SId) (tus : List SId) (acc : CallGraph) :
    (tus.foldl (fun acc tu => acc.addContributor i tu) acc).interner = acc.interner :=
  List.foldlRecOn tus _ (motive := fun acc' : CallGraph => acc'.interner = acc.interner) rfl
    fun _ h _ _ => h

theorem reads_readNode (hwf : WF g) (hfits : GraphFits g) {entry : Σ _ : SId, CallGraphNode}
    (hentry : entry ∈ g.nodes.entries) {acc : CallGraph} (hacc : acc.interner = g.interner) :
    Reads (readNode .mutable acc) (emitNode g entry) (reloadNode g acc entry) := by
  obtain ⟨i, node⟩ := entry
  have hnode : g.nodes.lookup i = some node := (UMap.mem_entries _ _ _).mp hentry
  obtain ⟨hlt, hres, hmem⟩ := hwf.ids.node i node hnode
  have hsize : g.interner.size < 2 ^ 32 := hfits.stringCount
  have hnodeFits := hfits.nodes _ hentry
  have hdisplay : g.interner.idOf node.qualifiedName < g.interner.size :=
    StringInterner.idOf_lt.mpr hmem
  have hfind : (g.interner.find node.qualifiedName).getD i = g.interner.idOf node.qualifiedName := by
    rw [StringInterner.find, if_pos hmem, Option.getD_some]
  have husr : g.interner.strings[i]? = some node.usr := by
    rw [List.getElem?_eq_getElem hlt, ← hres, StringInterner.resolve, List.getD_eq_getElem _ _ hlt]
  have hname : g.interner.strings[g.interner.idOf node.qualifiedName]? = some node.qualifiedName := by
    have h := StringInterner.resolve_idOf hmem
    rw [StringInterner.resolve, List.getD_eq_getElem _ _ hdisplay] at h
    rw [List.getElem?_eq_getElem hdisplay, h]
  obtain ⟨hentryPoint, hvirtual⟩ := nodeFlags_read node
  unfold readNode emitNode
  rw [hacc, hfind]
  refine (reads_checkedId hsize hlt).bind ((reads_checkedId hsize hdisplay).bind
    ((Reads.lenStr hnodeFits.file).bind ((Reads.u32 node.line).bind ((Reads.u8 _).bind
    ((Reads.lenStr hnodeFits.enclosingClass).bind (Reads.count_bind hnodeFits.contributors
      (fun _ _ => by simp [putU32]) (Reads.ifOk ?_)))))))
  dsimp only
  rw [hentryPoint, hvirtual]
  refine Reads.silent (Reads.entry husr) (Reads.silent (Reads.entry hname) ?_)
  unfold reloadNode
  refine (Reads.loop (fun acc' : CallGraph => acc'.interner = g.interner)
    (g.nodeContributors.getD i []) ?_ _ ?_).1
  · intro tu htu acc' hacc'
    refine ⟨?_, hacc'⟩
    rw [hacc']
    refine Reads.congr ((reads_checkedId hsize (hwf.ids.contributor i tu htu).2).bind ?_)
      (List.append_nil _).symm
    exact (Reads.pure _).ifOk
  · exact hacc

theorem interner_tagAll (tus : List SId) (idxs : List Nat) (acc : CallGraph) :
    (tus.foldl (fun acc tu => acc.tagEdges tu idxs) acc).interner = acc.interner :=
  List.foldlRecOn tus _ (motive := fun acc' : CallGraph => acc'.interner = acc.interner) rfl
    fun _ h _ _ => h

/-- A saved edge is live, at its position. -/
theorem mem_savedEdges {stored : StoredEdge × Nat} :
    stored ∈ savedEdges g.edges ↔ g.edges[stored.2]? = some stored.1 ∧ stored.1.refs ≠ 0 := by
  unfold savedEdges
  rw [List.mem_filter, List.mem_zipIdx_iff_getElem?]
  simp

theorem edgeTus_eq (w : HashWalk) (g : CallGraph) (i : Nat) :
    edgeTus w g i = holders w g.tuEdges i := rfl

theorem edgeTu_lt (hwf : WF g) {i : Nat} {tu : SId}
    (htu : tu ∈ edgeTus w g i) : tu < g.interner.size := by
  have hmem : i ∈ g.tuEdges.getD tu [] := mem_holders.mp htu
  unfold UMap.getD at hmem
  cases hl : g.tuEdges.lookup tu with
  | none =>
      rw [hl] at hmem
      exact absurd hmem List.not_mem_nil
  | some idxs => exact hwf.ids.tuEdge tu idxs hl

theorem reads_readEdge (hwf : WF g) (hfits : GraphFits g) {stored : StoredEdge × Nat}
    (hstored : stored ∈ savedEdges g.edges) {acc : CallGraph} (hacc : acc.interner = g.interner) :
    Reads (readEdge .mutable acc) (emitEdge w g stored) (reloadEdge w g acc stored) := by
  obtain ⟨e, i⟩ := stored
  obtain ⟨he, hne⟩ := mem_savedEdges.mp hstored
  have hsize : g.interner.size < 2 ^ 32 := hfits.stringCount
  have hrefs : e.refs < 2 ^ 32 := hfits.refs e (List.mem_of_getElem? he)
  have hback : (UInt32.ofNat e.refs).toNat = e.refs := UInt32.toNat_ofNat_of_lt' hrefs
  obtain ⟨hcaller, hcallee, hsite⟩ := hwf.ids.edge i e.toEdgeKey ⟨e, he, rfl, Nat.pos_of_ne_zero hne⟩
  have htus : (edgeTus w g i).length < 2 ^ 32 := by
    have hprov := hwf.prov i
    rw [edgeTus_eq, length_holders]
    refine Nat.lt_of_le_of_lt hprov ?_
    simpa [CallGraph.refsAt, he] using hrefs
  unfold readEdge emitEdge
  rw [hacc]
  refine (reads_checkedId hsize hcaller).bind ((reads_checkedId hsize hcallee).bind
    ((reads_checkedId hsize hsite).bind ((Reads.u8 _).bind ((Reads.u8 _).bind ((Reads.u8 _).bind
    ((Reads.u32 e.indirectionDepth).bind ((Reads.u32_ofNat hrefs).bind (Reads.count_bind htus
      (fun _ _ => by simp [putU32]) (Reads.require ?_ (Reads.ifOk ?_))))))))))
  · refine decide_eq_true ?_
    intro hzero
    rw [hzero] at hback
    exact hne hback.symm
  · rw [hback, EdgeKind.ofU8_toU8, Confidence.ofU8_toU8, ExecutionContext.ofU8_toU8]
    unfold reloadEdge
    dsimp only
    refine (Reads.loop (fun acc' : CallGraph => acc'.interner = g.interner)
      (edgeTus w g i) ?_ _ ?_).1
    · intro tu htu acc' hacc'
      refine ⟨?_, hacc'⟩
      rw [hacc']
      refine Reads.congr ((reads_checkedId hsize (edgeTu_lt hwf htu)).bind ?_)
        (List.append_nil _).symm
      exact (Reads.pure _).ifOk
    · exact hacc

theorem mem_relationPairs {w : HashWalk} {m : UMap SId (List SId)} {pair : SId × SId} :
    pair ∈ relationPairs w m ↔ pair.2 ∈ m.getD pair.1 [] := by
  obtain ⟨a, b⟩ := pair
  unfold relationPairs
  simp only [List.mem_flatMap, List.mem_map, mem_walk, Prod.mk.injEq]
  constructor
  · rintro ⟨⟨i, l⟩, hentry, b', hb, rfl, rfl⟩
    rw [UMap.getD, (UMap.mem_entries _ _ _).mp hentry]
    exact hb
  · intro hb
    unfold UMap.getD at hb
    cases hl : m.lookup a with
    | none =>
        rw [hl] at hb
        simp at hb
    | some l =>
        rw [hl] at hb
        exact ⟨⟨a, l⟩, (UMap.mem_entries _ _ _).mpr hl, b, hb, rfl, rfl⟩

theorem length_relationPairs (w : HashWalk) (m : UMap SId (List SId)) :
    (relationPairs w m).length = UMap.total List.length m := by
  unfold relationPairs UMap.total
  rw [List.length_flatMap]
  refine (((w.perm m).map _).sum_eq).trans ?_
  congr 1
  exact List.map_congr_left fun entry _ => List.length_map _

theorem interner_installOf (r : Relation) (acc : CallGraph) (a b : SId) :
    (installOf r acc a b).interner = acc.interner := by
  cases r <;> rfl

/-- The pairs of a relation read back into a graph with the strings of their own. -/
theorem reads_readPairs (w : HashWalk) (hwf : WF g) (hfits : GraphFits g) (r : Relation)
    {acc : CallGraph} (hacc : acc.interner = g.interner) :
    Reads (counted (readPair (installOf r)) acc) (emitPairs w (g.relation r))
        (reloadPairs w g r acc)
      ∧ (reloadPairs w g r acc).interner = g.interner := by
  have hsize : g.interner.size < 2 ^ 32 := hfits.stringCount
  refine Reads.counted (fun acc : CallGraph => acc.interner = g.interner) ?_
    (fun pair _ => by simp [emitPair, putU32]) ?_ hacc
  · rw [length_relationPairs]
    exact hfits.related r
  · intro pair hpair acc' hacc'
    refine ⟨?_, (interner_installOf r _ _ _).trans hacc'⟩
    obtain ⟨ha, hb⟩ := hwf.ids.related r _ _ (mem_relationPairs.mp hpair)
    unfold readPair emitPair
    rw [hacc']
    refine (reads_checkedId hsize ha).bind ?_
    refine Reads.congr ((reads_checkedId hsize hb).bind ?_) (List.append_nil _).symm
    exact (Reads.pure _).ifOk

/-! ### The section -/

theorem emitNode_pos (g : CallGraph) (entry : Σ _ : SId, CallGraphNode) :
    0 < (emitNode g entry).length := by
  simp [emitNode, putU32]

theorem emitEdge_pos (w : HashWalk) (g : CallGraph) (stored : StoredEdge × Nat) :
    0 < (emitEdge w g stored).length := by
  simp [emitEdge, putU32]

theorem length_savedEdges (hwf : WF g) : (savedEdges g.edges).length = g.liveEdgeCount := by
  have hmap : (savedEdges g.edges).map Prod.fst = g.edges.filter (·.refs ≠ 0) := by
    have h : (g.edges.zipIdx.map Prod.fst).filter (fun e => decide (e.refs ≠ 0)) = _ :=
      List.filter_map
    rw [List.zipIdx_map_fst] at h
    exact h.symm
  rw [← List.length_map Prod.fst, hmap, hwf.edges.count, ← List.countP_eq_length_filter]
  refine List.countP_congr fun e _ => ?_
  simp [Nat.pos_iff_ne_zero]

/-- **The graph section reads back as the reloaded graph.** -/
theorem reads_readGraph (hwf : WF g) (hfits : GraphFits g) :
    Reads (readGraph heap .mutable) (emitGraph w g) (reloadGraph w g) := by
  have hinterner : Reads (readInternerTable heap) (emitInternerTable g.interner) g.interner :=
    (Reads.listReserved hfits.stringCount (fun s _ => putLenStr_pos s)
      fun s hs => Reads.lenStr (hfits.strings s hs)).last
  obtain ⟨hnodes, hinodes⟩ : Reads (readNodes heap .mutable g.interner)
      (putList (emitNode g) (w.walk g.nodes)) (reloadNodes w g)
      ∧ (reloadNodes w g).interner = g.interner := by
    refine Reads.countedReserved (fun acc : CallGraph => acc.interner = g.interner) ?_
      (fun entry _ => emitNode_pos g entry) ?_ rfl
    · rw [(w.perm g.nodes).length_eq]
      exact hfits.nodeCount
    · intro entry hentry acc hacc
      exact ⟨reads_readNode hwf hfits (mem_walk.mp hentry) hacc,
        (interner_addContributors _ _ _).trans hacc⟩
  obtain ⟨hedges, hiedges⟩ : Reads (readEdges heap .mutable (reloadNodes w g))
      (putList (emitEdge w g) (savedEdges g.edges)) (reloadEdges w g)
      ∧ (reloadEdges w g).interner = g.interner := by
    refine Reads.countedReserved (fun acc : CallGraph => acc.interner = g.interner) ?_
      (fun stored _ => emitEdge_pos w g stored) ?_ hinodes
    · rw [length_savedEdges hwf]
      exact hfits.edgeCount
    · intro stored hstored acc hacc
      exact ⟨reads_readEdge hwf hfits hstored hacc, (interner_tagAll _ _ _).trans hacc⟩
  obtain ⟨hderived, hiderived⟩ := reads_readPairs w hwf hfits .derivedClass hiedges
  obtain ⟨hoverride, hioverride⟩ := reads_readPairs w hwf hfits .methodOverride hiderived
  obtain ⟨himpl, hiimpl⟩ := reads_readPairs w hwf hfits .effectiveImpl hioverride
  obtain ⟨hreturn, -⟩ := reads_readPairs w hwf hfits .functionReturn hiimpl
  unfold readGraph emitGraph
  rw [← List.append_assoc (putU32 _)]
  refine hinterner.bind (Reads.ifOk (hnodes.bind ?_))
  refine Reads.bind (hedges.congr ?_) (hderived.bind (hoverride.bind (himpl.bind hreturn)))
  rw [putList, length_savedEdges hwf]
  rfl

end SnapshotIO

end Vycor
