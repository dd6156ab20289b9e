/-
The live edges of a graph, in order.

An edge that is registered again keeps its place, a new one goes to the end, and a removal
only takes edges out.  So the order of the live edges (`liveOrder`) is settled by the calls,
whatever tombstones stand between them and whenever these were dropped.  The out-lists are
ascending (`InOrder`): the first edge a query meets there is the first in that order.
-/
import Vycor.Proofs.EdgeViews
import Vycor.Proofs.Provenance

namespace Vycor

namespace CallGraph

open Dedup

variable {g g' : CallGraph}

/-- The keys of the live edges, in the order of the table. -/
def liveOrder (g : CallGraph) : List (EdgeKey SId) :=
  (g.edges.filter fun e => 0 < e.refs).map fun e => e.toEdgeKey

/-- **The out-lists are ascending.** -/
def InOrder (g : CallGraph) : Prop := ∀ u, (g.outEdges.getD u []).Pairwise (· < ·)

theorem mem_liveOrder {k : EdgeKey SId} : k ∈ g.liveOrder ↔ ∃ i, LiveAt g.edges i k := by
  unfold liveOrder
  rw [List.mem_map]
  constructor
  · rintro ⟨e, he, rfl⟩
    obtain ⟨hmem, hpos⟩ := List.mem_filter.mp he
    obtain ⟨i, hi⟩ := List.getElem?_of_mem hmem
    exact ⟨i, e, hi, rfl, by simpa using hpos⟩
  · rintro ⟨i, e, hi, rfl, hpos⟩
    exact ⟨e, List.mem_filter.mpr ⟨List.mem_of_getElem? hi, by simpa using hpos⟩, rfl⟩

theorem nodup_liveOrder (h : Indexed g.edges g.edgeIndex) : g.liveOrder.Nodup := by
  unfold liveOrder List.Nodup
  rw [List.pairwise_map, List.pairwise_filter, List.pairwise_iff_getElem]
  intro i j hi hj hij hposi hposj heq
  have hi' : LiveAt g.edges i g.edges[i].toEdgeKey :=
    ⟨g.edges[i], List.getElem?_eq_getElem hi, rfl, by simpa using hposi⟩
  have hj' : LiveAt g.edges j g.edges[i].toEdgeKey :=
    ⟨g.edges[j], List.getElem?_eq_getElem hj, heq.symm, by simpa using hposj⟩
  exact absurd (h.position_unique hi' hj') (Nat.ne_of_lt hij)

/-- The edges that are live are those of the abstract graph. -/
theorem WF.mem_liveOrder_spec (hwf : WF g) (k : EdgeKey SId) :
    k ∈ g.liveOrder ↔
      ∃ k', g.spec.Live k' ∧ Interned g.interner k' ∧ k = k'.map g.interner.idOf :=
  mem_liveOrder.trans (hwf.exists_liveAt k)

/-! ### Storing an edge -/

theorem liveOrder_modify {edges : List StoredEdge} {idx : Nat} {key : EdgeKey SId}
    (hlive : LiveAt edges idx key) (n : Nat) :
    ((edges.modify idx fun e => { e with refs := e.refs + n }).filter fun e => 0 < e.refs).map
        (fun e => e.toEdgeKey)
      = (edges.filter fun e => 0 < e.refs).map fun e => e.toEdgeKey := by
  obtain ⟨e, he, -, hpos⟩ := hlive
  obtain ⟨hlt, rfl⟩ := List.getElem?_eq_some_iff.mp he
  have hsplit : edges = edges.take idx ++ edges[idx] :: edges.drop (idx + 1) := by
    rw [← List.drop_eq_getElem_cons hlt, List.take_append_drop]
  have hmore : 0 < edges[idx].refs + n := Nat.add_pos_left hpos n
  rw [List.modify_eq_take_cons_drop hlt]
  conv_rhs => rw [hsplit]
  simp only [List.filter_append, List.map_append, List.filter_cons, decide_eq_true hpos,
    decide_eq_true hmore, if_true, List.map_cons]

/-- **A key keeps its place; a new one goes to the end.** -/
theorem liveOrder_storeEdge (h : Indexed g.edges g.edgeIndex) (key : EdgeKey SId) {n : Nat}
    (hn : 0 < n) : (g.storeEdge key n).liveOrder = pushUnique g.liveOrder key := by
  unfold CallGraph.storeEdge pushUnique
  cases hl : g.edgeIndex.lookup key with
  | some idx =>
      have hlive := (h key idx).mp hl
      rw [if_pos (mem_liveOrder.mpr ⟨idx, hlive⟩)]
      exact liveOrder_modify hlive n
  | none =>
      have hfresh : key ∉ g.liveOrder := by
        intro hmem
        obtain ⟨i, hi⟩ := mem_liveOrder.mp hmem
        rw [(h key i).mpr hi] at hl
        exact absurd hl (by simp)
      rw [if_neg hfresh]
      show ((g.edges ++ [({ key with refs := n } : StoredEdge)]).filter fun e => 0 < e.refs).map
        (fun e => e.toEdgeKey) = _
      rw [List.filter_append, List.map_append]
      simp [liveOrder, hn]

/-- A list that gets the next position stays ascending. -/
theorem ascending_push {adj : UMap SId (List Nat)} {n : Nat} (u : SId)
    (h : ∀ v, (adj.getD v []).Pairwise (· < ·)) (hlt : ∀ i ∈ adj.getD u [], i < n) (v : SId) :
    ((adj.upsert u [] (· ++ [n])).getD v []).Pairwise (· < ·) := by
  rw [UMap.getD_upsert]
  split
  · rw [List.pairwise_append]
    refine ⟨h u, List.pairwise_singleton _ _, ?_⟩
    intro i hi j hj
    rw [List.mem_singleton.mp hj]
    exact hlt i hi
  · exact h v

theorem InOrder.storeEdge (h : g.InOrder) (hout : Adjacent EdgeKey.caller g.edges g.outEdges)
    (key : EdgeKey SId) (n : Nat) : (g.storeEdge key n).InOrder := by
  unfold CallGraph.storeEdge
  cases g.edgeIndex.lookup key with
  | some idx => exact h
  | none =>
      refine ascending_push key.caller h ?_
      intro i hi
      obtain ⟨k, hlive, -⟩ := ((hout key.caller).2 i).mp hi
      exact hlive.lt

/-! ### Steps that leave the edges alone -/

/-- What the order of the edges is read off. -/
def edgeSide (g : CallGraph) : List StoredEdge × UMap SId (List Nat) := (g.edges, g.outEdges)

theorem InOrder.frame (h : g.InOrder) (hside : g'.edgeSide = g.edgeSide) : g'.InOrder := by
  have hout : g'.outEdges = g.outEdges := congrArg Prod.snd hside
  intro u
  rw [hout]
  exact h u

theorem liveOrder_frame (hside : g'.edgeSide = g.edgeSide) : g'.liveOrder = g.liveOrder := by
  have hedges : g'.edges = g.edges := congrArg Prod.fst hside
  unfold liveOrder
  rw [hedges]

theorem edgeSide_putNode (g : CallGraph) (i d : SId) (node : CallGraphNode) :
    (g.putNode i d node).edgeSide = g.edgeSide := by
  unfold putNode
  split <;> rfl

theorem edgeSide_relateStep (r : Relation) (g : CallGraph) (i j : SId) :
    (relateStep r g i j).edgeSide = g.edgeSide := by
  cases r <;> rfl

theorem edgeSide_dropContributor (tuId : SId) (g : CallGraph) (nodeId : SId) :
    (dropContributor tuId g nodeId).edgeSide = g.edgeSide
      ∧ (dropContributor tuId g nodeId).interner = g.interner := by
  unfold dropContributor eraseNode
  split
  · exact ⟨rfl, rfl⟩
  · dsimp only
    split
    · split <;> exact ⟨rfl, rfl⟩
    · exact ⟨rfl, rfl⟩

theorem edgeSide_dropNodes (g : CallGraph) (tuId : SId) :
    (g.dropNodes tuId).edgeSide = g.edgeSide ∧ (g.dropNodes tuId).interner = g.interner := by
  unfold CallGraph.dropNodes
  split
  · exact ⟨rfl, rfl⟩
  · rename_i nodeIds _
    refine List.foldlRecOn nodeIds (dropContributor tuId)
      (motive := fun g' : CallGraph => g'.edgeSide = g.edgeSide ∧ g'.interner = g.interner)
      ⟨rfl, rfl⟩ ?_
    intro g' hg' nodeId _
    obtain ⟨hside, hinterner⟩ := edgeSide_dropContributor tuId g' nodeId
    exact ⟨hside.trans hg'.1, hinterner.trans hg'.2⟩

theorem edgeSide_dropAll (tuIds : List SId) (g : CallGraph) :
    (tuIds.foldl CallGraph.dropNodes g).edgeSide = g.edgeSide
      ∧ (tuIds.foldl CallGraph.dropNodes g).interner = g.interner := by
  refine List.foldlRecOn tuIds CallGraph.dropNodes
    (motive := fun g' : CallGraph => g'.edgeSide = g.edgeSide ∧ g'.interner = g.interner)
    ⟨rfl, rfl⟩ ?_
  intro g' hg' tuId _
  obtain ⟨hside, hinterner⟩ := edgeSide_dropNodes g' tuId
  exact ⟨hside.trans hg'.1, hinterner.trans hg'.2⟩

/-! ### Removal and compaction -/

/-- Fewer registrations leave fewer edges, in the same order. -/
theorem liveOrder_sublist {edges edges' : List StoredEdge}
    (h : List.Forall₂ (fun e' e : StoredEdge => e'.toEdgeKey = e.toEdgeKey ∧ e'.refs ≤ e.refs)
      edges' edges) :
    ((edges'.filter fun e => 0 < e.refs).map fun e => e.toEdgeKey).Sublist
      ((edges.filter fun e => 0 < e.refs).map fun e => e.toEdgeKey) := by
  induction h with
  | nil => exact List.Sublist.refl _
  | @cons e' e rest' rest he _ ih =>
      obtain ⟨hkey, hle⟩ := he
      rw [List.filter_cons, List.filter_cons]
      by_cases hpos' : 0 < e'.refs
      · have hpos : 0 < e.refs := Nat.lt_of_lt_of_le hpos' hle
        rw [if_pos (decide_eq_true hpos'), if_pos (decide_eq_true hpos), List.map_cons,
          List.map_cons, hkey]
        exact ih.cons_cons _
      · rw [if_neg (by simpa using hpos')]
        split
        · exact ih.cons _
        · exact ih

theorem Releasing.pointwise {r : Release} (h : Releasing g r) :
    List.Forall₂ (fun e' e : StoredEdge => e'.toEdgeKey = e.toEdgeKey ∧ e'.refs ≤ e.refs)
      r.g.edges g.edges := by
  have hlength : r.g.edges.length = g.edges.length := by
    refine Nat.le_antisymm ?_ ?_
    · refine Nat.le_of_not_lt fun hlt => ?_
      have hkey := h.keys g.edges.length
      rw [List.getElem?_eq_none (Nat.le_refl _), List.getElem?_eq_getElem hlt] at hkey
      exact absurd hkey (by simp)
    · refine Nat.le_of_not_lt fun hlt => ?_
      have hkey := h.keys r.g.edges.length
      rw [List.getElem?_eq_none (Nat.le_refl _), List.getElem?_eq_getElem hlt] at hkey
      exact absurd hkey (by simp)
  refine List.forall₂_iff_get.mpr ⟨hlength, ?_⟩
  intro i hi' hi
  have hkey := h.keys i
  have hless := h.less i
  unfold refsAt at hless
  rw [List.getElem?_eq_getElem hi', List.getElem?_eq_getElem hi] at hkey hless
  exact ⟨Option.some.inj hkey, hless⟩

/-- **A removal takes edges out, and leaves the rest in order.** -/
theorem removeTUs_order (hwf : WF g) (h : g.InOrder) (tus : List Str) :
    (g.removeTUs tus).1.InOrder ∧ (g.removeTUs tus).1.liveOrder.Sublist g.liveOrder ∧
      (g.removeTUs tus).1.interner = g.interner := by
  have hr := (released hwf tus).releasing
  set r := (tus.filterMap g.interner.find).foldl releaseTU { g } with hrdef
  obtain ⟨hside, hinterner⟩ := edgeSide_dropAll (tus.filterMap g.interner.find) (scrubbed r)
  have hout : r.g.outEdges = g.outEdges := by
    have hrest := congrArg CallGraph.outEdges hr.rest
    exact hrest
  have hscrubbed : (scrubbed r).InOrder := by
    intro u
    show ((Postings.scrub r.g.outEdges r.affectedCallers r.dead).getD u []).Pairwise (· < ·)
    rw [hout, Postings.getD_scrub]
    split
    · exact (h u).filter _
    · exact h u
  refine ⟨hscrubbed.frame hside, ?_, hinterner.trans hr.interner⟩
  show (((tus.filterMap g.interner.find).foldl CallGraph.dropNodes (scrubbed r)).liveOrder).Sublist _
  rw [liveOrder_frame hside]
  exact liveOrder_sublist hr.pointwise

theorem compactEdge_order (pre : List StoredEdge) (c : Compacted) :
    (pre.foldl compactEdge c).edges = c.edges ++ pre.filter (·.refs ≠ 0) := by
  induction pre generalizing c with
  | nil => simp
  | cons e rest ih =>
      rw [List.foldl_cons, ih]
      unfold compactEdge
      by_cases hz : e.refs = 0 <;> simp [hz]

theorem liveOrder_live {edges edges' : List StoredEdge} (h : edges' = edges.filter (·.refs ≠ 0)) :
    (edges'.filter fun e => 0 < e.refs).map (fun e => e.toEdgeKey)
      = (edges.filter fun e => 0 < e.refs).map fun e => e.toEdgeKey := by
  subst h
  rw [List.filter_filter]
  congr 1
  refine List.filter_congr fun e _ => ?_
  simp only [ne_eq, decide_not, Bool.and_eq_left_iff_imp, decide_eq_true_eq, Bool.not_eq_true',
    decide_eq_false_iff_not]
  exact Nat.ne_of_gt

/-- The out-lists that compacting builds are ascending. -/
theorem compacting_inOrder (pre : List StoredEdge) (u : SId) :
    ((pre.foldl compactEdge {}).outEdges.getD u []).Pairwise (· < ·) ∧
      ∀ i ∈ (pre.foldl compactEdge {}).outEdges.getD u [],
        i < (pre.foldl compactEdge {}).edges.length := by
  induction pre using List.reverseRecOn generalizing u with
  | nil => exact ⟨List.Pairwise.nil, fun i hi => absurd hi List.not_mem_nil⟩
  | append_singleton pre e ih =>
      rw [List.foldl_append, List.foldl_cons, List.foldl_nil]
      set c := pre.foldl compactEdge {} with hc
      unfold compactEdge
      split
      · exact ih u
      · refine ⟨ascending_push e.caller (fun v => (ih v).1) (ih e.caller).2 u, ?_⟩
        intro i hi
        show i < (c.edges ++ [e]).length
        rw [List.length_append, List.length_singleton]
        rw [UMap.getD_upsert] at hi
        split at hi
        · rcases List.mem_append.mp hi with hold | hnew
          · exact Nat.lt_succ_of_lt ((ih e.caller).2 i hold)
          · rw [List.mem_singleton.mp hnew]
            exact Nat.lt_succ_self _
        · exact Nat.lt_succ_of_lt ((ih u).2 i hi)

theorem compact_order (g : CallGraph) :
    g.compact.InOrder ∧ g.compact.liveOrder = g.liveOrder := by
  refine ⟨fun u => (compacting_inOrder g.edges u).1, ?_⟩
  exact liveOrder_live (by
    show (g.edges.foldl compactEdge {}).edges = _
    rw [compactEdge_order]
    rfl)

end CallGraph

end Vycor
