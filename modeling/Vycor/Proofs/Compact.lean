/-
Compacting changes no answer.

`compact` renumbers the live edges and rewrites every map that refers to a position.  The
renumbering matches live positions one to one, so a key's registrations and each TU's
share of them are found at the new position as they were at the old one.
-/
import Vycor.Proofs.RemoveTUs

namespace Vycor

namespace CallGraph

open Postings (count_filterMap_unique count_filterMap_none)

/-! ### The renumbering -/

section Renumber

variable {edges : List StoredEdge} {index : UMap (EdgeKey SId) Nat} {c : Compacted}

theorem moved_iff {remap : List (Option Nat)} {i j : Nat} :
    remap.getD i none = some j ↔ remap[i]? = some (some j) := by
  rw [List.getD_eq_getElem?_getD]
  cases remap[i]? <;> simp

theorem Compacting.refsAt_moved (h : Compacting edges c) {i j : Nat}
    (hij : c.remap.getD i none = some j) : refsAt c.edges j = refsAt edges i := by
  obtain ⟨e, he, he', -⟩ := h.kept i j (moved_iff.mp hij)
  simp [refsAt, he, he']

/-- A live position has a new one. -/
theorem Compacting.of_live (h : Compacting edges c) {i : Nat} {k : EdgeKey SId}
    (hl : LiveAt edges i k) : ∃ j, c.remap.getD i none = some j ∧ LiveAt c.edges j k := by
  have hlt : i < c.remap.length := by
    rw [h.length]
    exact hl.lt
  have hget : c.remap[i]? = some c.remap[i] := List.getElem?_eq_getElem hlt
  cases hj : c.remap[i] with
  | none =>
      rw [hj] at hget
      have hzero := h.dropped i hget
      have := hl.refs_pos
      omega
  | some j =>
      rw [hj] at hget
      obtain ⟨e, he, he', hpos⟩ := h.kept i j hget
      obtain ⟨x, hx, hk, -⟩ := hl
      rw [he] at hx
      injection hx with hx
      exact ⟨j, moved_iff.mpr hget, e, he', by rw [hx]; exact hk, hpos⟩

theorem Compacting.to_live (h : Compacting edges c) {j : Nat} {k : EdgeKey SId}
    (hl : LiveAt c.edges j k) : ∃ i, c.remap.getD i none = some j ∧ LiveAt edges i k := by
  obtain ⟨i, hi⟩ := h.onto j hl.lt
  obtain ⟨e, he, he', hpos⟩ := h.kept i j hi
  obtain ⟨x, hx, hk, -⟩ := hl
  rw [he'] at hx
  injection hx with hx
  exact ⟨i, moved_iff.mpr hi, e, he, by rw [hx]; exact hk, hpos⟩

/-- What is read at a key's new position is what was read at its old one. -/
theorem Compacting.atKey (h : Compacting edges c) (hindex : Indexed edges index) {f f' : Nat → Nat}
    (hf : ∀ i j, c.remap.getD i none = some j → f' j = f i) (k : EdgeKey SId) :
    atKey c.edgeIndex k f' = atKey index k f := by
  unfold CallGraph.atKey
  cases hl : index.lookup k with
  | some i =>
      obtain ⟨j, hij, hlive⟩ := h.of_live ((hindex k i).mp hl)
      rw [(h.table.indexed k j).mpr hlive]
      exact hf i j hij
  | none =>
      cases hl' : c.edgeIndex.lookup k with
      | none => rfl
      | some j =>
          obtain ⟨i, -, hlive⟩ := h.to_live ((h.table.indexed k j).mp hl')
          rw [(hindex k i).mpr hlive] at hl
          simp at hl

theorem Compacting.count_moved (h : Compacting edges c) {i j : Nat}
    (hij : c.remap.getD i none = some j) (l : List Nat) :
    (l.filterMap fun old => c.remap.getD old none).count j = l.count i := by
  refine count_filterMap_unique ?_ l
  intro x
  constructor
  · intro hx
    exact h.inj x i j (moved_iff.mp hx) (moved_iff.mp hij)
  · rintro rfl
    exact hij

end Renumber

/-! ### The TU map

A TU's list under the new positions. Tombstones drop out of it, but they had no
registrations, so the numbers stay.
-/

/-- The TU map of a compacted graph. -/
def movedEdges (remap : List (Option Nat)) (tuEdges : UMap SId (List Nat)) : UMap SId (List Nat) :=
  UMap.filterMapVals (fun indices =>
    let vec := indices.filterMap fun old => remap.getD old none
    if vec = [] then none else some vec) tuEdges

theorem getD_movedEdges (remap : List (Option Nat)) (tuEdges : UMap SId (List Nat)) (t : SId) :
    (movedEdges remap tuEdges).getD t []
      = (tuEdges.getD t []).filterMap fun old => remap.getD old none :=
  Postings.getD_renumber _ tuEdges t

/-- `tuEdges` lists the new positions of the live edges as often as `g` lists the old ones. -/
structure Retagged (g : CallGraph) (c : Compacted) (tuEdges : UMap SId (List Nat)) : Prop where
  tu : ∀ t l, tuEdges.lookup t = some l → t < g.interner.size
  count : ∀ t i j, c.remap.getD i none = some j →
    (tuEdges.getD t []).count j = (g.tuEdges.getD t []).count i
  fresh : ∀ t j, (∀ i, c.remap.getD i none ≠ some j) → j ∉ tuEdges.getD t []

variable {g : CallGraph}

namespace Retagged

variable {c : Compacted} {tuEdges : UMap SId (List Nat)}

theorem total (h : Retagged g c tuEdges) {i j : Nat} (hij : c.remap.getD i none = some j) :
    UMap.total (List.count j) tuEdges = UMap.total (List.count i) g.tuEdges :=
  UMap.total_congr_getD [] rfl rfl tuEdges g.tuEdges fun t => h.count t i j hij

theorem prov (h : Retagged g c tuEdges) (hc : Compacting g.edges c) (hwf : WF g) :
    ProvOK c.edges tuEdges := by
  intro j
  by_cases hex : ∃ i, c.remap.getD i none = some j
  · obtain ⟨i, hij⟩ := hex
    rw [h.total hij, hc.refsAt_moved hij]
    exact hwf.prov i
  · have hzero : UMap.total (List.count j) tuEdges = 0 :=
      (UMap.total_eq_zero [] rfl).mpr fun t =>
        List.count_eq_zero.mpr (h.fresh t j fun i hi => hex ⟨i, hi⟩)
    omega

/-- A graph over the renumbered tables has the registrations that `g` has. -/
theorem spec {x : CallGraph} (h : Retagged g c x.tuEdges) (hc : Compacting g.edges c) (hwf : WF g)
    (hinterner : x.interner = g.interner) (hedges : x.edges = c.edges)
    (hindex : x.edgeIndex = c.edgeIndex) :
    x.spec.refs = g.spec.refs ∧ x.spec.untagged = g.spec.untagged ∧ x.spec.reg = g.spec.reg := by
  refine ⟨?_, ?_, ?_⟩
  · funext k
    show atKey x.edgeIndex (k.map x.interner.idOf) (refsAt x.edges) = _
    rw [hindex, hinterner, hedges]
    exact hc.atKey hwf.edges.indexed (fun i j hij => hc.refsAt_moved hij) _
  · funext k
    show atKey x.edgeIndex (k.map x.interner.idOf) (looseAt x.edges x.tuEdges) = _
    rw [hindex, hinterner, hedges]
    refine hc.atKey hwf.edges.indexed ?_ _
    intro i j hij
    show refsAt c.edges j - UMap.total (List.count j) x.tuEdges = _
    rw [h.total hij, hc.refsAt_moved hij]
    rfl
  · funext tu k
    show atKey x.edgeIndex (k.map x.interner.idOf)
      (fun i => (x.tuEdges.getD (x.interner.idOf tu) []).count i) = _
    rw [hindex, hinterner]
    exact hc.atKey hwf.edges.indexed (fun i j hij => h.count _ i j hij) _

end Retagged

/-! ### Compacting -/

theorem retagged_movedEdges (hwf : WF g) {c : Compacted} (hc : Compacting g.edges c) :
    Retagged g c (movedEdges c.remap g.tuEdges) := by
  refine ⟨?_, ?_, ?_⟩
  · intro t l hl
    unfold movedEdges at hl
    rw [UMap.lookup_filterMapVals] at hl
    obtain ⟨l', hl', -⟩ := Option.bind_eq_some_iff.mp hl
    exact hwf.ids.tuEdge t l' hl'
  · intro t i j hij
    rw [getD_movedEdges, hc.count_moved hij]
  · intro t j hnew
    rw [getD_movedEdges]
    exact List.count_eq_zero.mp (count_filterMap_none hnew _)

/-- **Compacting keeps the invariant and the abstract graph.** -/
theorem compact_wf_spec (hwf : WF g) : WF g.compact ∧ g.compact.spec = g.spec := by
  have hc := compacting_edges hwf.edges.indexed
  set c := g.edges.foldl compactEdge {} with hcdef
  have heq : g.compact = { g with
      edges := c.edges, edgeIndex := c.edgeIndex, outEdges := c.outEdges, inEdges := c.inEdges
      tuEdges := movedEdges c.remap g.tuEdges } := rfl
  have htags := retagged_movedEdges hwf hc
  rw [heq]
  refine ⟨{ hwf with
    ids := { hwf.ids with edge := ?_, tuEdge := htags.tu }
    edges := ?_
    prov := htags.prov hc hwf }, ?_⟩
  · intro j k hl
    obtain ⟨i, -, hlive⟩ := hc.to_live hl
    exact hwf.ids.edge i k hlive
  · have htable := hc.table
    rw [← hwf.edges.count] at htable
    exact htable
  · obtain ⟨hrefs, huntagged, hreg⟩ := Retagged.spec (x := { g with
      edges := c.edges, edgeIndex := c.edgeIndex, outEdges := c.outEdges, inEdges := c.inEdges
      tuEdges := movedEdges c.remap g.tuEdges }) htags hc hwf rfl rfl rfl
    exact GraphSpec.ext rfl rfl hrefs huntagged hreg rfl

end CallGraph
end Vycor
