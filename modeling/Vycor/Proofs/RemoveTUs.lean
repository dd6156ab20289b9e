/-
Removing translation units.

`removeTUs` works in two passes over the tables.  The first releases registrations: the
edge table stays in step with itself once the dead positions are scrubbed from the
adjacency vectors.  The second takes the TUs off the nodes they contribute.  The abstract
removal splits the same way, so each pass is matched with its own half.
-/
import Vycor.Proofs.Absorb

namespace Vycor

namespace CallGraph

open StringInterner

variable {g : CallGraph}

/-! ### Releasing

The TUs are released one after the other before anything is scrubbed, so the
invariant of this pass is about the tables as they stand in between.
-/

theorem Releasing.interner {r : Release} (h : Releasing g r) : r.g.interner = g.interner := by
  have hrest := congrArg CallGraph.interner h.rest
  exact hrest

theorem liveAt_of_less {edges edges' : List StoredEdge}
    (hkeys : ∀ i : Nat,
      (edges'[i]?).map StoredEdge.toEdgeKey = (edges[i]?).map StoredEdge.toEdgeKey)
    (hless : ∀ i, refsAt edges' i ≤ refsAt edges i) {i : Nat} {k : EdgeKey SId}
    (h : LiveAt edges' i k) : LiveAt edges i k := by
  obtain ⟨e', he', hk, hpos⟩ := h
  have hrefs : refsAt edges' i = e'.refs := by simp [refsAt, he']
  have hle := hless i
  obtain ⟨-, e, he, -, hpos'⟩ := refsAt_pos.mp (show 0 < refsAt edges i by omega)
  have hkey := hkeys i
  rw [he, he'] at hkey
  simp only [Option.map_some, Option.some.injEq] at hkey
  exact ⟨e, he, hkey.symm.trans hk, hpos'⟩

/-- What is read at a key's position does not notice that others died, if it is zero at
the positions that died. -/
theorem atKey_released {edges edges' : List StoredEdge} {index index' : UMap (EdgeKey SId) Nat}
    (h : Indexed edges index) (h' : Indexed edges' index')
    (hkeys : ∀ i : Nat,
      (edges'[i]?).map StoredEdge.toEdgeKey = (edges[i]?).map StoredEdge.toEdgeKey)
    (hless : ∀ i, refsAt edges' i ≤ refsAt edges i) {f : Nat → Nat}
    (hf : ∀ i, refsAt edges' i = 0 → f i = 0) (k : EdgeKey SId) :
    atKey index' k f = atKey index k f := by
  unfold atKey
  cases hl' : index'.lookup k with
  | some i =>
      rw [(h k i).mpr (liveAt_of_less hkeys hless ((h' k i).mp hl'))]
  | none =>
      cases hl : index.lookup k with
      | none => rfl
      | some i =>
          -- the edge died: had it a registration left, it would be indexed
          have hzero : refsAt edges' i = 0 := by
            by_contra hne
            obtain ⟨-, e', he', -, hpos⟩ := refsAt_pos.mp (Nat.pos_of_ne_zero hne)
            obtain ⟨e, he, hk, -⟩ := (h k i).mp hl
            have hkey := hkeys i
            rw [he, he'] at hkey
            simp only [Option.map_some, Option.some.injEq] at hkey
            have hlive := (h' k i).mpr ⟨e', he', hkey.trans hk, hpos⟩
            rw [hl'] at hlive
            simp at hlive
          exact (hf i hzero).symm

/-- The first pass after the TUs `tus`. -/
structure Released (g : CallGraph) (tus : List Str) (r : Release) : Prop where
  releasing : Releasing g r
  prov : ProvOK r.g.edges r.g.tuEdges
  tuEdge : ∀ t l, r.g.tuEdges.lookup t = some l → t < g.interner.size
  spec : r.g.spec = tus.foldl GraphSpec.releaseTU g.spec

/-- The spec of a TU that was never interned has nothing to release. -/
theorem Released.unknown {tus : List Str} {r : Release} (h : Released g tus r) {tu : Str}
    (htu : tu ∉ g.interner.strings) : Released g (tus ++ [tu]) r := by
  refine { h with spec := ?_ }
  have hzero : ∀ k, r.g.spec.reg tu k = 0 := by
    intro k
    have hnil : r.g.tuEdges.getD (r.g.interner.idOf tu) [] = [] := by
      rw [h.releasing.interner]
      unfold UMap.getD
      cases hl : r.g.tuEdges.lookup (g.interner.idOf tu) with
      | none => rfl
      | some l => exact absurd (idOf_lt.mp (h.tuEdge _ l hl)) htu
    show atKey _ _ _ = 0
    unfold atKey
    rw [hnil]
    cases r.g.edgeIndex.lookup (k.map r.g.interner.idOf) <;> rfl
  rw [List.foldl_append, List.foldl_cons, List.foldl_nil, ← h.spec]
  refine GraphSpec.ext rfl rfl ?_ rfl ?_ rfl
  · funext k
    show r.g.spec.refs k = r.g.spec.refs k - r.g.spec.reg tu k
    rw [hzero, Nat.sub_zero]
  · funext t k
    show r.g.spec.reg t k = if t = tu then 0 else r.g.spec.reg t k
    by_cases ht : t = tu
    · rw [if_pos ht, ht, hzero]
    · rw [if_neg ht]

theorem lookup_tuEdges_releaseTU {r : Release} {tuId t : SId} {l : List Nat}
    (h : (releaseTU r tuId).g.tuEdges.lookup t = some l) : r.g.tuEdges.lookup t = some l := by
  unfold releaseTU at h
  cases hl : r.g.tuEdges.lookup tuId with
  | none =>
      rw [hl] at h
      exact h
  | some idxs =>
      rw [hl] at h
      change AList.lookup t (AList.erase tuId (idxs.foldl releaseEdge r).g.tuEdges) = some l at h
      rw [UMap.lookup_erase_ite, tuEdges_releaseEdges] at h
      split at h
      · simp at h
      · exact h

theorem Released.known {tus : List Str} {r : Release} (h : Released g tus r) {tu : Str}
    (htu : tu ∈ g.interner.strings) :
    Released g (tus ++ [tu]) (releaseTU r (g.interner.idOf tu)) := by
  obtain ⟨hrel', hrefs, hget, htotal⟩ := releaseTU_spec h.releasing (g.interner.idOf tu)
  have hint := h.releasing.interner
  have hint' := hrel'.interner
  have hrest : ∀ r' : Release, Releasing g r' →
      r'.g.spec.node = g.spec.node ∧ r'.g.spec.contributors = g.spec.contributors ∧
      r'.g.spec.related = g.spec.related := by
    intro r' hr'
    have hnode := congrArg (fun x => x.spec.node) hr'.rest
    have hcon := congrArg (fun x => x.spec.contributors) hr'.rest
    have hrel := congrArg (fun x => x.spec.related) hr'.rest
    exact ⟨hnode, hcon, hrel⟩
  have hone : ∀ i, (r.g.tuEdges.getD (g.interner.idOf tu) []).count i
      ≤ UMap.total (List.count i) r.g.tuEdges :=
    fun i => UMap.le_total (List.count i) _ _ [] rfl
  have hprov' : ProvOK (releaseTU r (g.interner.idOf tu)).g.edges
      (releaseTU r (g.interner.idOf tu)).g.tuEdges := by
    intro i
    have := h.prov i
    rw [htotal, hrefs]
    omega
  have hat : ∀ f : Nat → Nat,
      (∀ i, refsAt (releaseTU r (g.interner.idOf tu)).g.edges i = 0 → f i = 0) →
      ∀ k, atKey (releaseTU r (g.interner.idOf tu)).g.edgeIndex k f = atKey r.g.edgeIndex k f := by
    intro f hf k
    refine atKey_released h.releasing.indexed hrel'.indexed ?_ ?_ hf k
    · exact fun i => (hrel'.keys i).trans (h.releasing.keys i).symm
    · intro i
      rw [hrefs]
      exact Nat.sub_le _ _
  refine ⟨hrel', hprov', fun t l hl => h.tuEdge t l (lookup_tuEdges_releaseTU hl), ?_⟩
  rw [List.foldl_append, List.foldl_cons, List.foldl_nil, ← h.spec]
  obtain ⟨hn, hc, hr⟩ := hrest r h.releasing
  obtain ⟨hn', hc', hr'⟩ := hrest _ hrel'
  refine GraphSpec.ext (hn'.trans hn.symm) (hc'.trans hc.symm) ?_ ?_ ?_ (hr'.trans hr.symm)
  · funext k
    show atKey _ (k.map (releaseTU r _).g.interner.idOf) (refsAt _)
      = atKey _ (k.map r.g.interner.idOf) (refsAt _)
        - atKey _ (k.map r.g.interner.idOf) (fun i => (r.g.tuEdges.getD (r.g.interner.idOf tu) []).count i)
    rw [hint, hint', hat _ (fun _ hi => hi), ← atKey_sub]
    exact congrArg (atKey r.g.edgeIndex (k.map g.interner.idOf)) (funext hrefs)
  · funext k
    show atKey _ (k.map (releaseTU r _).g.interner.idOf) (looseAt _ _)
      = atKey _ (k.map r.g.interner.idOf) (looseAt _ _)
    rw [hint, hint', hat _ (by intro i hi; unfold looseAt; omega)]
    refine congrArg (atKey r.g.edgeIndex (k.map g.interner.idOf)) (funext fun i => ?_)
    have := h.prov i
    have := hone i
    unfold looseAt
    rw [hrefs, htotal]
    omega
  · funext t k
    show atKey _ (k.map (releaseTU r _).g.interner.idOf)
        (fun i => ((releaseTU r _).g.tuEdges.getD ((releaseTU r _).g.interner.idOf t) []).count i)
      = if t = tu then 0 else atKey _ (k.map r.g.interner.idOf)
          (fun i => (r.g.tuEdges.getD (r.g.interner.idOf t) []).count i)
    rw [hint, hint', hat _ ?_]
    · by_cases ht : t = tu
      · rw [if_pos ht, ht]
        unfold atKey
        cases r.g.edgeIndex.lookup (k.map g.interner.idOf) with
        | none => rfl
        | some i =>
            rw [Option.map_some, Option.getD_some, hget, if_pos rfl]
            rfl
      · rw [if_neg ht]
        have hne : g.interner.idOf t ≠ g.interner.idOf tu :=
          fun hc => ht ((idOf_inj htu).mp hc)
        refine congrArg (atKey r.g.edgeIndex (k.map g.interner.idOf)) (funext fun i => ?_)
        rw [hget, if_neg hne]
    · intro i hi
      have hle := UMap.le_total (List.count i) (releaseTU r (g.interner.idOf tu)).g.tuEdges
        (g.interner.idOf t) [] rfl
      have := hprov' i
      omega

theorem released (hwf : WF g) (tus : List Str) :
    Released g tus ((tus.filterMap g.interner.find).foldl releaseTU { g }) := by
  induction tus using List.reverseRecOn with
  | nil =>
      exact ⟨Releasing.start hwf.edges, hwf.prov, hwf.ids.tuEdge, rfl⟩
  | append_singleton tus tu ih =>
      rw [List.filterMap_append, List.foldl_append]
      by_cases htu : tu ∈ g.interner.strings
      · have hfind : g.interner.find tu = some (g.interner.idOf tu) :=
          find_eq_some.mpr ⟨htu, rfl⟩
        rw [List.filterMap_cons, hfind]
        exact ih.known htu
      · have hfind : g.interner.find tu = none := by
          cases hf : g.interner.find tu with
          | none => rfl
          | some id => exact absurd (find_eq_some.mp hf).1 htu
        rw [List.filterMap_cons, hfind]
        exact ih.unknown htu

/-- The graph between the passes: registrations released, adjacency scrubbed. -/
def scrubbed (r : Release) : CallGraph :=
  { r.g with
    outEdges := scrub r.g.outEdges r.affectedCallers r.dead
    inEdges := scrub r.g.inEdges r.affectedCallees r.dead }

theorem Released.scrubbed (hwf : WF g) {tus : List Str} {r : Release} (h : Released g tus r) :
    WF (scrubbed r) ∧ (scrubbed r).interner = g.interner ∧
    (CallGraph.scrubbed r).spec = tus.foldl GraphSpec.releaseTU g.spec := by
  have hrel := h.releasing
  have hrest := hrel.rest
  have hout : r.g.outEdges = g.outEdges := by
    have hx := congrArg CallGraph.outEdges hrest
    exact hx
  have hin : r.g.inEdges = g.inEdges := by
    have hx := congrArg CallGraph.inEdges hrest
    exact hx
  -- the maps of the invariant that the pass does not touch are those of `g`
  have hsame : CallGraph.scrubbed r = { g with
      edges := r.g.edges, edgeIndex := r.g.edgeIndex, liveEdgeCount := r.g.liveEdgeCount
      tuEdges := r.g.tuEdges
      outEdges := scrub g.outEdges r.affectedCallers r.dead
      inEdges := scrub g.inEdges r.affectedCallees r.dead } := by
    rw [← hout, ← hin]
    exact congrArg (fun x : CallGraph => { x with
      edges := r.g.edges, edgeIndex := r.g.edgeIndex, liveEdgeCount := r.g.liveEdgeCount
      tuEdges := r.g.tuEdges
      outEdges := scrub r.g.outEdges r.affectedCallers r.dead
      inEdges := scrub r.g.inEdges r.affectedCallees r.dead }) hrest
  refine ⟨?_, hrel.interner, h.spec⟩
  rw [hsame]
  refine { hwf with ids := { hwf.ids with edge := ?_, tuEdge := h.tuEdge }, edges := ?_, prov := h.prov }
  · intro i k hl
    exact hwf.ids.edge i k (liveAt_of_less hrel.keys hrel.less hl)
  · exact ⟨hrel.indexed, hwf.edges.out.scrub hrel hrel.callers,
      hwf.edges.inn.scrub hrel hrel.callees, hrel.count⟩

/-! ### Dropping nodes -/

theorem getD_dropCandidate (byName : UMap SId (List SId)) (displayId nodeId d : SId) :
    (dropCandidate byName displayId nodeId).getD d []
      = if d = displayId then (byName.getD d []).filter (· ≠ nodeId) else byName.getD d [] := by
  unfold dropCandidate
  cases hb : byName.lookup displayId with
  | none =>
      by_cases hd : d = displayId
      · rw [if_pos hd, hd, UMap.getD, hb]
        rfl
      · rw [if_neg hd]
  | some candidates =>
      have hc : byName.getD displayId [] = candidates := by
        rw [UMap.getD, hb]
        rfl
      by_cases hrest : candidates.filter (· ≠ nodeId) = []
      · simp only [hrest, if_true]
        rw [UMap.getD_erase]
        by_cases hd : d = displayId
        · rw [if_pos hd, if_pos hd, hd, hc, hrest]
        · rw [if_neg hd, if_neg hd]
      · simp only [hrest, if_false]
        rw [UMap.getD_insert]
        by_cases hd : d = displayId
        · rw [if_pos hd, if_pos hd, hd, hc]
        · rw [if_neg hd, if_neg hd]

/-- Erasing a node takes its id out of the candidates of its display name. -/
theorem eraseNode_spec (hn : NodesOK g.interner g.nodes g.byName)
    (hq : ∀ i n, g.nodes.lookup i = some n → n.qualifiedName ∈ g.interner.strings) (nodeId : SId) :
    NodesOK g.interner (g.eraseNode nodeId).nodes (g.eraseNode nodeId).byName ∧
    (∀ i, (g.eraseNode nodeId).nodes.lookup i = if i = nodeId then none else g.nodes.lookup i) ∧
    { g.eraseNode nodeId with nodes := g.nodes, byName := g.byName } = g := by
  unfold eraseNode
  cases hl : g.nodes.lookup nodeId with
  | none =>
      refine ⟨hn, ?_, rfl⟩
      intro i
      by_cases hi : i = nodeId
      · rw [if_pos hi, hi]
        exact hl
      · rw [if_neg hi]
  | some n =>
      have hfind : g.interner.find n.qualifiedName = some (g.interner.idOf n.qualifiedName) :=
        find_eq_some.mpr ⟨hq nodeId n hl, rfl⟩
      simp only [hfind]
      have hnodes : ∀ i, (AList.erase nodeId g.nodes).lookup i
          = if i = nodeId then none else g.nodes.lookup i := UMap.lookup_erase_ite g.nodes nodeId
      refine ⟨?_, hnodes, trivial⟩
      intro d
      obtain ⟨hnd, hmem⟩ := hn d
      rw [getD_dropCandidate]
      refine ⟨?_, ?_⟩
      · split
        · exact hnd.filter _
        · exact hnd
      · intro i
        simp only [hnodes]
        by_cases hi : i = nodeId
        · subst hi
          simp only [if_true, reduceCtorEq, false_and, exists_false, iff_false]
          split
          · simp
          · rename_i hd
            rw [hmem]
            rintro ⟨n', hn', hd'⟩
            rw [hl] at hn'
            injection hn' with hn'
            exact hd (by rw [hn', hd'])
        · simp only [if_neg hi]
          rw [← hmem]
          split
          · simp [hi]
          · rfl

/-- The second pass over the nodes `done` of one TU. -/
structure Dropping (g : CallGraph) (tuId : SId) (done : List SId) (g' : CallGraph) : Prop where
  contributors : ∀ i, g'.nodeContributors.getD i [] =
    if i ∈ done then (g.nodeContributors.getD i []).filter (· ≠ tuId)
    else g.nodeContributors.getD i []
  lookup : ∀ i, g'.nodes.lookup i =
    if i ∈ done ∧ (g.nodeContributors.getD i []).filter (· ≠ tuId) = [] then none
    else g.nodes.lookup i
  nodes : NodesOK g.interner g'.nodes g'.byName
  rest : { g' with
    nodes := g.nodes, byName := g.byName, nodeContributors := g.nodeContributors } = g

theorem Dropping.step (hwf : WF g) {tuId : SId} {done : List SId} {g' : CallGraph}
    (h : Dropping g tuId done g') {nodeId : SId} (hnew : nodeId ∉ done)
    (hcon : tuId ∈ g.nodeContributors.getD nodeId []) :
    Dropping g tuId (done ++ [nodeId]) (dropContributor tuId g' nodeId) := by
  have hint : g'.interner = g.interner := by
    have hx := congrArg CallGraph.interner h.rest
    exact hx
  have hq : ∀ i n, g'.nodes.lookup i = some n → n.qualifiedName ∈ g'.interner.strings := by
    intro i n hn
    rw [h.lookup] at hn
    split at hn
    · simp at hn
    · rw [hint]
      exact (hwf.ids.node i n hn).2.2
  have hnodes : NodesOK g'.interner g'.nodes g'.byName := hint ▸ h.nodes
  have hold := h.contributors nodeId
  rw [if_neg hnew] at hold
  unfold dropContributor
  cases hl : g'.nodeContributors.lookup nodeId with
  | none =>
      rw [UMap.getD, hl] at hold
      rw [← hold] at hcon
      exact absurd hcon List.not_mem_nil
  | some contributors =>
      rw [UMap.getD, hl, Option.getD_some] at hold
      simp only [hold]
      by_cases hrest : (g.nodeContributors.getD nodeId []).filter (· ≠ tuId) = []
      · rw [if_pos hrest]
        obtain ⟨hok, hlook, hframe⟩ := eraseNode_spec hnodes hq nodeId
        have hcons : (g'.eraseNode nodeId).nodeContributors = g'.nodeContributors := by
          have hx := congrArg CallGraph.nodeContributors hframe
          exact hx
        refine ⟨?_, ?_, hint ▸ hok, ?_⟩
        · intro i
          show UMap.getD (AList.erase nodeId (g'.eraseNode nodeId).nodeContributors) i [] = _
          rw [hcons, UMap.getD_erase, h.contributors]
          by_cases hi : i = nodeId
          · rw [if_pos hi, if_pos (by simp [hi]), hi, hrest]
          · simp [hi]
        · intro i
          show (g'.eraseNode nodeId).nodes.lookup i = _
          rw [hlook, h.lookup]
          by_cases hi : i = nodeId
          · rw [if_pos hi, if_pos ⟨by simp [hi], by rw [hi]; exact hrest⟩]
          · simp [hi]
        · have hx := congrArg (fun x : CallGraph => { x with
            nodes := g.nodes, byName := g.byName, nodeContributors := g.nodeContributors }) hframe
          exact hx.trans h.rest
      · rw [if_neg hrest]
        refine ⟨?_, ?_, h.nodes, h.rest⟩
        · intro i
          show UMap.getD (AList.insert nodeId _ g'.nodeContributors) i [] = _
          rw [UMap.getD_insert, h.contributors]
          by_cases hi : i = nodeId
          · subst hi
            simp
          · simp [hi]
        · intro i
          show g'.nodes.lookup i = _
          rw [h.lookup]
          by_cases hi : i = nodeId
          · rw [if_neg fun hc => hnew (hi ▸ hc.1), if_neg fun hc => hrest (hi ▸ hc.2)]
          · simp [hi]

theorem Dropping.run (hwf : WF g) {tuId : SId} (nodeIds : List SId) (hnd : nodeIds.Nodup)
    (hcon : ∀ i ∈ nodeIds, tuId ∈ g.nodeContributors.getD i []) :
    Dropping g tuId nodeIds (nodeIds.foldl (dropContributor tuId) g) := by
  induction nodeIds using List.reverseRecOn with
  | nil => exact ⟨by simp, by simp, hwf.nodes, rfl⟩
  | append_singleton nodeIds i ih =>
      rw [List.foldl_append, List.foldl_cons, List.foldl_nil]
      have hnd' := List.nodup_append.mp hnd
      refine (ih hnd'.1 fun x hx => hcon x (List.mem_append_left _ hx)).step hwf ?_ ?_
      · intro hi
        exact hnd'.2.2 i hi i (List.mem_singleton_self i) rfl
      · exact hcon i (List.mem_append_right _ (List.mem_singleton_self i))

/-! ### Dropping a TU's nodes

Once every listed node is visited, the contributors are what they were without the TU, and the
nodes that are left are those with a contributor left or with none from the start. -/

/-- `g` with the nodes of `g'`, and without the list of a TU. -/
def withNodesOf (g g' : CallGraph) (tuId : SId) : CallGraph :=
  { g with
    nodes := g'.nodes, byName := g'.byName, nodeContributors := g'.nodeContributors
    tuNodes := g.tuNodes.erase tuId }

section Dropped

variable {g' : CallGraph} {tuId : SId} {nodeIds : List SId} (h : Dropping g tuId nodeIds g')

include h

theorem Dropping.dropped_eq :
    { g' with tuNodes := g'.tuNodes.erase tuId } = g.withNodesOf g' tuId := by
  have htn : g'.tuNodes = g.tuNodes := by
    have hx := congrArg CallGraph.tuNodes h.rest
    exact hx
  rw [htn]
  exact congrArg (fun x : CallGraph => { x with
    nodes := g'.nodes, byName := g'.byName, nodeContributors := g'.nodeContributors
    tuNodes := g.tuNodes.erase tuId }) h.rest

theorem Dropping.lookup_of_left {i : SId} {n : CallGraphNode} (hn : g'.nodes.lookup i = some n) :
    g.nodes.lookup i = some n := by
  rw [h.lookup] at hn
  split at hn
  · simp at hn
  · exact hn

variable (hlisted : ∀ i, i ∈ nodeIds ↔ tuId ∈ g.nodeContributors.getD i [])

include hlisted

/-- A node that was not visited did not have the TU. -/
theorem Dropping.mem_contributors (i x : SId) :
    x ∈ g'.nodeContributors.getD i [] ↔ x ∈ g.nodeContributors.getD i [] ∧ x ≠ tuId := by
  rw [h.contributors]
  by_cases hi : i ∈ nodeIds
  · simp [hi]
  · rw [if_neg hi]
    constructor
    · intro hx
      refine ⟨hx, ?_⟩
      rintro rfl
      exact hi ((hlisted i).mpr hx)
    · exact fun hx => hx.1

theorem Dropping.contributed (hwf : WF g) {i x : SId} (hx : x ∈ g'.nodeContributors.getD i []) :
    (g'.nodes.lookup i).isSome := by
  have hx' := (h.mem_contributors hlisted i x).mp hx
  rw [h.lookup, if_neg]
  · exact hwf.contributed i x hx'.1
  · rintro ⟨-, hnil⟩
    have hin : x ∈ (g.nodeContributors.getD i []).filter (· ≠ tuId) := by
      simpa using hx'
    rw [hnil] at hin
    exact absurd hin List.not_mem_nil

theorem Dropping.reverse (hwf : WF g) :
    ReverseOf g'.nodeContributors (g.tuNodes.erase tuId) := by
  intro y
  rw [UMap.getD_erase]
  by_cases hy : y = tuId
  · rw [if_pos hy]
    refine ⟨List.nodup_nil, ?_⟩
    intro x
    rw [h.mem_contributors hlisted]
    simp [hy]
  · rw [if_neg hy]
    refine ⟨(hwf.tuNodes y).1, ?_⟩
    intro x
    rw [h.mem_contributors hlisted, (hwf.tuNodes y).2 x]
    simp [hy]

theorem Dropping.wf (hwf : WF g) : WF (g.withNodesOf g' tuId) :=
  { hwf with
    ids :=
      { hwf.ids with
        node := fun i n hn => hwf.ids.node i n (h.lookup_of_left hn)
        contributor := fun i x hx =>
          hwf.ids.contributor i x ((h.mem_contributors hlisted i x).mp hx).1 }
    nodes := h.nodes
    contributed := fun _ _ hx => h.contributed hlisted hwf hx
    tuNodes := h.reverse hlisted hwf }

end Dropped

/-- No contributor of a node is left without the TU when there is no other. -/
theorem alone_iff (hwf : WF g) {tu : Str} (htu : tu ∈ g.interner.strings) (u : Str) :
    (g.nodeContributors.getD (g.interner.idOf u) []).filter (· ≠ g.interner.idOf tu) = []
      ↔ g.spec.contributors u ⊆ {tu} := by
  constructor
  · intro hnil x hx
    by_contra hxtu
    have hin : g.interner.idOf x ∈
        (g.nodeContributors.getD (g.interner.idOf u) []).filter (· ≠ g.interner.idOf tu) := by
      refine List.mem_filter.mpr ⟨hx, ?_⟩
      simpa using fun heq => hxtu ((idOf_inj htu).mp heq)
    rw [hnil] at hin
    exact absurd hin List.not_mem_nil
  · intro hsub
    refine List.filter_eq_nil_iff.mpr ?_
    intro i hi
    have hlt := (hwf.ids.contributor _ _ hi).2
    have hx : g.interner.resolve i ∈ g.spec.contributors u := by
      show g.interner.idOf (g.interner.resolve i)
        ∈ g.nodeContributors.getD (g.interner.idOf u) []
      rw [idOf_resolve hwf.ids.nodup hlt]
      exact hi
    have hxtu : g.interner.resolve i = tu := hsub hx
    have htui : i = g.interner.idOf tu := by rw [← hxtu, idOf_resolve hwf.ids.nodup hlt]
    simp [htui]

theorem Dropping.spec {g' : CallGraph} {nodeIds : List SId} {tu : Str}
    (h : Dropping g (g.interner.idOf tu) nodeIds g')
    (hlisted : ∀ i, i ∈ nodeIds ↔ g.interner.idOf tu ∈ g.nodeContributors.getD i [])
    (hwf : WF g) (htu : tu ∈ g.interner.strings) :
    (g.withNodesOf g' (g.interner.idOf tu)).spec = g.spec.dropNodes tu := by
  refine GraphSpec.ext ?_ ?_ rfl rfl rfl rfl
  · funext u
    have hcond : (g.interner.idOf u ∈ nodeIds ∧ (g.nodeContributors.getD
        (g.interner.idOf u) []).filter (· ≠ g.interner.idOf tu) = []) ↔
        tu ∈ g.spec.contributors u ∧ g.spec.contributors u ⊆ {tu} :=
      and_congr (hlisted _) (alone_iff hwf htu u)
    have hlook := h.lookup (g.interner.idOf u)
    by_cases hc : tu ∈ g.spec.contributors u ∧ g.spec.contributors u ⊆ {tu}
    · exact (hlook.trans (if_pos (hcond.mpr hc))).trans (if_pos hc).symm
    · exact (hlook.trans (if_neg fun h => hc (hcond.mp h))).trans (if_neg hc).symm
  · funext u
    refine Set.ext fun x => ?_
    show g.interner.idOf x ∈ g'.nodeContributors.getD (g.interner.idOf u) [] ↔ _
    rw [h.mem_contributors hlisted]
    exact and_congr_right fun _ => not_congr (idOf_inj htu)

/-- A TU without a list contributed to no node. -/
theorem spec_dropNodes_unlisted (hwf : WF g) {tu : Str}
    (hl : g.tuNodes.lookup (g.interner.idOf tu) = none) : g.spec = g.spec.dropNodes tu := by
  have hnot : ∀ u, tu ∉ g.spec.contributors u := by
    intro u hu
    have hmem := ((hwf.tuNodes (g.interner.idOf tu)).2 (g.interner.idOf u)).mpr hu
    rw [UMap.getD, hl] at hmem
    exact absurd hmem List.not_mem_nil
  refine GraphSpec.ext ?_ ?_ rfl rfl rfl rfl
  · funext u
    exact (if_neg fun hc => hnot u hc.1).symm
  · funext u
    exact (Set.sdiff_singleton_eq_self (hnot u)).symm

/-- **Dropping a TU's nodes** takes it off the contributors and erases the nodes it alone
contributed. -/
theorem dropNodes_wf_spec (hwf : WF g) {tu : Str} (htu : tu ∈ g.interner.strings) :
    WF (g.dropNodes (g.interner.idOf tu)) ∧
    (g.dropNodes (g.interner.idOf tu)).interner = g.interner ∧
    (g.dropNodes (g.interner.idOf tu)).spec = g.spec.dropNodes tu := by
  unfold CallGraph.dropNodes
  cases hl : g.tuNodes.lookup (g.interner.idOf tu) with
  | none => exact ⟨hwf, rfl, spec_dropNodes_unlisted hwf hl⟩
  | some nodeIds =>
      have hget : g.tuNodes.getD (g.interner.idOf tu) [] = nodeIds := by
        rw [UMap.getD, hl]
        rfl
      obtain ⟨hnd, hlisted⟩ := hwf.tuNodes (g.interner.idOf tu)
      rw [hget] at hnd hlisted
      have hdrop := Dropping.run hwf nodeIds hnd fun i hi => (hlisted i).mp hi
      have hinterner : (nodeIds.foldl (dropContributor (g.interner.idOf tu)) g).interner
          = g.interner := by
        have hx := congrArg CallGraph.interner hdrop.rest
        exact hx
      have hdropped := hdrop.dropped_eq
      dsimp only
      rw [hdropped]
      exact ⟨hdrop.wf hlisted hwf, hinterner, hdrop.spec hlisted hwf htu⟩

/-! ### Removal -/

theorem dropAll_wf_spec (tus : List Str) :
    ∀ {g : CallGraph}, WF g → ∀ {t : StringInterner}, g.interner = t →
      WF ((tus.filterMap t.find).foldl CallGraph.dropNodes g) ∧
      ((tus.filterMap t.find).foldl CallGraph.dropNodes g).spec
        = tus.foldl GraphSpec.dropNodes g.spec := by
  induction tus with
  | nil => exact fun hwf _ _ => ⟨hwf, rfl⟩
  | cons tu rest ih =>
      intro g hwf t hint
      subst hint
      by_cases htu : tu ∈ g.interner.strings
      · have hfind : g.interner.find tu = some (g.interner.idOf tu) :=
          find_eq_some.mpr ⟨htu, rfl⟩
        obtain ⟨hwf', hint', hspec'⟩ := dropNodes_wf_spec hwf htu
        rw [List.filterMap_cons, hfind, List.foldl_cons, List.foldl_cons, ← hspec']
        exact ih hwf' hint'
      · have hfind : g.interner.find tu = none := by
          cases hf : g.interner.find tu with
          | none => rfl
          | some id => exact absurd (find_eq_some.mp hf).1 htu
        have hnot : ∀ u, tu ∉ g.spec.contributors u := fun u hc =>
          htu (idOf_lt.mp (hwf.ids.contributor _ _ hc).2)
        have hnoop : g.spec.dropNodes tu = g.spec := by
          refine GraphSpec.ext ?_ ?_ rfl rfl rfl rfl
          · funext u
            exact if_neg fun hc => hnot u hc.1
          · funext u
            exact Set.sdiff_singleton_eq_self (hnot u)
        rw [List.filterMap_cons, hfind, List.foldl_cons, hnoop]
        exact ih hwf rfl

/-- **Removing TUs removes them from the abstract graph.** -/
theorem removeTUs_wf_spec (hwf : WF g) (tus : List Str) :
    WF (g.removeTUs tus).1 ∧ (g.removeTUs tus).1.spec = g.spec.removeTUs tus := by
  obtain ⟨hwf₁, hint₁, hspec₁⟩ := (released hwf tus).scrubbed hwf
  obtain ⟨hwf₂, hspec₂⟩ := dropAll_wf_spec tus hwf₁ hint₁
  rw [GraphSpec.removeTUs_eq, ← hspec₁]
  exact ⟨hwf₂, hspec₂⟩

end CallGraph
end Vycor
