/-
Ids and positions of a call graph stay in range.

`InRange` says that nothing a graph stores points outside of what it points into: ids lie
below the size of the interner and positions below the number of stored edges.  It is
weaker than `WF` and asks for no agreement between the maps, so it also holds of a graph
that was read from a damaged file.  Every mutator keeps it, and the queries read only what
it speaks about.
-/
import Vycor.Proofs.Absorb
import Vycor.Proofs.Compact
import Vycor.Proofs.Provenance

namespace Vycor

namespace CallGraph

open UMap

/-- The keys and the listed elements are ids below `n`. -/
abbrev IdLists (n : Nat) (m : UMap SId (List SId)) : Prop := Lists (· < n) (· < n) m

/-- The keys are ids below `n`, the listed elements positions below `k`. -/
abbrev PosLists (n k : Nat) (m : UMap SId (List Nat)) : Prop := Lists (· < n) (· < k) m

/-- Nothing points outside the interner or the edge table. -/
structure InRange (g : CallGraph) : Prop where
  node : ∀ id n, g.nodes.lookup id = some n → id < g.interner.size
  edge : ∀ e ∈ g.edges, KeyBelow g.interner.size e.toEdgeKey
  indexed : ∀ k i, g.edgeIndex.lookup k = some i → i < g.edges.length
  outEdges : PosLists g.interner.size g.edges.length g.outEdges
  inEdges : PosLists g.interner.size g.edges.length g.inEdges
  tuEdges : PosLists g.interner.size g.edges.length g.tuEdges
  byName : IdLists g.interner.size g.byName
  derivedClasses : IdLists g.interner.size g.derivedClasses
  methodOverrides : IdLists g.interner.size g.methodOverrides
  overrideBases : IdLists g.interner.size g.overrideBases
  effectiveImplClasses : IdLists g.interner.size g.effectiveImplClasses
  functionReturns : IdLists g.interner.size g.functionReturns
  returnedBy : IdLists g.interner.size g.returnedBy
  nodeContributors : IdLists g.interner.size g.nodeContributors
  tuNodes : IdLists g.interner.size g.tuNodes

variable {g : CallGraph}

theorem inRange_empty (t : StringInterner) : InRange { interner := t } := by
  refine ⟨?_, ?_, ?_, Lists.empty, Lists.empty, Lists.empty, Lists.empty, Lists.empty,
    Lists.empty, Lists.empty, Lists.empty, Lists.empty, Lists.empty, Lists.empty, Lists.empty⟩
  · intro id n h
    simp at h
  · intro e he
    simp at he
  · intro k i h
    simp at h

/-! ### Interning -/

theorem KeyBelow.mono {n n' : Nat} (h : n ≤ n') {k : EdgeKey SId} (hk : KeyBelow n k) :
    KeyBelow n' k :=
  ⟨Nat.lt_of_lt_of_le hk.1 h, Nat.lt_of_lt_of_le hk.2.1 h, Nat.lt_of_lt_of_le hk.2.2 h⟩

/-- A longer table leaves every id in range. -/
theorem InRange.grow (h : g.InRange) {t : StringInterner} (hle : g.interner.size ≤ t.size) :
    InRange { g with interner := t } := by
  have hlt : ∀ i, i < g.interner.size → i < t.size := fun i hi => Nat.lt_of_lt_of_le hi hle
  exact
    { node := fun id n hn => hlt id (h.node id n hn)
      edge := fun e he => (h.edge e he).mono hle
      indexed := h.indexed
      outEdges := h.outEdges.mono hlt fun _ hi => hi
      inEdges := h.inEdges.mono hlt fun _ hi => hi
      tuEdges := h.tuEdges.mono hlt fun _ hi => hi
      byName := h.byName.mono hlt hlt
      derivedClasses := h.derivedClasses.mono hlt hlt
      methodOverrides := h.methodOverrides.mono hlt hlt
      overrideBases := h.overrideBases.mono hlt hlt
      effectiveImplClasses := h.effectiveImplClasses.mono hlt hlt
      functionReturns := h.functionReturns.mono hlt hlt
      returnedBy := h.returnedBy.mono hlt hlt
      nodeContributors := h.nodeContributors.mono hlt hlt
      tuNodes := h.tuNodes.mono hlt hlt }

theorem InRange.intern (h : g.InRange) (s : Str) : (g.intern s).InRange :=
  h.grow (StringInterner.size_le_of_grown (StringInterner.prefix_intern _ s))

/-- The id a string has after it was interned, and after anything else was. -/
theorem idOf_intern_lt (t : StringInterner) (s : Str) : (t.intern s).idOf s < (t.intern s).size :=
  StringInterner.idOf_lt.mpr (StringInterner.mem_intern t s)

theorem idOf_lt_intern {t : StringInterner} {s : Str} (h : s ∈ t.strings) (s' : Str) :
    (t.intern s').idOf s < (t.intern s').size :=
  StringInterner.idOf_lt.mpr ((StringInterner.prefix_intern t s').subset h)

/-! ### Steps -/

theorem IdLists.pushUnique {n : Nat} {m : UMap SId (List SId)} (h : IdLists n m) {k x : SId}
    (hk : k < n) (hx : x < n) : IdLists n (m.upsert k [] (Dedup.pushUnique · x)) := by
  refine h.upsert hk ?_
  intro l hl y hy
  rcases Dedup.mem_pushUnique.mp hy with hy | rfl
  · exact hl y hy
  · exact hx

theorem IdLists.setInsert {n : Nat} {m : UMap SId (List SId)} (h : IdLists n m) {k x : SId}
    (hk : k < n) (hx : x < n) : IdLists n (m.upsert k [] (Dedup.setInsert · x)) := by
  refine h.upsert hk ?_
  intro l hl y hy
  rcases Dedup.mem_setInsert.mp hy with hy | rfl
  · exact hl y hy
  · exact hx

section Steps

variable (h : g.InRange)

include h

theorem InRange.setNode {nameId : SId} (hid : nameId < g.interner.size) (node : CallGraphNode) :
    InRange { g with nodes := g.nodes.insert nameId node } := by
  refine { h with node := ?_ }
  intro id n hn
  have hn' : AList.lookup id (AList.insert nameId node g.nodes) = some n := hn
  rw [lookup_insert_ite] at hn'
  split at hn'
  · rename_i heq
    rw [heq]
    exact hid
  · exact h.node id n hn'

theorem InRange.insertNode {nameId displayId : SId} (hid : nameId < g.interner.size)
    (hdisplay : displayId < g.interner.size) (node : CallGraphNode) :
    (g.insertNode nameId displayId node).InRange :=
  { h.setNode hid node with byName := h.byName.pushUnique hdisplay hid }

theorem InRange.putNode {nameId displayId : SId} (hid : nameId < g.interner.size)
    (hdisplay : displayId < g.interner.size) (node : CallGraphNode) :
    (g.putNode nameId displayId node).InRange := by
  unfold CallGraph.putNode
  split
  · exact h.insertNode hid hdisplay node
  · exact h.setNode hid _

theorem InRange.addContributor {nameId tuId : SId} (hid : nameId < g.interner.size)
    (htu : tuId < g.interner.size) : (g.addContributor nameId tuId).InRange := by
  refine { h with nodeContributors := h.nodeContributors.setInsert hid htu, tuNodes := ?_ }
  show IdLists _ (if _ then _ else _)
  split
  · exact h.tuNodes
  · exact h.tuNodes.push htu hid

theorem InRange.tagEdges {tuId : SId} (htu : tuId < g.interner.size) {idxs : List Nat}
    (hidxs : ∀ i ∈ idxs, i < g.edges.length) : (g.tagEdges tuId idxs).InRange := by
  refine { h with tuEdges := h.tuEdges.upsert htu ?_ }
  intro l hl i hi
  rcases List.mem_append.mp hi with hi | hi
  · exact hl i hi
  · exact hidxs i hi

/-- An edge table with the same keys at the same positions. -/
theorem InRange.withEdges {edges : List StoredEdge} (hlen : edges.length = g.edges.length)
    (hedge : ∀ e ∈ edges, KeyBelow g.interner.size e.toEdgeKey) :
    InRange { g with edges } :=
  { h with
    edge := hedge
    indexed := fun k i hi => hlen.symm ▸ h.indexed k i hi
    outEdges := hlen.symm ▸ h.outEdges
    inEdges := hlen.symm ▸ h.inEdges
    tuEdges := hlen.symm ▸ h.tuEdges }

/-- An edge at the end of the table: the positions before it stay, and it is one more. -/
theorem InRange.pushEdge {key : EdgeKey SId} (hkey : KeyBelow g.interner.size key) (refs : Nat)
    {edgeIndex : UMap (EdgeKey SId) Nat} {liveEdgeCount : Nat}
    (hindex : ∀ k i, edgeIndex.lookup k = some i → i ≤ g.edges.length) :
    InRange { g with
      outEdges := g.outEdges.upsert key.caller [] (· ++ [g.edges.length])
      inEdges := g.inEdges.upsert key.callee [] (· ++ [g.edges.length])
      edges := g.edges ++ [{ key with refs }]
      edgeIndex, liveEdgeCount } := by
  set stored : StoredEdge := { key with refs }
  have hlen : (g.edges ++ [stored]).length = g.edges.length + 1 := by simp
  have hle : ∀ i, i < g.edges.length → i < (g.edges ++ [stored]).length := by
    intro i hi
    omega
  refine
    { h with
      edge := ?_
      indexed := ?_
      outEdges := (h.outEdges.mono (fun _ hk => hk) hle).push hkey.1 (by omega)
      inEdges := (h.inEdges.mono (fun _ hk => hk) hle).push hkey.2.1 (by omega)
      tuEdges := h.tuEdges.mono (fun _ hk => hk) hle }
  · intro e he
    rcases List.mem_append.mp he with he | he
    · exact h.edge e he
    · rw [List.mem_singleton.mp he]
      exact hkey
  · intro k i hi
    have := hindex k i hi
    show i < (g.edges ++ [_]).length
    omega

theorem InRange.storeEdge {key : EdgeKey SId} (hkey : KeyBelow g.interner.size key) (refs : Nat) :
    (g.storeEdge key refs).InRange := by
  unfold CallGraph.storeEdge
  split
  · rename_i idx hidx
    refine h.withEdges (List.length_modify _ _ _) ?_
    intro e he
    obtain ⟨i, hi, rfl⟩ := List.getElem_of_mem he
    rw [List.getElem_modify]
    have hi' : i < g.edges.length := by rwa [List.length_modify] at hi
    have hold := h.edge _ (List.getElem_mem hi')
    split <;> exact hold
  · refine h.pushEdge hkey refs ?_
    intro k i hi
    rw [lookup_insert_ite] at hi
    split at hi
    · injection hi with hi
      omega
    · exact Nat.le_of_lt (h.indexed k i hi)

theorem InRange.relateDerived {a b : SId} (ha : a < g.interner.size) (hb : b < g.interner.size) :
    (g.relateDerived a b).InRange :=
  { h with derivedClasses := h.derivedClasses.pushUnique ha hb }

theorem InRange.relateOverride {a b : SId} (ha : a < g.interner.size) (hb : b < g.interner.size) :
    (g.relateOverride a b).InRange :=
  { h with methodOverrides := h.methodOverrides.pushUnique ha hb
           overrideBases := h.overrideBases.pushUnique hb ha }

theorem InRange.relateImpl {a b : SId} (ha : a < g.interner.size) (hb : b < g.interner.size) :
    (g.relateImpl a b).InRange :=
  { h with effectiveImplClasses := h.effectiveImplClasses.setInsert ha hb }

theorem InRange.relateReturn {a b : SId} (ha : a < g.interner.size) (hb : b < g.interner.size) :
    (g.relateReturn a b).InRange := by
  refine { h with functionReturns := h.functionReturns.setInsert ha hb, returnedBy := ?_ }
  show IdLists _ (if _ then _ else _)
  split
  · exact h.returnedBy
  · exact h.returnedBy.push hb ha

end Steps

/-! ### Registrations -/

theorem InRange.addNode (h : g.InRange) (node : CallGraphNode) (tu : Str) :
    (g.addNode node tu).InRange := by
  set n := node.withUsr
  set g₁ := (g.intern n.usr).intern n.qualifiedName with hg₁
  have h₁ : g₁.InRange := (h.intern _).intern _
  have hu : g₁.interner.idOf n.usr < g₁.interner.size :=
    idOf_lt_intern (StringInterner.mem_intern _ _) _
  have hq : g₁.interner.idOf n.qualifiedName < g₁.interner.size := idOf_intern_lt _ _
  set g₂ := g₁.putNode (g₁.interner.idOf n.usr) (g₁.interner.idOf n.qualifiedName) n with hg₂
  have h₂ : g₂.InRange := h₁.putNode hu hq n
  have hint : g₂.interner = g₁.interner := putNode_interner _ _ _ _
  have hadd : g.addNode node tu = if tu ≠ [] then
      (g₂.intern tu).addContributor (g₁.interner.idOf n.usr) ((g₂.intern tu).interner.idOf tu)
    else g₂ := rfl
  rw [hadd]
  split
  · refine (h₂.intern tu).addContributor ?_ (idOf_intern_lt _ _)
    refine Nat.lt_of_lt_of_le hu ?_
    rw [← hint]
    exact StringInterner.size_le_of_grown (StringInterner.prefix_intern _ _)
  · exact h₂

/-- After a store the key's position is one of the table's. -/
theorem InRange.edgePos_lt (h : g.InRange) (key : EdgeKey SId) (refs : Nat) :
    g.edgePos key < (g.storeEdge key refs).edges.length := by
  unfold edgePos CallGraph.storeEdge
  cases hl : g.edgeIndex.lookup key with
  | none => simp
  | some idx =>
      show idx < (g.edges.modify idx _).length
      rw [List.length_modify]
      exact h.indexed key idx hl

theorem InRange.addEdge (h : g.InRange) (edge : CallGraphEdge) (tu : Str) :
    (g.addEdge edge tu).InRange := by
  set g₁ := ((g.intern edge.callerName).intern edge.calleeName).intern edge.callSite
  have h₁ : g₁.InRange := ((h.intern _).intern _).intern _
  set key : EdgeKey SId :=
    { caller := g₁.interner.idOf edge.callerName, callee := g₁.interner.idOf edge.calleeName
      callSite := g₁.interner.idOf edge.callSite, kind := edge.kind, confidence := edge.confidence
      execContext := edge.execContext, indirectionDepth := edge.indirectionDepth } with hkey
  have hbelow : KeyBelow g₁.interner.size key :=
    ⟨idOf_lt_intern ((StringInterner.prefix_intern _ _).subset (StringInterner.mem_intern _ _)) _,
      idOf_lt_intern (StringInterner.mem_intern _ _) _, idOf_intern_lt _ _⟩
  have h₂ := h₁.storeEdge hbelow 1
  have hadd : g.addEdge edge tu = if tu ≠ [] then
      ((g₁.storeEdge key 1).intern tu).tagEdges
        (((g₁.storeEdge key 1).intern tu).interner.idOf tu) [g₁.edgePos key]
    else g₁.storeEdge key 1 := rfl
  rw [hadd]
  split
  · refine (h₂.intern tu).tagEdges (idOf_intern_lt _ _) ?_
    intro i hi
    rw [List.mem_singleton.mp hi]
    exact h₁.edgePos_lt key 1
  · exact h₂

/-- Two strings interned one after the other have ids in range. -/
theorem idOf_intern_pair (g : CallGraph) (a b : Str) :
    ((g.intern a).intern b).interner.idOf a < ((g.intern a).intern b).interner.size ∧
      ((g.intern a).intern b).interner.idOf b < ((g.intern a).intern b).interner.size :=
  ⟨idOf_lt_intern (StringInterner.mem_intern _ _) _, idOf_intern_lt _ _⟩

theorem InRange.call (h : g.InRange) (c : Call) : (c.apply g).InRange := by
  cases c with
  | node n tu => exact h.addNode n tu
  | edge e tu => exact h.addEdge e tu
  | derivedClass a b tu =>
      obtain ⟨ha, hb⟩ := idOf_intern_pair g a b
      exact ((h.intern a).intern b).relateDerived ha hb
  | methodOverride a b tu =>
      obtain ⟨ha, hb⟩ := idOf_intern_pair g a b
      exact ((h.intern a).intern b).relateOverride ha hb
  | effectiveImpl a b tu =>
      obtain ⟨hb, ha⟩ := idOf_intern_pair g b a
      exact ((h.intern b).intern a).relateImpl hb ha
  | functionReturn a b tu =>
      obtain ⟨ha, hb⟩ := idOf_intern_pair g a b
      exact ((h.intern a).intern b).relateReturn ha hb

/-! ### Removal -/

/-- The graph is in range, and so are the ids the scrub will visit. -/
structure Release.InRange (n : Nat) (r : Release) : Prop where
  graph : r.g.InRange
  size : r.g.interner.size = n
  callers : ∀ c ∈ r.affectedCallers, c < n
  callees : ∀ c ∈ r.affectedCallees, c < n

section Removal

variable {n : Nat} {r : Release}

theorem Release.InRange.releaseEdge (h : r.InRange n) (idx : Nat) :
    (releaseEdge r idx).InRange n := by
  unfold CallGraph.releaseEdge
  split
  · exact h
  · rename_i edge hedge
    split
    · exact h
    · have hmem := List.mem_of_getElem? hedge
      have hbelow := h.graph.edge edge hmem
      have hset : CallGraph.InRange
          { r.g with edges := r.g.edges.set idx { edge with refs := edge.refs - 1 } } := by
        refine h.graph.withEdges List.length_set ?_
        intro e he
        rcases List.mem_or_eq_of_mem_set he with he | rfl
        · exact h.graph.edge e he
        · exact hbelow
      split
      · exact { h with graph := hset }
      · refine ⟨{ hset with indexed := ?_ }, h.size, ?_, ?_⟩
        · intro k i hi
          have hi' : AList.lookup k (AList.erase edge.toEdgeKey r.g.edgeIndex) = some i := hi
          rw [lookup_erase_ite] at hi'
          split at hi'
          · simp at hi'
          · exact hset.indexed k i hi'
        · intro c hc
          rcases List.mem_cons.mp hc with rfl | hc
          · exact h.size ▸ hbelow.1
          · exact h.callers c hc
        · intro c hc
          rcases List.mem_cons.mp hc with rfl | hc
          · exact h.size ▸ hbelow.2.1
          · exact h.callees c hc

theorem Release.InRange.releaseTU (h : r.InRange n) (tuId : SId) :
    (releaseTU r tuId).InRange n := by
  unfold CallGraph.releaseTU
  split
  · exact h
  · rename_i idxs _
    have h' : (idxs.foldl CallGraph.releaseEdge r).InRange n :=
      List.foldlRecOn idxs _ h fun r hr i _ => hr.releaseEdge i
    exact { h' with graph := { h'.graph with tuEdges := h'.graph.tuEdges.erase tuId } }

end Removal

theorem PosLists.scrub {n k : Nat} {m : UMap SId (List Nat)} (h : PosLists n k m)
    (dead : List Nat) {affected : List SId} (haffected : ∀ c ∈ affected, c < n) :
    PosLists n k (CallGraph.scrub m affected dead) := by
  refine List.foldlRecOn affected _ h ?_
  intro m hm c hc
  exact hm.upsert (haffected c hc) fun l hl i hi => hl i (List.mem_of_mem_filter hi)

theorem IdLists.dropCandidate {n : Nat} {m : UMap SId (List SId)} (h : IdLists n m)
    (displayId nodeId : SId) : IdLists n (CallGraph.dropCandidate m displayId nodeId) := by
  unfold CallGraph.dropCandidate
  split
  · exact h
  · rename_i candidates hl
    dsimp only
    split
    · exact h.erase displayId
    · obtain ⟨hk, hv⟩ := h displayId candidates hl
      exact h.insert hk fun i hi => hv i (List.mem_of_mem_filter hi)

theorem InRange.eraseNode (h : g.InRange) (nodeId : SId) : (g.eraseNode nodeId).InRange := by
  unfold CallGraph.eraseNode
  split
  · exact h
  · refine { h with node := ?_, byName := ?_ }
    · intro id n hn
      have hn' : AList.lookup id (AList.erase nodeId g.nodes) = some n := hn
      rw [lookup_erase_ite] at hn'
      split at hn'
      · simp at hn'
      · exact h.node id n hn'
    · dsimp only
      split
      · exact h.byName
      · exact h.byName.dropCandidate _ _

theorem InRange.dropContributor (h : g.InRange) (tuId nodeId : SId) :
    (dropContributor tuId g nodeId).InRange := by
  unfold CallGraph.dropContributor
  split
  · exact h
  · rename_i contributors hl
    obtain ⟨hk, hv⟩ := h.nodeContributors nodeId contributors hl
    dsimp only
    split
    · have h' := h.eraseNode nodeId
      exact { h' with nodeContributors := h'.nodeContributors.erase nodeId }
    · exact { h with
        nodeContributors := h.nodeContributors.insert hk fun i hi =>
          hv i (List.mem_of_mem_filter hi) }

theorem InRange.dropNodes (h : g.InRange) (tuId : SId) : (g.dropNodes tuId).InRange := by
  unfold CallGraph.dropNodes
  split
  · exact h
  · rename_i nodeIds _
    have h' : (nodeIds.foldl (CallGraph.dropContributor tuId) g).InRange :=
      List.foldlRecOn nodeIds _ h fun g hg i _ => hg.dropContributor tuId i
    exact { h' with tuNodes := h'.tuNodes.erase tuId }

theorem InRange.removeTUs (h : g.InRange) (tuPaths : List Str) :
    (g.removeTUs tuPaths).1.InRange := by
  unfold CallGraph.removeTUs
  generalize tuPaths.filterMap g.interner.find = tuIds
  have hstart : Release.InRange g.interner.size { g } :=
    ⟨h, rfl, fun c hc => absurd hc List.not_mem_nil, fun c hc => absurd hc List.not_mem_nil⟩
  have hr : (tuIds.foldl CallGraph.releaseTU { g }).InRange g.interner.size :=
    List.foldlRecOn tuIds _ hstart fun r hr t _ => hr.releaseTU t
  dsimp only
  generalize tuIds.foldl CallGraph.releaseTU { g } = r at hr ⊢
  refine List.foldlRecOn tuIds _ ?_ fun g hg t _ => hg.dropNodes t
  exact
    { hr.graph with
      outEdges := hr.graph.outEdges.scrub r.dead (hr.size ▸ hr.callers)
      inEdges := hr.graph.inEdges.scrub r.dead (hr.size ▸ hr.callees) }

/-! ### Compacting -/

/-- What is kept so far holds only ids below `n` and positions of what is kept. -/
structure Compacted.InRange (n : Nat) (c : Compacted) : Prop where
  edge : ∀ e ∈ c.edges, KeyBelow n e.toEdgeKey
  indexed : ∀ k i, c.edgeIndex.lookup k = some i → i < c.edges.length
  outEdges : PosLists n c.edges.length c.outEdges
  inEdges : PosLists n c.edges.length c.inEdges
  moved : ∀ i j, c.remap.getD i none = some j → j < c.edges.length

theorem Compacted.InRange.compactEdge {n : Nat} {c : Compacted} (h : c.InRange n)
    {e : StoredEdge} (he : KeyBelow n e.toEdgeKey) : (compactEdge c e).InRange n := by
  unfold CallGraph.compactEdge
  split
  · refine { h with moved := ?_ }
    intro i j hij
    rcases (getElem?_concat _ _ _ _).mp (moved_iff.mp hij) with hij | ⟨-, hj⟩
    · exact h.moved i j (moved_iff.mpr hij)
    · simp at hj
  · have hlen : (c.edges ++ [e]).length = c.edges.length + 1 := by simp
    have hle : ∀ i, i < c.edges.length → i < (c.edges ++ [e]).length := by
      intro i hi
      omega
    refine ⟨?_, ?_, (h.outEdges.mono (fun _ hk => hk) hle).push he.1 (by omega),
      (h.inEdges.mono (fun _ hk => hk) hle).push he.2.1 (by omega), ?_⟩
    · intro x hx
      rcases List.mem_append.mp hx with hx | hx
      · exact h.edge x hx
      · rw [List.mem_singleton.mp hx]
        exact he
    · intro k i hi
      exact lt_of_lookup_emplace (fun k i hk => hle i (h.indexed k i hk)) (by omega) _ hi
    · intro i j hij
      show j < (c.edges ++ [e]).length
      rcases (getElem?_concat _ _ _ _).mp (moved_iff.mp hij) with hij | ⟨-, hj⟩
      · exact hle j (h.moved i j (moved_iff.mpr hij))
      · injection hj with hj
        omega

theorem InRange.compact (h : g.InRange) : g.compact.InRange := by
  have hstart : Compacted.InRange g.interner.size {} :=
    ⟨by simp, fun k i hi => by simp at hi, Lists.empty, Lists.empty, fun i j hi => by simp at hi⟩
  have hc : (g.edges.foldl CallGraph.compactEdge {}).InRange g.interner.size :=
    List.foldlRecOn g.edges _ hstart fun c hc e he => hc.compactEdge (h.edge e he)
  unfold CallGraph.compact
  generalize g.edges.foldl CallGraph.compactEdge {} = c at hc ⊢
  refine
    { h with
      edge := hc.edge
      indexed := hc.indexed
      outEdges := hc.outEdges
      inEdges := hc.inEdges
      tuEdges := h.tuEdges.moved hc.moved }

/-! ### Merging

The ids of a shard are mapped to ids here before anything of it is entered, and
an edge position is handed on only once the edge is stored.
-/

/-- In range, with at least `n` strings interned. -/
def InRangeFrom (n : Nat) (g : CallGraph) : Prop := g.InRange ∧ n ≤ g.interner.size

section Merging

variable {shard : CallGraph} {n : Nat} {remap : SId → SId}

theorem InRangeFrom.absorbFields (h : InRangeFrom n g) {nameId : SId} (hid : nameId < n)
    (node : CallGraphNode) : InRangeFrom n (g.absorbFields nameId node) := by
  obtain ⟨hg, hn⟩ := h
  have hid' : nameId < g.interner.size := Nat.lt_of_lt_of_le hid hn
  unfold CallGraph.absorbFields
  split
  · have hle := StringInterner.size_le_of_grown
      (StringInterner.prefix_intern g.interner node.qualifiedName)
    exact ⟨(hg.intern _).insertNode (Nat.lt_of_lt_of_le hid' hle) (idOf_intern_lt _ _) node,
      Nat.le_trans hn hle⟩
  · exact ⟨hg.setNode hid' _, hn⟩

theorem InRangeFrom.absorbNode (hshard : shard.InRange)
    (hremap : ∀ i, i < shard.interner.size → remap i < n) (h : InRangeFrom n g)
    {entry : Σ _ : SId, CallGraphNode} (hentry : entry ∈ shard.nodes.entries) :
    InRangeFrom n (absorbNode shard remap g entry) := by
  have hid : remap entry.1 < n :=
    hremap _ (hshard.node entry.1 entry.2 ((mem_entries _ _ _).mp hentry))
  refine List.foldlRecOn _ _ (h.absorbFields hid entry.2) ?_
  intro g hg t ht
  have htu : remap t < n := hremap _ (hshard.nodeContributors.getD _ t ht)
  exact ⟨hg.1.addContributor (Nat.lt_of_lt_of_le hid hg.2) (Nat.lt_of_lt_of_le htu hg.2), hg.2⟩

/-- The positions handed out so far are positions of the table. -/
def StoredInRange (n : Nat) (st : CallGraph × List (Option Nat)) : Prop :=
  InRangeFrom n st.1 ∧ ∀ i j, st.2.getD i none = some j → j < st.1.edges.length

theorem length_le_storeEdge (g : CallGraph) (key : EdgeKey SId) (refs : Nat) :
    g.edges.length ≤ (g.storeEdge key refs).edges.length := by
  unfold CallGraph.storeEdge
  split <;> simp

theorem StoredInRange.absorbEdge (hremap : ∀ i, i < shard.interner.size → remap i < n)
    {st : CallGraph × List (Option Nat)} (h : StoredInRange n st) {src : StoredEdge}
    (hsrc : KeyBelow shard.interner.size src.toEdgeKey) :
    StoredInRange n (absorbEdge remap st src) := by
  unfold CallGraph.absorbEdge
  split
  · refine ⟨h.1, ?_⟩
    intro i j hij
    rcases (getElem?_concat _ _ _ _).mp (moved_iff.mp hij) with hij | ⟨-, hj⟩
    · exact h.2 i j (moved_iff.mpr hij)
    · simp at hj
  · dsimp only
    set key : EdgeKey SId := { src.toEdgeKey with
      caller := remap src.caller, callee := remap src.callee, callSite := remap src.callSite }
    have hkey : KeyBelow n key := ⟨hremap _ hsrc.1, hremap _ hsrc.2.1, hremap _ hsrc.2.2⟩
    refine ⟨⟨h.1.1.storeEdge (hkey.mono h.1.2) _, ?_⟩, ?_⟩
    · rw [storeEdge_interner]
      exact h.1.2
    · intro i j hij
      rcases (getElem?_concat _ _ _ _).mp (moved_iff.mp hij) with hij | ⟨-, hj⟩
      · exact Nat.lt_of_lt_of_le (h.2 i j (moved_iff.mpr hij)) (length_le_storeEdge _ _ _)
      · injection hj with hj
        rw [hj]
        exact h.1.1.edgePos_lt key src.refs

/-- Adding the pairs of an in-range relation of the shard. -/
theorem InRangeFrom.absorbRelation {relate : CallGraph → SId → SId → CallGraph}
    (hremap : ∀ i, i < shard.interner.size → remap i < n)
    (hrelate : ∀ {g : CallGraph} {a b : SId}, InRangeFrom n g → a < n → b < n →
      InRangeFrom n (relate g a b))
    {m : UMap SId (List SId)} (hm : IdLists shard.interner.size m) (h : InRangeFrom n g) :
    InRangeFrom n (g.absorbRelation remap relate m) := by
  refine List.foldlRecOn _ _ h ?_
  intro g hg entry hentry
  obtain ⟨hk, hv⟩ := hm entry.1 entry.2 ((mem_entries _ _ _).mp hentry)
  refine List.foldlRecOn _ _ hg ?_
  intro g hg x hx
  exact hrelate hg (hremap _ hk) (hremap _ (hv x hx))

end Merging

/-- **Merging an in-range graph keeps the graph in range.** -/
theorem InRange.absorb (h : g.InRange) {shard : CallGraph} (hshard : shard.InRange) :
    (g.absorb shard).InRange := by
  obtain ⟨t, heq, hpre, -, hmem, hids⟩ := internAll_eq shard.interner.strings g
  have hremaps := internAll_remaps shard g hmem hids
  unfold CallGraph.absorb
  dsimp only
  rw [heq]
  generalize (fun id => (g.internAll shard.interner.strings).2.getD id 0) = remap at hremaps ⊢
  have hremap : ∀ i, i < shard.interner.size → remap i < t.size := by
    intro i hi
    rw [hremaps.eq i hi]
    exact StringInterner.idOf_lt.mpr (hremaps.mem _ (StringInterner.resolve_mem hi))
  have hstart : InRangeFrom t.size { g with interner := t } :=
    ⟨h.grow (StringInterner.size_le_of_grown hpre), Nat.le_refl _⟩
  have hnodes : InRangeFrom t.size
      (shard.nodes.entries.foldl (absorbNode shard remap) { g with interner := t }) :=
    List.foldlRecOn _ _ hstart fun g hg entry hentry => hg.absorbNode hshard hremap hentry
  generalize shard.nodes.entries.foldl (absorbNode shard remap) { g with interner := t } = g₁
    at hnodes ⊢
  have hstored : StoredInRange t.size (shard.edges.foldl (absorbEdge remap) (g₁, [])) :=
    List.foldlRecOn _ _ ⟨hnodes, fun i j hij => by simp at hij⟩ fun st hst src hsrc =>
      hst.absorbEdge hremap (hshard.edge src hsrc)
  generalize shard.edges.foldl (absorbEdge remap) (g₁, []) = stored at hstored ⊢
  have htus : InRangeFrom t.size
      (shard.tuEdges.entries.foldl (absorbTuEdges remap stored.2) stored.1) ∧
      (shard.tuEdges.entries.foldl (absorbTuEdges remap stored.2) stored.1).edges.length
        = stored.1.edges.length := by
    refine List.foldlRecOn (motive := fun g : CallGraph =>
      InRangeFrom t.size g ∧ g.edges.length = stored.1.edges.length) _ _ ⟨hstored.1, rfl⟩ ?_
    intro g hg entry hentry
    have htu := (hshard.tuEdges entry.1 entry.2 ((mem_entries _ _ _).mp hentry)).1
    refine ⟨⟨hg.1.1.tagEdges (Nat.lt_of_lt_of_le (hremap _ htu) hg.1.2) ?_, hg.1.2⟩, hg.2⟩
    intro j hj
    obtain ⟨i, -, hij⟩ := List.mem_filterMap.mp hj
    rw [hg.2]
    exact hstored.2 i j hij
  have hlt {g : CallGraph} (hg : InRangeFrom t.size g) {a : SId} (ha : a < t.size) :
      a < g.interner.size := Nat.lt_of_lt_of_le ha hg.2
  refine (InRangeFrom.absorbRelation hremap ?_ hshard.functionReturns
    (InRangeFrom.absorbRelation hremap ?_ hshard.effectiveImplClasses
    (InRangeFrom.absorbRelation hremap ?_ hshard.methodOverrides
    (InRangeFrom.absorbRelation hremap ?_ hshard.derivedClasses htus.1)))).1
  · exact fun hg ha hb => ⟨hg.1.relateReturn (hlt hg ha) (hlt hg hb), hg.2⟩
  · exact fun hg ha hb => ⟨hg.1.relateImpl (hlt hg ha) (hlt hg hb), hg.2⟩
  · exact fun hg ha hb => ⟨hg.1.relateOverride (hlt hg ha) (hlt hg hb), hg.2⟩
  · exact fun hg ha hb => ⟨hg.1.relateDerived (hlt hg ha) (hlt hg hb), hg.2⟩

/-! ### Runs -/

theorem InRange.apply (h : g.InRange) (op : GraphOp) : (op.apply g).InRange := by
  cases op with
  | call c => exact h.call c
  | removeTUs tus => exact h.removeTUs tus
  | compact => exact h.compact

/-- What the mutators can make of a graph.  The graphs it absorbs are in range. -/
inductive Later (g : CallGraph) : CallGraph → Prop
  | start : Later g g
  | op {g' : CallGraph} (op : GraphOp) : Later g g' → Later g (op.apply g')
  | absorb {g' shard : CallGraph} : Later g g' → shard.InRange → Later g (g'.absorb shard)

/-- **A graph that is in range stays in range.** -/
theorem InRange.later (h : g.InRange) {g' : CallGraph} (hg' : Later g g') : g'.InRange := by
  induction hg' with
  | start => exact h
  | op op _ ih => exact ih.apply op
  | absorb _ hshard ih => exact ih.absorb hshard

end CallGraph

end Vycor
