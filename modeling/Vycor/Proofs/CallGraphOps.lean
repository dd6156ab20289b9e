/-
The registering mutators refine the abstract graph.

Each mutator interns its strings, which changes nothing, and then takes its steps at
their ids.  So its invariant lemma and its refinement lemma are the steps' lemmas in
order, and a list of registrations does what its abstract counterpart does.
-/
import Vycor.Proofs.CallGraphSteps

namespace Vycor

namespace CallGraph

open StringInterner

variable {g : CallGraph}

theorem mem_intern_of_mem {s s' : Str} (h : s ∈ g.interner.strings) :
    s ∈ (g.intern s').interner.strings :=
  (prefix_intern g.interner s').subset h

theorem mem_intern_self (s : Str) : s ∈ (g.intern s).interner.strings :=
  StringInterner.mem_intern g.interner s

/-! ### Nodes -/

theorem putNode_interner (g : CallGraph) (i d : SId) (node : CallGraphNode) :
    (g.putNode i d node).interner = g.interner := by
  unfold putNode
  split <;> rfl

theorem addNode_wf_spec (hwf : WF g) (node : CallGraphNode) (tu : Str) :
    WF (g.addNode node tu) ∧ (g.addNode node tu).spec = g.spec.addNode node tu := by
  set n := node.withUsr with hn
  set g₁ := (g.intern n.usr).intern n.qualifiedName with hg₁
  have hwf₁ : WF g₁ := (hwf.intern _).intern _
  have hspec₁ : g₁.spec = g.spec := ((hwf.intern _).spec_intern _).trans (hwf.spec_intern _)
  have hu : n.usr ∈ g₁.interner.strings := mem_intern_of_mem (mem_intern_self _)
  have hq : n.qualifiedName ∈ g₁.interner.strings := mem_intern_self _
  set g₂ := g₁.putNode (g₁.interner.idOf n.usr) (g₁.interner.idOf n.qualifiedName) n with hg₂
  have hwf₂ : WF g₂ := hwf₁.putNode hu hq
  have hspec₂ := spec_putNode hwf₁ hu
  rw [← hg₂, hspec₁] at hspec₂
  have hint₂ : g₂.interner = g₁.interner := putNode_interner _ _ _ _
  by_cases htu : tu = []
  · have heq : g.addNode node tu = g₂ := if_neg (by simpa using htu)
    rw [heq]
    refine ⟨hwf₂, hspec₂.trans ?_⟩
    refine GraphSpec.ext rfl ?_ rfl rfl rfl rfl
    funext u
    exact (if_neg fun hc => hc.2 htu).symm
  · set g₃ := g₂.intern tu with hg₃
    have heq : g.addNode node tu
        = g₃.addContributor (g₁.interner.idOf n.usr) (g₃.interner.idOf tu) := if_pos htu
    have hu₂ : n.usr ∈ g₂.interner.strings := hint₂ ▸ hu
    have hu₃ : n.usr ∈ g₃.interner.strings := mem_intern_of_mem hu₂
    have hid : g₁.interner.idOf n.usr = g₃.interner.idOf n.usr := by
      rw [← hint₂]
      exact (idOf_of_grown (prefix_intern g₂.interner tu) hu₂).symm
    have htu₃ : tu ∈ g₃.interner.strings := mem_intern_self _
    have hwf₃ : WF g₃ := hwf₂.intern tu
    have hsome : (g₃.nodes.lookup (g₃.interner.idOf n.usr)).isSome := by
      show (g₂.nodes.lookup _).isSome
      rw [← hid, lookup_putNode, if_pos rfl]
      rfl
    rw [heq, hid]
    refine ⟨hwf₃.addContributor hsome (idOf_lt.mpr htu₃), ?_⟩
    rw [spec_addContributor hu₃ htu₃, hwf₂.spec_intern, hspec₂]
    refine GraphSpec.ext rfl ?_ rfl rfl rfl rfl
    funext u
    by_cases hu' : u = n.usr
    · exact (if_pos hu').trans (if_pos ⟨hu', htu⟩).symm
    · exact (if_neg hu').trans (if_neg fun hc => hu' hc.1).symm

/-! ### Edges -/

theorem addEdge_wf_spec (hwf : WF g) (edge : CallGraphEdge) (tu : Str) :
    WF (g.addEdge edge tu) ∧ (g.addEdge edge tu).spec = g.spec.addEdge edge.key tu := by
  set g₁ := ((g.intern edge.callerName).intern edge.calleeName).intern edge.callSite with hg₁
  have hwf₁ : WF g₁ := ((hwf.intern _).intern _).intern _
  have hspec₁ : g₁.spec = g.spec :=
    (((hwf.intern _).intern _).spec_intern _).trans
      (((hwf.intern _).spec_intern _).trans (hwf.spec_intern _))
  have hkey : Interned g₁.interner edge.key :=
    ⟨mem_intern_of_mem (mem_intern_of_mem (mem_intern_self _)),
      mem_intern_of_mem (mem_intern_self _), mem_intern_self _⟩
  set key := edge.key.map g₁.interner.idOf with hkeydef
  set g₂ := g₁.storeEdge key 1 with hg₂
  have hwf₂ : WF g₂ := hwf₁.storeEdge (keyBelow_map hkey) Nat.one_pos
  have hspec₂ := spec_storeEdge hwf₁ hkey 1
  rw [← hkeydef, ← hg₂, hspec₁] at hspec₂
  by_cases htu : tu = []
  · have heq : g.addEdge edge tu = g₂ := if_neg (by simpa using htu)
    rw [heq]
    refine ⟨hwf₂, hspec₂.trans ?_⟩
    refine GraphSpec.ext rfl rfl rfl ?_ ?_ rfl
    · funext k
      simp [GraphSpec.addEdge, htu]
    · funext t k
      simp [GraphSpec.addEdge, htu]
  · set g₃ := g₂.intern tu with hg₃
    have heq : g.addEdge edge tu = g₃.tagEdges (g₃.interner.idOf tu) [g₁.edgePos key] :=
      if_pos htu
    have htu₃ : tu ∈ g₃.interner.strings := mem_intern_self _
    have hwf₃ : WF g₃ := hwf₂.intern tu
    have hroom : ∀ i, UMap.total (List.count i) g₃.tuEdges + [g₁.edgePos key].count i
        ≤ refsAt g₃.edges i := by
      intro i
      show UMap.total (List.count i) g₂.tuEdges + _ ≤ refsAt g₂.edges i
      have hrefs : refsAt g₂.edges i = _ := refsAt_storeEdge g₁ hwf₁.edges.indexed key 1 i
      have := hwf₁.prov i
      have htuEdges : g₂.tuEdges = g₁.tuEdges := storeEdge_tuEdges _ _ _
      rw [hrefs, htuEdges, List.count_singleton]
      by_cases hi : i = g₁.edgePos key
      · simp [hi] at this ⊢
        omega
      · simp [hi, Ne.symm hi]
        omega
    rw [heq]
    refine ⟨hwf₃.tagEdges (idOf_lt.mpr htu₃) hroom, ?_⟩
    have hat : ∀ k, atKey g₃.edgeIndex (k.map g₃.interner.idOf)
        (fun i => [g₁.edgePos key].count i) = if k = edge.key then 1 else 0 := by
      intro k
      have hlook := lookup_storeEdge g₁ key 1 (k.map g₁.interner.idOf)
      have hgrow := hwf₂.lookup_grow (prefix_intern g₂.interner tu) k
      have hint₂ : g₂.interner = g₁.interner := storeEdge_interner _ _ _
      unfold atKey
      show (Option.map _ (AList.lookup (k.map (g₂.interner.intern tu).idOf) g₂.edgeIndex)).getD 0 = _
      rw [hgrow, hint₂, hlook, hkeydef]
      simp only [map_inj hkey]
      by_cases hk : k = edge.key
      · simp [hk]
      · rw [if_neg hk, if_neg hk]
        cases hl : g₁.edgeIndex.lookup (k.map g₁.interner.idOf) with
        | none => rfl
        | some i =>
            have hne : i ≠ g₁.edgePos key :=
              edgePos_ne hwf₁.edges.indexed hl fun hc => hk ((map_inj hkey).mp hc)
            rw [Option.map_some, Option.getD_some, List.count_singleton,
              if_neg (by simpa using Ne.symm hne)]
    rw [spec_tagEdges htu₃, hwf₂.spec_intern, hspec₂]
    refine GraphSpec.ext rfl rfl rfl ?_ ?_ rfl
    · funext k
      show _ + _ - atKey _ _ _ = _
      rw [hat k]
      by_cases hk : k = edge.key <;> simp [GraphSpec.addEdge, htu, hk]
    · funext t k
      show _ + (if t = tu then atKey _ _ _ else 0) = _
      rw [hat k]
      by_cases hk : k = edge.key <;> by_cases ht : t = tu <;>
        simp [GraphSpec.addEdge, htu, hk, ht]

/-! ### Relations -/

theorem relate_wf_spec (hwf : WF g) (r : Relation) (a b : Str) :
    let g₁ := (g.intern a).intern b
    WF (relateStep r g₁ (g₁.interner.idOf a) (g₁.interner.idOf b)) ∧
    (relateStep r g₁ (g₁.interner.idOf a) (g₁.interner.idOf b)).spec = g.spec.relate r a b := by
  intro g₁
  have hwf₁ : WF g₁ := (hwf.intern a).intern b
  have ha : a ∈ g₁.interner.strings := mem_intern_of_mem (mem_intern_self a)
  have hb : b ∈ g₁.interner.strings := mem_intern_self b
  refine ⟨hwf₁.relateStep r (idOf_lt.mpr ha) (idOf_lt.mpr hb), ?_⟩
  rw [spec_relateStep r ha hb, (hwf.intern a).spec_intern, hwf.spec_intern]

end CallGraph

/-! ### Registrations

Every registration refines the abstract one. The results about whole histories
need no more than this about the mutators.
-/

theorem Call.apply_wf_spec {g : CallGraph} (hwf : g.WF) (call : Call) :
    (call.apply g).WF ∧ (call.apply g).spec = call.spec g.spec := by
  cases call with
  | node n tu => exact CallGraph.addNode_wf_spec hwf n tu
  | edge e tu => exact CallGraph.addEdge_wf_spec hwf e tu
  | derivedClass a b _ => exact CallGraph.relate_wf_spec hwf .derivedClass a b
  | methodOverride a b _ => exact CallGraph.relate_wf_spec hwf .methodOverride a b
  | effectiveImpl a b _ => exact CallGraph.relate_wf_spec hwf .effectiveImpl b a
  | functionReturn a b _ => exact CallGraph.relate_wf_spec hwf .functionReturn a b

/-- **Registering refines abstract registering.** -/
theorem CallGraph.register_wf_spec (calls : List Call) {g : CallGraph} (hwf : g.WF) :
    (g.register calls).WF ∧ (g.register calls).spec = g.spec.register calls := by
  induction calls generalizing g with
  | nil => exact ⟨hwf, rfl⟩
  | cons call rest ih =>
      obtain ⟨hwf', hspec⟩ := call.apply_wf_spec hwf
      obtain ⟨hwf'', hspec'⟩ := ih hwf'
      refine ⟨hwf'', ?_⟩
      rw [hspec] at hspec'
      exact hspec'

end Vycor
