/-
Which nodes survive removals.

The graph knows of a node only the TUs that contribute it, and drops it with the last of them.  An
untagged registration adds no TU: it counts as long as it is alone, or as others contribute too, and
is forgotten with the last TU that does.  So nodes survive as promised exactly when no removal takes
the last TU of a node that was registered under none as well.
-/
import Mathlib.Data.Set.Basic
import Vycor.Proofs.Provenance

namespace Vycor

/-! ### What a removal takes -/

namespace GraphSpec

theorem removeTUs_contributors (s : GraphSpec) (tus : List Str) (u : Str) :
    (s.removeTUs tus).contributors u = s.contributors u \ {tu | tu ∈ tus} := by
  unfold removeTUs
  induction tus generalizing s with
  | nil => simp
  | cons tu rest ih =>
      rw [List.foldl_cons, ih]
      change (s.contributors u \ {tu}) \ {t | t ∈ rest} = _
      rw [Set.sdiff_sdiff]
      refine congrArg (s.contributors u \ ·) (Set.ext fun t => ?_)
      simp

open Classical in
/-- A node goes when all that contribute it are removed, and somebody did. -/
theorem removeTUs_node (s : GraphSpec) (tus : List Str) (u : Str) :
    (s.removeTUs tus).node u = none ↔
      s.node u = none ∨ (s.contributors u).Nonempty ∧ s.contributors u ⊆ {tu | tu ∈ tus} := by
  unfold removeTUs
  induction tus generalizing s with
  | nil =>
      refine ⟨Or.inl, ?_⟩
      rintro (hnone | ⟨⟨tu, htu⟩, hsub⟩)
      · exact hnone
      · exact absurd (hsub htu) List.not_mem_nil
  | cons tu rest ih =>
      rw [List.foldl_cons, ih]
      have hnode : (s.removeTU tu).node u = none ↔
          (tu ∈ s.contributors u ∧ s.contributors u ⊆ {tu}) ∨ s.node u = none := by
        change (if tu ∈ s.contributors u ∧ s.contributors u ⊆ {tu} then none else s.node u) = none ↔ _
        split
        · rename_i halone
          exact ⟨fun _ => Or.inl halone, fun _ => rfl⟩
        · rename_i hothers
          exact ⟨Or.inr, fun h => h.resolve_left hothers⟩
      have hleft : ((s.removeTU tu).contributors u).Nonempty ∧
          (s.removeTU tu).contributors u ⊆ {t | t ∈ rest} ↔
          (∃ t ∈ s.contributors u, t ≠ tu) ∧ s.contributors u ⊆ {t | t ∈ tu :: rest} := by
        change (s.contributors u \ {tu}).Nonempty ∧ s.contributors u \ {tu} ⊆ {t | t ∈ rest} ↔ _
        rw [Set.sdiff_subset_iff]
        refine and_congr Iff.rfl (Iff.of_eq (congrArg (s.contributors u ⊆ ·) (Set.ext fun t => ?_)))
        simp
      rw [hnode, hleft]
      constructor
      · rintro ((⟨hin, halone⟩ | hnone) | ⟨⟨t, ht, -⟩, hsub⟩)
        · refine Or.inr ⟨⟨tu, hin⟩, fun t ht => ?_⟩
          exact (Set.mem_singleton_iff.mp (halone ht)) ▸ List.mem_cons_self
        · exact Or.inl hnone
        · exact Or.inr ⟨⟨t, ht⟩, hsub⟩
      · rintro (hnone | ⟨⟨t, ht⟩, hsub⟩)
        · exact Or.inl (Or.inr hnone)
        · by_cases hothers : ∃ t ∈ s.contributors u, t ≠ tu
          · exact Or.inr ⟨hothers, hsub⟩
          · have halone : s.contributors u ⊆ {tu} := by
              intro x hx
              by_contra hne
              exact hothers ⟨x, hx, hne⟩
            exact Or.inl (Or.inl ⟨(Set.mem_singleton_iff.mp (halone ht)) ▸ ht, halone⟩)

end GraphSpec

/-! ### Registrations of a node -/

namespace Script

/-- The node was registered under no TU. -/
def UntaggedNode (u : Str) : Script → Prop
  | empty => False
  | op s (.call (.node n tu)) => s.UntaggedNode u ∨ (u = n.withUsr.usr ∧ tu = [])
  | op s _ => s.UntaggedNode u
  | absorb s shard => s.UntaggedNode u ∨ shard.UntaggedNode u

/-- The TUs that registered the node since they were removed last. -/
def holders (u : Str) : Script → Set Str
  | empty => ∅
  | op s (.call (.node n tu)) =>
    {t | t ∈ s.holders u ∨ (u = n.withUsr.usr ∧ tu ≠ [] ∧ t = tu)}
  | op s (.call _) => s.holders u
  | op s (.removeTUs tus) => {t | t ∈ s.holders u ∧ t ∉ tus}
  | op s .compact => s.holders u
  | absorb s shard => {t | t ∈ s.holders u ∨ t ∈ shard.holders u}

/-- The node of the usr is in the graph. -/
def HasNode (s : Script) (u : Str) : Prop :=
  (s.graph.nodes.lookup (s.graph.interner.idOf u)).isSome = true

/-- A node is there exactly while it has a registration left. -/
def NodesSurvive (s : Script) : Prop :=
  ∀ u, s.HasNode u ↔ s.UntaggedNode u ∨ (s.holders u).Nonempty

/-- The graphs that a script goes through, those of its shards among them. -/
inductive Part (t : Script) : Script → Prop
  | refl : Part t t
  | op {s : Script} (h : Part t s) (o : GraphOp) : Part t (s.op o)
  | master {s : Script} (h : Part t s) (shard : Script) : Part t (s.absorb shard)
  | shard {s : Script} (h : Part t s) (master : Script) : Part t (master.absorb s)

/-- No removal takes the last TU of a node that was registered under none as well. -/
def KeepsUntagged : Script → Prop
  | empty => True
  | op s (.removeTUs tus) =>
    s.KeepsUntagged ∧
      ∀ u, s.UntaggedNode u → (s.holders u).Nonempty → ∃ tu ∈ s.holders u, tu ∉ tus
  | op s _ => s.KeepsUntagged
  | absorb s shard => s.KeepsUntagged ∧ shard.KeepsUntagged

/-! ### Survival

Contributors are all a removal looks at, and a registration under no TU leaves
none behind. So a node that has such a registration besides others goes with the
last of the others.
-/

theorem contributors_eq (s : Script) (u : Str) : s.graph.spec.contributors u = s.holders u := by
  induction s with
  | empty => simp [graph, holders, CallGraph.spec]
  | op s o ih =>
      rw [spec_op]
      cases o with
      | call c =>
          cases c with
          | node n tu =>
              refine Set.ext fun t => ?_
              change t ∈ (if u = n.withUsr.usr ∧ tu ≠ [] then insert tu (s.graph.spec.contributors u)
                else s.graph.spec.contributors u) ↔
                t ∈ s.holders u ∨ (u = n.withUsr.usr ∧ tu ≠ [] ∧ t = tu)
              rw [ih]
              by_cases hadd : u = n.withUsr.usr ∧ tu ≠ []
              · rw [if_pos hadd, Set.mem_insert_iff, or_comm]
                exact or_congr_right ⟨fun ht => ⟨hadd.1, hadd.2, ht⟩, fun h => h.2.2⟩
              · rw [if_neg hadd]
                exact ⟨Or.inl, fun h => h.resolve_right fun hc => hadd ⟨hc.1, hc.2.1⟩⟩
          | edge e tu => exact ih
          | derivedClass a b tu => exact ih
          | methodOverride a b tu => exact ih
          | effectiveImpl a b tu => exact ih
          | functionReturn a b tu => exact ih
      | removeTUs tus =>
          exact (GraphSpec.removeTUs_contributors _ tus u).trans (congrArg (· \ {t | t ∈ tus}) ih)
      | compact => exact ih
  | absorb s shard ih ihshard =>
      rw [spec_absorb]
      change s.graph.spec.contributors u ∪ shard.graph.spec.contributors u = _
      rw [ih, ihshard]
      rfl

theorem hasNode_iff (s : Script) (u : Str) : s.HasNode u ↔ s.graph.spec.node u ≠ none :=
  Option.isSome_iff_ne_none

theorem hasNode_node (s : Script) (n : CallGraphNode) (tu u : Str) :
    (s.op (.call (.node n tu))).HasNode u ↔ u = n.withUsr.usr ∨ s.HasNode u := by
  rw [hasNode_iff, hasNode_iff, spec_op]
  change (if u = n.withUsr.usr then some _ else s.graph.spec.node u) ≠ none ↔ _
  split
  · rename_i hu
    exact ⟨fun _ => Or.inl hu, fun _ => Option.some_ne_none _⟩
  · rename_i hu
    exact ⟨Or.inr, fun h => h.resolve_left hu⟩

theorem hasNode_absorb (s shard : Script) (u : Str) :
    (s.absorb shard).HasNode u ↔ s.HasNode u ∨ shard.HasNode u := by
  rw [hasNode_iff, hasNode_iff, hasNode_iff, spec_absorb]
  change GraphSpec.mergedNode (s.graph.spec.node u) (shard.graph.spec.node u) ≠ none ↔ _
  cases shard.graph.spec.node u with
  | none => exact ⟨Or.inl, fun h => h.resolve_right fun hc => hc rfl⟩
  | some node => exact ⟨fun _ => Or.inr (Option.some_ne_none _), fun _ => Option.some_ne_none _⟩

/-- What a removal leaves. -/
theorem hasNode_removeTUs (s : Script) (tus : List Str) (u : Str) :
    (s.op (.removeTUs tus)).HasNode u ↔
      s.HasNode u ∧ ((s.holders u).Nonempty → ∃ tu ∈ s.holders u, tu ∉ tus) := by
  rw [hasNode_iff, hasNode_iff, spec_op]
  change (s.graph.spec.removeTUs tus).node u ≠ none ↔ _
  rw [ne_eq, GraphSpec.removeTUs_node, not_or, contributors_eq]
  refine and_congr_right fun _ => ?_
  rw [not_and, Set.not_subset]
  rfl

/-- **A step keeps nodes surviving exactly when it takes no last TU from an untagged node.** -/
theorem nodesSurvive_removeTUs {s : Script} (h : s.NodesSurvive) (tus : List Str) :
    (s.op (.removeTUs tus)).NodesSurvive ↔
      ∀ u, s.UntaggedNode u → (s.holders u).Nonempty → ∃ tu ∈ s.holders u, tu ∉ tus := by
  constructor
  · intro hafter u huntagged
    exact ((hasNode_removeTUs s tus u).mp ((hafter u).mpr (Or.inl huntagged))).2
  · intro hkeeps u
    rw [hasNode_removeTUs, h u]
    change _ ↔ s.UntaggedNode u ∨ ∃ tu, tu ∈ s.holders u ∧ tu ∉ tus
    constructor
    · rintro ⟨huntagged | hheld, hleft⟩
      · exact Or.inl huntagged
      · exact Or.inr (hleft hheld)
    · rintro (huntagged | ⟨tu, htu, hnot⟩)
      · exact ⟨Or.inl huntagged, hkeeps u huntagged⟩
      · exact ⟨Or.inr ⟨tu, htu⟩, fun _ => ⟨tu, htu, hnot⟩⟩

theorem NodesSurvive.node {s : Script} (h : s.NodesSurvive) (n : CallGraphNode) (tu : Str) :
    (s.op (.call (.node n tu))).NodesSurvive := by
  intro u
  rw [hasNode_node, h u]
  change _ ↔ (s.UntaggedNode u ∨ (u = n.withUsr.usr ∧ tu = [])) ∨
    ∃ t, t ∈ s.holders u ∨ (u = n.withUsr.usr ∧ tu ≠ [] ∧ t = tu)
  constructor
  · rintro (hu | huntagged | ⟨t, ht⟩)
    · by_cases htu : tu = []
      · exact Or.inl (Or.inr ⟨hu, htu⟩)
      · exact Or.inr ⟨tu, Or.inr ⟨hu, htu, rfl⟩⟩
    · exact Or.inl (Or.inl huntagged)
    · exact Or.inr ⟨t, Or.inl ht⟩
  · rintro ((huntagged | ⟨hu, -⟩) | ⟨t, ht | ⟨hu, -⟩⟩)
    · exact Or.inr (Or.inl huntagged)
    · exact Or.inl hu
    · exact Or.inr (Or.inr ⟨t, ht⟩)
    · exact Or.inl hu

theorem NodesSurvive.absorb {s shard : Script} (h : s.NodesSurvive) (hshard : shard.NodesSurvive) :
    (s.absorb shard).NodesSurvive := by
  intro u
  rw [hasNode_absorb, h u, hshard u]
  change _ ↔ (s.UntaggedNode u ∨ shard.UntaggedNode u) ∨ ∃ t, t ∈ s.holders u ∨ t ∈ shard.holders u
  rw [exists_or]
  exact or_or_or_comm

/-- Other registrations and compaction leave the nodes alone. -/
theorem NodesSurvive.other {s : Script} (h : s.NodesSurvive) {o : GraphOp}
    (hnode : (o.spec s.graph.spec).node = s.graph.spec.node)
    (huntagged : ∀ u, (s.op o).UntaggedNode u ↔ s.UntaggedNode u)
    (hholders : ∀ u, (s.op o).holders u = s.holders u) : (s.op o).NodesSurvive := by
  intro u
  rw [hasNode_iff, spec_op, hnode, ← hasNode_iff, h u, huntagged, hholders]

theorem nodesSurvive_empty : empty.NodesSurvive := by
  intro u
  refine ⟨fun h => ?_, fun h => ?_⟩
  · cases h
  · rcases h with h | ⟨_, h⟩
    · cases h
    · cases h

theorem KeepsUntagged.nodesSurvive {s : Script} (h : s.KeepsUntagged) : s.NodesSurvive := by
  induction s with
  | empty => exact nodesSurvive_empty
  | op s o ih =>
      cases o with
      | call c =>
          cases c with
          | node n tu => exact (ih h).node n tu
          | edge e tu => exact (ih h).other rfl (fun _ => Iff.rfl) fun _ => rfl
          | derivedClass a b tu => exact (ih h).other rfl (fun _ => Iff.rfl) fun _ => rfl
          | methodOverride a b tu => exact (ih h).other rfl (fun _ => Iff.rfl) fun _ => rfl
          | effectiveImpl a b tu => exact (ih h).other rfl (fun _ => Iff.rfl) fun _ => rfl
          | functionReturn a b tu => exact (ih h).other rfl (fun _ => Iff.rfl) fun _ => rfl
      | removeTUs tus => exact (nodesSurvive_removeTUs (ih h.1) tus).mpr h.2
      | compact => exact (ih h).other rfl (fun _ => Iff.rfl) fun _ => rfl
  | absorb s shard ih ihshard => exact (ih h.1).absorb (ihshard h.2)

/-- **Nodes survive in all graphs of a script exactly when none of its removals takes the last TU of
a node that was registered under none as well.** -/
theorem nodes_survive_iff (s : Script) : (∀ t, Part t s → t.NodesSurvive) ↔ s.KeepsUntagged := by
  constructor
  · intro h
    induction s with
    | empty => trivial
    | op s o ih =>
        have hs := ih fun t ht => h t (ht.op o)
        cases o with
        | call c =>
            cases c with
            | node n tu => exact hs
            | edge e tu => exact hs
            | derivedClass a b tu => exact hs
            | methodOverride a b tu => exact hs
            | effectiveImpl a b tu => exact hs
            | functionReturn a b tu => exact hs
        | removeTUs tus =>
            exact ⟨hs, (nodesSurvive_removeTUs (h s (Part.refl.op _)) tus).mp (h _ Part.refl)⟩
        | compact => exact hs
    | absorb s shard ih ihshard =>
        exact ⟨ih fun t ht => h t (ht.master shard), ihshard fun t ht => h t (ht.shard s)⟩
  · intro h t ht
    induction ht with
    | refl => exact h.nodesSurvive
    | op _ o ih =>
        cases o with
        | call c =>
            cases c with
            | node n tu => exact ih h
            | edge e tu => exact ih h
            | derivedClass a b tu => exact ih h
            | methodOverride a b tu => exact ih h
            | effectiveImpl a b tu => exact ih h
            | functionReturn a b tu => exact ih h
        | removeTUs tus => exact ih h.1
        | compact => exact ih h
    | master _ _ ih => exact ih h.1
    | shard _ _ ih => exact ih h.2

/-- `f` under no TU and under `a.cpp`, which is removed. -/
def untaggedThenRemoved : Script :=
  let f : CallGraphNode := { qualifiedName := str "f", usr := str "f" }
  ((Script.empty.op (.call (.node f []))).op (.call (.node f (str "a.cpp")))).op
    (.removeTUs [str "a.cpp"])

/-- The untagged registration is forgotten with the TU. -/
theorem untagged_node_removed :
    untaggedThenRemoved.UntaggedNode (str "f") ∧ ¬ untaggedThenRemoved.HasNode (str "f") ∧
      ¬ ∀ t, Part t untaggedThenRemoved → t.NodesSurvive := by
  have huntagged : untaggedThenRemoved.UntaggedNode (str "f") := Or.inl (Or.inr ⟨by decide, rfl⟩)
  have hgone : ¬ untaggedThenRemoved.HasNode (str "f") := by
    unfold HasNode
    decide +kernel
  exact ⟨huntagged, hgone, fun h => hgone ((h _ Part.refl (str "f")).mpr (Or.inl huntagged))⟩

end Script

end Vycor
