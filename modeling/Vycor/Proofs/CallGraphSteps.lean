/-
Each step in id space keeps the invariant and does one thing.

A step is stated at the ids of strings that are interned already, since that is how every
mutator calls it.  The effect is an equation between abstract graphs; what the step does
not mention stays as it is.
-/
import Vycor.Proofs.CallGraphWF

namespace Vycor

namespace CallGraph

open Dedup StringInterner

variable {g : CallGraph}

/-! ### Nodes -/

theorem lookup_putNode (g : CallGraph) (nameId displayId : SId) (node : CallGraphNode) (i : SId) :
    (g.putNode nameId displayId node).nodes.lookup i
      = if i = nameId then some (node.onto (g.nodes.lookup nameId)) else g.nodes.lookup i := by
  unfold putNode
  cases hl : g.nodes.lookup nameId with
  | none => exact UMap.lookup_insert_ite _ _ _ _
  | some old => exact UMap.lookup_insert_ite _ _ _ _

theorem putNode_nodesOK (hnodes : NodesOK g.interner g.nodes g.byName) (nameId : SId)
    (node : CallGraphNode) :
    NodesOK g.interner (g.putNode nameId (g.interner.idOf node.qualifiedName) node).nodes
      (g.putNode nameId (g.interner.idOf node.qualifiedName) node).byName := by
  unfold putNode
  cases hl : g.nodes.lookup nameId with
  | none =>
      intro d
      obtain ⟨hnd, hmem⟩ := hnodes d
      show (UMap.getD (UMap.upsert _ _ _ _) d []).Nodup ∧ _
      rw [UMap.getD_upsert]
      constructor
      · split
        · exact nodup_pushUnique (hnodes _).1 _
        · exact hnd
      · intro i
        show i ∈ UMap.getD (UMap.upsert _ _ _ _) d [] ↔
          ∃ n, AList.lookup i (AList.insert nameId node g.nodes) = some n ∧ _
        rw [UMap.getD_upsert, UMap.lookup_insert_ite]
        by_cases hi : i = nameId
        · subst hi
          have hnot : ∀ d', i ∉ g.byName.getD d' [] := by
            intro d' hc
            obtain ⟨n, hn, -⟩ := ((hnodes d').2 i).mp hc
            rw [hl] at hn
            simp at hn
          by_cases hd : d = g.interner.idOf node.qualifiedName
          · simp [hd]
          · simp [hd, hnot, Ne.symm hd]
        · rw [if_neg hi, ← hmem i]
          by_cases hd : d = g.interner.idOf node.qualifiedName
          · simp [hd, hi]
          · simp [hd]
  | some old =>
      intro d
      refine ⟨(hnodes d).1, ?_⟩
      intro i
      show i ∈ g.byName.getD d [] ↔
        ∃ n, AList.lookup i (AList.insert nameId (old.backfill node) g.nodes) = some n ∧ _
      rw [(hnodes d).2 i, UMap.lookup_insert_ite]
      by_cases hi : i = nameId
      · subst hi
        simp [hl, CallGraphNode.backfill]
      · simp [hi]

/-- Putting a node changes the nodes and their display index, and nothing else. -/
theorem putNode_eq (hnodes : NodesOK g.interner g.nodes g.byName) (nameId : SId)
    (node : CallGraphNode) :
    ∃ nodes byName,
      g.putNode nameId (g.interner.idOf node.qualifiedName) node = { g with nodes, byName } ∧
      (∀ i, nodes.lookup i
        = if i = nameId then some (node.onto (g.nodes.lookup nameId)) else g.nodes.lookup i) ∧
      NodesOK g.interner nodes byName := by
  refine ⟨_, _, ?_, lookup_putNode g nameId _ node, putNode_nodesOK hnodes nameId node⟩
  unfold putNode
  split <;> rfl

theorem WF.putNode (hwf : WF g) {node : CallGraphNode} (hu : node.usr ∈ g.interner.strings)
    (hq : node.qualifiedName ∈ g.interner.strings) :
    WF (g.putNode (g.interner.idOf node.usr) (g.interner.idOf node.qualifiedName) node) := by
  obtain ⟨nodes, byName, heq, hlook, hnodes⟩ :=
    putNode_eq hwf.nodes (g.interner.idOf node.usr) node
  rw [heq]
  refine { hwf with ids := { hwf.ids with node := ?_ }, nodes := hnodes, contributed := ?_ }
  · intro i n hn
    rw [hlook] at hn
    split at hn
    · rename_i hi
      injection hn with hn
      subst hi hn
      refine ⟨idOf_lt.mpr hu, ?_⟩
      show g.interner.resolve _ = _ ∧ _
      rw [resolve_idOf hu]
      cases hold : g.nodes.lookup (g.interner.idOf node.usr) with
      | none => exact ⟨rfl, hq⟩
      | some old =>
          obtain ⟨-, hres, hname⟩ := hwf.ids.node _ _ hold
          rw [resolve_idOf hu] at hres
          exact ⟨hres, hname⟩
    · exact hwf.ids.node i n hn
  · intro i t ht
    show (nodes.lookup i).isSome
    rw [hlook]
    split
    · rfl
    · exact hwf.contributed i t ht

theorem spec_putNode (hwf : WF g) {node : CallGraphNode} (hu : node.usr ∈ g.interner.strings) :
    (g.putNode (g.interner.idOf node.usr) (g.interner.idOf node.qualifiedName) node).spec
      = { g.spec with
          node := fun u =>
            if u = node.usr then some (node.onto (g.spec.node u)) else g.spec.node u } := by
  obtain ⟨nodes, byName, heq, hlook, -⟩ := putNode_eq hwf.nodes (g.interner.idOf node.usr) node
  rw [heq]
  refine GraphSpec.ext ?_ rfl rfl rfl rfl rfl
  funext u
  show nodes.lookup (g.interner.idOf u) = _
  rw [hlook]
  simp only [idOf_inj hu]
  by_cases h : u = node.usr
  · subst h
    rfl
  · rw [if_neg h, if_neg h]
    rfl

/-! ### Contributors -/

theorem ReverseOf.insert {fwd rev : UMap SId (List SId)} (h : ReverseOf fwd rev) (x y : SId) :
    ReverseOf (fwd.upsert x [] (setInsert · y))
      (if y ∈ fwd.getD x [] then rev else rev.upsert y [] (· ++ [x])) := by
  intro y'
  obtain ⟨hnd, hmem⟩ := h y'
  by_cases hin : y ∈ fwd.getD x []
  · rw [if_pos hin]
    refine ⟨hnd, ?_⟩
    intro x'
    rw [hmem x', UMap.getD_upsert]
    by_cases hx : x' = x
    · subst hx
      rw [if_pos rfl, mem_setInsert]
      constructor
      · exact Or.inl
      · rintro (hy | rfl)
        · exact hy
        · exact hin
    · rw [if_neg hx]
  · rw [if_neg hin, UMap.getD_upsert]
    by_cases hy : y' = y
    · subst hy
      rw [if_pos rfl]
      have hfresh : x ∉ rev.getD y' [] := fun hc => hin ((hmem x).mp hc)
      refine ⟨List.nodup_append.mpr ⟨hnd, List.nodup_singleton x, ?_⟩, ?_⟩
      · intro a ha b hb hab
        rw [List.mem_singleton.mp hb] at hab
        exact hfresh (hab ▸ ha)
      · intro x'
        rw [List.mem_append, hmem x', List.mem_singleton, UMap.getD_upsert]
        by_cases hx : x' = x
        · subst hx
          simp
        · simp [hx]
    · rw [if_neg hy]
      refine ⟨hnd, ?_⟩
      intro x'
      rw [hmem x', UMap.getD_upsert]
      by_cases hx : x' = x
      · subst hx
        simp [hy]
      · rw [if_neg hx]

theorem ReverseOf.push {fwd rev : UMap SId (List SId)} (h : ReverseOf fwd rev) (x y : SId) :
    ReverseOf (fwd.upsert x [] (pushUnique · y)) (rev.upsert y [] (pushUnique · x)) := by
  intro y'
  obtain ⟨hnd, hmem⟩ := h y'
  rw [UMap.getD_upsert]
  constructor
  · split
    · exact nodup_pushUnique (h y).1 x
    · exact hnd
  · intro x'
    rw [UMap.getD_upsert]
    have hx' := hmem x'
    by_cases hy : y' = y
    · subst hy
      by_cases hx : x' = x
      · subst hx
        simp
      · simp [hx, hx']
    · by_cases hx : x' = x
      · subst hx
        simp [hy, hx']
      · simp [hx, hy, hx']

theorem WF.addContributor (hwf : WF g) {i t : SId} (hi : (g.nodes.lookup i).isSome)
    (ht : t < g.interner.size) : WF (g.addContributor i t) := by
  have hmem : ∀ i' t', t' ∈ (g.nodeContributors.upsert i [] (setInsert · t)).getD i' [] →
      t' ∈ g.nodeContributors.getD i' [] ∨ (i' = i ∧ t' = t) := by
    intro i' t' hc
    rw [UMap.getD_upsert] at hc
    split at hc
    · rename_i hii
      subst hii
      rcases mem_setInsert.mp hc with hc | hc
      · exact Or.inl hc
      · exact Or.inr ⟨rfl, hc⟩
    · exact Or.inl hc
  obtain ⟨n, hn⟩ := Option.isSome_iff_exists.mp hi
  refine { hwf with
    ids := { hwf.ids with contributor := ?_ }, contributed := ?_, tuNodes := hwf.tuNodes.insert i t }
  · intro i' t' hc
    rcases hmem i' t' hc with hc | ⟨rfl, rfl⟩
    · exact hwf.ids.contributor i' t' hc
    · exact ⟨(hwf.ids.node _ n hn).1, ht⟩
  · intro i' t' hc
    rcases hmem i' t' hc with hc | ⟨rfl, -⟩
    · exact hwf.contributed i' t' hc
    · exact hi

theorem spec_addContributor {u t : Str} (hu : u ∈ g.interner.strings)
    (ht : t ∈ g.interner.strings) :
    (g.addContributor (g.interner.idOf u) (g.interner.idOf t)).spec
      = { g.spec with
          contributors := fun u' =>
            if u' = u then insert t (g.spec.contributors u') else g.spec.contributors u' } := by
  refine GraphSpec.ext rfl ?_ rfl rfl rfl rfl
  funext u'
  refine Set.ext fun t' => ?_
  show g.interner.idOf t' ∈ UMap.getD (UMap.upsert _ _ _ _) (g.interner.idOf u') [] ↔ _
  rw [UMap.getD_upsert]
  simp only [idOf_inj hu]
  by_cases h : u' = u
  · subst h
    rw [if_pos rfl, if_pos rfl, mem_setInsert, idOf_inj ht, or_comm]
    rfl
  · rw [if_neg h, if_neg h]
    rfl

/-! ### Relations

The four relations are one step with the pair's maps as a parameter.
-/

/-- The step that adds a pair to a relation. -/
def relateStep : Relation → CallGraph → SId → SId → CallGraph
  | .derivedClass => relateDerived
  | .methodOverride => relateOverride
  | .effectiveImpl => relateImpl
  | .functionReturn => relateReturn

theorem mem_relateStep (r r' : Relation) (g : CallGraph) (i j x y : SId) :
    y ∈ ((relateStep r g i j).relation r').getD x []
      ↔ y ∈ (g.relation r').getD x [] ∨ (r' = r ∧ x = i ∧ y = j) := by
  by_cases hr : r' = r
  · subst hr
    by_cases hx : x = i
    · subst hx
      cases r' <;> simp [relateStep, relation, relateDerived, relateOverride, relateImpl,
        relateReturn, UMap.getD_upsert]
    · cases r' <;> simp [relateStep, relation, relateDerived, relateOverride, relateImpl,
        relateReturn, UMap.getD_upsert, hx]
  · cases r <;> cases r' <;> simp_all [relateStep, relation, relateDerived, relateOverride,
      relateImpl, relateReturn]

theorem relateStep_interner (r : Relation) (g : CallGraph) (i j : SId) :
    (relateStep r g i j).interner = g.interner := by
  cases r <;> rfl

theorem WF.relateStep (hwf : WF g) (r : Relation) {i j : SId} (hi : i < g.interner.size)
    (hj : j < g.interner.size) : WF (relateStep r g i j) := by
  have hids : ∀ r' x y, y ∈ ((CallGraph.relateStep r g i j).relation r').getD x [] →
      x < g.interner.size ∧ y < g.interner.size := by
    intro r' x y hc
    rcases (mem_relateStep r r' g i j x y).mp hc with hc | ⟨-, rfl, rfl⟩
    · exact hwf.ids.related r' x y hc
    · exact ⟨hi, hj⟩
  cases r with
  | derivedClass => exact { hwf with ids := { hwf.ids with related := hids } }
  | methodOverride =>
      exact { hwf with
        ids := { hwf.ids with related := hids }, overrideBases := hwf.overrideBases.push i j }
  | effectiveImpl => exact { hwf with ids := { hwf.ids with related := hids } }
  | functionReturn =>
      exact { hwf with
        ids := { hwf.ids with related := hids }, returnedBy := hwf.returnedBy.insert i j }

theorem spec_relateStep (r : Relation) {a b : Str} (ha : a ∈ g.interner.strings)
    (hb : b ∈ g.interner.strings) :
    (relateStep r g (g.interner.idOf a) (g.interner.idOf b)).spec = g.spec.relate r a b := by
  have hint := relateStep_interner r g (g.interner.idOf a) (g.interner.idOf b)
  have hrel : (relateStep r g (g.interner.idOf a) (g.interner.idOf b)).spec.related
      = (g.spec.relate r a b).related := by
    funext r' x y
    refine propext ?_
    show _ ∈ (CallGraph.relation _ r').getD _ [] ↔ _
    rw [hint, mem_relateStep, idOf_inj ha, idOf_inj hb]
    rfl
  cases r <;> exact GraphSpec.ext rfl rfl rfl rfl rfl hrel

/-! ### Edges

Storing touches one position. A property of positions, read at keys, therefore
changes at one key, and this one fact gives the registrations, the tags and what
is left untagged.
-/

/-- The key of an abstract edge, when its strings are interned. -/
def Interned (t : StringInterner) (k : EdgeKey Str) : Prop :=
  k.caller ∈ t.strings ∧ k.callee ∈ t.strings ∧ k.callSite ∈ t.strings

theorem keyBelow_map {k : EdgeKey Str} (h : Interned g.interner k) :
    KeyBelow g.interner.size (k.map g.interner.idOf) :=
  ⟨idOf_lt.mpr h.1, idOf_lt.mpr h.2.1, idOf_lt.mpr h.2.2⟩

theorem map_inj {k k' : EdgeKey Str} (h : Interned g.interner k) :
    k'.map g.interner.idOf = k.map g.interner.idOf ↔ k' = k := by
  constructor
  · intro heq
    obtain ⟨a, b, c, _, _, _, _⟩ := k
    obtain ⟨a', b', c', _, _, _, _⟩ := k'
    simp only [EdgeKey.map, EdgeKey.mk.injEq] at heq ⊢
    obtain ⟨h₁, h₂, h₃, hrest⟩ := heq
    exact ⟨(idOf_inj h.1).mp h₁, (idOf_inj h.2.1).mp h₂, (idOf_inj h.2.2).mp h₃, hrest⟩
  · rintro rfl
    rfl

/-- The position of a stored key is not the one another key is or will be stored at. -/
theorem edgePos_ne (hindex : Indexed g.edges g.edgeIndex) {k key : EdgeKey SId} {i : Nat}
    (hl : g.edgeIndex.lookup k = some i) (hk : k ≠ key) : i ≠ g.edgePos key := by
  have hlive := (hindex k i).mp hl
  unfold edgePos
  intro hc
  cases hkey : g.edgeIndex.lookup key with
  | none =>
      rw [hkey, Option.getD_none] at hc
      exact absurd hlive.lt (by omega)
  | some j =>
      rw [hkey, Option.getD_some] at hc
      subst hc
      exact hk (hlive.key_unique ((hindex key i).mp hkey))

/-- A property of positions that storing raises by `n` at the stored key rises by `n` there
and nowhere else. -/
theorem atKey_storeEdge (hindex : Indexed g.edges g.edgeIndex) (key : EdgeKey SId) (m n : Nat)
    {f f' : Nat → Nat} (hfresh : g.edgeIndex.lookup key = none → f (g.edgePos key) = 0)
    (hpos : f' (g.edgePos key) = f (g.edgePos key) + n)
    (hother : ∀ i, i ≠ g.edgePos key → f' i = f i) (k : EdgeKey SId) :
    atKey (g.storeEdge key m).edgeIndex k f'
      = atKey g.edgeIndex k f + if k = key then n else 0 := by
  unfold atKey
  rw [lookup_storeEdge]
  by_cases hk : k = key
  · subst hk
    rw [if_pos rfl, if_pos rfl, Option.map_some, Option.getD_some, hpos]
    cases hl : g.edgeIndex.lookup k with
    | none => rw [hfresh hl]; rfl
    | some i => simp [edgePos, hl]
  · rw [if_neg hk, if_neg hk]
    cases hl : g.edgeIndex.lookup k with
    | none => rfl
    | some i => simp [hother i (edgePos_ne hindex hl hk)]

/-- A fresh position has no registrations of any kind. -/
theorem refsAt_edgePos_fresh {key : EdgeKey SId} (h : g.edgeIndex.lookup key = none) :
    refsAt g.edges (g.edgePos key) = 0 := by
  unfold edgePos refsAt
  rw [h, Option.getD_none, List.getElem?_eq_none (Nat.le_refl _)]
  rfl

theorem storeEdge_frame (g : CallGraph) (key : EdgeKey SId) (n : Nat) :
    ∃ edges index out inn live, g.storeEdge key n
      = { g with edges, edgeIndex := index, outEdges := out, inEdges := inn, liveEdgeCount := live } := by
  unfold CallGraph.storeEdge
  split
  · exact ⟨_, _, _, _, _, rfl⟩
  · exact ⟨_, _, _, _, _, rfl⟩

theorem storeEdge_tuEdges (g : CallGraph) (key : EdgeKey SId) (n : Nat) :
    (g.storeEdge key n).tuEdges = g.tuEdges := by
  obtain ⟨_, _, _, _, _, h⟩ := storeEdge_frame g key n
  rw [h]

theorem storeEdge_interner (g : CallGraph) (key : EdgeKey SId) (n : Nat) :
    (g.storeEdge key n).interner = g.interner := by
  obtain ⟨_, _, _, _, _, h⟩ := storeEdge_frame g key n
  rw [h]

theorem WF.storeEdge (hwf : WF g) {key : EdgeKey SId} (hkey : KeyBelow g.interner.size key)
    {n : Nat} (hn : 0 < n) : WF (g.storeEdge key n) := by
  have hedges := hwf.edges.storeEdge key hn
  have hrefs := refsAt_storeEdge g hwf.edges.indexed key n
  have hlook := lookup_storeEdge g key n
  obtain ⟨edges, index, out, inn, live, heq⟩ := storeEdge_frame g key n
  rw [heq] at hedges hrefs hlook ⊢
  refine { hwf with ids := { hwf.ids with edge := ?_ }, edges := hedges, prov := ?_ }
  · intro i k hlive
    have hl := (hedges.indexed k i).mpr hlive
    rw [hlook] at hl
    split at hl
    · rename_i hk
      rw [hk]
      exact hkey
    · exact hwf.ids.edge i k ((hwf.edges.indexed k i).mp hl)
  · intro i
    have := hwf.prov i
    rw [hrefs i]
    exact Nat.le_trans this (Nat.le_add_right _ _)

/-- **Storing an edge adds its registrations, under no TU.** -/
theorem spec_storeEdge (hwf : WF g) {key : EdgeKey Str} (hkey : Interned g.interner key)
    (n : Nat) :
    (g.storeEdge (key.map g.interner.idOf) n).spec
      = { g.spec with
          refs := fun k => g.spec.refs k + if k = key then n else 0
          untagged := fun k => g.spec.untagged k + if k = key then n else 0 } := by
  have hindex := hwf.edges.indexed
  have hrefs := refsAt_storeEdge g hindex (key.map g.interner.idOf) n
  have htu := storeEdge_tuEdges g (key.map g.interner.idOf) n
  have hint := storeEdge_interner g (key.map g.interner.idOf) n
  have hprov := hwf.prov
  have hzero : ∀ i, refsAt g.edges i = 0 → UMap.total (List.count i) g.tuEdges = 0 := by
    intro i hi
    have := hprov i
    omega
  refine GraphSpec.ext ?_ ?_ ?_ ?_ ?_ ?_
  · obtain ⟨_, _, _, _, _, h⟩ := storeEdge_frame g (key.map g.interner.idOf) n
    rw [h]
    rfl
  · obtain ⟨_, _, _, _, _, h⟩ := storeEdge_frame g (key.map g.interner.idOf) n
    rw [h]
    rfl
  · funext k
    show atKey _ (k.map _) (refsAt _) = _
    rw [hint, atKey_storeEdge hindex _ n n refsAt_edgePos_fresh (by rw [hrefs, if_pos rfl])
      (fun i hi => by rw [hrefs, if_neg hi]; rfl)]
    simp only [map_inj hkey]
    rfl
  · funext k
    show atKey _ (k.map _) (looseAt _ _) = _
    rw [hint, htu, atKey_storeEdge hindex _ n n (f := looseAt g.edges g.tuEdges)]
    · simp only [map_inj hkey]
      rfl
    · intro hfresh
      simp [looseAt, refsAt_edgePos_fresh hfresh]
    · have := hprov (g.edgePos (key.map g.interner.idOf))
      unfold looseAt
      rw [hrefs, if_pos rfl]
      omega
    · intro i hi
      unfold looseAt
      rw [hrefs, if_neg hi]
      rfl
  · funext t k
    show atKey _ (k.map _) _ = _
    rw [hint, htu, atKey_storeEdge hindex _ n 0 (f := fun i => (g.tuEdges.getD _ []).count i)]
    · rw [ite_self]
      rfl
    · intro hfresh
      have h := hzero _ (refsAt_edgePos_fresh hfresh)
      exact (UMap.total_eq_zero [] rfl).mp h _
    · rfl
    · intro i _
      rfl
  · obtain ⟨_, _, _, _, _, h⟩ := storeEdge_frame g (key.map g.interner.idOf) n
    rw [h]
    rfl

/-! ### Registrations of a TU -/

theorem total_tagEdges (m : UMap SId (List Nat)) (t : SId) (idxs : List Nat) (i : Nat) :
    UMap.total (List.count i) (m.upsert t [] (· ++ idxs))
      = UMap.total (List.count i) m + idxs.count i := by
  have h := UMap.total_upsert (List.count i) m t [] rfl (· ++ idxs)
  rw [List.count_append] at h
  omega

theorem WF.tagEdges (hwf : WF g) {t : SId} (ht : t < g.interner.size) {idxs : List Nat}
    (hroom : ∀ i, UMap.total (List.count i) g.tuEdges + idxs.count i ≤ refsAt g.edges i) :
    WF (g.tagEdges t idxs) := by
  refine { hwf with ids := { hwf.ids with tuEdge := ?_ }, prov := ?_ }
  · intro t' l hl
    have hl' : AList.lookup t' (UMap.upsert g.tuEdges t [] (· ++ idxs)) = some l := hl
    rw [UMap.lookup_upsert] at hl'
    split at hl'
    · rename_i htt
      rw [htt]
      exact ht
    · exact hwf.ids.tuEdge t' l hl'
  · intro i
    show UMap.total _ (UMap.upsert g.tuEdges t [] (· ++ idxs)) ≤ _
    rw [total_tagEdges]
    exact hroom i

theorem atKey_add (index : UMap (EdgeKey SId) Nat) (k : EdgeKey SId) (f f' : Nat → Nat) :
    atKey index k (fun i => f i + f' i) = atKey index k f + atKey index k f' := by
  unfold atKey
  cases index.lookup k <;> rfl

theorem atKey_sub (index : UMap (EdgeKey SId) Nat) (k : EdgeKey SId) (f f' : Nat → Nat) :
    atKey index k (fun i => f i - f' i) = atKey index k f - atKey index k f' := by
  unfold atKey
  cases index.lookup k <;> rfl

/-- **Tagging moves registrations from no TU to one.** -/
theorem spec_tagEdges {t : Str} (ht : t ∈ g.interner.strings) (idxs : List Nat) :
    (g.tagEdges (g.interner.idOf t) idxs).spec
      = { g.spec with
          untagged := fun k => g.spec.untagged k
            - atKey g.edgeIndex (k.map g.interner.idOf) (fun i => idxs.count i)
          reg := fun t' k => g.spec.reg t' k
            + if t' = t then atKey g.edgeIndex (k.map g.interner.idOf) (fun i => idxs.count i)
              else 0 } := by
  refine GraphSpec.ext rfl rfl rfl ?_ ?_ rfl
  · funext k
    show atKey _ _ (looseAt g.edges (UMap.upsert _ _ _ _)) = _
    have hloose : looseAt g.edges (g.tuEdges.upsert (g.interner.idOf t) [] (· ++ idxs))
        = fun i => looseAt g.edges g.tuEdges i - idxs.count i := by
      funext i
      unfold looseAt
      rw [total_tagEdges]
      omega
    rw [hloose, atKey_sub]
    rfl
  · funext t' k
    show atKey _ _ (fun i => (UMap.getD (UMap.upsert _ _ _ _) (g.interner.idOf t') []).count i) = _
    rw [UMap.getD_upsert]
    simp only [idOf_inj ht]
    by_cases h : t' = t
    · subst h
      simp only [if_true, List.count_append]
      rw [atKey_add]
      rfl
    · simp only [if_neg h]
      rfl

end CallGraph
end Vycor
