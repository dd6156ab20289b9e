/-
Absorbing a shard, pass by pass.

`absorb` interns the shard's table, which fixes what every shard id becomes, and then
walks the shard's nodes, edges, TU provenance and relations.  Each pass gets one lemma:
the invariant is kept, the strings stay, and the abstract graph gains exactly what the
shard's abstract graph says about that part.

The edge pass leaves behind where each shard edge went.  Every shard edge that is live
went to the position its key has in the result, so the provenance pass can be read off
key by key.
-/
import Vycor.Lib.Postings
import Vycor.Proofs.CallGraphOps

namespace Vycor

namespace CallGraph

open StringInterner
open Postings (count_filterMap_unique count_filterMap_none)

/-! ### The shard's ids in the master

All strings of the shard are interned first, so from then on an id of the shard
has one id here, and different ones stay different.
-/

/-- `remap` sends every id of the shard to the id its string has in `t`. -/
structure Remaps (shard : CallGraph) (t : StringInterner) (remap : SId → SId) : Prop where
  mem : ∀ s ∈ shard.interner.strings, s ∈ t.strings
  eq : ∀ id < shard.interner.size, remap id = t.idOf (shard.interner.resolve id)

theorem Remaps.inj {shard : CallGraph} {t : StringInterner} {remap : SId → SId}
    (h : Remaps shard t remap) (hnd : shard.interner.strings.Nodup) {i j : SId}
    (hi : i < shard.interner.size) (hj : j < shard.interner.size) (heq : remap i = remap j) :
    i = j := by
  rw [h.eq i hi, h.eq j hj] at heq
  have hs := (idOf_inj (h.mem _ (resolve_mem hj))).mp heq
  rw [← idOf_resolve hnd hi, hs, idOf_resolve hnd hj]

theorem internAll_eq (strings : List Str) (g : CallGraph) :
    ∃ t : StringInterner, (g.internAll strings).1 = { g with interner := t } ∧
      g.interner.strings <+: t.strings ∧
      (g.interner.strings.Nodup → t.strings.Nodup) ∧
      (∀ s ∈ strings, s ∈ t.strings) ∧ (g.internAll strings).2 = strings.map t.idOf := by
  induction strings using List.reverseRecOn with
  | nil => exact ⟨g.interner, rfl, List.prefix_rfl, id, by simp, rfl⟩
  | append_singleton strings s ih =>
      obtain ⟨t, heq, hpre, hnd, hmem, hids⟩ := ih
      have hgrow := prefix_intern t s
      refine ⟨t.intern s, ?_, hpre.trans hgrow, fun h => nodup_intern (hnd h) s, ?_, ?_⟩
      · unfold internAll at heq ⊢
        rw [List.foldl_append, List.foldl_cons, List.foldl_nil, heq]
        rfl
      · intro x hx
        rcases List.mem_append.mp hx with hx | hx
        · exact hgrow.subset (hmem x hx)
        · rw [List.mem_singleton.mp hx]
          exact StringInterner.mem_intern t s
      · unfold internAll at heq hids ⊢
        have hold : strings.map t.idOf = strings.map (t.intern s).idOf :=
          List.map_congr_left fun x hx => (idOf_of_grown hgrow (hmem x hx)).symm
        rw [List.foldl_append, List.foldl_cons, List.foldl_nil, heq, hids, List.map_append, hold]
        rfl

theorem internAll_remaps (shard g : CallGraph) {t : StringInterner}
    (hmem : ∀ s ∈ shard.interner.strings, s ∈ t.strings)
    (hids : (g.internAll shard.interner.strings).2 = shard.interner.strings.map t.idOf) :
    Remaps shard t fun id => (g.internAll shard.interner.strings).2.getD id 0 := by
  refine ⟨hmem, ?_⟩
  intro id hid
  have hid' : id < shard.interner.strings.length := hid
  rw [hids, List.getD_eq_getElem _ _ (by simpa using hid'), List.getElem_map, resolve,
    List.getD_eq_getElem _ _ hid']

section Passes

variable {shard : CallGraph} {t : StringInterner} {remap : SId → SId}

/-! ### Nodes

The display name of a shard's node is interned with the rest, so a node is put
in place as `addNode` would put it, with one contributor after the other.
-/

theorem foldl_addContributor (hre : Remaps shard t remap) {u : Str} (hu : u ∈ t.strings)
    (tus : List SId) (htus : ∀ x ∈ tus, x < shard.interner.size) :
    ∀ g : CallGraph, WF g → g.interner = t → (g.nodes.lookup (t.idOf u)).isSome →
      let g' := tus.foldl (fun g x => g.addContributor (t.idOf u) (remap x)) g
      WF g' ∧ g'.interner = t ∧
      g'.spec = { g.spec with
        contributors := fun u' =>
          if u' = u then g.spec.contributors u' ∪ {x | ∃ i ∈ tus, shard.interner.resolve i = x}
          else g.spec.contributors u' } := by
  induction tus with
  | nil =>
      intro g hwf hint _
      refine ⟨hwf, hint, ?_⟩
      refine GraphSpec.ext rfl ?_ rfl rfl rfl rfl
      funext u'
      simp
  | cons x rest ih =>
      intro g hwf hint hsome
      have hx := htus x List.mem_cons_self
      have hxs : shard.interner.resolve x ∈ t.strings := hre.mem _ (resolve_mem hx)
      have hrx := hre.eq x hx
      subst hint
      have hwf' := hwf.addContributor hsome (idOf_lt.mpr hxs)
      have hspec' := spec_addContributor hu hxs
      rw [← hrx] at hwf' hspec'
      obtain ⟨hwf'', hint'', hspec''⟩ := ih (fun y hy => htus y (List.mem_cons_of_mem _ hy))
        (g.addContributor (g.interner.idOf u) (remap x)) hwf' rfl hsome
      refine ⟨hwf'', hint'', ?_⟩
      rw [List.foldl_cons, hspec'', hspec']
      refine GraphSpec.ext rfl ?_ rfl rfl rfl rfl
      funext u'
      by_cases hu' : u' = u
      · simp only [hu', if_true]
        refine Set.ext fun y => ?_
        simp only [Set.mem_union, Set.mem_insert_iff, Set.mem_ofPred_eq, List.mem_cons,
          exists_eq_or_imp]
        constructor
        · rintro ((rfl | hy) | hy)
          · exact Or.inr (Or.inl rfl)
          · exact Or.inl hy
          · exact Or.inr (Or.inr hy)
        · rintro (hy | rfl | hy)
          · exact Or.inl (Or.inr hy)
          · exact Or.inl (Or.inl rfl)
          · exact Or.inr hy
      · simp only [if_neg hu']

/-- The display name of a shard node is interned already, so its fields are put in place. -/
theorem absorbFields_eq {g : CallGraph} (nameId : SId) {node : CallGraphNode}
    (hq : node.qualifiedName ∈ g.interner.strings) :
    g.absorbFields nameId node = g.putNode nameId (g.interner.idOf node.qualifiedName) node := by
  have hnoop : g.intern node.qualifiedName = g := by
    unfold CallGraph.intern
    rw [intern_of_mem hq]
  unfold absorbFields
  rw [hnoop]
  rfl

/-- One shard node: its fields are backfilled and its contributors are added. -/
theorem absorbNode_spec (hshard : WF shard) (hre : Remaps shard t remap)
    {entry : Σ _ : SId, CallGraphNode} (hentry : entry ∈ shard.nodes.entries) {g : CallGraph}
    (hwf : WF g) (hint : g.interner = t) :
    WF (absorbNode shard remap g entry) ∧ (absorbNode shard remap g entry).interner = t ∧
    (absorbNode shard remap g entry).spec = { g.spec with
      node := fun u =>
        if u = entry.2.usr then some (entry.2.onto (g.spec.node u)) else g.spec.node u
      contributors := fun u =>
        if u = entry.2.usr then g.spec.contributors u ∪ shard.spec.contributors u
        else g.spec.contributors u } := by
  obtain ⟨i, node⟩ := entry
  have hlook : shard.nodes.lookup i = some node := (UMap.mem_entries _ _ _).mp hentry
  obtain ⟨hi, hres, hqs⟩ := hshard.ids.node i node hlook
  have hu : node.usr ∈ t.strings := hre.mem _ (hres ▸ resolve_mem hi)
  have hq : node.qualifiedName ∈ t.strings := hre.mem _ hqs
  have hri : remap i = t.idOf node.usr := by rw [hre.eq i hi, hres]
  subst hint
  have hwf₁ := hwf.putNode hu hq
  have hspec₁ := spec_putNode hwf hu
  have hint₁ := putNode_interner g (g.interner.idOf node.usr)
    (g.interner.idOf node.qualifiedName) node
  have hsome := lookup_putNode g (g.interner.idOf node.usr)
    (g.interner.idOf node.qualifiedName) node (g.interner.idOf node.usr)
  rw [if_pos rfl] at hsome
  have htus : ∀ x ∈ shard.nodeContributors.getD i [], x < shard.interner.size :=
    fun x hx => (hshard.ids.contributor i x hx).2
  obtain ⟨hwf₂, hint₂, hspec₂⟩ := foldl_addContributor hre hu _ htus _ hwf₁ hint₁
    (by rw [hsome]; rfl)
  unfold absorbNode
  rw [hri, absorbFields_eq _ hq]
  refine ⟨hwf₂, hint₂, ?_⟩
  rw [hspec₂, hspec₁]
  refine GraphSpec.ext rfl ?_ rfl rfl rfl rfl
  funext u
  by_cases hu' : u = node.usr
  · have hid : shard.interner.idOf u = i := by
      rw [hu', ← hres, idOf_resolve hshard.ids.nodup hi]
    refine (if_pos hu').trans ((if_pos hu').trans ?_).symm
    refine congrArg _ (Set.ext fun x => ?_)
    show shard.interner.idOf x ∈ shard.nodeContributors.getD (shard.interner.idOf u) [] ↔ _
    rw [hid]
    exact idOf_mem_iff hshard.ids.nodup htus
  · exact (if_neg hu').trans (if_neg hu').symm

/-- **The node pass merges the nodes and their contributors.** -/
theorem absorbNodes_spec (hshard : WF shard) (hre : Remaps shard t remap) {g : CallGraph}
    (hwf : WF g) (hint : g.interner = t) :
    let g' := shard.nodes.entries.foldl (absorbNode shard remap) g
    WF g' ∧ g'.interner = t ∧
    g'.spec = { g.spec with
      node := fun u => GraphSpec.mergedNode (g.spec.node u) (shard.spec.node u)
      contributors := fun u => g.spec.contributors u ∪ shard.spec.contributors u } := by
  intro g'
  have hid : ∀ a ∈ shard.nodes.entries, shard.interner.idOf a.2.usr = a.1 := by
    intro a ha
    obtain ⟨hi, hres, -⟩ := hshard.ids.node a.1 a.2 ((UMap.mem_entries _ _ _).mp ha)
    rw [← hres, idOf_resolve hshard.ids.nodup hi]
  have hnd : (shard.nodes.entries.map (·.2.usr)).Nodup := by
    have hkeys : (shard.nodes.entries.map (·.2.usr)).map shard.interner.idOf
        = shard.nodes.entries.map Sigma.fst := by
      rw [List.map_map]
      exact List.map_congr_left hid
    refine List.Nodup.of_map shard.interner.idOf ?_
    rw [hkeys]
    exact shard.nodes.nodupKeys
  obtain ⟨⟨hwf', hint', hrefs, hunt, hreg, hrel⟩, hat⟩ := UMap.foldl_at
    (fun x : CallGraph => WF x ∧ x.interner = t ∧ x.spec.refs = g.spec.refs ∧
      x.spec.untagged = g.spec.untagged ∧ x.spec.reg = g.spec.reg ∧
      x.spec.related = g.spec.related)
    (absorbNode shard remap) (·.2.usr) (fun x u => (x.spec.node u, x.spec.contributors u))
    (fun a v => (some (a.2.onto v.1), v.2 ∪ shard.spec.contributors a.2.usr))
    shard.nodes.entries hnd (by
      rintro x ⟨hx, hxt, h₁, h₂, h₃, h₄⟩ a ha
      obtain ⟨hx', hxt', hs⟩ := absorbNode_spec hshard hre ha hx hxt
      refine ⟨⟨hx', hxt', ?_, ?_, ?_, ?_⟩, ?_⟩
      · rw [hs]; exact h₁
      · rw [hs]; exact h₂
      · rw [hs]; exact h₃
      · rw [hs]; exact h₄
      · intro u
        rw [hs]
        by_cases hu : u = a.2.usr
        · simp [hu]
        · simp [hu])
    g ⟨hwf, hint, rfl, rfl, rfl, rfl⟩
  refine ⟨hwf', hint', ?_⟩
  have hfind : ∀ u, match shard.nodes.entries.find? (fun a => decide (a.2.usr = u)) with
      | some a => shard.spec.node u = some a.2 ∧ a.2.usr = u
      | none => shard.spec.node u = none := by
    intro u
    cases hf : shard.nodes.entries.find? (fun a => decide (a.2.usr = u)) with
    | some a =>
        have hmem := List.mem_of_find?_eq_some hf
        have husr : a.2.usr = u := by simpa using List.find?_some hf
        refine ⟨?_, husr⟩
        show shard.nodes.lookup (shard.interner.idOf u) = some a.2
        rw [← husr, hid a hmem]
        exact (UMap.mem_entries _ _ _).mp hmem
    | none =>
        show shard.nodes.lookup (shard.interner.idOf u) = none
        cases hl : shard.nodes.lookup (shard.interner.idOf u) with
        | none => rfl
        | some n =>
            obtain ⟨hi, hres, -⟩ := hshard.ids.node _ n hl
            have hmem := (UMap.mem_entries _ _ _).mpr hl
            have := List.find?_eq_none.mp hf _ hmem
            rw [resolve_idOf (idOf_lt.mp hi)] at hres
            simp [← hres] at this
  refine GraphSpec.ext ?_ ?_ hrefs hunt hreg hrel
  · funext u
    have h₁ := congrArg Prod.fst (hat u)
    have h₂ := hfind u
    refine h₁.trans ?_
    cases hf : shard.nodes.entries.find? (fun a => decide (a.2.usr = u)) with
    | none =>
        rw [hf] at h₂
        simp [GraphSpec.mergedNode, h₂]
    | some a =>
        rw [hf] at h₂
        simp [GraphSpec.mergedNode, h₂.1]
  · funext u
    have h₁ := congrArg Prod.snd (hat u)
    have h₂ := hfind u
    refine h₁.trans ?_
    cases hf : shard.nodes.entries.find? (fun a => decide (a.2.usr = u)) with
    | none =>
        rw [hf] at h₂
        have hnone : shard.spec.contributors u = ∅ := by
          refine Set.eq_empty_iff_forall_notMem.mpr fun x hx => ?_
          have hsome : (shard.spec.node u).isSome := hshard.contributed _ _ hx
          rw [h₂] at hsome
          simp at hsome
        simp [hnone]
    | some a =>
        rw [hf] at h₂
        simp [h₂.2]

/-! ### Edges

Each record of the shard lands at the position of its key here and adds its
registrations there. None of them belongs to a TU yet.
-/

/-- A shard key in the master's ids. -/
theorem Remaps.key (hre : Remaps shard t remap) {k : EdgeKey SId}
    (hk : KeyBelow shard.interner.size k) :
    k.map remap = (k.map shard.interner.resolve).map t.idOf ∧
    Interned t (k.map shard.interner.resolve) := by
  refine ⟨?_, hre.mem _ (resolve_mem hk.1), hre.mem _ (resolve_mem hk.2.1),
    hre.mem _ (resolve_mem hk.2.2)⟩
  unfold EdgeKey.map
  rw [hre.eq _ hk.1, hre.eq _ hk.2.1, hre.eq _ hk.2.2]

theorem resolve_key (hnd : shard.interner.strings.Nodup) {k : EdgeKey SId}
    (hk : KeyBelow shard.interner.size k) :
    (k.map shard.interner.resolve).map shard.interner.idOf = k := by
  unfold EdgeKey.map
  rw [idOf_resolve hnd hk.1, idOf_resolve hnd hk.2.1, idOf_resolve hnd hk.2.2]

theorem key_resolve {k : EdgeKey Str} (hk : KeyBelow shard.interner.size (k.map shard.interner.idOf)) :
    (k.map shard.interner.idOf).map shard.interner.resolve = k := by
  unfold EdgeKey.map
  simp only [resolve_idOf (idOf_lt.mp hk.1), resolve_idOf (idOf_lt.mp hk.2.1),
    resolve_idOf (idOf_lt.mp hk.2.2)]

/-- The registrations a list of records holds for a key. -/
def refsIn (resolve : SId → Str) (edges : List StoredEdge) (k : EdgeKey Str) : Nat :=
  (edges.map fun e => if e.toEdgeKey.map resolve = k then e.refs else 0).sum

private theorem sum_map_single {α : Type} (f : α → Nat) (l : List α) (i : Nat) (a : α)
    (hi : l[i]? = some a) (h : ∀ (j : Nat) (b : α), l[j]? = some b → j ≠ i → f b = 0) :
    (l.map f).sum = f a := by
  induction l generalizing i with
  | nil => simp at hi
  | cons x rest ih =>
      cases i with
      | zero =>
          have hx : x = a := by simpa using hi
          have hzero : (rest.map f).sum = 0 := by
            refine List.sum_eq_zero ?_
            intro y hy
            obtain ⟨b, hb, rfl⟩ := List.mem_map.mp hy
            obtain ⟨j, hj⟩ := List.getElem?_of_mem hb
            exact h (j + 1) b (by simpa using hj) (by omega)
          rw [List.map_cons, List.sum_cons, hzero, hx, Nat.add_zero]
      | succ i =>
          have hx : f x = 0 := h 0 x rfl (by omega)
          rw [List.map_cons, List.sum_cons, hx, Nat.zero_add]
          refine ih i (by simpa using hi) ?_
          intro j b hj hne
          exact h (j + 1) b (by simpa using hj) (by omega)

theorem refsIn_all (hshard : WF shard) (k : EdgeKey Str) :
    refsIn shard.interner.resolve shard.edges k = shard.spec.refs k := by
  have hat : ∀ (j : Nat) (e : StoredEdge), shard.edges[j]? = some e → 0 < e.refs →
      e.toEdgeKey.map shard.interner.resolve = k →
      shard.edgeIndex.lookup (k.map shard.interner.idOf) = some j := by
    intro j e he hpos hk
    have hlive : LiveAt shard.edges j e.toEdgeKey := ⟨e, he, rfl, hpos⟩
    have hb := hshard.ids.edge j _ hlive
    rw [← hk, resolve_key hshard.ids.nodup hb]
    exact (hshard.edges.indexed _ _).mpr hlive
  have hterm : ∀ (j : Nat) (e : StoredEdge), shard.edges[j]? = some e →
      shard.edgeIndex.lookup (k.map shard.interner.idOf) ≠ some j →
      (if e.toEdgeKey.map shard.interner.resolve = k then e.refs else 0) = 0 := by
    intro j e he hne
    split
    · rename_i hk
      rcases Nat.eq_zero_or_pos e.refs with hz | hpos
      · exact hz
      · exact absurd (hat j e he hpos hk) hne
    · rfl
  show _ = atKey shard.edgeIndex (k.map shard.interner.idOf) (refsAt shard.edges)
  unfold refsIn atKey
  cases hl : shard.edgeIndex.lookup (k.map shard.interner.idOf) with
  | none =>
      rw [hl] at hterm
      refine List.sum_eq_zero ?_
      intro x hx
      obtain ⟨e, he, rfl⟩ := List.mem_map.mp hx
      obtain ⟨j, hj⟩ := List.getElem?_of_mem he
      exact hterm j e hj (by simp)
  | some i =>
      rw [hl] at hterm
      have hlive := (hshard.edges.indexed _ _).mp hl
      have hb := hshard.ids.edge i _ hlive
      obtain ⟨e, he, hek, -⟩ := hlive
      rw [sum_map_single _ shard.edges i e he
        (fun j b hj hne => hterm j b hj (by simpa using Ne.symm hne)), hek, key_resolve hb]
      simp [refsAt, he]

/-- The edge pass after the records `pre`. -/
structure AbsorbedEdges (shard : CallGraph) (t : StringInterner) (remap : SId → SId)
    (g : CallGraph) (pre : List StoredEdge) (st : CallGraph × List (Option Nat)) : Prop where
  wf : WF st.1
  interner : st.1.interner = t
  tuEdges : st.1.tuEdges = g.tuEdges
  spec : st.1.spec = { g.spec with
    refs := fun k => g.spec.refs k + refsIn shard.interner.resolve pre k
    untagged := fun k => g.spec.untagged k + refsIn shard.interner.resolve pre k }
  length : st.2.length = pre.length
  live : ∀ j k, LiveAt pre j k →
    ∃ i, st.2[j]? = some (some i) ∧ st.1.edgeIndex.lookup (k.map remap) = some i
  dead : ∀ j i : Nat, st.2[j]? = some (some i) → ∃ k, LiveAt pre j k

theorem AbsorbedEdges.step {g : CallGraph} {pre : List StoredEdge}
    {st : CallGraph × List (Option Nat)} (hre : Remaps shard t remap)
    (h : AbsorbedEdges shard t remap g pre st) {e : StoredEdge}
    (hb : 0 < e.refs → KeyBelow shard.interner.size e.toEdgeKey) :
    AbsorbedEdges shard t remap g (pre ++ [e]) (absorbEdge remap st e) := by
  have hlast : ∀ j k, LiveAt (pre ++ [e]) j k ↔
      LiveAt pre j k ∨ (j = pre.length ∧ k = e.toEdgeKey ∧ 0 < e.refs) := by
    intro j k
    unfold LiveAt
    simp only [getElem?_concat]
    constructor
    · rintro ⟨x, hx | ⟨hj, rfl⟩, hk, hpos⟩
      · exact Or.inl ⟨x, hx, hk, hpos⟩
      · exact Or.inr ⟨hj, hk.symm, hpos⟩
    · rintro (⟨x, hx, hk, hpos⟩ | ⟨hj, hk, hpos⟩)
      · exact ⟨x, Or.inl hx, hk, hpos⟩
      · exact ⟨e, Or.inr ⟨hj, rfl⟩, hk.symm, hpos⟩
  have hsum : ∀ k, refsIn shard.interner.resolve (pre ++ [e]) k
      = refsIn shard.interner.resolve pre k
        + if e.toEdgeKey.map shard.interner.resolve = k then e.refs else 0 := by
    intro k
    simp [refsIn]
  unfold absorbEdge
  rcases Nat.eq_zero_or_pos e.refs with hz | hpos
  · rw [if_pos hz]
    have hsame : refsIn shard.interner.resolve (pre ++ [e]) = refsIn shard.interner.resolve pre := by
      funext k
      rw [hsum, hz, ite_self, Nat.add_zero]
    refine ⟨h.wf, h.interner, h.tuEdges, by rw [hsame]; exact h.spec, by simp [h.length], ?_, ?_⟩
    · intro j k hlive
      rcases (hlast j k).mp hlive with hlive | ⟨-, -, hc⟩
      · obtain ⟨i, hi, hl⟩ := h.live j k hlive
        exact ⟨i, (getElem?_concat _ _ _ _).mpr (Or.inl hi), hl⟩
      · omega
    · intro j i hj
      rcases (getElem?_concat _ _ _ _).mp hj with hj | ⟨-, hc⟩
      · obtain ⟨k, hk⟩ := h.dead j i hj
        exact ⟨k, (hlast j k).mpr (Or.inl hk)⟩
      · simp at hc
  · rw [if_neg (by omega)]
    obtain ⟨hkey, hinterned⟩ := hre.key (hb hpos)
    have hint := h.interner
    have hkey' : { e.toEdgeKey with
        caller := remap e.caller, callee := remap e.callee, callSite := remap e.callSite }
        = (e.toEdgeKey.map shard.interner.resolve).map st.1.interner.idOf := by
      rw [hint]
      exact hkey
    have hinterned' : Interned st.1.interner (e.toEdgeKey.map shard.interner.resolve) := by
      rw [hint]
      exact hinterned
    have hlook := lookup_storeEdge st.1
      ((e.toEdgeKey.map shard.interner.resolve).map st.1.interner.idOf) e.refs
    simp only [hkey']
    refine ⟨h.wf.storeEdge (keyBelow_map hinterned') hpos,
      (storeEdge_interner _ _ _).trans hint, (storeEdge_tuEdges _ _ _).trans h.tuEdges, ?_,
      by simp [h.length], ?_, ?_⟩
    · rw [spec_storeEdge h.wf hinterned', h.spec]
      refine GraphSpec.ext rfl rfl ?_ ?_ rfl rfl
      · funext k
        simp only [hsum, eq_comm (a := k)]
        omega
      · funext k
        simp only [hsum, eq_comm (a := k)]
        omega
    · intro j k hlive
      rcases (hlast j k).mp hlive with hlive | ⟨hj, hk, -⟩
      · obtain ⟨i, hi, hl⟩ := h.live j k hlive
        refine ⟨i, (getElem?_concat _ _ _ _).mpr (Or.inl hi), ?_⟩
        rw [hlook]
        split
        · rename_i heq
          rw [heq] at hl
          simp [edgePos, hl]
        · exact hl
      · refine ⟨st.1.edgePos ((e.toEdgeKey.map shard.interner.resolve).map st.1.interner.idOf),
          (getElem?_concat _ _ _ _).mpr (Or.inr ⟨hj.trans h.length.symm, rfl⟩), ?_⟩
        rw [hlook, if_pos]
        rw [hk, hkey, hint]
    · intro j i hj
      rcases (getElem?_concat _ _ _ _).mp hj with hj | ⟨hj, -⟩
      · obtain ⟨k, hk⟩ := h.dead j i hj
        exact ⟨k, (hlast j k).mpr (Or.inl hk)⟩
      · exact ⟨_, (hlast _ _).mpr (Or.inr ⟨hj.trans h.length, rfl, hpos⟩)⟩

/-- **The edge pass adds the shard's registrations**, all of them untagged so far. -/
theorem absorbEdges_spec (hshard : WF shard) (hre : Remaps shard t remap) {g : CallGraph}
    (hwf : WF g) (hint : g.interner = t) :
    AbsorbedEdges shard t remap g shard.edges (shard.edges.foldl (absorbEdge remap) (g, [])) := by
  have hprefix : ∀ pre, pre <+: shard.edges →
      AbsorbedEdges shard t remap g pre (pre.foldl (absorbEdge remap) (g, [])) := by
    intro pre
    induction pre using List.reverseRecOn with
    | nil =>
        intro _
        refine ⟨hwf, hint, rfl, ?_, rfl, ?_, ?_⟩
        · exact GraphSpec.ext rfl rfl rfl rfl rfl rfl
        · intro j k hlive
          exact absurd hlive.lt (Nat.not_lt_zero j)
        · intro j i hj
          simp at hj
    | append_singleton pre e ih =>
        intro hpre
        have hpre' : pre <+: shard.edges := (List.prefix_append pre [e]).trans hpre
        rw [List.foldl_append, List.foldl_cons, List.foldl_nil]
        refine (ih hpre').step hre ?_
        intro hpos
        obtain ⟨rest, heq⟩ := hpre
        refine hshard.ids.edge pre.length _ ⟨e, ?_, rfl, hpos⟩
        rw [← heq, List.getElem?_append_left (by simp)]
        exact (getElem?_concat _ _ _ _).mpr (Or.inr ⟨rfl, rfl⟩)
  exact hprefix shard.edges List.prefix_rfl

/-! ### Provenance

The second pass gives registrations to the TUs that made them in the shard. What
has to be shown is that it never gives more than the edge pass has put there:
the shard's own invariant says so, key by key.
-/

/-- The TU map after the provenance pass. -/
def taggedMap (remap : SId → SId) (edgeRemap : List (Option Nat)) (shard : CallGraph)
    (m : UMap SId (List Nat)) : UMap SId (List Nat) :=
  shard.tuEdges.entries.foldl
    (fun m entry => m.upsert (remap entry.1) []
      (· ++ entry.2.filterMap fun i => edgeRemap.getD i none)) m

theorem absorbTuEdges_eq (edgeRemap : List (Option Nat)) (entries : List (Σ _ : SId, List Nat))
    (g : CallGraph) :
    entries.foldl (absorbTuEdges remap edgeRemap) g
      = { g with tuEdges := entries.foldl (fun m entry => m.upsert (remap entry.1) []
            (· ++ entry.2.filterMap fun i => edgeRemap.getD i none)) g.tuEdges } := by
  induction entries generalizing g with
  | nil => rfl
  | cons entry rest ih => rw [List.foldl_cons, ih]; rfl

theorem lookup_tagged {edgeRemap : List (Option Nat)} {entries : List (Σ _ : SId, List Nat)}
    {m : UMap SId (List Nat)} {x : SId} {l : List Nat}
    (h : (entries.foldl (fun (m : UMap SId (List Nat)) entry => m.upsert (remap entry.1) []
      (· ++ entry.2.filterMap fun i => edgeRemap.getD i none)) m).lookup x = some l) :
    (∃ e ∈ entries, x = remap e.1) ∨ ∃ l', m.lookup x = some l' := by
  induction entries generalizing m with
  | nil => exact Or.inr ⟨l, h⟩
  | cons entry rest ih =>
      rcases ih h with ⟨e, he, hx⟩ | ⟨l', hl'⟩
      · exact Or.inl ⟨e, List.mem_cons_of_mem _ he, hx⟩
      · rw [UMap.lookup_upsert] at hl'
        split at hl'
        · rename_i hx
          exact Or.inl ⟨entry, List.mem_cons_self, hx⟩
        · exact Or.inr ⟨l', hl'⟩

theorem total_tagged (edgeRemap : List (Option Nat)) (i : Nat)
    (entries : List (Σ _ : SId, List Nat)) (m : UMap SId (List Nat)) :
    UMap.total (List.count i) (entries.foldl (fun m entry => m.upsert (remap entry.1) []
      (· ++ entry.2.filterMap fun i => edgeRemap.getD i none)) m)
      = UMap.total (List.count i) m
        + (entries.map fun e => (e.2.filterMap fun i => edgeRemap.getD i none).count i).sum := by
  induction entries generalizing m with
  | nil => rfl
  | cons entry rest ih =>
      rw [List.foldl_cons, ih, total_tagEdges, List.map_cons, List.sum_cons]
      omega

theorem getD_tagged (hshard : WF shard) (hre : Remaps shard t remap)
    (edgeRemap : List (Option Nat)) (m : UMap SId (List Nat)) (tu : Str) :
    (taggedMap remap edgeRemap shard m).getD (t.idOf tu) []
      = m.getD (t.idOf tu) []
        ++ (shard.tuEdges.getD (shard.interner.idOf tu) []).filterMap
            fun i => edgeRemap.getD i none := by
  have hlt : ∀ e ∈ shard.tuEdges.entries, e.1 < shard.interner.size := fun e he =>
    hshard.ids.tuEdge e.1 e.2 ((UMap.mem_entries _ _ _).mp he)
  have hnd : (shard.tuEdges.entries.map fun e => remap e.1).Nodup := by
    have hkeys : (shard.tuEdges.entries.map Sigma.fst).Nodup := shard.tuEdges.nodupKeys
    have hmap := hkeys.map_on (f := remap) (by
      intro x hx y hy heq
      obtain ⟨ex, hex, rfl⟩ := List.mem_map.mp hx
      obtain ⟨ey, hey, rfl⟩ := List.mem_map.mp hy
      exact hre.inj hshard.ids.nodup (hlt ex hex) (hlt ey hey) heq)
    rwa [List.map_map] at hmap
  obtain ⟨-, hat⟩ := UMap.foldl_at (fun _ => True)
    (fun m (entry : Σ _ : SId, List Nat) => UMap.upsert m (remap entry.1) []
      (· ++ entry.2.filterMap fun i => edgeRemap.getD i none))
    (fun e => remap e.1) (fun m k => UMap.getD m k [])
    (fun e l => l ++ e.2.filterMap fun i => edgeRemap.getD i none)
    shard.tuEdges.entries hnd (by
      intro m _ e _
      refine ⟨trivial, ?_⟩
      intro k
      rw [UMap.getD_upsert]
      split
      · rename_i hk
        rw [hk]
      · rfl) m trivial
  unfold taggedMap
  rw [hat]
  cases hf : shard.tuEdges.entries.find? (fun e => decide (remap e.1 = t.idOf tu)) with
  | some e =>
      have hmem := List.mem_of_find?_eq_some hf
      have hkey : remap e.1 = t.idOf tu := by simpa using List.find?_some hf
      have hres : tu = shard.interner.resolve e.1 := by
        rw [hre.eq _ (hlt e hmem)] at hkey
        exact (idOf_inj (hre.mem _ (resolve_mem (hlt e hmem)))).mp hkey.symm
      have hid : shard.interner.idOf tu = e.1 := by
        rw [hres, idOf_resolve hshard.ids.nodup (hlt e hmem)]
      have hget : shard.tuEdges.getD (shard.interner.idOf tu) [] = e.2 := by
        rw [hid, UMap.getD, (UMap.mem_entries _ _ _).mp hmem]
        rfl
      rw [hget]
  | none =>
      have hnil : shard.tuEdges.getD (shard.interner.idOf tu) [] = [] := by
        unfold UMap.getD
        cases hl : shard.tuEdges.lookup (shard.interner.idOf tu) with
        | none => rfl
        | some l =>
            have hsize := hshard.ids.tuEdge _ l hl
            have := List.find?_eq_none.mp hf _ ((UMap.mem_entries _ _ _).mpr hl)
            rw [hre.eq _ hsize, resolve_idOf (idOf_lt.mp hsize)] at this
            simp at this
      rw [hnil, List.filterMap_nil, List.append_nil]

/-- Where the edge pass sent a position: the shard edges that landed on the position of a
master key are those with that key. -/
theorem AbsorbedEdges.landed (hshard : WF shard) (hre : Remaps shard t remap) {g : CallGraph}
    {st : CallGraph × List (Option Nat)} (h : AbsorbedEdges shard t remap g shard.edges st)
    {k : EdgeKey Str} {i : Nat} (hi : st.1.edgeIndex.lookup (k.map t.idOf) = some i) (j : Nat) :
    st.2.getD j none = some i ↔
      shard.edgeIndex.lookup (k.map shard.interner.idOf) = some j := by
  have hget : st.2.getD j none = some i ↔ st.2[j]? = some (some i) := by
    rw [List.getD_eq_getElem?_getD]
    cases st.2[j]? <;> simp
  rw [hget]
  constructor
  · intro hj
    obtain ⟨k', hlive⟩ := h.dead j i hj
    obtain ⟨i', hi', hl⟩ := h.live j k' hlive
    have hii : i' = i := by
      rw [hj] at hi'
      simpa using hi'.symm
    subst hii
    have hb := hshard.ids.edge j k' hlive
    obtain ⟨hkey, hinterned⟩ := hre.key hb
    have hsame := ((h.wf.edges.indexed _ _).mp hl).key_unique ((h.wf.edges.indexed _ _).mp hi)
    rw [hkey] at hsame
    have hint := h.interner
    rw [← hint] at hsame hinterned
    rw [(map_inj hinterned).mp hsame.symm, resolve_key hshard.ids.nodup hb]
    exact (hshard.edges.indexed _ _).mpr hlive
  · intro hl
    have hlive := (hshard.edges.indexed _ _).mp hl
    have hb := hshard.ids.edge j _ hlive
    obtain ⟨i', hi', hl'⟩ := h.live j _ hlive
    rw [(hre.key hb).1, key_resolve hb, hi] at hl'
    injection hl' with hl'
    rw [hi', hl']

/-- A shard edge that landed somewhere has a key in the master there. -/
theorem AbsorbedEdges.key_of_landed (hshard : WF shard) (hre : Remaps shard t remap)
    {g : CallGraph} {st : CallGraph × List (Option Nat)}
    (h : AbsorbedEdges shard t remap g shard.edges st) {i j : Nat}
    (hj : st.2.getD j none = some i) :
    ∃ k : EdgeKey Str, st.1.edgeIndex.lookup (k.map t.idOf) = some i := by
  have hj' : st.2[j]? = some (some i) := by
    rw [List.getD_eq_getElem?_getD] at hj
    cases hs : st.2[j]? with
    | none => simp [hs] at hj
    | some o => rw [hs, Option.getD_some] at hj; rw [hj]
  obtain ⟨k, hlive⟩ := h.dead j i hj'
  obtain ⟨i', hi', hl⟩ := h.live j k hlive
  have hii : i' = i := by
    rw [hj'] at hi'
    simpa using hi'.symm
  refine ⟨k.map shard.interner.resolve, ?_⟩
  rw [← (hre.key (hshard.ids.edge j k hlive)).1, hl, hii]

/-- The registrations the provenance pass adds at a key's position are the shard's. -/
theorem AbsorbedEdges.tagged_sum (hshard : WF shard) (hre : Remaps shard t remap) {g : CallGraph}
    {st : CallGraph × List (Option Nat)} (h : AbsorbedEdges shard t remap g shard.edges st)
    {k : EdgeKey Str} {i : Nat} (hi : st.1.edgeIndex.lookup (k.map t.idOf) = some i) :
    (shard.tuEdges.entries.map fun e => (e.2.filterMap fun j => st.2.getD j none).count i).sum
      = atKey shard.edgeIndex (k.map shard.interner.idOf)
          (fun j => UMap.total (List.count j) shard.tuEdges) := by
  have hland := h.landed hshard hre hi
  unfold atKey
  cases hl : shard.edgeIndex.lookup (k.map shard.interner.idOf) with
  | none =>
      rw [hl] at hland
      refine List.sum_eq_zero ?_
      intro x hx
      obtain ⟨e, -, rfl⟩ := List.mem_map.mp hx
      exact count_filterMap_none (fun j hj => by simpa using (hland j).mp hj) _
  | some j =>
      rw [hl] at hland
      have hone : ∀ l : List Nat, (l.filterMap fun j => st.2.getD j none).count i = l.count j :=
        count_filterMap_unique fun x => (hland x).trans (by rw [Option.some.injEq]; exact eq_comm)
      simp only [hone]
      rfl

theorem total_taggedMap (st : CallGraph × List (Option Nat)) (i : Nat) :
    UMap.total (List.count i) (taggedMap remap st.2 shard st.1.tuEdges)
      = UMap.total (List.count i) st.1.tuEdges
        + (shard.tuEdges.entries.map fun e =>
            (e.2.filterMap fun j => st.2.getD j none).count i).sum :=
  total_tagged st.2 i _ _

/-- TUs of the shard registered an edge no more often than the shard has it. -/
theorem tagged_le_refs (hshard : WF shard) (k : EdgeKey Str) :
    atKey shard.edgeIndex (k.map shard.interner.idOf)
      (fun j => UMap.total (List.count j) shard.tuEdges) ≤ shard.spec.refs k := by
  show _ ≤ atKey shard.edgeIndex (k.map shard.interner.idOf) (refsAt shard.edges)
  unfold atKey
  cases shard.edgeIndex.lookup (k.map shard.interner.idOf) with
  | none => exact Nat.le_refl _
  | some j => exact hshard.prov j

theorem untagged_eq_sub (shard : CallGraph) (k : EdgeKey Str) :
    shard.spec.untagged k = shard.spec.refs k
      - atKey shard.edgeIndex (k.map shard.interner.idOf)
          (fun j => UMap.total (List.count j) shard.tuEdges) :=
  atKey_sub _ _ _ _

section Tagging

variable {g : CallGraph} {st : CallGraph × List (Option Nat)} (hshard : WF shard)
  (hre : Remaps shard t remap) (h : AbsorbedEdges shard t remap g shard.edges st)

include hshard h

/-- Before the pass, the shard's registrations are there under no TU. -/
theorem AbsorbedEdges.refs (k : EdgeKey Str) :
    st.1.spec.refs k = g.spec.refs k + shard.spec.refs k := by
  rw [h.spec]
  exact congrArg _ (refsIn_all hshard k)

theorem AbsorbedEdges.untagged (k : EdgeKey Str) :
    atKey st.1.edgeIndex (k.map t.idOf) (looseAt st.1.edges st.1.tuEdges)
      = g.spec.untagged k + shard.spec.refs k := by
  have hunt : st.1.spec.untagged k = g.spec.untagged k + shard.spec.refs k := by
    rw [h.spec]
    exact congrArg _ (refsIn_all hshard k)
  rw [← hunt, ← h.interner]
  rfl

/-- What a key's position holds beyond the master's own registrations is the shard's. -/
theorem AbsorbedEdges.room {k : EdgeKey Str} {i : Nat}
    (hi : st.1.edgeIndex.lookup (k.map t.idOf) = some i) :
    shard.spec.refs k ≤ looseAt st.1.edges st.1.tuEdges i := by
  have hat := h.untagged hshard k
  unfold atKey at hat
  rw [hi, Option.map_some, Option.getD_some] at hat
  omega

include hre

theorem AbsorbedEdges.tagged_le (i : Nat) :
    UMap.total (List.count i) (taggedMap remap st.2 shard st.1.tuEdges)
      ≤ refsAt st.1.edges i := by
  have hprov := h.wf.prov i
  rw [total_taggedMap]
  by_cases hex : ∃ j, st.2.getD j none = some i
  · obtain ⟨j, hj⟩ := hex
    obtain ⟨k, hk⟩ := h.key_of_landed hshard hre hj
    have hloose := h.room hshard hk
    have hle := tagged_le_refs hshard k
    rw [h.tagged_sum hshard hre hk]
    unfold looseAt at hloose
    omega
  · have hzero : (shard.tuEdges.entries.map fun e =>
        (e.2.filterMap fun j => st.2.getD j none).count i).sum = 0 := by
      refine List.sum_eq_zero ?_
      intro x hx
      obtain ⟨e, -, rfl⟩ := List.mem_map.mp hx
      exact count_filterMap_none (fun j hj => hex ⟨j, hj⟩) _
    omega

theorem AbsorbedEdges.wf_tagged :
    WF { st.1 with tuEdges := taggedMap remap st.2 shard st.1.tuEdges } := by
  refine { h.wf with
    ids := { h.wf.ids with tuEdge := ?_ }
    prov := fun i => h.tagged_le hshard hre i }
  intro x l hl
  show x < st.1.interner.size
  rcases lookup_tagged hl with ⟨e, he, rfl⟩ | ⟨l', hl'⟩
  · have hlt := hshard.ids.tuEdge e.1 e.2 ((UMap.mem_entries _ _ _).mp he)
    rw [hre.eq _ hlt, h.interner]
    exact idOf_lt.mpr (hre.mem _ (resolve_mem hlt))
  · exact h.wf.ids.tuEdge x l' hl'

/-- The pass takes from what is under no TU as much as the shard has under TUs. -/
theorem AbsorbedEdges.untagged_tagged (k : EdgeKey Str) :
    atKey st.1.edgeIndex (k.map t.idOf)
        (looseAt st.1.edges (taggedMap remap st.2 shard st.1.tuEdges))
      = g.spec.untagged k + shard.spec.untagged k := by
  have hk := h.untagged hshard k
  have hle := tagged_le_refs hshard k
  have hsub := untagged_eq_sub shard k
  unfold atKey at hk ⊢
  cases hi : st.1.edgeIndex.lookup (k.map t.idOf) with
  | none =>
      rw [hi] at hk
      simp only [Option.map_none, Option.getD_none] at hk ⊢
      omega
  | some i =>
      rw [hi] at hk
      simp only [Option.map_some, Option.getD_some] at hk ⊢
      unfold looseAt at hk ⊢
      rw [total_taggedMap, h.tagged_sum hshard hre hi]
      omega

/-- What a TU of the shard has of an edge lands where the master has the edge. -/
theorem AbsorbedEdges.count_landed (k : EdgeKey Str) (l : List Nat) :
    atKey st.1.edgeIndex (k.map t.idOf)
        (fun i => (l.filterMap fun j => st.2.getD j none).count i)
      = atKey shard.edgeIndex (k.map shard.interner.idOf) (fun j => l.count j) := by
  unfold atKey
  cases hi : st.1.edgeIndex.lookup (k.map t.idOf) with
  | none =>
      cases hl : shard.edgeIndex.lookup (k.map shard.interner.idOf) with
      | none => rfl
      | some j =>
          have hlive := (hshard.edges.indexed _ _).mp hl
          have hb := hshard.ids.edge j _ hlive
          obtain ⟨i', -, hl'⟩ := h.live j _ hlive
          rw [(hre.key hb).1, key_resolve hb, hi] at hl'
          simp at hl'
  | some i =>
      have hland := h.landed hshard hre hi
      cases hl : shard.edgeIndex.lookup (k.map shard.interner.idOf) with
      | none =>
          rw [hl] at hland
          exact count_filterMap_none (fun j hj => by simpa using (hland j).mp hj) _
      | some j =>
          rw [hl] at hland
          exact count_filterMap_unique
            (fun x => (hland x).trans (by rw [Option.some.injEq]; exact eq_comm)) _

theorem AbsorbedEdges.reg_tagged (tu : Str) (k : EdgeKey Str) :
    atKey st.1.edgeIndex (k.map t.idOf)
        (fun i => ((taggedMap remap st.2 shard st.1.tuEdges).getD (t.idOf tu) []).count i)
      = g.spec.reg tu k + shard.spec.reg tu k := by
  have hreg : st.1.spec.reg = g.spec.reg := by rw [h.spec]
  rw [getD_tagged hshard hre, ← hreg]
  show _ = atKey st.1.edgeIndex (k.map st.1.interner.idOf)
      (fun i => (st.1.tuEdges.getD (st.1.interner.idOf tu) []).count i)
    + atKey shard.edgeIndex (k.map shard.interner.idOf)
      (fun j => (shard.tuEdges.getD (shard.interner.idOf tu) []).count j)
  rw [h.interner]
  simp only [List.count_append]
  rw [atKey_add, h.count_landed hshard hre]

/-- **The provenance pass hands the shard's registrations to their TUs.** -/
theorem absorbTuEdges_spec :
    let g' := shard.tuEdges.entries.foldl (absorbTuEdges remap st.2) st.1
    WF g' ∧ g'.interner = t ∧
    g'.spec = { g.spec with
      refs := fun k => g.spec.refs k + shard.spec.refs k
      untagged := fun k => g.spec.untagged k + shard.spec.untagged k
      reg := fun tu k => g.spec.reg tu k + shard.spec.reg tu k } := by
  intro g'
  have heq : g' = { st.1 with tuEdges := taggedMap remap st.2 shard st.1.tuEdges } :=
    absorbTuEdges_eq st.2 shard.tuEdges.entries st.1
  rw [heq]
  refine ⟨h.wf_tagged hshard hre, h.interner, ?_⟩
  have hnode : st.1.spec.node = g.spec.node := by rw [h.spec]
  have hcon : st.1.spec.contributors = g.spec.contributors := by rw [h.spec]
  have hrel : st.1.spec.related = g.spec.related := by rw [h.spec]
  refine GraphSpec.ext hnode hcon (funext (h.refs hshard)) ?_ ?_ hrel
  · funext k
    refine Eq.trans ?_ (h.untagged_tagged hshard hre k)
    rw [← h.interner]
    rfl
  · funext tu k
    refine Eq.trans ?_ (h.reg_tagged hshard hre tu k)
    rw [← h.interner]
    rfl

end Tagging

/-! ### Relations -/

theorem foldl_relate (hre : Remaps shard t remap) (r : Relation) (a : SId)
    (ha : a < shard.interner.size) (bs : List SId) (hbs : ∀ b ∈ bs, b < shard.interner.size) :
    ∀ g : CallGraph, WF g → g.interner = t →
      let g' := bs.foldl (fun g b => relateStep r g (remap a) (remap b)) g
      WF g' ∧ g'.interner = t ∧
      g'.spec = { g.spec with
        related := fun r' x y => g.spec.related r' x y ∨
          (r' = r ∧ x = shard.interner.resolve a ∧ ∃ b ∈ bs, y = shard.interner.resolve b) } := by
  induction bs with
  | nil =>
      intro g hwf hint
      refine ⟨hwf, hint, ?_⟩
      refine GraphSpec.ext rfl rfl rfl rfl rfl ?_
      funext r' x y
      simp
  | cons b rest ih =>
      intro g hwf hint
      have hb := hbs b List.mem_cons_self
      have has := hre.mem _ (resolve_mem ha)
      have hbs' := hre.mem _ (resolve_mem hb)
      have hra := hre.eq a ha
      have hrb := hre.eq b hb
      subst hint
      have hwf' := hwf.relateStep r (idOf_lt.mpr has) (idOf_lt.mpr hbs')
      have hspec' := spec_relateStep r has hbs'
      rw [← hra, ← hrb] at hwf' hspec'
      obtain ⟨hwf'', hint'', hspec''⟩ := ih (fun x hx => hbs x (List.mem_cons_of_mem _ hx)) _ hwf'
        (relateStep_interner r g _ _)
      refine ⟨hwf'', hint'', ?_⟩
      rw [List.foldl_cons, hspec'', hspec']
      refine GraphSpec.ext rfl rfl rfl rfl rfl ?_
      funext r' x y
      refine propext ?_
      simp only [GraphSpec.relate, List.mem_cons, exists_eq_or_imp]
      tauto

/-- **A relation pass adds the shard's pairs.** -/
theorem absorbRelation_spec (hshard : WF shard) (hre : Remaps shard t remap) (r : Relation)
    {g : CallGraph} (hwf : WF g) (hint : g.interner = t) :
    let g' := absorbRelation remap (relateStep r) (shard.relation r) g
    WF g' ∧ g'.interner = t ∧
    g'.spec = { g.spec with
      related := fun r' x y => g.spec.related r' x y ∨ (r' = r ∧ shard.spec.related r x y) } := by
  have hfold : ∀ (entries : List (Σ _ : SId, List SId)),
      (∀ e ∈ entries, e ∈ (shard.relation r).entries) → ∀ g : CallGraph, WF g → g.interner = t →
      let g' := entries.foldl
        (fun g entry => entry.2.foldl (fun g x => relateStep r g (remap entry.1) (remap x)) g) g
      WF g' ∧ g'.interner = t ∧
      g'.spec = { g.spec with
        related := fun r' x y => g.spec.related r' x y ∨ (r' = r ∧ ∃ e ∈ entries,
          ∃ b ∈ e.2, x = shard.interner.resolve e.1 ∧ y = shard.interner.resolve b) } := by
    intro entries
    induction entries with
    | nil =>
        intro _ g hwf hint
        refine ⟨hwf, hint, ?_⟩
        refine GraphSpec.ext rfl rfl rfl rfl rfl ?_
        funext r' x y
        simp
    | cons entry rest ih =>
        intro hmem g hwf hint
        have hget : (shard.relation r).getD entry.1 [] = entry.2 := by
          rw [UMap.getD, (UMap.mem_entries _ _ _).mp (hmem entry List.mem_cons_self)]
          rfl
        have hids : ∀ b ∈ entry.2, entry.1 < shard.interner.size ∧ b < shard.interner.size :=
          fun b hb => hshard.ids.related r entry.1 b (hget.symm ▸ hb)
        have hone :
            let g' := entry.2.foldl (fun g x => relateStep r g (remap entry.1) (remap x)) g
            WF g' ∧ g'.interner = t ∧
            g'.spec = { g.spec with
              related := fun r' x y => g.spec.related r' x y ∨
                (r' = r ∧ x = shard.interner.resolve entry.1 ∧
                  ∃ b ∈ entry.2, y = shard.interner.resolve b) } := by
          cases hl : entry.2 with
          | nil =>
              refine ⟨hwf, hint, ?_⟩
              refine GraphSpec.ext rfl rfl rfl rfl rfl ?_
              funext r' x y
              simp
          | cons b bs =>
              rw [hl] at hids
              exact foldl_relate hre r entry.1 (hids b List.mem_cons_self).1 (b :: bs)
                (fun x hx => (hids x hx).2) g hwf hint
        obtain ⟨hwf₁, hint₁, hspec₁⟩ := hone
        obtain ⟨hwf₂, hint₂, hspec₂⟩ := ih (fun e he => hmem e (List.mem_cons_of_mem _ he)) _
          hwf₁ hint₁
        refine ⟨hwf₂, hint₂, ?_⟩
        rw [List.foldl_cons, hspec₂, hspec₁]
        refine GraphSpec.ext rfl rfl rfl rfl rfl ?_
        funext r' x y
        refine propext ?_
        simp only [List.mem_cons, exists_eq_or_imp]
        constructor
        · rintro ((h | ⟨hr, hx, b, hb, hy⟩) | ⟨hr, h⟩)
          · exact Or.inl h
          · exact Or.inr ⟨hr, Or.inl ⟨b, hb, hx, hy⟩⟩
          · exact Or.inr ⟨hr, Or.inr h⟩
        · rintro (h | ⟨hr, ⟨b, hb, hx, hy⟩ | h⟩)
          · exact Or.inl (Or.inl h)
          · exact Or.inl (Or.inr ⟨hr, hx, b, hb, hy⟩)
          · exact Or.inr ⟨hr, h⟩
  obtain ⟨hwf', hint', hspec'⟩ := hfold (shard.relation r).entries (fun e he => he) g hwf hint
  refine ⟨hwf', hint', ?_⟩
  unfold absorbRelation
  rw [hspec']
  refine GraphSpec.ext rfl rfl rfl rfl rfl ?_
  funext r' x y
  refine propext (or_congr_right (and_congr_right fun _ => ?_))
  show _ ↔ shard.interner.idOf y ∈ (shard.relation r).getD (shard.interner.idOf x) []
  constructor
  · rintro ⟨e, he, b, hb, rfl, rfl⟩
    have hget : (shard.relation r).getD e.1 [] = e.2 := by
      rw [UMap.getD, (UMap.mem_entries _ _ _).mp he]
      rfl
    obtain ⟨h₁, h₂⟩ := hshard.ids.related r e.1 b (hget.symm ▸ hb)
    rw [idOf_resolve hshard.ids.nodup h₁, idOf_resolve hshard.ids.nodup h₂, hget]
    exact hb
  · intro hy
    obtain ⟨h₁, h₂⟩ := hshard.ids.related r _ _ hy
    unfold UMap.getD at hy
    cases hl : (shard.relation r).lookup (shard.interner.idOf x) with
    | none =>
        rw [hl] at hy
        exact absurd hy List.not_mem_nil
    | some bs =>
        rw [hl] at hy
        exact ⟨⟨_, bs⟩, (UMap.mem_entries _ _ _).mpr hl, _, hy,
          (resolve_idOf (idOf_lt.mp h₁)).symm, (resolve_idOf (idOf_lt.mp h₂)).symm⟩

end Passes

/-! ### The merge

The four passes one after the other, each described by what it does to the
abstract graph.
-/

/-- **Absorbing a shard merges the abstract graphs.** -/
theorem absorb_wf_spec {g shard : CallGraph} (hwf : WF g) (hshard : WF shard) :
    WF (g.absorb shard) ∧ (g.absorb shard).spec = g.spec.merge shard.spec := by
  obtain ⟨t, heq, hpre, hnd, hmem, hids⟩ := internAll_eq shard.interner.strings g
  have hre := internAll_remaps shard g hmem hids
  have hwf₀ := hwf.grow hpre (hnd hwf.ids.nodup)
  have hspec₀ := hwf.spec_grow hpre
  rw [← heq] at hwf₀ hspec₀
  have hint₀ : (g.internAll shard.interner.strings).1.interner = t := by rw [heq]
  obtain ⟨hwf₁, hint₁, hspec₁⟩ := absorbNodes_spec hshard hre hwf₀ hint₀
  obtain ⟨hwf₂, hint₂, hspec₂⟩ :=
    absorbTuEdges_spec hshard hre (absorbEdges_spec hshard hre hwf₁ hint₁)
  obtain ⟨hwf₃, hint₃, hspec₃⟩ := absorbRelation_spec hshard hre .derivedClass hwf₂ hint₂
  obtain ⟨hwf₄, hint₄, hspec₄⟩ := absorbRelation_spec hshard hre .methodOverride hwf₃ hint₃
  obtain ⟨hwf₅, hint₅, hspec₅⟩ := absorbRelation_spec hshard hre .effectiveImpl hwf₄ hint₄
  obtain ⟨hwf₆, -, hspec₆⟩ := absorbRelation_spec hshard hre .functionReturn hwf₅ hint₅
  refine ⟨hwf₆, hspec₆.trans ?_⟩
  rw [hspec₅, hspec₄, hspec₃, hspec₂, hspec₁, hspec₀]
  refine GraphSpec.ext rfl rfl rfl rfl rfl ?_
  funext r x y
  refine propext ?_
  show ((((_ ∨ _) ∨ _) ∨ _) ∨ _) ↔ _ ∨ _
  cases r <;> simp

end CallGraph
end Vycor
