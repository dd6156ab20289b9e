/-
Removing TUs in one batch or one by one.

A batch releases all registrations first and scrubs each shared vector once.  What it leaves
is a function of the index before it and of which TUs were given, and so is what a sequence
of single removals leaves, whatever its order and its repetitions: each index has a relation
`Removed` for this, kept by one more removal.  For the call graph the abstract graph plays
that part, where the removals of two TUs commute.  The counts need no argument of their own:
what a removal reports and what then remains always add up to what there was.
-/
import Vycor.Proofs.ChannelPositions
import Vycor.Proofs.ContextHistory
import Vycor.Proofs.Provenance

namespace Vycor

open UMap Postings

/-- Remove TUs one after the other; how many records went in all. -/
def removeEach {σ : Type} (removeTU : σ → Str → σ × Nat) (s : σ) (tus : List Str) : σ × Nat :=
  tus.foldl (fun st tu => ((removeTU st.1 tu).1, st.2 + (removeTU st.1 tu).2)) (s, 0)

/-- What holds after each removal holds after all of them. -/
theorem removeEach_induction {σ : Type} (removeTU : σ → Str → σ × Nat) {s : σ}
    {P : List Str → σ × Nat → Prop} (hstart : P [] (s, 0))
    (hstep : ∀ done st tu, P done st →
      P (done ++ [tu]) ((removeTU st.1 tu).1, st.2 + (removeTU st.1 tu).2)) (tus : List Str) :
    P tus (removeEach removeTU s tus) := by
  induction tus using List.reverseRecOn with
  | nil => exact hstart
  | append_singleton done tu ih =>
      unfold removeEach at ih ⊢
      rw [List.foldl_append]
      exact hstep done _ tu ih

/-! ### The call graph

A removal of one TU commutes with that of another on the abstract graph, so the
order of the single removals does not matter; a batch is one such order. The
counts follow from what remains.
-/

namespace GraphSpec

theorem releaseTU_comm (s : GraphSpec) (a b : Str) :
    (s.releaseTU a).releaseTU b = (s.releaseTU b).releaseTU a := by
  by_cases hab : a = b
  · rw [hab]
  · refine GraphSpec.ext rfl rfl ?_ rfl ?_ rfl
    · funext k
      show s.refs k - s.reg a k - (if b = a then 0 else s.reg b k)
        = s.refs k - s.reg b k - (if a = b then 0 else s.reg a k)
      rw [if_neg hab, if_neg (Ne.symm hab)]
      omega
    · funext t k
      show (if t = b then 0 else if t = a then 0 else s.reg t k)
        = (if t = a then 0 else if t = b then 0 else s.reg t k)
      by_cases ha : t = a <;> by_cases hb : t = b <;> simp [ha, hb]

/-- Two TUs are all the contributors that a node has left: in either order. -/
theorem alone_comm {C : Set Str} {a b : Str} (hab : a ≠ b)
    (h : (b ∈ C \ {a} ∧ C \ {a} ⊆ {b}) ∨ (a ∈ C ∧ C ⊆ {a})) :
    (a ∈ C \ {b} ∧ C \ {b} ⊆ {a}) ∨ (b ∈ C ∧ C ⊆ {b}) := by
  rcases h with ⟨⟨hb, -⟩, hsub⟩ | ⟨ha, hsub⟩
  · by_cases ha : a ∈ C
    · refine Or.inl ⟨⟨ha, hab⟩, ?_⟩
      rintro x ⟨hx, hxb⟩
      by_contra hxa
      exact hxb (hsub ⟨hx, hxa⟩)
    · refine Or.inr ⟨hb, fun x hx => hsub ⟨hx, ?_⟩⟩
      rintro rfl
      exact ha hx
  · exact Or.inl ⟨⟨ha, hab⟩, fun x hx => hsub hx.1⟩

/-- A node goes with the last of its contributors, whichever is the last. -/
theorem dropNodes_comm (s : GraphSpec) (a b : Str) :
    (s.dropNodes a).dropNodes b = (s.dropNodes b).dropNodes a := by
  have hgone : ∀ (x y u : Str),
      ((y ∈ s.contributors u \ {x} ∧ s.contributors u \ {x} ⊆ {y}) ∨
        (x ∈ s.contributors u ∧ s.contributors u ⊆ {x})) →
      ((s.dropNodes x).dropNodes y).node u = none := by
    rintro x y u (hlast | hfirst)
    · exact if_pos hlast
    · have hx : (s.dropNodes x).node u = none := if_pos hfirst
      by_cases hlast : y ∈ s.contributors u \ {x} ∧ s.contributors u \ {x} ⊆ {y}
      · exact if_pos hlast
      · exact (if_neg hlast).trans hx
  have hkept : ∀ (x y u : Str),
      ¬((y ∈ s.contributors u \ {x} ∧ s.contributors u \ {x} ⊆ {y}) ∨
        (x ∈ s.contributors u ∧ s.contributors u ⊆ {x})) →
      ((s.dropNodes x).dropNodes y).node u = s.node u := by
    intro x y u h
    exact (if_neg fun hlast => h (Or.inl hlast)).trans (if_neg fun hfirst => h (Or.inr hfirst))
  by_cases hab : a = b
  · rw [hab]
  · refine GraphSpec.ext ?_ ?_ rfl rfl rfl rfl
    · funext u
      by_cases h : (b ∈ s.contributors u \ {a} ∧ s.contributors u \ {a} ⊆ {b}) ∨
          (a ∈ s.contributors u ∧ s.contributors u ⊆ {a})
      · rw [hgone a b u h, hgone b a u (alone_comm hab h)]
      · rw [hkept a b u h, hkept b a u (fun h' => h (alone_comm (Ne.symm hab) h'))]
    · funext u
      exact Set.sdiff_sdiff_comm

theorem removeTU_comm (s : GraphSpec) (a b : Str) :
    (s.removeTU a).removeTU b = (s.removeTU b).removeTU a := by
  have hswap : ∀ (s : GraphSpec) (x y : Str),
      (s.dropNodes x).releaseTU y = (s.releaseTU y).dropNodes x := fun _ _ _ => rfl
  unfold removeTU
  rw [hswap, hswap, releaseTU_comm, dropNodes_comm]

/-- **The order of single removals does not matter.** -/
theorem removeTUs_perm (s : GraphSpec) {tus order : List Str} (h : order.Perm tus) :
    s.removeTUs order = s.removeTUs tus := by
  have : RightCommutative removeTU := ⟨removeTU_comm⟩
  exact h.foldl_eq s

end GraphSpec

namespace CallGraph

variable {g : CallGraph}

/-- A buried edge is one live edge fewer. -/
theorem Releasing.balance {r : Release} (h : Releasing g r)
    (hbal : r.removed + r.g.liveEdgeCount = g.liveEdgeCount) (idx : Nat) :
    (CallGraph.releaseEdge r idx).removed + (CallGraph.releaseEdge r idx).g.liveEdgeCount
      = g.liveEdgeCount := by
  cases he : r.g.edges[idx]? with
  | none =>
      rw [releaseEdge_none (by simp [refsAt, he])]
      exact hbal
  | some e =>
      rcases Nat.lt_trichotomy 1 e.refs with hmore | hlast | hzero
      · rw [releaseEdge_some he hmore]
        exact hbal
      · rw [releaseEdge_last he hlast.symm]
        have hpos : 0 < r.g.liveEdgeCount := by
          rw [h.count]
          exact List.countP_pos_iff.mpr ⟨e, List.mem_of_getElem? he, by simp [← hlast]⟩
        show r.removed + 1 + (r.g.liveEdgeCount - 1) = g.liveEdgeCount
        omega
      · rw [releaseEdge_none (by simp [refsAt, he]; omega)]
        exact hbal

theorem Releasing.balance_releaseTU {r : Release} (h : Releasing g r)
    (hbal : r.removed + r.g.liveEdgeCount = g.liveEdgeCount) (tuId : SId) :
    (CallGraph.releaseTU r tuId).removed + (CallGraph.releaseTU r tuId).g.liveEdgeCount
      = g.liveEdgeCount := by
  unfold CallGraph.releaseTU
  split
  · exact hbal
  · rename_i idxs _
    have hrun := List.foldlRecOn (motive := fun r' : Release =>
        Releasing g r' ∧ r'.removed + r'.g.liveEdgeCount = g.liveEdgeCount) idxs
      CallGraph.releaseEdge ⟨h, hbal⟩ fun r' hr' idx _ =>
        ⟨hr'.1.releaseEdge idx, hr'.1.balance hr'.2 idx⟩
    exact hrun.2

theorem edges_dropNodes (g : CallGraph) (tuId : SId) :
    (g.dropNodes tuId).liveEdgeCount = g.liveEdgeCount := by
  have hone : ∀ (g : CallGraph) (nodeId : SId),
      (dropContributor tuId g nodeId).liveEdgeCount = g.liveEdgeCount := by
    intro g nodeId
    unfold dropContributor eraseNode
    split
    · rfl
    · dsimp only
      split
      · split <;> rfl
      · rfl
  unfold dropNodes
  split
  · rfl
  · rename_i nodeIds _
    exact List.foldlRecOn (motive := fun g' : CallGraph => g'.liveEdgeCount = g.liveEdgeCount)
      nodeIds _ rfl fun g' hg' nodeId _ => (hone g' nodeId).trans hg'

/-- **What a removal reports and what remains is what there was.** -/
theorem WF.removeTUs_count (hwf : WF g) (tus : List Str) :
    (g.removeTUs tus).2 + (g.removeTUs tus).1.edgeCount = g.edgeCount := by
  have hrun := List.foldlRecOn (motive := fun r : Release =>
      Releasing g r ∧ r.removed + r.g.liveEdgeCount = g.liveEdgeCount)
    (tus.filterMap g.interner.find) CallGraph.releaseTU
    ⟨Releasing.start hwf.edges, Nat.zero_add _⟩ fun r hr tuId _ =>
      ⟨(releaseTU_spec hr.1 tuId).1, hr.1.balance_releaseTU hr.2 tuId⟩
  have hdrop : ∀ (tuIds : List SId) (g' : CallGraph),
      (tuIds.foldl dropNodes g').liveEdgeCount = g'.liveEdgeCount := by
    intro tuIds
    induction tuIds with
    | nil => exact fun _ => rfl
    | cons tuId rest ih => exact fun g' => (ih _).trans (edges_dropNodes g' tuId)
  unfold CallGraph.removeTUs edgeCount
  dsimp only
  rw [hdrop]
  exact hrun.2

/-- The live edges of a graph, by their keys. -/
def liveKeys (g : CallGraph) : List (EdgeKey Str) :=
  (g.edges.filter fun e => 0 < e.refs).map fun e => e.toEdgeKey.map g.interner.resolve

theorem WF.mem_liveKeys (hwf : WF g) (k : EdgeKey Str) : k ∈ liveKeys g ↔ 0 < g.spec.refs k := by
  unfold liveKeys
  rw [List.mem_map]
  constructor
  · rintro ⟨e, he, rfl⟩
    obtain ⟨hmem, hpos⟩ := List.mem_filter.mp he
    have hpos : 0 < e.refs := by simpa using hpos
    obtain ⟨i, hi⟩ := List.getElem?_of_mem hmem
    have hat : g.spec.refs (e.toEdgeKey.map g.interner.resolve) = refsAt g.edges i :=
      hwf.atKey_live hi hpos _
    rw [hat]
    exact refsAt_pos.mpr ⟨_, e, hi, rfl, hpos⟩
  · intro hpos
    have hat : 0 < atKey g.edgeIndex (k.map g.interner.idOf) (refsAt g.edges) := hpos
    unfold atKey at hat
    cases hl : g.edgeIndex.lookup (k.map g.interner.idOf) with
    | none => simp [hl] at hat
    | some i =>
        obtain ⟨e, he, hk, hlive⟩ := (hwf.edges.indexed _ _).mp hl
        refine ⟨e, List.mem_filter.mpr ⟨List.mem_of_getElem? he, by simpa using hlive⟩, ?_⟩
        rw [hk]
        exact key_resolve (hwf.ids.edge i _ ⟨e, he, hk, hlive⟩)

theorem WF.nodup_liveKeys (hwf : WF g) : (liveKeys g).Nodup := by
  unfold liveKeys List.Nodup
  rw [List.pairwise_map, List.pairwise_filter, List.pairwise_iff_getElem]
  intro i j hi hj hij hposi hposj heq
  have hposi : 0 < g.edges[i].refs := by simpa using hposi
  have hposj : 0 < g.edges[j].refs := by simpa using hposj
  have hi' : g.edges[i]? = some g.edges[i] := List.getElem?_eq_getElem hi
  have hj' : g.edges[j]? = some g.edges[j] := List.getElem?_eq_getElem hj
  have hidx := hwf.atKey_live hi' hposi id
  rw [heq, hwf.atKey_live hj' hposj id] at hidx
  exact absurd hidx.symm (Nat.ne_of_lt hij)

/-- **The number of edges is read off the abstract graph.** -/
theorem WF.edgeCount_congr {g' : CallGraph} (hwf : WF g) (hwf' : WF g') (hspec : g.spec = g'.spec) :
    g.edgeCount = g'.edgeCount := by
  have hlength : ∀ {g : CallGraph}, WF g → g.edgeCount = (liveKeys g).length := by
    intro g hwf
    unfold liveKeys
    rw [List.length_map, ← List.countP_eq_length_filter]
    exact hwf.edges.count
  rw [hlength hwf, hlength hwf']
  refine ((List.perm_ext_iff_of_nodup hwf.nodup_liveKeys hwf'.nodup_liveKeys).mpr ?_).length_eq
  intro k
  rw [hwf.mem_liveKeys, hwf'.mem_liveKeys, hspec]

/-- **Batch or one by one, in any order**, for the graph. -/
theorem WF.removeTUs_each (hwf : WF g) {tus order : List Str} (h : order.Perm tus) :
    Agree (g.removeTUs tus).1 (removeEach removeTU g order).1 ∧
      (g.removeTUs tus).2 = (removeEach removeTU g order).2 := by
  obtain ⟨hbatch, hspec⟩ := removeTUs_wf_spec hwf tus
  have heach := removeEach_induction removeTU (s := g)
    (P := fun done st => WF st.1 ∧ st.1.spec = g.spec.removeTUs done ∧
      st.2 + st.1.edgeCount = g.edgeCount)
    ⟨hwf, rfl, Nat.zero_add _⟩
    (by
      rintro done ⟨g', n⟩ tu ⟨hwf', hspec', hcount'⟩
      obtain ⟨hwf₂, hspec₂⟩ := removeTUs_wf_spec hwf' [tu]
      have hcount₂ := hwf'.removeTUs_count [tu]
      refine ⟨hwf₂, ?_, ?_⟩
      · show (g'.removeTUs [tu]).1.spec = _
        rw [hspec₂, hspec']
        unfold GraphSpec.removeTUs
        rw [List.foldl_append]
      · show n + (g'.removeTUs [tu]).2 + (g'.removeTUs [tu]).1.edgeCount = g.edgeCount
        dsimp only at hcount' hcount₂
        omega)
    order
  obtain ⟨hwf', hspec', hcount'⟩ := heach
  have hsame : (g.removeTUs tus).1.spec = (removeEach removeTU g order).1.spec := by
    rw [hspec, hspec', GraphSpec.removeTUs_perm _ h]
  refine ⟨hbatch.agree hwf' hsame, ?_⟩
  have hcount := hwf.removeTUs_count tus
  have hlive := hbatch.edgeCount_congr hwf' hsame
  omega

end CallGraph

/-! ### The control-flow index

Here the batch is compared with the single removals directly: an index without
the contexts of some TUs is settled, up to the order of map entries, by which
TUs those are.
-/

/-- An entry is what its list and its presence say. -/
theorem lookup_congr {κ : Type} [DecidableEq κ] {m m' : UMap κ (List Nat)} {k : κ}
    (hlist : m.getD k [] = m'.getD k []) (hpresent : m.lookup k = none ↔ m'.lookup k = none) :
    m.lookup k = m'.lookup k := by
  unfold UMap.getD at hlist
  cases h : m.lookup k with
  | none => exact (hpresent.mp h).symm
  | some v =>
      cases h' : m'.lookup k with
      | none => exact absurd (hpresent.mpr h') (by simp [h])
      | some v' =>
          rw [h, h'] at hlist
          exact congrArg some hlist

namespace ControlFlowIndex

variable {cf cf' : ControlFlowIndex}

/-- Two indexes that are the same but for the order in which their maps hold the entries. -/
structure Alike (cf cf' : ControlFlowIndex) : Prop where
  interner : cf.interner = cf'.interner
  scopeSets : cf.scopeSets = cf'.scopeSets
  guardSets : cf.guardSets = cf'.guardSets
  raiiSets : cf.raiiSets = cf'.raiiSets
  contexts : cf.contexts = cf'.contexts
  byCallee : ∀ k, cf.byCallee.lookup k = cf'.byCallee.lookup k
  byCaller : ∀ k, cf.byCaller.lookup k = cf'.byCaller.lookup k
  byCalleeDisplay : ∀ k, cf.byCalleeDisplay.lookup k = cf'.byCalleeDisplay.lookup k
  byCallerDisplay : ∀ k, cf.byCallerDisplay.lookup k = cf'.byCallerDisplay.lookup k
  bySite : ∀ k, cf.bySite.lookup k = cf'.bySite.lookup k
  byTu : ∀ k, cf.byTu.lookup k = cf'.byTu.lookup k
  noProvenance : cf.noProvenance = cf'.noProvenance
  liveCount : cf.liveCount = cf'.liveCount

/-- The index `cf'` is `cf` without the contexts of some TUs.  An entry that runs empty stays
in the maps by name, so that both have the same keys there. -/
structure Removed (cf : ControlFlowIndex) (tus : List Str) (cf' : ControlFlowIndex) : Prop where
  wf : cf'.WF
  interner : cf'.interner = cf.interner
  scopeSets : cf'.scopeSets = cf.scopeSets
  guardSets : cf'.guardSets = cf.guardSets
  raiiSets : cf'.raiiSets = cf.raiiSets
  contexts : cf'.contexts = cf.contexts.map (buried (cf.leaves tus))
  callees : ∀ k, cf'.byCallee.lookup k = none ↔ cf.byCallee.lookup k = none
  callers : ∀ k, cf'.byCaller.lookup k = none ↔ cf.byCaller.lookup k = none
  calleeDisplays : ∀ k, cf'.byCalleeDisplay.lookup k = none ↔ cf.byCalleeDisplay.lookup k = none
  callerDisplays : ∀ k, cf'.byCallerDisplay.lookup k = none ↔ cf.byCallerDisplay.lookup k = none

/-- Scrubbing entries that are there adds none. -/
theorem present_scrub {rows : List StoredContext} {file : SId → StoredContext → Bool}
    {m : UMap SId (List Nat)} (hm : Files rows file m) {affected : List SId} {dead : List Nat}
    (haffected : ∀ k ∈ affected, ∃ se ∈ rows, file k se) (k : SId) :
    (Postings.scrub m affected dead).lookup k = none ↔ m.lookup k = none := by
  rw [lookup_scrub]
  split
  · rename_i hk
    obtain ⟨se, hse, hfile⟩ := haffected k hk
    obtain ⟨i, hi⟩ := List.mem_iff_getElem?.mp hse
    have hmem : i ∈ m.getD k [] := by
      rw [hm]
      exact mem_positions.mpr ⟨se, hi, hfile⟩
    unfold UMap.getD at hmem
    cases hl : m.lookup k with
    | none => simp [hl] at hmem
    | some v => simp
  · rfl

theorem WF.removed (h : cf.WF) (tus : List Str) : Removed cf tus (cf.removeTUs tus).1 := by
  have hr : Burying cf tus (cf.candidatesOf tus) (cf.firstPass tus) := Burying.run _
  obtain ⟨hwf, hcontexts, -⟩ := h.removeTUs tus
  have hdead : ∀ se ∈ (cf.firstPass tus).dead, se ∈ cf.contexts ∧ se.live = true := by
    intro se hse
    obtain ⟨i, hi, hat⟩ := (hr.dead se).mp hse
    obtain ⟨se', hat', hheld⟩ := mem_positions.mp ((h.mem_deadIdxs hr i).mp hi)
    rw [hat] at hat'
    injection hat' with hat'
    subst hat'
    simp only [held, Bool.and_eq_true] at hheld
    exact ⟨List.mem_of_getElem? hat, hheld.1⟩
  refine
    { wf := hwf, interner := rfl, scopeSets := rfl, guardSets := rfl, raiiSets := rfl
      contexts := hcontexts
      callees := present_scrub h.byCallee ?_
      callers := present_scrub h.byCaller ?_
      calleeDisplays := present_scrub h.byCalleeDisplay ?_
      callerDisplays := present_scrub h.byCallerDisplay ?_ }
  · intro k hk
    obtain ⟨se, hse, rfl⟩ := List.mem_map.mp hk
    obtain ⟨hmem, hlive⟩ := hdead se hse
    exact ⟨se, hmem, by simp [atCallee, held, hlive]⟩
  · intro k hk
    obtain ⟨se, hse, rfl⟩ := List.mem_map.mp hk
    obtain ⟨hmem, hlive⟩ := hdead se hse
    exact ⟨se, hmem, by simp [atCaller, held, hlive]⟩
  · intro k hk
    obtain ⟨se, hse, rfl⟩ := List.mem_map.mp hk
    obtain ⟨hse, hne⟩ := List.mem_filter.mp hse
    obtain ⟨hmem, hlive⟩ := hdead se hse
    exact ⟨se, hmem, displayed_iff.mpr ⟨hlive, hne, rfl⟩⟩
  · intro k hk
    obtain ⟨se, hse, rfl⟩ := List.mem_map.mp hk
    obtain ⟨hse, hne⟩ := List.mem_filter.mp hse
    obtain ⟨hmem, hlive⟩ := hdead se hse
    exact ⟨se, hmem, displayed_iff.mpr ⟨hlive, hne, rfl⟩⟩

/-- What a removal reports and what remains is what there was. -/
theorem WF.removeTUs_count (h : cf.WF) (tus : List Str) :
    (cf.removeTUs tus).2 + (cf.removeTUs tus).1.liveCount = cf.liveCount := by
  obtain ⟨hwf, hcontexts, hcount⟩ := h.removeTUs tus
  rw [hcount, hwf.liveCount, hcontexts, filter_buried, h.liveCount,
    length_split _ (cf.leaves tus)]
  exact Nat.add_comm _ _

theorem leaves_nil (cf : ControlFlowIndex) (se : StoredContext) : cf.leaves [] se = false := by
  unfold leaves fromRemovedTu
  cases se.tuPath with
  | none => rfl
  | some tu => exact decide_eq_false List.not_mem_nil

theorem leaves_append (cf : ControlFlowIndex) (a b : List Str) (se : StoredContext) :
    cf.leaves (a ++ b) se = (cf.leaves a se || cf.leaves b se) := by
  unfold leaves fromRemovedTu
  cases se.tuPath with
  | none => exact List.any_append
  | some tu => simp

theorem leaves_congr {a b : List Str} (h : ∀ t, t ∈ a ↔ t ∈ b) : cf.leaves a = cf.leaves b := by
  funext se
  unfold leaves fromRemovedTu
  cases se.tuPath with
  | none =>
      refine Bool.eq_iff_iff.mpr ?_
      simp only [List.any_eq_true, h]
  | some tu => exact decide_eq_decide.mpr (h _)

theorem leaves_retable (h : cf'.interner = cf.interner) (tus : List Str) :
    cf'.leaves tus = cf.leaves tus := by
  funext se
  unfold leaves fromRemovedTu
  rw [h]

/-- Whether a context goes does not depend on whether it is live. -/
theorem buried_buried (cf : ControlFlowIndex) (a b : List Str) (se : StoredContext) :
    buried (cf.leaves b) (buried (cf.leaves a) se) = buried (cf.leaves (a ++ b)) se := by
  have hsame : cf.leaves b (buried (cf.leaves a) se) = cf.leaves b se := rfl
  have hlive : (buried (cf.leaves b) (buried (cf.leaves a) se)).live
      = (buried (cf.leaves (a ++ b)) se).live := by
    show ((se.live && !cf.leaves a se) && !cf.leaves b (buried (cf.leaves a) se))
      = (se.live && !cf.leaves (a ++ b) se)
    rw [hsame, leaves_append, Bool.not_or, Bool.and_assoc]
  exact congrArg (fun b => { se with live := b }) hlive

theorem removed_nil (h : cf.WF) : Removed cf [] cf where
  wf := h
  interner := rfl
  scopeSets := rfl
  guardSets := rfl
  raiiSets := rfl
  contexts := by
    refine (List.map_id _).symm.trans (List.map_congr_left fun se _ => ?_)
    exact (buried_of_stays (leaves_nil cf se)).symm
  callees _ := Iff.rfl
  callers _ := Iff.rfl
  calleeDisplays _ := Iff.rfl
  callerDisplays _ := Iff.rfl

/-- **One more removal.** -/
theorem Removed.step {done : List Str} (h : Removed cf done cf') (tu : Str) :
    Removed cf (done ++ [tu]) (cf'.removeTU tu).1 := by
  have hone := h.wf.removed [tu]
  exact
    { wf := hone.wf
      interner := hone.interner.trans h.interner
      scopeSets := hone.scopeSets.trans h.scopeSets
      guardSets := hone.guardSets.trans h.guardSets
      raiiSets := hone.raiiSets.trans h.raiiSets
      contexts := by
        show (cf'.removeTUs [tu]).1.contexts = _
        rw [hone.contexts, h.contexts, leaves_retable h.interner, List.map_map]
        exact List.map_congr_left fun se _ => buried_buried cf done [tu] se
      callees := fun k => (hone.callees k).trans (h.callees k)
      callers := fun k => (hone.callers k).trans (h.callers k)
      calleeDisplays := fun k => (hone.calleeDisplays k).trans (h.calleeDisplays k)
      callerDisplays := fun k => (hone.callerDisplays k).trans (h.callerDisplays k) }

/-- **What is left is settled by which TUs went.** -/
theorem Removed.alike {a b : List Str} (hset : ∀ t, t ∈ a ↔ t ∈ b) {cf₁ cf₂ : ControlFlowIndex}
    (h₁ : Removed cf a cf₁) (h₂ : Removed cf b cf₂) : Alike cf₁ cf₂ := by
  have hcontexts : cf₁.contexts = cf₂.contexts := by
    rw [h₁.contexts, h₂.contexts, leaves_congr hset]
  have hlist {file : SId → StoredContext → Bool} {m m' : UMap SId (List Nat)}
      (hm : Files cf₁.contexts file m) (hm' : Files cf₂.contexts file m') (k : SId) :
      m.getD k [] = m'.getD k [] := by
    rw [hm, hm', hcontexts]
  exact
    { interner := h₁.interner.trans h₂.interner.symm
      scopeSets := h₁.scopeSets.trans h₂.scopeSets.symm
      guardSets := h₁.guardSets.trans h₂.guardSets.symm
      raiiSets := h₁.raiiSets.trans h₂.raiiSets.symm
      contexts := hcontexts
      byCallee := fun k => lookup_congr (hlist h₁.wf.byCallee h₂.wf.byCallee k)
        ((h₁.callees k).trans (h₂.callees k).symm)
      byCaller := fun k => lookup_congr (hlist h₁.wf.byCaller h₂.wf.byCaller k)
        ((h₁.callers k).trans (h₂.callers k).symm)
      byCalleeDisplay := fun k =>
        lookup_congr (hlist h₁.wf.byCalleeDisplay h₂.wf.byCalleeDisplay k)
          ((h₁.calleeDisplays k).trans (h₂.calleeDisplays k).symm)
      byCallerDisplay := fun k =>
        lookup_congr (hlist h₁.wf.byCallerDisplay h₂.wf.byCallerDisplay k)
          ((h₁.callerDisplays k).trans (h₂.callerDisplays k).symm)
      bySite := fun k => by
        rw [h₁.wf.bySite.lookup_eq h₁.wf.sites, h₂.wf.bySite.lookup_eq h₂.wf.sites, hcontexts]
      byTu := fun k => by
        rw [h₁.wf.byTu.lookup_eq h₁.wf.tus, h₂.wf.byTu.lookup_eq h₂.wf.tus, hcontexts]
      noProvenance := by rw [h₁.wf.noProvenance, h₂.wf.noProvenance, hcontexts]
      liveCount := by rw [h₁.wf.liveCount, h₂.wf.liveCount, hcontexts] }

/-- **Batch or one by one, in any order**, for the control-flow index. -/
theorem WF.removeTUs_each (h : cf.WF) {tus order : List Str} (hperm : order.Perm tus) :
    Alike (cf.removeTUs tus).1 (removeEach removeTU cf order).1 ∧
      (cf.removeTUs tus).2 = (removeEach removeTU cf order).2 := by
  have heach := removeEach_induction removeTU (s := cf)
    (P := fun done st => Removed cf done st.1 ∧ st.2 + st.1.liveCount = cf.liveCount)
    ⟨removed_nil h, Nat.zero_add _⟩
    (by
      rintro done ⟨cf', n⟩ tu ⟨hremoved, hcount⟩
      refine ⟨hremoved.step tu, ?_⟩
      have hone := hremoved.wf.removeTUs_count [tu]
      show n + (cf'.removeTUs [tu]).2 + (cf'.removeTUs [tu]).1.liveCount = cf.liveCount
      dsimp only at hcount hone
      omega)
    order
  obtain ⟨hremoved, hcount'⟩ := heach
  have halike := (h.removed tus).alike (fun t => hperm.mem_iff.symm) hremoved
  refine ⟨halike, ?_⟩
  have hcount := h.removeTUs_count tus
  have hlive := halike.liveCount
  omega

end ControlFlowIndex

/-! ### The channel index

The sites and the lists of the TUs say everything, and a release commutes with
another on them.
-/

namespace ChannelIndex

variable {ch ch' : ChannelIndex}

/-- Two indexes that are the same but for the order in which their maps hold the entries. -/
structure Alike (ch ch' : ChannelIndex) : Prop where
  sites : ch.sites = ch'.sites
  index : ∀ k, ch.index.lookup k = ch'.index.lookup k
  byChannel : ∀ k, ch.byChannel.lookup k = ch'.byChannel.lookup k
  byFunctionUsr : ∀ k, ch.byFunctionUsr.lookup k = ch'.byFunctionUsr.lookup k
  byFunctionDisplay : ∀ k, ch.byFunctionDisplay.lookup k = ch'.byFunctionDisplay.lookup k
  byTu : ∀ t, ch.byTu.lookup t = ch'.byTu.lookup t
  liveCount : ch.liveCount = ch'.liveCount

/-- The sites with their registrations, and which of these each TU holds. -/
@[ext] structure Holdings where
  sites : List StoredSite
  byTu : Str → Option (List Nat)

/-- The stored sites, and what each TU holds of them. -/
def holdings (ch : ChannelIndex) : Holdings := ⟨ch.sites, fun t => ch.byTu.lookup t⟩

/-- Take one registration off a site. -/
def releaseAt (sites : List StoredSite) (idx : Nat) : List StoredSite := sites.modify idx (drop 1)

/-- Take back the registrations of a TU. -/
def Holdings.release (h : Holdings) (tu : Str) : Holdings where
  sites := ((h.byTu tu).getD []).foldl releaseAt h.sites
  byTu t := if t = tu then none else h.byTu t

theorem releaseAt_comm (sites : List StoredSite) (i j : Nat) :
    releaseAt (releaseAt sites i) j = releaseAt (releaseAt sites j) i := by
  unfold releaseAt
  refine List.ext_getElem? fun n => ?_
  simp only [List.getElem?_modify]
  cases sites[n]? with
  | none => rfl
  | some s => by_cases hi : i = n <;> by_cases hj : j = n <;> simp [hi, hj]

theorem Holdings.release_comm (h : Holdings) (a b : Str) :
    (h.release a).release b = (h.release b).release a := by
  by_cases hab : a = b
  · rw [hab]
  · have hba : ¬ b = a := fun hc => hab hc.symm
    refine Holdings.ext ?_ ?_
    · have hright : RightCommutative releaseAt := ⟨releaseAt_comm⟩
      show ((if b = a then none else h.byTu b).getD []).foldl releaseAt
          (((h.byTu a).getD []).foldl releaseAt h.sites)
        = ((if a = b then none else h.byTu a).getD []).foldl releaseAt
          (((h.byTu b).getD []).foldl releaseAt h.sites)
      rw [if_neg hab, if_neg hba, ← List.foldl_append, ← List.foldl_append]
      exact List.perm_append_comm.foldl_eq _
    · funext t
      show (if t = b then none else if t = a then none else h.byTu t)
        = (if t = a then none else if t = b then none else h.byTu t)
      by_cases ha : t = a <;> by_cases hb : t = b <;> simp [ha, hb]

theorem releaseAt_run (idxs : List Nat) : ∀ {r : Release}, LiveOK r.ch.sites →
    (idxs.foldl releaseSite r).ch.sites = idxs.foldl releaseAt r.ch.sites := by
  induction idxs with
  | nil => exact fun _ => rfl
  | cons idx rest ih =>
      intro r h
      obtain ⟨hsites, -⟩ := releaseSite_sites h idx
      have hlive : LiveOK (releaseSite r idx).ch.sites := hsites ▸ liveOK_modify h idx 1
      rw [List.foldl_cons, List.foldl_cons, ih hlive, hsites]
      rfl

theorem holdings_releaseTU {r : Release} (h : LiveOK r.ch.sites) (tu : Str) :
    (releaseTU r tu).ch.holdings = r.ch.holdings.release tu := by
  unfold ChannelIndex.releaseTU
  cases hl : r.ch.byTu.lookup tu with
  | none =>
      refine Holdings.ext ?_ ?_
      · show r.ch.sites = ((r.ch.byTu.lookup tu).getD []).foldl releaseAt r.ch.sites
        rw [hl]
        rfl
      · funext t
        show r.ch.byTu.lookup t = if t = tu then none else r.ch.byTu.lookup t
        split
        · rename_i ht
          rw [ht, hl]
        · rfl
  | some idxs =>
      refine Holdings.ext ?_ ?_
      · show (idxs.foldl releaseSite r).ch.sites
          = ((r.ch.byTu.lookup tu).getD []).foldl releaseAt r.ch.sites
        rw [hl, releaseAt_run idxs h]
        rfl
      · funext t
        show ((idxs.foldl releaseSite r).ch.byTu.erase tu).lookup t
          = if t = tu then none else r.ch.byTu.lookup t
        rw [lookup_erase_ite, (releaseSites_sites idxs h).2.1]

/-- What a removal takes back is settled by the sites and the TU lists alone. -/
theorem Listed.holdings_removeTUs (h : ch.Listed) (tus : List Str) :
    (ch.removeTUs tus).1.holdings = tus.foldl Holdings.release ch.holdings := by
  show (tus.foldl ChannelIndex.releaseTU { ch }).ch.holdings = _
  induction tus using List.reverseRecOn with
  | nil => rfl
  | append_singleton rest tu ih =>
      rw [List.foldl_append, List.foldl_append, ← ih]
      exact holdings_releaseTU (h.released rest).live tu

/-- **An index is settled by its holdings.** -/
theorem Listed.alike (h : ch.Listed) (h' : ch'.Listed) (hsame : ch.holdings = ch'.holdings) :
    Alike ch ch' := by
  have hsites : ch.sites = ch'.sites := congrArg Holdings.sites hsame
  refine
    { sites := hsites
      index := ?_
      byChannel := fun k => by
        rw [h.byChannel.lookup_eq h.channels, h'.byChannel.lookup_eq h'.channels, hsites]
      byFunctionUsr := fun k => by
        rw [h.byFunctionUsr.lookup_eq h.usrs, h'.byFunctionUsr.lookup_eq h'.usrs, hsites]
      byFunctionDisplay := fun k => by
        rw [h.byFunctionDisplay.lookup_eq h.displays, h'.byFunctionDisplay.lookup_eq h'.displays,
          hsites]
      byTu := fun t => congrFun (congrArg Holdings.byTu hsame) t
      liveCount := by rw [h.liveCount, h'.liveCount, hsites] }
  intro k
  refine Option.ext fun i => ?_
  show ch.index.lookup k = some i ↔ ch'.index.lookup k = some i
  rw [h.index, h'.index, hsites]

/-- **Batch or one by one, in any order**, for the channel index. -/
theorem Listed.removeTUs_each (h : ch.Listed) {tus order : List Str} (hperm : order.Perm tus) :
    Alike (ch.removeTUs tus).1 (removeEach removeTU ch order).1 ∧
      (ch.removeTUs tus).2 = (removeEach removeTU ch order).2 := by
  have heach := removeEach_induction removeTU (s := ch)
    (P := fun done st => st.1.Listed ∧ st.1.holdings = done.foldl Holdings.release ch.holdings ∧
      st.2 + st.1.liveCount = ch.liveCount)
    ⟨h, rfl, Nat.zero_add _⟩
    (by
      rintro done ⟨ch', n⟩ tu ⟨hlisted, hheld, hcount⟩
      obtain ⟨hlisted', hcount'⟩ := hlisted.removeTUs [tu]
      refine ⟨hlisted', ?_, ?_⟩
      · show (ch'.removeTUs [tu]).1.holdings = _
        rw [hlisted.holdings_removeTUs, hheld, List.foldl_append]
      · show n + (ch'.removeTUs [tu]).2 + (ch'.removeTUs [tu]).1.liveCount = ch.liveCount
        dsimp only at hcount hcount'
        omega)
    order
  obtain ⟨hlisted, hheld, hcount'⟩ := heach
  obtain ⟨hbatch, hcount⟩ := h.removeTUs tus
  have hright : RightCommutative Holdings.release := ⟨Holdings.release_comm⟩
  have halike := hbatch.alike hlisted (by
    rw [h.holdings_removeTUs, hheld]
    exact hperm.symm.foldl_eq _)
  refine ⟨halike, ?_⟩
  have hlive := halike.liveCount
  omega

end ChannelIndex

/-- **Removing TUs in one batch is removing them one by one**, in any order: of every graph and
of every index the same is left, and the same count is reported. -/
theorem removeTUs_eq_removeEach (script : Script) (flow : ControlFlowIndex.History)
    (channel : ChannelIndex.History) (tus order : List Str) (h : order.Perm tus) :
    (CallGraph.Agree (script.graph.removeTUs tus).1
        (removeEach CallGraph.removeTU script.graph order).1 ∧
      (script.graph.removeTUs tus).2 = (removeEach CallGraph.removeTU script.graph order).2) ∧
    (ControlFlowIndex.Alike (flow.index.removeTUs tus).1
        (removeEach ControlFlowIndex.removeTU flow.index order).1 ∧
      (flow.index.removeTUs tus).2
        = (removeEach ControlFlowIndex.removeTU flow.index order).2) ∧
    (ChannelIndex.Alike (channel.channels.removeTUs tus).1
        (removeEach ChannelIndex.removeTU channel.channels order).1 ∧
      (channel.channels.removeTUs tus).2
        = (removeEach ChannelIndex.removeTU channel.channels order).2) :=
  ⟨script.wf.removeTUs_each h, flow.wf.removeTUs_each h, channel.listed.removeTUs_each h⟩

/-- A site that two TUs register, one of them twice. -/
def sharedSite : ChannelIndex.History :=
  let site : ChannelSite :=
    { channelId := [100], siteFunctionUsr := [117], siteFunctionDisplay := [102]
      callSite := [49], tuPath := [97] }
  ((ChannelIndex.History.empty.add site).add { site with tuPath := [98] }).add site

/-- One path is given twice and one is unknown. -/
theorem removeTUs_eq_removeEach_small :
    ([[98], [99], [97], [97]] : List Str).Perm [[97], [98], [97], [99]] ∧
    (sharedSite.channels.removeTUs [[97], [98], [97], [99]]).2
      = (removeEach ChannelIndex.removeTU sharedSite.channels [[98], [99], [97], [97]]).2 ∧
    CallGraph.Agree (sharedEdge.graph.removeTUs [[97], [98], [97], [99]]).1
      (removeEach CallGraph.removeTU sharedEdge.graph [[98], [99], [97], [97]]).1 ∧
    (ControlFlowIndex.smallHistory.index.removeTUs [[97], [98], [97], [99]]).2
      = (removeEach ControlFlowIndex.removeTU ControlFlowIndex.smallHistory.index
          [[98], [99], [97], [97]]).2 := by
  have horder : ([[98], [99], [97], [97]] : List Str).Perm [[97], [98], [97], [99]] := by decide
  obtain ⟨⟨hgraph, -⟩, ⟨-, hflow⟩, -, hchannel⟩ :=
    removeTUs_eq_removeEach sharedEdge ControlFlowIndex.smallHistory sharedSite _ _ horder
  exact ⟨horder, hchannel, hgraph, hflow⟩

end Vycor
