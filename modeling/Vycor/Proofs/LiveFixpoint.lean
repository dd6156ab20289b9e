/-
What the optimistic walk finds alive.

The rules are about the abstract graph: where a walk starts, which classes the constructor calls
of live functions construct, and which calls are followed.  They name no order.
`optimistic_least` says that the walk computes the least sets that keep them, whatever order
edges were stored and functions queued in.

The walk goes by name.  That a name it meets stands for the function of that usr and no other is
what the hypothesis about the ends of edges is for.
-/
import Vycor.Lib.GatedSearch
import Vycor.Proofs.DeadCodeWalk
import Vycor.Proofs.Queries

namespace Vycor

namespace GraphSpec

variable (s : GraphSpec)

/-! ### The rules

Liveness as the least solution of rules over usrs. A dispatch that is only
plausible counts once the class of its target is constructed by something alive.
-/

/-- A class that has the function as its implementation, or the function's own, is in the set. -/
def HasClass (C : Set Str) (usr : Str) : Prop :=
  (∃ c, s.related .effectiveImpl usr c ∧ c ∈ C) ∨
    ∃ n, s.node usr = some n ∧ n.enclosingClass ≠ [] ∧ n.enclosingClass ∈ C

/-- The functions of `A` include the starts and what they call, but for plausible dispatches to
a function without a class in `C`; and `C` includes the classes they construct. -/
structure LiveRules (starts A C : Set Str) : Prop where
  started : ∀ usr ∈ starts, usr ∈ A
  constructed : ∀ usr ∈ A, ∀ k, s.Callees usr k → k.kind = .constructorCall →
    ∀ n, s.node k.callee = some n → n.enclosingClass ≠ [] → n.enclosingClass ∈ C
  called : ∀ usr ∈ A, ∀ k, s.Callees usr k →
    (k.kind = .virtualDispatch → k.confidence = .Plausible → s.HasClass C k.callee) →
    k.callee ∈ A

/-- The name stands for the function of that usr alone. -/
def Own (usr : Str) : Prop :=
  (s.node usr).isSome ∨ ∀ v n, s.node v = some n → n.qualifiedName ≠ usr

/-- A graph such as the builder makes. -/
structure Built : Prop where
  /-- Every dispatch is proven or plausible. -/
  dispatch : ∀ k, s.Live k → k.kind = .virtualDispatch →
    k.confidence = .Proven ∨ k.confidence = .Plausible
  /-- No end of an edge that is no node is shown as one. -/
  ends : ∀ usr k, s.Callees usr k → s.node k.callee = none →
    ∀ v n, s.node v = some n → n.qualifiedName ≠ k.callee

variable {s}

theorem Built.own (h : s.Built) {usr : Str} {k : EdgeKey Str} (hk : s.Callees usr k) :
    s.Own k.callee := by
  cases hnode : s.node k.callee with
  | some n =>
      refine Or.inl ?_
      rw [hnode]
      rfl
  | none => exact Or.inr (h.ends usr k hk hnode)

theorem Own.resolves_iff {name usr : Str} (h : s.Own name) : s.Resolves name usr ↔ usr = name := by
  constructor
  · rintro (⟨-, rfl⟩ | ⟨hnone, n, hn, hname⟩ | ⟨-, -, rfl⟩)
    · rfl
    · rcases h with hsome | hother
      · rw [hnone] at hsome
        cases hsome
      · exact absurd hname (hother usr n hn)
    · rfl
  · rintro rfl
    by_cases hsome : (s.node usr).isSome = true
    · exact Or.inl ⟨hsome, rfl⟩
    · exact Or.inr (Or.inr ⟨Option.not_isSome_iff_eq_none.mp hsome, h.resolve_left hsome, rfl⟩)

/-- What a name stands for has a name of its own. -/
theorem Resolves.own {name usr : Str} (h : s.Resolves name usr) : s.Own usr := by
  rcases h with ⟨hsome, rfl⟩ | ⟨-, n, hn, -⟩ | ⟨-, hother, rfl⟩
  · exact Or.inl hsome
  · refine Or.inl ?_
    rw [hn]
    rfl
  · exact Or.inr hother

theorem SameRow.callees {usr : Str} {k k' : EdgeKey Str} (h : s.SameRow k k')
    (hk : s.Callees usr k') (hcaller : k'.caller = usr) : s.Callees usr k := by
  cases h with
  | refl => exact hk
  | @dispatch d e t hd he hsame hsite hnot =>
      refine Or.inr (Or.inl ⟨d, t, hd, hsame.trans hcaller, rfl, ?_⟩)
      rwa [hsite, ← show e.caller = usr from hcaller]
  | @returned d e t hd he hsame hsite hnot hnot' =>
      refine Or.inr (Or.inr ⟨d, t, hd, hsame.trans hcaller, rfl, ?_, ?_⟩)
      · rwa [hsite, ← show e.caller = usr from hcaller]
      · rwa [hsite, ← show e.caller = usr from hcaller]

theorem returnKind_follows (x : ExecutionContext) :
    CallGraph.returnKind x ≠ .constructorCall ∧ CallGraph.returnKind x ≠ .virtualDispatch := by
  unfold CallGraph.returnKind
  split <;> simp

/-- Edges of one row are followed alike. -/
theorem SameRow.alike {k k' : EdgeKey Str} (h : s.SameRow k k') :
    k.callee = k'.callee ∧ (k.kind = .constructorCall ↔ k'.kind = .constructorCall) ∧
      ((k.kind = .virtualDispatch ∧ k.confidence = .Plausible) ↔
        (k'.kind = .virtualDispatch ∧ k'.confidence = .Plausible)) := by
  cases h with
  | refl => exact ⟨rfl, Iff.rfl, Iff.rfl⟩
  | dispatch hd he _ _ _ =>
      obtain ⟨-, hkind, hconf, -⟩ := hd
      obtain ⟨-, hkind', hconf', -⟩ := he
      simp [viaDispatch, hkind, hkind', hconf, hconf']
  | returned _ _ _ _ _ _ =>
      simp [viaReturn, (returnKind_follows _).1, (returnKind_follows _).2]

end GraphSpec

namespace DeadCodeAnalyzer

open CallGraph StringInterner

variable {g : CallGraph}

/-! ### The walk as a search through gates

A dispatch is a gate and a constructed class is its key, which makes the walk an
instance of Lib/GatedSearch.
-/

/-- What is constructed by a call of the function. -/
def constructs (g : CallGraph) (edge : CallGraphEdge) : Option Str :=
  if edge.kind = .constructorCall then
    (g.findNode edge.calleeUsr).bind fun node =>
      if node.enclosingClass ≠ [] then some node.enclosingClass else none
  else none

/-- The classes that make a function one that can be dispatched to. -/
def classesOf (g : CallGraph) (usr : Str) : List Str :=
  g.getClassesForImpl usr ++
    match g.findNode usr with
    | some node => if node.enclosingClass ≠ [] then [node.enclosingClass] else []
    | none => []

/-- The graph as the search has it. -/
def gates (g : CallGraph) : GatedSearch.Problem Str CallGraphEdge Str where
  edges := g.calleesOf
  next := (·.calleeUsr)
  yields := constructs g
  gated edge := edge.confidence ≠ .Proven && edge.kind = .virtualDispatch
  openers := classesOf g

/-- The state of the walk as the search has it. -/
def Walk.gated (w : Walk) : GatedSearch.State Str Str where
  met := w.alive
  queue := w.queue
  keys := w.constructedClasses
  putOff := w.deferredVirtualEdges
  changed := w.changed

theorem gated_enqueue (w : Walk) (usr : Str) :
    (enqueue w usr).gated = GatedSearch.enqueue w.gated usr := by
  unfold enqueue GatedSearch.enqueue Worklist.enqueue Walk.gated
  by_cases h : usr ∈ w.alive <;> simp [h]

theorem gated_noteConstructed (w : Walk) (edge : CallGraphEdge) :
    (noteConstructed g w edge).gated = GatedSearch.find (gates g) w.gated edge := by
  unfold noteConstructed GatedSearch.find gates constructs
  dsimp only
  by_cases hkind : edge.kind = .constructorCall
  · rw [if_pos hkind, if_pos hkind]
    cases g.findNode edge.calleeUsr with
    | none => rfl
    | some node =>
        rw [Option.bind_some]
        by_cases hclass : node.enclosingClass = []
        · simp [hclass]
        · by_cases hold : node.enclosingClass ∈ w.constructedClasses <;>
            simp [hclass, hold, Walk.gated]
  · rw [if_neg hkind, if_neg hkind]

theorem isConstructed_eq (w : Walk) (usr : Str) :
    isConstructed g w usr = GatedSearch.isOpen (gates g) w.gated usr := by
  unfold isConstructed GatedSearch.isOpen gates classesOf
  dsimp only
  rw [List.any_append]
  congr 1
  cases g.findNode usr with
  | none => rfl
  | some node =>
      by_cases hclass : node.enclosingClass = []
      · simp [hclass]
      · simp only [hclass, ne_eq, not_false_eq_true, decide_true, Bool.true_and, if_true,
          List.any_cons, List.any_nil, Bool.or_false]
        exact decide_eq_decide.mpr Iff.rfl

theorem gated_recheck (w : Walk) (usr : Str) :
    (recheck g w usr).gated = GatedSearch.pass (gates g) w.gated usr := by
  unfold recheck GatedSearch.pass
  rw [isConstructed_eq]
  split
  · exact gated_enqueue w usr
  · rfl

/-- Dispatches that are neither proven nor plausible would be dropped. -/
theorem gated_visitEdge (w : Walk) {edge : CallGraphEdge} (h : edge.kind = .virtualDispatch →
    edge.confidence = .Proven ∨ edge.confidence = .Plausible) :
    (visitEdge g true w edge).gated = GatedSearch.visit (gates g) w.gated edge := by
  unfold visitEdge GatedSearch.visit
  rw [← gated_noteConstructed]
  generalize noteConstructed g w edge = w'
  have hgated : (gates g).gated edge = true ↔
      edge.kind = .virtualDispatch ∧ edge.confidence = .Plausible := by
    simp only [gates, Bool.and_eq_true, decide_eq_true_eq, ne_eq]
    constructor
    · rintro ⟨hproven, hkind⟩
      exact ⟨hkind, (h hkind).resolve_left hproven⟩
    · rintro ⟨hkind, hconf⟩
      exact ⟨by rw [hconf]; simp, hkind⟩
  dsimp only
  by_cases hgate : (gates g).gated edge = true
  · obtain ⟨hkind, hconf⟩ := hgated.mp hgate
    rw [if_pos hgate]
    unfold shouldFollowEdge GatedSearch.pass
    rw [← isConstructed_eq]
    by_cases hopen : isConstructed g w' edge.calleeUsr = true
    · simp only [hkind, hconf, hopen, gates]
      exact gated_enqueue w' edge.calleeUsr
    · simp only [hkind, hconf, hopen, gates]
      rfl
  · rw [if_neg hgate]
    have hfollow : shouldFollowEdge g true w' edge = true := by
      unfold shouldFollowEdge
      by_cases hproven : edge.confidence = .Proven
      · rw [if_pos hproven]
      · have hkind : edge.kind ≠ .virtualDispatch := fun hkind =>
          hgate (hgated.mpr ⟨hkind, (h hkind).resolve_left hproven⟩)
        simp [hproven, hkind]
    rw [if_pos hfollow]
    exact gated_enqueue w' edge.calleeUsr

/-- Every dispatch the walk meets is proven or plausible. -/
def DispatchesKnown (g : CallGraph) : Prop :=
  ∀ usr, ∀ edge ∈ g.calleesOf usr, edge.kind = .virtualDispatch →
    edge.confidence = .Proven ∨ edge.confidence = .Plausible

theorem gated_drain (h : DispatchesKnown g) (fuel : Nat) (w : Walk) :
    (drain g true fuel w).gated = GatedSearch.drain (gates g) fuel w.gated := by
  induction fuel generalizing w with
  | zero => rfl
  | succ fuel ih =>
      unfold drain GatedSearch.drain
      have hqueue : w.gated.queue = w.queue := rfl
      rw [hqueue]
      cases w.queue with
      | nil => rfl
      | cons current rest =>
          have hvisits : ∀ (edges : List CallGraphEdge) (w : Walk),
              (∀ edge ∈ edges, edge ∈ g.calleesOf current) →
              (edges.foldl (visitEdge g true) w).gated
                = edges.foldl (GatedSearch.visit (gates g)) w.gated := by
            intro edges
            induction edges with
            | nil => exact fun _ _ => rfl
            | cons edge others ih =>
                intro w hedges
                obtain ⟨hedge, hothers⟩ := List.forall_mem_cons.mp hedges
                rw [List.foldl_cons, List.foldl_cons, ih _ hothers,
                  gated_visitEdge w (h current edge hedge)]
          rw [ih, hvisits _ _ fun _ hedge => hedge]
          rfl

theorem gated_rounds (h : DispatchesKnown g) (fuel : Nat) (w : Walk) :
    (rounds g true fuel w).gated
      = GatedSearch.rounds (gates g) (g.interner.size + 2) fuel w.gated := by
  induction fuel generalizing w with
  | zero => rfl
  | succ fuel ih =>
      have hdrain : GatedSearch.drain (gates g) (g.interner.size + 2)
          { w.gated with changed := false }
            = (drain g true (g.interner.size + 2) { w with changed := false }).gated :=
        (gated_drain h (g.interner.size + 2) { w with changed := false }).symm
      have hrechecks : ∀ (usrs : List Str) (w : Walk),
          (usrs.foldl (recheck g) w).gated = usrs.foldl (GatedSearch.pass (gates g)) w.gated := by
        intro usrs
        induction usrs with
        | nil => exact fun _ => rfl
        | cons usr rest ih =>
            intro w
            rw [List.foldl_cons, List.foldl_cons, ih, gated_recheck]
      unfold rounds GatedSearch.rounds
      dsimp only
      rw [hdrain]
      generalize drain g true (g.interner.size + 2) { w with changed := false } = w'
      have hchanged : w'.gated.changed = w'.changed := rfl
      rw [hchanged]
      split
      · rfl
      · rw [if_pos rfl, ih, hrechecks]
        rfl

/-! ### What the walk ends with -/

theorem gated_seeded (entryPoints : List Str) :
    (entryPoints.foldl (seed g) {}).gated
      = (startUsrs g entryPoints).foldl GatedSearch.enqueue {} := by
  have hfold : ∀ (usrs : List Str) (w : Walk),
      (usrs.foldl enqueue w).gated = usrs.foldl GatedSearch.enqueue w.gated := by
    intro usrs
    induction usrs with
    | nil => exact fun _ => rfl
    | cons usr rest ih =>
        intro w
        rw [List.foldl_cons, List.foldl_cons, ih, gated_enqueue]
  rw [foldl_seed, hfold]
  rfl

theorem start_mem_strings {entryPoints : List Str} {usr : Str} (h : usr ∈ startUsrs g entryPoints) :
    usr ∈ [] :: g.interner.strings := by
  obtain ⟨name, -, hname⟩ := List.mem_flatMap.mp h
  obtain ⟨id, -, rfl⟩ := List.mem_map.mp hname
  exact StringInterner.resolve_mem_strings _ id

theorem callee_mem_strings {usr : Str} {edge : CallGraphEdge} (h : edge ∈ g.calleesOf usr) :
    edge.calleeUsr ∈ [] :: g.interner.strings := by
  obtain ⟨_, -, hrefs⟩ := List.mem_flatMap.mp h
  obtain ⟨ref, -, rfl⟩ := List.mem_map.mp hrefs
  exact StringInterner.resolve_mem_strings _ ref.callee

theorem constructs_eq_some {edge : CallGraphEdge} {c : Str} :
    constructs g edge = some c ↔ edge.kind = .constructorCall ∧
      ∃ n, g.findNode edge.calleeUsr = some n ∧ n.enclosingClass ≠ [] ∧ n.enclosingClass = c := by
  unfold constructs
  by_cases hkind : edge.kind = .constructorCall
  · rw [if_pos hkind, Option.bind_eq_some_iff]
    simp only [hkind, true_and]
    refine exists_congr fun n => and_congr_right fun _ => ?_
    by_cases hclass : n.enclosingClass = [] <;> simp [hclass]
  · rw [if_neg hkind]
    simp [hkind]

/-- There are no more names than interned strings and no more classes than nodes. -/
theorem gates_bounded (g : CallGraph) (entryPoints : List Str) :
    GatedSearch.Closed (gates g) (startUsrs g entryPoints) {x | x ∈ [] :: g.interner.strings}
      {c | c ∈ g.allNodes.map (·.enclosingClass)} where
  started _ := start_mem_strings
  yielded _ _ edge _ c hc := by
    obtain ⟨-, n, hn, -, rfl⟩ := constructs_eq_some.mp hc
    obtain ⟨hmem, -⟩ := findNode_smallest hn
    obtain ⟨i, -, hi⟩ := List.mem_filterMap.mp hmem
    exact List.mem_map_of_mem
      (List.mem_map.mpr ⟨⟨i, n⟩, (UMap.mem_entries g.nodes i n).mpr hi, rfl⟩)
  taken _ _ _ hedge _ := callee_mem_strings hedge

theorem walk_least (hdispatch : DispatchesKnown g) (entryPoints : List Str) :
    ∃ C : List Str,
      GatedSearch.Closed (gates g) (startUsrs g entryPoints) {x | x ∈ bfs g entryPoints true}
        {c | c ∈ C} ∧
      ∀ A C', GatedSearch.Closed (gates g) (startUsrs g entryPoints) A C' →
        (∀ x ∈ bfs g entryPoints true, x ∈ A) ∧ ∀ c ∈ C, c ∈ C' := by
  have hturns : ([] :: g.interner.strings).length < g.interner.size + 2 := by
    simp [StringInterner.size]
  have hfuel : (g.allNodes.map (·.enclosingClass)).length < g.nodeCount + 2 := by
    simp [allNodes, nodeCount]
  have hleast := GatedSearch.mem_rounds (gates_bounded g entryPoints) hturns hfuel
  dsimp only at hleast
  rw [← gated_seeded, ← gated_rounds hdispatch] at hleast
  exact ⟨_, hleast⟩

/-- **The pessimistic walk finds nothing that the optimistic one does not.** -/
theorem pessimistic_sub_optimistic (hdispatch : DispatchesKnown g) (entryPoints : List Str) :
    ∀ usr ∈ bfs g entryPoints false, usr ∈ bfs g entryPoints true := by
  intro usr husr
  obtain ⟨C, hclosed, -⟩ := walk_least hdispatch entryPoints
  obtain ⟨start, hstart, hreach⟩ := (mem_bfs g entryPoints usr).mp husr
  induction hreach with
  | refl => exact hclosed.started _ hstart
  | tail hreach hstep ih =>
      obtain ⟨edge, hedge, rfl⟩ := List.mem_map.mp hstep
      obtain ⟨hedge, hproven⟩ := List.mem_filter.mp hedge
      have halive := ih ((mem_bfs g entryPoints _).mpr ⟨start, hstart, hreach⟩)
      refine hclosed.taken _ halive edge hedge fun hgated => ?_
      simp only [gates, Bool.and_eq_true, decide_eq_true_eq] at hgated hproven
      exact absurd hproven hgated.1

/-! ### By usr

The walk asks the graph by usr. Where each usr stands for its own function
alone, its answers are the edges of that function.
-/

section Usr

variable (hwf : WF g)
include hwf

/-- What a name calls, before any of it is said by usr. -/
theorem mem_calleesOf_shown (name : Str) (edge : CallGraphEdge) :
    edge ∈ g.calleesOf name ↔ ∃ u, g.spec.Resolves name u ∧
      ∃ b ∈ g.calleeRefsOf (g.interner.idOf u), g.materialize b = edge := by
  unfold calleesOf
  simp only [List.mem_flatMap, List.mem_map]
  refine hwf.exists_resolved name (P := fun i => ∃ b ∈ g.calleeRefsOf i, g.materialize b = edge) ?_
  rintro u ⟨b, hb, -⟩
  obtain ⟨k, hk, -⟩ := hwf.callees_of_shown hb
  obtain ⟨hint, rfl⟩ := hwf.interned_of_callees hk
  exact hint.1

theorem callees_of_edge {name : Str} {edge : CallGraphEdge} (hedge : edge ∈ g.calleesOf name) :
    ∃ u k, g.spec.Resolves name u ∧ g.spec.Callees u k ∧ edge = g.spec.edge k := by
  obtain ⟨u, hu, b, hb, rfl⟩ := (mem_calleesOf_shown hwf name edge).mp hedge
  obtain ⟨k, hk, rfl⟩ := hwf.callees_of_shown hb
  exact ⟨u, k, hu, hk, materialize_map (hwf.interned_of_callees hk).1⟩

theorem edge_of_callees {usr : Str} (hown : g.spec.Own usr) {k : EdgeKey Str}
    (hk : g.spec.Callees usr k) :
    ∃ k', g.spec.SameRow k' k ∧ g.spec.edge k' ∈ g.calleesOf usr := by
  obtain ⟨k', hrow, hshown⟩ := hwf.shown_of_callees hk
  have hk' := hrow.callees hk (hwf.interned_of_callees hk).2
  exact ⟨k', hrow, (mem_calleesOf_shown hwf usr _).mpr ⟨usr, hown.resolves_iff.mpr rfl,
    _, hshown, materialize_map (hwf.interned_of_callees hk').1⟩⟩

theorem findNode_own {usr : Str} (hown : g.spec.Own usr) : g.findNode usr = g.spec.node usr := by
  have hmem : ∀ n, n ∈ (g.resolveUsrIds usr).filterMap g.nodes.lookup ↔ g.spec.node usr = some n := by
    intro n
    rw [hwf.mem_candidates]
    constructor
    · rintro ⟨u, hu, hn⟩
      rwa [hown.resolves_iff.mp hu] at hn
    · exact fun hn => ⟨usr, hown.resolves_iff.mpr rfl, hn⟩
  cases hfind : g.findNode usr with
  | some n => exact ((hmem n).mp (findNode_smallest hfind).1).symm
  | none =>
      have hnone := (findNode_eq_none g usr).mp hfind
      refine (Option.eq_none_iff_forall_ne_some.mpr fun n hn => ?_).symm
      have hin := (hmem n).mpr hn
      rw [hnone] at hin
      exact absurd hin List.not_mem_nil

theorem mem_classesOf_own {usr : Str} (hown : g.spec.Own usr) {C : Set Str} :
    (∃ c ∈ classesOf g usr, c ∈ C) ↔ g.spec.HasClass C usr := by
  have himpl : ∀ c, c ∈ g.getClassesForImpl usr ↔ g.spec.related .effectiveImpl usr c := by
    intro c
    rw [hwf.mem_getClassesForImpl]
    constructor
    · rintro ⟨u, hu, y, hy, rfl⟩
      rwa [hown.resolves_iff.mp hu] at hy
    · exact fun hc => ⟨usr, hown.resolves_iff.mpr rfl, c, hc, rfl⟩
  unfold classesOf GraphSpec.HasClass
  rw [findNode_own hwf hown]
  simp only [List.mem_append, himpl, or_and_right, exists_or]
  refine or_congr_right ?_
  cases g.spec.node usr with
  | none => simp
  | some n => by_cases hclass : n.enclosingClass = [] <;> simp [hclass]

end Usr

/-! ### The least fixpoint -/

section Rules

variable (hwf : WF g) (hbuilt : g.spec.Built)
include hwf hbuilt

theorem dispatchesKnown_of_built : DispatchesKnown g := by
  intro name edge hedge hkind
  obtain ⟨u, k, -, hk, rfl⟩ := callees_of_edge hwf hedge
  rcases hk with ⟨hlive, -, -⟩ | ⟨e, t, he, -, rfl, -⟩ | ⟨e, t, -, -, rfl, -⟩
  · exact hbuilt.dispatch k hlive hkind
  · exact Or.inr he.2.2.1
  · exact absurd hkind (GraphSpec.returnKind_follows _).2

omit hwf hbuilt in
theorem gated_edge {k : EdgeKey Str} :
    (gates g).gated (g.spec.edge k) = true ↔ k.kind = .virtualDispatch ∧ k.confidence ≠ .Proven := by
  simp only [gates, GraphSpec.edge, Bool.and_eq_true, decide_eq_true_eq, ne_eq]
  exact and_comm

theorem rules_of_closed {starts : List Str} {A C : Set Str} (hown : ∀ usr ∈ A, g.spec.Own usr)
    (h : GatedSearch.Closed (gates g) starts A C) :
    g.spec.LiveRules {usr | usr ∈ starts} A C where
  started := h.started
  constructed usr husr k hk hkind n hn hclass := by
    obtain ⟨k', hrow, hedge⟩ := edge_of_callees hwf (hown usr husr) hk
    obtain ⟨hcallee, hctor, -⟩ := hrow.alike
    refine h.yielded usr husr _ hedge _ (constructs_eq_some.mpr ⟨hctor.mpr hkind, n, ?_, hclass, rfl⟩)
    change g.findNode k'.callee = some n
    rw [hcallee, findNode_own hwf (hbuilt.own hk)]
    exact hn
  called usr husr k hk hopen := by
    obtain ⟨k', hrow, hedge⟩ := edge_of_callees hwf (hown usr husr) hk
    obtain ⟨hcallee, -, hdispatch⟩ := hrow.alike
    rw [← hcallee] at hopen ⊢
    refine h.taken usr husr _ hedge fun hgated => ?_
    obtain ⟨hkind, hproven⟩ := gated_edge.mp hgated
    have hconf := (dispatchesKnown_of_built hwf hbuilt usr _ hedge hkind).resolve_left hproven
    obtain ⟨hkind', hconf'⟩ := hdispatch.mp ⟨hkind, hconf⟩
    refine (mem_classesOf_own hwf ?_).mpr (hopen hkind' hconf')
    change g.spec.Own k'.callee
    rw [hcallee]
    exact hbuilt.own hk

theorem closed_of_rules {starts : List Str} {A C : Set Str}
    (hstarts : ∀ usr ∈ starts, g.spec.Own usr) (h : g.spec.LiveRules {usr | usr ∈ starts} A C) :
    GatedSearch.Closed (gates g) starts {usr | usr ∈ A ∧ g.spec.Own usr} C := by
  have hcallees : ∀ usr, g.spec.Own usr → ∀ edge ∈ g.calleesOf usr,
      ∃ k, g.spec.Callees usr k ∧ edge = g.spec.edge k := by
    intro usr hown edge hedge
    obtain ⟨u, k, hu, hk, rfl⟩ := callees_of_edge hwf hedge
    obtain rfl := hown.resolves_iff.mp hu
    exact ⟨k, hk, rfl⟩
  refine ⟨fun usr husr => ⟨h.started usr husr, hstarts usr husr⟩, ?_, ?_⟩
  · rintro usr ⟨husr, hown⟩ edge hedge c hc
    obtain ⟨k, hk, rfl⟩ := hcallees usr hown edge hedge
    obtain ⟨hkind, n, hn, hclass, rfl⟩ := constructs_eq_some.mp hc
    change g.findNode k.callee = some n at hn
    rw [findNode_own hwf (hbuilt.own hk)] at hn
    exact h.constructed usr husr k hk hkind n hn hclass
  · rintro usr ⟨husr, hown⟩ edge hedge hopen
    obtain ⟨k, hk, rfl⟩ := hcallees usr hown edge hedge
    refine ⟨h.called usr husr k hk fun hkind hconf => ?_, hbuilt.own hk⟩
    refine (mem_classesOf_own hwf (hbuilt.own hk)).mp (hopen (gated_edge.mpr ⟨hkind, ?_⟩))
    rw [hconf]
    simp

omit hbuilt in
theorem own_of_start {names : List Str} {usr : Str} (h : usr ∈ startUsrs g names) :
    g.spec.Own usr := by
  obtain ⟨name, -, hname⟩ := List.mem_flatMap.mp h
  obtain ⟨i, hi, rfl⟩ := List.mem_map.mp hname
  by_cases hin : name ∈ g.interner.strings
  · obtain ⟨u, hu, rfl⟩ := (hwf.mem_resolveUsrIds hin i).mp hi
    have hinterned : u ∈ g.interner.strings := by
      rcases hu with ⟨-, rfl⟩ | ⟨-, n, hn, -⟩ | ⟨-, -, rfl⟩
      · exact hin
      · exact (hwf.node_usr hn).2.1
      · exact hin
    rw [resolve_idOf hinterned]
    exact hu.own
  · rw [resolveUsrIds_unknown hin] at hi
    exact absurd hi List.not_mem_nil

/-- The walk computes the least sets that keep the rules. -/
theorem least_of_built (names : List Str) :
    ∃ C : Set Str,
      g.spec.LiveRules {usr | usr ∈ startUsrs g names} {usr | usr ∈ bfs g names true} C ∧
      ∀ A C', g.spec.LiveRules {usr | usr ∈ startUsrs g names} A C' →
        (∀ usr ∈ bfs g names true, usr ∈ A) ∧ C ⊆ C' := by
  obtain ⟨C, hclosed, hleast⟩ := walk_least (dispatchesKnown_of_built hwf hbuilt) names
  have hstarts : ∀ usr ∈ startUsrs g names, g.spec.Own usr := fun _ => own_of_start hwf
  have hmin : ∀ A C', g.spec.LiveRules {usr | usr ∈ startUsrs g names} A C' →
      (∀ usr ∈ bfs g names true, usr ∈ A ∧ g.spec.Own usr) ∧ ∀ c ∈ C, c ∈ C' :=
    fun A C' hrules => hleast _ C' (closed_of_rules hwf hbuilt hstarts hrules)
  have hall : g.spec.LiveRules {usr | usr ∈ startUsrs g names} Set.univ Set.univ :=
    ⟨fun _ _ => trivial, fun _ _ _ _ _ _ _ _ => trivial, fun _ _ _ _ _ => trivial⟩
  have hown : ∀ usr ∈ bfs g names true, g.spec.Own usr :=
    fun usr husr => ((hmin _ _ hall).1 usr husr).2
  refine ⟨{c | c ∈ C}, rules_of_closed hwf hbuilt hown hclosed, fun A C' hrules => ?_⟩
  obtain ⟨hmet, hclasses⟩ := hmin A C' hrules
  exact ⟨fun usr husr => (hmet usr husr).1, hclasses⟩

end Rules

theorem mem_publicApiSet {publicApi : List Str} {name : Str} :
    name ∈ publicApiSet publicApi ↔ name ∈ publicApi := by
  unfold publicApiSet
  rw [List.mem_mergeSort, Dedup.mem_foldl_pushUnique]
  simp

/-- What the entry points and the public API stand for. -/
def liveStarts (g : CallGraph) (entryPoints publicApi : List Str) : Set Str :=
  {usr | ∃ name, (name ∈ entryPoints ∨ name ∈ publicApi) ∧ usr ∈ g.usrsForName name}

theorem mem_liveStarts {entryPoints publicApi : List Str} {usr : Str} :
    usr ∈ startUsrs g (seedNames entryPoints publicApi) ↔ usr ∈ liveStarts g entryPoints publicApi := by
  unfold startUsrs seedNames liveStarts
  rw [List.mem_flatMap, Set.mem_ofPred_eq]
  simp only [List.mem_append, mem_publicApiSet]

end DeadCodeAnalyzer

open DeadCodeAnalyzer CallGraph StringInterner

/-- **The optimistic walk finds the least sets that keep the rules of liveness, at least what the
pessimistic one finds, and the same in every graph with the same content, in whatever order that
was stored.** -/
theorem Script.optimistic_least (s : Script) (hbuilt : s.graph.spec.Built)
    (entryPoints publicApi : List Str) :
    let starts := liveStarts s.graph entryPoints publicApi
    let alive := analyzeOptimistic s.graph entryPoints publicApi
    (∃ C : Set Str, s.graph.spec.LiveRules starts {usr | usr ∈ alive} C ∧
      ∀ A C', s.graph.spec.LiveRules starts A C' → (∀ usr ∈ alive, usr ∈ A) ∧ C ⊆ C') ∧
    (∀ usr ∈ analyzePessimistic s.graph entryPoints publicApi, usr ∈ alive) ∧
    ∀ (s' : Script) (entryPoints' publicApi' : List Str), s'.graph.spec = s.graph.spec →
      liveStarts s'.graph entryPoints' publicApi' = starts →
      ∀ usr, usr ∈ analyzeOptimistic s'.graph entryPoints' publicApi' ↔ usr ∈ alive := by
  have hstarts : ∀ (g : CallGraph) (eps api : List Str),
      {usr | usr ∈ startUsrs g (seedNames eps api)} = liveStarts g eps api := by
    intro g eps api
    exact Set.ext fun usr => mem_liveStarts
  have hleast := least_of_built s.wf hbuilt (seedNames entryPoints publicApi)
  rw [hstarts] at hleast
  refine ⟨hleast, pessimistic_sub_optimistic (dispatchesKnown_of_built s.wf hbuilt) _, ?_⟩
  intro s' entryPoints' publicApi' hspec hsame usr
  have hleast' := least_of_built s'.wf (hspec ▸ hbuilt) (seedNames entryPoints' publicApi')
  rw [hstarts, hsame, hspec] at hleast'
  obtain ⟨C, hrules, hmin⟩ := hleast
  obtain ⟨C', hrules', hmin'⟩ := hleast'
  exact ⟨(hmin' _ _ hrules).1 usr, (hmin _ _ hrules').1 usr⟩

/-- A graph whose stored dispatches are proven or plausible and whose calls end in nodes. -/
theorem CallGraph.WF.built {g : CallGraph} (hwf : WF g)
    (hdispatch : ∀ e ∈ g.edges, e.kind = .virtualDispatch →
      e.confidence = .Proven ∨ e.confidence = .Plausible)
    (hnodes : ∀ i < g.interner.strings.length, ∀ b ∈ g.calleeRefsOf i,
      (g.nodes.lookup b.callee).isSome = true) : g.spec.Built where
  dispatch k hlive hkind := by
    obtain ⟨i, e, he, hkey, -⟩ :=
      (hwf.exists_liveAt _).mpr ⟨k, hlive, hwf.interned_of_live hlive, rfl⟩
    have hk : e.kind = k.kind := congrArg EdgeKey.kind hkey
    have hc : e.confidence = k.confidence := congrArg EdgeKey.confidence hkey
    rw [← hc]
    exact hdispatch e (List.mem_of_getElem? he) (hk.trans hkind)
  ends usr k hk hnone := by
    obtain ⟨hinterned, rfl⟩ := hwf.interned_of_callees hk
    obtain ⟨k', hrow, hshown⟩ := hwf.shown_of_callees hk
    have hsome := hnodes _ (idOf_lt.mpr hinterned.1) _ hshown
    have hcallee : (k'.map g.interner.idOf).callee = g.interner.idOf k.callee :=
      congrArg g.interner.idOf hrow.alike.1
    rw [hcallee] at hsome
    change g.nodes.lookup (g.interner.idOf k.callee) = none at hnone
    rw [hnone] at hsome
    cases hsome

/-- `main` constructs a `Dog` and calls `speak` on some animal. -/
def oneDog : Script :=
  let node (usr cls : String) : GraphOp :=
    .call (.node { qualifiedName := str usr, usr := str usr, enclosingClass := str cls } (str "a.cpp"))
  let call (callee : String) (kind : EdgeKind) (confidence : Confidence) (site : String) : GraphOp :=
    .call (.edge { callerName := str "main", calleeName := str callee, kind := kind
                   confidence := confidence, callSite := str site } (str "a.cpp"))
  [node "main" "", node "Dog::Dog" "Dog", node "Dog::speak" "Dog", node "Cat::speak" "Cat",
    call "Dog::Dog" .constructorCall .Proven "a.cpp:9:7",
    call "Dog::speak" .virtualDispatch .Plausible "a.cpp:10:3",
    call "Cat::speak" .virtualDispatch .Plausible "a.cpp:10:3"].foldl Script.op .empty

theorem oneDog_built : oneDog.graph.spec.Built :=
  oneDog.wf.built (by decide +kernel) (by decide +kernel)

/-- The dog's way of speaking is alive in it and the cat's is not, the least answer. -/
theorem oneDog_optimistic :
    let alive := analyzeOptimistic oneDog.graph [str "main"] []
    str "Dog::speak" ∈ alive ∧ str "Cat::speak" ∉ alive ∧
    let starts := liveStarts oneDog.graph [str "main"] []
    (∃ C : Set Str, oneDog.graph.spec.LiveRules starts {usr | usr ∈ alive} C ∧
      ∀ A C', oneDog.graph.spec.LiveRules starts A C' → (∀ usr ∈ alive, usr ∈ A) ∧ C ⊆ C') ∧
    (∀ usr ∈ analyzePessimistic oneDog.graph [str "main"] [], usr ∈ alive) ∧
    ∀ (s' : Script) (entryPoints' publicApi' : List Str), s'.graph.spec = oneDog.graph.spec →
      liveStarts s'.graph entryPoints' publicApi' = starts →
      ∀ usr, usr ∈ analyzeOptimistic s'.graph entryPoints' publicApi' ↔ usr ∈ alive := by
  have halive : analyzeOptimistic oneDog.graph [str "main"] [] = bfs oneDog.graph [str "main"] true := by
    simp [analyzeOptimistic, seedNames, publicApiSet]
  refine ⟨?_, ?_, oneDog.optimistic_least oneDog_built [str "main"] []⟩ <;> rw [halive] <;>
    decide +kernel

end Vycor
