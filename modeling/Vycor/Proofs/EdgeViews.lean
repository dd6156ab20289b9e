/-
Where callers and callees show different edges.

Both views show the stored edges, function returns aside, and both expand dispatches and
returns.  They part where something is stored at the expanded call site: the callees of a
caller give way only to a stored virtual dispatch, the callers of a callee to any stored
edge.  And of several rows that expand to one target, each view shows the first it meets,
which the two need not meet in the same order.

`OneViewAt` says when nothing of that matters at a call site.  Ids, positions and the
order of the lists are part of it, so everything here is in id space.
-/
import Vycor.Proofs.Queries

namespace Vycor

namespace CallGraph

open Dedup

variable {g : CallGraph}

/-- The edges into a function, whatever else bears its usr as a name. -/
def callersOfUsr (g : CallGraph) (usr : Str) : List CallGraphEdge :=
  (g.callerRefsOf (g.interner.idOf usr)).map g.materialize

/-! ### What stands at a call site -/

/-- A live edge from `u` to `v` at a call site. -/
def StoredAt (g : CallGraph) (u v site : SId) (e : StoredEdge) : Prop :=
  e ∈ g.edges ∧ 0 < e.refs ∧ e.caller = u ∧ e.callee = v ∧ e.callSite = site

/-- A dispatch that names `v` itself. -/
def NamedAt (g : CallGraph) (u v site : SId) : Prop :=
  ∃ e, g.StoredAt u v site e ∧ e.kind = .virtualDispatch

/-- An edge that is shown as it is stored. -/
def ShownAt (g : CallGraph) (u v site : SId) : Prop :=
  ∃ e, g.StoredAt u v site e ∧ e.kind ≠ .functionPointerReturn

theorem NamedAt.shown {u v site : SId} (h : g.NamedAt u v site) : g.ShownAt u v site := by
  obtain ⟨e, he, hkind⟩ := h
  exact ⟨e, he, by rw [hkind]; simp⟩

/-- A plausible dispatch at the site is expanded to `v`. -/
def Expands (g : CallGraph) (v site : SId) (e : StoredEdge) : Prop :=
  isDispatch e ∧ e.callSite = site ∧ v ∈ transitiveClosure e.callee g.methodOverrides

/-- A function return at the site is joined to `v`. -/
def Joins (g : CallGraph) (v site : SId) (e : StoredEdge) : Prop :=
  e.kind = .functionPointerReturn ∧ e.callSite = site ∧ v ∈ g.functionReturns.getD e.callee []

instance (g : CallGraph) (v site : SId) : DecidablePred (g.Expands v site) :=
  fun _ => inferInstanceAs (Decidable (_ ∧ _ ∧ _))

instance (g : CallGraph) (v site : SId) : DecidablePred (g.Joins v site) :=
  fun _ => inferInstanceAs (Decidable (_ ∧ _ ∧ _))

/-- The dispatch out of `u` that was stored first of those expanded to `v`. -/
def earliestDispatch (g : CallGraph) (u v site : SId) : Option StoredEdge :=
  (g.liveFrom u).find? fun e => g.Expands v site e

/-- The return out of `u` that was stored first of those joined to `v`. -/
def earliestReturn (g : CallGraph) (u v site : SId) : Option StoredEdge :=
  (g.liveFrom u).find? fun e => g.Joins v site e

/-- The dispatch by `u` that is met first when `v`'s bases are searched. -/
def nearestDispatch (g : CallGraph) (u v site : SId) : Option StoredEdge :=
  (transitiveClosure v g.overrideBases).findSome? fun base =>
    (g.liveInto base).find? fun e => isDispatch e ∧ e.caller = u ∧ e.callSite = site

/-- The return by `u` that is met first when those that return `v` are searched. -/
def nearestReturn (g : CallGraph) (u v site : SId) : Option StoredEdge :=
  (g.returnedBy.getD v []).findSome? fun returner =>
    (g.liveInto returner).find? fun e =>
      e.kind = .functionPointerReturn ∧ e.caller = u ∧ e.callSite = site

/-- What an expansion keeps of the row it comes from. -/
def looks (e : StoredEdge) : Confidence × ExecutionContext × UInt32 :=
  (e.confidence, e.execContext, e.indirectionDepth)

/-- The expansion of a return row onto `v`. -/
def joined (v : SId) (e : StoredEdge) : EdgeRef :=
  { e.toEdgeKey with callee := v, kind := returnKind e.execContext }

/-- The row of a dispatch expanded to `v`. -/
def dispatched (v : SId) (e : StoredEdge) : EdgeRef := { e.toEdgeKey with callee := v }

/-- Both views show the same edges from `u` to `v` at a call site: a dispatch to `v` is
stored there; or an edge is, no dispatch expands to `v`, and the return row that does comes
out as a stored edge; or none is, and the rows the two views meet first look the same. -/
def OneViewAt (g : CallGraph) (u v site : SId) : Prop :=
  g.NamedAt u v site ∨
  (g.ShownAt u v site ∧ g.earliestDispatch u v site = none ∧
    ∀ e, g.earliestReturn u v site = some e →
      ∃ d, g.StoredAt u v site d ∧ d.toEdgeKey = joined v e) ∨
  (¬ g.ShownAt u v site ∧
    (g.earliestDispatch u v site).map looks = (g.nearestDispatch u v site).map looks ∧
    (g.earliestDispatch u v site = none →
      (g.earliestReturn u v site).map looks = (g.nearestReturn u v site).map looks))

/-! ### Adjacency -/

theorem WF.mem_liveFrom (hwf : WF g) (u : SId) (e : StoredEdge) :
    e ∈ g.liveFrom u ↔ e ∈ g.edges ∧ 0 < e.refs ∧ e.caller = u :=
  mem_liveAt hwf.edges.out u e

theorem WF.mem_liveInto (hwf : WF g) (v : SId) (e : StoredEdge) :
    e ∈ g.liveInto v ↔ e ∈ g.edges ∧ 0 < e.refs ∧ e.callee = v :=
  mem_liveAt hwf.edges.inn v e

/-- Callers have ids of their own. -/
theorem WF.caller_lt (hwf : g.WF) {v : SId} {b : EdgeRef} (h : b ∈ g.callerRefsOf v) :
    b.caller < g.interner.size := by
  have hlive : ∀ e ∈ g.edges, 0 < e.refs → e.caller < g.interner.size := by
    intro e he hrefs
    obtain ⟨i, hi⟩ := List.mem_iff_getElem?.mp he
    exact (hwf.ids.edge i e.toEdgeKey ⟨e, hi, rfl, hrefs⟩).1
  unfold callerRefsOf at h
  rw [Dedup.mem_emitAll_emitAll_first] at h
  rcases h with h | ⟨k, -, h⟩
  · simp only [List.mem_map, List.mem_filter] at h
    obtain ⟨e, ⟨he, -⟩, rfl⟩ := h
    obtain ⟨hmem, hrefs, -⟩ := (hwf.mem_liveInto v e).mp he
    exact hlive e hmem hrefs
  · rcases Option.or_eq_some_iff.mp h with h | ⟨-, h⟩
    · obtain ⟨base, -, hin⟩ := List.mem_flatMap.mp (Dedup.mem_of_firstOf h)
      obtain ⟨e, he, heq⟩ := List.mem_map.mp hin
      obtain ⟨hmem, hrefs, -⟩ := (hwf.mem_liveInto base e).mp (List.mem_of_mem_filter he)
      rw [← (Prod.mk.inj heq).2]
      exact hlive e hmem hrefs
    · obtain ⟨returner, -, hin⟩ := List.mem_flatMap.mp (Dedup.mem_of_firstOf h)
      obtain ⟨e, he, heq⟩ := List.mem_map.mp hin
      obtain ⟨hmem, hrefs, -⟩ := (hwf.mem_liveInto returner e).mp (List.mem_of_mem_filter he)
      rw [← (Prod.mk.inj heq).2]
      exact hlive e hmem hrefs

/-- A base's overrides and an override's bases are one relation. -/
theorem WF.override_iff_base (hwf : WF g) (base v : SId) :
    v ∈ transitiveClosure base g.methodOverrides ↔ base ∈ transitiveClosure v g.overrideBases := by
  have hswap : (fun a b => b ∈ g.overrideBases.getD a [])
      = Function.swap fun a b => b ∈ g.methodOverrides.getD a [] := by
    funext a b
    exact propext ((hwf.overrideBases a).2 b)
  rw [transitiveClosure_spec, transitiveClosure_spec, hswap, Relation.reflTransGen_swap]
  exact and_congr_left fun _ => ne_comm

/-! ### The first row each view meets

Several rows of one site may expand onto the same target. Each view shows the
row it meets first, and the two meet them in different orders.
-/

/-- The first of the rows that are expanded at their sites. -/
theorem firstOf_expanded (rows : List StoredEdge) (targets : StoredEdge → List SId)
    (row : SId → StoredEdge → EdgeRef) (v site : SId) :
    firstOf (rows.flatMap fun e => (targets e).map fun t => ((t, e.callSite), row t e)) (v, site)
      = (rows.find? fun e => e.callSite = site ∧ v ∈ targets e).map (row v) := by
  have hrow : ∀ e : StoredEdge,
      firstOf ((targets e).map fun t => ((t, e.callSite), row t e)) (v, site)
        = if e.callSite = site ∧ v ∈ targets e then some (row v e) else none := by
    intro e
    apply firstOf_eq_ite
    intro b
    simp only [List.mem_map, Prod.mk.injEq]
    constructor
    · rintro ⟨t, ht, ⟨rfl, rfl⟩, rfl⟩
      exact ⟨⟨rfl, ht⟩, rfl⟩
    · rintro ⟨⟨rfl, hv⟩, rfl⟩
      exact ⟨v, hv, ⟨rfl, rfl⟩, rfl⟩
  rw [firstOf_flatMap]
  simp only [hrow]
  rw [findSome?_if]

theorem firstOf_dispatchedFrom (g : CallGraph) (u v site : SId) :
    firstOf (g.dispatchedFrom u) (v, site) = (g.earliestDispatch u v site).map (dispatched v) := by
  unfold dispatchedFrom earliestDispatch
  refine (firstOf_expanded _ _ dispatched v site).trans ?_
  rw [List.find?_filter]
  congr 2
  funext e
  rw [Bool.eq_iff_iff]
  simp only [decide_eq_true_eq]
  exact Iff.rfl

theorem firstOf_returnedFrom (g : CallGraph) (u v site : SId) :
    firstOf (g.returnedFrom u) (v, site) = (g.earliestReturn u v site).map (joined v) := by
  unfold returnedFrom earliestReturn
  refine (firstOf_expanded _ _ joined v site).trans ?_
  rw [List.find?_filter]
  congr 2
  funext e
  rw [Bool.eq_iff_iff]
  simp only [decide_eq_true_eq]
  exact Iff.rfl

theorem firstOf_dispatchedTo (g : CallGraph) (u v site : SId) :
    firstOf (g.dispatchedTo v) (u, site) = (g.nearestDispatch u v site).map (dispatched v) := by
  unfold dispatchedTo nearestDispatch
  rw [firstOf_flatMap, List.map_findSome?]
  congr 1
  funext base
  rw [firstOf_map, List.find?_filter]
  simp only [Prod.mk.injEq, decide_eq_true_eq]
  rfl

theorem firstOf_returnedTo (g : CallGraph) (u v site : SId) :
    firstOf (g.returnedTo v) (u, site) = (g.nearestReturn u v site).map (joined v) := by
  unfold returnedTo nearestReturn
  rw [firstOf_flatMap, List.map_findSome?]
  congr 1
  funext returner
  rw [firstOf_map, List.find?_filter]
  simp only [Prod.mk.injEq, decide_eq_true_eq]
  rfl

/-- A live dispatch of `u` at the site is expanded to `v`. -/
def DispatchesAt (g : CallGraph) (u v site : SId) (e : StoredEdge) : Prop :=
  e ∈ g.edges ∧ 0 < e.refs ∧ e.caller = u ∧ g.Expands v site e

/-- A live return of `u` at the site is joined to `v`. -/
def JoinsAt (g : CallGraph) (u v site : SId) (e : StoredEdge) : Prop :=
  e ∈ g.edges ∧ 0 < e.refs ∧ e.caller = u ∧ g.Joins v site e

section Rows

variable {u v site : SId} {e : StoredEdge}

theorem WF.earliestDispatch_some (hwf : WF g) (h : g.earliestDispatch u v site = some e) :
    g.DispatchesAt u v site e := by
  obtain ⟨hmem, hpos, hcaller⟩ := (hwf.mem_liveFrom u e).mp (List.mem_of_find?_eq_some h)
  exact ⟨hmem, hpos, hcaller, by simpa using List.find?_some h⟩

theorem WF.earliestReturn_some (hwf : WF g) (h : g.earliestReturn u v site = some e) :
    g.JoinsAt u v site e := by
  obtain ⟨hmem, hpos, hcaller⟩ := (hwf.mem_liveFrom u e).mp (List.mem_of_find?_eq_some h)
  exact ⟨hmem, hpos, hcaller, by simpa using List.find?_some h⟩

theorem WF.nearestDispatch_some (hwf : WF g) (h : g.nearestDispatch u v site = some e) :
    g.DispatchesAt u v site e := by
  obtain ⟨base, hbase, hfind⟩ := List.exists_of_findSome?_eq_some h
  obtain ⟨hmem, hpos, hcallee⟩ := (hwf.mem_liveInto base e).mp (List.mem_of_find?_eq_some hfind)
  obtain ⟨hdispatch, hcaller, hsite⟩ : isDispatch e ∧ e.caller = u ∧ e.callSite = site := by
    simpa using List.find?_some hfind
  refine ⟨hmem, hpos, hcaller, hdispatch, hsite, ?_⟩
  rw [hwf.override_iff_base, hcallee]
  exact hbase

theorem WF.nearestReturn_some (hwf : WF g) (h : g.nearestReturn u v site = some e) :
    g.JoinsAt u v site e := by
  obtain ⟨returner, hreturner, hfind⟩ := List.exists_of_findSome?_eq_some h
  obtain ⟨hmem, hpos, hcallee⟩ :=
    (hwf.mem_liveInto returner e).mp (List.mem_of_find?_eq_some hfind)
  obtain ⟨hkind, hcaller, hsite⟩ :
      e.kind = .functionPointerReturn ∧ e.caller = u ∧ e.callSite = site := by
    simpa using List.find?_some hfind
  refine ⟨hmem, hpos, hcaller, hkind, hsite, ?_⟩
  rw [hcallee]
  exact ((hwf.returnedBy v).2 returner).mp hreturner

theorem WF.earliestDispatch_none (hwf : WF g) :
    g.earliestDispatch u v site = none ↔ ∀ e, ¬ g.DispatchesAt u v site e := by
  constructor
  · rintro h e ⟨hmem, hpos, hcaller, hexpands⟩
    have hnot := List.find?_eq_none.mp h e ((hwf.mem_liveFrom u e).mpr ⟨hmem, hpos, hcaller⟩)
    exact hnot (by simpa using hexpands)
  · intro h
    cases hfind : g.earliestDispatch u v site with
    | none => rfl
    | some e => exact absurd (hwf.earliestDispatch_some hfind) (h e)

theorem WF.earliestReturn_none (hwf : WF g) :
    g.earliestReturn u v site = none ↔ ∀ e, ¬ g.JoinsAt u v site e := by
  constructor
  · rintro h e ⟨hmem, hpos, hcaller, hjoins⟩
    have hnot := List.find?_eq_none.mp h e ((hwf.mem_liveFrom u e).mpr ⟨hmem, hpos, hcaller⟩)
    exact hnot (by simpa using hjoins)
  · intro h
    cases hfind : g.earliestReturn u v site with
    | none => rfl
    | some e => exact absurd (hwf.earliestReturn_some hfind) (h e)

theorem WF.nearestDispatch_none (hwf : WF g) :
    g.nearestDispatch u v site = none ↔ ∀ e, ¬ g.DispatchesAt u v site e := by
  constructor
  · rintro h e ⟨hmem, hpos, hcaller, hdispatch, hsite, hreach⟩
    have hfind := List.findSome?_eq_none_iff.mp h e.callee ((hwf.override_iff_base _ _).mp hreach)
    have hnot := List.find?_eq_none.mp hfind e ((hwf.mem_liveInto _ e).mpr ⟨hmem, hpos, rfl⟩)
    exact hnot (by simp [hdispatch, hcaller, hsite])
  · intro h
    cases hfind : g.nearestDispatch u v site with
    | none => rfl
    | some e => exact absurd (hwf.nearestDispatch_some hfind) (h e)

theorem WF.nearestReturn_none (hwf : WF g) :
    g.nearestReturn u v site = none ↔ ∀ e, ¬ g.JoinsAt u v site e := by
  constructor
  · rintro h e ⟨hmem, hpos, hcaller, hkind, hsite, hreturned⟩
    have hfind := List.findSome?_eq_none_iff.mp h e.callee (((hwf.returnedBy v).2 _).mpr hreturned)
    have hnot := List.find?_eq_none.mp hfind e ((hwf.mem_liveInto _ e).mpr ⟨hmem, hpos, rfl⟩)
    exact hnot (by simp [hkind, hcaller, hsite])
  · intro h
    cases hfind : g.nearestReturn u v site with
    | none => rfl
    | some e => exact absurd (hwf.nearestReturn_some hfind) (h e)

end Rows

/-! ### The two views of a call site -/

section Site

variable {u v site : SId}

/-- What the callees of `u` add at the site. -/
def outAt (g : CallGraph) (u v site : SId) : Option EdgeRef :=
  ((g.earliestDispatch u v site).map (dispatched v)).or
    ((g.earliestReturn u v site).map (joined v))

/-- What the callers of `v` add at the site. -/
def intoAt (g : CallGraph) (u v site : SId) : Option EdgeRef :=
  ((g.nearestDispatch u v site).map (dispatched v)).or
    ((g.nearestReturn u v site).map (joined v))

theorem DispatchesAt.ends {e : StoredEdge} (h : g.DispatchesAt u v site e) :
    (dispatched v e).caller = u ∧ (dispatched v e).callee = v ∧ (dispatched v e).callSite = site :=
  ⟨h.2.2.1, rfl, h.2.2.2.2.1⟩

theorem JoinsAt.ends {e : StoredEdge} (h : g.JoinsAt u v site e) :
    (joined v e).caller = u ∧ (joined v e).callee = v ∧ (joined v e).callSite = site :=
  ⟨h.2.2.1, rfl, h.2.2.2.2.1⟩

theorem WF.outAt_ends (hwf : WF g) {b : EdgeRef} (h : g.outAt u v site = some b) :
    b.caller = u ∧ b.callee = v ∧ b.callSite = site := by
  unfold outAt at h
  cases hd : g.earliestDispatch u v site with
  | some e =>
      rw [hd] at h
      exact Option.some.inj h ▸ (hwf.earliestDispatch_some hd).ends
  | none =>
      rw [hd] at h
      obtain ⟨e, he, rfl⟩ := Option.map_eq_some_iff.mp h
      exact (hwf.earliestReturn_some he).ends

theorem WF.intoAt_ends (hwf : WF g) {b : EdgeRef} (h : g.intoAt u v site = some b) :
    b.caller = u ∧ b.callee = v ∧ b.callSite = site := by
  unfold intoAt at h
  cases hd : g.nearestDispatch u v site with
  | some e =>
      rw [hd] at h
      exact Option.some.inj h ▸ (hwf.nearestDispatch_some hd).ends
  | none =>
      rw [hd] at h
      obtain ⟨e, he, rfl⟩ := Option.map_eq_some_iff.mp h
      exact (hwf.nearestReturn_some he).ends

/-- A stored edge that is shown as it is. -/
def Stored (g : CallGraph) (b : EdgeRef) : Prop :=
  ∃ e, g.StoredAt b.caller b.callee b.callSite e ∧ e.kind ≠ .functionPointerReturn ∧
    e.toEdgeKey = b

theorem WF.mem_calleeRefsOf_site (hwf : WF g) (b : EdgeRef) :
    b ∈ g.calleeRefsOf b.caller ↔
      g.Stored b ∨ (¬ g.NamedAt b.caller b.callee b.callSite ∧
        g.outAt b.caller b.callee b.callSite = some b) := by
  have hseen : ∀ v site, (v, site) ∈ ((g.liveFrom b.caller).filter (·.kind = .virtualDispatch)).map
      (fun e => (e.callee, e.callSite)) ↔ g.NamedAt b.caller v site := by
    intro v site
    simp only [List.mem_map, List.mem_filter, hwf.mem_liveFrom, decide_eq_true_eq, Prod.mk.injEq]
    constructor
    · rintro ⟨e, ⟨⟨hmem, hpos, hcaller⟩, hkind⟩, hcallee, hsite⟩
      exact ⟨e, ⟨hmem, hpos, hcaller, hcallee, hsite⟩, hkind⟩
    · rintro ⟨e, ⟨hmem, hpos, hcaller, hcallee, hsite⟩, hkind⟩
      exact ⟨e, ⟨⟨hmem, hpos, hcaller⟩, hkind⟩, hcallee, hsite⟩
  unfold calleeRefsOf
  rw [mem_emitAll_emitAll_first]
  apply or_congr
  · simp only [List.mem_map, List.mem_filter, hwf.mem_liveFrom, decide_eq_true_eq]
    constructor
    · rintro ⟨e, ⟨⟨hmem, hpos, -⟩, hkind⟩, rfl⟩
      exact ⟨e, ⟨hmem, hpos, rfl, rfl, rfl⟩, hkind, rfl⟩
    · rintro ⟨e, ⟨hmem, hpos, hcaller, -⟩, hkind, rfl⟩
      exact ⟨e, ⟨⟨hmem, hpos, hcaller⟩, hkind⟩, rfl⟩
  · constructor
    · rintro ⟨⟨v, site⟩, hnot, hfirst⟩
      rw [hseen] at hnot
      rw [firstOf_dispatchedFrom, firstOf_returnedFrom] at hfirst
      obtain ⟨-, rfl, rfl⟩ := hwf.outAt_ends hfirst
      exact ⟨hnot, hfirst⟩
    · rintro ⟨hnot, hfirst⟩
      refine ⟨(b.callee, b.callSite), fun hc => hnot ((hseen _ _).mp hc), ?_⟩
      rw [firstOf_dispatchedFrom, firstOf_returnedFrom]
      exact hfirst

theorem WF.mem_callerRefsOf_site (hwf : WF g) (b : EdgeRef) :
    b ∈ g.callerRefsOf b.callee ↔
      g.Stored b ∨ (¬ g.ShownAt b.caller b.callee b.callSite ∧
        g.intoAt b.caller b.callee b.callSite = some b) := by
  have hseen : ∀ u site, (u, site) ∈
      ((g.liveInto b.callee).filter (·.kind ≠ .functionPointerReturn)).map
        (fun e => (e.caller, e.callSite)) ↔ g.ShownAt u b.callee site := by
    intro u site
    simp only [List.mem_map, List.mem_filter, hwf.mem_liveInto, decide_eq_true_eq, Prod.mk.injEq]
    constructor
    · rintro ⟨e, ⟨⟨hmem, hpos, hcallee⟩, hkind⟩, hcaller, hsite⟩
      exact ⟨e, ⟨hmem, hpos, hcaller, hcallee, hsite⟩, hkind⟩
    · rintro ⟨e, ⟨hmem, hpos, hcaller, hcallee, hsite⟩, hkind⟩
      exact ⟨e, ⟨⟨hmem, hpos, hcallee⟩, hkind⟩, hcaller, hsite⟩
  unfold callerRefsOf
  rw [mem_emitAll_emitAll_first]
  apply or_congr
  · simp only [List.mem_map, List.mem_filter, hwf.mem_liveInto, decide_eq_true_eq]
    constructor
    · rintro ⟨e, ⟨⟨hmem, hpos, -⟩, hkind⟩, rfl⟩
      exact ⟨e, ⟨hmem, hpos, rfl, rfl, rfl⟩, hkind, rfl⟩
    · rintro ⟨e, ⟨hmem, hpos, -, hcallee, -⟩, hkind, rfl⟩
      exact ⟨e, ⟨⟨hmem, hpos, hcallee⟩, hkind⟩, rfl⟩
  · constructor
    · rintro ⟨⟨u, site⟩, hnot, hfirst⟩
      rw [hseen] at hnot
      rw [firstOf_dispatchedTo, firstOf_returnedTo] at hfirst
      obtain ⟨rfl, -, rfl⟩ := hwf.intoAt_ends hfirst
      exact ⟨hnot, hfirst⟩
    · rintro ⟨hnot, hfirst⟩
      refine ⟨(b.caller, b.callSite), fun hc => hnot ((hseen _ _).mp hc), ?_⟩
      rw [firstOf_dispatchedTo, firstOf_returnedTo]
      exact hfirst

theorem Stored.shownAt {b : EdgeRef} (h : g.Stored b) : g.ShownAt b.caller b.callee b.callSite := by
  obtain ⟨e, he, hkind, -⟩ := h
  exact ⟨e, he, hkind⟩

theorem returnKind_ne (x : ExecutionContext) : returnKind x ≠ .functionPointerReturn := by
  unfold returnKind
  split <;> simp

/-- Expansions of one site onto one target are told apart by what they keep of their row. -/
theorem dispatched_eq_iff {d e : StoredEdge} (hd : g.DispatchesAt u v site d)
    (he : g.DispatchesAt u v site e) : dispatched v d = dispatched v e ↔ looks d = looks e := by
  obtain ⟨-, -, hdcaller, hdkind, hdsite, -⟩ := hd
  obtain ⟨-, -, hecaller, hekind, hesite, -⟩ := he
  have hkind : d.kind = e.kind :=
    ((isDispatch_iff d).mp hdkind).1.trans ((isDispatch_iff e).mp hekind).1.symm
  simp [dispatched, looks, hdcaller, hecaller, hdsite, hesite, hkind]

theorem joined_eq_iff {d e : StoredEdge} (hd : g.JoinsAt u v site d) (he : g.JoinsAt u v site e) :
    joined v d = joined v e ↔ looks d = looks e := by
  obtain ⟨-, -, hdcaller, -, hdsite, -⟩ := hd
  obtain ⟨-, -, hecaller, -, hesite, -⟩ := he
  simp only [joined, looks, EdgeKey.mk.injEq, Prod.mk.injEq, hdcaller, hecaller, hdsite, hesite,
    true_and]
  constructor
  · rintro ⟨-, hrest⟩
    exact hrest
  · intro hrest
    exact ⟨by rw [hrest.2.1], hrest⟩

/-- Where nothing is stored, the views add the same edge when the rows they meet first look
the same. -/
theorem WF.outAt_eq_intoAt_iff (hwf : WF g) :
    g.outAt u v site = g.intoAt u v site ↔
      (g.earliestDispatch u v site).map looks = (g.nearestDispatch u v site).map looks ∧
      (g.earliestDispatch u v site = none →
        (g.earliestReturn u v site).map looks = (g.nearestReturn u v site).map looks) := by
  have hboth : g.earliestDispatch u v site = none ↔ g.nearestDispatch u v site = none :=
    hwf.earliestDispatch_none.trans hwf.nearestDispatch_none.symm
  unfold outAt intoAt
  cases hd : g.earliestDispatch u v site with
  | some d =>
      cases hn : g.nearestDispatch u v site with
      | none =>
          rw [hboth.mpr hn] at hd
          exact absurd hd (by simp)
      | some e =>
          have heq := dispatched_eq_iff (hwf.earliestDispatch_some hd) (hwf.nearestDispatch_some hn)
          simpa using heq
  | none =>
      rw [hboth.mp hd]
      cases hr : g.earliestReturn u v site with
      | none =>
          cases hn : g.nearestReturn u v site with
          | none => simp
          | some e => simp
      | some d =>
          cases hn : g.nearestReturn u v site with
          | none => simp
          | some e =>
              have heq := joined_eq_iff (hwf.earliestReturn_some hr) (hwf.nearestReturn_some hn)
              simpa using heq

/-- **The views agree on the edges of a call site exactly when `OneViewAt` holds there.** -/
theorem WF.views_agree_iff (hwf : WF g) (u v site : SId) :
    (∀ b : EdgeRef, b.caller = u → b.callee = v → b.callSite = site →
        (b ∈ g.calleeRefsOf b.caller ↔ b ∈ g.callerRefsOf b.callee))
      ↔ g.OneViewAt u v site := by
  simp only [hwf.mem_calleeRefsOf_site, hwf.mem_callerRefsOf_site]
  by_cases hnamed : g.NamedAt u v site
  · refine iff_of_true ?_ (Or.inl hnamed)
    rintro b rfl rfl rfl
    simp [hnamed, hnamed.shown]
  by_cases hshown : g.ShownAt u v site
  · -- Only the callees add anything, so what they add must be stored.
    have hleft : (∀ b : EdgeRef, b.caller = u → b.callee = v → b.callSite = site →
        (g.Stored b ∨ (¬ g.NamedAt b.caller b.callee b.callSite ∧
            g.outAt b.caller b.callee b.callSite = some b) ↔
          g.Stored b ∨ (¬ g.ShownAt b.caller b.callee b.callSite ∧
            g.intoAt b.caller b.callee b.callSite = some b)))
        ↔ ∀ b, g.outAt u v site = some b → g.Stored b := by
      constructor
      · intro h b hout
        obtain ⟨rfl, rfl, rfl⟩ := hwf.outAt_ends hout
        have hb := (h b rfl rfl rfl).mp (Or.inr ⟨hnamed, hout⟩)
        exact hb.resolve_right fun hc => hc.1 hshown
      · rintro h b rfl rfl rfl
        constructor
        · rintro (hs | ⟨-, hout⟩)
          · exact Or.inl hs
          · exact Or.inl (h b hout)
        · rintro (hs | ⟨hnot, -⟩)
          · exact Or.inl hs
          · exact absurd hshown hnot
    rw [hleft]
    constructor
    · intro h
      have hnone : g.earliestDispatch u v site = none := by
        cases hd : g.earliestDispatch u v site with
        | none => rfl
        | some e =>
            obtain ⟨d, hat, -, hkey⟩ := h (dispatched v e) (by simp [outAt, hd])
            have hexp := hwf.earliestDispatch_some hd
            obtain ⟨hcaller, hcallee, hsite⟩ := hexp.ends
            rw [hcaller, hcallee, hsite] at hat
            refine absurd ⟨d, hat, ?_⟩ hnamed
            have hkind : d.kind = (dispatched v e).kind := congrArg EdgeKey.kind hkey
            exact hkind.trans ((isDispatch_iff e).mp hexp.2.2.2.1).1
      refine Or.inr (Or.inl ⟨hshown, hnone, ?_⟩)
      intro e he
      obtain ⟨d, hat, -, hkey⟩ := h (joined v e) (by simp [outAt, hnone, he])
      obtain ⟨hcaller, hcallee, hsite⟩ := (hwf.earliestReturn_some he).ends
      rw [hcaller, hcallee, hsite] at hat
      exact ⟨d, hat, hkey⟩
    · rintro (hn | ⟨-, hnone, hret⟩ | ⟨hnot, -⟩) b hout
      · exact absurd hn hnamed
      · obtain ⟨e, he, rfl⟩ : ∃ e, g.earliestReturn u v site = some e ∧ joined v e = b := by
          simpa [outAt, hnone] using hout
        obtain ⟨d, hat, hkey⟩ := hret e he
        obtain ⟨hcaller, hcallee, hsite⟩ := (hwf.earliestReturn_some he).ends
        refine ⟨d, by rw [hcaller, hcallee, hsite]; exact hat, ?_, hkey⟩
        have hkind : d.kind = returnKind e.execContext := congrArg EdgeKey.kind hkey
        rw [hkind]
        exact returnKind_ne _
      · exact absurd hshown hnot
  · -- Nothing is stored, so the views agree when they add the same.
    have hright : g.OneViewAt u v site ↔ g.outAt u v site = g.intoAt u v site := by
      rw [hwf.outAt_eq_intoAt_iff]
      simp [OneViewAt, hnamed, hshown]
    rw [hright]
    have hstored : ∀ b : EdgeRef, b.caller = u → b.callee = v → b.callSite = site →
        ¬ g.Stored b := by
      rintro b rfl rfl rfl hs
      exact hshown hs.shownAt
    constructor
    · intro h
      apply Option.ext
      intro b
      constructor
      · intro hout
        obtain ⟨rfl, rfl, rfl⟩ := hwf.outAt_ends hout
        have hb := (h b rfl rfl rfl).mp (Or.inr ⟨hnamed, hout⟩)
        exact (hb.resolve_left (hstored b rfl rfl rfl)).2
      · intro hinto
        obtain ⟨rfl, rfl, rfl⟩ := hwf.intoAt_ends hinto
        have hb := (h b rfl rfl rfl).mpr (Or.inr ⟨hshown, hinto⟩)
        exact (hb.resolve_left (hstored b rfl rfl rfl)).2
    · rintro heq b rfl rfl rfl
      simp [hnamed, hshown, heq]

end Site

end CallGraph

/-- **Callers and callees of a reachable graph show one set of edges exactly when every
caller, callee and call site satisfies `OneViewAt`.** -/
theorem Script.one_edge_set_iff (s : Script) :
    (∀ b : EdgeRef, b ∈ s.graph.calleeRefsOf b.caller ↔ b ∈ s.graph.callerRefsOf b.callee)
      ↔ ∀ u v site, s.graph.OneViewAt u v site := by
  constructor
  · intro h u v site
    exact (s.wf.views_agree_iff u v site).mp fun b _ _ _ => h b
  · intro h b
    exact (s.wf.views_agree_iff _ _ _).mpr (h b.caller b.callee b.callSite) b rfl rfl rfl

/-- One expression that calls `D::f` directly and `B::f`, which `D::f` overrides, through a
dispatch: the dispatch to `D::f` is among the callees only. -/
def directAndDispatch : Script :=
  let call (callee : Str) (kind : EdgeKind) (confidence : Confidence) : GraphOp :=
    .call (.edge { callerName := str "main", calleeName := callee, kind, confidence
                   callSite := str "a.cpp:3:5" } (str "a.cpp"))
  ((Script.empty.op (.call (.methodOverride (str "B::f") (str "D::f") (str "a.cpp")))).op
    (call (str "D::f") .directCall .Proven)).op (call (str "B::f") .virtualDispatch .Plausible)

theorem directAndDispatch_views :
    let g := directAndDispatch.graph
    let b : EdgeRef :=
      { caller := g.interner.idOf (str "main"), callee := g.interner.idOf (str "D::f")
        callSite := g.interner.idOf (str "a.cpp:3:5"), kind := .virtualDispatch
        confidence := .Plausible, execContext := .synchronous, indirectionDepth := 0 }
    b ∈ g.calleeRefsOf b.caller ∧ b ∉ g.callerRefsOf b.callee := by
  decide

end Vycor
