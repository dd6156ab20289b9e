/-
What the queries answer.

The abstract queries say which edges a usr is shown with: the stored ones, those that a
virtual dispatch expands to, and those that a returned function expands to.  Where several
edges at one call site expand to one target, the program keeps whichever it meets first.
`Uniform` says the choice does not matter, and then every answer, as a set, is read off
the abstract graph: two graphs with one abstract graph cannot be told apart.
-/
import Vycor.Proofs.Provenance

namespace Vycor

/-! ### Abstract queries

What the queries are to answer, said over strings: edges of a usr, expansions,
names.
-/

namespace GraphSpec

variable (s : GraphSpec)

/-- Some registration of the edge is left. -/
def Live (k : EdgeKey Str) : Prop := 0 < s.refs k

/-- What a usr is shown as. -/
def display (u : Str) : Str :=
  match s.node u with
  | some n => n.qualifiedName
  | none => u

/-- The edge as a query answers it, with the display names of its ends. -/
def edge (k : EdgeKey Str) : CallGraphEdge :=
  { callerName := s.display k.caller, calleeName := s.display k.callee, kind := k.kind
    confidence := k.confidence, callSite := k.callSite, indirectionDepth := k.indirectionDepth
    execContext := k.execContext, callerUsr := k.caller, calleeUsr := k.callee }

/-- The usrs a name stands for: a node's own, else the nodes it displays, else itself. -/
def Resolves (name u : Str) : Prop :=
  ((s.node name).isSome ∧ u = name) ∨
  (s.node name = none ∧ ∃ n, s.node u = some n ∧ n.qualifiedName = name) ∨
  (s.node name = none ∧ (∀ u' n, s.node u' = some n → n.qualifiedName ≠ name) ∧ u = name)

/-- A plausible dispatch of an edge to an override of its callee. -/
def DispatchesTo (k : EdgeKey Str) (t : Str) : Prop :=
  s.Live k ∧ k.kind = .virtualDispatch ∧ k.confidence = .Plausible ∧
  t ≠ k.callee ∧ Relation.ReflTransGen (s.related .methodOverride) k.callee t

/-- A call through what the callee of an edge returns. -/
def ReturnsTo (k : EdgeKey Str) (t : Str) : Prop :=
  s.Live k ∧ k.kind = .functionPointerReturn ∧ s.related .functionReturn k.callee t

/-- A dispatch to `t` itself is stored at the call site. -/
def Named (caller t site : Str) : Prop :=
  ∃ d, s.Live d ∧ d.kind = .virtualDispatch ∧ d.caller = caller ∧ d.callee = t ∧ d.callSite = site

/-- An edge to `t` is stored at the call site. -/
def Shown (caller t site : Str) : Prop :=
  ∃ d, s.Live d ∧ d.kind ≠ .functionPointerReturn ∧ d.caller = caller ∧ d.callee = t ∧
    d.callSite = site

/-- Some dispatch at the call site reaches `t`. -/
def Dispatched (caller t site : Str) : Prop :=
  ∃ d, s.DispatchesTo d t ∧ d.caller = caller ∧ d.callSite = site

/-- A dispatch as it is answered for an override. -/
def viaDispatch (e : EdgeKey Str) (t : Str) : EdgeKey Str := { e with callee := t }

/-- A call of what is returned, as it is answered. -/
def viaReturn (e : EdgeKey Str) (t : Str) : EdgeKey Str :=
  { e with callee := t, kind := CallGraph.returnKind e.execContext }

/-- The edges out of a usr. -/
def Callees (u : Str) (k : EdgeKey Str) : Prop :=
  (s.Live k ∧ k.caller = u ∧ k.kind ≠ .functionPointerReturn) ∨
  (∃ e t, s.DispatchesTo e t ∧ e.caller = u ∧ k = viaDispatch e t ∧ ¬ s.Named u t e.callSite) ∨
  (∃ e t, s.ReturnsTo e t ∧ e.caller = u ∧ k = viaReturn e t ∧ ¬ s.Named u t e.callSite ∧
    ¬ s.Dispatched u t e.callSite)

/-- The edges into a usr. -/
def Callers (v : Str) (k : EdgeKey Str) : Prop :=
  (s.Live k ∧ k.callee = v ∧ k.kind ≠ .functionPointerReturn) ∨
  (∃ e, s.DispatchesTo e v ∧ k = viaDispatch e v ∧ ¬ s.Shown e.caller v e.callSite) ∨
  (∃ e, s.ReturnsTo e v ∧ k = viaReturn e v ∧ ¬ s.Shown e.caller v e.callSite ∧
    ¬ s.Dispatched e.caller v e.callSite)

/-- Edges of one call site that expand to one target agree on what the expansion shows,
unless nothing is expanded because the target stands there already. -/
structure Uniform : Prop where
  dispatch : ∀ d e t, s.DispatchesTo d t → s.DispatchesTo e t → d.caller = e.caller →
    d.callSite = e.callSite → ¬ s.Named e.caller t e.callSite →
    d.execContext = e.execContext ∧ d.indirectionDepth = e.indirectionDepth
  returned : ∀ d e t, s.ReturnsTo d t → s.ReturnsTo e t → d.caller = e.caller →
    d.callSite = e.callSite → ¬ s.Named e.caller t e.callSite →
    ¬ s.Dispatched e.caller t e.callSite →
    d.confidence = e.confidence ∧ d.execContext = e.execContext ∧
      d.indirectionDepth = e.indirectionDepth

variable {s}

theorem Named.shown {caller t site : Str} (h : s.Named caller t site) : s.Shown caller t site := by
  obtain ⟨d, hlive, hkind, rest⟩ := h
  exact ⟨d, hlive, by rw [hkind]; simp, rest⟩

theorem Uniform.viaDispatch (h : s.Uniform) {d e : EdgeKey Str} {t : Str}
    (hd : s.DispatchesTo d t) (he : s.DispatchesTo e t) (hcaller : d.caller = e.caller)
    (hsite : d.callSite = e.callSite) (hnot : ¬ s.Named e.caller t e.callSite) :
    GraphSpec.viaDispatch d t = GraphSpec.viaDispatch e t := by
  obtain ⟨hcontext, hdepth⟩ := h.dispatch d e t hd he hcaller hsite hnot
  obtain ⟨-, hkind, hconf, -⟩ := hd
  obtain ⟨-, hkind', hconf', -⟩ := he
  unfold GraphSpec.viaDispatch
  rw [hcaller, hsite, hcontext, hdepth, hkind, hkind', hconf, hconf']

theorem Uniform.viaReturn (h : s.Uniform) {d e : EdgeKey Str} {t : Str}
    (hd : s.ReturnsTo d t) (he : s.ReturnsTo e t) (hcaller : d.caller = e.caller)
    (hsite : d.callSite = e.callSite) (hnot : ¬ s.Named e.caller t e.callSite)
    (hnot' : ¬ s.Dispatched e.caller t e.callSite) :
    GraphSpec.viaReturn d t = GraphSpec.viaReturn e t := by
  obtain ⟨hconf, hcontext, hdepth⟩ := h.returned d e t hd he hcaller hsite hnot hnot'
  unfold GraphSpec.viaReturn
  rw [hcaller, hsite, hcontext, hdepth, hconf]

variable (s) in
/-- Edges that come of one call site and lead to one target: the callees show one of them. -/
inductive SameRow : EdgeKey Str → EdgeKey Str → Prop
  | refl (k : EdgeKey Str) : SameRow k k
  | dispatch {d e : EdgeKey Str} {t : Str} : s.DispatchesTo d t → s.DispatchesTo e t →
      d.caller = e.caller → d.callSite = e.callSite → ¬ s.Named e.caller t e.callSite →
      SameRow (GraphSpec.viaDispatch d t) (GraphSpec.viaDispatch e t)
  | returned {d e : EdgeKey Str} {t : Str} : s.ReturnsTo d t → s.ReturnsTo e t →
      d.caller = e.caller → d.callSite = e.callSite → ¬ s.Named e.caller t e.callSite →
      ¬ s.Dispatched e.caller t e.callSite →
      SameRow (GraphSpec.viaReturn d t) (GraphSpec.viaReturn e t)

theorem Uniform.eq_of_sameRow (h : s.Uniform) {k k' : EdgeKey Str} (hrow : s.SameRow k k') :
    k = k' := by
  cases hrow with
  | refl => rfl
  | dispatch hd he hcaller hsite hnot => exact h.viaDispatch hd he hcaller hsite hnot
  | returned hd he hcaller hsite hnot hnot' => exact h.viaReturn hd he hcaller hsite hnot hnot'

end GraphSpec

namespace CallGraph

open StringInterner Dedup

variable {g : CallGraph}

/-! ### Reading the edge table by string

An interned string has one id, and a string without one has no edges. So lists
of positions become statements about strings.
-/

theorem WF.exists_liveAt (hwf : WF g) (b : EdgeKey SId) :
    (∃ i, LiveAt g.edges i b) ↔
      ∃ k, g.spec.Live k ∧ Interned g.interner k ∧ b = k.map g.interner.idOf := by
  constructor
  · rintro ⟨i, hl⟩
    have hb := hwf.ids.edge i b hl
    have hback := resolve_key hwf.ids.nodup hb
    refine ⟨b.map g.interner.resolve, ?_, ?_, hback.symm⟩
    · show 0 < atKey g.edgeIndex _ _
      rw [hback]
      unfold atKey
      rw [(hwf.edges.indexed b i).mpr hl]
      exact hl.refs_pos
    · exact ⟨resolve_mem hb.1, resolve_mem hb.2.1, resolve_mem hb.2.2⟩
  · rintro ⟨k, hlive, -, rfl⟩
    change 0 < atKey g.edgeIndex (k.map g.interner.idOf) (refsAt g.edges) at hlive
    unfold atKey at hlive
    cases hl : g.edgeIndex.lookup (k.map g.interner.idOf) with
    | none => simp [hl] at hlive
    | some i => exact ⟨i, (hwf.edges.indexed _ i).mp hl⟩

theorem WF.interned_of_live (hwf : WF g) {k : EdgeKey Str} (h : g.spec.Live k) :
    Interned g.interner k := by
  have hatt : ∃ i, LiveAt g.edges i (k.map g.interner.idOf) := by
    change 0 < atKey g.edgeIndex (k.map g.interner.idOf) (refsAt g.edges) at h
    unfold atKey at h
    cases hl : g.edgeIndex.lookup (k.map g.interner.idOf) with
    | none => simp [hl] at h
    | some i => exact ⟨i, (hwf.edges.indexed _ i).mp hl⟩
  obtain ⟨i, hl⟩ := hatt
  obtain ⟨h₁, h₂, h₃⟩ := hwf.ids.edge i _ hl
  exact ⟨idOf_lt.mp h₁, idOf_lt.mp h₂, idOf_lt.mp h₃⟩

/-- What an adjacency map lists, read as records. -/
theorem mem_liveAt {side : EdgeKey SId → SId} {adj : UMap SId (List Nat)}
    (hadj : Adjacent side g.edges adj) (c : SId) (e : StoredEdge) :
    e ∈ g.liveAt (adj.getD c []) ↔ e ∈ g.edges ∧ 0 < e.refs ∧ side e.toEdgeKey = c := by
  unfold liveAt
  rw [List.mem_filter, List.mem_filterMap, List.mem_iff_getElem?]
  simp only [(hadj _).2, adjacent_iff, decide_eq_true_eq, ne_eq]
  constructor
  · rintro ⟨⟨i, ⟨x, hx, hpos, hc⟩, he⟩, -⟩
    rw [he] at hx
    injection hx with hx
    subst hx
    exact ⟨⟨i, he⟩, hpos, hc⟩
  · rintro ⟨⟨i, he⟩, hpos, hc⟩
    exact ⟨⟨i, ⟨e, he, hpos, hc⟩, he⟩, by omega⟩

/-- The live edges an adjacency map files under a string are the abstract live edges with
that end. -/
theorem WF.exists_adjacent (hwf : WF g) {side : EdgeKey SId → SId} {end' : EdgeKey Str → Str}
    {adj : UMap SId (List Nat)} (hadj : Adjacent side g.edges adj)
    (hside : ∀ k, side (k.map g.interner.idOf) = g.interner.idOf (end' k))
    (hend : ∀ k, Interned g.interner k → end' k ∈ g.interner.strings) (u : Str)
    (P : EdgeKey SId → Prop) :
    (∃ e ∈ g.liveAt (adj.getD (g.interner.idOf u) []), P e.toEdgeKey) ↔
      ∃ k, g.spec.Live k ∧ end' k = u ∧ P (k.map g.interner.idOf) := by
  constructor
  · rintro ⟨e, he, hP⟩
    obtain ⟨hmem, hpos, hc⟩ := (mem_liveAt hadj _ e).mp he
    obtain ⟨i, hi⟩ := List.mem_iff_getElem?.mp hmem
    obtain ⟨k, hlive, hk, hek⟩ := (hwf.exists_liveAt e.toEdgeKey).mp ⟨i, e, hi, rfl, hpos⟩
    rw [hek] at hc hP
    rw [hside, eq_comm, idOf_inj (hend k hk)] at hc
    exact ⟨k, hlive, hc.symm, hP⟩
  · rintro ⟨k, hlive, rfl, hP⟩
    obtain ⟨i, e, he, hek, hpos⟩ :=
      (hwf.exists_liveAt (k.map g.interner.idOf)).mpr ⟨k, hlive, hwf.interned_of_live hlive, rfl⟩
    refine ⟨e, (mem_liveAt hadj _ e).mpr ⟨List.mem_iff_getElem?.mpr ⟨i, he⟩, hpos, ?_⟩, ?_⟩
    · rw [hek, hside]
    · rw [hek]
      exact hP

theorem WF.exists_out (hwf : WF g) (u : Str) (P : EdgeKey SId → Prop) :
    (∃ e ∈ g.liveFrom (g.interner.idOf u), P e.toEdgeKey) ↔
      ∃ k, g.spec.Live k ∧ k.caller = u ∧ P (k.map g.interner.idOf) :=
  hwf.exists_adjacent hwf.edges.out (fun _ => rfl) (fun _ h => h.1) u P

theorem WF.exists_in (hwf : WF g) (v : Str) (P : EdgeKey SId → Prop) :
    (∃ e ∈ g.liveInto (g.interner.idOf v), P e.toEdgeKey) ↔
      ∃ k, g.spec.Live k ∧ k.callee = v ∧ P (k.map g.interner.idOf) :=
  hwf.exists_adjacent hwf.edges.inn (fun _ => rfl) (fun _ h => h.2.1) v P

/-! ### Reading the relations by string -/

theorem WF.interned_of_related (hwf : WF g) {r : Relation} {x y : Str} (h : g.spec.related r x y) :
    x ∈ g.interner.strings ∧ y ∈ g.interner.strings := by
  obtain ⟨hx, hy⟩ := hwf.ids.related r _ _ h
  exact ⟨idOf_lt.mp hx, idOf_lt.mp hy⟩

theorem WF.mem_relation (hwf : WF g) (r : Relation) (x : Str) (i : SId) :
    i ∈ (g.relation r).getD (g.interner.idOf x) [] ↔
      ∃ y, g.spec.related r x y ∧ i = g.interner.idOf y := by
  constructor
  · intro hi
    have hlt := (hwf.ids.related r _ _ hi).2
    have hback := idOf_resolve hwf.ids.nodup hlt
    refine ⟨g.interner.resolve i, ?_, hback.symm⟩
    show g.interner.idOf (g.interner.resolve i) ∈ _
    rw [hback]
    exact hi
  · rintro ⟨y, hy, rfl⟩
    exact hy

theorem WF.mem_reverse (hwf : WF g) {r : Relation} {rev : UMap SId (List SId)}
    (hrev : ReverseOf (g.relation r) rev) (y : Str) (i : SId) :
    i ∈ rev.getD (g.interner.idOf y) [] ↔ ∃ x, g.spec.related r x y ∧ i = g.interner.idOf x := by
  rw [(hrev _).2]
  constructor
  · intro hi
    have hlt := (hwf.ids.related r _ _ hi).1
    have hback := idOf_resolve hwf.ids.nodup hlt
    refine ⟨g.interner.resolve i, ?_, hback.symm⟩
    show _ ∈ (g.relation r).getD (g.interner.idOf (g.interner.resolve i)) []
    rw [hback]
    exact hi
  · rintro ⟨x, hx, rfl⟩
    exact hx

theorem mem_targets {m : UMap SId (List SId)} {x y : SId} (hy : y ∈ m.getD x []) :
    y ∈ m.entries.flatMap (·.2) := by
  unfold UMap.getD at hy
  cases hl : m.lookup x with
  | none =>
      rw [hl] at hy
      exact absurd hy List.not_mem_nil
  | some l =>
      rw [hl] at hy
      exact List.mem_flatMap.mpr ⟨⟨x, l⟩, (UMap.mem_entries m x l).mpr hl, hy⟩

/-- The shortcut for a start without an entry changes nothing. -/
theorem transitiveClosure_eq (start : SId) (m : UMap SId (List SId)) :
    transitiveClosure start m
      = Closure.closure (m.getD · []) ((m.entries.flatMap (·.2)).length + 1) start := by
  unfold transitiveClosure
  split
  · rename_i hnone
    have hnil : m.getD start [] = [] := by
      rw [UMap.getD, Option.isNone_iff_eq_none.mp hnone]
      rfl
    refine (List.eq_nil_iff_forall_not_mem.mpr fun i hi => ?_).symm
    obtain ⟨hne, hreach⟩ :=
      ((Closure.closure_spec _ _ (fun _ _ => mem_targets) (Nat.le_refl _) start).2 i).mp hi
    rcases Relation.ReflTransGen.cases_head hreach with heq | ⟨j, hj, -⟩
    · exact hne heq.symm
    · rw [hnil] at hj
      exact absurd hj List.not_mem_nil
  · rfl

theorem transitiveClosure_spec (start : SId) (m : UMap SId (List SId)) (i : SId) :
    i ∈ transitiveClosure start m ↔
      i ≠ start ∧ Relation.ReflTransGen (fun a b => b ∈ m.getD a []) start i := by
  rw [transitiveClosure_eq]
  exact (Closure.closure_spec _ _ (fun _ _ => mem_targets) (Nat.le_refl _) start).2 i

theorem nodup_transitiveClosure (start : SId) (m : UMap SId (List SId)) :
    (transitiveClosure start m).Nodup := by
  rw [transitiveClosure_eq]
  exact (Closure.closure_spec _ _ (fun _ _ => mem_targets) (Nat.le_refl _) start).1

/-- The closure of an interned string, where `R` is what the map says of strings. -/
theorem mem_transitiveClosure {m : UMap SId (List SId)} {R : Str → Str → Prop}
    (hm : ∀ x i, i ∈ m.getD (g.interner.idOf x) [] ↔ ∃ y, R x y ∧ i = g.interner.idOf y)
    {x : Str} (hx : x ∈ g.interner.strings) (i : SId) :
    i ∈ transitiveClosure (g.interner.idOf x) m ↔
      ∃ y, y ≠ x ∧ Relation.ReflTransGen R x y ∧ i = g.interner.idOf y := by
  rw [transitiveClosure_spec]
  constructor
  · rintro ⟨hne, hreach⟩
    have hpath : ∃ y, Relation.ReflTransGen R x y ∧ i = g.interner.idOf y := by
      clear hne
      induction hreach with
      | refl => exact ⟨x, .refl, rfl⟩
      | tail _ hstep ih =>
          obtain ⟨y, hy, rfl⟩ := ih
          obtain ⟨z, hz, rfl⟩ := (hm y _).mp hstep
          exact ⟨z, hy.tail hz, rfl⟩
    obtain ⟨y, hy, rfl⟩ := hpath
    refine ⟨y, ?_, hy, rfl⟩
    rintro rfl
    exact hne rfl
  · rintro ⟨y, hne, hreach, rfl⟩
    refine ⟨fun hc => hne ((idOf_inj hx).mp hc), ?_⟩
    clear hne
    induction hreach with
    | refl => exact .refl
    | tail _ hstep ih => exact ih.tail ((hm _ _).mpr ⟨_, hstep, rfl⟩)

theorem WF.mem_overrides (hwf : WF g) {x : Str} (hx : x ∈ g.interner.strings) (i : SId) :
    i ∈ transitiveClosure (g.interner.idOf x) g.methodOverrides ↔
      ∃ y, y ≠ x ∧ Relation.ReflTransGen (g.spec.related .methodOverride) x y ∧
        i = g.interner.idOf y :=
  mem_transitiveClosure (hwf.mem_relation .methodOverride) hx i

theorem WF.mem_bases (hwf : WF g) {y : Str} (hy : y ∈ g.interner.strings) (i : SId) :
    i ∈ transitiveClosure (g.interner.idOf y) g.overrideBases ↔
      ∃ x, x ≠ y ∧ Relation.ReflTransGen (g.spec.related .methodOverride) x y ∧
        i = g.interner.idOf x := by
  rw [mem_transitiveClosure (R := Function.swap (g.spec.related .methodOverride))
    (hwf.mem_reverse (r := .methodOverride) hwf.overrideBases) hy i]
  simp only [Relation.reflTransGen_swap]

/-! ### The expansions by string -/

theorem isDispatch_iff (e : StoredEdge) :
    isDispatch e = true ↔ e.kind = .virtualDispatch ∧ e.confidence = .Plausible := by
  simp [isDispatch]

theorem WF.interned_of_dispatchesTo (hwf : WF g) {k : EdgeKey Str} {t : Str}
    (h : g.spec.DispatchesTo k t) : t ∈ g.interner.strings := by
  obtain ⟨hlive, -, -, -, hreach⟩ := h
  rcases Relation.ReflTransGen.cases_tail hreach with heq | ⟨_, -, hstep⟩
  · rw [heq]
    exact (hwf.interned_of_live hlive).2.1
  · exact (hwf.interned_of_related hstep).2

theorem WF.mem_dispatchedFrom (hwf : WF g) (u : Str) (key : SId × SId) (b : EdgeRef) :
    (key, b) ∈ g.dispatchedFrom (g.interner.idOf u) ↔
      ∃ e t, g.spec.DispatchesTo e t ∧ e.caller = u ∧
        key = (g.interner.idOf t, g.interner.idOf e.callSite) ∧
        b = (GraphSpec.viaDispatch e t).map g.interner.idOf := by
  have hout := hwf.exists_out u fun x =>
    x.kind = .virtualDispatch ∧ x.confidence = .Plausible ∧
      ∃ i ∈ transitiveClosure x.callee g.methodOverrides,
        ((i, x.callSite), { x with callee := i }) = (key, b)
  unfold dispatchedFrom
  simp only [List.mem_flatMap, List.mem_filter, List.mem_map, isDispatch_iff, and_assoc]
  refine hout.trans ?_
  constructor
  · rintro ⟨k, hlive, hcaller, hkind, hconf, i, hi, heq⟩
    obtain ⟨t, hne, hreach, rfl⟩ := (hwf.mem_overrides (hwf.interned_of_live hlive).2.1 i).mp hi
    obtain ⟨rfl, rfl⟩ := Prod.mk.injEq _ _ _ _ ▸ heq
    exact ⟨k, t, ⟨hlive, hkind, hconf, hne, hreach⟩, hcaller, rfl, rfl⟩
  · rintro ⟨k, t, ⟨hlive, hkind, hconf, hne, hreach⟩, hcaller, rfl, rfl⟩
    exact ⟨k, hlive, hcaller, hkind, hconf, _,
      (hwf.mem_overrides (hwf.interned_of_live hlive).2.1 _).mpr ⟨t, hne, hreach, rfl⟩, rfl⟩

theorem WF.mem_returnedFrom (hwf : WF g) (u : Str) (key : SId × SId) (b : EdgeRef) :
    (key, b) ∈ g.returnedFrom (g.interner.idOf u) ↔
      ∃ e t, g.spec.ReturnsTo e t ∧ e.caller = u ∧
        key = (g.interner.idOf t, g.interner.idOf e.callSite) ∧
        b = (GraphSpec.viaReturn e t).map g.interner.idOf := by
  have hout := hwf.exists_out u fun x =>
    x.kind = .functionPointerReturn ∧ ∃ i ∈ g.functionReturns.getD x.callee [],
      ((i, x.callSite), { x with callee := i, kind := returnKind x.execContext }) = (key, b)
  unfold returnedFrom
  simp only [List.mem_flatMap, List.mem_filter, List.mem_map, decide_eq_true_eq, and_assoc]
  refine hout.trans ?_
  constructor
  · rintro ⟨k, hlive, hcaller, hkind, i, hi, heq⟩
    obtain ⟨t, hrel, rfl⟩ := (hwf.mem_relation .functionReturn k.callee i).mp hi
    obtain ⟨rfl, rfl⟩ := Prod.mk.injEq _ _ _ _ ▸ heq
    exact ⟨k, t, ⟨hlive, hkind, hrel⟩, hcaller, rfl, rfl⟩
  · rintro ⟨k, t, ⟨hlive, hkind, hrel⟩, hcaller, rfl, rfl⟩
    exact ⟨k, hlive, hcaller, hkind, _,
      (hwf.mem_relation .functionReturn k.callee _).mpr ⟨t, hrel, rfl⟩, rfl⟩

theorem WF.mem_dispatchedTo (hwf : WF g) {v : Str} (hv : v ∈ g.interner.strings)
    (key : SId × SId) (b : EdgeRef) :
    (key, b) ∈ g.dispatchedTo (g.interner.idOf v) ↔
      ∃ e, g.spec.DispatchesTo e v ∧
        key = (g.interner.idOf e.caller, g.interner.idOf e.callSite) ∧
        b = (GraphSpec.viaDispatch e v).map g.interner.idOf := by
  have hin := fun x => hwf.exists_in x fun y =>
    y.kind = .virtualDispatch ∧ y.confidence = .Plausible ∧
      ((y.caller, y.callSite), { y with callee := g.interner.idOf v }) = (key, b)
  unfold dispatchedTo
  simp only [List.mem_flatMap, List.mem_map, List.mem_filter, isDispatch_iff, and_assoc]
  constructor
  · rintro ⟨i, hi, hedge⟩
    obtain ⟨x, hne, hreach, rfl⟩ := (hwf.mem_bases hv i).mp hi
    obtain ⟨k, hlive, rfl, hkind, hconf, heq⟩ := (hin x).mp hedge
    obtain ⟨rfl, rfl⟩ := Prod.mk.injEq _ _ _ _ ▸ heq
    exact ⟨k, ⟨hlive, hkind, hconf, Ne.symm hne, hreach⟩, rfl, rfl⟩
  · rintro ⟨k, ⟨hlive, hkind, hconf, hne, hreach⟩, rfl, rfl⟩
    exact ⟨g.interner.idOf k.callee,
      (hwf.mem_bases hv _).mpr ⟨k.callee, Ne.symm hne, hreach, rfl⟩,
      (hin k.callee).mpr ⟨k, hlive, rfl, hkind, hconf, rfl⟩⟩

theorem WF.mem_returnedTo (hwf : WF g) (v : Str) (key : SId × SId) (b : EdgeRef) :
    (key, b) ∈ g.returnedTo (g.interner.idOf v) ↔
      ∃ e, g.spec.ReturnsTo e v ∧
        key = (g.interner.idOf e.caller, g.interner.idOf e.callSite) ∧
        b = (GraphSpec.viaReturn e v).map g.interner.idOf := by
  have hin := fun x => hwf.exists_in x fun y =>
    y.kind = .functionPointerReturn ∧
      ((y.caller, y.callSite),
        { y with callee := g.interner.idOf v, kind := returnKind y.execContext }) = (key, b)
  unfold returnedTo
  simp only [List.mem_flatMap, List.mem_map, List.mem_filter, decide_eq_true_eq, and_assoc]
  constructor
  · rintro ⟨i, hi, hedge⟩
    obtain ⟨x, hrel, rfl⟩ := (hwf.mem_reverse (r := .functionReturn) hwf.returnedBy v i).mp hi
    obtain ⟨k, hlive, rfl, hkind, heq⟩ := (hin x).mp hedge
    obtain ⟨rfl, rfl⟩ := Prod.mk.injEq _ _ _ _ ▸ heq
    exact ⟨k, ⟨hlive, hkind, hrel⟩, rfl, rfl⟩
  · rintro ⟨k, ⟨hlive, hkind, hrel⟩, rfl, rfl⟩
    exact ⟨g.interner.idOf k.callee,
      (hwf.mem_reverse (r := .functionReturn) hwf.returnedBy v _).mpr ⟨k.callee, hrel, rfl⟩,
      (hin k.callee).mpr ⟨k, hlive, rfl, hkind, rfl⟩⟩

/-! ### Edges of a usr -/

theorem WF.mem_shownFrom (hwf : WF g) (u : Str) (b : EdgeRef) :
    b ∈ ((g.liveFrom (g.interner.idOf u)).filter
        (·.kind ≠ .functionPointerReturn)).map (·.toEdgeKey) ↔
      ∃ k, (g.spec.Live k ∧ k.caller = u ∧ k.kind ≠ .functionPointerReturn) ∧
        b = k.map g.interner.idOf := by
  simp only [List.mem_map, List.mem_filter, decide_eq_true_eq, and_assoc]
  refine (hwf.exists_out u fun x => x.kind ≠ .functionPointerReturn ∧ x = b).trans ?_
  exact exists_congr fun k => by rw [eq_comm (a := b)]; rfl

theorem WF.mem_namedFrom (hwf : WF g) (u t site : Str) :
    (g.interner.idOf t, g.interner.idOf site) ∈
        ((g.liveFrom (g.interner.idOf u)).filter (·.kind = .virtualDispatch)).map
          (fun e => (e.callee, e.callSite)) ↔ g.spec.Named u t site := by
  simp only [List.mem_map, List.mem_filter, decide_eq_true_eq, and_assoc]
  refine (hwf.exists_out u fun x => x.kind = .virtualDispatch ∧
    (x.callee, x.callSite) = (g.interner.idOf t, g.interner.idOf site)).trans ?_
  constructor
  · rintro ⟨k, hlive, hcaller, hkind, heq⟩
    obtain ⟨-, hcallee, hsite⟩ := hwf.interned_of_live hlive
    obtain ⟨h₁, h₂⟩ := Prod.mk.injEq _ _ _ _ ▸ heq
    exact ⟨k, hlive, hkind, hcaller, ((idOf_inj hcallee).mp h₁.symm).symm,
      ((idOf_inj hsite).mp h₂.symm).symm⟩
  · rintro ⟨k, hlive, hkind, hcaller, rfl, rfl⟩
    exact ⟨k, hlive, hcaller, hkind, rfl⟩

/-- Two candidates under one key have one target and one call site. -/
theorem WF.ends_of_key (hwf : WF g) {d e : EdgeKey Str} {t t' : Str} (hlive : g.spec.Live d)
    (ht : t ∈ g.interner.strings) (heq : (g.interner.idOf t, g.interner.idOf d.callSite)
      = (g.interner.idOf t', g.interner.idOf e.callSite)) : t = t' ∧ d.callSite = e.callSite := by
  obtain ⟨h₁, h₂⟩ := Prod.mk.injEq _ _ _ _ ▸ heq
  exact ⟨((idOf_inj ht).mp h₁.symm).symm,
    ((idOf_inj (hwf.interned_of_live hlive).2.2).mp h₂.symm).symm⟩

theorem WF.callees_of_shown (hwf : WF g) {u : Str} {b : EdgeRef}
    (hb : b ∈ g.calleeRefsOf (g.interner.idOf u)) :
    ∃ k, g.spec.Callees u k ∧ b = k.map g.interner.idOf := by
  unfold calleeRefsOf at hb
  rw [mem_emitAll_emitAll_first, hwf.mem_shownFrom] at hb
  rcases hb with ⟨k, hk, rfl⟩ | ⟨key, hnot, hfirst⟩
  · exact ⟨k, Or.inl hk, rfl⟩
  · cases hdispatch : firstOf (g.dispatchedFrom (g.interner.idOf u)) key with
    | some c =>
        rw [hdispatch] at hfirst
        obtain rfl : c = b := Option.some.inj hfirst
        obtain ⟨e, t, he, hcaller, rfl, rfl⟩ :=
          (hwf.mem_dispatchedFrom u key c).mp (mem_of_firstOf hdispatch)
        rw [hwf.mem_namedFrom] at hnot
        exact ⟨_, Or.inr (Or.inl ⟨e, t, he, hcaller, rfl, hnot⟩), rfl⟩
    | none =>
        rw [hdispatch, Option.none_or] at hfirst
        obtain ⟨e, t, he, hcaller, rfl, rfl⟩ :=
          (hwf.mem_returnedFrom u key b).mp (mem_of_firstOf hfirst)
        rw [hwf.mem_namedFrom] at hnot
        refine ⟨_, Or.inr (Or.inr ⟨e, t, he, hcaller, rfl, hnot, ?_⟩), rfl⟩
        rintro ⟨d, hd, hdcaller, hdsite⟩
        exact firstOf_eq_none.mp hdispatch _ ((hwf.mem_dispatchedFrom u _ _).mpr
          ⟨d, t, hd, hdcaller, by rw [hdsite], rfl⟩)

theorem WF.shown_of_callees (hwf : WF g) {u : Str} {k : EdgeKey Str} (hk : g.spec.Callees u k) :
    ∃ k', g.spec.SameRow k' k ∧ k'.map g.interner.idOf ∈ g.calleeRefsOf (g.interner.idOf u) := by
  unfold calleeRefsOf
  simp only [mem_emitAll_emitAll_first, hwf.mem_shownFrom]
  rcases hk with hk | ⟨e, t, he, rfl, rfl, hnot⟩ | ⟨e, t, he, rfl, rfl, hnot, hnone⟩
  · exact ⟨k, GraphSpec.SameRow.refl k, Or.inl ⟨k, hk, rfl⟩⟩
  · have hmem := (hwf.mem_dispatchedFrom e.caller _ _).mpr ⟨e, t, he, rfl, rfl, rfl⟩
    obtain ⟨c, hfirst⟩ := Option.ne_none_iff_exists'.mp fun hnone => firstOf_eq_none.mp hnone _ hmem
    obtain ⟨d, t', hd, hcaller, hkey, rfl⟩ :=
      (hwf.mem_dispatchedFrom e.caller _ c).mp (mem_of_firstOf hfirst)
    obtain ⟨rfl, hsite⟩ := hwf.ends_of_key he.1 (hwf.interned_of_dispatchesTo he) hkey
    refine ⟨_, GraphSpec.SameRow.dispatch hd he hcaller hsite.symm hnot,
      Or.inr ⟨(g.interner.idOf t, g.interner.idOf e.callSite), ?_, ?_⟩⟩
    · exact fun hc => hnot ((hwf.mem_namedFrom _ _ _).mp hc)
    · rw [hfirst, Option.some_or]
  · have hmem := (hwf.mem_returnedFrom e.caller _ _).mpr ⟨e, t, he, rfl, rfl, rfl⟩
    obtain ⟨c, hfirst⟩ := Option.ne_none_iff_exists'.mp fun hnone => firstOf_eq_none.mp hnone _ hmem
    obtain ⟨d, t', hd, hcaller, hkey, rfl⟩ :=
      (hwf.mem_returnedFrom e.caller _ c).mp (mem_of_firstOf hfirst)
    obtain ⟨rfl, hsite⟩ := hwf.ends_of_key he.1 (hwf.interned_of_related he.2.2).2 hkey
    refine ⟨_, GraphSpec.SameRow.returned hd he hcaller hsite.symm hnot hnone,
      Or.inr ⟨(g.interner.idOf t, g.interner.idOf e.callSite), ?_, ?_⟩⟩
    · exact fun hc => hnot ((hwf.mem_namedFrom _ _ _).mp hc)
    · rw [firstOf_eq_none.mpr fun c hc => ?_, Option.none_or, hfirst]
      obtain ⟨x, t', hx, hxcaller, hxkey, -⟩ := (hwf.mem_dispatchedFrom e.caller _ c).mp hc
      obtain ⟨rfl, hxsite⟩ := hwf.ends_of_key he.1 (hwf.interned_of_related he.2.2).2 hxkey
      exact hnone ⟨x, hx, hxcaller, hxsite.symm⟩

theorem WF.mem_calleeRefsOf (hwf : WF g) (huniform : g.spec.Uniform) (u : Str) (b : EdgeRef) :
    b ∈ g.calleeRefsOf (g.interner.idOf u) ↔
      ∃ k, g.spec.Callees u k ∧ b = k.map g.interner.idOf := by
  refine ⟨hwf.callees_of_shown, ?_⟩
  rintro ⟨k, hk, rfl⟩
  obtain ⟨k', hrow, hshown⟩ := hwf.shown_of_callees hk
  rwa [huniform.eq_of_sameRow hrow] at hshown

theorem WF.mem_callerRefsOf (hwf : WF g) (huniform : g.spec.Uniform) {v : Str}
    (hv : v ∈ g.interner.strings) (b : EdgeRef) :
    b ∈ g.callerRefsOf (g.interner.idOf v) ↔
      ∃ k, g.spec.Callers v k ∧ b = k.map g.interner.idOf := by
  have hshown : b ∈ ((g.liveInto (g.interner.idOf v)).filter
      (·.kind ≠ .functionPointerReturn)).map (·.toEdgeKey) ↔
      ∃ k, (g.spec.Live k ∧ k.callee = v ∧ k.kind ≠ .functionPointerReturn) ∧
        b = k.map g.interner.idOf := by
    simp only [List.mem_map, List.mem_filter, decide_eq_true_eq, and_assoc]
    refine (hwf.exists_in v fun x => x.kind ≠ .functionPointerReturn ∧ x = b).trans ?_
    exact exists_congr fun k => by rw [eq_comm (a := b)]; rfl
  have hseen : ∀ caller site, (g.interner.idOf caller, g.interner.idOf site) ∈
      ((g.liveInto (g.interner.idOf v)).filter (·.kind ≠ .functionPointerReturn)).map
        (fun e => (e.caller, e.callSite)) ↔ g.spec.Shown caller v site := by
    intro caller site
    simp only [List.mem_map, List.mem_filter, decide_eq_true_eq, and_assoc]
    refine (hwf.exists_in v fun x => x.kind ≠ .functionPointerReturn ∧
      (x.caller, x.callSite) = (g.interner.idOf caller, g.interner.idOf site)).trans ?_
    constructor
    · rintro ⟨k, hlive, hcallee, hkind, heq⟩
      obtain ⟨hcaller, -, hsite⟩ := hwf.interned_of_live hlive
      obtain ⟨h₁, h₂⟩ := Prod.mk.injEq _ _ _ _ ▸ heq
      exact ⟨k, hlive, hkind, ((idOf_inj hcaller).mp h₁.symm).symm, hcallee,
        ((idOf_inj hsite).mp h₂.symm).symm⟩
    · rintro ⟨k, hlive, hkind, rfl, hcallee, rfl⟩
      exact ⟨k, hlive, hcallee, hkind, rfl⟩
  -- two candidates under one key have one caller and one call site
  have hkey : ∀ {d e : EdgeKey Str}, g.spec.Live d →
      (g.interner.idOf d.caller, g.interner.idOf d.callSite)
        = (g.interner.idOf e.caller, g.interner.idOf e.callSite) →
      d.caller = e.caller ∧ d.callSite = e.callSite := by
    intro d e hlive heq
    obtain ⟨hcaller, -, hsite⟩ := hwf.interned_of_live hlive
    obtain ⟨h₁, h₂⟩ := Prod.mk.injEq _ _ _ _ ▸ heq
    exact ⟨((idOf_inj hcaller).mp h₁.symm).symm, ((idOf_inj hsite).mp h₂.symm).symm⟩
  unfold callerRefsOf
  rw [mem_emitAll_emitAll]
  · rw [hshown]
    constructor
    · rintro (⟨k, hk, rfl⟩ | ⟨key, hmem, hnot⟩ | ⟨key, hmem, hnot, hnone⟩)
      · exact ⟨k, Or.inl hk, rfl⟩
      · obtain ⟨e, he, rfl, rfl⟩ := (hwf.mem_dispatchedTo hv key b).mp hmem
        rw [hseen] at hnot
        exact ⟨_, Or.inr (Or.inl ⟨e, he, rfl, hnot⟩), rfl⟩
      · obtain ⟨e, he, rfl, rfl⟩ := (hwf.mem_returnedTo v key b).mp hmem
        rw [hseen] at hnot
        refine ⟨_, Or.inr (Or.inr ⟨e, he, rfl, hnot, ?_⟩), rfl⟩
        rintro ⟨d, hd, hdcaller, hdsite⟩
        exact hnone _ ((hwf.mem_dispatchedTo hv _ _).mpr ⟨d, hd, by rw [hdcaller, hdsite], rfl⟩)
    · rintro ⟨k, hk | ⟨e, he, rfl, hnot⟩ | ⟨e, he, rfl, hnot, hnone⟩, rfl⟩
      · exact Or.inl ⟨k, hk, rfl⟩
      · exact Or.inr (Or.inl ⟨_, (hwf.mem_dispatchedTo hv _ _).mpr ⟨e, he, rfl, rfl⟩,
          fun hc => hnot ((hseen _ _).mp hc)⟩)
      · refine Or.inr (Or.inr ⟨_, (hwf.mem_returnedTo v _ _).mpr ⟨e, he, rfl, rfl⟩,
          fun hc => hnot ((hseen _ _).mp hc), ?_⟩)
        intro c hc
        obtain ⟨d, hd, heq, -⟩ := (hwf.mem_dispatchedTo hv _ c).mp hc
        obtain ⟨hcaller, hsite⟩ := hkey hd.1 heq.symm
        exact hnone ⟨d, hd, hcaller, hsite⟩
  · intro key hnot a c ha hc
    obtain ⟨d, hd, rfl, rfl⟩ := (hwf.mem_dispatchedTo hv key a).mp ha
    obtain ⟨e, he, heq, rfl⟩ := (hwf.mem_dispatchedTo hv _ c).mp hc
    obtain ⟨hcaller, hsite⟩ := hkey hd.1 heq
    rw [heq, hseen] at hnot
    rw [huniform.viaDispatch hd he hcaller hsite fun hn => hnot hn.shown]
  · intro key hnot hnone a c ha hc
    obtain ⟨d, hd, rfl, rfl⟩ := (hwf.mem_returnedTo v key a).mp ha
    obtain ⟨e, he, heq, rfl⟩ := (hwf.mem_returnedTo v _ c).mp hc
    obtain ⟨hcaller, hsite⟩ := hkey hd.1 heq
    rw [heq, hseen] at hnot
    refine congrArg (EdgeKey.map g.interner.idOf) (huniform.viaReturn hd he hcaller hsite
      (fun hn => hnot hn.shown) ?_)
    rintro ⟨x, hx, hxcaller, hxsite⟩
    exact hnone _ ((hwf.mem_dispatchedTo hv _ _).mpr
      ⟨x, hx, by rw [hxcaller, hxsite, hcaller, hsite], rfl⟩)

/-! ### Names -/

theorem WF.node_usr (hwf : WF g) {u : Str} {n : CallGraphNode} (h : g.spec.node u = some n) :
    n.usr = u ∧ u ∈ g.interner.strings ∧ n.qualifiedName ∈ g.interner.strings := by
  obtain ⟨hlt, hres, hq⟩ := hwf.ids.node _ n h
  rw [resolve_idOf (idOf_lt.mp hlt)] at hres
  exact ⟨hres.symm, idOf_lt.mp hlt, hq⟩

theorem WF.interned_of_resolves (hwf : WF g) {name u : Str} (h : g.spec.Resolves name u)
    (hu : u ∈ g.interner.strings) : name ∈ g.interner.strings := by
  rcases h with ⟨-, rfl⟩ | ⟨-, n, hn, rfl⟩ | ⟨-, -, rfl⟩
  · exact hu
  · exact (hwf.node_usr hn).2.2
  · exact hu

theorem WF.mem_resolveUsrIds (hwf : WF g) {name : Str} (hname : name ∈ g.interner.strings)
    (i : SId) :
    i ∈ g.resolveUsrIds name ↔ ∃ u, g.spec.Resolves name u ∧ i = g.interner.idOf u := by
  have hfind : g.interner.find name = some (g.interner.idOf name) := find_eq_some.mpr ⟨hname, rfl⟩
  have hcands : ∀ i, i ∈ g.byName.getD (g.interner.idOf name) [] ↔
      ∃ u n, g.spec.node u = some n ∧ n.qualifiedName = name ∧ i = g.interner.idOf u := by
    intro i
    rw [(hwf.nodes _).2]
    constructor
    · rintro ⟨n, hn, hd⟩
      obtain ⟨hlt, hres, hq⟩ := hwf.ids.node i n hn
      have hi : g.interner.idOf n.usr = i := by rw [← hres, idOf_resolve hwf.ids.nodup hlt]
      refine ⟨n.usr, n, ?_, ((idOf_inj hq).mp hd.symm).symm, hi.symm⟩
      show g.nodes.lookup (g.interner.idOf n.usr) = some n
      rw [hi]
      exact hn
    · rintro ⟨u, n, hn, rfl, rfl⟩
      exact ⟨n, hn, rfl⟩
  have hresolve : g.resolveUsrIds name
      = if (g.nodes.lookup (g.interner.idOf name)).isSome then [g.interner.idOf name]
        else if g.byName.getD (g.interner.idOf name) [] = [] then [g.interner.idOf name]
        else g.byName.getD (g.interner.idOf name) [] := by
    unfold resolveUsrIds UMap.getD
    cases hb : g.byName.lookup (g.interner.idOf name) <;> simp [hfind, hb]
  rw [hresolve]
  by_cases hnode : (g.spec.node name).isSome
  · have hlook : (g.nodes.lookup (g.interner.idOf name)).isSome := hnode
    rw [if_pos hlook, List.mem_singleton]
    constructor
    · rintro rfl
      exact ⟨name, Or.inl ⟨hnode, rfl⟩, rfl⟩
    · rintro ⟨u, ⟨-, rfl⟩ | ⟨hnone, -⟩ | ⟨hnone, -⟩, rfl⟩
      · rfl
      · simp [hnone] at hnode
      · simp [hnone] at hnode
  · have hnone : g.spec.node name = none := Option.not_isSome_iff_eq_none.mp hnode
    have hlook : ¬ (g.nodes.lookup (g.interner.idOf name)).isSome := hnode
    rw [if_neg hlook]
    by_cases hnil : g.byName.getD (g.interner.idOf name) [] = []
    · have hempty : ∀ u n, g.spec.node u = some n → n.qualifiedName ≠ name := by
        intro u n hn hq
        have := (hcands (g.interner.idOf u)).mpr ⟨u, n, hn, hq, rfl⟩
        rw [hnil] at this
        exact absurd this List.not_mem_nil
      rw [if_pos hnil, List.mem_singleton]
      constructor
      · rintro rfl
        exact ⟨name, Or.inr (Or.inr ⟨hnone, hempty, rfl⟩), rfl⟩
      · rintro ⟨u, ⟨hsome, -⟩ | ⟨-, n, hn, hq⟩ | ⟨-, -, rfl⟩, rfl⟩
        · simp [hnone] at hsome
        · exact absurd hq (hempty u n hn)
        · rfl
    · rw [if_neg hnil, hcands]
      constructor
      · rintro ⟨u, n, hn, hq, rfl⟩
        exact ⟨u, Or.inr (Or.inl ⟨hnone, n, hn, hq⟩), rfl⟩
      · rintro ⟨u, ⟨hsome, -⟩ | ⟨-, n, hn, hq⟩ | ⟨-, hempty, -⟩, rfl⟩
        · simp [hnone] at hsome
        · exact ⟨u, n, hn, hq, rfl⟩
        · obtain ⟨x, hx⟩ := List.exists_mem_of_ne_nil _ hnil
          obtain ⟨u', n, hn, hq, -⟩ := (hcands x).mp hx
          exact absurd hq (hempty u' n hn)

theorem resolveUsrIds_unknown {name : Str} (h : name ∉ g.interner.strings) :
    g.resolveUsrIds name = [] := by
  have hfind : g.interner.find name = none := by
    cases hf : g.interner.find name with
    | none => rfl
    | some id => exact absurd (find_eq_some.mp hf).1 h
  unfold resolveUsrIds
  rw [hfind]

/-- What a query collects over the usrs of a name, if only interned usrs contribute. -/
theorem WF.exists_resolved (hwf : WF g) (name : Str) {P : SId → Prop}
    (hP : ∀ u, P (g.interner.idOf u) → u ∈ g.interner.strings) :
    (∃ i ∈ g.resolveUsrIds name, P i) ↔ ∃ u, g.spec.Resolves name u ∧ P (g.interner.idOf u) := by
  by_cases hname : name ∈ g.interner.strings
  · simp only [hwf.mem_resolveUsrIds hname]
    constructor
    · rintro ⟨_, ⟨u, hu, rfl⟩, h⟩
      exact ⟨u, hu, h⟩
    · rintro ⟨u, hu, h⟩
      exact ⟨_, ⟨u, hu, rfl⟩, h⟩
  · rw [resolveUsrIds_unknown hname]
    refine iff_of_false (by simp) ?_
    rintro ⟨u, hu, h⟩
    exact hname (hwf.interned_of_resolves hu (hP u h))

theorem displayFor_idOf {u : Str} (hu : u ∈ g.interner.strings) :
    g.displayFor (g.interner.idOf u) = g.spec.display u := by
  unfold displayFor GraphSpec.display
  show _ = match g.nodes.lookup (g.interner.idOf u) with | some n => n.qualifiedName | none => u
  cases g.nodes.lookup (g.interner.idOf u) with
  | none => exact resolve_idOf hu
  | some n => rfl

theorem materialize_map {k : EdgeKey Str} (hk : Interned g.interner k) :
    g.materialize (k.map g.interner.idOf) = g.spec.edge k := by
  obtain ⟨hcaller, hcallee, hsite⟩ := hk
  unfold materialize GraphSpec.edge EdgeKey.map
  simp only [displayFor_idOf hcaller, displayFor_idOf hcallee, resolve_idOf hcaller,
    resolve_idOf hcallee, resolve_idOf hsite]

theorem WF.interned_of_callees (hwf : WF g) {u : Str} {k : EdgeKey Str} (h : g.spec.Callees u k) :
    Interned g.interner k ∧ k.caller = u := by
  rcases h with ⟨hlive, hcaller, -⟩ | ⟨e, t, he, hcaller, rfl, -⟩ | ⟨e, t, he, hcaller, rfl, -⟩
  · exact ⟨hwf.interned_of_live hlive, hcaller⟩
  · obtain ⟨h₁, -, h₃⟩ := hwf.interned_of_live he.1
    exact ⟨⟨h₁, hwf.interned_of_dispatchesTo he, h₃⟩, hcaller⟩
  · obtain ⟨h₁, -, h₃⟩ := hwf.interned_of_live he.1
    exact ⟨⟨h₁, (hwf.interned_of_related he.2.2).2, h₃⟩, hcaller⟩

theorem WF.interned_of_callers (hwf : WF g) {v : Str} {k : EdgeKey Str} (h : g.spec.Callers v k) :
    Interned g.interner k ∧ k.callee = v := by
  rcases h with ⟨hlive, hcallee, -⟩ | ⟨e, he, rfl, -⟩ | ⟨e, he, rfl, -⟩
  · exact ⟨hwf.interned_of_live hlive, hcallee⟩
  · obtain ⟨h₁, -, h₃⟩ := hwf.interned_of_live he.1
    exact ⟨⟨h₁, hwf.interned_of_dispatchesTo he, h₃⟩, rfl⟩
  · obtain ⟨h₁, -, h₃⟩ := hwf.interned_of_live he.1
    exact ⟨⟨h₁, (hwf.interned_of_related he.2.2).2, h₃⟩, rfl⟩

/-! ### The answers -/

theorem WF.mem_calleesOf (hwf : WF g) (huniform : g.spec.Uniform) (name : Str)
    (e : CallGraphEdge) :
    e ∈ g.calleesOf name ↔
      ∃ u, g.spec.Resolves name u ∧ ∃ k, g.spec.Callees u k ∧ e = g.spec.edge k := by
  have hone : ∀ u, (∃ b ∈ g.calleeRefsOf (g.interner.idOf u), g.materialize b = e) ↔
      ∃ k, g.spec.Callees u k ∧ e = g.spec.edge k := by
    intro u
    constructor
    · rintro ⟨b, hb, rfl⟩
      obtain ⟨k, hk, rfl⟩ := (hwf.mem_calleeRefsOf huniform u b).mp hb
      exact ⟨k, hk, materialize_map (hwf.interned_of_callees hk).1⟩
    · rintro ⟨k, hk, rfl⟩
      exact ⟨_, (hwf.mem_calleeRefsOf huniform u _).mpr ⟨k, hk, rfl⟩,
        materialize_map (hwf.interned_of_callees hk).1⟩
  unfold calleesOf
  simp only [List.mem_flatMap, List.mem_map]
  refine (hwf.exists_resolved name (P := fun i => ∃ b ∈ g.calleeRefsOf i, g.materialize b = e)
    ?_).trans ?_
  · intro u h
    obtain ⟨k, hk, -⟩ := (hone u).mp h
    obtain ⟨hint, rfl⟩ := hwf.interned_of_callees hk
    exact hint.1
  · exact exists_congr fun u => and_congr_right fun _ => hone u

theorem WF.mem_callersOf (hwf : WF g) (huniform : g.spec.Uniform) (name : Str)
    (e : CallGraphEdge) :
    e ∈ g.callersOf name ↔
      ∃ v, g.spec.Resolves name v ∧ ∃ k, g.spec.Callers v k ∧ e = g.spec.edge k := by
  have hone : ∀ v ∈ g.interner.strings,
      ((∃ b ∈ g.callerRefsOf (g.interner.idOf v), g.materialize b = e) ↔
        ∃ k, g.spec.Callers v k ∧ e = g.spec.edge k) := by
    intro v hv
    constructor
    · rintro ⟨b, hb, rfl⟩
      obtain ⟨k, hk, rfl⟩ := (hwf.mem_callerRefsOf huniform hv b).mp hb
      exact ⟨k, hk, materialize_map (hwf.interned_of_callers hk).1⟩
    · rintro ⟨k, hk, rfl⟩
      exact ⟨_, (hwf.mem_callerRefsOf huniform hv _).mpr ⟨k, hk, rfl⟩,
        materialize_map (hwf.interned_of_callers hk).1⟩
  unfold callersOf
  simp only [List.mem_flatMap, List.mem_map]
  by_cases hname : name ∈ g.interner.strings
  · simp only [hwf.mem_resolveUsrIds hname]
    constructor
    · rintro ⟨_, ⟨v, hv, rfl⟩, h⟩
      refine ⟨v, hv, (hone v ?_).mp h⟩
      rcases hv with ⟨-, rfl⟩ | ⟨-, n, hn, -⟩ | ⟨-, -, rfl⟩
      · exact hname
      · exact (hwf.node_usr hn).2.1
      · exact hname
    · rintro ⟨v, hv, k, hk, rfl⟩
      obtain ⟨hint, rfl⟩ := hwf.interned_of_callers hk
      exact ⟨_, ⟨_, hv, rfl⟩, (hone _ hint.2.1).mpr ⟨k, hk, rfl⟩⟩
  · rw [resolveUsrIds_unknown hname]
    refine iff_of_false (by simp) ?_
    rintro ⟨v, hv, k, hk, -⟩
    obtain ⟨hint, rfl⟩ := hwf.interned_of_callers hk
    exact hname (hwf.interned_of_resolves hv hint.2.1)

theorem WF.mem_getDerivedClasses (hwf : WF g) (base y : Str) :
    y ∈ g.getDerivedClasses base ↔ g.spec.related .derivedClass base y := by
  unfold getDerivedClasses
  by_cases hbase : base ∈ g.interner.strings
  · rw [find_eq_some.mpr ⟨hbase, rfl⟩]
    simp only [List.mem_map]
    constructor
    · rintro ⟨i, hi, rfl⟩
      obtain ⟨z, hz, rfl⟩ := (hwf.mem_relation .derivedClass base i).mp hi
      rw [resolve_idOf (hwf.interned_of_related hz).2]
      exact hz
    · intro h
      exact ⟨g.interner.idOf y, h, resolve_idOf (hwf.interned_of_related h).2⟩
  · have hfind : g.interner.find base = none := by
      cases hf : g.interner.find base with
      | none => rfl
      | some id => exact absurd (find_eq_some.mp hf).1 hbase
    rw [hfind]
    refine iff_of_false List.not_mem_nil ?_
    exact fun h => hbase (hwf.interned_of_related h).1

theorem WF.mem_relatedTo (hwf : WF g) (r : Relation) (name : Str) (i : SId) :
    i ∈ g.relatedTo (g.relation r) name ↔
      ∃ u, g.spec.Resolves name u ∧ ∃ y, g.spec.related r u y ∧ i = g.interner.idOf y := by
  have hfold : ∀ (ids seen : List SId),
      i ∈ ids.foldl (fun seen u => ((g.relation r).getD u []).foldl pushUnique seen) seen ↔
        i ∈ seen ∨ ∃ u ∈ ids, i ∈ (g.relation r).getD u [] := by
    intro ids
    induction ids with
    | nil => simp
    | cons u rest ih =>
        intro seen
        rw [List.foldl_cons, ih, mem_foldl_pushUnique]
        simp only [List.mem_cons, exists_eq_or_imp, or_assoc]
  unfold relatedTo
  rw [hfold]
  simp only [List.not_mem_nil, false_or]
  refine (hwf.exists_resolved name (P := fun u => i ∈ (g.relation r).getD u []) ?_).trans ?_
  · intro u h
    exact idOf_lt.mp (hwf.ids.related r _ _ h).1
  · exact exists_congr fun u => and_congr_right fun _ => hwf.mem_relation r u i

/-- What a relation query answers, with the way it shows an id. -/
theorem WF.mem_relatedTo_map (hwf : WF g) (r : Relation) {f : SId → Str} {f' : Str → Str}
    (hf : ∀ y ∈ g.interner.strings, f (g.interner.idOf y) = f' y) (name x : Str) :
    x ∈ (g.relatedTo (g.relation r) name).map f ↔
      ∃ u, g.spec.Resolves name u ∧ ∃ y, g.spec.related r u y ∧ x = f' y := by
  simp only [List.mem_map, hwf.mem_relatedTo]
  constructor
  · rintro ⟨_, ⟨u, hu, y, hy, rfl⟩, rfl⟩
    exact ⟨u, hu, y, hy, hf y (hwf.interned_of_related hy).2⟩
  · rintro ⟨u, hu, y, hy, rfl⟩
    exact ⟨_, ⟨u, hu, y, hy, rfl⟩, hf y (hwf.interned_of_related hy).2⟩

theorem WF.mem_getOverrides (hwf : WF g) (name x : Str) :
    x ∈ g.getOverrides name ↔ ∃ u, g.spec.Resolves name u ∧
      ∃ y, g.spec.related .methodOverride u y ∧ x = g.spec.display y :=
  hwf.mem_relatedTo_map .methodOverride (fun _ => displayFor_idOf) name x

theorem WF.mem_getClassesForImpl (hwf : WF g) (name x : Str) :
    x ∈ g.getClassesForImpl name ↔ ∃ u, g.spec.Resolves name u ∧
      ∃ y, g.spec.related .effectiveImpl u y ∧ x = y :=
  hwf.mem_relatedTo_map .effectiveImpl (fun _ => resolve_idOf) name x

theorem WF.mem_getFunctionReturns (hwf : WF g) (name x : Str) :
    x ∈ g.getFunctionReturns name ↔ ∃ u, g.spec.Resolves name u ∧
      ∃ y, g.spec.related .functionReturn u y ∧ x = g.spec.display y :=
  hwf.mem_relatedTo_map .functionReturn (fun _ => displayFor_idOf) name x

/-! ### The smallest candidate -/

/-- A candidate that no candidate is smaller than. -/
def Smallest (nodes : List CallGraphNode) (n : CallGraphNode) : Prop :=
  n ∈ nodes ∧ ∀ m ∈ nodes, ¬ m.usr < n.usr

theorem not_lt_trans {a b c : Str} (h : ¬ a < b) (h' : ¬ b < c) : ¬ a < c := by
  intro hac
  by_cases hbc : b = c
  · exact h (hbc ▸ hac)
  · have hcb : c < b := by
      by_contra hnot
      exact hbc (List.le_antisymm hnot h')
    exact h (List.lt_trans hac hcb)

theorem smaller_some (b x : CallGraphNode) :
    ∃ b', smaller (some b) x = some b' ∧ (b' = b ∨ b' = x) ∧ ¬ b.usr < b'.usr ∧
      ¬ x.usr < b'.usr := by
  unfold smaller
  by_cases hlt : x.usr < b.usr
  · refine ⟨x, if_pos hlt, Or.inr rfl, ?_, List.lt_irrefl _⟩
    exact fun hc => List.lt_irrefl _ (List.lt_trans hlt hc)
  · exact ⟨b, if_neg hlt, Or.inl rfl, List.lt_irrefl _, hlt⟩

theorem foldl_smaller (nodes : List CallGraphNode) (b : CallGraphNode) :
    ∃ n, nodes.foldl smaller (some b) = some n ∧ Smallest (b :: nodes) n := by
  induction nodes generalizing b with
  | nil =>
      refine ⟨b, rfl, List.mem_cons_self, ?_⟩
      intro m hm
      rw [List.mem_singleton.mp hm]
      exact List.lt_irrefl _
  | cons x rest ih =>
      obtain ⟨b', hb', hfrom, hb, hx⟩ := smaller_some b x
      obtain ⟨n, hn, hmem, hleast⟩ := ih b'
      have hup := hleast b' List.mem_cons_self
      refine ⟨n, by rw [List.foldl_cons, hb', hn], ?_, ?_⟩
      · rcases List.mem_cons.mp hmem with rfl | hmem
        · rcases hfrom with rfl | rfl
          · exact List.mem_cons_self
          · exact List.mem_cons_of_mem _ List.mem_cons_self
        · exact List.mem_cons_of_mem _ (List.mem_cons_of_mem _ hmem)
      · intro m hm
        rcases List.mem_cons.mp hm with rfl | hm
        · exact not_lt_trans hb hup
        · rcases List.mem_cons.mp hm with rfl | hm
          · exact not_lt_trans hx hup
          · exact hleast m (List.mem_cons_of_mem _ hm)

theorem findNode_eq_none (g : CallGraph) (name : Str) :
    g.findNode name = none ↔ (g.resolveUsrIds name).filterMap g.nodes.lookup = [] := by
  unfold findNode
  cases (g.resolveUsrIds name).filterMap g.nodes.lookup with
  | nil => simp
  | cons x rest =>
      obtain ⟨n, hn, -⟩ := foldl_smaller rest x
      rw [List.foldl_cons, show smaller none x = some x from rfl, hn]
      simp

theorem findNode_smallest {name : Str} {n : CallGraphNode} (h : g.findNode name = some n) :
    Smallest ((g.resolveUsrIds name).filterMap g.nodes.lookup) n := by
  unfold findNode at h
  cases hl : (g.resolveUsrIds name).filterMap g.nodes.lookup with
  | nil =>
      rw [hl] at h
      simp at h
  | cons x rest =>
      obtain ⟨n', hn', hleast⟩ := foldl_smaller rest x
      rw [hl, List.foldl_cons, show smaller none x = some x from rfl, hn'] at h
      injection h with h
      exact h ▸ hleast

theorem WF.mem_candidates (hwf : WF g) (name : Str) (n : CallGraphNode) :
    n ∈ (g.resolveUsrIds name).filterMap g.nodes.lookup ↔
      ∃ u, g.spec.Resolves name u ∧ g.spec.node u = some n := by
  rw [List.mem_filterMap]
  refine hwf.exists_resolved name (P := fun i => g.nodes.lookup i = some n) ?_
  exact fun u h => (hwf.node_usr h).2.1

/-! ### Graphs with the same answers -/

/-- No query tells the graphs apart, where lists of answers count as sets. -/
structure SameAnswers (g g' : CallGraph) : Prop where
  findNode : ∀ name, g.findNode name = g'.findNode name
  calleesOf : ∀ name e, e ∈ g.calleesOf name ↔ e ∈ g'.calleesOf name
  callersOf : ∀ name e, e ∈ g.callersOf name ↔ e ∈ g'.callersOf name
  getDerivedClasses : ∀ name x, x ∈ g.getDerivedClasses name ↔ x ∈ g'.getDerivedClasses name
  getOverrides : ∀ name x, x ∈ g.getOverrides name ↔ x ∈ g'.getOverrides name
  getClassesForImpl : ∀ name x, x ∈ g.getClassesForImpl name ↔ x ∈ g'.getClassesForImpl name
  getFunctionReturns : ∀ name x, x ∈ g.getFunctionReturns name ↔ x ∈ g'.getFunctionReturns name

theorem WF.findNode_eq {g' : CallGraph} (hwf : WF g) (hwf' : WF g') (hspec : g.spec = g'.spec)
    (name : Str) : g.findNode name = g'.findNode name := by
  have hsame : ∀ n, n ∈ (g.resolveUsrIds name).filterMap g.nodes.lookup ↔
      n ∈ (g'.resolveUsrIds name).filterMap g'.nodes.lookup := by
    intro n
    rw [hwf.mem_candidates, hwf'.mem_candidates, hspec]
  cases h : g.findNode name with
  | none =>
      have hnil := (findNode_eq_none g name).mp h
      refine ((findNode_eq_none g' name).mpr ?_).symm
      refine List.eq_nil_iff_forall_not_mem.mpr fun n hn => ?_
      have := (hsame n).mpr hn
      rw [hnil] at this
      exact absurd this List.not_mem_nil
  | some n =>
      obtain ⟨hn, hleast⟩ := findNode_smallest h
      cases h' : g'.findNode name with
      | none =>
          have hnil := (findNode_eq_none g' name).mp h'
          have := (hsame n).mp hn
          rw [hnil] at this
          exact absurd this List.not_mem_nil
      | some n' =>
          obtain ⟨hn', hleast'⟩ := findNode_smallest h'
          have husr : n.usr = n'.usr :=
            List.le_antisymm (hleast n' ((hsame n').mpr hn')) (hleast' n ((hsame n).mp hn))
          obtain ⟨u, -, hu⟩ := (hwf.mem_candidates name n).mp hn
          obtain ⟨u', -, hu'⟩ := (hwf'.mem_candidates name n').mp hn'
          rw [hspec] at hu
          have h₁ := (hwf'.node_usr hu).1
          have h₂ := (hwf'.node_usr hu').1
          rw [← h₁, husr, h₂, hu'] at hu
          exact hu.symm

/-- **The abstract graph determines every answer**, when expansions do not disagree. -/
theorem WF.sameAnswers {g' : CallGraph} (hwf : WF g) (hwf' : WF g') (hspec : g.spec = g'.spec)
    (huniform : g.spec.Uniform) : SameAnswers g g' where
  findNode := hwf.findNode_eq hwf' hspec
  calleesOf name e := by
    rw [hwf.mem_calleesOf huniform, hwf'.mem_calleesOf (hspec ▸ huniform), hspec]
  callersOf name e := by
    rw [hwf.mem_callersOf huniform, hwf'.mem_callersOf (hspec ▸ huniform), hspec]
  getDerivedClasses name x := by
    rw [hwf.mem_getDerivedClasses, hwf'.mem_getDerivedClasses, hspec]
  getOverrides name x := by
    rw [hwf.mem_getOverrides, hwf'.mem_getOverrides, hspec]
  getClassesForImpl name x := by
    rw [hwf.mem_getClassesForImpl, hwf'.mem_getClassesForImpl, hspec]
  getFunctionReturns name x := by
    rw [hwf.mem_getFunctionReturns, hwf'.mem_getFunctionReturns, hspec]

end CallGraph
end Vycor
