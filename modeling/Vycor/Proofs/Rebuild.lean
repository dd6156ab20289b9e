/-
Incremental refresh against a full rebuild.

A refresh removes some TUs and registers the new contribution of some of them, in place or
through a shard.  The graph it leaves is compared with one built from the contributions
that are current then.

Removal takes back edge registrations and contributors exactly.  It cannot take back two
things.  A relation has no owner: its pairs stay until the graph is rebuilt.  A node keeps
what a removed TU merged into its fields while another TU still contributes it.  `Restores`
says that a refresh is not caught by either, and that the rebuilt edges do not leave the
expansion queries a choice; under it the two graphs answer every query alike, at every
point of every run.
-/
import Vycor.Proofs.Queries

namespace Vycor

/-! ### What a list of registrations amounts to -/

namespace Call

/-- The key of the edge a call registers. -/
def edgeKey : Call → Option (EdgeKey Str)
  | edge e _ => some e.key
  | _ => none

/-- The usr of the node a call registers. -/
def nodeUsr : Call → Option Str
  | node n _ => some n.withUsr.usr
  | _ => none

/-- The pair a call adds to a relation. -/
def relates : Call → Option (Relation × Str × Str)
  | derivedClass a b _ => some (.derivedClass, a, b)
  | methodOverride a b _ => some (.methodOverride, a, b)
  | effectiveImpl a b _ => some (.effectiveImpl, b, a)
  | functionReturn a b _ => some (.functionReturn, a, b)
  | _ => none

/-- What a call makes of the node of `u`. -/
def mergeInto (u : Str) (old : Option CallGraphNode) : Call → Option CallGraphNode
  | node n _ => if u = n.withUsr.usr then some (n.withUsr.onto old) else old
  | _ => old

/-- The node of `u` after the calls. -/
def merged (u : Str) (calls : List Call) : Option CallGraphNode := calls.foldl (mergeInto u) none

theorem mergeInto_of_ne {u : Str} {c : Call} (h : c.nodeUsr ≠ some u) (old : Option CallGraphNode) :
    c.mergeInto u old = old := by
  cases c with
  | node n tu => exact if_neg fun hc => h (congrArg some hc.symm)
  | edge e tu => rfl
  | derivedClass a b tu => rfl
  | methodOverride a b tu => rfl
  | effectiveImpl a b tu => rfl
  | functionReturn a b tu => rfl

theorem foldl_mergeInto_of_none {u : Str} {calls : List Call}
    (h : ∀ c ∈ calls, c.nodeUsr ≠ some u) (old : Option CallGraphNode) :
    calls.foldl (mergeInto u) old = old := by
  induction calls with
  | nil => rfl
  | cons c rest ih =>
      rw [List.foldl_cons, mergeInto_of_ne (h c List.mem_cons_self)]
      exact ih fun d hd => h d (List.mem_cons_of_mem _ hd)

end Call

namespace GraphSpec

theorem register_node (calls : List Call) (s : GraphSpec) (u : Str) :
    (s.register calls).node u = calls.foldl (Call.mergeInto u) (s.node u) := by
  induction calls generalizing s with
  | nil => rfl
  | cons c rest ih =>
      refine (ih (c.spec s)).trans ?_
      cases c <;> rfl

theorem register_refs (calls : List Call) (s : GraphSpec) (k : EdgeKey Str) :
    (s.register calls).refs k = s.refs k + calls.countP fun c => c.edgeKey = some k := by
  induction calls generalizing s with
  | nil => rfl
  | cons c rest ih =>
      have hone : (c.spec s).refs k = s.refs k + if c.edgeKey = some k then 1 else 0 := by
        cases c with
        | edge e tu =>
            show s.refs k + (if k = e.key then 1 else 0)
              = s.refs k + if some e.key = some k then 1 else 0
            simp only [Option.some.injEq, eq_comm]
        | _ => rfl
      refine (ih (c.spec s)).trans ?_
      rw [hone, List.countP_cons]
      simp only [decide_eq_true_eq]
      omega

theorem register_untagged (calls : List Call) (s : GraphSpec) (k : EdgeKey Str) :
    (s.register calls).untagged k
      = s.untagged k + calls.countP fun c => c.edgeKey = some k ∧ c.tu = [] := by
  induction calls generalizing s with
  | nil => rfl
  | cons c rest ih =>
      have hone : (c.spec s).untagged k
          = s.untagged k + if c.edgeKey = some k ∧ c.tu = [] then 1 else 0 := by
        cases c with
        | edge e tu =>
            show s.untagged k + (if k = e.key ∧ tu = [] then 1 else 0)
              = s.untagged k + if some e.key = some k ∧ tu = [] then 1 else 0
            simp only [Option.some.injEq, eq_comm (a := k)]
        | _ => simp [Call.spec, Call.edgeKey, addNode, relate]
      refine (ih (c.spec s)).trans ?_
      rw [hone, List.countP_cons]
      simp only [decide_eq_true_eq]
      omega

theorem register_reg (calls : List Call) (s : GraphSpec) (t : Str) (k : EdgeKey Str) :
    (s.register calls).reg t k
      = s.reg t k + calls.countP fun c => c.edgeKey = some k ∧ c.tu ≠ [] ∧ t = c.tu := by
  induction calls generalizing s with
  | nil => rfl
  | cons c rest ih =>
      have hone : (c.spec s).reg t k
          = s.reg t k + if c.edgeKey = some k ∧ c.tu ≠ [] ∧ t = c.tu then 1 else 0 := by
        cases c with
        | edge e tu =>
            show s.reg t k + (if k = e.key ∧ tu ≠ [] ∧ t = tu then 1 else 0)
              = s.reg t k + if some e.key = some k ∧ tu ≠ [] ∧ t = tu then 1 else 0
            simp only [Option.some.injEq, eq_comm (a := k)]
        | _ => simp [Call.spec, Call.edgeKey, addNode, relate]
      refine (ih (c.spec s)).trans ?_
      rw [hone, List.countP_cons]
      simp only [decide_eq_true_eq]
      omega

theorem register_contributors (calls : List Call) (s : GraphSpec) (u t : Str) :
    t ∈ (s.register calls).contributors u ↔
      t ∈ s.contributors u ∨ ∃ c ∈ calls, c.nodeUsr = some u ∧ c.tu = t ∧ t ≠ [] := by
  induction calls generalizing s with
  | nil => simp [register]
  | cons c rest ih =>
      have hone : t ∈ (c.spec s).contributors u ↔
          t ∈ s.contributors u ∨ (c.nodeUsr = some u ∧ c.tu = t ∧ t ≠ []) := by
        cases c with
        | node n tu =>
            show t ∈ (if u = n.withUsr.usr ∧ tu ≠ [] then insert tu (s.contributors u)
              else s.contributors u) ↔ _ ∨ (some n.withUsr.usr = some u ∧ tu = t ∧ t ≠ [])
            by_cases h : u = n.withUsr.usr ∧ tu ≠ []
            · rw [if_pos h, Set.mem_insert_iff, Option.some.injEq]
              constructor
              · rintro (rfl | hin)
                · exact Or.inr ⟨h.1.symm, rfl, h.2⟩
                · exact Or.inl hin
              · rintro (hin | ⟨-, rfl, -⟩)
                · exact Or.inr hin
                · exact Or.inl rfl
            · rw [if_neg h, Option.some.injEq]
              constructor
              · exact Or.inl
              · rintro (hin | ⟨hu, rfl, hne⟩)
                · exact hin
                · exact absurd ⟨hu.symm, hne⟩ h
        | _ => simp [Call.spec, Call.nodeUsr, addEdge, relate]
      refine (ih (c.spec s)).trans ?_
      rw [hone]
      simp only [List.mem_cons, exists_eq_or_imp, or_assoc]

theorem register_related (calls : List Call) (s : GraphSpec) (r : Relation) (x y : Str) :
    (s.register calls).related r x y ↔
      s.related r x y ∨ ∃ c ∈ calls, c.relates = some (r, x, y) := by
  induction calls generalizing s with
  | nil => simp [register]
  | cons c rest ih =>
      have hone : (c.spec s).related r x y ↔ s.related r x y ∨ c.relates = some (r, x, y) := by
        cases c <;>
          simp [Call.spec, Call.relates, relate, addNode, addEdge, eq_comm (a := r),
            eq_comm (a := x), eq_comm (a := y)]
      refine (ih (c.spec s)).trans ?_
      rw [hone]
      simp only [List.mem_cons, exists_eq_or_imp, or_assoc]

/-! ### Removal from a log -/

/-- The calls that removing TUs leaves. -/
def kept (calls : List Call) (tus : List Str) : List Call := calls.filter (·.tu ∉ tus)

/-- `s` has the registrations and the contributors of the log, and no node without one. -/
structure Logged (s : GraphSpec) (calls : List Call) : Prop where
  refs : s.refs = (empty.register calls).refs
  untagged : s.untagged = (empty.register calls).untagged
  reg : s.reg = (empty.register calls).reg
  contributors : s.contributors = (empty.register calls).contributors
  node : ∀ u, s.contributors u = ∅ → s.node u = none

theorem Logged.start {calls : List Call} (htagged : ∀ c ∈ calls, c.tu ≠ []) :
    Logged (empty.register calls) calls := by
  refine ⟨rfl, rfl, rfl, rfl, ?_⟩
  intro u hempty
  rw [register_node]
  refine Call.foldl_mergeInto_of_none ?_ none
  intro c hc hu
  have hmem : c.tu ∈ (empty.register calls).contributors u :=
    (register_contributors calls empty u c.tu).mpr (Or.inr ⟨c, hc, hu, rfl, htagged c hc⟩)
  rw [hempty] at hmem
  exact hmem

/-- Merging two logs' graphs is one graph of both logs. -/
theorem Logged.merge {s t : GraphSpec} {calls more : List Call} (h : Logged s calls)
    (h' : Logged t more) : Logged (s.merge t) (calls ++ more) := by
  refine ⟨?_, ?_, ?_, ?_, ?_⟩
  · funext k
    show s.refs k + t.refs k = _
    rw [h.refs, h'.refs, register_refs, register_refs, register_refs, List.countP_append]
    exact (Nat.add_add_add_comm 0 _ 0 _)
  · funext k
    show s.untagged k + t.untagged k = _
    rw [h.untagged, h'.untagged, register_untagged, register_untagged, register_untagged,
      List.countP_append]
    exact (Nat.add_add_add_comm 0 _ 0 _)
  · funext tu k
    show s.reg tu k + t.reg tu k = _
    rw [h.reg, h'.reg, register_reg, register_reg, register_reg, List.countP_append]
    exact (Nat.add_add_add_comm 0 _ 0 _)
  · funext u
    refine Set.ext fun tu => ?_
    show tu ∈ s.contributors u ∪ t.contributors u ↔ _
    rw [h.contributors, h'.contributors, Set.mem_union, register_contributors,
      register_contributors, register_contributors]
    have hno : tu ∈ empty.contributors u ↔ False := iff_of_false (Set.notMem_empty tu) id
    simp only [hno, false_or, List.mem_append, or_and_right, exists_or]
  · intro u hempty
    obtain ⟨hs, ht⟩ := Set.union_empty_iff.mp hempty
    show mergedNode (s.node u) (t.node u) = none
    rw [h.node u hs, h'.node u ht]
    rfl

/-- Removing a TU from a log's graph leaves the filtered log's registrations; a node stays
as it was while it has a contributor. -/
theorem Logged.removeTU {s : GraphSpec} {calls : List Call} (h : Logged s calls)
    (htagged : ∀ c ∈ calls, c.tu ≠ []) (tu : Str) :
    Logged (s.removeTU tu) (calls.filter (·.tu ≠ tu)) ∧
    ∀ u, (s.removeTU tu).node u
      = open Classical in if (s.removeTU tu).contributors u = ∅ then none else s.node u := by
  have hnode : ∀ u, (s.removeTU tu).node u
      = open Classical in if (s.removeTU tu).contributors u = ∅ then none else s.node u := by
    intro u
    show (open Classical in
        if tu ∈ s.contributors u ∧ s.contributors u ⊆ {tu} then none else s.node u)
      = open Classical in if s.contributors u \ {tu} = ∅ then none else s.node u
    by_cases hsub : s.contributors u ⊆ {tu}
    · have hdiff : s.contributors u \ {tu} = ∅ := Set.sdiff_eq_empty.mpr hsub
      rw [if_pos hdiff]
      by_cases hmem : tu ∈ s.contributors u
      · exact if_pos ⟨hmem, hsub⟩
      · rw [if_neg fun hc => hmem hc.1]
        refine h.node u (Set.eq_empty_iff_forall_notMem.mpr fun x hx => ?_)
        exact hmem (hsub hx ▸ hx)
    · have hdiff : s.contributors u \ {tu} ≠ ∅ := fun hc => hsub (Set.sdiff_eq_empty.mp hc)
      rw [if_neg hdiff, if_neg fun hc => hsub hc.2]
  refine ⟨⟨?_, ?_, ?_, ?_, ?_⟩, hnode⟩
  · funext k
    show s.refs k - s.reg tu k = _
    rw [h.refs, h.reg, register_refs, register_refs, register_reg]
    have hsplit := List.countP_eq_countP_filter_add calls (fun c => c.edgeKey = some k)
      (fun c => c.tu ≠ tu)
    have hgone : calls.countP (fun c => c.edgeKey = some k ∧ c.tu ≠ [] ∧ tu = c.tu)
        = (calls.filter fun c => ¬ c.tu ≠ tu).countP fun c => c.edgeKey = some k := by
      rw [List.countP_filter]
      refine List.countP_congr fun c hc => ?_
      have := htagged c hc
      simp only [decide_eq_true_eq, Bool.and_eq_true, not_not]
      constructor
      · rintro ⟨hk, -, ht⟩
        exact ⟨hk, ht.symm⟩
      · rintro ⟨hk, ht⟩
        exact ⟨hk, this, ht.symm⟩
    simp only [decide_not] at hsplit hgone ⊢
    show 0 + _ - (0 + _) = 0 + _
    omega
  · funext k
    show s.untagged k = _
    rw [h.untagged, register_untagged, register_untagged]
    have hzero : ∀ l : List Call, (∀ c ∈ l, c.tu ≠ []) →
        l.countP (fun c => c.edgeKey = some k ∧ c.tu = []) = 0 := by
      intro l hl
      refine List.countP_eq_zero.mpr fun c hc => ?_
      simp [hl c hc]
    rw [hzero _ htagged, hzero _ fun c hc => htagged c (List.mem_of_mem_filter hc)]
  · funext t k
    show (if t = tu then 0 else s.reg t k) = _
    rw [h.reg, register_reg, register_reg, List.countP_filter]
    by_cases ht : t = tu
    · rw [if_pos ht]
      refine Eq.symm ((Nat.zero_add _).trans (List.countP_eq_zero.mpr fun c hc => ?_))
      simp only [decide_eq_true_eq, Bool.and_eq_true, not_and]
      rintro ⟨-, -, rfl⟩ hne
      exact hne ht
    · rw [if_neg ht]
      refine congrArg _ (List.countP_congr fun c hc => ?_)
      simp only [decide_eq_true_eq, Bool.and_eq_true]
      constructor
      · rintro ⟨hk, hne, rfl⟩
        exact ⟨⟨hk, hne, rfl⟩, ht⟩
      · exact fun hc => hc.1
  · funext u
    refine Set.ext fun t => ?_
    show t ∈ s.contributors u \ {tu} ↔ _
    rw [h.contributors, Set.mem_sdiff, register_contributors, register_contributors]
    simp only [Set.mem_singleton_iff, List.mem_filter, decide_eq_true_eq]
    constructor
    · rintro ⟨hin | ⟨c, hc, hu, rfl, hne⟩, ht⟩
      · exact Or.inl hin
      · exact Or.inr ⟨c, ⟨hc, ht⟩, hu, rfl, hne⟩
    · rintro (hin | ⟨c, ⟨hc, ht⟩, hu, rfl, hne⟩)
      · exact absurd hin (Set.notMem_empty t)
      · exact ⟨Or.inr ⟨c, hc, hu, rfl, hne⟩, ht⟩
  · intro u hempty
    rw [hnode]
    exact if_pos hempty

theorem kept_cons (calls : List Call) (tu : Str) (rest : List Str) :
    kept (calls.filter (·.tu ≠ tu)) rest = kept calls (tu :: rest) := by
  unfold kept
  rw [List.filter_filter]
  refine List.filter_congr fun c _ => ?_
  simp only [List.mem_cons, not_or, Bool.decide_and, Bool.and_comm, ne_eq]

theorem Logged.removeTUs (tus : List Str) :
    ∀ {s : GraphSpec} {calls : List Call}, Logged s calls → (∀ c ∈ calls, c.tu ≠ []) →
      Logged (s.removeTUs tus) (kept calls tus) ∧
      (∀ u, (s.removeTUs tus).node u
        = open Classical in if (s.removeTUs tus).contributors u = ∅ then none else s.node u) ∧
      (s.removeTUs tus).related = s.related := by
  induction tus with
  | nil =>
      intro s calls h _
      have hall : kept calls [] = calls := by simp [kept]
      rw [hall]
      refine ⟨h, ?_, rfl⟩
      intro u
      show s.node u = open Classical in if s.contributors u = ∅ then none else s.node u
      by_cases hempty : s.contributors u = ∅
      · rw [if_pos hempty]
        exact h.node u hempty
      · rw [if_neg hempty]
  | cons tu rest ih =>
      intro s calls h htagged
      obtain ⟨h', hnode'⟩ := h.removeTU htagged tu
      obtain ⟨h'', hnode'', hrel''⟩ := ih h' fun c hc => htagged c (List.mem_of_mem_filter hc)
      rw [kept_cons] at h''
      refine ⟨h'', ?_, hrel''⟩
      intro u
      refine (hnode'' u).trans ?_
      show (open Classical in if (GraphSpec.removeTUs (s.removeTU tu) rest).contributors u = ∅
        then none else (s.removeTU tu).node u) = open Classical in
          if (GraphSpec.removeTUs (s.removeTU tu) rest).contributors u = ∅ then none else s.node u
      by_cases hempty : (GraphSpec.removeTUs (s.removeTU tu) rest).contributors u = ∅
      · rw [if_pos hempty, if_pos hempty]
      · rw [if_neg hempty, if_neg hempty, hnode', if_neg]
        -- contributors only shrink
        intro hnone
        refine hempty (Set.eq_empty_iff_forall_notMem.mpr fun x hx => ?_)
        rw [h''.contributors, register_contributors, ← kept_cons] at hx
        rcases hx with hx | ⟨c, hc, hu, rfl, hne⟩
        · exact hx
        · have hin : c.tu ∈ (s.removeTU tu).contributors u := by
            rw [h'.contributors, register_contributors]
            exact Or.inr ⟨c, List.mem_of_mem_filter hc, hu, rfl, hne⟩
          rw [hnone] at hin
          exact hin

/-! ### A refresh in the abstract

A removal takes back registrations and contributors, but not what a registration
filled in in a node that stays, and no pair of a relation. The condition says
that none of these is to be missed.
-/

/-- A refresh of the log is not caught by what removal cannot take back. -/
structure Restores (old : List Call) (removed : List Str) (new : List Call) : Prop where
  related : ∀ c ∈ old, c.tu ∈ removed → ∀ p ∈ c.relates, ∃ d ∈ kept old removed ++ new, p ∈ d.relates
  node : ∀ c ∈ kept old removed, ∀ u ∈ c.nodeUsr,
    Call.merged u (old ++ new) = Call.merged u (kept old removed ++ new)

/-- Under that condition the refreshed graph is the rebuilt one. -/
theorem Restores.spec_eq {old : List Call} {removed : List Str} {new : List Call}
    (h : Restores old removed new) (htagged : ∀ c ∈ old, c.tu ≠ []) :
    ((empty.register old).removeTUs removed).register new
      = empty.register (kept old removed ++ new) := by
  obtain ⟨hlog, hnode, hrelated⟩ := (Logged.start htagged).removeTUs removed htagged
  have happend : empty.register (kept old removed ++ new)
      = (empty.register (kept old removed)).register new := List.foldl_append
  refine GraphSpec.ext ?_ ?_ ?_ ?_ ?_ ?_
  · funext u
    rw [register_node new, hnode, happend, register_node new, register_node (kept old removed)]
    by_cases hempty : ((empty.register old).removeTUs removed).contributors u = ∅
    · -- the node went with its last contributor, and no kept call registers it
      have hnone : ∀ c ∈ kept old removed, c.nodeUsr ≠ some u := by
        intro c hc hu
        have hmem : c.tu ∈ ((empty.register old).removeTUs removed).contributors u := by
          rw [hlog.contributors, register_contributors]
          exact Or.inr ⟨c, hc, hu, rfl, htagged c (List.mem_of_mem_filter hc)⟩
        rw [hempty] at hmem
        exact hmem
      rw [if_pos hempty, Call.foldl_mergeInto_of_none hnone]
      rfl
    · rw [if_neg hempty, register_node]
      obtain ⟨t, ht⟩ := Set.nonempty_iff_ne_empty.mpr hempty
      rw [hlog.contributors, register_contributors] at ht
      rcases ht with ht | ⟨c, hc, hu, -⟩
      · exact absurd ht (Set.notMem_empty t)
      · have hmerged := h.node c hc u hu
        unfold Call.merged at hmerged
        rw [List.foldl_append, List.foldl_append] at hmerged
        exact hmerged
  · funext u
    refine Set.ext fun t => ?_
    rw [register_contributors, hlog.contributors, happend, register_contributors new]
  · funext k
    rw [register_refs, hlog.refs, happend, register_refs new]
  · funext k
    rw [register_untagged, hlog.untagged, happend, register_untagged new]
  · funext t k
    rw [register_reg, hlog.reg, happend, register_reg new]
  · funext r x y
    refine propext ?_
    rw [register_related, hrelated, register_related, register_related]
    constructor
    · rintro ((hno | ⟨c, hc, hp⟩) | ⟨c, hc, hp⟩)
      · exact Or.inl hno
      · by_cases hin : c.tu ∈ removed
        · exact Or.inr (h.related c hc hin (r, x, y) hp)
        · exact Or.inr ⟨c, List.mem_append_left _
            (List.mem_filter.mpr ⟨hc, by simpa using hin⟩), hp⟩
      · exact Or.inr ⟨c, List.mem_append_right _ hc, hp⟩
    · rintro (hno | ⟨c, hc, hp⟩)
      · exact Or.inl (Or.inl hno)
      · rcases List.mem_append.mp hc with hc | hc
        · exact Or.inl (Or.inr ⟨c, List.mem_of_mem_filter hc, hp⟩)
        · exact Or.inr ⟨c, hc, hp⟩

/-- A rebuild may register the same calls in another order, if the nodes merge the same. -/
theorem register_perm {calls order : List Call} (h : order.Perm calls)
    (hnode : ∀ u, Call.merged u order = Call.merged u calls) :
    empty.register order = empty.register calls := by
  refine GraphSpec.ext ?_ ?_ ?_ ?_ ?_ ?_
  · funext u
    rw [register_node, register_node]
    exact hnode u
  · funext u
    refine Set.ext fun t => ?_
    rw [register_contributors, register_contributors]
    simp only [h.mem_iff]
  · funext k
    rw [register_refs, register_refs, h.countP_eq]
  · funext k
    rw [register_untagged, register_untagged, h.countP_eq]
  · funext t k
    rw [register_reg, register_reg, h.countP_eq]
  · funext r x y
    refine propext ?_
    rw [register_related, register_related]
    simp only [h.mem_iff]

/-- Without dispatches and function returns there is nothing to expand. -/
theorem uniform_of_direct {calls : List Call} (h : ∀ c ∈ calls, ∀ k ∈ c.edgeKey,
    k.kind ≠ .virtualDispatch ∧ k.kind ≠ .functionPointerReturn) :
    (empty.register calls).Uniform := by
  have hlive : ∀ k, (empty.register calls).Live k →
      k.kind ≠ .virtualDispatch ∧ k.kind ≠ .functionPointerReturn := by
    intro k hk
    unfold Live at hk
    rw [register_refs] at hk
    have hpos : 0 < calls.countP fun c => c.edgeKey = some k := by
      have hzero : empty.refs k = 0 := rfl
      omega
    obtain ⟨c, hc, hck⟩ := List.countP_pos_iff.mp hpos
    exact h c hc k (by simpa using hck)
  refine ⟨?_, ?_⟩
  · intro d e t hd
    exact absurd hd.2.1 (hlive d hd.1).1
  · intro d e t hd
    exact absurd hd.2.1 (hlive d hd.1).2

end GraphSpec

/-! ### Refreshes -/

/-- What parsing a TU registers: calls tagged with its path. -/
structure Contribution where
  tu : Str
  calls : List Call
  named : tu ≠ []
  tagged : ∀ c ∈ calls, c.tu = tu

/-- One warm refresh: the TUs taken out, and the contributions of those that are not gone,
each registered in place or through a shard. -/
structure Refresh where
  removed : List Str
  added : List (Contribution × Bool)
  known : ∀ c ∈ added, c.1.tu ∈ removed
  once : (added.map (·.1.tu)).Nodup

/-- All calls of some contributions, in order. -/
def callsOf (cs : List Contribution) : List Call := cs.flatMap (·.calls)

/-- The graph built from scratch. -/
def rebuild (cs : List Contribution) : CallGraph := ({} : CallGraph).register (callsOf cs)

/-- A contribution is registered in place, or in a shard that is absorbed. -/
def addContribution (g : CallGraph) (c : Contribution × Bool) : CallGraph :=
  if c.2 then g.absorb (({} : CallGraph).register c.1.calls) else g.register c.1.calls

namespace Refresh

/-- The refresh on the graph. -/
def run (g : CallGraph) (r : Refresh) : CallGraph :=
  r.added.foldl addContribution (g.removeTUs r.removed).1

/-- The contributions that are current after a refresh. -/
def current (cs : List Contribution) (r : Refresh) : List Contribution :=
  cs.filter (·.tu ∉ r.removed) ++ r.added.map (·.1)

/-- The refresh is not caught by what removal cannot take back. -/
def Restores (cs : List Contribution) (r : Refresh) : Prop :=
  GraphSpec.Restores (callsOf cs) r.removed (callsOf (r.added.map (·.1)))

end Refresh

/-- The expansion queries have no choice between the edges of these contributions. -/
def Unambiguous (cs : List Contribution) : Prop :=
  (GraphSpec.empty.register (callsOf cs)).Uniform

/-- Every refresh of a run restores what it removes, and no state of it is ambiguous. -/
def RestoresAll : List Contribution → List Refresh → Prop
  | cs, [] => Unambiguous cs
  | cs, r :: rest => Unambiguous cs ∧ r.Restores cs ∧ RestoresAll (r.current cs) rest

theorem tagged_callsOf (cs : List Contribution) : ∀ c ∈ callsOf cs, c.tu ≠ [] := by
  intro c hc
  obtain ⟨x, -, hx⟩ := List.mem_flatMap.mp hc
  rw [x.tagged c hx]
  exact x.named

theorem callsOf_current (cs : List Contribution) (r : Refresh) :
    callsOf (r.current cs)
      = GraphSpec.kept (callsOf cs) r.removed ++ callsOf (r.added.map (·.1)) := by
  have hkept : callsOf (cs.filter (·.tu ∉ r.removed)) = GraphSpec.kept (callsOf cs) r.removed := by
    induction cs with
    | nil => rfl
    | cons c rest ih =>
        unfold callsOf GraphSpec.kept at ih ⊢
        rw [List.flatMap_cons, List.filter_append, ← ih]
        by_cases hin : c.tu ∈ r.removed
        · have hnone : c.calls.filter (·.tu ∉ r.removed) = [] := by
            refine List.filter_eq_nil_iff.mpr fun d hd => ?_
            simp [c.tagged d hd, hin]
          rw [List.filter_cons_of_neg (by simpa using hin), hnone, List.nil_append]
        · have hall : c.calls.filter (·.tu ∉ r.removed) = c.calls := by
            refine List.filter_eq_self.mpr fun d hd => ?_
            simp [c.tagged d hd, hin]
          rw [List.filter_cons_of_pos (by simpa using hin), hall, List.flatMap_cons]
  unfold Refresh.current
  rw [← hkept]
  exact List.flatMap_append

theorem addContributions_wf_spec (added : List (Contribution × Bool)) {g : CallGraph}
    (hwf : g.WF) :
    (added.foldl addContribution g).WF ∧
    (added.foldl addContribution g).spec = g.spec.register (callsOf (added.map (·.1))) := by
  induction added generalizing g with
  | nil => exact ⟨hwf, rfl⟩
  | cons c rest ih =>
      have hone : (addContribution g c).WF ∧
          (addContribution g c).spec = g.spec.register c.1.calls := by
        obtain ⟨hdirect, hspec⟩ := CallGraph.register_wf_spec c.1.calls hwf
        obtain ⟨habsorb, hspec'⟩ := CallGraph.absorb_register_wf_spec hwf c.1.calls
        unfold addContribution
        split
        · exact ⟨habsorb, hspec'.trans hspec⟩
        · exact ⟨hdirect, hspec⟩
      obtain ⟨hwf', hspec'⟩ := ih hone.1
      refine ⟨hwf', ?_⟩
      rw [List.foldl_cons, hspec', hone.2]
      exact (List.foldl_append).symm

theorem rebuild_wf_spec (cs : List Contribution) :
    (rebuild cs).WF ∧ (rebuild cs).spec = GraphSpec.empty.register (callsOf cs) := by
  obtain ⟨hwf, hspec⟩ := CallGraph.register_wf_spec (callsOf cs) CallGraph.wf_empty
  refine ⟨hwf, ?_⟩
  rw [CallGraph.spec_empty] at hspec
  exact hspec

/-- One refresh that restores what it removes leaves the rebuilt abstract graph. -/
theorem Refresh.run_wf_spec {cs : List Contribution} {r : Refresh} (h : r.Restores cs)
    {g : CallGraph} (hwf : g.WF) (hspec : g.spec = GraphSpec.empty.register (callsOf cs)) :
    (r.run g).WF ∧ (r.run g).spec = GraphSpec.empty.register (callsOf (r.current cs)) := by
  obtain ⟨hwf₁, hspec₁⟩ := CallGraph.removeTUs_wf_spec hwf r.removed
  obtain ⟨hwf₂, hspec₂⟩ := addContributions_wf_spec r.added hwf₁
  refine ⟨hwf₂, hspec₂.trans ?_⟩
  rw [hspec₁, hspec, callsOf_current]
  exact GraphSpec.Restores.spec_eq h (tagged_callsOf cs)

theorem run_wf_spec (steps : List Refresh) {cs : List Contribution} (h : RestoresAll cs steps)
    {g : CallGraph} (hwf : g.WF) (hspec : g.spec = GraphSpec.empty.register (callsOf cs)) :
    (steps.foldl Refresh.run g).WF ∧
    (steps.foldl Refresh.run g).spec
      = GraphSpec.empty.register (callsOf (steps.foldl Refresh.current cs)) := by
  induction steps generalizing cs g with
  | nil => exact ⟨hwf, hspec⟩
  | cons r rest ih =>
      obtain ⟨hwf', hspec'⟩ := r.run_wf_spec h.2.1 hwf hspec
      exact ih h.2.2 hwf' hspec'

theorem RestoresAll.unambiguous {cs : List Contribution} {steps : List Refresh}
    (h : RestoresAll cs steps) : Unambiguous (steps.foldl Refresh.current cs) := by
  induction steps generalizing cs with
  | nil => exact h
  | cons r rest ih => exact ih h.2.2

theorem RestoresAll.take {cs : List Contribution} {steps : List Refresh}
    (h : RestoresAll cs steps) (n : Nat) : RestoresAll cs (steps.take n) := by
  induction steps generalizing cs n with
  | nil =>
      rw [List.take_nil]
      exact h
  | cons r rest ih =>
      cases n with
      | zero => exact h.1
      | succ n => exact ⟨h.1, h.2.1, ih h.2.2 n⟩

/-- **A refreshed graph answers like a rebuilt one**, at every point of a run whose
refreshes restore what they remove, whatever order the rebuild takes the contributions in
as long as node fields merge to the same values. -/
theorem refresh_matches_rebuild (initial : List Contribution) (steps : List Refresh)
    (h : RestoresAll initial steps) (n : Nat) (order : List Contribution)
    (hperm : order.Perm ((steps.take n).foldl Refresh.current initial))
    (hmerge : ∀ u, Call.merged u (callsOf order)
      = Call.merged u (callsOf ((steps.take n).foldl Refresh.current initial))) :
    CallGraph.SameAnswers ((steps.take n).foldl Refresh.run (rebuild initial)) (rebuild order) := by
  obtain ⟨hwf, hspec⟩ := rebuild_wf_spec initial
  obtain ⟨hwf', hspec'⟩ := run_wf_spec (steps.take n) (h.take n) hwf hspec
  obtain ⟨hwfOrder, hspecOrder⟩ := rebuild_wf_spec order
  have hcalls : (callsOf order).Perm (callsOf ((steps.take n).foldl Refresh.current initial)) :=
    hperm.flatMap_right _
  rw [GraphSpec.register_perm hcalls hmerge] at hspecOrder
  refine hwf'.sameAnswers hwfOrder (hspec'.trans hspecOrder.symm) ?_
  rw [hspec']
  exact (h.take n).unambiguous

/-- A header function registered by two TUs; one of them is parsed again and now calls
another function. -/
def sharedHeader (callee : Str) : Contribution where
  tu := [97]
  calls :=
    [.node { qualifiedName := [102], file := [104], line := 3 } [97],
      .edge { callerName := [102], calleeName := callee, kind := .directCall
              confidence := .Proven, callSite := [49] } [97]]
  named := by decide
  tagged := by simp [Call.tu]

/-- A second TU that has the header's function. -/
def otherUser : Contribution where
  tu := [98]
  calls := [.node { qualifiedName := [102], file := [104], line := 3 } [98]]
  named := by decide
  tagged := by decide

/-- The first TU is parsed again, and calls another function. -/
def reparse : Refresh where
  removed := [[97]]
  added := [(sharedHeader [120], true)]
  known := by decide
  once := by decide

theorem refresh_matches_rebuild_shared_header :
    CallGraph.SameAnswers (reparse.run (rebuild [sharedHeader [103], otherUser]))
      (rebuild [otherUser, sharedHeader [120]]) :=
  refresh_matches_rebuild [sharedHeader [103], otherUser] [reparse]
    ⟨GraphSpec.uniform_of_direct (by decide), ⟨by decide, by decide⟩,
      GraphSpec.uniform_of_direct (by decide)⟩
    1 [otherUser, sharedHeader [120]] (List.Perm.refl _) (fun _ => rfl)

/-- A TU that derives one class from another, and its refresh after the base is gone. -/
def derives : Contribution where
  tu := [97]
  calls := [.derivedClass [66] [68] [97]]
  named := by decide
  tagged := by decide

/-- The TU is parsed again, and registers nothing. -/
def derivesNoMore : Refresh where
  removed := [[97]]
  added := [({ tu := [97], calls := [], named := by decide, tagged := by decide }, false)]
  known := by decide
  once := by decide

/-- The pair has no owner, so the refreshed graph still answers with it. -/
theorem refresh_keeps_stale_class :
    ¬ CallGraph.SameAnswers (derivesNoMore.run (rebuild [derives]))
      (rebuild (derivesNoMore.current [derives])) := by
  intro h
  have hstale : [68] ∈ (derivesNoMore.run (rebuild [derives])).getDerivedClasses [66] := by decide
  have hfresh : [68] ∉ (rebuild (derivesNoMore.current [derives])).getDerivedClasses [66] := by
    decide
  exact hfresh ((h.getDerivedClasses [66] [68]).mp hstale)

end Vycor
