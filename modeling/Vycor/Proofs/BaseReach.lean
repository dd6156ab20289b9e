/-
Base-class tests.

The base edges of an index are the pairs that `addBase` was called with, directly, by an
absorbed shard or by an applied payload.  Edges of several TUs may form cycles that no single
program has, so neither test may rely on the relation being a hierarchy.
-/
import Vycor.Proofs.DiagnosticOrder
import Vycor.Proofs.Queries

namespace Vycor

open UMap

/-! ### The pairs behind an index -/

theorem IndexSpec.mem_bases_add (s : IndexSpec) (c : IndexCall) (d b : Str) :
    b ∈ (s.add c).bases d ↔ b ∈ s.bases d ∨ c = .base d b := by
  cases c with
  | base derived parent =>
      show b ∈ IndexSpec.under s.bases derived (Dedup.pushUnique · parent) d ↔ _
      unfold IndexSpec.under
      by_cases hd : d = derived
      · subst hd
        rw [if_pos rfl, Dedup.mem_pushUnique]
        simp [eq_comm]
      · rw [if_neg hd]
        simp [Ne.symm hd]
  | _ => simp [IndexSpec.add]

/-- **The base edges of an index are the pairs it was given.** -/
theorem IndexHistory.mem_bases (h : IndexHistory) (d b : Str) :
    b ∈ h.index.spec.bases d ↔ IndexCall.base d b ∈ h.calls := by
  have hrun : ∀ (calls : List IndexCall) (s : IndexSpec),
      b ∈ (calls.foldl IndexSpec.add s).bases d ↔ b ∈ s.bases d ∨ IndexCall.base d b ∈ calls := by
    intro calls
    induction calls with
    | nil => simp
    | cons c rest ih =>
        intro s
        rw [List.foldl_cons, ih, IndexSpec.mem_bases_add, List.mem_cons, or_assoc, eq_comm (a := c)]
  rw [h.spec_eq, hrun]
  simp [IndexSpec.empty]

/-! ### From ids to names

The test walks over ids, the claim is about names. A name has an id when it
occurs in some edge, so nothing is lost.
-/

namespace TypeRelationIndex

variable {names : StringInterner} {edges : UMap SId (List SId)}

theorem Edged.mem_edges (h : Edged names edges) (x : Str) (i : SId) :
    i ∈ edges.getD (names.idOf x) [] ↔ ∃ y ∈ edgesFrom names edges x, i = names.idOf y := by
  unfold edgesFrom
  rw [← GlobalIndex.findNamed_eq h.source]
  constructor
  · intro hi
    exact ⟨names.resolve i, List.mem_map_of_mem hi,
      (StringInterner.idOf_resolve h.nodup (h.mem_target hi)).symm⟩
  · rintro ⟨y, hy, rfl⟩
    obtain ⟨t, ht, rfl⟩ := List.mem_map.mp hy
    rwa [StringInterner.idOf_resolve h.nodup (h.mem_target ht)]

/-- What lies beyond an id is what lies beyond its name. -/
theorem Edged.beyond_iff (h : Edged names edges) {x y : Str} (hy : y ∈ names.strings) :
    Relation.TransGen (fun a b => b ∈ edges.getD a []) (names.idOf x) (names.idOf y) ↔
      Relation.TransGen (fun a b => b ∈ edgesFrom names edges a) x y := by
  constructor
  · intro hpath
    have hnamed : ∀ j, Relation.TransGen (fun a b => b ∈ edges.getD a []) (names.idOf x) j →
        ∃ z, Relation.TransGen (fun a b => b ∈ edgesFrom names edges a) x z ∧ j = names.idOf z := by
      intro j hj
      induction hj with
      | single hstep =>
          obtain ⟨z, hz, rfl⟩ := (h.mem_edges x _).mp hstep
          exact ⟨z, .single hz, rfl⟩
      | tail _ hstep ih =>
          obtain ⟨z, hz, rfl⟩ := ih
          obtain ⟨w, hw, rfl⟩ := (h.mem_edges z _).mp hstep
          exact ⟨w, hz.tail hw, rfl⟩
    obtain ⟨z, hz, hid⟩ := hnamed _ hpath
    obtain rfl := (StringInterner.idOf_inj hy).mp hid.symm
    exact hz
  · intro hpath
    exact hpath.lift names.idOf fun a b hab => (h.mem_edges a _).mpr ⟨b, hab, rfl⟩

/-- A name without an id has no edges and is not one's target. -/
theorem Edged.interned_of_edge (h : Edged names edges) {x y : Str}
    (hy : y ∈ edgesFrom names edges x) : x ∈ names.strings ∧ y ∈ names.strings := by
  have hedge := (h.mem_edges x (names.idOf y)).mpr ⟨y, hy, rfl⟩
  constructor
  · refine StringInterner.idOf_lt.mp ?_
    unfold getD at hedge
    cases hl : edges.lookup (names.idOf x) with
    | none =>
        rw [hl] at hedge
        exact absurd hedge List.not_mem_nil
    | some l => exact h.source _ l hl
  · unfold edgesFrom at hy
    obtain ⟨t, ht, rfl⟩ := List.mem_map.mp hy
    exact StringInterner.resolve_mem (h.mem_target ht)

/-- **The test answers, and rightly so.** -/
theorem isBaseOrSelf_spec {types : TypeRelationIndex} (h : Edged types.interner types.bases)
    {fuel : Nat} (hfuel : types.baseTurns ≤ fuel) (derived maybeBase : Str) :
    ∃ answer, types.isBaseOrSelf fuel derived maybeBase = some answer ∧
      (answer = true ↔ derived = maybeBase ∨
        Relation.TransGen (fun d b => b ∈ edgesFrom types.interner types.bases d) derived maybeBase) := by
  unfold isBaseOrSelf
  by_cases hself : derived = maybeBase
  · rw [if_pos hself]
    exact ⟨true, rfl, iff_of_true rfl (Or.inl hself)⟩
  rw [if_neg hself]
  simp only [hself, false_or]
  by_cases hin : derived ∈ types.interner.strings ∧ maybeBase ∈ types.interner.strings
  · have hfound : ∀ s ∈ types.interner.strings,
        types.interner.find s = some (types.interner.idOf s) := fun s hs =>
      StringInterner.find_eq_some.mpr ⟨hs, rfl⟩
    rw [hfound _ hin.1, hfound _ hin.2]
    have hnodes : ∀ i, types.bases.getD i [] ≠ [] → i ∈ types.bases.entries.map (·.1) := by
      intro i hne
      unfold getD at hne
      cases hl : types.bases.lookup i with
      | none =>
          rw [hl] at hne
          exact absurd rfl hne
      | some l => exact List.mem_map.mpr ⟨⟨i, l⟩, (mem_entries _ i l).mpr hl, rfl⟩
    have hsum : ((types.bases.entries.map (·.1)).map fun i => (types.bases.getD i []).length).sum
        = types.bases.total List.length := by
      rw [List.map_map]
      refine congrArg List.sum (List.map_congr_left fun entry hentry => ?_)
      have hl := (mem_entries types.bases entry.1 entry.2).mp hentry
      simp [getD, hl]
    obtain ⟨answer, hanswer, hiff⟩ := HitSearch.search_spec hnodes
      (types.interner.idOf derived) (types.interner.idOf maybeBase) (show _ ≤ fuel from hsum ▸ hfuel)
    exact ⟨answer, hanswer, hiff.trans (h.beyond_iff hin.2)⟩
  · have hnone : ¬ Relation.TransGen (fun d b => b ∈ edgesFrom types.interner types.bases d)
        derived maybeBase := by
      intro hpath
      obtain ⟨x, hx, -⟩ := Relation.TransGen.head'_iff.mp hpath
      obtain ⟨y, -, hy⟩ := Relation.TransGen.tail'_iff.mp hpath
      exact hin ⟨(h.interned_of_edge hx).1, (h.interned_of_edge hy).2⟩
    refine ⟨false, ?_, by simpa using hnone⟩
    unfold StringInterner.find
    split
    · rename_i hd hb
      split at hd <;> split at hb <;> simp_all
    · rfl

end TypeRelationIndex

/-! ### Both tests -/

open CallGraph

/-- **Both tests compute reachability on every relation**, cycles and self-edges included, and
both loops end: given a turn for each edge, the base test answers and the stack of the closure
is empty, and turns beyond those change nothing. -/
theorem reachability_tests :
    (∀ (h : IndexHistory) (derived maybeBase : Str) (fuel : Nat),
      h.index.types.baseTurns ≤ fuel →
        ∃ answer, h.index.types.isBaseOrSelf fuel derived maybeBase = some answer ∧
          (answer = true ↔ derived = maybeBase ∨
            Relation.TransGen (fun d b => IndexCall.base d b ∈ h.calls) derived maybeBase)) ∧
    (∀ (start : SId) (relation : UMap SId (List SId)),
      (transitiveClosure start relation).Nodup ∧
      (∀ x, x ∈ transitiveClosure start relation ↔
        x ≠ start ∧ Relation.ReflTransGen (fun a b => b ∈ relation.getD a []) start x) ∧
      ∀ more : Nat,
        let ended := Closure.search (relation.getD · [])
          ((relation.entries.flatMap (·.2)).length + 1 + more) ⟨[start], [], [start]⟩
        ended.stack = [] ∧ ended.result = transitiveClosure start relation) := by
  constructor
  · intro h derived maybeBase fuel hfuel
    obtain ⟨answer, hanswer, hiff⟩ :=
      TypeRelationIndex.isBaseOrSelf_spec h.wf.bases hfuel derived maybeBase
    have hrel : (fun d b => b ∈ h.index.spec.bases d)
        = fun d b => IndexCall.base d b ∈ h.calls := by
      funext d b
      exact propext (h.mem_bases d b)
    refine ⟨answer, hanswer, hiff.trans ?_⟩
    rw [← hrel]
    rfl
  · intro start relation
    refine ⟨nodup_transitiveClosure start relation, transitiveClosure_spec start relation, ?_⟩
    intro more
    rw [transitiveClosure_eq]
    exact Closure.closure_ends _ _ (fun _ _ => mem_targets) start more

/-- Two classes that are each other's base, one of them also its own, and a third beyond. -/
def cyclicBases : IndexHistory :=
  .call (.call (.call (.call .empty (.base (str "A") (str "B"))) (.base (str "B") (str "A")))
    (.base (str "A") (str "A"))) (.base (str "B") (str "C"))

theorem reachability_tests_cyclic :
    (∃ answer, cyclicBases.index.types.isBaseOrSelf 9 (str "A") (str "C") = some answer ∧
      (answer = true ↔ str "A" = str "C" ∨
        Relation.TransGen (fun d b => IndexCall.base d b ∈ cyclicBases.calls)
          (str "A") (str "C"))) ∧
    (∃ answer, cyclicBases.index.types.isBaseOrSelf 9 (str "C") (str "A") = some answer ∧
      (answer = true ↔ str "C" = str "A" ∨
        Relation.TransGen (fun d b => IndexCall.base d b ∈ cyclicBases.calls)
          (str "C") (str "A"))) ∧
    cyclicBases.index.types.isBaseOrSelf 9 (str "A") (str "C") = some true ∧
    cyclicBases.index.types.isBaseOrSelf 9 (str "C") (str "A") = some false :=
  ⟨reachability_tests.1 cyclicBases _ _ 9 (by decide +kernel),
    reachability_tests.1 cyclicBases _ _ 9 (by decide +kernel), by decide +kernel,
    by decide +kernel⟩

end Vycor
