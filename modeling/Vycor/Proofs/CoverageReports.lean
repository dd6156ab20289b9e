/-
What the coverage check reports.

The classes and the linkages of a class are in hash maps, and their order is the order of some of
the reports.  It shows in no other way, as long as in each class one linkage has more methods
than any other: then the reports are those of the methods as a list, in whatever order the index
came to know them.  In a tie the linkage that is walked first is the majority.
-/
import Vycor.Model.CoverageChecks
import Vycor.Proofs.OverloadVerdicts

namespace Vycor

open Groups

/-! ### A class

The methods are grouped by linkage in a hash map. Where one linkage has more
methods than any other, the walk over the map finds it whatever its order.
-/

/-- More methods have this linkage than have any other. -/
def Majority (methods : List CoveragePropertyEntry) (gva : Int32) : Prop :=
  ∀ other, other ≠ gva →
    methods.countP (·.gvaLinkage = other) < methods.countP (·.gvaLinkage = gva)

/-- The reports of a class, read off the list of its methods. -/
def coverageReports (className : Str) (methods : List CoveragePropertyEntry) (majority : Int32) :
    List Diagnostic :=
  methods.flatMap riskyLinkage
  ++ ((methods.filter (·.gvaLinkage ≠ majority)).map fun m =>
    gvaMismatch className majority (methods.countP (·.gvaLinkage = majority)) m.gvaLinkage m)
  ++ ((laterPairs methods).filter fun p => p.1.gvaLinkage = p.2.gvaLinkage).filterMap
    (propertyDivergence className)

section OneClass

variable {methods : List CoveragePropertyEntry}

/-- The groups of a class are its linkages, in some order. -/
theorem walk_byGVA (w : HashWalk) (methods : List CoveragePropertyEntry) :
    ∃ keys : List Int32, keys.Nodup ∧ (∀ k, k ∈ keys ↔ ∃ m ∈ methods, m.gvaLinkage = k) ∧
      w.walk (byGVA methods)
        = keys.map fun k => ⟨k, methods.filter (·.gvaLinkage = k)⟩ := by
  have hlookup : ∀ k, (byGVA methods).lookup k
      = if k ∈ methods.map (·.gvaLinkage) then some (methods.filter (·.gvaLinkage = k))
        else none := by
    intro k
    unfold byGVA
    rw [UMap.lookup_grouped methods (·.gvaLinkage) [] (fun l m => l ++ [m]) k, foldl_push]
    rfl
  have hentry : ∀ kv ∈ w.walk (byGVA methods), (byGVA methods).lookup kv.1 = some kv.2 :=
    fun kv hkv => AList.mem_lookup_iff.mpr ((w.perm _).mem_iff.mp hkv)
  refine ⟨(w.walk (byGVA methods)).map (·.1), ?_, fun k => ?_, ?_⟩
  · exact ((w.perm _).map _).nodup_iff.mpr (byGVA methods).nodupKeys
  · have hkeys : k ∈ (w.walk (byGVA methods)).map (·.1) ↔ ((byGVA methods).lookup k).isSome := by
      rw [((w.perm _).map _).mem_iff, AList.lookup_isSome]
      rfl
    rw [hkeys, hlookup]
    by_cases hk : k ∈ methods.map (·.gvaLinkage)
    · rw [if_pos hk]
      exact iff_of_true rfl (List.mem_map.mp hk)
    · rw [if_neg hk]
      exact iff_of_false Bool.false_ne_true (mt List.mem_map.mpr hk)
  · rw [List.map_map]
    refine (List.map_id _).symm.trans (List.map_congr_left fun kv hkv => ?_)
    have hkv := hentry kv hkv
    rw [hlookup] at hkv
    obtain ⟨-, hgroup⟩ := Option.ite_none_right_eq_some.mp hkv
    exact Sigma.ext rfl (heq_of_eq (Option.some.inj hgroup).symm)

/-- Smaller groups leave the best one alone, and a best one that is smaller stays smaller. -/
theorem foldl_smaller {size : Int32 → Nat} {n : Nat} (keys : List Int32)
    (hsmall : ∀ k ∈ keys, size k < n) (best : Int32 × Nat) :
    let found := keys.foldl (fun best k => if best.2 < size k then (k, size k) else best) best
    (best.2 < n → found.2 < n) ∧ (best.2 = n → found = best) := by
  induction keys generalizing best with
  | nil => exact ⟨id, fun _ => rfl⟩
  | cons k rest ih =>
      have hk := hsmall k List.mem_cons_self
      have hrest := ih fun x hx => hsmall x (List.mem_cons_of_mem _ hx)
      dsimp only
      rw [List.foldl_cons]
      by_cases hbetter : best.2 < size k
      · rw [if_pos hbetter]
        refine ⟨fun _ => (hrest _).1 hk, fun hbest => ?_⟩
        exact absurd hbetter (hbest ▸ Nat.lt_asymm hk)
      · rw [if_neg hbetter]
        exact hrest best

theorem Majority.exists_mem {majority : Int32} (hmajority : Majority methods majority)
    (hne : methods ≠ []) : ∃ m ∈ methods, m.gvaLinkage = majority := by
  obtain ⟨m, hm⟩ := List.exists_mem_of_ne_nil methods hne
  by_cases hown : m.gvaLinkage = majority
  · exact ⟨m, hm, hown⟩
  · obtain ⟨x, hx, hgva⟩ := List.countP_pos_iff.mp
      (Nat.lt_of_le_of_lt (Nat.zero_le _) (hmajority m.gvaLinkage hown))
    exact ⟨x, hx, of_decide_eq_true hgva⟩

/-- **The majority is found** in every order of the groups. -/
theorem majorityOf_eq {keys : List Int32} (hnodup : keys.Nodup)
    (hkeys : ∀ k, k ∈ keys ↔ ∃ m ∈ methods, m.gvaLinkage = k) {majority : Int32}
    (hmajority : Majority methods majority) (hne : methods ≠ []) :
    majorityOf (keys.map fun k => ⟨k, methods.filter (·.gvaLinkage = k)⟩)
      = (majority, methods.countP (·.gvaLinkage = majority)) := by
  obtain ⟨m, hm, hown⟩ := hmajority.exists_mem hne
  have hsome : 0 < methods.countP (·.gvaLinkage = majority) :=
    List.countP_pos_iff.mpr ⟨m, hm, decide_eq_true hown⟩
  have hin : majority ∈ keys := (hkeys majority).mpr ⟨m, hm, hown⟩
  have hfold : majorityOf (keys.map fun k => ⟨k, methods.filter (·.gvaLinkage = k)⟩)
      = keys.foldl (fun best k => if best.2 < methods.countP (·.gvaLinkage = k)
          then (k, methods.countP (·.gvaLinkage = k)) else best) (-1, 0) := by
    unfold majorityOf
    rw [List.foldl_map]
    simp only [List.countP_eq_length_filter]
  rw [hfold]
  obtain ⟨pre, post, rfl⟩ := List.append_of_mem hin
  have hout := (List.nodup_cons.mp (List.nodup_middle.mp hnodup)).1
  have hsmall : ∀ k ∈ pre ++ post, methods.countP (·.gvaLinkage = k)
      < methods.countP (·.gvaLinkage = majority) :=
    fun k hk => hmajority k fun hc => hout (hc ▸ hk)
  rw [List.foldl_append, List.foldl_cons,
    if_pos ((foldl_smaller pre (fun k hk => hsmall k (List.mem_append_left _ hk)) (-1, 0)).1 hsome)]
  exact (foldl_smaller post (fun k hk => hsmall k (List.mem_append_right _ hk)) _).2 rfl

theorem propertyDivergence_symm (className : Str) (a b : CoveragePropertyEntry) :
    propertyDivergence className (a, b) = propertyDivergence className (b, a) := by
  unfold propertyDivergence
  cases trivialBody a <;> cases trivialBody b <;> rfl

section Walked

variable {keys : List Int32} (hnodup : keys.Nodup)
  (hkeys : ∀ k, k ∈ keys ↔ ∃ m ∈ methods, m.gvaLinkage = k)
include hnodup hkeys

/-- The methods that are not of the majority, group by group. -/
theorem perm_mismatches (majority : Int32) (f : Int32 → CoveragePropertyEntry → Diagnostic) :
    (((keys.map fun k => (⟨k, methods.filter (·.gvaLinkage = k)⟩ :
        Σ _ : Int32, List CoveragePropertyEntry)).filter (·.1 ≠ majority)).flatMap
          fun kv => kv.2.map (f kv.1)).Perm
      ((methods.filter (·.gvaLinkage ≠ majority)).map fun m => f m.gvaLinkage m) := by
  have hgroups : ((keys.filter (· ≠ majority)).flatMap fun k =>
      ((methods.filter (·.gvaLinkage ≠ majority)).filter (·.gvaLinkage = k)).flatMap
        fun m => [f m.gvaLinkage m]).Perm
      ((methods.filter (·.gvaLinkage ≠ majority)).flatMap fun m => [f m.gvaLinkage m]) := by
    refine perm_groups (hnodup.filter _) _ fun m hm => ?_
    obtain ⟨hm, hother⟩ := List.mem_filter.mp hm
    exact List.mem_filter.mpr ⟨(hkeys _).mpr ⟨m, hm, rfl⟩, hother⟩
  rw [← List.map_eq_flatMap] at hgroups
  refine List.Perm.trans (.of_eq ?_) hgroups
  rw [List.filter_map, List.flatMap_map]
  refine List.flatMap_congr fun k hk => ?_
  have hother : k ≠ majority := of_decide_eq_true (List.mem_filter.mp hk).2
  rw [← List.map_eq_flatMap, List.filter_filter]
  have hgroup : methods.filter (fun m => decide (m.gvaLinkage = k)
      && decide (m.gvaLinkage ≠ majority)) = methods.filter (·.gvaLinkage = k) := by
    refine List.filter_congr fun m _ => ?_
    by_cases hm : m.gvaLinkage = k <;> simp [hm, hother]
  rw [hgroup]
  refine List.map_congr_left fun m hm => ?_
  rw [of_decide_eq_true (List.mem_filter.mp hm).2]

theorem perm_divergences (f : CoveragePropertyEntry × CoveragePropertyEntry → Option Diagnostic) :
    ((keys.map fun k => (⟨k, methods.filter (·.gvaLinkage = k)⟩ :
        Σ _ : Int32, List CoveragePropertyEntry)).flatMap
          fun kv => (laterPairs kv.2).filterMap f).Perm
      (((laterPairs methods).filter fun p => p.1.gvaLinkage = p.2.gvaLinkage).filterMap f) := by
  have hpairs : (keys.flatMap fun k => laterPairs (methods.filter (·.gvaLinkage = k))).Perm
      ((laterPairs methods).filter fun p => p.1.gvaLinkage = p.2.gvaLinkage) :=
    perm_pairs_in_groups hnodup fun m hm => (hkeys _).mpr ⟨m, hm, rfl⟩
  refine List.Perm.trans (.of_eq ?_) (hpairs.filterMap f)
  rw [List.flatMap_map, List.filterMap_flatMap]

end Walked

/-- **A class is reported as its methods are**, whatever the order of its linkages. -/
theorem classCoverage_perm (w : HashWalk) (className : Str) {majority : Int32}
    (hmajority : Majority methods majority) (hne : methods ≠ []) :
    (classCoverage w className methods).Perm (coverageReports className methods majority) := by
  obtain ⟨keys, hnodup, hkeys, hwalk⟩ := walk_byGVA w methods
  unfold classCoverage coverageReports
  rw [List.append_assoc]
  refine List.Perm.append_left _ ?_
  by_cases hfew : methods.length < 2
  · rw [if_pos hfew]
    obtain ⟨m, rfl⟩ : ∃ m, methods = [m] := by
      refine List.length_eq_one_iff.mp ?_
      have := List.length_pos_of_ne_nil hne
      omega
    have hown : m.gvaLinkage = majority := by
      obtain ⟨x, hx, hown⟩ := hmajority.exists_mem hne
      exact List.mem_singleton.mp hx ▸ hown
    simp [hown, laterPairs]
  · rw [if_neg hfew]
    dsimp only
    rw [hwalk, majorityOf_eq hnodup hkeys hmajority hne]
    refine List.Perm.append ?_ (perm_divergences hnodup hkeys _)
    have hmismatches := perm_mismatches hnodup hkeys majority
      (gvaMismatch className majority (methods.countP (·.gvaLinkage = majority)))
    split
    · exact hmismatches
    · -- one linkage: it is the majority, and there are no others
      rename_i hone
      obtain ⟨x, hx, hown⟩ := hmajority.exists_mem hne
      rw [List.length_map] at hone
      have hall : ∀ m ∈ methods, m.gvaLinkage = majority := by
        intro m hm
        by_contra hother
        refine hone ((Dedup.two_le_length_iff hnodup).mpr ?_)
        exact ⟨_, (hkeys _).mpr ⟨m, hm, rfl⟩, _, (hkeys _).mpr ⟨x, hx, hown⟩, hother⟩
      rw [List.filter_eq_nil_iff.mpr fun m hm => by simpa using hall m hm]
      exact .refl _

end OneClass

/-! ### An index -/

/-- The methods of a class that the calls gave. -/
def coverageGiven (calls : List IndexCall) (className : Str) : List CoveragePropertyEntry :=
  calls.filterMap (coveragePart className).concerns

/-- The classes that the calls gave methods of. -/
def coveredClasses (calls : List IndexCall) : List Str :=
  (calls.filterMap fun
    | .coverage e => some e.enclosingClass
    | _ => none).dedup

theorem IndexHistory.findClassMethods_eq (h : IndexHistory) (className : Str) :
    h.index.findClassMethods className = coverageGiven h.calls className :=
  (part_eq (coveragePart className) h).trans (foldl_push _ _)

theorem mem_coveredClasses {calls : List IndexCall} {className : Str} :
    className ∈ coveredClasses calls ↔ coverageGiven calls className ≠ [] := by
  unfold coveredClasses coverageGiven
  rw [List.mem_dedup, List.mem_filterMap]
  constructor
  · rintro ⟨c, hc, hgiven⟩
    cases c with
    | coverage e =>
        exact List.ne_nil_of_mem (List.mem_filterMap.mpr ⟨_, hc, if_pos (Option.some.inj hgiven)⟩)
    | _ => exact nomatch hgiven
  · intro hne
    obtain ⟨e, he⟩ := List.exists_mem_of_ne_nil _ hne
    obtain ⟨c, hc, hgiven⟩ := List.mem_filterMap.mp he
    cases c with
    | coverage e' => exact ⟨_, hc, congrArg some (Option.ite_none_right_eq_some.mp hgiven).1⟩
    | _ => exact nomatch hgiven

/-- The walk over the classes meets each once. -/
theorem perm_allIndexedClasses (w : HashWalk) (h : IndexHistory) :
    (h.index.allIndexedClasses w).Perm (coveredClasses h.calls) := by
  have hnamed := h.wf.coverage
  refine (List.perm_ext_iff_of_nodup ?_ (List.nodup_dedup _)).mpr fun className => ?_
  · have hbelow : ∀ kv ∈ w.walk h.index.coverageProps, kv.1 < h.index.interner.size :=
      fun kv hkv => hnamed.below kv.1 kv.2 (AList.mem_lookup_iff.mpr ((w.perm _).mem_iff.mp hkv))
    have hkeys : ((w.walk h.index.coverageProps).map (·.1)).Nodup :=
      ((w.perm _).map _).nodup_iff.mpr h.index.coverageProps.nodupKeys
    have hnames := hkeys.map_on (f := h.index.interner.resolve) ?_
    · rwa [List.map_map] at hnames
    · intro id hid id' hid' hsame
      obtain ⟨kv, hkv, rfl⟩ := List.mem_map.mp hid
      obtain ⟨kv', hkv', rfl⟩ := List.mem_map.mp hid'
      rw [← StringInterner.idOf_resolve hnamed.nodup (hbelow kv hkv), hsame,
        StringInterner.idOf_resolve hnamed.nodup (hbelow kv' hkv')]
  · refine (hnamed.mem_names w className).trans ?_
    exact (Iff.of_eq (congrArg (· ≠ []) (h.findClassMethods_eq className))).trans
      mem_coveredClasses.symm

theorem perm_coverageReports (className : Str) (majority : Int32)
    {methods methods' : List CoveragePropertyEntry} (hperm : methods.Perm methods') :
    (coverageReports className methods majority).Perm
      (coverageReports className methods' majority) := by
  unfold coverageReports
  rw [hperm.countP_eq, List.filterMap_filter, List.filterMap_filter]
  refine ((hperm.flatMap_right _).append ((hperm.filter _).map _)).append ?_
  refine perm_laterPairs (fun a b => ?_) hperm
  rw [propertyDivergence_symm className a b]
  simp only [eq_comm]

/-- **Coverage is reported exactly**: of every class its reports, whichever order its methods were
indexed in and whichever order the hash maps are walked in. -/
theorem coverage_exact (w : HashWalk) (h : IndexHistory) {calls : List IndexCall}
    (hperm : h.calls.Perm calls) (majority : Str → Int32)
    (hmajority : ∀ className ∈ coveredClasses calls,
      Majority (coverageGiven calls className) (majority className)) :
    (analyzeCoverageProperties w h.index).Perm
      ((coveredClasses calls).flatMap fun className =>
        coverageReports className (coverageGiven calls className) (majority className)) := by
  have hgiven : ∀ className, (coverageGiven h.calls className).Perm
      (coverageGiven calls className) := fun className => hperm.filterMap _
  have hclasses : (h.index.allIndexedClasses w).Perm (coveredClasses calls) :=
    (perm_allIndexedClasses w h).trans (hperm.filterMap _).dedup
  unfold analyzeCoverageProperties
  refine (hclasses.flatMap_right _).trans (List.Perm.flatMap_left _ fun className hin => ?_)
  rw [h.findClassMethods_eq]
  have hmajority : Majority (coverageGiven h.calls className) (majority className) := by
    intro other hother
    rw [(hgiven className).countP_eq, (hgiven className).countP_eq]
    exact hmajority className hin other hother
  have hne : coverageGiven h.calls className ≠ [] := fun hnone =>
    mem_coveredClasses.mp hin (List.Perm.eq_nil (hnone ▸ (hgiven className).symm))
  exact (classCoverage_perm w className hmajority hne).trans
    (perm_coverageReports className _ (hgiven className))

/-! ### A majority and a tie -/

/-- A method of `A` by name, with a linkage and a size. -/
def methodOf (name : String) (gvaLinkage : Int32) (bodyStmtCount : UInt32) : IndexCall :=
  .coverage { qualifiedName := str name, headerPath := str "a.h", enclosingClass := str "A"
              gvaLinkage, bodyStmtCount, signature := str name }

/-- Two methods of one linkage, a short and a long one, and a third method. -/
def twoToOne : IndexHistory :=
  .call (.call (.call .empty (methodOf "f" 3 5)) (methodOf "g" 3 20)) (methodOf "h" 0 5)

/-- The other end first. -/
def backwards : HashWalk where
  walk m := m.entries.reverse
  perm _ := List.reverse_perm _

theorem majority_of_methods {methods : List CoveragePropertyEntry} {gva : Int32}
    (hsome : 0 < methods.countP (·.gvaLinkage = gva))
    (hothers : ∀ m ∈ methods, m.gvaLinkage ≠ gva →
      methods.countP (·.gvaLinkage = m.gvaLinkage) < methods.countP (·.gvaLinkage = gva)) :
    Majority methods gva := by
  intro other hother
  by_cases hin : ∃ m ∈ methods, m.gvaLinkage = other
  · obtain ⟨m, hm, rfl⟩ := hin
    exact hothers m hm hother
  · have hnone : methods.countP (·.gvaLinkage = other) = 0 :=
      List.countP_eq_zero.mpr fun m hm => by simpa using fun hc => hin ⟨m, hm, hc⟩
    rwa [hnone]

theorem coverage_exact_two_to_one :
    (analyzeCoverageProperties backwards twoToOne.index).Perm
      ((coveredClasses [methodOf "h" 0 5, methodOf "f" 3 5, methodOf "g" 3 20]).flatMap
        fun className => coverageReports className
          (coverageGiven [methodOf "h" 0 5, methodOf "f" 3 5, methodOf "g" 3 20] className) 3) := by
  refine coverage_exact backwards twoToOne List.perm_append_comm (fun _ => 3) fun className hin => ?_
  obtain rfl : className = str "A" := by
    have hclasses : coveredClasses [methodOf "h" 0 5, methodOf "f" 3 5, methodOf "g" 3 20]
        = [str "A"] := by decide
    exact List.mem_singleton.mp (hclasses ▸ hin)
  exact majority_of_methods (by decide) (by decide)

/-- **In a tie the hash map shows**: the linkage that is walked first is the majority. -/
theorem coverage_tie_shows : ¬ ∀ (w w' : HashWalk) (h : IndexHistory),
    (analyzeCoverageProperties w h.index).Perm (analyzeCoverageProperties w' h.index) := by
  intro hall
  have hboth := (hall .inOrder backwards
    (.call (.call .empty (methodOf "f" 3 5)) (methodOf "h" 0 5))).map (·.resolvedDecl)
  revert hboth
  decide +kernel

end Vycor
