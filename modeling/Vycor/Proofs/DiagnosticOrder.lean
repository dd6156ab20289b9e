/-
Index-only diagnostics and the order in which an index came about.

An index that was filled by calls, by absorbing shards and by applying payloads holds what
all the calls behind it make of an empty one, so the checks see the entries of these calls
and their order.  `OrderSettled` says of the entries alone when the order cannot show.

What it leaves out is what the checks get wrong: a group whose definitions, specifications or
defaults differ across sites is reported at the site that came first and lists the sites in
that order; where several sites are split, the first is named; the first entry of a header
static or of a noexcept function gives its name and site; the first static initializer of a
name stands for the name; and a chain of calls follows lists that were merged in the order of
the entries.  In a parallel bake that is the order in which workers finish.
-/
import Vycor.Proofs.CallOrder

namespace Vycor

open GlobalIndex Keyed

/-! ### The calls behind an index -/

namespace IndexHistory

/-- The calls behind an index, those of its shards and payloads among them. -/
def calls : IndexHistory → List IndexCall
  | .empty => []
  | .call h c => h.calls ++ [c]
  | .absorb h shard _ => h.calls ++ shard.calls
  | .apply h p => h.calls ++ p.calls

/-- **An index holds what the calls behind it make.** -/
theorem spec_eq : ∀ h : IndexHistory, h.index.spec = h.calls.foldl IndexSpec.add .empty
  | .empty => rfl
  | .call h c => by
      rw [calls, List.foldl_append, ← spec_eq h]
      exact (apply_wf_spec h.wf c).2
  | .absorb h shard w => by
      rw [calls, List.foldl_append, ← spec_eq h, ← replay_spec shard.wf w (spec_eq shard)]
      show (h.index.absorb w shard.index).spec = _
      rw [absorb_eq_applyTo, applyTo_eq_run]
      exact (GlobalIndex.run_wf_spec h.wf _).2
  | .apply h p => by
      rw [calls, List.foldl_append, ← spec_eq h]
      show (p.applyTo h.index).spec = _
      rw [applyTo_eq_run]
      exact (GlobalIndex.run_wf_spec h.wf _).2

/-- A part of the index is built from the calls that concern it. -/
theorem part_eq {α : Type} (P : Part α) (h : IndexHistory) :
    P.read h.index.spec = (h.calls.filterMap P.concerns).foldl P.step [] := by
  rw [spec_eq, P.read_run, P.empty]

end IndexHistory

/-! ### Entries that the checks read

The checks over the index read what the calls have left behind, so the order of
the calls shows only where two entries of one key differ.
-/

/-- The kinds of entries that the checks read. -/
def IndexCall.diagnosed : IndexCall → Bool
  | .odr _ => true
  | .defaultArg _ => true
  | .exceptionSpec _ => true
  | .headerStatic _ => true
  | .staticInit _ => true
  | .functionSummary _ => true
  | _ => false

/-- No check tells the order of the entries. -/
structure OrderSettled (calls : List IndexCall) : Prop where
  odr : ∀ k, odrGrouping.Differs (calls.filterMap odrPart.concerns) k →
    odrGrouping.Settled (calls.filterMap odrPart.concerns) k
  defaultArgs : OneDefault (calls.filterMap defaultArgsPart.concerns)
  exceptionSpecs : ∀ k,
    exceptionSpecGrouping.Differs (calls.filterMap exceptionSpecsPart.concerns) k →
      exceptionSpecGrouping.Settled (calls.filterMap exceptionSpecsPart.concerns) k
  headerStatics : HeaderStaticsSettled (calls.filterMap headerStaticsPart.concerns)
  staticInits : ∀ e ∈ calls.filterMap staticInitsPart.concerns, readsAtInit e →
    MayDepend (calls.filterMap staticInitsPart.concerns)
      (calls.filterMap functionSummariesPart.concerns) e →
    DependencySettled (calls.filterMap staticInitsPart.concerns)
      (calls.filterMap functionSummariesPart.concerns) e
  functionSummaries : ∀ n, MayEscape (calls.filterMap functionSummariesPart.concerns) n →
    EscapeSettled (calls.filterMap functionSummariesPart.concerns) n

theorem concerns_perm {α : Type} {concerns : IndexCall → Option α}
    (hdiag : ∀ c, c.diagnosed = false → concerns c = none) {calls calls' : List IndexCall}
    (hperm : (calls.filter IndexCall.diagnosed).Perm (calls'.filter IndexCall.diagnosed)) :
    (calls.filterMap concerns).Perm (calls'.filterMap concerns) := by
  have hfilter : ∀ calls : List IndexCall,
      calls.filterMap concerns = (calls.filter IndexCall.diagnosed).filterMap concerns := by
    intro calls
    rw [List.filterMap_filter]
    refine List.filterMap_congr fun c _ => ?_
    by_cases hc : c.diagnosed
    · simp [hc]
    · simp [hc, hdiag c (by simpa using hc)]
  rw [hfilter calls, hfilter calls']
  exact hperm.filterMap _

theorem indexed_history (h : IndexHistory) :
    Indexed (h.calls.filterMap staticInitsPart.concerns)
      (h.calls.filterMap functionSummariesPart.concerns) h.index where
  wf := h.wf
  summaries := IndexHistory.part_eq functionSummariesPart h
  inits := IndexHistory.part_eq staticInitsPart h

/-- **Settled entries give the same diagnostics in every order**, and whichever of them came
by calls, by absorbed shards or by payloads. -/
theorem analyzeIndex_order (h h' : IndexHistory)
    (hperm : (h.calls.filter IndexCall.diagnosed).Perm (h'.calls.filter IndexCall.diagnosed))
    (hset : OrderSettled h.calls) : analyzeIndex h.index = analyzeIndex h'.index := by
  have hread : ∀ {α : Type} (P : Part α), (∀ c, c.diagnosed = false → P.concerns c = none) →
      (h.calls.filterMap P.concerns).Perm (h'.calls.filterMap P.concerns) :=
    fun P hdiag => concerns_perm hdiag hperm
  have hodr := hread odrPart fun c hc => by cases c <;> first | rfl | exact nomatch hc
  have hdefaults := hread defaultArgsPart fun c hc => by cases c <;> first | rfl | exact nomatch hc
  have hspecs := hread exceptionSpecsPart fun c hc => by cases c <;> first | rfl | exact nomatch hc
  have hstatics := hread headerStaticsPart fun c hc => by cases c <;> first | rfl | exact nomatch hc
  have hinits := hread staticInitsPart fun c hc => by cases c <;> first | rfl | exact nomatch hc
  have hsummaries := hread functionSummariesPart fun c hc => by
    cases c <;> first | rfl | exact nomatch hc
  have hdefault : ∀ h'' : IndexHistory,
      (h.calls.filterMap defaultArgsPart.concerns).Perm (h''.calls.filterMap defaultArgsPart.concerns) →
      analyzeDefaultArgDivergence h''.index = [] := by
    intro h'' hperm
    have hlist : h''.index.defaultArgs
        = (h''.calls.filterMap defaultArgsPart.concerns).foldl (put defaultArgKey first) [] :=
      IndexHistory.part_eq defaultArgsPart h''
    refine analyzeDefaultArgDivergence_nil fun e he e' he' => ?_
    rw [hlist] at he he'
    exact hset.defaultArgs e (hperm.mem_iff.mpr (mem_of_mem_foldl_first he)) e'
      (hperm.mem_iff.mpr (mem_of_mem_foldl_first he'))
  unfold analyzeIndex
  rw [analyzeOdrViolations_congr (fun e => hodr.mem_iff) hset.odr (IndexHistory.part_eq odrPart h)
      (IndexHistory.part_eq odrPart h'),
    hdefault h (List.Perm.refl _), hdefault h' hdefaults,
    analyzeStaticInitOrder_congr (indexed_history h) (indexed_history h') (fun e => hinits.mem_iff)
      hsummaries hset.staticInits,
    analyzeExceptionEscape_congr (indexed_history h) (indexed_history h') hsummaries
      hset.functionSummaries,
    analyzeHeaderStaticDuplication_congr (fun e => hstatics.mem_iff) hset.headerStatics
      (IndexHistory.part_eq headerStaticsPart h) (IndexHistory.part_eq headerStaticsPart h'),
    analyzeExceptionSpecDivergence_congr (fun e => hspecs.mem_iff) hset.exceptionSpecs
      (IndexHistory.part_eq exceptionSpecsPart h) (IndexHistory.part_eq exceptionSpecsPart h')]

/-- A class `A` in the given file. -/
def classIn (filePath : Str) (odrHash : UInt64) : OdrEntry :=
  { qualifiedName := str "A", signature := [], isClass := true, enclosingClass := []
    filePath, line := 1, odrHash }

/-- A class that one line of a header defines in two ways. -/
theorem settled_split : OrderSettled [.odr (classIn (str "a.h") 1), .odr (classIn (str "a.h") 2)] where
  odr k hdiff := by
    have hall : ∀ e ∈ [classIn (str "a.h") 1, classIn (str "a.h") 2],
        odrGroupKey e = odrGroupKey (classIn (str "a.h") 1) := by decide
    obtain ⟨s, hs, -⟩ := hdiff
    obtain ⟨e, he, hk, -⟩ := Grouping.mem_observed.mp hs
    obtain rfl : odrGroupKey (classIn (str "a.h") 1) = k := (hall e he).symm.trans hk
    have hsites : ∀ s ∈ odrGrouping.observed (odrGroupKey (classIn (str "a.h") 1))
        [classIn (str "a.h") 1, classIn (str "a.h") 2], s.1 = (str "a.h", 1) := by decide
    exact
      { site := ⟨(str "a.h", 1), ⟨1, 2, by decide, by decide, by decide⟩,
          fun s ⟨_, _, ha, _, _⟩ => hsites _ ha⟩
        name := by decide
        key := by decide }
  defaultArgs := fun _ he => nomatch he
  exceptionSpecs k hdiff := by
    obtain ⟨s, hs, -⟩ := hdiff
    exact nomatch hs
  headerStatics := fun _ he => nomatch he
  staticInits := fun _ he => nomatch he
  functionSummaries n hmay := by
    obtain ⟨⟨s, hs, -⟩, -⟩ := hmay
    exact nomatch hs

theorem analyzeIndex_order_split :
    analyzeIndex (IndexHistory.call (.call .empty (.odr (classIn (str "a.h") 1)))
        (.odr (classIn (str "a.h") 2))).index
      = analyzeIndex (IndexHistory.absorb (.call .empty (.odr (classIn (str "a.h") 2)))
          (.call .empty (.odr (classIn (str "a.h") 1))) .inOrder).index :=
  analyzeIndex_order _ _ (List.Perm.swap _ _ []) settled_split

/-- **In general the order shows**: a duplicate is reported at the definition that came first. -/
theorem analyzeIndex_order_shows : ¬ ∀ h h' : IndexHistory,
    (h.calls.filter IndexCall.diagnosed).Perm (h'.calls.filter IndexCall.diagnosed) →
      analyzeIndex h.index = analyzeIndex h'.index := by
  intro hall
  have hswap := hall
    (.call (.call .empty (.odr (classIn (str "a.h") 1))) (.odr (classIn (str "b.h") 2)))
    (.call (.call .empty (.odr (classIn (str "b.h") 2))) (.odr (classIn (str "a.h") 1)))
    (List.Perm.swap _ _ [])
  have hsites := congrArg (List.map Diagnostic.callLocation) hswap
  revert hsites
  decide +kernel

end Vycor
