/-
The reports of a TU and the order of indexing.

Shards are merged as they come in, so the calls behind an index come in any order.  A TU is told
the same in every order, as far as the order of what it is told goes: overloads and guides are
judged one by one, whatever stands before them, and which types convert is a matter of which
edges there are.  Specializations are reported once for each key; so the reports are the same
when the entries of a key are.
-/
import Vycor.Lib.FoldOrder
import Vycor.Proofs.VisibilityReports

namespace Vycor

/-! ### The same calls in another order -/

section Orders

variable {h h' : IndexHistory} {opts : AnalysisOptions} {files : List Str}

theorem visitCallExpr_perm (hperm : h.calls.Perm h'.calls) (node : CallNode) :
    (visitCallExpr h.index opts files node).Perm (visitCallExpr h'.index opts files node) := by
  have hopts : opts.Within opts := ⟨id, id, id, id, id⟩
  have hasks_mono : ∀ {callee} {a b : List IndexCall}, a.Perm b → Asks a opts node callee →
      Asks b opts node callee := fun hab hasks =>
    { hasks with several := ((hab.filterMap _).length_eq) ▸ hasks.several }
  by_cases hasks : ∃ callee, Asks h.calls opts node callee
  · obtain ⟨callee, hasks⟩ := hasks
    rw [visitCallExpr_eq h files hasks, visitCallExpr_eq h' files (hasks_mono hperm hasks)]
    refine List.Perm.trans (.of_eq ?_) ((hperm.filterMap _).filterMap _)
    refine List.filterMap_congr fun entry _ => Option.ext fun d => ?_
    rw [judgeOverload_iff h opts files hasks.arguments hasks.arity,
      judgeOverload_iff h' opts files hasks.arguments hasks.arity]
    exact ⟨(·.mono hperm.subset hopts), (·.mono hperm.symm.subset hopts)⟩
  · have hasks' : ∀ callee, ¬ Asks h'.calls opts node callee := fun callee hc =>
      hasks ⟨callee, hasks_mono hperm.symm hc⟩
    rw [visitCallExpr_nil h files fun callee hc => hasks ⟨callee, hc⟩,
      visitCallExpr_nil h' files hasks']

theorem visitVarDecl_perm (hperm : h.calls.Perm h'.calls) (node : VarNode) :
    (visitVarDecl h.index opts files node).Perm (visitVarDecl h'.index opts files node) := by
  unfold visitVarDecl
  split
  · rfl
  · split
    · rfl
    · split
      · rfl
      · rw [h.findDeductionGuides_eq, h'.findDeductionGuides_eq]
        exact (hperm.filterMap _).filterMap _

/-! ### Specializations -/

theorem nodup_findSpecializations (h : IndexHistory) (name : Str) :
    (h.index.findSpecializations name).Nodup := by
  rw [h.findSpecializations_eq]
  exact List.Nodup.of_map _ (Keyed.nodup_foldl_put (Keyed.merges_first _) _ List.nodup_nil)

theorem findSpecializations_perm (hperm : h.calls.Perm h'.calls) (name : Str) :
    (h.index.findSpecializations name).Perm (h'.index.findSpecializations name) := by
  refine (List.perm_ext_iff_of_nodup (nodup_findSpecializations h name)
    (nodup_findSpecializations h' name)).mpr fun e => ?_
  rw [mem_findSpecializations, mem_findSpecializations, hperm.mem_iff]

/-- There is one specialization for each key of a report. -/
def Settled (h : IndexHistory) : Prop :=
  ∀ e e', IndexCall.specialization e ∈ h.calls → IndexCall.specialization e' ∈ h.calls →
    specReportKey e.argsString e = specReportKey e'.argsString e' → e = e'

/-- Two visitors that reported the same, in whatever order. -/
structure Mixed (v v' : AnalyzerVisitor) : Prop where
  diagnostics : v.diagnostics.Perm v'.diagnostics
  reported : ∀ key, key ∈ v.reportedSpecs ↔ key ∈ v'.reportedSpecs

theorem judgeSpecialization_skip {node : ClassTemplateNode} {spec : KnownSpecialization}
    {v : AnalyzerVisitor} {e : SpecializationEntry}
    (hskip : e.argsString ≠ spec.args ∨ e.headerPath ∈ files) :
    judgeSpecialization files node spec v e = v := by
  unfold judgeSpecialization
  by_cases hargs : e.argsString ≠ spec.args
  · exact if_pos hargs
  · rw [if_neg hargs, if_pos (hskip.resolve_left hargs)]

theorem judgeSpecialization_take {node : ClassTemplateNode} {spec : KnownSpecialization}
    {v : AnalyzerVisitor} {e : SpecializationEntry} (hargs : e.argsString = spec.args)
    (hfile : e.headerPath ∉ files) :
    judgeSpecialization files node spec v e
      = if specReportKey spec.args e ∈ v.reportedSpecs then v
        else
          { diagnostics := v.diagnostics
              ++ [specializationInvisible (spec.pointOfInstantiation.getD node.location) spec.args e]
            reportedSpecs := v.reportedSpecs ++ [specReportKey spec.args e] } := by
  unfold judgeSpecialization
  rw [if_neg (not_not_intro hargs), if_neg hfile]

namespace Mixed

variable {v v' w : AnalyzerVisitor}

theorem refl (v : AnalyzerVisitor) : Mixed v v := ⟨.refl _, fun _ => Iff.rfl⟩

theorem trans (hm : Mixed v v') (hm' : Mixed v' w) : Mixed v w :=
  ⟨hm.diagnostics.trans hm'.diagnostics, fun key => (hm.reported key).trans (hm'.reported key)⟩

theorem append (hm : Mixed v v') {ds ds' : List Diagnostic} (hds : ds.Perm ds') :
    Mixed { v with diagnostics := v.diagnostics ++ ds }
      { v' with diagnostics := v'.diagnostics ++ ds' } :=
  ⟨hm.diagnostics.append hds, hm.reported⟩

theorem judge (hm : Mixed v v') (node : ClassTemplateNode) (spec : KnownSpecialization)
    (e : SpecializationEntry) :
    Mixed (judgeSpecialization files node spec v e) (judgeSpecialization files node spec v' e) := by
  unfold judgeSpecialization
  simp only [hm.reported]
  split
  · exact hm
  · split
    · exact hm
    · split
      · exact hm
      · exact ⟨hm.diagnostics.append_right _, fun key => by simp [hm.reported]⟩

/-- Two entries that are the same or of different keys, in either order. -/
theorem judge_comm (v : AnalyzerVisitor) (node : ClassTemplateNode) (spec : KnownSpecialization)
    {e e' : SpecializationEntry}
    (hkey : e.argsString = spec.args → e'.argsString = spec.args →
      specReportKey spec.args e = specReportKey spec.args e' → e = e') :
    Mixed
      (judgeSpecialization files node spec (judgeSpecialization files node spec v e) e')
      (judgeSpecialization files node spec (judgeSpecialization files node spec v e') e) := by
  by_cases hskip : e.argsString ≠ spec.args ∨ e.headerPath ∈ files
  · rw [judgeSpecialization_skip hskip, judgeSpecialization_skip hskip]
    exact refl _
  by_cases hskip' : e'.argsString ≠ spec.args ∨ e'.headerPath ∈ files
  · rw [judgeSpecialization_skip hskip', judgeSpecialization_skip hskip']
    exact refl _
  obtain ⟨hargs, hfile⟩ := not_or.mp hskip
  obtain ⟨hargs', hfile'⟩ := not_or.mp hskip'
  by_cases hsame : specReportKey spec.args e = specReportKey spec.args e'
  · rw [hkey (not_not.mp hargs) (not_not.mp hargs') hsame]
    exact refl _
  · simp only [judgeSpecialization_take (not_not.mp hargs) hfile,
      judgeSpecialization_take (not_not.mp hargs') hfile']
    by_cases hold : specReportKey spec.args e ∈ v.reportedSpecs
    · by_cases hold' : specReportKey spec.args e' ∈ v.reportedSpecs
      · simp only [if_pos hold, if_pos hold']
        exact refl v
      · simp only [if_pos hold, if_neg hold', List.mem_append_left _ hold, if_true]
        exact refl _
    · by_cases hold' : specReportKey spec.args e' ∈ v.reportedSpecs
      · simp only [if_neg hold, if_pos hold', List.mem_append_left _ hold', if_true]
        exact refl _
      · simp only [List.mem_append, List.mem_singleton, hold, hold', hsame, Ne.symm hsame, or_self,
          if_false, List.append_assoc]
        refine ⟨.append_left _ (.swap _ _ _), fun key => ?_⟩
        simp only [List.mem_append, List.mem_singleton]
        rw [or_comm (a := key = _)]

theorem visit (hm : Mixed v v') (hperm : h.calls.Perm h'.calls) (hsettled : Settled h)
    (node : AstNode) :
    Mixed (v.visit h.index opts files node) (v'.visit h'.index opts files node) := by
  cases node with
  | call node => exact hm.append (visitCallExpr_perm hperm node)
  | var node => exact hm.append (visitVarDecl_perm hperm node)
  | classTemplate node =>
      unfold AnalyzerVisitor.visit visitClassTemplateDecl
      dsimp only
      split
      · exact hm
      · refine List.foldl_rel hm fun spec _ v v' hm => ?_
        split
        · exact hm
        · refine FoldOrder.foldl_perm (findSpecializations_perm hperm node.qualifiedName) refl trans
            (fun e _ _ _ hm => hm.judge node spec e) (fun e he e' he' v => ?_) hm
          refine judge_comm v node spec fun hargs hargs' hkey => ?_
          refine hsettled e e' ((mem_findSpecializations h _ e).mp he).1
            ((mem_findSpecializations h _ e').mp he').1 ?_
          rw [hargs, hargs', hkey]

end Mixed

/-- **The order of indexing does not show in what a TU is told**, but for the order of the
reports. -/
theorem reports_order (hperm : h.calls.Perm h'.calls) (hsettled : Settled h)
    (opts : AnalysisOptions) (tu : TranslationUnit) :
    (handleTranslationUnit h.index opts tu).Perm (handleTranslationUnit h'.index opts tu) := by
  have hend : Mixed (tu.nodes.foldl (AnalyzerVisitor.visit h.index opts tu.includedFiles) {})
      (tu.nodes.foldl (AnalyzerVisitor.visit h'.index opts tu.includedFiles) {}) :=
    List.foldl_rel (Mixed.refl {}) fun node _ _ _ hm => hm.visit hperm hsettled node
  exact hend.diagnostics

/-! ### A shard that comes before and after the others -/

/-- A guide of another header. -/
def otherGuide : IndexCall := .guide ⟨str "Box", str "other.h", [str "char"], str "Box<char>", 5⟩

/-- The guide after the four headers. -/
def otherGuideLast : IndexHistory := .call fourHeaders otherGuide

/-- The guide before them. -/
def otherGuideFirst : IndexHistory := .absorb (.call .empty otherGuide) fourHeaders .inOrder

theorem reports_order_guides :
    (handleTranslationUnit otherGuideLast.index {} seesIntOnly).map (·.missingHeader)
      = [str "double.h", str "guide.h", str "other.h", str "box.h"] ∧
    (handleTranslationUnit otherGuideFirst.index {} seesIntOnly).map (·.missingHeader)
      = [str "double.h", str "other.h", str "guide.h", str "box.h"] ∧
    (handleTranslationUnit otherGuideLast.index {} seesIntOnly).Perm
      (handleTranslationUnit otherGuideFirst.index {} seesIntOnly) := by
  have hsettled : Settled otherGuideLast := by
    intro e e' he he' _
    simp only [otherGuideLast, otherGuide, fourHeaders, twoOverloads, IndexHistory.calls,
      List.nil_append, List.cons_append, List.mem_cons, reduceCtorEq,
      IndexCall.specialization.injEq, List.not_mem_nil, or_false, false_or] at he he'
    exact he.trans he'.symm
  refine ⟨by decide +kernel, by decide +kernel, ?_⟩
  exact reports_order List.perm_append_comm hsettled {} seesIntOnly

end Orders

end Vycor
