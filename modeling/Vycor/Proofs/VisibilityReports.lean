/-
What changes the reports of a TU.

A report names the header that is missing.  With that header among the files of the TU its
reports are gone, and no other one changes.  And reports only come in addition: with an index
that knows more, or with more of the options on, a TU is still told all it was told before, in
the same order.

Calls and variables are judged one entry at a time.  Specializations are reported once for each
key, so there the two runs go side by side, and what ties them is which keys were reported.
-/
import Vycor.Proofs.OverloadVerdicts

namespace Vycor

open GlobalIndex (bar)

/-! ### Keys of reports -/

/-- A key tells its parts, where template and header have no bar. -/
theorem specReportKey_inj {a a' : Str} {e e' : SpecializationEntry}
    (htemplate : 124 ∉ e.templateName) (htemplate' : 124 ∉ e'.templateName)
    (hheader : 124 ∉ e.headerPath) (hheader' : 124 ∉ e'.headerPath)
    (h : specReportKey a e = specReportKey a' e') :
    e.templateName = e'.templateName ∧ a = a' ∧ e.headerPath = e'.headerPath := by
  obtain ⟨hfront, hpath⟩ := append_bar_inj hheader hheader' h
  have hsplit : e.templateName ++ 124 :: a = e'.templateName ++ 124 :: a' := by
    have hbar : ∀ x y : Str, x ++ bar ++ y = x ++ 124 :: y := fun x y => List.append_assoc ..
    rwa [hbar, hbar] at hfront
  obtain ⟨hname, hargs⟩ := append_cons_inj htemplate htemplate' hsplit
  exact ⟨hname, hargs, hpath⟩

theorem specReportKey_header {a a' : Str} {e e' : SpecializationEntry}
    (hheader : 124 ∉ e.headerPath) (hheader' : 124 ∉ e'.headerPath)
    (h : specReportKey a e = specReportKey a' e') : e.headerPath = e'.headerPath :=
  (append_bar_inj hheader hheader' h).2

/-- Neither template names nor headers of specializations have a bar. -/
def Unbarred (h : IndexHistory) : Prop :=
  ∀ e, IndexCall.specialization e ∈ h.calls → 124 ∉ e.templateName ∧ 124 ∉ e.headerPath

/-! ### A small index -/

/-- Two overloads of `ns::scale`, in two headers. -/
def twoOverloads : IndexHistory :=
  .call (.call .empty
    (.overload ⟨str "ns::scale", str "int.h", [str "const int &"], str "int", 1⟩))
    (.overload ⟨str "ns::scale", str "double.h", [str "double"], str "double", 2⟩)

/-- Two overloads, a deduction guide and a specialization, each in a header of its own. -/
def fourHeaders : IndexHistory :=
  .call (.call twoOverloads (.guide ⟨str "Box", str "guide.h", [str "long"], str "Box<long>", 3⟩))
    (.specialization ⟨str "Box", str "int", str "box.h", 4⟩)

/-- A TU that sees the first of the headers only. -/
def seesIntOnly : TranslationUnit where
  includedFiles := [str "int.h"]
  nodes :=
    [.call { inMainFile := true, callee := some ⟨true, str "ns::scale", [str "const int &"]⟩,
             argTypes := [str "double"], location := str "m.cpp:1:1" },
      .var { inMainFile := true, templateName := some (str "Box"), hasInit := true,
             type := str "Box<int>", location := str "m.cpp:2:1" },
      .classTemplate ⟨str "Box", [⟨true, str "int", none⟩], str "t.h:1:1"⟩]

theorem fourHeaders_unbarred : Unbarred fourHeaders := by
  intro e he
  simp only [fourHeaders, twoOverloads, IndexHistory.calls, List.nil_append, List.cons_append,
    List.mem_cons, reduceCtorEq, IndexCall.specialization.injEq, List.not_mem_nil, or_false,
    false_or] at he
  subst he
  decide

/-! ### Specializations of a template -/

/-- The specializations of a template that the calls gave. -/
def specializationsGiven (calls : List IndexCall) (name : Str) : List SpecializationEntry :=
  calls.filterMap (specializationsPart name).concerns

theorem mem_specializationsGiven {calls : List IndexCall} {name : Str} {x : SpecializationEntry} :
    x ∈ specializationsGiven calls name ↔ .specialization x ∈ calls ∧ x.templateName = name := by
  refine List.mem_filterMap.trans ⟨?_, fun h => ⟨_, h.1, if_pos h.2⟩⟩
  rintro ⟨c, hc, hgiven⟩
  cases c with
  | specialization e =>
      obtain ⟨hname, he⟩ := Option.ite_none_right_eq_some.mp hgiven
      obtain rfl := Option.some.inj he
      exact ⟨hc, hname⟩
  | _ => exact nomatch hgiven

theorem IndexHistory.findSpecializations_eq (h : IndexHistory) (name : Str) :
    h.index.findSpecializations name
      = (specializationsGiven h.calls name).foldl
          (Keyed.put IndexSpec.specializationId Keyed.first) [] :=
  part_eq (specializationsPart name) h

/-- What an index has of a template is what some call gave. -/
theorem mem_findSpecializations (h : IndexHistory) (name : Str) (x : SpecializationEntry) :
    x ∈ h.index.findSpecializations name ↔
      .specialization x ∈ h.calls ∧ x.templateName = name := by
  rw [h.findSpecializations_eq, ← mem_specializationsGiven]
  refine ⟨Keyed.mem_of_mem_foldl_first, fun hx => ?_⟩
  obtain ⟨y, hy, hid⟩ := Keyed.exists_mem_foldl_first IndexSpec.specializationId hx
  -- the entry of the same id is of the same template, so it is the same entry
  have hsame : y = x := by
    have hname := (mem_specializationsGiven.mp (Keyed.mem_of_mem_foldl_first hy)).2.trans
      (mem_specializationsGiven.mp hx).2.symm
    cases y
    cases x
    simp_all [IndexSpec.specializationId]
  exact hsame ▸ hy

/-! ### A header more

The once-only set may differ between the two runs: what is not reported with the
header in is not noted either. It differs in keys of that header only.
-/

section Header

variable {index : GlobalIndex} {opts : AnalysisOptions} {files : List Str} {header : Str}

/-- The diagnostic is not about this header. -/
def notAbout (header : Str) (d : Diagnostic) : Bool := d.missingHeader ≠ header

theorem filter_notAbout_none {o : Option Diagnostic}
    (h : ∀ d, o = some d → d.missingHeader = header) : o.filter (notAbout header) = none := by
  cases o with
  | none => rfl
  | some d => simp [notAbout, h d rfl]

theorem filter_notAbout_self {o : Option Diagnostic} {missing : Str} (hne : missing ≠ header)
    (h : ∀ d, o = some d → d.missingHeader = missing) : o.filter (notAbout header) = o := by
  cases o with
  | none => rfl
  | some d => simp [notAbout, h d rfl, hne]

theorem judgeOverload_missing {node : CallNode} {callee : DirectCallee} {scores : List Nat}
    {entry : FunctionOverloadEntry} {d : Diagnostic}
    (h : judgeOverload index opts files node callee scores entry = some d) :
    d.missingHeader = entry.headerPath := by
  unfold judgeOverload at h
  dsimp only at h
  repeat' split at h
  all_goals first
    | exact absurd h.symm (Option.some_ne_none d)
    | exact Option.some.inj h ▸ rfl

theorem judgeOverload_header (node : CallNode) (callee : DirectCallee) (scores : List Nat)
    (entry : FunctionOverloadEntry) :
    judgeOverload index opts (header :: files) node callee scores entry
      = (judgeOverload index opts files node callee scores entry).filter (notAbout header) := by
  by_cases hsame : entry.headerPath = header
  · rw [filter_notAbout_none fun d hd => (judgeOverload_missing hd).trans hsame]
    unfold judgeOverload
    split
    · rfl
    · exact if_pos (hsame ▸ List.mem_cons_self)
  · rw [filter_notAbout_self hsame fun d hd => judgeOverload_missing hd]
    unfold judgeOverload
    simp only [List.mem_cons, hsame, false_or]

theorem visitCallExpr_header (node : CallNode) :
    visitCallExpr index opts (header :: files) node
      = (visitCallExpr index opts files node).filter (notAbout header) := by
  unfold visitCallExpr
  split
  · rfl
  · split
    · rfl
    · split
      · rfl
      · dsimp only
        split
        · rfl
        · split
          · rfl
          · rw [List.filter_filterMap]
            exact List.filterMap_congr fun entry _ => judgeOverload_header _ _ _ entry

theorem judgeGuide_header (node : VarNode) (entry : DeductionGuideEntry) :
    judgeGuide (header :: files) node entry
      = (judgeGuide files node entry).filter (notAbout header) := by
  have hmissing : ∀ d, judgeGuide files node entry = some d → d.missingHeader = entry.headerPath := by
    intro d hd
    unfold judgeGuide at hd
    split at hd
    · exact absurd hd.symm (Option.some_ne_none d)
    · split at hd
      · exact absurd hd.symm (Option.some_ne_none d)
      · exact Option.some.inj hd ▸ rfl
  by_cases hsame : entry.headerPath = header
  · rw [filter_notAbout_none fun d hd => (hmissing d hd).trans hsame]
    exact if_pos (hsame ▸ List.mem_cons_self)
  · rw [filter_notAbout_self hsame hmissing]
    unfold judgeGuide
    simp only [List.mem_cons, hsame, false_or]

theorem visitVarDecl_header (node : VarNode) :
    visitVarDecl index opts (header :: files) node
      = (visitVarDecl index opts files node).filter (notAbout header) := by
  unfold visitVarDecl
  split
  · rfl
  · split
    · rfl
    · split
      · rfl
      · rw [List.filter_filterMap]
        exact List.filterMap_congr fun entry _ => judgeGuide_header _ entry

/-- The visitor of a TU with the header beside the one of the TU without it. -/
structure Spares (header : Str) (v v' : AnalyzerVisitor) : Prop where
  diagnostics : v'.diagnostics = v.diagnostics.filter (notAbout header)
  reported : ∀ args (e : SpecializationEntry), 124 ∉ e.headerPath → e.headerPath ≠ header →
    (specReportKey args e ∈ v'.reportedSpecs ↔ specReportKey args e ∈ v.reportedSpecs)

variable {v v' : AnalyzerVisitor}

theorem Spares.append (h : Spares header v v') (ds : List Diagnostic) :
    Spares header { v with diagnostics := v.diagnostics ++ ds }
      { v' with diagnostics := v'.diagnostics ++ ds.filter (notAbout header) } :=
  ⟨by rw [h.diagnostics, List.filter_append], h.reported⟩

theorem Spares.judge (h : Spares header v v') {entry : SpecializationEntry}
    (hbar : 124 ∉ entry.headerPath) (node : ClassTemplateNode) (spec : KnownSpecialization) :
    Spares header (judgeSpecialization files node spec v entry)
      (judgeSpecialization (header :: files) node spec v' entry) := by
  unfold judgeSpecialization
  by_cases hargs : entry.argsString = spec.args
  swap
  · rw [if_pos hargs, if_pos hargs]
    exact h
  rw [if_neg (not_not_intro hargs), if_neg (not_not_intro hargs)]
  by_cases hfile : entry.headerPath ∈ files
  · rw [if_pos hfile, if_pos (List.mem_cons_of_mem header hfile)]
    exact h
  rw [if_neg hfile]
  by_cases hsame : entry.headerPath = header
  · have hin : entry.headerPath ∈ header :: files := hsame ▸ List.mem_cons_self
    rw [if_pos hin]
    split
    · exact h
    · refine ⟨?_, ?_⟩
      · rw [List.filter_append, h.diagnostics]
        simp [notAbout, specializationInvisible, hsame]
      · intro args e he hne
        rw [h.reported args e he hne, List.mem_append, List.mem_singleton]
        refine (or_iff_left fun hkey => hne ?_).symm
        exact (specReportKey_header he hbar hkey).trans hsame
  · have hout : entry.headerPath ∉ header :: files := by simp [hsame, hfile]
    rw [if_neg hout]
    by_cases hold : specReportKey spec.args entry ∈ v.reportedSpecs
    · rw [if_pos hold, if_pos ((h.reported _ entry hbar hsame).mpr hold)]
      exact h
    · rw [if_neg hold, if_neg fun hc => hold ((h.reported _ entry hbar hsame).mp hc)]
      refine ⟨?_, ?_⟩
      · rw [List.filter_append, h.diagnostics]
        simp [notAbout, specializationInvisible, hsame]
      · intro args e he hne
        rw [List.mem_append, List.mem_append, h.reported args e he hne]

theorem Spares.visit (h : Spares header v v')
    (hbar : ∀ name, ∀ e ∈ index.findSpecializations name, 124 ∉ e.headerPath) (node : AstNode) :
    Spares header (v.visit index opts files node) (v'.visit index opts (header :: files) node) := by
  cases node with
  | call node =>
      unfold AnalyzerVisitor.visit
      dsimp only
      rw [visitCallExpr_header]
      exact h.append _
  | var node =>
      unfold AnalyzerVisitor.visit
      dsimp only
      rw [visitVarDecl_header]
      exact h.append _
  | classTemplate node =>
      unfold AnalyzerVisitor.visit visitClassTemplateDecl
      dsimp only
      split
      · exact h
      · refine List.foldl_rel h fun spec _ v v' h => ?_
        split
        · exact h
        · exact List.foldl_rel h fun e he v v' h => h.judge (hbar node.qualifiedName e he) node spec

/-- **Including a header takes its reports away and no others**, for every index without a bar
in the headers of its specializations. -/
theorem reports_include_header (h : IndexHistory) (opts : AnalysisOptions) (tu : TranslationUnit)
    (header : Str) (hbar : ∀ e, IndexCall.specialization e ∈ h.calls → 124 ∉ e.headerPath) :
    handleTranslationUnit h.index opts { tu with includedFiles := header :: tu.includedFiles }
      = (handleTranslationUnit h.index opts tu).filter fun d => d.missingHeader ≠ header := by
  have hbar : ∀ name, ∀ e ∈ h.index.findSpecializations name, 124 ∉ e.headerPath :=
    fun name e he => hbar e ((mem_findSpecializations h name e).mp he).1
  have hstart : Spares header {} {} := ⟨rfl, fun _ _ _ _ => Iff.rfl⟩
  exact (List.foldl_rel hstart fun node _ v v' h => h.visit hbar node).diagnostics

theorem reports_include_header_guide :
    (handleTranslationUnit fourHeaders.index {} seesIntOnly).map (·.missingHeader)
      = [str "double.h", str "guide.h", str "box.h"] ∧
    handleTranslationUnit fourHeaders.index {}
        { seesIntOnly with includedFiles := str "guide.h" :: seesIntOnly.includedFiles }
      = (handleTranslationUnit fourHeaders.index {} seesIntOnly).filter
        fun d => d.missingHeader ≠ str "guide.h" := by
  refine ⟨by decide +kernel, ?_⟩
  exact reports_include_header fourHeaders {} seesIntOnly (str "guide.h") fun e he =>
    (fourHeaders_unbarred e he).2

end Header

/-! ### More known and more asked for -/

/-- What is on in one is on in the other. -/
structure AnalysisOptions.Within (opts opts' : AnalysisOptions) : Prop where
  adl : opts.enableAdlDiag = true → opts'.enableAdlDiag = true
  ctad : opts.enableCtadDiag = true → opts'.enableCtadDiag = true
  specialization : opts.enableSpecializationDiag = true → opts'.enableSpecializationDiag = true
  sameScore : opts.warnSameScore = true → opts'.warnSameScore = true
  convertibility : opts.modelConvertibility = true → opts'.modelConvertibility = true

/-- A search that finds the same and more, in a longer list. -/
theorem filterMap_sublist {α β : Type} {f g : α → Option β} (h : ∀ a b, f a = some b → g a = some b)
    {l l' : List α} (hl : l.Sublist l') : (l.filterMap f).Sublist (l'.filterMap g) := by
  refine List.Sublist.trans ?_ (hl.filterMap g)
  clear hl
  induction l with
  | nil => exact List.Sublist.slnil
  | cons a rest ih =>
      cases hf : f a with
      | some b =>
          rw [List.filterMap_cons_some hf, List.filterMap_cons_some (h a b hf)]
          exact ih.cons_cons b
      | none =>
          rw [List.filterMap_cons_none hf, List.filterMap_cons]
          split
          · exact ih
          · exact ih.cons _

section Growing

variable {calls calls' : List IndexCall} {opts opts' : AnalysisOptions} {files : List Str}

theorem Converts.mono (hsub : calls ⊆ calls') {source target : Str}
    (h : Converts calls source target) : Converts calls' source target := by
  have hbeyond : ∀ {x y : Str}, Beyond calls x y → Beyond calls' x y :=
    Relation.TransGen.mono (fun _ _ hcall => hsub hcall) _ _
  cases h with
  | same => exact .same _
  | arithmetic hs ht => exact .arithmetic hs ht
  | derived hs ht hpath => exact .derived hs ht (hbeyond hpath)
  | pointee hpath => exact .pointee (hbeyond hpath)
  | constructor hcall => exact .constructor (hsub hcall)
  | operator hcall => exact .operator (hsub hcall)

theorem Rival.mono {node : CallNode} {callee : DirectCallee} {entry : FunctionOverloadEntry}
    (h : Rival calls opts files node callee entry) (hsub : calls ⊆ calls')
    (hopts : opts.Within opts') : Rival calls' opts' files node callee entry := by
  refine ⟨h.other, h.invisible, h.arity, fun i hi => ?_⟩
  rcases h.viable i hi with hsame | hres | harith | ⟨hon, hconv⟩
  · exact Or.inl hsame
  · exact Or.inr (Or.inl hres)
  · exact Or.inr (Or.inr (Or.inl harith))
  · exact Or.inr (Or.inr (Or.inr ⟨hopts.convertibility hon, hconv.mono hsub⟩))

theorem Says.mono {node : CallNode} {callee : DirectCallee} {entry : FunctionOverloadEntry}
    {d : Diagnostic} (h : Says calls opts files node callee entry d) (hsub : calls ⊆ calls')
    (hopts : opts.Within opts') : Says calls' opts' files node callee entry d := by
  cases h with
  | fallback hr hback hout => exact .fallback (hr.mono hsub hopts) hback hout
  | ambiguity hr hout hback => exact .ambiguity (hr.mono hsub hopts) hout hback
  | sameScore hr hon hexact => exact .sameScore (hr.mono hsub hopts) (hopts.sameScore hon) hexact

theorem Asks.mono {node : CallNode} {callee : DirectCallee} (h : Asks calls opts node callee)
    (hwithin : calls <+: calls') (hopts : opts.Within opts') : Asks calls' opts' node callee :=
  { h with
    enabled := hopts.adl h.enabled
    several := h.several.trans (hwithin.sublist.filterMap _).length_le }

end Growing

section Runs

variable {h h' : IndexHistory} {opts opts' : AnalysisOptions} {files : List Str}

theorem visitCallExpr_sublist (hwithin : h.calls <+: h'.calls) (hopts : opts.Within opts')
    (node : CallNode) :
    (visitCallExpr h.index opts files node).Sublist (visitCallExpr h'.index opts' files node) := by
  by_cases hasks : ∃ callee, Asks h.calls opts node callee
  · obtain ⟨callee, hasks⟩ := hasks
    have hasks' := hasks.mono hwithin hopts
    rw [visitCallExpr_eq h files hasks, visitCallExpr_eq h' files hasks']
    refine filterMap_sublist (fun entry d hd => ?_) (hwithin.sublist.filterMap _)
    rw [judgeOverload_iff h opts files hasks.arguments hasks.arity] at hd
    rw [judgeOverload_iff h' opts' files hasks.arguments hasks.arity]
    exact hd.mono hwithin.subset hopts
  · rw [visitCallExpr_nil h files fun callee hc => hasks ⟨callee, hc⟩]
    exact List.nil_sublist _

theorem visitVarDecl_sublist (hwithin : h.calls <+: h'.calls) (hopts : opts.Within opts')
    (node : VarNode) :
    (visitVarDecl h.index opts files node).Sublist (visitVarDecl h'.index opts' files node) := by
  unfold visitVarDecl
  by_cases hchecked : (!opts.enableCtadDiag || !node.inMainFile || !node.hasTypeSource) = true
  · rw [if_pos hchecked]
    exact List.nil_sublist _
  · have hchecked' : ¬ (!opts'.enableCtadDiag || !node.inMainFile || !node.hasTypeSource) = true := by
      simp only [Bool.or_eq_true, Bool.not_eq_true', not_or, Bool.not_eq_false] at hchecked ⊢
      exact ⟨⟨hopts.ctad hchecked.1.1, hchecked.1.2⟩, hchecked.2⟩
    rw [if_neg hchecked, if_neg hchecked']
    cases node.templateName with
    | none => exact List.nil_sublist _
    | some templateName =>
        dsimp only
        split
        · exact List.nil_sublist _
        · rw [h.findDeductionGuides_eq, h'.findDeductionGuides_eq]
          exact (hwithin.sublist.filterMap _).filterMap _

/-! ### Specializations -/

theorem prefix_foldl_first {α κ : Type} [DecidableEq κ] (key : α → κ) (es l : List α) :
    l <+: es.foldl (Keyed.put key Keyed.first) l := by
  induction es generalizing l with
  | nil => exact List.prefix_rfl
  | cons e rest ih =>
      refine List.IsPrefix.trans ?_ (ih _)
      by_cases hold : key e ∈ l.map key
      · rw [Keyed.put_first_of_mem hold]
      · rw [Keyed.put_of_not_mem hold]
        exact List.prefix_append _ _

/-- What a template has stays first in its list. -/
theorem findSpecializations_prefix (hwithin : h.calls <+: h'.calls) (name : Str) :
    h.index.findSpecializations name <+: h'.index.findSpecializations name := by
  obtain ⟨more, hmore⟩ := hwithin
  have hgiven : specializationsGiven h'.calls name
      = specializationsGiven h.calls name ++ specializationsGiven more name := by
    rw [← hmore]
    exact List.filterMap_append
  rw [h.findSpecializations_eq, h'.findSpecializations_eq, hgiven, List.foldl_append]
  exact prefix_foldl_first _ _ _

/-- A visitor only gains by an entry. -/
theorem judgeSpecialization_gains (node : ClassTemplateNode) (spec : KnownSpecialization)
    (v : AnalyzerVisitor) (entry : SpecializationEntry) :
    v.diagnostics <+: (judgeSpecialization files node spec v entry).diagnostics ∧
      v.reportedSpecs ⊆ (judgeSpecialization files node spec v entry).reportedSpecs := by
  unfold judgeSpecialization
  split
  · exact ⟨List.prefix_rfl, List.Subset.refl _⟩
  · split
    · exact ⟨List.prefix_rfl, List.Subset.refl _⟩
    · split
      · exact ⟨List.prefix_rfl, List.Subset.refl _⟩
      · exact ⟨List.prefix_append _ _, List.subset_append_left _ _⟩

theorem foldl_judge_gains (node : ClassTemplateNode) (spec : KnownSpecialization)
    (l : List SpecializationEntry) (v : AnalyzerVisitor) :
    v.diagnostics <+: (l.foldl (judgeSpecialization files node spec) v).diagnostics ∧
      v.reportedSpecs ⊆ (l.foldl (judgeSpecialization files node spec) v).reportedSpecs :=
  List.foldlRecOn (motive := fun w : AnalyzerVisitor =>
      v.diagnostics <+: w.diagnostics ∧ v.reportedSpecs ⊆ w.reportedSpecs)
    l _ ⟨List.prefix_rfl, List.Subset.refl _⟩ fun w hw entry _ =>
      have hgain := judgeSpecialization_gains node spec w entry
      ⟨hw.1.trans hgain.1, fun _ hk => hgain.2 (hw.2 hk)⟩

/-- An entry that concerns the instantiation is reported once the list has been gone through. -/
theorem reported_of_mem {node : ClassTemplateNode} {spec : KnownSpecialization}
    {l : List SpecializationEntry} {e : SpecializationEntry} (he : e ∈ l)
    (hargs : e.argsString = spec.args) (hfile : e.headerPath ∉ files) (v : AnalyzerVisitor) :
    specReportKey spec.args e
      ∈ (l.foldl (judgeSpecialization files node spec) v).reportedSpecs := by
  obtain ⟨pre, post, rfl⟩ := List.append_of_mem he
  rw [List.foldl_append, List.foldl_cons]
  refine (foldl_judge_gains node spec post _).2 ?_
  generalize pre.foldl (judgeSpecialization files node spec) v = w
  unfold judgeSpecialization
  rw [if_neg (not_not_intro hargs), if_neg hfile]
  split
  · assumption
  · exact List.mem_append_right _ List.mem_cons_self

/-- The visitor of the smaller index beside the one of the larger: what was reported of the
entries that both know is the same. -/
structure Grows (h : IndexHistory) (opts : AnalysisOptions) (v v' : AnalyzerVisitor) : Prop where
  diagnostics : v.diagnostics.Sublist v'.diagnostics
  reported : opts.enableSpecializationDiag = true → ∀ name, ∀ e ∈ h.index.findSpecializations name,
    (specReportKey e.argsString e ∈ v.reportedSpecs ↔
      specReportKey e.argsString e ∈ v'.reportedSpecs)

variable {v v' : AnalyzerVisitor}

theorem Grows.append (hgrows : Grows h opts v v') {ds ds' : List Diagnostic}
    (hsub : ds.Sublist ds') :
    Grows h opts { v with diagnostics := v.diagnostics ++ ds }
      { v' with diagnostics := v'.diagnostics ++ ds' } :=
  ⟨hgrows.diagnostics.append hsub, hgrows.reported⟩

/-- An entry that both know. -/
theorem Grows.judge (hgrows : Grows h opts v v') (hon : opts.enableSpecializationDiag = true)
    {node : ClassTemplateNode} {spec : KnownSpecialization} {entry : SpecializationEntry}
    (hentry : entry ∈ h.index.findSpecializations node.qualifiedName) :
    Grows h opts (judgeSpecialization files node spec v entry)
      (judgeSpecialization files node spec v' entry) := by
  unfold judgeSpecialization
  by_cases hargs : entry.argsString = spec.args
  swap
  · rw [if_pos hargs, if_pos hargs]
    exact hgrows
  rw [if_neg (not_not_intro hargs), if_neg (not_not_intro hargs)]
  by_cases hfile : entry.headerPath ∈ files
  · rw [if_pos hfile, if_pos hfile]
    exact hgrows
  rw [if_neg hfile, if_neg hfile]
  have hsame := hgrows.reported hon _ entry hentry
  rw [hargs] at hsame
  by_cases hold : specReportKey spec.args entry ∈ v.reportedSpecs
  · rw [if_pos hold, if_pos (hsame.mp hold)]
    exact hgrows
  · rw [if_neg hold, if_neg fun hc => hold (hsame.mpr hc)]
    refine ⟨hgrows.diagnostics.append (List.Sublist.refl _), fun _ name e he => ?_⟩
    rw [List.mem_append, List.mem_append, hgrows.reported hon name e he]

/-- An entry that only the larger index knows, after all that both know. -/
theorem Grows.judge_new (hgrows : Grows h opts v v') (hwithin : h.calls <+: h'.calls)
    (hbar : Unbarred h') {node : ClassTemplateNode} {spec : KnownSpecialization}
    (hdone : ∀ e ∈ h.index.findSpecializations node.qualifiedName, e.argsString = spec.args →
      e.headerPath ∉ files → specReportKey spec.args e ∈ v'.reportedSpecs)
    {entry : SpecializationEntry}
    (hentry : entry ∈ h'.index.findSpecializations node.qualifiedName) :
    Grows h opts v (judgeSpecialization files node spec v' entry) := by
  unfold judgeSpecialization
  split
  · exact hgrows
  · rename_i hargs
    split
    · exact hgrows
    · rename_i hfile
      split
      · exact hgrows
      · rename_i hnew
        have hargs := not_not.mp hargs
        refine ⟨hgrows.diagnostics.trans (List.sublist_append_left _ _), fun hon name e he => ?_⟩
        rw [List.mem_append, List.mem_singleton, hgrows.reported hon name e he]
        refine (or_iff_left fun hkey => hnew ?_).symm
        obtain ⟨hcall, hname⟩ := (mem_findSpecializations h name e).mp he
        obtain ⟨hcall', hname'⟩ := (mem_findSpecializations h' _ entry).mp hentry
        have hold := hbar e (hwithin.subset hcall)
        obtain ⟨htemplate, hsame, hheader⟩ := specReportKey_inj hold.1 (hbar entry hcall').1 hold.2
          (hbar entry hcall').2 hkey
        -- the old entry of this key was reported before
        have hname : name = node.qualifiedName := hname.symm.trans (htemplate.trans hname')
        rw [← hkey, hsame]
        exact hdone e (hname ▸ he) hsame (hheader ▸ hfile)

theorem Grows.instantiation (hgrows : Grows h opts v v') (hwithin : h.calls <+: h'.calls)
    (hbar : Unbarred h') (hon : opts.enableSpecializationDiag = true) (node : ClassTemplateNode)
    (spec : KnownSpecialization) :
    Grows h opts
      ((h.index.findSpecializations node.qualifiedName).foldl
        (judgeSpecialization files node spec) v)
      ((h'.index.findSpecializations node.qualifiedName).foldl
        (judgeSpecialization files node spec) v') := by
  obtain ⟨more, hmore⟩ := findSpecializations_prefix hwithin node.qualifiedName
  have hboth : Grows h opts
      ((h.index.findSpecializations node.qualifiedName).foldl
        (judgeSpecialization files node spec) v)
      ((h.index.findSpecializations node.qualifiedName).foldl
        (judgeSpecialization files node spec) v') :=
    List.foldl_rel hgrows fun e he v v' hg => hg.judge hon he
  rw [← hmore, List.foldl_append]
  have hdone : ∀ e ∈ h.index.findSpecializations node.qualifiedName, e.argsString = spec.args →
      e.headerPath ∉ files → specReportKey spec.args e
        ∈ ((h.index.findSpecializations node.qualifiedName).foldl
          (judgeSpecialization files node spec) v').reportedSpecs :=
    fun e he hargs hfile => reported_of_mem he hargs hfile v'
  have hmem : ∀ e ∈ more, e ∈ h'.index.findSpecializations node.qualifiedName := fun e he =>
    hmore ▸ List.mem_append_right _ he
  have hrun := List.foldlRecOn
    (motive := fun w : AnalyzerVisitor => Grows h opts
        ((h.index.findSpecializations node.qualifiedName).foldl
          (judgeSpecialization files node spec) v) w ∧
      ∀ e ∈ h.index.findSpecializations node.qualifiedName, e.argsString = spec.args →
        e.headerPath ∉ files → specReportKey spec.args e ∈ w.reportedSpecs)
    more (judgeSpecialization files node spec) ⟨hboth, hdone⟩ fun w hw entry hentry =>
      ⟨hw.1.judge_new hwithin hbar hw.2 (hmem entry hentry), fun e he hargs hfile =>
        (judgeSpecialization_gains node spec w entry).2 (hw.2 e he hargs hfile)⟩
  exact hrun.1

theorem Grows.visit (hgrows : Grows h opts v v') (hwithin : h.calls <+: h'.calls)
    (hbar : Unbarred h') (hopts : opts.Within opts') (node : AstNode) :
    Grows h opts (v.visit h.index opts files node) (v'.visit h'.index opts' files node) := by
  cases node with
  | call node => exact hgrows.append (visitCallExpr_sublist hwithin hopts node)
  | var node => exact hgrows.append (visitVarDecl_sublist hwithin hopts node)
  | classTemplate node =>
      unfold AnalyzerVisitor.visit visitClassTemplateDecl
      dsimp only
      by_cases hon : opts.enableSpecializationDiag = true
      · rw [if_neg (by simp [hon]), if_neg (by simp [hopts.specialization hon])]
        refine List.foldl_rel hgrows fun spec _ v v' hg => ?_
        split
        · exact hg
        · exact hg.instantiation hwithin hbar hon node spec
      · rw [if_pos (by simp [hon])]
        refine ⟨hgrows.diagnostics.trans ?_, fun hc => absurd hc hon⟩
        split
        · exact List.Sublist.refl _
        · refine List.foldlRecOn (motive := fun w : AnalyzerVisitor =>
            v'.diagnostics.Sublist w.diagnostics) _ _ (List.Sublist.refl _) fun w hw spec _ => ?_
          split
          · exact hw
          · exact hw.trans (foldl_judge_gains node spec _ w).1.sublist

/-- **Reports only come in addition**: an index that went on from a smaller one, by whatever
calls and merges, and options with more of them on leave every report of a TU standing. -/
theorem reports_grow (hwithin : h.calls <+: h'.calls) (hbar : Unbarred h')
    (hopts : opts.Within opts') (tu : TranslationUnit) :
    (handleTranslationUnit h.index opts tu).Sublist (handleTranslationUnit h'.index opts' tu) := by
  have hstart : Grows h opts {} {} := ⟨List.Sublist.refl _, fun _ _ _ _ => Iff.rfl⟩
  exact (List.foldl_rel hstart fun node _ v v' hg =>
    hg.visit hwithin hbar hopts node).diagnostics

theorem reports_grow_small :
    (handleTranslationUnit twoOverloads.index { enableCtadDiag := false } seesIntOnly).map
        (·.missingHeader) = [str "double.h"] ∧
    (handleTranslationUnit twoOverloads.index { enableCtadDiag := false } seesIntOnly).Sublist
      (handleTranslationUnit fourHeaders.index {} seesIntOnly) := by
  have hopts : AnalysisOptions.Within { enableCtadDiag := false } {} :=
    ⟨id, fun hc => absurd hc Bool.false_ne_true, id, id, id⟩
  exact ⟨by decide +kernel, reports_grow ⟨_, rfl⟩ fourHeaders_unbarred hopts seesIntOnly⟩

end Runs

end Vycor
