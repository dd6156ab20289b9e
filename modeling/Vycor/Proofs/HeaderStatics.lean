/-
Which header statics are reported as duplicated.

Entries of one file and line are merged, whatever their names are: the first keeps its name and
its constness and takes the TUs of all.  So the first entry of a line stands for the line, and the
reports are right exactly when it may: when its name alone is duplicated there, or when nothing is
and it is const or has a single copy.
-/
import Vycor.Proofs.DiagnosticOrder

namespace Vycor

open GlobalIndex Keyed

/-! ### What the TUs contributed -/

/-- The header statics that an index was given, in order. -/
def IndexHistory.headerStatics (h : IndexHistory) : List HeaderStaticEntry :=
  h.calls.filterMap headerStaticsPart.concerns

/-- File, line and name. -/
abbrev StaticSite := Str × UInt32 × Str

section Definitions

variable (es : List HeaderStaticEntry)

/-- The TU has a copy at the site that is not const. -/
def Contributes (site : StaticSite) (tu : Str) : Prop :=
  ∃ e ∈ es, headerStaticTie e = site ∧ e.isConst = false ∧ tu ∈ e.tuPaths

/-- Two TUs have a copy of it. -/
def Duplicated (site : StaticSite) : Prop :=
  ∃ tu tu', tu ≠ tu' ∧ Contributes es site tu ∧ Contributes es site tu'

/-- The entries of the file and line. -/
def onLine (e : HeaderStaticEntry) : List HeaderStaticEntry :=
  es.filter fun e' => e'.filePath = e.filePath ∧ e'.line = e.line

/-- No entry of its file and line comes before it. -/
def FirstOnLine (e : HeaderStaticEntry) : Prop := (onLine es e).head? = some e

/-- The name of the first entry is duplicated, and no other of its line. -/
def FirstStands (e : HeaderStaticEntry) : Prop :=
  e.isConst = false ∧ Duplicated es (headerStaticTie e) ∧
    ∀ e' ∈ onLine es e, Duplicated es (headerStaticTie e') → e'.name = e.name

/-- The entry lists at most one TU, and the line no other. -/
def SingleCopy (e : HeaderStaticEntry) : Prop :=
  e.tuPaths.length ≤ 1 ∧
    ∀ a ∈ onLine es e, ∀ b ∈ onLine es e, ∀ tu ∈ a.tuPaths, ∀ tu' ∈ b.tuPaths, tu = tu'

/-- Nothing of the line is duplicated, and the first entry is not taken for it. -/
def NoneStands (e : HeaderStaticEntry) : Prop :=
  (e.isConst = true ∨ SingleCopy es e) ∧ ∀ e' ∈ onLine es e, ¬ Duplicated es (headerStaticTie e')

/-- All TUs of the line have a copy of what the first entry names. -/
def LineIsFirsts (e : HeaderStaticEntry) : Prop :=
  ∀ e' ∈ onLine es e, ∀ tu ∈ e'.tuPaths, Contributes es (headerStaticTie e) tu

variable (reports : List HeaderStaticEntry)

/-- The reports are the sites with copies in two TUs. -/
def ReportsDuplicated : Prop :=
  ∀ site, site ∈ reports.map headerStaticTie ↔ Duplicated es site

/-- A report counts the TUs that have a copy, and no others of its line. -/
def CountsApart : Prop :=
  ∀ x ∈ reports, ∀ tu, tu ∈ x.tuPaths ↔ Contributes es (headerStaticTie x) tu

end Definitions

/-- The entries that are reported. -/
def duplicatedStatics (index : GlobalIndex) : List HeaderStaticEntry :=
  sortByTie headerStaticTie (index.headerStatics.filter isDuplicatedStatic)

/-! ### The first entry of a line

The dedup key is file and line, so the index keeps the first entry of a line and
adds the TUs of all others on the line to it, whatever they name.
-/

variable {es : List HeaderStaticEntry} {e e' : HeaderStaticEntry}

/-- What becomes of the first entry of a line. -/
def keptStatic (es : List HeaderStaticEntry) (e : HeaderStaticEntry) : HeaderStaticEntry :=
  { e with tuPaths := mergeNames e.tuPaths ((onLine es e).flatMap (·.tuPaths)) }

theorem onLine_eq (es : List HeaderStaticEntry) (e : HeaderStaticEntry) :
    es.filter (headerStaticKey · = headerStaticKey e) = onLine es e := by
  refine List.filter_congr fun e' _ => decide_eq_decide.mpr ⟨headerStaticKey_inj, ?_⟩
  rintro ⟨hfile, hline⟩
  unfold headerStaticKey
  rw [hfile, hline]

theorem onLine_congr (hfile : e'.filePath = e.filePath) (hline : e'.line = e.line) :
    onLine es e' = onLine es e := by
  unfold onLine
  rw [hfile, hline]

theorem mem_onLine : e' ∈ onLine es e ↔ e' ∈ es ∧ e'.filePath = e.filePath ∧ e'.line = e.line := by
  unfold onLine
  rw [List.mem_filter, decide_eq_true_eq]

theorem FirstOnLine.mem (h : FirstOnLine es e) : e ∈ onLine es e := List.mem_of_mem_head? h

theorem FirstOnLine.unique (h : FirstOnLine es e) (h' : FirstOnLine es e')
    (hfile : e'.filePath = e.filePath) (hline : e'.line = e.line) : e' = e := by
  unfold FirstOnLine at h h'
  rw [onLine_congr hfile hline, h] at h'
  exact (Option.some.inj h').symm

/-- Every entry is on a line that has a first. -/
theorem exists_first (he : e ∈ es) : ∃ f, FirstOnLine es f ∧ e ∈ onLine es f := by
  have hself : e ∈ onLine es e := mem_onLine.mpr ⟨he, rfl, rfl⟩
  have hf := List.head?_eq_some_head (List.ne_nil_of_mem hself)
  set f := (onLine es e).head (List.ne_nil_of_mem hself)
  obtain ⟨-, hfile, hline⟩ := mem_onLine.mp (List.mem_of_mem_head? hf)
  refine ⟨f, ?_, ?_⟩
  · unfold FirstOnLine
    rw [onLine_congr hfile hline]
    exact hf
  · rw [onLine_congr hfile hline]
    exact hself

/-- **The index keeps the first entry of each line, with the TUs of the line.** -/
theorem mem_headerStatics (h : IndexHistory) {x : HeaderStaticEntry} :
    x ∈ h.index.headerStatics ↔
      ∃ e, FirstOnLine h.headerStatics e ∧ x = keptStatic h.headerStatics e := by
  have hpart : h.index.headerStatics =
      h.headerStatics.foldl (put headerStaticKey mergeHeaderStatic) [] :=
    IndexHistory.part_eq headerStaticsPart h
  have hkept : ∀ {x}, x ∈ h.index.headerStatics →
      ∃ e, FirstOnLine h.headerStatics e ∧ headerStaticKey e = headerStaticKey x ∧
        x = keptStatic h.headerStatics e := by
    intro x hx
    rw [hpart] at hx
    obtain ⟨e, hfirst, hxe⟩ := headerStatic_first hx
    have hkey : headerStaticKey e = headerStaticKey x :=
      of_decide_eq_true (List.mem_filter.mp (List.mem_of_mem_head? hfirst)).2
    unfold tusAt at hxe
    rw [← hkey, onLine_eq] at hfirst hxe
    exact ⟨e, hfirst, hkey, hxe⟩
  constructor
  · intro hx
    obtain ⟨e, hfirst, -, hxe⟩ := hkept hx
    exact ⟨e, hfirst, hxe⟩
  · rintro ⟨e, hfirst, rfl⟩
    have hkeys : headerStaticKey e ∈ h.index.headerStatics.map headerStaticKey := by
      rw [hpart]
      refine (mem_keys_foldl_put merges_headerStatic _ []).mpr (Or.inr ?_)
      exact List.mem_map_of_mem (mem_onLine.mp hfirst.mem).1
    obtain ⟨x, hx, hkx⟩ := List.mem_map.mp hkeys
    obtain ⟨e', hfirst', hkey', rfl⟩ := hkept hx
    obtain ⟨hfile, hline⟩ := headerStaticKey_inj (hkey'.trans hkx)
    rwa [hfirst.unique hfirst' hfile hline] at hx

/-! ### Which first entries are reported -/

theorem mem_tuPaths_kept (h : FirstOnLine es e) (tu : Str) :
    tu ∈ (keptStatic es e).tuPaths ↔ ∃ e' ∈ onLine es e, tu ∈ e'.tuPaths := by
  unfold keptStatic mergeNames
  rw [Dedup.mem_foldl_pushUnique, List.mem_flatMap]
  exact ⟨fun hor => hor.elim (fun hin => ⟨e, h.mem, hin⟩) id, Or.inr⟩

theorem isDuplicatedStatic_kept (h : FirstOnLine es e) :
    isDuplicatedStatic (keptStatic es e) = true ↔ e.isConst = false ∧ ¬ SingleCopy es e := by
  have hmem : ∀ tu, (tu ∈ e.tuPaths ∨ tu ∈ (onLine es e).flatMap (·.tuPaths)) ↔
      ∃ e' ∈ onLine es e, tu ∈ e'.tuPaths := by
    intro tu
    rw [List.mem_flatMap]
    exact ⟨fun hor => hor.elim (fun hin => ⟨e, h.mem, hin⟩) id, Or.inr⟩
  unfold isDuplicatedStatic keptStatic mergeNames
  rw [Bool.and_eq_true, Bool.not_eq_true', decide_eq_true_eq,
    Dedup.two_le_length_foldl_pushUnique]
  refine and_congr_right fun _ => ?_
  simp only [hmem]
  constructor
  · rintro (hlong | ⟨tu, ⟨a, ha, htu⟩, tu', ⟨b, hb, htu'⟩, hne⟩) ⟨hshort, hsame⟩
    · omega
    · exact hne (hsame a ha b hb tu htu tu' htu')
  · intro hnot
    by_contra hc
    obtain ⟨hshort, hsame⟩ := not_or.mp hc
    refine hnot ⟨by omega, fun a ha b hb tu htu tu' htu' => ?_⟩
    by_contra hne
    exact hsame ⟨tu, ⟨a, ha, htu⟩, tu', ⟨b, hb, htu'⟩, hne⟩

theorem mem_duplicatedStatics_filter {index : GlobalIndex} {x : HeaderStaticEntry} :
    x ∈ duplicatedStatics index ↔ x ∈ index.headerStatics.filter isDuplicatedStatic :=
  (List.mergeSort_perm (index.headerStatics.filter isDuplicatedStatic)
    fun a b => !tieLess (headerStaticTie b) (headerStaticTie a)).mem_iff

/-- Reported is the first entry of a line where it is not const and not the single copy. -/
theorem mem_duplicatedStatics (h : IndexHistory) {x : HeaderStaticEntry} :
    x ∈ duplicatedStatics h.index ↔
      ∃ e, FirstOnLine h.headerStatics e ∧ (e.isConst = false ∧ ¬ SingleCopy h.headerStatics e) ∧
        x = keptStatic h.headerStatics e := by
  rw [mem_duplicatedStatics_filter, List.mem_filter, mem_headerStatics]
  constructor
  · rintro ⟨⟨e, hfirst, rfl⟩, hdup⟩
    exact ⟨e, hfirst, (isDuplicatedStatic_kept hfirst).mp hdup, rfl⟩
  · rintro ⟨e, hfirst, hdup, rfl⟩
    exact ⟨⟨e, hfirst, rfl⟩, (isDuplicatedStatic_kept hfirst).mpr hdup⟩

/-- Two copies at a site of the line are not a single one. -/
theorem Duplicated.not_single (h : Duplicated es (headerStaticTie e')) (he' : e' ∈ onLine es e) :
    ¬ SingleCopy es e := by
  obtain ⟨tu, tu', hne, ⟨a, ha, hsite, -, htu⟩, ⟨b, hb, hsite', -, htu'⟩⟩ := h
  obtain ⟨-, hfile, hline⟩ := mem_onLine.mp he'
  have hon : ∀ {a}, a ∈ es → headerStaticTie a = headerStaticTie e' → a ∈ onLine es e := by
    intro a ha hsite
    obtain ⟨hfile', hrest⟩ := Prod.mk.inj hsite
    exact mem_onLine.mpr ⟨ha, hfile'.trans hfile, (Prod.mk.inj hrest).1.trans hline⟩
  rintro ⟨-, hsame⟩
  exact hne (hsame a (hon ha hsite) b (hon hb hsite') tu htu tu' htu')

/-! ### When the reports are right -/

/-- The first entry may stand for its line. -/
def LineReportedRight (es : List HeaderStaticEntry) (e : HeaderStaticEntry) : Prop :=
  FirstStands es e ∨ NoneStands es e

/-- And all TUs of a line that is reported may be counted. -/
def LineCountedRight (es : List HeaderStaticEntry) (e : HeaderStaticEntry) : Prop :=
  FirstStands es e ∧ LineIsFirsts es e ∨ NoneStands es e

theorem reportsDuplicated_iff (h : IndexHistory) :
    ReportsDuplicated h.headerStatics (duplicatedStatics h.index) ↔
      ∀ e, FirstOnLine h.headerStatics e → LineReportedRight h.headerStatics e := by
  have hsites : ∀ site, site ∈ (duplicatedStatics h.index).map headerStaticTie ↔
      ∃ e, FirstOnLine h.headerStatics e ∧ (e.isConst = false ∧ ¬ SingleCopy h.headerStatics e) ∧
        headerStaticTie e = site := by
    intro site
    rw [List.mem_map]
    constructor
    · rintro ⟨x, hx, rfl⟩
      obtain ⟨e, hfirst, hdup, rfl⟩ := (mem_duplicatedStatics h).mp hx
      exact ⟨e, hfirst, hdup, rfl⟩
    · rintro ⟨e, hfirst, hdup, rfl⟩
      exact ⟨_, (mem_duplicatedStatics h).mpr ⟨e, hfirst, hdup, rfl⟩, rfl⟩
  constructor
  · intro hexact e hfirst
    -- a site of the line that is reported is that of the first entry
    have hfirsts : ∀ e' ∈ onLine h.headerStatics e, Duplicated h.headerStatics (headerStaticTie e') →
        e'.name = e.name ∧ e.isConst = false ∧ ¬ SingleCopy h.headerStatics e := by
      intro e' he' hdup
      obtain ⟨-, hfile, hline⟩ := mem_onLine.mp he'
      obtain ⟨f, hf, hreported, hsite⟩ := (hsites _).mp ((hexact _).mpr hdup)
      obtain ⟨hfile', hrest⟩ := Prod.mk.inj hsite
      obtain ⟨hline', hname⟩ := Prod.mk.inj hrest
      obtain rfl := hfirst.unique hf (hfile'.trans hfile) (hline'.trans hline)
      exact ⟨hname.symm, hreported⟩
    by_cases hreported : e.isConst = false ∧ ¬ SingleCopy h.headerStatics e
    · exact Or.inl ⟨hreported.1, (hexact _).mp ((hsites _).mpr ⟨e, hfirst, hreported, rfl⟩),
        fun e' he' hdup => (hfirsts e' he' hdup).1⟩
    · refine Or.inr ⟨?_, fun e' he' hdup => hreported (hfirsts e' he' hdup).2⟩
      cases hconst : e.isConst with
      | true => exact Or.inl rfl
      | false => exact Or.inr (not_not.mp fun hc => hreported ⟨hconst, hc⟩)
  · intro hright site
    rw [hsites]
    constructor
    · rintro ⟨e, hfirst, ⟨hconst, hmany⟩, rfl⟩
      rcases hright e hfirst with hstands | hnone
      · exact hstands.2.1
      · rcases hnone.1 with hconst' | hsingle
        · rw [hconst] at hconst'
          cases hconst'
        · exact absurd hsingle hmany
    · intro hdup
      obtain ⟨_, _, _, ⟨e', he', rfl, -, -⟩, -⟩ := id hdup
      obtain ⟨e, hfirst, hon⟩ := exists_first he'
      rcases hright e hfirst with hstands | hnone
      · refine ⟨e, hfirst, ⟨hstands.1, hdup.not_single hon⟩, ?_⟩
        obtain ⟨-, hfile, hline⟩ := mem_onLine.mp hon
        unfold headerStaticTie
        rw [hfile, hline, hstands.2.2 e' hon hdup]
      · exact absurd hdup (hnone.2 e' hon)

theorem countsApart_iff (h : IndexHistory) :
    CountsApart h.headerStatics (duplicatedStatics h.index) ↔
      ∀ e, FirstOnLine h.headerStatics e →
        e.isConst = false ∧ ¬ SingleCopy h.headerStatics e → LineIsFirsts h.headerStatics e := by
  constructor
  · intro hapart e hfirst hreported e' he' tu htu
    have hx := (mem_duplicatedStatics h).mpr ⟨e, hfirst, hreported, rfl⟩
    exact (hapart _ hx tu).mp ((mem_tuPaths_kept hfirst tu).mpr ⟨e', he', htu⟩)
  · intro hlines x hx tu
    obtain ⟨e, hfirst, hreported, rfl⟩ := (mem_duplicatedStatics h).mp hx
    rw [mem_tuPaths_kept hfirst]
    constructor
    · rintro ⟨e', he', htu⟩
      exact hlines e hfirst hreported e' he' tu htu
    · rintro ⟨e', he', hsite, -, htu⟩
      obtain ⟨hfile, hrest⟩ := Prod.mk.inj hsite
      exact ⟨e', mem_onLine.mpr ⟨he', hfile, (Prod.mk.inj hrest).1⟩, htu⟩

/-- **The reports are right exactly when the first entry of every line may stand for it**, and they
count no TU of another entry exactly when, further, all TUs of a reported line have a copy of what
its first entry names. -/
theorem header_static_reports_iff (h : IndexHistory) :
    analyzeHeaderStaticDuplication h.index =
      (duplicatedStatics h.index).map headerStaticDiagnostic ∧
    (ReportsDuplicated h.headerStatics (duplicatedStatics h.index) ↔
      ∀ e, FirstOnLine h.headerStatics e → LineReportedRight h.headerStatics e) ∧
    (ReportsDuplicated h.headerStatics (duplicatedStatics h.index) ∧
        CountsApart h.headerStatics (duplicatedStatics h.index) ↔
      ∀ e, FirstOnLine h.headerStatics e → LineCountedRight h.headerStatics e) := by
  refine ⟨rfl, reportsDuplicated_iff h, ?_⟩
  rw [reportsDuplicated_iff, countsApart_iff]
  constructor
  · rintro ⟨hright, hlines⟩ e hfirst
    rcases hright e hfirst with hstands | hnone
    · exact Or.inl ⟨hstands, hlines e hfirst ⟨hstands.1, hstands.2.1.not_single hfirst.mem⟩⟩
    · exact Or.inr hnone
  · intro hcounted
    refine ⟨fun e hfirst => (hcounted e hfirst).imp_left And.left, fun e hfirst hreported => ?_⟩
    rcases hcounted e hfirst with hstands | hnone
    · exact hstands.2
    · rcases hnone.1 with hconst | hsingle
      · rw [hreported.1] at hconst
        cases hconst
      · exact absurd hsingle hreported.2

/-! ### Two declarators on a line -/

/-- What one TU has of a header's static. -/
def staticCopy (name tu : String) (isConst : Bool) : IndexCall :=
  .headerStatic { name := str name, filePath := str "h.h", line := 3, isConst, tuPaths := [str tu] }

/-- `static int a, b;` seen by two TUs. -/
def twoDeclarators : IndexHistory :=
  .absorb (.call (.call .empty (staticCopy "a" "1.cpp" false)) (staticCopy "b" "1.cpp" false))
    (.call (.call .empty (staticCopy "a" "2.cpp" false)) (staticCopy "b" "2.cpp" false)) .inOrder

/-- Const in the first TU, and not in the two others. -/
def constInOne : IndexHistory :=
  .call (.call (.call .empty (staticCopy "a" "1.cpp" true)) (staticCopy "a" "2.cpp" false))
    (staticCopy "a" "3.cpp" false)

/-- `a`, and `b` of another TU. -/
def countedTogether : IndexHistory :=
  .call (.call .empty (staticCopy "a" "1.cpp" false)) (staticCopy "b" "2.cpp" false)

/-- The second declarator is not reported, a copy that is const hides two that are not, and two
names with a copy each are reported as one with two. -/
theorem first_entry_stands_wrongly :
    ¬ ReportsDuplicated twoDeclarators.headerStatics (duplicatedStatics twoDeclarators.index) ∧
    ¬ ReportsDuplicated constInOne.headerStatics (duplicatedStatics constInOne.index) ∧
    ¬ ReportsDuplicated countedTogether.headerStatics (duplicatedStatics countedTogether.index) := by
  refine ⟨fun hexact => ?_, fun hexact => ?_, fun hexact => ?_⟩
  · have hdup : Duplicated twoDeclarators.headerStatics (str "h.h", 3, str "b") :=
      ⟨str "1.cpp", str "2.cpp", by decide,
        ⟨⟨str "b", str "h.h", 3, false, [str "1.cpp"]⟩, by decide, rfl, rfl, by decide⟩,
        ⟨⟨str "b", str "h.h", 3, false, [str "2.cpp"]⟩, by decide, rfl, rfl, by decide⟩⟩
    obtain ⟨x, hx, hsite⟩ := List.mem_map.mp ((hexact _).mpr hdup)
    have hnames : ∀ x ∈ twoDeclarators.index.headerStatics.filter isDuplicatedStatic,
        x.name = str "a" := by decide +kernel
    have hname := hnames x (mem_duplicatedStatics_filter.mp hx)
    rw [show x.name = str "b" from congrArg (·.2.2) hsite] at hname
    exact absurd hname (by decide)
  · have hdup : Duplicated constInOne.headerStatics (str "h.h", 3, str "a") :=
      ⟨str "2.cpp", str "3.cpp", by decide,
        ⟨⟨str "a", str "h.h", 3, false, [str "2.cpp"]⟩, by decide, rfl, rfl, by decide⟩,
        ⟨⟨str "a", str "h.h", 3, false, [str "3.cpp"]⟩, by decide, rfl, rfl, by decide⟩⟩
    obtain ⟨x, hx, -⟩ := List.mem_map.mp ((hexact _).mpr hdup)
    have hnone : constInOne.index.headerStatics.filter isDuplicatedStatic = [] := by decide +kernel
    rw [mem_duplicatedStatics_filter, hnone] at hx
    exact absurd hx List.not_mem_nil
  · have hreported : (⟨str "a", str "h.h", 3, false, [str "1.cpp", str "2.cpp"]⟩ : HeaderStaticEntry) ∈
        duplicatedStatics countedTogether.index :=
      mem_duplicatedStatics_filter.mpr (by decide +kernel)
    obtain ⟨tu, tu', hne, ⟨a, ha, hsite, -, htu⟩, ⟨b, hb, hsite', -, htu'⟩⟩ :=
      (hexact _).mp (List.mem_map_of_mem hreported)
    have hone : ∀ e ∈ countedTogether.headerStatics,
        headerStaticTie e = (str "h.h", 3, str "a") → e.tuPaths = [str "1.cpp"] := by decide +kernel
    rw [hone a ha hsite, List.mem_singleton] at htu
    rw [hone b hb hsite', List.mem_singleton] at htu'
    exact hne (htu.trans htu'.symm)

end Vycor
