/-
When two dead-code requests get one answer in every graph.

The answer shows the limit, the offset, the counts of the verdicts and what the filters let
pass, so requests with one answer everywhere ask the same in each of these, with one
exception: a file filter that names a system path lets nothing pass while system paths are
left out, whatever else it says.  Entry points count as a set for the pessimistic walk and
in the order they are first named for the optimistic one.
-/
import Vycor.Proofs.DeadCodeProbes

namespace Vycor

open DeadCodeAnalyzer

/-! ### Filters

Two filters that let the same names pass in every graph need not be equal: they
may both shut everything out. What else can be said of them is that they are the
same.
-/

theorem isSystemPath_of_extends {path longer : Str} (h : path <+: longer)
    (hsystem : isSystemPath path = true) : isSystemPath longer = true := by
  unfold isSystemPath at hsystem ⊢
  by_cases hempty : path = []
  · simp [hempty] at hsystem
  · have hlonger : longer ≠ [] := by
      rintro rfl
      exact hempty (List.prefix_nil.mp h)
    rw [if_neg hempty] at hsystem
    rw [if_neg hlonger]
    by_cases hany : systemPrefixes.any (·.isPrefixOf path) = true
    · have hmore : systemPrefixes.any (·.isPrefixOf longer) = true := by
        obtain ⟨start, hstart, hpre⟩ := List.any_eq_true.mp hany
        refine List.any_eq_true.mpr ⟨start, hstart, ?_⟩
        rw [List.isPrefixOf_iff_prefix] at hpre ⊢
        exact hpre.trans h
      rw [if_pos hmore]
    · rw [if_neg hany] at hsystem
      split
      · rfl
      · unfold strContains at hsystem ⊢
        simp only [Bool.or_eq_true, decide_eq_true_eq] at hsystem ⊢
        exact hsystem.imp (·.trans h.isInfix) (·.trans h.isInfix)

/-- The filter lets no function pass. -/
def ShutsOut (a : DeadCodeArgs) : Prop := a.includeSystem = false ∧ isSystemPath a.fileStart = true

/-- Filters that let through the same nodes. -/
def SameFilters (a b : DeadCodeArgs) : Prop :=
  (a.nameStart = b.nameStart ∧ a.fileStart = b.fileStart) ∨ (ShutsOut a ∧ ShutsOut b)

theorem SameFilters.symm {a b : DeadCodeArgs} (h : SameFilters a b) : SameFilters b a :=
  h.imp (fun h => ⟨h.1.symm, h.2.symm⟩) (fun h => ⟨h.2, h.1⟩)

theorem SameFilters.trans {a b c : DeadCodeArgs} (hab : a.includeSystem = b.includeSystem)
    (hbc : b.includeSystem = c.includeSystem) (h : SameFilters a b) (h' : SameFilters b c) :
    SameFilters a c := by
  unfold SameFilters ShutsOut at *
  rcases h with ⟨hname, hfile⟩ | ⟨ha, hb⟩
  · rw [hab, hname, hfile]
    exact h'
  · refine Or.inr ⟨ha, ?_⟩
    rcases h' with ⟨-, hfile⟩ | ⟨-, hc⟩
    · rw [← hbc, ← hfile]
      exact hb
    · exact hc

theorem passesFilter_iff (a : DeadCodeArgs) (node : CallGraphNode) (name : Str) :
    passesFilter a (some node) name = true
      ↔ (a.includeSystem = true ∨ isSystemPath node.file = false) ∧ a.nameStart <+: name ∧
        a.fileStart <+: node.file := by
  unfold passesFilter
  cases hsystem : a.includeSystem <;> cases hpath : isSystemPath node.file <;>
    by_cases hname : a.nameStart = [] <;> by_cases hfile : a.fileStart = [] <;>
    simp [hpath, hname, hfile]

theorem passesFilter_shut {a : DeadCodeArgs} (h : ShutsOut a) (node : Option CallGraphNode)
    (name : Str) : passesFilter a node name = false := by
  cases node with
  | none =>
      have hfile : a.fileStart ≠ [] := by
        intro hc
        have hsystem := h.2
        rw [hc] at hsystem
        exact absurd hsystem (by decide)
      unfold passesFilter
      simp [hfile]
  | some node =>
      rw [Bool.eq_false_iff]
      intro hpass
      obtain ⟨hsystem, -, hfile⟩ := (passesFilter_iff a node name).mp hpass
      rcases hsystem with hsystem | hsystem
      · rw [h.1] at hsystem
        exact absurd hsystem (by decide)
      · rw [isSystemPath_of_extends hfile h.2] at hsystem
        exact absurd hsystem (by decide)

theorem SameFilters.passes {a b : DeadCodeArgs} (h : SameFilters a b)
    (hsystem : a.includeSystem = b.includeSystem) (node : Option CallGraphNode) (name : Str) :
    passesFilter a node name = passesFilter b node name := by
  rcases h with ⟨hname, hfile⟩ | ⟨ha, hb⟩
  · unfold passesFilter
    rw [hsystem, hname, hfile]
  · rw [passesFilter_shut ha, passesFilter_shut hb]

/-- What is a start of both is a start of the common part. -/
theorem prefix_of_paddings {a b : Str} {n : Nat} (h : b <+: a ++ List.replicate n 97)
    (h' : b <+: a ++ List.replicate n 98) : b <+: a := by
  rcases Nat.le_total b.length a.length with hle | hle
  · exact List.prefix_of_prefix_length_le h (List.prefix_append _ _) hle
  · obtain ⟨tail, rfl⟩ := List.prefix_of_prefix_length_le (List.prefix_append _ _) h hle
    rw [List.prefix_append_right_inj] at h h'
    cases tail with
    | nil => simp
    | cons c rest =>
        have hc := List.eq_of_mem_replicate (h.subset List.mem_cons_self)
        have hc' := List.eq_of_mem_replicate (h'.subset List.mem_cons_self)
        rw [hc] at hc'
        exact absurd hc' (by decide)

theorem exists_longer (names : List Str) : ∃ n, ∀ name ∈ names, name.length < n := by
  induction names with
  | nil => exact ⟨0, fun _ h => nomatch h⟩
  | cons name rest ih =>
      obtain ⟨n, hn⟩ := ih
      refine ⟨n + name.length + 1, fun other hother => ?_⟩
      rcases List.mem_cons.mp hother with rfl | hother
      · omega
      · have := hn other hother
        omega

/-- A filter that lets something pass is at least as strict as one that lets the same pass. -/
theorem extends_of_passes {a b : DeadCodeArgs} {names : List Str} (hopen : ¬ ShutsOut a)
    (h : ∀ name file, name ∉ names →
      passesFilter a (some { qualifiedName := name, file, usr := name }) name = true →
      passesFilter b (some { qualifiedName := name, file, usr := name }) name = true) :
    b.nameStart <+: a.nameStart ∧ b.fileStart <+: a.fileStart ∧ ¬ ShutsOut b := by
  obtain ⟨n, hn⟩ := exists_longer names
  have hallowed : a.includeSystem = true ∨ isSystemPath a.fileStart = false := by
    unfold ShutsOut at hopen
    cases hsystem : a.includeSystem <;> cases hpath : isSystemPath a.fileStart <;> simp_all
  have hpass : ∀ c : UInt8,
      (b.includeSystem = true ∨ isSystemPath a.fileStart = false) ∧
        b.nameStart <+: a.nameStart ++ List.replicate n c ∧ b.fileStart <+: a.fileStart := by
    intro c
    have hfresh : a.nameStart ++ List.replicate n c ∉ names := by
      intro hmem
      have hlength := hn _ hmem
      rw [List.length_append, List.length_replicate] at hlength
      omega
    refine (passesFilter_iff b _ _).mp (h _ a.fileStart hfresh ?_)
    exact (passesFilter_iff a _ _).mpr ⟨hallowed, List.prefix_append _ _, List.prefix_rfl⟩
  obtain ⟨hsystem, hname, hfile⟩ := hpass 97
  refine ⟨prefix_of_paddings hname (hpass 98).2.1, hfile, ?_⟩
  rintro ⟨hno, hshut⟩
  rcases hsystem with hsystem | hsystem
  · rw [hno] at hsystem
    exact absurd hsystem (by decide)
  · rw [isSystemPath_of_extends hfile hshut] at hsystem
    exact absurd hsystem (by decide)

theorem sameFilters_of_passes {a b : DeadCodeArgs} (names : List Str)
    (h : ∀ name file, name ∉ names →
      (passesFilter a (some { qualifiedName := name, file, usr := name }) name = true ↔
        passesFilter b (some { qualifiedName := name, file, usr := name }) name = true)) :
    SameFilters a b := by
  have hab := fun hopen => extends_of_passes (a := a) (b := b) hopen
    fun name file hname => (h name file hname).mp
  have hba := fun hopen => extends_of_passes (a := b) (b := a) hopen
    fun name file hname => (h name file hname).mpr
  have heq : ∀ {s t : Str}, s <+: t → t <+: s → s = t :=
    fun hst hts => hst.eq_of_length (Nat.le_antisymm hst.length_le hts.length_le)
  by_cases ha : ShutsOut a
  · by_cases hb : ShutsOut b
    · exact Or.inr ⟨ha, hb⟩
    · exact absurd ha (hba hb).2.2
  · obtain ⟨hname, hfile, hb⟩ := hab ha
    obtain ⟨hname', hfile', -⟩ := hba hb
    exact Or.inl ⟨heq hname' hname, heq hfile' hfile⟩

/-! ### Entry points -/

theorem filter_only {names known : List Str} {name absent other : Str} (hnodup : names.Nodup)
    (hname : name ∈ names) (habsent : absent ∉ names) (hother : other ∉ names)
    (hknown : ∀ x, x ∈ known ↔ x = name ∨ x = absent ∨ x = other) :
    names.filter (· ∈ known) = [name] := by
  have hfilter : names.filter (· ∈ known) = names.filter (· ∈ [name]) := by
    refine List.filter_congr fun x hx => ?_
    have hxa : x ≠ absent := fun hc => habsent (hc ▸ hx)
    have hxo : x ≠ other := fun hc => hother (hc ▸ hx)
    simp [hknown, hxa, hxo]
  rw [hfilter]
  refine (filter_one hnodup name).resolve_left fun hc => ?_
  have hmem : name ∈ names.filter (· ∈ [name]) := List.mem_filter.mpr ⟨hname, by simp⟩
  rw [hc] at hmem
  exact absurd hmem List.not_mem_nil

/-- Two orders of the same names differ in two of them. -/
theorem exists_swapped {names names' : List Str} (hnodup : names.Nodup) (hnodup' : names'.Nodup)
    (hsame : ∀ name, name ∈ names ↔ name ∈ names') (hne : names ≠ names') {other : Str}
    (hother : other ∉ names) :
    ∃ first second, second ≠ first ∧ first ∈ names ∧ second ∈ names ∧
      names.filter (· ∈ [first, second, other]) = [first, second] ∧
      names'.filter (· ∈ [first, second, other]) = [second, first] := by
  induction names generalizing names' with
  | nil =>
      cases names' with
      | nil => exact absurd rfl hne
      | cons name _ => exact absurd ((hsame name).mpr List.mem_cons_self) List.not_mem_nil
  | cons x rest ih =>
      cases names' with
      | nil => exact absurd ((hsame x).mp List.mem_cons_self) List.not_mem_nil
      | cons x' rest' =>
          rw [List.nodup_cons] at hnodup hnodup'
          rw [List.mem_cons, not_or] at hother
          by_cases hx : x = x'
          · subst hx
            have hsame' : ∀ name, name ∈ rest ↔ name ∈ rest' := by
              intro name
              have hone := hsame name
              rw [List.mem_cons, List.mem_cons] at hone
              constructor
              · intro hname
                refine (hone.mp (Or.inr hname)).resolve_left ?_
                rintro rfl
                exact hnodup.1 hname
              · intro hname
                refine (hone.mpr (Or.inr hname)).resolve_left ?_
                rintro rfl
                exact hnodup'.1 hname
            obtain ⟨first, second, hdiffer, hfirst, hsecond, hfilter, hfilter'⟩ :=
              ih hnodup.2 hnodup'.2 hsame' (fun hc => hne (hc ▸ rfl)) hother.2
            have hout : x ∉ [first, second, other] := by
              simp only [List.mem_cons, List.not_mem_nil, or_false, not_or]
              exact ⟨fun hc => hnodup.1 (hc ▸ hfirst), fun hc => hnodup.1 (hc ▸ hsecond),
                Ne.symm hother.1⟩
            refine ⟨first, second, hdiffer, List.mem_cons_of_mem _ hfirst,
              List.mem_cons_of_mem _ hsecond, ?_, ?_⟩
            · rw [List.filter_cons_of_neg (by simpa using hout), hfilter]
            · rw [List.filter_cons_of_neg (by simpa using hout), hfilter']
          · have hin : x' ∈ rest :=
              (List.mem_cons.mp ((hsame x').mpr List.mem_cons_self)).resolve_left (Ne.symm hx)
            have hin' : x ∈ rest' :=
              (List.mem_cons.mp ((hsame x).mp List.mem_cons_self)).resolve_left hx
            have hother' : other ∉ rest' := by
              intro hc
              rcases List.mem_cons.mp ((hsame other).mpr (List.mem_cons_of_mem _ hc)) with hc' | hc'
              · exact hother.1 hc'
              · exact hother.2 hc'
            refine ⟨x, x', Ne.symm hx, List.mem_cons_self, List.mem_cons_of_mem _ hin, ?_, ?_⟩
            · rw [List.filter_cons_of_pos (by simp),
                filter_only hnodup.2 hin hnodup.1 hother.2 (by simp; tauto)]
            · rw [List.filter_cons_of_pos (by simp),
                filter_only hnodup'.2 hin' hnodup'.1 hother' (by simp)]

/-! ### Answers -/

variable {fixUTF8 : Str → Str}

/-- What an answer shows of the verdicts and of its request. -/
theorem response_shows {a b : DeadCodeArgs} {g : CallGraph} {results results' : UMap Str Liveness}
    (h : deadCodeResponse fixUTF8 a g results = deadCodeResponse fixUTF8 b g results') :
    (results.entries.map (·.2)).count .alive = (results'.entries.map (·.2)).count .alive ∧
    (results.entries.map (·.2)).count .optimisticallyAlive
      = (results'.entries.map (·.2)).count .optimisticallyAlive ∧
    (entriesOf fixUTF8 a g results .dead).length = (entriesOf fixUTF8 b g results' .dead).length ∧
    a.limit = b.limit ∧ a.offset = b.offset := by
  unfold deadCodeResponse at h
  simp only [Json.object.injEq, List.cons.injEq, field, Prod.mk.injEq, true_and, Json.ofNat,
    Json.ofInt, Json.number.injEq, Nat.cast_inj, Int.cast_inj] at h
  obtain ⟨-, halive, hoptimistic, hdead, -, hoffset, hlimit, -⟩ := h
  exact ⟨halive, hoptimistic, hdead, hlimit, hoffset⟩

/-- The request, answered without a cache. -/
def answerAfresh (fixUTF8 : Str → Str) (a : DeadCodeArgs) (g : CallGraph) : Json :=
  deadCodeResponse fixUTF8 a g (analyze g a.entryPoints a.includeOptimistic)

/-- The requests ask the same in every graph. -/
structure SameQuestion (a b : DeadCodeArgs) : Prop where
  seeds : SameSeeds a.includeOptimistic a.entryPoints b.entryPoints
  limit : a.limit = b.limit
  offset : a.offset = b.offset
  filters : SameFilters a b

theorem response_congr {a b : DeadCodeArgs} (hsystem : a.includeSystem = b.includeSystem)
    (hlimit : a.limit = b.limit) (hoffset : a.offset = b.offset) (hfilters : SameFilters a b)
    (g : CallGraph) (results : UMap Str Liveness) :
    deadCodeResponse fixUTF8 a g results = deadCodeResponse fixUTF8 b g results := by
  have hentries : ∀ verdict,
      entriesOf fixUTF8 a g results verdict = entriesOf fixUTF8 b g results verdict := by
    intro verdict
    unfold entriesOf
    simp only [hfilters.passes hsystem]
  unfold deadCodeResponse
  simp only [hentries, hlimit, hoffset]

theorem sameSeeds_of_responses {a b : DeadCodeArgs} {entryPoints entryPoints' : List Str}
    {optimistic : Bool}
    (h : ∀ s : Script, deadCodeResponse fixUTF8 a s.graph (analyze s.graph entryPoints optimistic)
      = deadCodeResponse fixUTF8 b s.graph (analyze s.graph entryPoints' optimistic)) :
    SameSeeds optimistic entryPoints entryPoints' := by
  have hnames : ∀ name, name ∈ entryPoints ↔ name ∈ entryPoints' := by
    intro name
    have hcount := (response_shows (h (soleFunction name []))).1
    rw [soleFunction_analyze, soleFunction_analyze] at hcount
    by_cases hin : name ∈ entryPoints <;> by_cases hin' : name ∈ entryPoints' <;>
      simp_all
  cases optimistic with
  | false => exact hnames
  | true =>
      show firsts entryPoints = firsts entryPoints'
      by_contra hne
      obtain ⟨method, hmethod⟩ : ∃ method, method ∉ entryPoints := by
        obtain ⟨n, hn⟩ := exists_longer entryPoints
        refine ⟨List.replicate n 97, fun hc => ?_⟩
        have hlength := hn _ hc
        rw [List.length_replicate] at hlength
        exact absurd hlength (Nat.lt_irrefl n)
      have hsame : ∀ name, name ∈ firsts entryPoints ↔ name ∈ firsts entryPoints' := by
        intro name
        rw [mem_firsts, mem_firsts]
        exact hnames name
      obtain ⟨maker, user, hmu, hmaker, huser, hfound, hmissed⟩ :=
        exists_swapped (nodup_firsts entryPoints) (nodup_firsts entryPoints') hsame hne
          (mt mem_firsts.mp hmethod)
      rw [mem_firsts] at hmaker huser
      have hmm : method ≠ maker := fun hc => hmethod (hc ▸ hmaker)
      have hum : method ≠ user := fun hc => hmethod (hc ▸ huser)
      have hcount := (response_shows (h (makerAndUser maker user method))).2.1
      rw [makerAndUser_analyze hmu hmm hum hmaker huser hmethod,
        makerAndUser_analyze hmu hmm hum ((hnames _).mp hmaker) ((hnames _).mp huser)
          (mt (hnames _).mpr hmethod),
        makerAndUser_found hmu hmm hum hfound, makerAndUser_missed hmu hmm hum hmissed] at hcount
      simp [hmm, hum] at hcount

/-- **Requests with one answer in every graph** agree in what they ask. -/
theorem parts_of_responses {a b : DeadCodeArgs} {entryPoints entryPoints' : List Str}
    {optimistic : Bool}
    (h : ∀ s : Script, deadCodeResponse fixUTF8 a s.graph (analyze s.graph entryPoints optimistic)
      = deadCodeResponse fixUTF8 b s.graph (analyze s.graph entryPoints' optimistic)) :
    SameSeeds optimistic entryPoints entryPoints' ∧ a.limit = b.limit ∧ a.offset = b.offset ∧
      SameFilters a b := by
  obtain ⟨-, -, -, hlimit, hoffset⟩ := response_shows (h .empty)
  refine ⟨sameSeeds_of_responses h, hlimit, hoffset, ?_⟩
  refine sameFilters_of_passes (entryPoints ++ entryPoints') fun name file hname => ?_
  rw [List.mem_append, not_or] at hname
  have hdead : ∀ (c : DeadCodeArgs) (eps : List Str), name ∉ eps →
      (entriesOf fixUTF8 c (soleFunction name file).graph
          (analyze (soleFunction name file).graph eps optimistic) .dead).length
        = if passesFilter c (some { qualifiedName := name, file, usr := name }) name then 1 else 0 := by
    intro c eps heps
    rw [soleFunction_analyze, if_neg heps]
    unfold entriesOf
    rw [AList.entries_insert_of_notMem (AList.notMem_empty _)]
    by_cases hpass : passesFilter c (some { qualifiedName := name, file, usr := name }) name = true <;>
      simp [soleFunction_findNode, hpass]
  have hlength := (response_shows (h (soleFunction name file))).2.2.1
  rw [hdead a entryPoints hname.1, hdead b entryPoints' hname.2] at hlength
  by_cases ha : passesFilter a (some { qualifiedName := name, file, usr := name }) name = true <;>
    by_cases hb : passesFilter b (some { qualifiedName := name, file, usr := name }) name = true <;>
    simp_all

end Vycor
