/-
What the index-only checks say of tables in ascending order, and of their entries.

A map walked in the order of its keys is one fold over any list of keys that has them all
(`ascending_eq`), so two maps that a step does not tell apart key by key give the same run.
With that, each check of grouped entries comes down to one group: `analyzeGroup` and the
reports skip a group that says one thing, and name the split site of a settled one.

Header statics are merged by their site before they are sorted.  Which entry of a site came
first shows in the name, in `isConst` and in how often a TU is listed, and nowhere else.
-/
import Mathlib.Data.List.Dedup
import Vycor.Lib.Ordered
import Vycor.Proofs.Digits
import Vycor.Proofs.ShardMerge
import Vycor.Proofs.SiteTables

namespace Vycor

open GlobalIndex Keyed Ordered

/-! ### The order of strings and of ties -/

/-- The order of the names. -/
def strLess (a b : Str) : Bool := a < b

theorem strict_strLess : Strict strLess :=
  strict_decide List.lt_trans List.lt_asymm fun hab hba => List.le_antisymm hba hab

theorem strict_lineLess : Strict fun a b : UInt32 => decide (a < b) :=
  strict_decide UInt32.lt_trans UInt32.lt_asymm fun hab hba =>
    UInt32.le_antisymm (UInt32.not_lt.mp hba) (UInt32.not_lt.mp hab)

theorem strict_tieLess : Strict tieLess := strict_strLess.lex (strict_lineLess.lex strict_strLess)

theorem sortByTie_eq_sortBy {α : Type} (tie : α → Str × UInt32 × Str) (l : List α) :
    sortByTie tie l = sortBy tieLess tie l := rfl

theorem sortStrs_eq_sortBy (l : List Str) : sortStrs l = sortBy strLess id l := rfl

/-! ### Walks in ascending order

An ordered map is walked by its keys, so two maps with the same keys are walked
side by side, and it is enough to compare them key by key.
-/

section Ascending

variable {β γ δ : Type}

/-- The walk passes over any list of keys that has those of the map. -/
theorem ascending_eq (m : UMap Str β) {ks : List Str} (hnodup : ks.Nodup)
    (hall : ∀ k, (m.lookup k).isSome → k ∈ ks) :
    ascending m = (sortStrs ks).filterMap fun key => (m.lookup key).map fun value => (key, value) := by
  have hkey : ∀ k, k ∈ m.entries.map (·.1) ↔ (m.lookup k).isSome := by
    intro k
    rw [AList.lookup_isSome]
    rfl
  have hfilter : (m.entries.map (·.1)).filter (fun k => (m.lookup k).isSome) = m.entries.map (·.1) :=
    List.filter_eq_self.mpr fun k hk => (hkey k).mp hk
  have hperm : ((m.entries.map (·.1)).filter fun k => (m.lookup k).isSome).Perm
      (ks.filter fun k => (m.lookup k).isSome) := by
    refine (List.perm_ext_iff_of_nodup ?_ (hnodup.filter _)).mpr fun k => ?_
    · exact m.nodupKeys.filter _
    · rw [List.mem_filter, List.mem_filter, hkey]
      exact ⟨fun h => ⟨hall k h.2, h.2⟩, fun h => ⟨h.2, h.2⟩⟩
  have hsorted : sortStrs (m.entries.map (·.1)) = (sortStrs ks).filter fun k => (m.lookup k).isSome := by
    have hsame : (sortBy strLess id (m.entries.map (·.1))).filter (fun k => (m.lookup k).isSome)
        = (sortBy strLess id ks).filter fun k => (m.lookup k).isSome :=
      filter_sortBy_eq strict_strLess hperm fun _ _ _ _ h => h
    rw [sortStrs_eq_sortBy, sortStrs_eq_sortBy, ← hsame]
    refine (List.filter_eq_self.mpr fun k hk => ?_).symm
    exact (hkey k).mp ((perm_sortBy strLess id _).mem_iff.mp hk)
  unfold ascending
  rw [hsorted, List.filterMap_filter]
  refine List.filterMap_congr fun k _ => ?_
  cases m.lookup k <;> rfl

/-- Keys that two maps have. -/
theorem exists_keys (m m' : UMap Str β) :
    ∃ ks : List Str, ks.Nodup ∧ (∀ k, (m.lookup k).isSome → k ∈ ks) ∧
      ∀ k, (m'.lookup k).isSome → k ∈ ks := by
  refine ⟨(m.entries.map (·.1) ++ m'.entries.map (·.1)).dedup, List.nodup_dedup _, ?_, ?_⟩
  · intro k hk
    rw [List.mem_dedup, List.mem_append]
    exact Or.inl (AList.lookup_isSome.mp hk)
  · intro k hk
    rw [List.mem_dedup, List.mem_append]
    exact Or.inr (AList.lookup_isSome.mp hk)

/-- **A run through two maps is the same** when no step tells them apart. -/
theorem foldl_ascending {m m' : UMap Str β} {step : γ → β → γ}
    (h : ∀ k c, (m.lookup k).elim c (step c) = (m'.lookup k).elim c (step c)) (c : γ) :
    ((ascending m).map (·.2)).foldl step c = ((ascending m').map (·.2)).foldl step c := by
  obtain ⟨ks, hnodup, hm, hm'⟩ := exists_keys m m'
  have hrun : ∀ m : UMap Str β, (∀ k, (m.lookup k).isSome → k ∈ ks) → ∀ c,
      ((ascending m).map (·.2)).foldl step c
        = (sortStrs ks).foldl (fun c k => (m.lookup k).elim c (step c)) c := by
    intro m hall c
    rw [ascending_eq m hnodup hall, List.foldl_map, List.foldl_filterMap]
    refine List.foldl_ext _ _ c fun c k _ => ?_
    cases m.lookup k <;> rfl
  rw [hrun m hm, hrun m' hm']
  exact List.foldl_ext _ _ c fun c k _ => h k c

theorem flatMap_ascending {m m' : UMap Str β} {f : β → List δ}
    (h : ∀ k, (m.lookup k).elim [] f = (m'.lookup k).elim [] f) :
    (ascending m).flatMap (f ·.2) = (ascending m').flatMap (f ·.2) := by
  have hfold : ∀ l : List (Str × β), l.flatMap (f ·.2)
      = (l.map (·.2)).foldl (fun out v => out ++ f v) [] := by
    intro l
    induction l using List.reverseRecOn with
    | nil => rfl
    | append_singleton l x ih =>
        rw [List.flatMap_append, ih, List.map_append, List.foldl_append]
        simp
  rw [hfold, hfold]
  refine foldl_ascending (fun k out => ?_) []
  have hk := h k
  cases hl : m.lookup k <;> cases hl' : m'.lookup k <;> rw [hl, hl'] at hk <;>
    simp only [Option.elim] at hk ⊢
  · rw [← hk, List.append_nil]
  · rw [hk, List.append_nil]
  · rw [hk]

end Ascending

/-! ### ODR violations -/

/-- Definitions are grouped by entity, seen by their hash. -/
def odrGrouping : Grouping OdrEntry UInt64 where
  key := odrKey
  group := odrGroupKey
  name e := e.qualifiedName
  site e := (e.filePath, e.line)
  seen e := e.odrHash

theorem odrGroupKey_isClass {e e' : OdrEntry} (h : odrGroupKey e = odrGroupKey e') :
    e.isClass = e'.isClass := by
  have hlast : ∀ e : OdrEntry, (odrGroupKey e).getLast? = some (if e.isClass then 99 else 102) := by
    intro e
    unfold odrGroupKey
    rw [List.getLast?_append]
    cases e.isClass <;> rfl
  have hboth := (hlast e).symm.trans (h ▸ hlast e')
  cases hc : e.isClass <;> cases hc' : e'.isClass <;> rw [hc, hc'] at hboth <;> first
    | rfl
    | exact absurd hboth (by decide)

theorem foldl_note_sites (rows : List OdrEntry) (group : OdrGroup) :
    (rows.foldl OdrGroup.note group).sites
      = (rows.map fun e => ((e.filePath, e.line), e.odrHash)).foldl
          (fun sites s => noteSite sites s.1 s.2) group.sites := by
  induction rows generalizing group with
  | nil => rfl
  | cons e rest ih => exact ih (group.note e)

/-- The last entry names the group. -/
theorem foldl_note_last {rows : List OdrEntry} (hrows : rows ≠ []) (group : OdrGroup) :
    ∃ e ∈ rows, (rows.foldl OdrGroup.note group).displayName = e.qualifiedName ∧
      (rows.foldl OdrGroup.note group).isClass = e.isClass := by
  obtain ⟨init, last, rfl⟩ := (List.eq_nil_or_concat rows).resolve_left hrows
  refine ⟨last, by simp, ?_, ?_⟩
  · rw [List.concat_eq_append, List.foldl_append]
    rfl
  · rw [List.concat_eq_append, List.foldl_append]
    rfl

/-- A group that says one thing is passed over. -/
theorem analyzeGroup_quiet {group : OdrGroup} (htwo : ¬ 2 ≤ (allSeen group.sites).length)
    (hfind : group.sites.find? (2 ≤ ·.2.length) = none) (classesOnly : Bool) (run : OdrRun) :
    analyzeGroup classesOnly run group = run := by
  unfold analyzeGroup
  split
  · rfl
  · rw [hfind]
    dsimp only
    split
    · rw [if_pos (Nat.not_le.mp htwo)]
    · rfl

theorem analyzeGroup_split {group : OdrGroup} {site : IndexSite} {hashes : List UInt64}
    (hfind : group.sites.find? (2 ≤ ·.2.length) = some (site, hashes)) (classesOnly : Bool)
    (run : OdrRun) :
    analyzeGroup classesOnly run group
      = if group.isClass ≠ classesOnly then run
        else { run with diagnostics := run.diagnostics ++ [divergentDefinition group site hashes] } := by
  unfold analyzeGroup
  rw [hfind]

theorem lookup_odrGroups {es : List OdrEntry} {index : GlobalIndex}
    (h : index.odrEntries = odrGrouping.kept es) (k : Str) :
    (odrGroups index).lookup k
      = if k ∈ (odrGrouping.kept es).map odrGroupKey then
          some (((odrGrouping.kept es).filter (odrGroupKey · = k)).foldl OdrGroup.note {})
        else none := by
  unfold odrGroups
  rw [h]
  exact UMap.lookup_grouped _ odrGroupKey {} OdrGroup.note k

theorem odrGroup_sites (es : List OdrEntry) (k : Str) :
    (((odrGrouping.kept es).filter (odrGroupKey · = k)).foldl OdrGroup.note {}).sites
      = notes (odrGrouping.observed k (odrGrouping.kept es)) :=
  foldl_note_sites _ {}

/-- A group with a position of two hashes is reported under the name of an entry. -/
theorem analyzeGroup_divergent {es : List OdrEntry} {index : GlobalIndex} {k : Str}
    {site : IndexSite} {hashes : List UInt64} (hindex : index.odrEntries = odrGrouping.kept es)
    (hfind : (notes (odrGrouping.observed k (odrGrouping.kept es))).find? (2 ≤ ·.2.length)
      = some (site, hashes)) (classesOnly : Bool) (run : OdrRun) :
    ∃ e ∈ es, odrGroupKey e = k ∧
      ((odrGroups index).lookup k).elim run (analyzeGroup classesOnly run)
        = if e.isClass ≠ classesOnly then run
          else { run with
            diagnostics := run.diagnostics
              ++ [divergentDefinition { displayName := e.qualifiedName } site hashes] } := by
  have hne : (odrGrouping.kept es).filter (odrGroupKey · = k) ≠ [] :=
    Grouping.kept_ne_nil_of_find hfind
  obtain ⟨e, he, hname, hclass⟩ := foldl_note_last hne {}
  obtain ⟨he, hek⟩ := List.mem_filter.mp he
  have hek : odrGroupKey e = k := of_decide_eq_true hek
  refine ⟨e, Grouping.mem_of_mem_kept he, hek, ?_⟩
  rw [lookup_odrGroups hindex, if_pos (List.mem_map.mpr ⟨e, he, hek⟩)]
  rw [← odrGroup_sites] at hfind
  refine (analyzeGroup_split hfind classesOnly run).trans ?_
  rw [hclass]
  unfold divergentDefinition
  rw [hname]

theorem analyzeGroup_alike {es : List OdrEntry} {index : GlobalIndex} {k : Str}
    (hdiff : ¬ odrGrouping.Differs es k) (hindex : index.odrEntries = odrGrouping.kept es)
    (classesOnly : Bool) (run : OdrRun) :
    ((odrGroups index).lookup k).elim run (analyzeGroup classesOnly run) = run := by
  rw [lookup_odrGroups hindex]
  split
  · obtain ⟨htwo, hsplit⟩ := Grouping.quiet_kept hdiff
    rw [← odrGroup_sites] at htwo
    refine analyzeGroup_quiet htwo ?_ classesOnly run
    rw [odrGroup_sites]
    exact find_split_none hsplit
  · rfl

/-- What a check makes of the group that some entries of one key form. -/
theorem analyzeGroup_congr {es es' : List OdrEntry} (hsame : ∀ e, e ∈ es ↔ e ∈ es') {k : Str}
    (hset : odrGrouping.Differs es k → odrGrouping.Settled es k) (classesOnly : Bool)
    (run : OdrRun) {index index' : GlobalIndex} (hindex : index.odrEntries = odrGrouping.kept es)
    (hindex' : index'.odrEntries = odrGrouping.kept es') :
    ((odrGroups index).lookup k).elim run (analyzeGroup classesOnly run)
      = ((odrGroups index').lookup k).elim run (analyzeGroup classesOnly run) := by
  by_cases hdiff : odrGrouping.Differs es k
  · have hs := hset hdiff
    obtain ⟨site, hashes, hashes', hfind, hfind', hlength⟩ := hs.find_kept hsame
    -- a settled group has entries, all of one name and kind
    obtain ⟨e, he, hk, hrun⟩ := analyzeGroup_divergent hindex hfind classesOnly run
    obtain ⟨e', he', hk', hrun'⟩ := analyzeGroup_divergent hindex' hfind' classesOnly run
    have hname : e.qualifiedName = e'.qualifiedName := hs.name e he e' ((hsame e').mpr he') hk hk'
    have hclass : e.isClass = e'.isClass := odrGroupKey_isClass (hk.trans hk'.symm)
    rw [hrun, hrun', hname, hclass]
    unfold divergentDefinition
    rw [hlength]
  · have hdiff' : ¬ odrGrouping.Differs es' k :=
      fun hc => hdiff ((Grouping.differs_congr hsame).mpr hc)
    rw [analyzeGroup_alike hdiff hindex, analyzeGroup_alike hdiff' hindex']

theorem analyzeOdrViolations_congr {es es' : List OdrEntry} (hsame : ∀ e, e ∈ es ↔ e ∈ es')
    (hset : ∀ k, odrGrouping.Differs es k → odrGrouping.Settled es k)
    {index index' : GlobalIndex} (hindex : index.odrEntries = odrGrouping.kept es)
    (hindex' : index'.odrEntries = odrGrouping.kept es') :
    analyzeOdrViolations index = analyzeOdrViolations index' := by
  have hpass : ∀ (classesOnly : Bool) (run : OdrRun),
      ((ascending (odrGroups index)).map (·.2)).foldl (analyzeGroup classesOnly) run
        = ((ascending (odrGroups index')).map (·.2)).foldl (analyzeGroup classesOnly) run :=
    fun classesOnly => foldl_ascending fun k run =>
      analyzeGroup_congr hsame (hset k) classesOnly run hindex hindex'
  unfold analyzeOdrViolations
  dsimp only
  rw [hpass, hpass]

/-! ### Default arguments -/

/-- Entries of one parameter give it one default. -/
def OneDefault (es : List DefaultArgEntry) : Prop :=
  ∀ e ∈ es, ∀ e' ∈ es, defaultArgGroupKey e = defaultArgGroupKey e' → e.defaultText = e'.defaultText

theorem foldl_note_texts (rows : List DefaultArgEntry) (group : DefaultArgGroup)
    {s : IndexSite × Str} (hs : s ∈ (rows.foldl DefaultArgGroup.note group).sites) :
    s ∈ group.sites ∨ ∃ e ∈ rows, s = ((e.filePath, e.line), e.defaultText) := by
  induction rows generalizing group with
  | nil => exact Or.inl hs
  | cons e rest ih =>
      rcases ih (group.note e) hs with h | ⟨e', he', h⟩
      · rcases Dedup.mem_pushUnique.mp h with h | h
        · exact Or.inl h
        · exact Or.inr ⟨e, List.mem_cons_self, h⟩
      · exact Or.inr ⟨e', List.mem_cons_of_mem _ he', h⟩

/-- **Where every parameter has one default**, nothing is reported. -/
theorem analyzeDefaultArgDivergence_nil {index : GlobalIndex} (h : OneDefault index.defaultArgs) :
    analyzeDefaultArgDivergence index = [] := by
  unfold analyzeDefaultArgDivergence
  rw [List.flatMap_eq_nil_iff]
  rintro ⟨k, group⟩ hgroup
  unfold ascending at hgroup
  obtain ⟨key, -, hkey⟩ := List.mem_filterMap.mp hgroup
  obtain ⟨value, hvalue, hpair⟩ := Option.map_eq_some_iff.mp hkey
  obtain ⟨rfl, rfl⟩ := Prod.mk.inj hpair
  unfold defaultArgGroups at hvalue
  rw [UMap.lookup_grouped _ defaultArgGroupKey {} DefaultArgGroup.note] at hvalue
  split at hvalue
  · injection hvalue with hvalue
    have hone : ∀ s ∈ value.sites, ∀ t ∈ value.sites, s.2 = t.2 := by
      rw [← hvalue]
      intro s hs t ht
      obtain ⟨e, he, rfl⟩ := (foldl_note_texts _ _ hs).resolve_left (fun h => nomatch h)
      obtain ⟨e', he', rfl⟩ := (foldl_note_texts _ _ ht).resolve_left (fun h => nomatch h)
      obtain ⟨he, hk⟩ := List.mem_filter.mp he
      obtain ⟨he', hk'⟩ := List.mem_filter.mp he'
      exact h e he e' he' ((of_decide_eq_true hk).trans (of_decide_eq_true hk').symm)
    show value.report = []
    unfold DefaultArgGroup.report
    rw [if_pos]
    refine Nat.not_le.mp fun htwo => ?_
    have hnodup : ((value.sites.map (·.2)).foldl Dedup.pushUnique []).Nodup :=
      Dedup.nodup_foldl_pushUnique _ List.nodup_nil
    obtain ⟨a, ha, b, hb, hab⟩ := (Dedup.two_le_length_iff hnodup).mp htwo
    rw [Dedup.mem_foldl_pushUnique, List.mem_map] at ha hb
    obtain ⟨s, hs, rfl⟩ := ha.resolve_left (fun h => nomatch h)
    obtain ⟨t, ht, rfl⟩ := hb.resolve_left (fun h => nomatch h)
    exact hab (hone s hs t ht)
  · exact nomatch hvalue

/-! ### Exception specifications -/

/-- Exception specifications are grouped by function, seen by `noexcept`. -/
def exceptionSpecGrouping : Grouping ExceptionSpecEntry Bool where
  key := exceptionSpecKey
  group := exceptionSpecGroupKey
  name e := e.qualifiedName
  site e := (e.filePath, e.line)
  seen e := e.isNoexcept

theorem foldl_note_specs (rows : List ExceptionSpecEntry) (group : ExceptionSpecGroup) :
    (rows.foldl ExceptionSpecGroup.note group).sites
      = (rows.map fun e => ((e.filePath, e.line), e.isNoexcept)).foldl
          (fun sites s => noteSite sites s.1 s.2) group.sites := by
  induction rows generalizing group with
  | nil => rfl
  | cons e rest ih => exact ih (group.note e)

theorem foldl_note_specName {rows : List ExceptionSpecEntry} (hrows : rows ≠ [])
    (group : ExceptionSpecGroup) :
    ∃ e ∈ rows, (rows.foldl ExceptionSpecGroup.note group).displayName = e.qualifiedName := by
  obtain ⟨init, last, rfl⟩ := (List.eq_nil_or_concat rows).resolve_left hrows
  refine ⟨last, by simp, ?_⟩
  rw [List.concat_eq_append, List.foldl_append]
  rfl

theorem exceptionSpecReport_split {group : ExceptionSpecGroup} {site : IndexSite} {specs : List Bool}
    (htwo : 2 ≤ (allSeen group.sites).length)
    (hfind : group.sites.find? (1 < ·.2.length) = some (site, specs)) :
    group.report = [bothWaysSpec group.displayName site] := by
  unfold ExceptionSpecGroup.report
  rw [if_neg (Nat.not_lt.mpr htwo), hfind]

theorem lookup_exceptionSpecGroups {es : List ExceptionSpecEntry} {index : GlobalIndex}
    (h : index.exceptionSpecs = exceptionSpecGrouping.kept es) (k : Str) :
    (exceptionSpecGroups index).lookup k
      = if k ∈ (exceptionSpecGrouping.kept es).map exceptionSpecGroupKey then
          some (((exceptionSpecGrouping.kept es).filter (exceptionSpecGroupKey · = k)).foldl
            ExceptionSpecGroup.note {})
        else none := by
  unfold exceptionSpecGroups
  rw [h]
  exact UMap.lookup_grouped _ exceptionSpecGroupKey {} ExceptionSpecGroup.note k

theorem exceptionSpecGroup_sites (es : List ExceptionSpecEntry) (k : Str) :
    (((exceptionSpecGrouping.kept es).filter (exceptionSpecGroupKey · = k)).foldl
      ExceptionSpecGroup.note {}).sites
      = notes (exceptionSpecGrouping.observed k (exceptionSpecGrouping.kept es)) :=
  foldl_note_specs _ {}

/-- A group with a position of both kinds is reported under the name of an entry. -/
theorem exceptionSpecReport_divergent {es : List ExceptionSpecEntry} {index : GlobalIndex}
    {k : Str} {site : IndexSite} {specs : List Bool}
    (hindex : index.exceptionSpecs = exceptionSpecGrouping.kept es)
    (hfind : (notes (exceptionSpecGrouping.observed k (exceptionSpecGrouping.kept es))).find?
      (2 ≤ ·.2.length) = some (site, specs)) :
    ∃ e ∈ es, exceptionSpecGroupKey e = k ∧
      ((exceptionSpecGroups index).lookup k).elim [] ExceptionSpecGroup.report
        = [bothWaysSpec e.qualifiedName site] := by
  have hne : (exceptionSpecGrouping.kept es).filter (exceptionSpecGroupKey · = k) ≠ [] :=
    Grouping.kept_ne_nil_of_find hfind
  obtain ⟨e, he, hname⟩ := foldl_note_specName hne {}
  obtain ⟨he, hek⟩ := List.mem_filter.mp he
  have hek : exceptionSpecGroupKey e = k := of_decide_eq_true hek
  refine ⟨e, Grouping.mem_of_mem_kept he, hek, ?_⟩
  have htwo : 2 ≤ (allSeen (notes (exceptionSpecGrouping.observed k
      (exceptionSpecGrouping.kept es)))).length := by
    have hmem := List.mem_of_find?_eq_some hfind
    have hsome : 2 ≤ specs.length := by simpa using List.find?_some hfind
    obtain ⟨a, b, ha, hb, hab⟩ := (two_le_at hmem).mp hsome
    exact two_le_allSeen.mpr ⟨_, ha, _, hb, hab⟩
  rw [lookup_exceptionSpecGroups hindex, if_pos (List.mem_map.mpr ⟨e, he, hek⟩)]
  rw [← exceptionSpecGroup_sites] at hfind htwo
  refine (exceptionSpecReport_split htwo hfind).trans ?_
  rw [hname]

theorem exceptionSpecReport_alike {es : List ExceptionSpecEntry} {index : GlobalIndex} {k : Str}
    (hdiff : ¬ exceptionSpecGrouping.Differs es k)
    (hindex : index.exceptionSpecs = exceptionSpecGrouping.kept es) :
    ((exceptionSpecGroups index).lookup k).elim [] ExceptionSpecGroup.report = [] := by
  rw [lookup_exceptionSpecGroups hindex]
  split
  · have htwo := (Grouping.quiet_kept hdiff).1
    rw [← exceptionSpecGroup_sites] at htwo
    show ExceptionSpecGroup.report _ = _
    unfold ExceptionSpecGroup.report
    rw [if_pos (Nat.not_le.mp htwo)]
  · rfl

theorem exceptionSpecReport_congr {es es' : List ExceptionSpecEntry}
    (hsame : ∀ e, e ∈ es ↔ e ∈ es') {k : Str}
    (hset : exceptionSpecGrouping.Differs es k → exceptionSpecGrouping.Settled es k)
    {index index' : GlobalIndex}
    (hindex : index.exceptionSpecs = exceptionSpecGrouping.kept es)
    (hindex' : index'.exceptionSpecs = exceptionSpecGrouping.kept es') :
    ((exceptionSpecGroups index).lookup k).elim [] ExceptionSpecGroup.report
      = ((exceptionSpecGroups index').lookup k).elim [] ExceptionSpecGroup.report := by
  by_cases hdiff : exceptionSpecGrouping.Differs es k
  · have hs := hset hdiff
    obtain ⟨site, specs, specs', hfind, hfind', -⟩ := hs.find_kept hsame
    obtain ⟨e, he, hk, hrep⟩ := exceptionSpecReport_divergent hindex hfind
    obtain ⟨e', he', hk', hrep'⟩ := exceptionSpecReport_divergent hindex' hfind'
    have hname : e.qualifiedName = e'.qualifiedName := hs.name e he e' ((hsame e').mpr he') hk hk'
    rw [hrep, hrep', hname]
  · have hdiff' : ¬ exceptionSpecGrouping.Differs es' k :=
      fun hc => hdiff ((Grouping.differs_congr hsame).mpr hc)
    rw [exceptionSpecReport_alike hdiff hindex, exceptionSpecReport_alike hdiff' hindex']

theorem analyzeExceptionSpecDivergence_congr {es es' : List ExceptionSpecEntry}
    (hsame : ∀ e, e ∈ es ↔ e ∈ es')
    (hset : ∀ k, exceptionSpecGrouping.Differs es k → exceptionSpecGrouping.Settled es k)
    {index index' : GlobalIndex}
    (hindex : index.exceptionSpecs = exceptionSpecGrouping.kept es)
    (hindex' : index'.exceptionSpecs = exceptionSpecGrouping.kept es') :
    analyzeExceptionSpecDivergence index = analyzeExceptionSpecDivergence index' :=
  flatMap_ascending fun k => exceptionSpecReport_congr hsame (hset k) hindex hindex'

/-! ### Positions as keys -/

theorem toStr_eq_digits (n : Nat) :
    toStr n = (Nat.toDigits 10 n).map fun c => UInt8.ofNat c.toNat :=
  decimalInt_ofNat n

theorem bar_not_mem_toStr (n : Nat) : (124 : UInt8) ∉ toStr n := by
  rw [toStr_eq_digits]
  intro h
  obtain ⟨c, hc, heq⟩ := List.mem_map.mp h
  have hdigit := Nat.isDigit_of_mem_toDigits (by decide) (Nat.le_refl 10) hc
  simp only [Char.isDigit, Bool.and_eq_true, decide_eq_true_eq] at hdigit
  have hle : c.toNat ≤ 57 := hdigit.2
  have hnat := congrArg UInt8.toNat heq
  rw [UInt8.toNat_ofNat', Nat.mod_eq_of_lt (by omega)] at hnat
  have hbar : (124 : UInt8).toNat = 124 := rfl
  omega

theorem toStr_inj {n n' : Nat} (h : toStr n = toStr n') : n = n' := by
  have hchars : (Nat.toDigits 10 n).map Char.toNat = (Nat.toDigits 10 n').map Char.toNat := by
    rw [toStr_eq_digits, toStr_eq_digits] at h
    have hback : ∀ n, ((Nat.toDigits 10 n).map fun c => UInt8.ofNat c.toNat).map UInt8.toNat
        = (Nat.toDigits 10 n).map Char.toNat := by
      intro n
      rw [List.map_map]
      refine List.map_congr_left fun c hc => ?_
      have hdigit := Nat.isDigit_of_mem_toDigits (by decide) (Nat.le_refl 10) hc
      simp only [Char.isDigit, Bool.and_eq_true, decide_eq_true_eq] at hdigit
      have hle : c.toNat ≤ 57 := hdigit.2
      exact (UInt8.toNat_ofNat' ..).trans (Nat.mod_eq_of_lt (by omega))
    rw [← hback n, ← hback n', h]
  have hdigits := List.map_injective_iff.mpr (fun a b => Char.toNat_inj.mp) hchars
  rw [← Nat.ofDigitChars_ten_toDigits (n := n), hdigits, Nat.ofDigitChars_ten_toDigits]

theorem append_cons_inj {c : UInt8} {x y s t : Str} (hx : c ∉ x) (hy : c ∉ y)
    (h : x ++ c :: s = y ++ c :: t) : x = y ∧ s = t := by
  induction x generalizing y with
  | nil =>
      cases y with
      | nil => exact ⟨rfl, (List.cons.inj h).2⟩
      | cons b rest => exact absurd ((List.cons.inj h).1 ▸ List.mem_cons_self) hy
  | cons a rest ih =>
      cases y with
      | nil => exact absurd ((List.cons.inj h).1 ▸ List.mem_cons_self) hx
      | cons b rest' =>
          obtain ⟨rfl, htail⟩ := List.cons.inj h
          obtain ⟨rfl, hst⟩ := ih (fun hc => hx (List.mem_cons_of_mem _ hc))
            (fun hc => hy (List.mem_cons_of_mem _ hc)) htail
          exact ⟨rfl, hst⟩

/-- What stands behind the last bar is read back, and so is what stands before it. -/
theorem append_bar_inj {a a' b b' : Str} (hb : (124 : UInt8) ∉ b) (hb' : (124 : UInt8) ∉ b')
    (h : a ++ bar ++ b = a' ++ bar ++ b') : a = a' ∧ b = b' := by
  have hreverse := congrArg List.reverse h
  have hbar : bar = [124] := by decide
  simp only [hbar, List.reverse_append, List.reverse_singleton, List.singleton_append] at hreverse
  obtain ⟨hrest, hfront⟩ := append_cons_inj (fun hc => hb (List.mem_reverse.mp hc))
    (fun hc => hb' (List.mem_reverse.mp hc)) hreverse
  exact ⟨List.reverse_injective hfront, List.reverse_injective hrest⟩

theorem headerStaticKey_inj {e e' : HeaderStaticEntry}
    (h : headerStaticKey e = headerStaticKey e') : e.filePath = e'.filePath ∧ e.line = e'.line := by
  obtain ⟨hfile, hline⟩ := append_bar_inj (bar_not_mem_toStr _) (bar_not_mem_toStr _) h
  exact ⟨hfile, UInt32.toNat_inj.mp (toStr_inj hline)⟩

/-! ### Header statics -/

/-- The TUs listed at a site. -/
def tusAt (es : List HeaderStaticEntry) (k : Str) : List Str :=
  (es.filter (headerStaticKey · = k)).flatMap (·.tuPaths)

/-- Coming first at its site, the entry is reported. -/
def ReportedFirst (es : List HeaderStaticEntry) (e : HeaderStaticEntry) : Prop :=
  ¬ e.isConst ∧ 2 ≤ (mergeNames e.tuPaths (tusAt es (headerStaticKey e))).length

/-- Entries of a reported site are of one name, are all not const, and list TUs as often
either way. -/
def HeaderStaticsSettled (es : List HeaderStaticEntry) : Prop :=
  ∀ e ∈ es, ReportedFirst es e → ∀ e' ∈ es, headerStaticKey e' = headerStaticKey e →
    e'.name = e.name ∧ e'.isConst = e.isConst ∧
      (mergeNames e.tuPaths e'.tuPaths).Perm (mergeNames e'.tuPaths e.tuPaths)

/-- The first entry of a site, with all TUs. -/
theorem headerStatic_first {es : List HeaderStaticEntry} {x : HeaderStaticEntry}
    (hx : x ∈ es.foldl (put headerStaticKey mergeHeaderStatic) []) :
    ∃ e, (es.filter (headerStaticKey · = headerStaticKey x)).head? = some e ∧
      x = { e with tuPaths := mergeNames e.tuPaths (tusAt es (headerStaticKey x)) } := by
  have hmerged := mem_foldl_put merges_headerStatic hx
  unfold tusAt
  cases hrows : es.filter (headerStaticKey · = headerStaticKey x) with
  | nil => rw [hrows] at hmerged; exact nomatch hmerged
  | cons e rest =>
      rw [hrows, merged_cons] at hmerged
      injection hmerged with hmerged
      refine ⟨e, rfl, ?_⟩
      have hfold : ∀ (rest : List HeaderStaticEntry) (e : HeaderStaticEntry),
          rest.foldl mergeHeaderStatic e
            = { e with tuPaths := mergeNames e.tuPaths (rest.flatMap (·.tuPaths)) } := by
        intro rest
        induction rest with
        | nil => intro e; rfl
        | cons r rest ih =>
            intro e
            rw [List.foldl_cons, ih, List.flatMap_cons]
            unfold mergeHeaderStatic mergeNames
            rw [List.foldl_append]
      have hself : mergeNames e.tuPaths e.tuPaths = e.tuPaths :=
        Dedup.foldl_pushUnique_of_subset fun _ h => h
      rw [← hmerged, hfold, List.flatMap_cons]
      unfold mergeNames at hself ⊢
      rw [List.foldl_append, hself]

theorem headerStatic_kept {es : List HeaderStaticEntry} {x : HeaderStaticEntry}
    (hx : x ∈ es.foldl (put headerStaticKey mergeHeaderStatic) []) :
    ∃ e ∈ es, headerStaticKey e = headerStaticKey x ∧
      x = { e with tuPaths := mergeNames e.tuPaths (tusAt es (headerStaticKey x)) } := by
  obtain ⟨e, hfirst, hxe⟩ := headerStatic_first hx
  obtain ⟨he, hkey⟩ := List.mem_filter.mp (List.mem_of_mem_head? hfirst)
  exact ⟨e, he, of_decide_eq_true hkey, hxe⟩

/-- With its TUs in order. -/
def withSortedTUs (x : HeaderStaticEntry) : HeaderStaticEntry :=
  { x with tuPaths := sortStrs x.tuPaths }

theorem headerStaticDiagnostic_sorted (x : HeaderStaticEntry) :
    headerStaticDiagnostic (withSortedTUs x) = headerStaticDiagnostic x := by
  have hsort : sortStrs (sortStrs x.tuPaths) = sortStrs x.tuPaths :=
    sortBy_eq strict_strLess (perm_sortBy strLess id _) fun _ _ _ _ h => h
  unfold headerStaticDiagnostic withSortedTUs
  rw [hsort]

theorem nodup_headerStatics (es : List HeaderStaticEntry) :
    ((es.foldl (put headerStaticKey mergeHeaderStatic) []).map headerStaticKey).Nodup :=
  nodup_foldl_put merges_headerStatic es List.nodup_nil

/-- **A reported static is reported alike** in another order of the entries. -/
theorem headerStatic_reported {es es' : List HeaderStaticEntry} (hsame : ∀ e, e ∈ es ↔ e ∈ es')
    (hset : HeaderStaticsSettled es) {x : HeaderStaticEntry}
    (hx : x ∈ es.foldl (put headerStaticKey mergeHeaderStatic) []) (hdup : isDuplicatedStatic x) :
    ∃ x' ∈ es'.foldl (put headerStaticKey mergeHeaderStatic) [], isDuplicatedStatic x' ∧
      withSortedTUs x' = withSortedTUs x := by
  obtain ⟨e, he, hkey, hxe⟩ := headerStatic_kept hx
  have hxk : headerStaticKey x ∈
      (es'.foldl (put headerStaticKey mergeHeaderStatic) []).map headerStaticKey := by
    refine (mem_keys_foldl_put merges_headerStatic es' []).mpr (Or.inr ?_)
    exact hkey ▸ List.mem_map_of_mem ((hsame e).mp he)
  obtain ⟨x', hx', hkx⟩ := List.mem_map.mp hxk
  obtain ⟨e', he', hkey', hxe'⟩ := headerStatic_kept hx'
  have hee : headerStaticKey e' = headerStaticKey e := hkey'.trans (hkx.trans hkey.symm)
  obtain ⟨hfile, hline⟩ := headerStaticKey_inj hee
  have htus : ∀ tu, tu ∈ tusAt es (headerStaticKey e) ↔ tu ∈ tusAt es' (headerStaticKey e) := by
    intro tu
    unfold tusAt
    simp only [List.mem_flatMap, List.mem_filter, hsame]
  have hconst_x : x.isConst = e.isConst := by rw [hxe]
  have htus_x : x.tuPaths = mergeNames e.tuPaths (tusAt es (headerStaticKey e)) :=
    hkey.symm ▸ congrArg HeaderStaticEntry.tuPaths hxe
  have htus_x' : x'.tuPaths = mergeNames e'.tuPaths (tusAt es' (headerStaticKey e)) :=
    (hkey'.symm.trans hee) ▸ congrArg HeaderStaticEntry.tuPaths hxe'
  have hdup' := hdup
  unfold isDuplicatedStatic at hdup'
  simp only [Bool.and_eq_true, Bool.not_eq_true', decide_eq_true_eq] at hdup'
  have hfirst : ReportedFirst es e :=
    ⟨by rw [← hconst_x, hdup'.1]; exact Bool.false_ne_true, htus_x ▸ hdup'.2⟩
  obtain ⟨hname, hconst, hswap⟩ := hset e he hfirst e' ((hsame e').mpr he') hee
  -- either of the two lists, then the other, then all: the same TUs as often
  have hlisted : ∀ {es : List HeaderStaticEntry} {e e' : HeaderStaticEntry}, e' ∈ es →
      headerStaticKey e' = headerStaticKey e →
      (mergeNames e.tuPaths (tusAt es (headerStaticKey e))).Perm
        (mergeNames (mergeNames e.tuPaths e'.tuPaths) (tusAt es (headerStaticKey e))) := by
    intro es e e' he' hee
    unfold mergeNames
    rw [← List.foldl_append]
    refine Dedup.perm_foldl_pushUnique (List.Perm.refl _) fun tu _ => ?_
    rw [List.mem_append]
    refine ⟨Or.inr, fun h => h.elim (fun h => ?_) id⟩
    exact List.mem_flatMap.mpr ⟨e', List.mem_filter.mpr ⟨he', decide_eq_true hee⟩, h⟩
  have hperm : (mergeNames e.tuPaths (tusAt es (headerStaticKey e))).Perm
      (mergeNames e'.tuPaths (tusAt es' (headerStaticKey e))) := by
    have hback : (mergeNames e'.tuPaths (tusAt es' (headerStaticKey e'))).Perm
        (mergeNames (mergeNames e'.tuPaths e.tuPaths) (tusAt es' (headerStaticKey e'))) :=
      hlisted ((hsame e).mp he) hee.symm
    rw [hee] at hback
    refine (hlisted ((hsame e').mpr he') hee).trans (List.Perm.trans ?_ hback.symm)
    exact Dedup.perm_foldl_pushUnique hswap fun tu _ => htus tu
  have hsorted : sortStrs x'.tuPaths = sortStrs x.tuPaths := by
    rw [htus_x, htus_x']
    exact sortBy_eq strict_strLess hperm.symm fun _ _ _ _ h => h
  have hconst_x' : x'.isConst = e'.isConst := by rw [hxe']
  refine ⟨x', hx', ?_, ?_⟩
  · unfold isDuplicatedStatic
    simp only [Bool.and_eq_true, Bool.not_eq_true', decide_eq_true_eq]
    rw [hconst_x', hconst, ← hconst_x, htus_x', ← hperm.length_eq, ← htus_x]
    exact hdup'
  · unfold withSortedTUs
    rw [hsorted, hxe, hxe']
    simp only [hname, hconst, hfile, hline]

theorem HeaderStaticsSettled.congr {es es' : List HeaderStaticEntry} (hset : HeaderStaticsSettled es)
    (hsame : ∀ e, e ∈ es ↔ e ∈ es') : HeaderStaticsSettled es' := by
  intro e he hrep e' he' hkey
  refine hset e ((hsame e).mpr he) ⟨hrep.1, ?_⟩ e' ((hsame e').mpr he') hkey
  have hperm : (mergeNames e.tuPaths (tusAt es (headerStaticKey e))).Perm
      (mergeNames e.tuPaths (tusAt es' (headerStaticKey e))) := by
    refine Dedup.perm_foldl_pushUnique (List.Perm.refl _) fun tu _ => ?_
    unfold tusAt
    simp only [List.mem_flatMap, List.mem_filter, hsame]
  exact hperm.length_eq ▸ hrep.2

theorem analyzeHeaderStaticDuplication_congr {es es' : List HeaderStaticEntry}
    (hsame : ∀ e, e ∈ es ↔ e ∈ es') (hset : HeaderStaticsSettled es) {index index' : GlobalIndex}
    (hindex : index.headerStatics = es.foldl (put headerStaticKey mergeHeaderStatic) [])
    (hindex' : index'.headerStatics = es'.foldl (put headerStaticKey mergeHeaderStatic) []) :
    analyzeHeaderStaticDuplication index = analyzeHeaderStaticDuplication index' := by
  have hsorted : ∀ l : List HeaderStaticEntry,
      (sortByTie headerStaticTie l).map headerStaticDiagnostic
        = (sortByTie headerStaticTie (l.map withSortedTUs)).map headerStaticDiagnostic := by
    intro l
    have hmap : (sortByTie headerStaticTie l).map withSortedTUs
        = sortByTie headerStaticTie (l.map withSortedTUs) :=
      List.map_mergeSort fun _ _ _ _ => rfl
    rw [← hmap, List.map_map]
    exact List.map_congr_left fun x _ => (headerStaticDiagnostic_sorted x).symm
  have hnodup : ∀ es : List HeaderStaticEntry,
      (((es.foldl (put headerStaticKey mergeHeaderStatic) []).filter isDuplicatedStatic).map
        withSortedTUs).map headerStaticKey |>.Nodup := by
    intro es
    rw [List.map_map]
    exact (nodup_headerStatics es).sublist (List.filter_sublist.map headerStaticKey)
  unfold analyzeHeaderStaticDuplication
  rw [hindex, hindex', hsorted, hsorted (List.filter _ (es'.foldl _ _))]
  refine congrArg _ ?_
  rw [sortByTie_eq_sortBy, sortByTie_eq_sortBy]
  refine sortBy_eq strict_tieLess ?_ ?_
  · refine (List.perm_ext_iff_of_nodup (hnodup es).of_map (hnodup es').of_map).mpr fun y => ?_
    simp only [List.mem_map, List.mem_filter]
    constructor
    · rintro ⟨x, ⟨hx, hdup⟩, rfl⟩
      obtain ⟨x', hx', hdup', heq⟩ := headerStatic_reported hsame hset hx hdup
      exact ⟨x', ⟨hx', hdup'⟩, heq⟩
    · rintro ⟨x, ⟨hx, hdup⟩, rfl⟩
      obtain ⟨x', hx', hdup', heq⟩ := headerStatic_reported (fun e => (hsame e).symm)
        (hset.congr hsame) hx hdup
      exact ⟨x', ⟨hx', hdup'⟩, heq⟩
  · intro a ha b hb htie
    refine List.inj_on_of_nodup_map (hnodup es) ha hb ?_
    obtain ⟨hfile, hrest⟩ := Prod.mk.inj htie
    obtain ⟨hline, -⟩ := Prod.mk.inj hrest
    unfold headerStaticKey
    rw [hfile, hline]

end Vycor
