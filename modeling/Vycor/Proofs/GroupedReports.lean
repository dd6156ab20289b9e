/-
What the grouped checks report.

Default arguments and exception specifications are read off groups of entries.  Of each group at
most one thing is said, in the order of the keys, and something is said when two entries of the
group do not say the same, whichever calls, shards or payloads they came with.  What is said
tells where: a site with two answers where there is one, else all the sites.

An entry is dropped when one of its dedup key is there, and it is grouped by a key too; keys are
strings, put together with bars.  `Faithful` is when they do not confuse entries.
-/
import Vycor.Proofs.DiagnosticOrder

namespace Vycor

open GlobalIndex Keyed Ordered

/-! ### Sites of a group -/

section Sites

variable {α : Type} [DecidableEq α] {seen : List (IndexSite × α)} {x : IndexSite × List α}

theorem seen_at (hx : x ∈ notes seen) : ∃ a, (x.1, a) ∈ seen := by
  have hkey : x.1 ∈ (notes seen).map (·.1) := List.mem_map_of_mem hx
  rw [notes_eq_foldl, mem_keys_foldl_put merges_joinSeen, List.map_map] at hkey
  obtain ⟨s, hs, hsite⟩ := List.mem_map.mp (hkey.resolve_left List.not_mem_nil)
  exact ⟨s.2, hsite ▸ hs⟩

theorem split_of_find (hfind : (notes seen).find? (2 ≤ ·.2.length) = some x) :
    SplitAt seen x.1 := by
  have htwo : 2 ≤ x.2.length := by simpa using List.find?_some hfind
  exact (two_le_at (List.mem_of_find?_eq_some hfind)).mp htwo

theorem whole_of_find (hfind : (notes seen).find? (2 ≤ ·.2.length) = none) (site : IndexSite) :
    ¬ SplitAt seen site := by
  rintro ⟨a, b, ha, hb, hab⟩
  obtain ⟨x, hx, rfl⟩ := exists_at ha
  refine List.find?_eq_none.mp hfind x hx (decide_eq_true ?_)
  exact (two_le_at hx).mpr ⟨a, b, ha, hb, hab⟩

end Sites

/-! ### Groups that are told apart -/

namespace Grouping

variable {α β : Type} (G : Grouping α β)

/-- Entries of one dedup key say the same, and a group has one name. -/
structure Faithful (es : List α) : Prop where
  key : ∀ e ∈ es, ∀ e' ∈ es, G.key e = G.key e' →
    G.group e = G.group e' ∧ G.site e = G.site e' ∧ G.seen e = G.seen e'
  name : ∀ e ∈ es, ∀ e' ∈ es, G.group e = G.group e' → G.name e = G.name e'

/-- The keys of the groups, in ascending order. -/
def keys (es : List α) : List Str := sortStrs (es.map G.group).dedup

variable {G} {es : List α}

theorem mem_keys {k : Str} : k ∈ G.keys es ↔ ∃ e ∈ es, G.group e = k := by
  unfold keys
  rw [sortStrs_eq_sortBy, (perm_sortBy strLess id _).mem_iff, List.mem_dedup, List.mem_map]

theorem filter_keys (p : Str → Bool) :
    (G.keys es).filter p = G.keys (es.filter fun e => p (G.group e)) := by
  have hperm : (((es.map G.group).dedup).filter p).Perm
      ((((es.filter fun e => p (G.group e)).map G.group).dedup).filter p) := by
    refine (List.perm_ext_iff_of_nodup ((List.nodup_dedup _).filter _)
      ((List.nodup_dedup _).filter _)).mpr fun k => ?_
    simp only [List.mem_filter, List.mem_dedup, List.mem_map]
    constructor
    · rintro ⟨⟨e, he, rfl⟩, hp⟩
      exact ⟨⟨e, ⟨he, hp⟩, rfl⟩, hp⟩
    · rintro ⟨⟨e, ⟨he, _⟩, rfl⟩, hp⟩
      exact ⟨⟨e, he, rfl⟩, hp⟩
  have hsame : (sortBy strLess id (es.map G.group).dedup).filter p
      = (sortBy strLess id ((es.filter fun e => p (G.group e)).map G.group).dedup).filter p :=
    filter_sortBy_eq strict_strLess hperm fun _ _ _ _ h => h
  unfold keys
  rw [sortStrs_eq_sortBy, sortStrs_eq_sortBy, hsame]
  refine List.filter_eq_self.mpr fun k hk => ?_
  obtain ⟨e, he, rfl⟩ := List.mem_map.mp
    (List.mem_dedup.mp ((perm_sortBy strLess id _).mem_iff.mp hk))
  exact (List.mem_filter.mp he).2

theorem Faithful.mem_observed_kept (h : G.Faithful es) {k : Str} (s : IndexSite × β) :
    s ∈ G.observed k (G.kept es) ↔ s ∈ G.observed k es := by
  refine ⟨observed_kept, fun hs => ?_⟩
  obtain ⟨e, he, hk, rfl⟩ := mem_observed.mp hs
  obtain ⟨x, hx, hkey⟩ := exists_mem_foldl_first G.key he
  obtain ⟨hgroup, hsite, hseen⟩ := h.key x (mem_of_mem_foldl_first hx) e he hkey
  exact mem_observed.mpr ⟨x, hx, hgroup.trans hk, by rw [hsite, hseen]⟩

theorem Faithful.mem_keys_kept (h : G.Faithful es) {k : Str} :
    k ∈ (G.kept es).map G.group ↔ ∃ e ∈ es, G.group e = k := by
  rw [List.mem_map]
  constructor
  · rintro ⟨e, he, hk⟩
    exact ⟨e, mem_of_mem_kept he, hk⟩
  · rintro ⟨e, he, hk⟩
    obtain ⟨x, hx, hkey⟩ := exists_mem_foldl_first G.key he
    exact ⟨x, hx, (h.key x (mem_of_mem_foldl_first hx) e he hkey).1.trans hk⟩

theorem Faithful.kept_ne_nil (h : G.Faithful es) {e : α} (he : e ∈ es) :
    (G.kept es).filter (G.group · = G.group e) ≠ [] := by
  obtain ⟨x, hx, hkey⟩ := List.mem_map.mp (h.mem_keys_kept.mpr ⟨e, he, rfl⟩)
  exact List.ne_nil_of_mem (List.mem_filter.mpr ⟨hx, decide_eq_true hkey⟩)

theorem Faithful.name_kept (h : G.Faithful es) {e x : α} (he : e ∈ es)
    (hx : x ∈ (G.kept es).filter (G.group · = G.group e)) : G.name x = G.name e := by
  obtain ⟨hx, hkey⟩ := List.mem_filter.mp hx
  exact h.name x (mem_of_mem_kept hx) e he (of_decide_eq_true hkey)

theorem Faithful.split_iff (h : G.Faithful es) {k : Str} (site : IndexSite) :
    SplitAt (G.observed k (G.kept es)) site ↔ SplitAt (G.observed k es) site :=
  splitAt_congr h.mem_observed_kept site

theorem Faithful.differs_iff [DecidableEq β] (h : G.Faithful es) {k : Str} :
    2 ≤ (allSeen (notes (G.observed k (G.kept es)))).length ↔ G.Differs es k := by
  rw [two_le_allSeen]
  unfold Differs
  simp only [h.mem_observed_kept]

end Grouping

/-- The walk through groups goes through their keys. -/
theorem ascending_grouped {α β γ : Type} {G : Grouping α β} {es : List α} {groups : UMap Str γ}
    {groupOf : Str → γ} (hlookup : ∀ k, groups.lookup k
      = if k ∈ (G.kept es).map G.group then some (groupOf k) else none) :
    (ascending groups).map (·.2) = ((G.keys es).filterMap groups.lookup) := by
  rw [ascending_eq groups (List.nodup_dedup (es.map G.group)) ?_, List.map_filterMap]
  · refine List.filterMap_congr fun k _ => ?_
    cases groups.lookup k <;> rfl
  · intro k hk
    rw [hlookup] at hk
    split at hk
    · rename_i hmem
      obtain ⟨e, he, hek⟩ := List.mem_map.mp hmem
      exact List.mem_dedup.mpr (List.mem_map.mpr ⟨e, Grouping.mem_of_mem_kept he, hek⟩)
    · exact absurd hk Bool.false_ne_true

/-- **One verdict for each group**, where a check goes through the groups. -/
theorem flatMap_grouped {α β γ : Type} {G : Grouping α β} {es : List α} {groups : UMap Str γ}
    {groupOf : Str → γ} (hlookup : ∀ k, groups.lookup k
      = if k ∈ (G.kept es).map G.group then some (groupOf k) else none)
    {report : γ → List Diagnostic} {verdict : γ → Option Diagnostic}
    (hreport : ∀ group, report group = (verdict group).toList) :
    (ascending groups).flatMap (report ·.2)
      = (G.keys es).filterMap fun k => (groups.lookup k).bind verdict := by
  have hmap : (ascending groups).flatMap (report ·.2)
      = ((ascending groups).map (·.2)).flatMap report := (List.flatMap_map ..).symm
  rw [hmap, ascending_grouped hlookup, ← List.filterMap_filterMap]
  induction (G.keys es).filterMap groups.lookup with
  | nil => rfl
  | cons group rest ih =>
      rw [List.flatMap_cons, ih, hreport, List.filterMap_cons]
      cases verdict group <;> rfl

/-! ### Exception specifications -/

/-- The sites, with commas between them. -/
def listSites (sites : List IndexSite) : Str :=
  sites.foldl (fun text s => listItem text (formatSite s)) []

/-- The report of a function that some sites declare `noexcept` and others do not. -/
def dividedSpec (displayName : Str) (front : IndexSite) (noexceptAt throwingAt : List IndexSite) :
    Diagnostic :=
  flagged .exceptionSpecDivergent (formatSite front)
    (str "Exception-spec divergence: '" ++ displayName
      ++ str "' is declared noexcept at " ++ listSites noexceptAt
      ++ str " but potentially-throwing at " ++ listSites throwingAt
      ++ str ". No TU sees both declarations (the in-TU case is a compile "
      ++ str "error), so this contradiction is IFNDR: callers that saw "
      ++ str "noexcept elide unwind paths, and noexcept-dependent decisions "
      ++ str "(move_if_noexcept) fork per TU. Unify the declarations.")

/-- The exception specifications among the calls. -/
def exceptionSpecsGiven (calls : List IndexCall) : List ExceptionSpecEntry :=
  calls.filterMap exceptionSpecsPart.concerns

/-- What is said of a function whose declarations do not agree. -/
inductive SpecSays (es : List ExceptionSpecEntry) (e : ExceptionSpecEntry) : Diagnostic → Prop
  | bothWays {site : IndexSite} :
      SplitAt (exceptionSpecGrouping.observed (exceptionSpecGroupKey e) es) site →
      SpecSays es e (bothWaysSpec e.qualifiedName site)
  | divided {front : IndexSite} {noexceptAt throwingAt : List IndexSite} :
      (∀ site, ¬ SplitAt (exceptionSpecGrouping.observed (exceptionSpecGroupKey e) es) site) →
      noexceptAt.Nodup → throwingAt.Nodup → front ∈ noexceptAt ++ throwingAt →
      (∀ s, s ∈ noexceptAt ↔
        (s, true) ∈ exceptionSpecGrouping.observed (exceptionSpecGroupKey e) es) →
      (∀ s, s ∈ throwingAt ↔
        (s, false) ∈ exceptionSpecGrouping.observed (exceptionSpecGroupKey e) es) →
      SpecSays es e (dividedSpec e.qualifiedName front noexceptAt throwingAt)

/-- The sites at which this was seen first. -/
def sitesSaying (sites : List (IndexSite × List Bool)) (isNoexcept : Bool) : List IndexSite :=
  (sites.filter (·.2.head? = some isNoexcept)).map (·.1)

/-- What is said of a group: nothing while all agree, else one report at its first site or
at the first that says both. -/
def ExceptionSpecGroup.verdict (group : ExceptionSpecGroup) : Option Diagnostic :=
  if (allSeen group.sites).length < 2 then none
  else
    match group.sites.find? (1 < ·.2.length) with
    | some (site, _) => some (bothWaysSpec group.displayName site)
    | none =>
      group.sites.head?.map fun front =>
        dividedSpec group.displayName front.1 (sitesSaying group.sites true)
          (sitesSaying group.sites false)

theorem listSites_sitesSaying (sites : List (IndexSite × List Bool)) (isNoexcept : Bool) :
    listSites (sitesSaying sites isNoexcept)
      = (sites.filter (·.2.head? = some isNoexcept)).foldl
          (fun text s => listItem text (formatSite s.1)) [] := List.foldl_map

theorem ExceptionSpecGroup.report_eq (group : ExceptionSpecGroup) :
    group.report = group.verdict.toList := by
  unfold report verdict dividedSpec
  simp only [listSites_sitesSaying]
  by_cases htwo : (allSeen group.sites).length < 2
  · rw [if_pos htwo, if_pos htwo]
    rfl
  · rw [if_neg htwo, if_neg htwo]
    cases group.sites.find? (1 < ·.2.length) with
    | some split => rfl
    | none => cases group.sites <;> rfl

theorem nodup_sitesSaying {sites : List (IndexSite × List Bool)} (h : (sites.map (·.1)).Nodup)
    (isNoexcept : Bool) : (sitesSaying sites isNoexcept).Nodup :=
  h.sublist (List.filter_sublist.map _)

/-- Where no site has two answers, it is listed under its answer. -/
theorem mem_sitesSaying {seen : List (IndexSite × Bool)}
    (hwhole : ∀ site, ¬ SplitAt seen site) {isNoexcept : Bool} {site : IndexSite} :
    site ∈ sitesSaying (notes seen) isNoexcept ↔ (site, isNoexcept) ∈ seen := by
  have hhead : ∀ x ∈ notes seen, (x.2.head? = some isNoexcept ↔ isNoexcept ∈ x.2) := by
    intro x hx
    refine ⟨List.mem_of_mem_head?, fun hmem => ?_⟩
    have hsome := List.length_pos_of_mem hmem
    have hone := mt (two_le_at hx).mp (hwhole x.1)
    obtain ⟨answer, hanswer⟩ := List.length_eq_one_iff.mp (show x.2.length = 1 by omega)
    rw [hanswer] at hmem ⊢
    rw [List.mem_singleton.mp hmem]
    rfl
  unfold sitesSaying
  simp only [List.mem_map, List.mem_filter, decide_eq_true_eq]
  constructor
  · rintro ⟨x, ⟨hx, hanswer⟩, rfl⟩
    exact (mem_at hx isNoexcept).mp ((hhead x hx).mp hanswer)
  · intro hseen
    obtain ⟨x, hx, rfl⟩ := exists_at hseen
    exact ⟨x, ⟨hx, (hhead x hx).mpr ((mem_at hx isNoexcept).mpr hseen)⟩, rfl⟩

section ExceptionSpecs

variable {es : List ExceptionSpecEntry} (hread : exceptionSpecGrouping.Faithful es)

/-- The group that entries of one key form. -/
def exceptionSpecGroupOf (es : List ExceptionSpecEntry) (k : Str) : ExceptionSpecGroup :=
  ((exceptionSpecGrouping.kept es).filter (exceptionSpecGroupKey · = k)).foldl
    ExceptionSpecGroup.note {}

include hread

theorem exceptionSpecGroupOf_name {e : ExceptionSpecEntry} (he : e ∈ es) :
    (exceptionSpecGroupOf es (exceptionSpecGroupKey e)).displayName = e.qualifiedName := by
  obtain ⟨y, hy, hname⟩ := foldl_note_specName (hread.kept_ne_nil he) {}
  exact hname.trans (hread.name_kept he hy)

theorem exceptionSpecGroupOf_verdict_none {k : Str} :
    (exceptionSpecGroupOf es k).verdict = none ↔ ¬ exceptionSpecGrouping.Differs es k := by
  rw [← hread.differs_iff, ← exceptionSpecGroup_sites]
  change (exceptionSpecGroupOf es k).verdict = none ↔
    ¬ 2 ≤ (allSeen (exceptionSpecGroupOf es k).sites).length
  unfold ExceptionSpecGroup.verdict
  generalize exceptionSpecGroupOf es k = group
  by_cases htwo : 2 ≤ (allSeen group.sites).length
  · rw [if_neg (Nat.not_lt.mpr htwo)]
    refine iff_of_false ?_ (not_not_intro htwo)
    split
    · exact Option.some_ne_none _
    · cases hsites : group.sites with
      | nil =>
          rw [hsites] at htwo
          exact absurd htwo (by decide)
      | cons front rest => exact Option.some_ne_none _
  · rw [if_pos (Nat.not_le.mp htwo)]
    exact iff_of_true rfl htwo

theorem exceptionSpecGroupOf_says {e : ExceptionSpecEntry} (he : e ∈ es) {d : Diagnostic}
    (hd : (exceptionSpecGroupOf es (exceptionSpecGroupKey e)).verdict = some d) :
    SpecSays es e d := by
  have hname := exceptionSpecGroupOf_name hread he
  have hsites : (exceptionSpecGroupOf es (exceptionSpecGroupKey e)).sites
      = notes (exceptionSpecGrouping.observed (exceptionSpecGroupKey e)
        (exceptionSpecGrouping.kept es)) := exceptionSpecGroup_sites es _
  unfold ExceptionSpecGroup.verdict at hd
  rw [hname, hsites] at hd
  obtain ⟨-, hd⟩ := Option.ite_none_left_eq_some.mp hd
  cases hfind : (notes (exceptionSpecGrouping.observed (exceptionSpecGroupKey e)
      (exceptionSpecGrouping.kept es))).find? (1 < ·.2.length) with
  | some split =>
      rw [hfind] at hd
      obtain rfl := Option.some.inj hd
      exact .bothWays ((hread.split_iff split.1).mp (split_of_find hfind))
  | none =>
      rw [hfind] at hd
      obtain ⟨front, hfront, rfl⟩ := Option.map_eq_some_iff.mp hd
      have hwhole := whole_of_find hfind
      refine .divided (fun site hsplit => hwhole site ((hread.split_iff site).mpr hsplit))
        (nodup_sitesSaying (nodup_notes _) true) (nodup_sitesSaying (nodup_notes _) false) ?_
        (fun site => ?_) fun site => ?_
      · have hfront := List.mem_of_mem_head? hfront
        obtain ⟨answer, hanswer⟩ := seen_at hfront
        rw [List.mem_append, mem_sitesSaying hwhole, mem_sitesSaying hwhole]
        cases answer with
        | true => exact Or.inl hanswer
        | false => exact Or.inr hanswer
      · rw [mem_sitesSaying hwhole, hread.mem_observed_kept]
      · rw [mem_sitesSaying hwhole, hread.mem_observed_kept]

end ExceptionSpecs

/-- **Exception specifications are reported exactly**: a function is reported once if two of its
declarations do not agree, and not otherwise. -/
theorem exception_specs_exact (h : IndexHistory)
    (hread : exceptionSpecGrouping.Faithful (exceptionSpecsGiven h.calls)) :
    ∃ verdict : Str → Option Diagnostic,
      analyzeExceptionSpecDivergence h.index
        = (exceptionSpecGrouping.keys (exceptionSpecsGiven h.calls)).filterMap verdict ∧
      ∀ e ∈ exceptionSpecsGiven h.calls,
        (verdict (exceptionSpecGroupKey e) = none ↔
          ¬ exceptionSpecGrouping.Differs (exceptionSpecsGiven h.calls) (exceptionSpecGroupKey e)) ∧
        ∀ d, verdict (exceptionSpecGroupKey e) = some d →
          SpecSays (exceptionSpecsGiven h.calls) e d := by
  have hlookup := lookup_exceptionSpecGroups (IndexHistory.part_eq exceptionSpecsPart h)
  refine ⟨_, flatMap_grouped hlookup ExceptionSpecGroup.report_eq, fun e he => ?_⟩
  have hgroup : (exceptionSpecGroups h.index).lookup (exceptionSpecGroupKey e)
      = some (exceptionSpecGroupOf (exceptionSpecsGiven h.calls) (exceptionSpecGroupKey e)) :=
    (hlookup _).trans (if_pos (hread.mem_keys_kept.mpr ⟨e, he, rfl⟩))
  rw [hgroup]
  exact ⟨exceptionSpecGroupOf_verdict_none hread, fun d => exceptionSpecGroupOf_says hread he⟩

/-- A function with and without `noexcept` in two headers. -/
def noexceptInOne : IndexHistory :=
  .absorb (.call .empty (.exceptionSpec ⟨str "f", [], true, str "a.h", 1⟩))
    (.call .empty (.exceptionSpec ⟨str "f", [], false, str "b.h", 1⟩)) .inOrder

theorem exception_specs_exact_two :
    ∃ verdict : Str → Option Diagnostic,
      analyzeExceptionSpecDivergence noexceptInOne.index
        = (exceptionSpecGrouping.keys (exceptionSpecsGiven noexceptInOne.calls)).filterMap verdict ∧
      verdict (str "f|") ≠ none := by
  obtain ⟨verdict, hreports, hverdict⟩ := exception_specs_exact noexceptInOne
    ⟨by decide +kernel, by decide +kernel⟩
  refine ⟨verdict, hreports, fun hnone => ?_⟩
  have hsame := (hverdict ⟨str "f", [], true, str "a.h", 1⟩ (by decide)).1.mp hnone
  exact hsame (by unfold Grouping.Differs; decide +kernel)

/-! ### Default arguments -/

/-- Default arguments are grouped by parameter, seen by their text. -/
def defaultArgGrouping : Grouping DefaultArgEntry Str where
  key := defaultArgKey
  group := defaultArgGroupKey
  name e := e.qualifiedName
  site e := (e.filePath, e.line)
  seen e := e.defaultText

/-- The default arguments among the calls. -/
def defaultArgsGiven (calls : List IndexCall) : List DefaultArgEntry :=
  calls.filterMap defaultArgsPart.concerns

/-- The report of a parameter with more than one default. -/
def conflictingDefaults (displayName paramName : Str) (front : IndexSite)
    (sites : List (IndexSite × Str)) : Diagnostic :=
  flagged .defaultArgDivergent (formatSite front)
    (str "Default-argument divergence: parameter"
      ++ (if paramName = [] then [] else str " '" ++ paramName ++ str "'")
      ++ str " of '" ++ displayName ++ str "' has conflicting defaults ("
      ++ sites.foldl
          (fun text s => listItem text (str "'" ++ s.2 ++ str "' at " ++ formatSite s.1)) []
      ++ str "). Each TU silently calls with whichever value its "
      ++ str "includes provided — keep the default in exactly one declaration.")

/-- What is said of a parameter with several defaults: each of them, where it stands, once. -/
inductive DefaultSays (es : List DefaultArgEntry) (e : DefaultArgEntry) : Diagnostic → Prop
  | conflicting {paramName : Str} {front : IndexSite × Str} {rest : List (IndexSite × Str)} :
      (paramName = [] ∨ ∃ e' ∈ es, defaultArgGroupKey e' = defaultArgGroupKey e ∧
        e'.paramName = paramName) →
      (front :: rest).Nodup →
      (∀ s, s ∈ front :: rest ↔ s ∈ defaultArgGrouping.observed (defaultArgGroupKey e) es) →
      DefaultSays es e (conflictingDefaults e.qualifiedName paramName front.1 (front :: rest))

/-- What is said of a group: nothing while all agree, else one report at its first site.
-/
def DefaultArgGroup.verdict (group : DefaultArgGroup) : Option Diagnostic :=
  if ((group.sites.map (·.2)).foldl Dedup.pushUnique []).length < 2 then none
  else
    group.sites.head?.map fun front =>
      conflictingDefaults group.displayName group.paramName front.1 group.sites

theorem DefaultArgGroup.report_eq (group : DefaultArgGroup) :
    group.report = group.verdict.toList := by
  unfold report verdict conflictingDefaults
  by_cases htwo : ((group.sites.map (·.2)).foldl Dedup.pushUnique []).length < 2
  · rw [if_pos htwo, if_pos htwo]
    rfl
  · rw [if_neg htwo, if_neg htwo]
    cases group.sites <;> rfl

theorem foldl_note_pairs (rows : List DefaultArgEntry) (group : DefaultArgGroup) :
    (rows.foldl DefaultArgGroup.note group).sites
      = (rows.map fun e => ((e.filePath, e.line), e.defaultText)).foldl Dedup.pushUnique
          group.sites := by
  induction rows generalizing group with
  | nil => rfl
  | cons e rest ih => exact ih (group.note e)

theorem foldl_note_paramName (rows : List DefaultArgEntry) (group : DefaultArgGroup) :
    (rows.foldl DefaultArgGroup.note group).paramName = group.paramName ∨
      ∃ e ∈ rows, e.paramName = (rows.foldl DefaultArgGroup.note group).paramName := by
  induction rows generalizing group with
  | nil => exact Or.inl rfl
  | cons e rest ih =>
      rcases ih (group.note e) with hkept | ⟨e', he', hname⟩
      · rw [List.foldl_cons, hkept]
        by_cases hnamed : e.paramName ≠ []
        · exact Or.inr ⟨e, List.mem_cons_self, (if_pos hnamed).symm⟩
        · exact Or.inl (if_neg hnamed)
      · exact Or.inr ⟨e', List.mem_cons_of_mem _ he', hname⟩

theorem foldl_note_argName {rows : List DefaultArgEntry} (hrows : rows ≠ [])
    (group : DefaultArgGroup) :
    ∃ e ∈ rows, (rows.foldl DefaultArgGroup.note group).displayName = e.qualifiedName := by
  obtain ⟨init, last, rfl⟩ := (List.eq_nil_or_concat rows).resolve_left hrows
  refine ⟨last, by simp, ?_⟩
  rw [List.concat_eq_append, List.foldl_append]
  rfl

section DefaultArgs

variable {es : List DefaultArgEntry} (hread : defaultArgGrouping.Faithful es)

/-- The group that entries of one key form. -/
def defaultArgGroupOf (es : List DefaultArgEntry) (k : Str) : DefaultArgGroup :=
  ((defaultArgGrouping.kept es).filter (defaultArgGroupKey · = k)).foldl DefaultArgGroup.note {}

theorem defaultArgGroupOf_sites (es : List DefaultArgEntry) (k : Str) :
    (defaultArgGroupOf es k).sites
      = (defaultArgGrouping.observed k (defaultArgGrouping.kept es)).foldl Dedup.pushUnique [] :=
  foldl_note_pairs _ {}

include hread

theorem mem_defaultArgGroupOf {k : Str} (s : IndexSite × Str) :
    s ∈ (defaultArgGroupOf es k).sites ↔ s ∈ defaultArgGrouping.observed k es := by
  rw [defaultArgGroupOf_sites, Dedup.mem_foldl_pushUnique, hread.mem_observed_kept]
  exact or_iff_right List.not_mem_nil

theorem defaultArgGroupOf_differs {k : Str} :
    2 ≤ (((defaultArgGroupOf es k).sites.map (·.2)).foldl Dedup.pushUnique []).length ↔
      defaultArgGrouping.Differs es k := by
  rw [Dedup.two_le_length_iff (Dedup.nodup_foldl_pushUnique _ List.nodup_nil)]
  simp only [Dedup.mem_foldl_pushUnique, List.not_mem_nil, false_or, List.mem_map,
    mem_defaultArgGroupOf hread]
  constructor
  · rintro ⟨_, ⟨s, hs, rfl⟩, _, ⟨t, ht, rfl⟩, hst⟩
    exact ⟨s, hs, t, ht, hst⟩
  · rintro ⟨s, hs, t, ht, hst⟩
    exact ⟨_, ⟨s, hs, rfl⟩, _, ⟨t, ht, rfl⟩, hst⟩

theorem defaultArgGroupOf_verdict_none {k : Str} :
    (defaultArgGroupOf es k).verdict = none ↔ ¬ defaultArgGrouping.Differs es k := by
  rw [← defaultArgGroupOf_differs hread]
  unfold DefaultArgGroup.verdict
  generalize defaultArgGroupOf es k = group
  by_cases htwo : 2 ≤ ((group.sites.map (·.2)).foldl Dedup.pushUnique []).length
  · rw [if_neg (Nat.not_lt.mpr htwo)]
    refine iff_of_false ?_ (not_not_intro htwo)
    cases hsites : group.sites with
    | nil =>
        rw [hsites] at htwo
        exact absurd htwo (by decide)
    | cons front rest => exact Option.some_ne_none _
  · rw [if_pos (Nat.not_le.mp htwo)]
    exact iff_of_true rfl htwo

theorem defaultArgGroupOf_says {e : DefaultArgEntry} (he : e ∈ es) {d : Diagnostic}
    (hd : (defaultArgGroupOf es (defaultArgGroupKey e)).verdict = some d) :
    DefaultSays es e d := by
  have hname : (defaultArgGroupOf es (defaultArgGroupKey e)).displayName = e.qualifiedName := by
    obtain ⟨y, hy, hname⟩ := foldl_note_argName (hread.kept_ne_nil he) {}
    exact hname.trans (hread.name_kept he hy)
  have hparam : (defaultArgGroupOf es (defaultArgGroupKey e)).paramName = [] ∨
      ∃ e' ∈ es, defaultArgGroupKey e' = defaultArgGroupKey e ∧
        e'.paramName = (defaultArgGroupOf es (defaultArgGroupKey e)).paramName := by
    refine (foldl_note_paramName _ {}).imp_right ?_
    rintro ⟨x, hx, hxname⟩
    obtain ⟨hx, hkey⟩ := List.mem_filter.mp hx
    exact ⟨x, Grouping.mem_of_mem_kept hx, of_decide_eq_true hkey, hxname⟩
  have hnodup : (defaultArgGroupOf es (defaultArgGroupKey e)).sites.Nodup := by
    rw [defaultArgGroupOf_sites]
    exact Dedup.nodup_foldl_pushUnique _ List.nodup_nil
  have hmem := mem_defaultArgGroupOf hread (k := defaultArgGroupKey e)
  unfold DefaultArgGroup.verdict at hd
  rw [hname] at hd
  obtain ⟨-, hd⟩ := Option.ite_none_left_eq_some.mp hd
  cases hsites : (defaultArgGroupOf es (defaultArgGroupKey e)).sites with
  | nil =>
      rw [hsites] at hd
      exact nomatch hd
  | cons front rest =>
      rw [hsites] at hd hnodup hmem
      obtain rfl := Option.some.inj hd
      exact .conflicting hparam hnodup hmem

end DefaultArgs

/-- **Default arguments are reported exactly**: a parameter is reported once if two declarations
give it different defaults, and not otherwise. -/
theorem default_args_exact (h : IndexHistory)
    (hread : defaultArgGrouping.Faithful (defaultArgsGiven h.calls)) :
    ∃ verdict : Str → Option Diagnostic,
      analyzeDefaultArgDivergence h.index
        = (defaultArgGrouping.keys (defaultArgsGiven h.calls)).filterMap verdict ∧
      ∀ e ∈ defaultArgsGiven h.calls,
        (verdict (defaultArgGroupKey e) = none ↔
          ¬ defaultArgGrouping.Differs (defaultArgsGiven h.calls) (defaultArgGroupKey e)) ∧
        ∀ d, verdict (defaultArgGroupKey e) = some d →
          DefaultSays (defaultArgsGiven h.calls) e d := by
  have hlookup : ∀ k, (defaultArgGroups h.index).lookup k
      = if k ∈ (defaultArgGrouping.kept (defaultArgsGiven h.calls)).map defaultArgGroupKey then
          some (defaultArgGroupOf (defaultArgsGiven h.calls) k)
        else none := by
    intro k
    have hentries : h.index.defaultArgs = defaultArgGrouping.kept (defaultArgsGiven h.calls) :=
      IndexHistory.part_eq defaultArgsPart h
    unfold defaultArgGroups
    rw [hentries]
    exact UMap.lookup_grouped _ defaultArgGroupKey {} DefaultArgGroup.note k
  refine ⟨_, flatMap_grouped (G := defaultArgGrouping) hlookup DefaultArgGroup.report_eq,
    fun e he => ?_⟩
  have hgroup : (defaultArgGroups h.index).lookup (defaultArgGroupKey e)
      = some (defaultArgGroupOf (defaultArgsGiven h.calls) (defaultArgGroupKey e)) :=
    (hlookup _).trans (if_pos (hread.mem_keys_kept.mpr ⟨e, he, rfl⟩))
  rw [hgroup]
  exact ⟨defaultArgGroupOf_verdict_none hread, fun d => defaultArgGroupOf_says hread he⟩

/-- A parameter with one default in two headers and another in a third. -/
def threeDefaults : IndexHistory :=
  .absorb (.call (.call .empty (.defaultArg ⟨str "f", [], 0, str "n", str "1", str "a.h", 1⟩))
      (.defaultArg ⟨str "f", [], 0, [], str "1", str "b.h", 1⟩))
    (.call .empty (.defaultArg ⟨str "f", [], 0, [], str "2", str "c.h", 1⟩)) .inOrder

theorem default_args_exact_three :
    ∃ verdict : Str → Option Diagnostic,
      analyzeDefaultArgDivergence threeDefaults.index
        = (defaultArgGrouping.keys (defaultArgsGiven threeDefaults.calls)).filterMap verdict ∧
      verdict (str "f||0") ≠ none := by
  obtain ⟨verdict, hreports, hverdict⟩ := default_args_exact threeDefaults
    ⟨by decide +kernel, by decide +kernel⟩
  refine ⟨verdict, hreports, fun hnone => ?_⟩
  have hsame := (hverdict ⟨str "f", [], 0, str "n", str "1", str "a.h", 1⟩ (by decide)).1.mp hnone
  exact hsame (by unfold Grouping.Differs; decide +kernel)

end Vycor
