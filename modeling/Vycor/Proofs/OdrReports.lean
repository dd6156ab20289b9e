/-
What the ODR check reports.

A class or a function of which two definitions do not agree is reported once.  A site with two
bodies is the root cause; else the sites are several definitions.  The method of a class is
passed over when it has several definitions and so has its class, which is looked up among the
reported ones by its name: the classes take a first pass.
-/
import Vycor.Proofs.GroupedReports

namespace Vycor

open GlobalIndex Keyed Ordered

/-- The definitions among the calls. -/
def odrGiven (calls : List IndexCall) : List OdrEntry := calls.filterMap odrPart.concerns

/-- Keys tell entries, and a method is of one class. -/
structure OdrReadable (es : List OdrEntry) : Prop where
  faithful : odrGrouping.Faithful es
  enclosing : ∀ e ∈ es, ∀ e' ∈ es, odrGroupKey e = odrGroupKey e' →
    e.enclosingClass = e'.enclosingClass

/-- Bodies differ, and at no site. -/
def DefinedTwice (es : List OdrEntry) (e : OdrEntry) : Prop :=
  odrGrouping.Differs es (odrGroupKey e) ∧
    ∀ site, ¬ SplitAt (odrGrouping.observed (odrGroupKey e) es) site

/-- The method of a class that is reported as a duplicate, itself one. -/
def CoveredByClass (es : List OdrEntry) (e : OdrEntry) : Prop :=
  e.isClass = false ∧ DefinedTwice es e ∧
    ∃ c ∈ es, c.isClass = true ∧ c.qualifiedName = e.enclosingClass ∧ DefinedTwice es c

/-- What is said of a class or a function whose definitions do not agree. -/
inductive OdrSays (es : List OdrEntry) (e : OdrEntry) : Diagnostic → Prop
  | divergent {site : IndexSite} {hashes : List UInt64} :
      SplitAt (odrGrouping.observed (odrGroupKey e) es) site → hashes.Nodup →
      (∀ a, a ∈ hashes ↔ (site, a) ∈ odrGrouping.observed (odrGroupKey e) es) →
      OdrSays es e (divergentDefinition { displayName := e.qualifiedName } site hashes)
  | duplicate {front : IndexSite × List UInt64} {rest : List (IndexSite × List UInt64)} :
      DefinedTwice es e → ((front :: rest).map (·.1)).Nodup →
      (∀ site, site ∈ (front :: rest).map (·.1) ↔
        ∃ a, (site, a) ∈ odrGrouping.observed (odrGroupKey e) es) →
      OdrSays es e
        (duplicateDefinition { displayName := e.qualifiedName, sites := front :: rest } front.1)

/-! ### One group

What is said of a group depends on the groups before it only through the classes
that were reported as duplicates.
-/

namespace OdrGroup

/-- The group is of several sites that differ, each of one body. -/
def Duplicate (group : OdrGroup) : Prop :=
  group.sites.find? (2 ≤ ·.2.length) = none ∧ 2 ≤ group.sites.length ∧
    2 ≤ (allSeen group.sites).length

/-- What is said of the group while these classes were reported as duplicates. -/
def verdict (classesOnly : Bool) (duplicated : List Str) (group : OdrGroup) : Option Diagnostic :=
  if group.isClass ≠ classesOnly then none
  else
    match group.sites.find? (2 ≤ ·.2.length) with
    | some (site, hashes) => some (divergentDefinition group site hashes)
    | none =>
      match group.sites with
      | front :: _ :: _ =>
        if (allSeen group.sites).length < 2 then none
        else if !group.isClass && group.enclosingClass ∈ duplicated then none
        else some (duplicateDefinition group front.1)
      | _ => none

theorem analyzeGroup_diagnostics (classesOnly : Bool) (run : OdrRun) (group : OdrGroup) :
    (analyzeGroup classesOnly run group).diagnostics
      = run.diagnostics ++ (group.verdict classesOnly run.duplicatedClasses).toList := by
  unfold analyzeGroup verdict
  by_cases hclass : group.isClass ≠ classesOnly
  · rw [if_pos hclass, if_pos hclass]
    exact (List.append_nil _).symm
  rw [if_neg hclass, if_neg hclass]
  cases group.sites.find? (2 ≤ ·.2.length) with
  | some split => rfl
  | none =>
      rcases group.sites with _ | ⟨front, _ | ⟨second, rest⟩⟩
      · exact (List.append_nil _).symm
      · exact (List.append_nil _).symm
      · dsimp only
        split
        · exact (List.append_nil _).symm
        · split
          · exact (List.append_nil _).symm
          · rfl

/-- The pass over the classes notes the duplicates. -/
theorem mem_duplicatedClasses_class (run : OdrRun) (group : OdrGroup) (n : Str) :
    n ∈ (analyzeGroup true run group).duplicatedClasses ↔
      n ∈ run.duplicatedClasses ∨
        (group.isClass = true ∧ group.Duplicate ∧ group.displayName = n) := by
  unfold analyzeGroup Duplicate
  by_cases hclass : group.isClass = true
  swap
  · rw [if_pos hclass]
    exact (or_iff_left fun h => hclass h.1).symm
  rw [if_neg (not_not_intro hclass)]
  cases group.sites.find? (2 ≤ ·.2.length) with
  | some split => simp
  | none =>
      rcases group.sites with _ | ⟨front, _ | ⟨second, rest⟩⟩
      · simp
      · simp
      · by_cases htwo : 2 ≤ (allSeen (front :: second :: rest)).length
        · simp [hclass, Nat.not_lt.mpr htwo, htwo, Dedup.mem_pushUnique, eq_comm]
        · simp [Nat.not_le.mp htwo, htwo]

/-- The pass over the functions notes nothing. -/
theorem duplicatedClasses_function (run : OdrRun) (group : OdrGroup) :
    (analyzeGroup false run group).duplicatedClasses = run.duplicatedClasses := by
  unfold analyzeGroup
  by_cases hclass : group.isClass ≠ false
  · rw [if_pos hclass]
  rw [if_neg hclass, not_not.mp hclass]
  cases group.sites.find? (2 ≤ ·.2.length) with
  | some split => rfl
  | none =>
      rcases group.sites with _ | ⟨front, _ | ⟨second, rest⟩⟩
      · rfl
      · rfl
      · dsimp only
        split
        · rfl
        · split <;> rfl

/-- Classes are not passed over, whichever were reported before. -/
theorem verdict_class (group : OdrGroup) (duplicated duplicated' : List Str) :
    group.verdict true duplicated = group.verdict true duplicated' := by
  unfold verdict
  by_cases hclass : group.isClass = true <;> simp [hclass]

end OdrGroup

/-! ### The two passes -/

theorem foldl_classes (groups : List OdrGroup) (run : OdrRun) :
    (∀ duplicated, (groups.foldl (analyzeGroup true) run).diagnostics
        = run.diagnostics ++ groups.filterMap (·.verdict true duplicated)) ∧
      ∀ n, n ∈ (groups.foldl (analyzeGroup true) run).duplicatedClasses ↔
        n ∈ run.duplicatedClasses ∨
          ∃ group ∈ groups, group.isClass = true ∧ group.Duplicate ∧ group.displayName = n := by
  induction groups generalizing run with
  | nil => simp
  | cons group rest ih =>
      obtain ⟨hdiagnostics, hclasses⟩ := ih (analyzeGroup true run group)
      rw [List.foldl_cons]
      constructor
      · intro duplicated
        rw [hdiagnostics duplicated, OdrGroup.analyzeGroup_diagnostics,
          group.verdict_class _ duplicated, List.filterMap_cons, List.append_assoc]
        cases group.verdict true duplicated <;> rfl
      · intro n
        rw [hclasses, OdrGroup.mem_duplicatedClasses_class, or_assoc]
        simp only [List.exists_mem_cons_iff]

theorem foldl_functions (groups : List OdrGroup) (run : OdrRun) :
    (groups.foldl (analyzeGroup false) run).diagnostics
      = run.diagnostics ++ groups.filterMap (·.verdict false run.duplicatedClasses) := by
  induction groups generalizing run with
  | nil => exact (List.append_nil _).symm
  | cons group rest ih =>
      rw [List.foldl_cons, ih, OdrGroup.duplicatedClasses_function,
        OdrGroup.analyzeGroup_diagnostics, List.filterMap_cons, List.append_assoc]
      cases group.verdict false run.duplicatedClasses <;> rfl

/-! ### Groups of entries

A group stands for the entries of one key. Read off them, the verdicts name
definitions instead of the rows of a map.
-/

section Odr

variable {es : List OdrEntry}

/-- The group that entries of one key form. -/
def odrGroupOf (es : List OdrEntry) (k : Str) : OdrGroup :=
  ((odrGrouping.kept es).filter (odrGroupKey · = k)).foldl OdrGroup.note {}

theorem foldl_note_enclosing {rows : List OdrEntry} {enclosing : Str}
    (hall : ∀ e ∈ rows, e.enclosingClass = enclosing) {group : OdrGroup}
    (hgroup : group.enclosingClass = enclosing) :
    (rows.foldl OdrGroup.note group).enclosingClass = enclosing := by
  induction rows generalizing group with
  | nil => exact hgroup
  | cons e rest ih =>
      refine ih (fun x hx => hall x (List.mem_cons_of_mem _ hx)) ?_
      show (if e.enclosingClass ≠ [] then e.enclosingClass else group.enclosingClass) = enclosing
      split
      · exact hall e List.mem_cons_self
      · exact hgroup

/-- The group of an entry is of its name, kind and class. -/
theorem OdrReadable.groupOf (hread : OdrReadable es) {e : OdrEntry} (he : e ∈ es) :
    (odrGroupOf es (odrGroupKey e)).displayName = e.qualifiedName ∧
      (odrGroupOf es (odrGroupKey e)).isClass = e.isClass ∧
      (odrGroupOf es (odrGroupKey e)).enclosingClass = e.enclosingClass := by
  have hne := hread.faithful.kept_ne_nil he
  obtain ⟨x, hx, hname, hclass⟩ := foldl_note_last hne {}
  have hrows : ∀ x ∈ (odrGrouping.kept es).filter (odrGroupKey · = odrGroupKey e),
      x ∈ es ∧ odrGroupKey x = odrGroupKey e := by
    intro x hx
    obtain ⟨hx, hkey⟩ := List.mem_filter.mp hx
    exact ⟨Grouping.mem_of_mem_kept hx, of_decide_eq_true hkey⟩
  refine ⟨hname.trans (hread.faithful.name_kept he hx),
    hclass.trans (odrGroupKey_isClass (hrows x hx).2), ?_⟩
  have henclosing : ∀ x ∈ (odrGrouping.kept es).filter (odrGroupKey · = odrGroupKey e),
      x.enclosingClass = e.enclosingClass := fun x hx =>
    hread.enclosing x (hrows x hx).1 e he (hrows x hx).2
  unfold odrGroupOf
  obtain ⟨first, rest, hcons⟩ := List.exists_cons_of_ne_nil hne
  change (odrGrouping.kept es).filter (odrGroupKey · = odrGroupKey e) = first :: rest at hcons
  rw [hcons] at henclosing ⊢
  refine foldl_note_enclosing (fun x hx => henclosing x (List.mem_cons_of_mem _ hx)) ?_
  show (if first.enclosingClass ≠ [] then first.enclosingClass else []) = e.enclosingClass
  rw [← henclosing first List.mem_cons_self]
  split
  · rfl
  · rename_i hempty
    exact (not_not.mp hempty).symm

theorem OdrReadable.duplicate_iff (hread : OdrReadable es) (e : OdrEntry) :
    (odrGroupOf es (odrGroupKey e)).Duplicate ↔ DefinedTwice es e := by
  have hsites : (odrGroupOf es (odrGroupKey e)).sites
      = notes (odrGrouping.observed (odrGroupKey e) (odrGrouping.kept es)) := odrGroup_sites es _
  unfold OdrGroup.Duplicate DefinedTwice
  rw [hsites, hread.faithful.differs_iff]
  constructor
  · rintro ⟨hfind, -, hdiffers⟩
    exact ⟨hdiffers, fun site hsplit =>
      whole_of_find hfind site ((hread.faithful.split_iff site).mpr hsplit)⟩
  · rintro ⟨hdiffers, hwhole⟩
    have hwhole : ∀ site, ¬ SplitAt
        (odrGrouping.observed (odrGroupKey e) (odrGrouping.kept es)) site :=
      fun site hsplit => hwhole site ((hread.faithful.split_iff site).mp hsplit)
    refine ⟨find_split_none hwhole, ?_, hdiffers⟩
    -- two bodies that differ stand at two sites
    obtain ⟨s, hs, t, ht, hst⟩ := hdiffers
    obtain ⟨x, hx, hxs⟩ := exists_at ((hread.faithful.mem_observed_kept s).mpr hs)
    obtain ⟨y, hy, hyt⟩ := exists_at ((hread.faithful.mem_observed_kept t).mpr ht)
    refine (Dedup.two_le_length_iff (List.Nodup.of_map _ (nodup_notes _))).mpr
      ⟨x, hx, y, hy, ?_⟩
    rintro rfl
    refine hwhole x.1 ⟨s.2, t.2, ?_, ?_, hst⟩
    · rw [hxs]
      exact (hread.faithful.mem_observed_kept s).mpr hs
    · rw [hyt]
      exact (hread.faithful.mem_observed_kept t).mpr ht

/-- The verdict on the group of an entry, while these classes were reported as duplicates. -/
def odrVerdict (es : List OdrEntry) (duplicated : List Str) (k : Str) : Option Diagnostic :=
  (odrGroupOf es k).verdict (odrGroupOf es k).isClass duplicated

/-- Nothing is said of sites that agree. -/
theorem odrVerdict_of_same {e : OdrEntry} (hsame : ¬ odrGrouping.Differs es (odrGroupKey e))
    (duplicated : List Str) : odrVerdict es duplicated (odrGroupKey e) = none := by
  obtain ⟨htwo, hsplit⟩ := Grouping.quiet_kept hsame
  have hfind := find_split_none hsplit
  rw [← odrGroup_sites] at htwo hfind
  change ¬ 2 ≤ (allSeen (odrGroupOf es (odrGroupKey e)).sites).length at htwo
  change (odrGroupOf es (odrGroupKey e)).sites.find? (2 ≤ ·.2.length) = none at hfind
  unfold odrVerdict OdrGroup.verdict
  rw [if_neg (not_not_intro rfl), hfind]
  dsimp only
  split
  · rw [if_pos (Nat.not_le.mp htwo)]
  · rfl

variable (hread : OdrReadable es)
include hread

theorem OdrReadable.sites (e : OdrEntry) :
    ((odrGroupOf es (odrGroupKey e)).sites.map (·.1)).Nodup ∧
      ∀ site, site ∈ (odrGroupOf es (odrGroupKey e)).sites.map (·.1) ↔
        ∃ a, (site, a) ∈ odrGrouping.observed (odrGroupKey e) es := by
  have hsites : (odrGroupOf es (odrGroupKey e)).sites
      = notes (odrGrouping.observed (odrGroupKey e) (odrGrouping.kept es)) := odrGroup_sites es _
  rw [hsites]
  refine ⟨nodup_notes _, fun site => ?_⟩
  simp only [← hread.faithful.mem_observed_kept, List.mem_map]
  constructor
  · rintro ⟨x, hx, rfl⟩
    exact seen_at hx
  · rintro ⟨a, ha⟩
    exact exists_at ha

/-- A site of two bodies is reported. -/
theorem odrVerdict_of_split {e : OdrEntry} (he : e ∈ es) {site : IndexSite}
    (hsplit : SplitAt (odrGrouping.observed (odrGroupKey e) es) site) (duplicated : List Str) :
    ∃ d, odrVerdict es duplicated (odrGroupKey e) = some d ∧ OdrSays es e d := by
  have hsites : (odrGroupOf es (odrGroupKey e)).sites
      = notes (odrGrouping.observed (odrGroupKey e) (odrGrouping.kept es)) := odrGroup_sites es _
  cases hfind : (odrGroupOf es (odrGroupKey e)).sites.find? (2 ≤ ·.2.length) with
  | none =>
      exact absurd ((hread.faithful.split_iff site).mpr hsplit)
        (whole_of_find (hsites ▸ hfind) site)
  | some found =>
      refine ⟨divergentDefinition (odrGroupOf es (odrGroupKey e)) found.1 found.2, ?_, ?_⟩
      · unfold odrVerdict OdrGroup.verdict
        rw [if_neg (not_not_intro rfl), hfind]
      · rw [hsites] at hfind
        have hmem := List.mem_of_find?_eq_some hfind
        have hsays := OdrSays.divergent (e := e)
          ((hread.faithful.split_iff found.1).mp (split_of_find hfind)) (nodup_at hmem)
          fun a => (mem_at hmem a).trans (hread.faithful.mem_observed_kept (found.1, a))
        unfold divergentDefinition at hsays ⊢
        rw [(hread.groupOf he).1]
        exact hsays

/-- Several definitions are reported, but for those of a method of a class reported before. -/
theorem odrVerdict_of_twice {e : OdrEntry} (he : e ∈ es) (htwice : DefinedTwice es e)
    (duplicated : List Str) :
    ∃ d, OdrSays es e d ∧ odrVerdict es duplicated (odrGroupKey e)
      = if e.isClass = false ∧ e.enclosingClass ∈ duplicated then none else some d := by
  obtain ⟨hname, hclass, henclosing⟩ := hread.groupOf he
  obtain ⟨hfind, htwo, hbodies⟩ := (hread.duplicate_iff e).mpr htwice
  obtain ⟨hnodup, hlisted⟩ := hread.sites e
  unfold odrVerdict OdrGroup.verdict
  rw [if_neg (not_not_intro rfl), hfind, henclosing, hclass]
  rcases hcase : (odrGroupOf es (odrGroupKey e)).sites with _ | ⟨front, _ | ⟨second, rest⟩⟩
  · rw [hcase] at htwo
    exact absurd htwo (Nat.not_succ_le_zero 1)
  · rw [hcase] at htwo
    exact absurd htwo (Nat.not_succ_le_self 1)
  · rw [hcase] at hbodies hnodup hlisted
    refine ⟨duplicateDefinition (odrGroupOf es (odrGroupKey e)) front.1, ?_, ?_⟩
    · have hsays := OdrSays.duplicate htwice hnodup hlisted
      unfold duplicateDefinition at hsays ⊢
      rw [hname, hcase]
      exact hsays
    · dsimp only
      rw [if_neg (Nat.not_lt.mpr hbodies)]
      simp only [Bool.and_eq_true, Bool.not_eq_true', decide_eq_true_eq]

theorem odrVerdict_spec {duplicated : List Str}
    (hduplicated : ∀ n, n ∈ duplicated ↔
      ∃ c ∈ es, c.isClass = true ∧ c.qualifiedName = n ∧ DefinedTwice es c)
    {e : OdrEntry} (he : e ∈ es) :
    (odrVerdict es duplicated (odrGroupKey e) = none ↔
      ¬ odrGrouping.Differs es (odrGroupKey e) ∨ CoveredByClass es e) ∧
    ∀ d, odrVerdict es duplicated (odrGroupKey e) = some d → OdrSays es e d := by
  by_cases hdiffers : odrGrouping.Differs es (odrGroupKey e)
  swap
  · rw [odrVerdict_of_same hdiffers]
    exact ⟨iff_of_true rfl (Or.inl hdiffers), fun d hd => nomatch hd⟩
  by_cases htwice : DefinedTwice es e
  · obtain ⟨d, hsays, hverdict⟩ := odrVerdict_of_twice hread he htwice duplicated
    have hcovered : CoveredByClass es e ↔ e.isClass = false ∧ e.enclosingClass ∈ duplicated := by
      unfold CoveredByClass
      rw [hduplicated]
      exact and_congr_right fun _ => and_iff_right htwice
    rw [hverdict, or_iff_right (not_not_intro hdiffers), hcovered]
    split
    · rename_i hcover
      exact ⟨iff_of_true rfl hcover, fun d hd => nomatch hd⟩
    · rename_i hcover
      exact ⟨iff_of_false (Option.some_ne_none d) hcover, fun d' hd => Option.some.inj hd ▸ hsays⟩
  · obtain ⟨site, hsplit⟩ : ∃ site, SplitAt (odrGrouping.observed (odrGroupKey e) es) site := by
      by_contra hwhole
      exact htwice ⟨hdiffers, not_exists.mp hwhole⟩
    obtain ⟨d, hverdict, hsays⟩ := odrVerdict_of_split hread he hsplit duplicated
    rw [hverdict]
    refine ⟨iff_of_false (Option.some_ne_none d) ?_, fun d' hd => Option.some.inj hd ▸ hsays⟩
    rintro (hsame | hcovered)
    · exact hsame hdiffers
    · exact htwice hcovered.2.1

end Odr

/-- **ODR violations are reported exactly**, classes first: a class or a function of which two
definitions do not agree is reported once, but for a method whose class is reported as a
duplicate. -/
theorem odr_reports_exact (h : IndexHistory) (hread : OdrReadable (odrGiven h.calls)) :
    ∃ verdict : Str → Option Diagnostic,
      analyzeOdrViolations h.index
        = (odrGrouping.keys ((odrGiven h.calls).filter (·.isClass))
            ++ odrGrouping.keys ((odrGiven h.calls).filter (!·.isClass))).filterMap verdict ∧
      ∀ e ∈ odrGiven h.calls,
        (verdict (odrGroupKey e) = none ↔
          ¬ odrGrouping.Differs (odrGiven h.calls) (odrGroupKey e) ∨
            CoveredByClass (odrGiven h.calls) e) ∧
        ∀ d, verdict (odrGroupKey e) = some d → OdrSays (odrGiven h.calls) e d := by
  have hlookup := lookup_odrGroups (IndexHistory.part_eq odrPart h)
  change ∀ k, (odrGroups h.index).lookup k
    = if k ∈ (odrGrouping.kept (odrGiven h.calls)).map odrGroupKey then
        some (odrGroupOf (odrGiven h.calls) k) else none at hlookup
  generalize odrGiven h.calls = es at hread hlookup ⊢
  have hgroups : (ascending (odrGroups h.index)).map (·.2)
      = (odrGrouping.keys es).map (odrGroupOf es) := by
    rw [ascending_grouped (G := odrGrouping) hlookup, ← List.filterMap_eq_map]
    refine List.filterMap_congr fun k hk => ?_
    exact (hlookup k).trans (if_pos (hread.faithful.mem_keys_kept.mpr (Grouping.mem_keys.mp hk)))
  unfold analyzeOdrViolations
  dsimp only
  rw [hgroups, foldl_functions]
  obtain ⟨hclasses, hduplicated⟩ := foldl_classes ((odrGrouping.keys es).map (odrGroupOf es)) {}
  generalize ((odrGrouping.keys es).map (odrGroupOf es)).foldl (analyzeGroup true) {} = run
    at hclasses hduplicated ⊢
  have hduplicated : ∀ n, n ∈ run.duplicatedClasses ↔
      ∃ c ∈ es, c.isClass = true ∧ c.qualifiedName = n ∧ DefinedTwice es c := by
    intro n
    rw [hduplicated, or_iff_right List.not_mem_nil]
    simp only [List.mem_map, exists_exists_and_eq_and]
    constructor
    · rintro ⟨k, hk, hclass, hdup, hname⟩
      obtain ⟨c, hc, rfl⟩ := Grouping.mem_keys.mp hk
      obtain ⟨hcname, hcclass, -⟩ := hread.groupOf hc
      exact ⟨c, hc, hcclass.symm.trans hclass, hcname.symm.trans hname,
        (hread.duplicate_iff c).mp hdup⟩
    · rintro ⟨c, hc, hclass, hname, hdup⟩
      obtain ⟨hcname, hcclass, -⟩ := hread.groupOf hc
      exact ⟨odrGroupKey c, Grouping.mem_keys.mpr ⟨c, hc, rfl⟩, hcclass.trans hclass,
        (hread.duplicate_iff c).mpr hdup, hcname.trans hname⟩
  refine ⟨odrVerdict es run.duplicatedClasses, ?_, fun e he =>
    odrVerdict_spec hread hduplicated he⟩
  -- the keys of classes and those of functions
  have hkind : ∀ kind : Bool, odrGrouping.keys (es.filter fun e => e.isClass == kind)
      = (odrGrouping.keys es).filter fun k => (odrGroupOf es k).isClass == kind := by
    intro kind
    rw [Grouping.filter_keys]
    refine congrArg _ (List.filter_congr fun e he => ?_)
    exact congrArg (· == kind) (hread.groupOf he).2.1.symm
  have hpass : ∀ kind : Bool,
      ((odrGrouping.keys es).map (odrGroupOf es)).filterMap (·.verdict kind run.duplicatedClasses)
        = (odrGrouping.keys (es.filter fun e => e.isClass == kind)).filterMap
            (odrVerdict es run.duplicatedClasses) := by
    intro kind
    rw [hkind, List.filterMap_filter, List.filterMap_map]
    refine List.filterMap_congr fun k _ => ?_
    by_cases hk : (odrGroupOf es k).isClass = kind
    · rw [if_pos (beq_iff_eq.mpr hk)]
      unfold odrVerdict
      rw [hk]
      rfl
    · rw [if_neg (mt beq_iff_eq.mp hk)]
      exact if_pos hk
  rw [hclasses run.duplicatedClasses, hpass, hpass, List.filterMap_append]
  simp

/-! ### A class with a method, twice -/

/-- A definition on the first line of a file. -/
def definedIn (name : String) (isClass : Bool) (enclosing file : String) (odrHash : UInt64) :
    IndexCall :=
  .odr ⟨str name, [], isClass, str enclosing, str file, 1, odrHash⟩

/-- `A` and its method in two headers, and a function that depends on the preprocessor. -/
def methodsTwice : IndexHistory :=
  .absorb
    (.call (.call (.call .empty (definedIn "A" true "" "a.h" 1))
      (definedIn "A::m" false "A" "a.h" 2)) (definedIn "f" false "" "f.h" 3))
    (.call (.call (.call .empty (definedIn "A" true "" "b.h" 4))
      (definedIn "A::m" false "A" "b.h" 5)) (definedIn "f" false "" "f.h" 6)) .inOrder

theorem duplicated_of_sites {es : List OdrEntry} {e : OdrEntry}
    (hdiffers : ∃ s ∈ odrGrouping.observed (odrGroupKey e) es,
      ∃ t ∈ odrGrouping.observed (odrGroupKey e) es, s.2 ≠ t.2)
    (hsites : ∀ s ∈ odrGrouping.observed (odrGroupKey e) es,
      ∀ t ∈ odrGrouping.observed (odrGroupKey e) es, s.1 = t.1 → s.2 = t.2) : DefinedTwice es e :=
  ⟨hdiffers, fun _ ⟨_, _, ha, hb, hab⟩ => hab (hsites _ ha _ hb rfl)⟩

theorem odr_reports_exact_methods :
    ∃ verdict : Str → Option Diagnostic,
      analyzeOdrViolations methodsTwice.index
        = (odrGrouping.keys ((odrGiven methodsTwice.calls).filter (·.isClass))
            ++ odrGrouping.keys ((odrGiven methodsTwice.calls).filter (!·.isClass))).filterMap
              verdict ∧
      verdict (str "A||c") ≠ none ∧ verdict (str "A::m||f") = none ∧
      verdict (str "f||f") ≠ none := by
  have hread : OdrReadable (odrGiven methodsTwice.calls) :=
    ⟨⟨by decide +kernel, by decide +kernel⟩, by decide +kernel⟩
  obtain ⟨verdict, hreports, hverdict⟩ := odr_reports_exact methodsTwice hread
  have hclass := hverdict ⟨str "A", [], true, [], str "a.h", 1, 1⟩ (by decide)
  have hmethod := hverdict ⟨str "A::m", [], false, str "A", str "a.h", 1, 2⟩ (by decide)
  have hfunction := hverdict ⟨str "f", [], false, [], str "f.h", 1, 3⟩ (by decide)
  refine ⟨verdict, hreports, fun hnone => ?_, hmethod.1.mpr (Or.inr ⟨rfl, ?_, ?_⟩), fun hnone => ?_⟩
  · rcases hclass.1.mp hnone with hsame | hcovered
    · exact hsame (by unfold Grouping.Differs; decide +kernel)
    · exact absurd hcovered.1 (by decide)
  · exact duplicated_of_sites (by decide +kernel) (by decide +kernel)
  · refine ⟨⟨str "A", [], true, [], str "a.h", 1, 1⟩, by decide, rfl, rfl, ?_⟩
    exact duplicated_of_sites (by decide +kernel) (by decide +kernel)
  · rcases hfunction.1.mp hnone with hsame | hcovered
    · exact hsame (by unfold Grouping.Differs; decide +kernel)
    · refine hcovered.2.1.2 (str "f.h", 1) ⟨3, 6, ?_, ?_, by decide⟩ <;> decide +kernel

end Vycor
