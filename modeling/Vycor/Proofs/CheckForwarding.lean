/-
What a worker makes of the set that its parent resolved.

An entry covers a name or the members of a group, and switches them on or off; what counts in
the end is the last entry that covers a name (`mem_applied`).  A worker applies the config and
then `-all` and the forwarded names, so it ends with what these names switch on, and with what
the config had switched on and `-all` does not reach: members of a group that are no checks.

`Forwards` is when that is the parent's set.  It fails where a forwarded name is read as
something else: no check at all (a group member that nobody registered), a group of the same
name, or an entry with a sign, a comma or blanks of its own.
-/
import Vycor.Model.CheckSet

namespace Vycor

open Ordered

theorem strict_nameLess : Strict nameLess :=
  strict_decide List.lt_trans List.lt_asymm fun hab hba => List.le_antisymm hba hab

/-! ### One entry -/

section

variable (registry : ExtensionRegistry)

/-- The entry names a check or a group. -/
def SpecWord (raw : Str) : Prop :=
  (readEntry raw).2 ≠ [] ∧
    (((checkGroups registry).lookup (readEntry raw).2).isSome ∨
      (readEntry raw).2 ∈ knownChecks registry)

/-- The members of the group, or the name. -/
def covered (raw : Str) : List Str :=
  ((checkGroups registry).lookup (readEntry raw).2).getD [(readEntry raw).2]

/-- The entry is positive and covers the check. -/
def SwitchesOn (raw x : Str) : Prop := (readEntry raw).1 = false ∧ x ∈ covered registry raw

/-- The entry is negative and covers the check. -/
def SwitchesOff (raw x : Str) : Prop := (readEntry raw).1 = true ∧ x ∈ covered registry raw

/-- An entry on what is enabled: each check it covers goes in or out. -/
def applyEntry (enabled : List Str) (raw : Str) : List Str :=
  (covered registry raw).foldl (applyName (readEntry raw).1) enabled

variable {registry}

theorem resolveEntry_eq_ok {enabled out : List Str} {raw : Str} :
    resolveEntry registry enabled raw = .ok out ↔
      SpecWord registry raw ∧ out = applyEntry registry enabled raw := by
  unfold resolveEntry SpecWord applyEntry covered
  dsimp only
  by_cases hempty : (readEntry raw).2 = []
  · simp [hempty]
  · rw [if_neg hempty]
    cases hgroup : (checkGroups registry).lookup (readEntry raw).2 with
    | some members => simp [hempty, eq_comm]
    | none =>
        by_cases hknown : (readEntry raw).2 ∈ knownChecks registry
        · simp [hempty, hknown, eq_comm]
        · simp [hknown]

theorem mem_foldl_applyName (disable : Bool) (names enabled : List Str) (x : Str) :
    x ∈ names.foldl (applyName disable) enabled ↔
      (disable = false ∧ x ∈ names) ∨ (x ∈ enabled ∧ ¬ (disable = true ∧ x ∈ names)) := by
  induction names generalizing enabled with
  | nil => simp
  | cons n rest ih =>
      have hone : x ∈ applyName disable enabled n ↔
          (disable = false ∧ x = n) ∨ (x ∈ enabled ∧ ¬ (disable = true ∧ x = n)) := by
        unfold applyName
        cases disable with
        | true => simp [eraseName]
        | false => simp [insertName, mem_insertBy strict_nameLess]
      rw [List.foldl_cons, ih, hone, List.mem_cons]
      cases disable <;> simp <;> tauto

theorem mem_applyEntry {enabled : List Str} {raw x : Str} :
    x ∈ applyEntry registry enabled raw ↔
      SwitchesOn registry raw x ∨ (x ∈ enabled ∧ ¬ SwitchesOff registry raw x) :=
  mem_foldl_applyName _ _ _ x

theorem ascending_applyEntry {enabled : List Str} (h : Ascending nameLess enabled) (raw : Str) :
    Ascending nameLess (applyEntry registry enabled raw) := by
  unfold applyEntry
  induction covered registry raw generalizing enabled with
  | nil => exact h
  | cons n rest ih =>
      refine ih ?_
      unfold applyName
      split
      · exact List.Pairwise.filter _ h
      · exact ascending_insertBy strict_nameLess n h

/-! ### A specification

The entries are applied in order, so the last one that covers a name decides
about it.
-/

/-- Some entry switches the name on and none behind it switches it off. -/
def SwitchedOn (registry : ExtensionRegistry) : List Str → Str → Prop
  | [], _ => False
  | raw :: rest, x =>
    SwitchedOn registry rest x ∨
      (SwitchesOn registry raw x ∧ ∀ e ∈ rest, ¬ SwitchesOff registry e x)

theorem resolveCheckSpec_eq_ok {spec enabled out : List Str} :
    resolveCheckSpec registry spec enabled = .ok out ↔
      (∀ raw ∈ spec, SpecWord registry raw) ∧ out = spec.foldl (applyEntry registry) enabled := by
  unfold resolveCheckSpec
  induction spec generalizing enabled with
  | nil =>
      simp only [List.foldlM_nil, List.foldl_nil, List.not_mem_nil, false_implies, implies_true,
        true_and]
      exact ⟨fun h => (Except.ok.inj h).symm, fun h => congrArg Except.ok h.symm⟩
  | cons raw rest ih =>
      rw [List.foldlM_cons, List.forall_mem_cons, List.foldl_cons]
      cases hone : resolveEntry registry enabled raw with
      | error e =>
          have hnot : ¬ SpecWord registry raw := by
            intro hreads
            have hok : resolveEntry registry enabled raw = .ok _ :=
              resolveEntry_eq_ok.mpr ⟨hreads, rfl⟩
            rw [hone] at hok
            exact nomatch hok
          constructor
          · intro h
            exact nomatch h
          · rintro ⟨⟨hreads, -⟩, -⟩
            exact absurd hreads hnot
      | ok next =>
          obtain ⟨hreads, rfl⟩ := resolveEntry_eq_ok.mp hone
          refine Iff.trans ih ?_
          simp [hreads]

/-- **The last entry that covers a name decides.** -/
theorem mem_applied {spec enabled : List Str} {x : Str} :
    x ∈ spec.foldl (applyEntry registry) enabled ↔
      SwitchedOn registry spec x ∨ (x ∈ enabled ∧ ∀ e ∈ spec, ¬ SwitchesOff registry e x) := by
  induction spec generalizing enabled with
  | nil => simp [SwitchedOn]
  | cons raw rest ih =>
      rw [List.foldl_cons, ih, mem_applyEntry, List.forall_mem_cons, SwitchedOn]
      tauto

theorem switchedOn_append {a b : List Str} {x : Str} :
    SwitchedOn registry (a ++ b) x ↔
      SwitchedOn registry b x ∨ (SwitchedOn registry a x ∧ ∀ e ∈ b, ¬ SwitchesOff registry e x) := by
  induction a with
  | nil => simp [SwitchedOn]
  | cons raw rest ih =>
      rw [List.cons_append, SwitchedOn, ih, SwitchedOn]
      simp only [List.mem_append, or_imp, forall_and]
      tauto

theorem ascending_applied {spec enabled : List Str} (h : Ascending nameLess enabled) :
    Ascending nameLess (spec.foldl (applyEntry registry) enabled) := by
  induction spec generalizing enabled with
  | nil => exact h
  | cons raw rest ih => exact ih (ascending_applyEntry h raw)

end

/-! ### Everything is in "all"

The worker's list begins by taking everything off. That this leaves the empty
set needs the group "all" to hold each check, whatever groups an organization
adds.
-/

theorem mem_foldl_insertName {names enabled : List Str} {x : Str} :
    x ∈ names.foldl insertName enabled ↔ x ∈ enabled ∨ x ∈ names := by
  induction names generalizing enabled with
  | nil => simp
  | cons n rest ih =>
      rw [List.foldl_cons, ih]
      unfold insertName
      rw [mem_insertBy strict_nameLess, List.mem_cons]
      tauto

theorem ascending_foldl_insertName {names enabled : List Str} (h : Ascending nameLess enabled) :
    Ascending nameLess (names.foldl insertName enabled) := by
  induction names generalizing enabled with
  | nil => exact h
  | cons n rest ih => exact ih (ascending_insertBy strict_nameLess n h)

theorem defaultCheckSet_known {registry : ExtensionRegistry} {x : Str}
    (h : x ∈ defaultCheckSet registry) : x ∈ knownChecks registry := by
  unfold defaultCheckSet at h
  unfold knownChecks
  rw [mem_foldl_insertName, mem_foldl_insertName] at h
  rw [List.mem_append]
  rcases h with (h | h) | h
  · exact nomatch h
  · obtain ⟨check, hcheck, rfl⟩ := List.mem_map.mp h
    exact Or.inl (List.mem_map_of_mem (List.mem_filter.mp hcheck).1)
  · exact Or.inr h

theorem ascending_defaultCheckSet (registry : ExtensionRegistry) :
    Ascending nameLess (defaultCheckSet registry) :=
  ascending_foldl_insertName (ascending_foldl_insertName List.Pairwise.nil)

/-- The groups of the built-in checks. -/
def builtinGroups : UMap Str (List Str) :=
  builtinAnnealChecks.foldl
    (fun groups check =>
      check.groups.foldl (fun groups group => pushMember group groups check.name)
        (pushMember (str "all") groups check.name)) ∅

theorem builtinGroups_all :
    builtinGroups.lookup (str "all") = some (builtinAnnealChecks.map (·.name)) := by
  decide +kernel

/-- The group "all" holds every check. -/
theorem all_covers (registry : ExtensionRegistry) :
    ∃ members, (checkGroups registry).lookup (str "all") = some members ∧
      ∀ x ∈ knownChecks registry, x ∈ members := by
  have hpush : ∀ (names : List Str) (groups : UMap Str (List Str)) (members : List Str),
      groups.lookup (str "all") = some members →
      AList.lookup (str "all") (names.foldl (pushMember (str "all")) groups)
        = some (members ++ names) := by
    intro names
    induction names with
    | nil => intro groups members h; rw [List.append_nil]; exact h
    | cons n rest ih =>
        intro groups members h
        rw [List.foldl_cons, ih _ (members ++ [n]), List.append_assoc, List.singleton_append]
        unfold pushMember
        rw [UMap.lookup_upsert, if_pos rfl]
        unfold UMap.getD
        rw [h]
        rfl
  have hextend : ∀ (entries : List (Sigma fun _ : Str => List Str)) (groups : UMap Str (List Str))
      (members : List Str), groups.lookup (str "all") = some members →
      ∃ more, AList.lookup (str "all")
        (entries.foldl (fun (groups : UMap Str (List Str)) entry =>
          groups.upsert entry.1 [] (· ++ entry.2)) groups) = some more ∧ ∀ x ∈ members, x ∈ more := by
    intro entries
    induction entries with
    | nil => intro groups members h; exact ⟨members, h, fun _ hx => hx⟩
    | cons entry rest ih =>
        intro groups members h
        by_cases hall : str "all" = entry.1
        · have hnext : AList.lookup (str "all") (groups.upsert entry.1 [] (· ++ entry.2))
              = some (members ++ entry.2) := by
            rw [UMap.lookup_upsert, if_pos hall]
            unfold UMap.getD
            rw [← hall, h]
            rfl
          obtain ⟨more, hmore, hsub⟩ := ih _ _ hnext
          exact ⟨more, hmore, fun x hx => hsub x (List.mem_append_left _ hx)⟩
        · have hnext : AList.lookup (str "all") (groups.upsert entry.1 [] (· ++ entry.2))
              = some members := by
            rw [UMap.lookup_upsert, if_neg hall, h]
          exact ih _ _ hnext
  have hchecks := hpush registry.allCheckNames builtinGroups _ builtinGroups_all
  exact hextend registry.checkGroups.entries _ _ hchecks

/-! ### Forwarding

What the worker adds to its empty set is what the forwarded names switch on, and
on the way there the config file has its say as well.
-/

theorem splitCommas_ne_nil (s : Str) : splitCommas s ≠ [] := by
  cases s with
  | nil => exact List.cons_ne_nil _ _
  | cons c rest =>
      rw [splitCommas]
      split
      · exact List.cons_ne_nil _ _
      · split <;> exact List.cons_ne_nil _ _

theorem splitCommas_append (a b : Str) :
    splitCommas (a ++ str "," ++ b) = splitCommas a ++ splitCommas b := by
  have hcomma : str "," = [44] := by decide
  rw [hcomma, List.append_assoc, List.singleton_append]
  induction a with
  | nil => rfl
  | cons c rest ih =>
      rw [List.cons_append, splitCommas, ih, splitCommas]
      split
      · rfl
      · cases hrest : splitCommas rest with
        | nil => exact absurd hrest (splitCommas_ne_nil rest)
        | cons entry more => rfl

theorem commandLineEntries_append (a b : Str) :
    commandLineEntries (a ++ str "," ++ b) = commandLineEntries a ++ commandLineEntries b := by
  unfold commandLineEntries
  rw [splitCommas_append, List.map_append, List.filter_append]

/-- The entries that a worker reads behind `-all`. -/
def forwardedNames (enabled : List Str) : List Str := enabled.flatMap commandLineEntries

theorem commandLineEntries_workerChecks (enabled : List Str) :
    commandLineEntries (workerChecks enabled) = str "-all" :: forwardedNames enabled := by
  have hjoin : ∀ (enabled : List Str) (text : Str),
      commandLineEntries (enabled.foldl (fun text name => text ++ str "," ++ name) text)
        = commandLineEntries text ++ forwardedNames enabled := by
    intro enabled
    induction enabled with
    | nil => intro text; exact (List.append_nil _).symm
    | cons n rest ih =>
        intro text
        rw [List.foldl_cons, ih, commandLineEntries_append, List.append_assoc]
        rfl
  unfold workerChecks
  rw [hjoin]
  have hall : commandLineEntries (str "-all") = [str "-all"] := by decide
  rw [hall]
  rfl

/-- On by the config, past `-all`, and not off by a forwarded name. -/
def LeftOn (registry : ExtensionRegistry) (config enabled : List Str) (x : Str) : Prop :=
  SwitchedOn registry config x ∧ x ∉ covered registry (str "-all") ∧
    ∀ e ∈ forwardedNames enabled, ¬ SwitchesOff registry e x

/-- The forwarded names are read, switch on names of the set only, and all of those that the
config does not leave on. -/
structure Forwards (registry : ExtensionRegistry) (config enabled : List Str) : Prop where
  reads : ∀ e ∈ forwardedNames enabled, SpecWord registry e
  within : ∀ x, SwitchedOn registry (forwardedNames enabled) x → x ∈ enabled
  leftOn : ∀ x, LeftOn registry config enabled x → x ∈ enabled
  all : ∀ x ∈ enabled, SwitchedOn registry (forwardedNames enabled) x ∨
    LeftOn registry config enabled x

/-- **A worker resolves the set of its parent exactly when the set forwards.** -/
theorem worker_resolves_same_iff (registry : ExtensionRegistry) (config : List Str) (cli : Str)
    (flags : LegacyFlags) (enabled : List Str)
    (hparent : enabledChecks registry config cli flags = .ok enabled) :
    workerEnabledChecks registry config enabled = .ok enabled ↔ Forwards registry config enabled := by
  obtain ⟨hreads, henabled⟩ := resolveCheckSpec_eq_ok.mp hparent
  have hconfig : ∀ raw ∈ config, SpecWord registry raw := fun raw hraw =>
    hreads raw (List.mem_append_left _ (List.mem_append_left _ hraw))
  have hsorted : Ascending nameLess enabled :=
    henabled ▸ ascending_applied (ascending_defaultCheckSet registry)
  obtain ⟨members, hmembers, hevery⟩ := all_covers registry
  have hentry : readEntry (str "-all") = (true, str "all") := by decide
  have hcovered : covered registry (str "-all") = members := by
    unfold covered
    rw [hentry, hmembers]
    rfl
  have hallWord : SpecWord registry (str "-all") := by
    unfold SpecWord
    rw [hentry]
    exact ⟨by decide, Or.inl (by rw [hmembers]; rfl)⟩
  have hallOn : ∀ x, ¬ SwitchesOn registry (str "-all") x := by
    rintro x ⟨hsign, -⟩
    rw [hentry] at hsign
    exact nomatch hsign
  have hallOff : ∀ x, SwitchesOff registry (str "-all") x ↔ x ∈ covered registry (str "-all") := by
    intro x
    unfold SwitchesOff
    rw [hentry]
    simp
  -- what a worker ends with
  have hworker : ∀ x, x ∈ (config ++ str "-all" :: forwardedNames enabled).foldl
      (applyEntry registry) (defaultCheckSet registry) ↔
        SwitchedOn registry (forwardedNames enabled) x ∨ LeftOn registry config enabled x := by
    intro x
    have hdefault : ¬ (x ∈ defaultCheckSet registry ∧
        ∀ e ∈ config ++ str "-all" :: forwardedNames enabled, ¬ SwitchesOff registry e x) := by
      rintro ⟨hx, hoff⟩
      refine hoff (str "-all") (by simp) ((hallOff x).mpr ?_)
      rw [hcovered]
      exact hevery x (defaultCheckSet_known hx)
    rw [mem_applied, or_iff_left hdefault, switchedOn_append, SwitchedOn, List.forall_mem_cons,
      hallOff]
    unfold LeftOn
    have hon := hallOn x
    tauto
  have hspec : config ++ commandLineEntries (workerChecks enabled) ++ LegacyFlags.entries {}
      = config ++ str "-all" :: forwardedNames enabled := by
    rw [commandLineEntries_workerChecks]
    exact List.append_nil _
  unfold workerEnabledChecks enabledChecks
  rw [hspec, resolveCheckSpec_eq_ok]
  constructor
  · rintro ⟨hok, hsame⟩
    have hmem : ∀ x, x ∈ enabled ↔
        SwitchedOn registry (forwardedNames enabled) x ∨ LeftOn registry config enabled x := by
      intro x
      rw [← hworker x, ← hsame]
    exact
      { reads := fun e he => hok e (List.mem_append_right _ (List.mem_cons_of_mem _ he))
        within := fun x hx => (hmem x).mpr (Or.inl hx)
        leftOn := fun x hx => (hmem x).mpr (Or.inr hx)
        all := fun x hx => (hmem x).mp hx }
  · intro h
    refine ⟨fun raw hraw => ?_, ?_⟩
    · rcases List.mem_append.mp hraw with hraw | hraw
      · exact hconfig raw hraw
      · rcases List.mem_cons.mp hraw with rfl | hraw
        · exact hallWord
        · exact h.reads raw hraw
    · refine Ascending.ext strict_nameLess hsorted
        (ascending_applied (ascending_defaultCheckSet registry)) fun x => ?_
      rw [hworker x]
      exact ⟨h.all x, fun hx => hx.elim (h.within x) (h.leftOn x)⟩

/-- A check of an organization, and a group of it and of a built-in check. -/
def houseChecks : ExtensionRegistry :=
  ({ allCheckNames := [str "naming"] } : ExtensionRegistry).addCheckGroup (str "house")
    [str "naming", str "dead-code"]

/-- The config takes everything off and puts the group on; the command line adds a check and
takes back a member. -/
theorem worker_resolves_same_house :
    enabledChecks houseChecks [str "-all", str "house"] (str "odr-violations, -naming") {}
        = .ok [str "dead-code", str "odr-violations"] ∧
      workerEnabledChecks houseChecks [str "-all", str "house"]
          [str "dead-code", str "odr-violations"]
        = .ok [str "dead-code", str "odr-violations"] ∧
      Forwards houseChecks [str "-all", str "house"] [str "dead-code", str "odr-violations"] := by
  have hparent : enabledChecks houseChecks [str "-all", str "house"]
      (str "odr-violations, -naming") {} = .ok [str "dead-code", str "odr-violations"] := by
    decide +kernel
  have hworker : workerEnabledChecks houseChecks [str "-all", str "house"]
      [str "dead-code", str "odr-violations"] = .ok [str "dead-code", str "odr-violations"] := by
    decide +kernel
  exact ⟨hparent, hworker, (worker_resolves_same_iff _ _ _ _ _ hparent).mp hworker⟩

/-- A group with a member that nobody registered. -/
def withUnknownMember : ExtensionRegistry :=
  ({} : ExtensionRegistry).addCheckGroup (str "mine") [str "dead-code", str "gone"]

/-- **In general a worker does not**: it does not know a member of a group that is no check. -/
theorem worker_resolves_unknown_member : ¬ ∀ (registry : ExtensionRegistry) (config : List Str)
    (cli : Str) (flags : LegacyFlags) (enabled : List Str),
    enabledChecks registry config cli flags = .ok enabled →
      workerEnabledChecks registry config enabled = .ok enabled := by
  intro hall
  have hworker := hall withUnknownMember [] (str "-all,mine") {} [str "dead-code", str "gone"]
    (by decide +kernel)
  revert hworker
  decide +kernel

/-! ### Plain names

The condition in terms of groups and checks, for names without a sign, a comma
or blanks at the ends. The forwarded names are then the entries themselves.
-/

/-- The name can be written as an entry. -/
def PlainName (n : Str) : Prop :=
  n ≠ [] ∧ n.head? ≠ some 45 ∧ 44 ∉ n ∧ n.head? ≠ some 32 ∧ n.getLast? ≠ some 32

theorem commandLineEntries_plain {n : Str} (h : PlainName n) : commandLineEntries n = [n] := by
  obtain ⟨hne, -, hcomma, hfront, hback⟩ := h
  have hsplit : ∀ n : Str, 44 ∉ n → splitCommas n = [n] := by
    intro n
    induction n with
    | nil => intro _; rfl
    | cons c rest ih =>
        intro hc
        rw [List.mem_cons, not_or] at hc
        rw [splitCommas, if_neg (Ne.symm hc.1), ih hc.2]
  have hdrop : ∀ n : Str, n.head? ≠ some 32 → n.dropWhile (· = 32) = n := by
    intro n hn
    cases n with
    | nil => rfl
    | cons c rest =>
        refine List.dropWhile_cons_of_neg ?_
        simpa using hn
  have htrim : trimBlanks n = n := by
    unfold trimBlanks
    rw [hdrop n hfront, hdrop n.reverse (by rw [List.head?_reverse]; exact hback), List.reverse_reverse]
  unfold commandLineEntries
  rw [hsplit n hcomma, List.map_singleton, htrim, List.filter_cons_of_pos (by simpa using hne)]
  rfl

theorem PlainName.readEntry {n : Str} (h : PlainName n) : readEntry n = (false, n) := by
  have hsign := h.2.1
  unfold Vycor.readEntry
  split
  · simp at hsign
  · rfl

section Plain

variable {registry : ExtensionRegistry} {config enabled : List Str}

theorem not_switchesOff_plain {e : Str} (h : PlainName e) (x : Str) :
    ¬ SwitchesOff registry e x := by
  rintro ⟨hsign, -⟩
  rw [h.readEntry] at hsign
  exact nomatch hsign

theorem forwardedNames_plain (hplain : ∀ n ∈ enabled, PlainName n) :
    forwardedNames enabled = enabled := by
  unfold forwardedNames
  rw [List.flatMap_congr fun n hn => commandLineEntries_plain (hplain n hn)]
  exact List.flatMap_singleton' enabled

/-- Plain names switch on what they name, whatever stands behind them. -/
theorem switchedOn_plain_iff (hplain : ∀ n ∈ enabled, PlainName n) (x : Str) :
    SwitchedOn registry enabled x
      ↔ ∃ e ∈ enabled, x ∈ ((checkGroups registry).lookup e).getD [e] := by
  induction enabled with
  | nil => simp [SwitchedOn]
  | cons e rest ih =>
      have hrest : ∀ n ∈ rest, PlainName n := fun n hn => hplain n (List.mem_cons_of_mem _ hn)
      have hnone : ∀ f ∈ rest, ¬ SwitchesOff registry f x := fun f hf =>
        not_switchesOff_plain (hrest f hf) x
      rw [SwitchedOn, ih hrest]
      unfold SwitchesOn covered
      rw [(hplain e List.mem_cons_self).readEntry, List.exists_mem_cons_iff]
      dsimp only
      rw [and_iff_left hnone, eq_self, true_and, or_comm]

theorem leftOn_plain_iff (hplain : ∀ n ∈ enabled, PlainName n) (x : Str) :
    LeftOn registry config enabled x
      ↔ SwitchedOn registry config x ∧ x ∉ covered registry (str "-all") := by
  unfold LeftOn
  rw [forwardedNames_plain hplain]
  exact ⟨fun h => ⟨h.1, h.2.1⟩, fun h =>
    ⟨h.1, h.2, fun e he => not_switchesOff_plain (hplain e he) x⟩⟩

/-- A set of plain names forwards when each is a check or a group, the groups among them have
their members in it and stand in one themselves, and the config leaves on nothing else. -/
theorem forwards_plain_iff (hplain : ∀ n ∈ enabled, PlainName n) :
    Forwards registry config enabled ↔
      (∀ n ∈ enabled, ((checkGroups registry).lookup n).isSome ∨ n ∈ knownChecks registry) ∧
      (∀ g ∈ enabled, ∀ members, (checkGroups registry).lookup g = some members →
        ∀ x ∈ members, x ∈ enabled) ∧
      (∀ x, SwitchedOn registry config x → x ∉ covered registry (str "-all") → x ∈ enabled) ∧
      ∀ g ∈ enabled, ((checkGroups registry).lookup g).isSome →
        (∃ g' ∈ enabled, ∃ members, (checkGroups registry).lookup g' = some members ∧ g ∈ members) ∨
          SwitchedOn registry config g ∧ g ∉ covered registry (str "-all") := by
  have hnames := forwardedNames_plain hplain
  have hon : ∀ x, SwitchedOn registry enabled x
      ↔ ∃ e ∈ enabled, x ∈ ((checkGroups registry).lookup e).getD [e] :=
    switchedOn_plain_iff hplain
  have hleft : ∀ x, LeftOn registry config enabled x
      ↔ SwitchedOn registry config x ∧ x ∉ covered registry (str "-all") :=
    leftOn_plain_iff hplain
  constructor
  · intro h
    refine ⟨fun n hn => ?_, fun g hg members hmembers x hx => ?_, fun x hx hall => ?_,
      fun g hg hgroup => ?_⟩
    · have hreads := (h.reads n (by rw [hnames]; exact hn)).2
      rwa [(hplain n hn).readEntry] at hreads
    · refine h.within x ?_
      rw [hnames, hon]
      exact ⟨g, hg, by rw [hmembers]; exact hx⟩
    · exact h.leftOn x ((hleft x).mpr ⟨hx, hall⟩)
    · rcases h.all g hg with hg' | hg'
      · rw [hnames, hon] at hg'
        obtain ⟨e, he, hge⟩ := hg'
        cases hmembers : (checkGroups registry).lookup e with
        | some members =>
            rw [hmembers] at hge
            exact Or.inl ⟨e, he, members, hmembers, hge⟩
        | none =>
            rw [hmembers] at hge
            obtain rfl : g = e := List.mem_singleton.mp hge
            rw [hmembers] at hgroup
            exact nomatch hgroup
      · exact Or.inr ((hleft g).mp hg')
  · rintro ⟨hreads, hclosed, hstray, hgroups⟩
    refine ⟨fun e he => ?_, fun x hx => ?_, fun x hx => ?_, fun x hx => ?_⟩
    · rw [hnames] at he
      unfold SpecWord
      rw [(hplain e he).readEntry]
      exact ⟨(hplain e he).1, hreads e he⟩
    · rw [hnames, hon] at hx
      obtain ⟨e, he, hxe⟩ := hx
      cases hmembers : (checkGroups registry).lookup e with
      | some members =>
          rw [hmembers] at hxe
          exact hclosed e he members hmembers x hxe
      | none =>
          rw [hmembers] at hxe
          exact List.mem_singleton.mp hxe ▸ he
    · obtain ⟨hx, hall⟩ := (hleft x).mp hx
      exact hstray x hx hall
    · rw [hnames, hon, hleft]
      cases hmembers : (checkGroups registry).lookup x with
      | none => exact Or.inl ⟨x, hx, by rw [hmembers]; exact List.mem_singleton_self x⟩
      | some members =>
          refine (hgroups x hx (by rw [hmembers]; rfl)).imp_left ?_
          rintro ⟨g, hg, members, hmembers, hxg⟩
          exact ⟨g, hg, by rw [hmembers]; exact hxg⟩

end Plain

end Vycor
