/-
Detecting, rewriting and stripping precompiled headers.

Detection looks for `pch` in the path of an include, the two adjusters look for it in the
argument that holds the flag.  For an include in one argument this is the same: the flag itself
has no `p` (`mentionsPch_iff`).  For a path in an argument of its own it is not, and the adjusters
pass over what detection has found.  And detection and rewriting take any `-Xarch_*` in front,
where stripping knows two of them.  The verdicts here leave open which of two things happens in
these cases: the include stays as it is, or it gives way like the others.
-/
import Vycor.Model.PchCache

namespace Vycor

open ArgScan

/-! ### Includes in one argument

The two ways to write an include of a header: the path joined to the flag, or in
the argument behind it.
-/

/-- The path of an include in one argument that mentions `pch`. -/
def joinedPath (arg : Str) : Option Str :=
  if startsWith arg (str "-include") && strContains (arg.drop 8) (str "pch")
      && !startsWith arg (str "-include-pch") then some (arg.drop 8) else none

/-- What begins with an element that is not in front lies behind. -/
theorem infix_append_iff {α : Type} {x : α} {l front back : List α} (h : x ∉ front) :
    (x :: l) <:+: front ++ back ↔ (x :: l) <:+: back := by
  induction front with
  | nil => rfl
  | cons y front ih =>
      have hne : x ≠ y := fun hxy => h (hxy ▸ List.mem_cons_self)
      rw [List.cons_append, List.infix_cons_iff, ih fun hx => h (List.mem_cons_of_mem _ hx)]
      simp [List.cons_prefix_cons, hne]

theorem length_of_contains {path : Str} (h : strContains path (str "pch") = true) :
    0 < path.length := by
  unfold strContains at h
  have hlen := (of_decide_eq_true h).length_le
  exact Nat.lt_of_lt_of_le (by decide) hlen

/-- The flag does not mention `pch`, so an argument that begins with it does so in its path. -/
theorem mentionsPch_iff (arg : Str) :
    mentionsPch arg = true
      ↔ startsWith arg (str "-include") = true ∧ strContains (arg.drop 8) (str "pch") = true := by
  unfold mentionsPch
  rw [Bool.and_eq_true_iff]
  refine and_congr_right fun hstart => ?_
  obtain ⟨path, rfl⟩ := List.isPrefixOf_iff_prefix.mp hstart
  have hdrop : (str "-include" ++ path).drop 8 = path := List.drop_left' (by decide)
  have hpch : str "pch" = 112 :: [99, 104] := by decide
  rw [hdrop, hpch]
  unfold strContains
  simp only [decide_eq_true_eq]
  exact infix_append_iff (by decide)

theorem mentionsPch_of_joined {arg path : Str} (h : joinedPath arg = some path) :
    mentionsPch arg = true ∧ startsWith arg (str "-include-pch") = false ∧ path = arg.drop 8 := by
  unfold joinedPath at h
  split at h
  · rename_i hcond
    simp only [Bool.and_eq_true, Bool.not_eq_true'] at hcond
    exact ⟨(mentionsPch_iff arg).mpr hcond.1, hcond.2, (Option.some.inj h).symm⟩
  · exact nomatch h

theorem not_bare_of_mentions {arg : Str} (h : mentionsPch arg = true) : arg ≠ str "-include" := by
  rintro rfl
  exact absurd h (by decide)

/-- Detection: the path is in the argument, or it is the next one. -/
theorem includedPch_eq (arg : Str) (rest : List Str) (skip : Nat) :
    includedPch arg rest skip
      = match joinedPath arg with
        | some path => some (path, skip)
        | none =>
          if arg = str "-include" then
            (rest.head?.filter (strContains · (str "pch"))).map fun path => (path, skip + 1)
          else none := by
  unfold includedPch joinedPath
  by_cases hcompiled : startsWith arg (str "-include-pch") = true
  · have hbare : arg ≠ str "-include" := by
      rintro rfl
      exact absurd hcompiled (by decide)
    simp [hcompiled, hbare]
  by_cases hstart : startsWith arg (str "-include") = true
  · by_cases hpch : strContains (arg.drop 8) (str "pch") = true
    · have hlong : 8 < arg.length := by
        have := length_of_contains hpch
        rw [List.length_drop] at this
        omega
      simp [hcompiled, hstart, hpch, hlong]
    · by_cases hlong : 8 < arg.length
      · have hbare : arg ≠ str "-include" := by
          rintro rfl
          exact absurd hlong (by decide)
        simp [hcompiled, hstart, hpch, hlong, hbare]
      · cases rest with
        | nil => simp [hcompiled, hstart, hpch, hlong]
        | cons path rest =>
            by_cases hpath : strContains path (str "pch") = true
            · simp [hcompiled, hstart, hpch, hlong, hpath, Option.filter_some]
            · simp [hcompiled, hstart, hpch, hlong, hpath, Option.filter_some]
  · have hbare : arg ≠ str "-include" := by
      rintro rfl
      exact hstart (by decide)
    simp [hcompiled, hstart, hbare]

/-- Rewriting: only the path in the argument counts. -/
theorem replaceInclude_eq (cache : PchCache) (arg : Str) (rest : List Str) (skip : Nat) :
    replaceInclude cache arg rest skip
      = (joinedPath arg).bind fun path =>
          if cache.getCompiledPch path = [] then none
          else some ([str "-include-pch", cache.getCompiledPch path], skip) := by
  unfold replaceInclude
  cases hjoined : joinedPath arg with
  | none =>
      have hnot : (startsWith arg (str "-include") && !startsWith arg (str "-include-pch")
          && strContains arg (str "pch")) = false := by
        by_contra hcond
        simp only [Bool.not_eq_false, Bool.and_eq_true, Bool.not_eq_true'] at hcond
        obtain ⟨⟨hstart, hcompiled⟩, hpch⟩ := hcond
        have hpath := ((mentionsPch_iff arg).mp (by simp [mentionsPch, hstart, hpch])).2
        simp [joinedPath, hstart, hcompiled, hpath] at hjoined
      simp [hnot]
  | some path =>
      obtain ⟨hmentions, hcompiled, rfl⟩ := mentionsPch_of_joined hjoined
      have hbare := not_bare_of_mentions hmentions
      have hlong : 8 < arg.length := by
        have := length_of_contains ((mentionsPch_iff arg).mp hmentions).2
        rw [List.length_drop] at this
        omega
      obtain ⟨hstart, hpch⟩ := Bool.and_eq_true_iff.mp hmentions
      by_cases hnone : cache.getCompiledPch (arg.drop 8) = []
      · simp [hstart, hcompiled, hpch, hlong, hnone]
      · simp [hstart, hcompiled, hpch, hlong, hnone, hbare]

/-! ### Forms of an include -/

theorem not_arch_of_include {arg : Str} (h : startsWith arg (str "-include") = true) :
    startsWith arg (str "-Xarch_") = false := by
  by_contra harch
  simp only [Bool.not_eq_false] at harch
  have hpre := List.prefix_of_prefix_length_le (List.isPrefixOf_iff_prefix.mp harch)
    (List.isPrefixOf_iff_prefix.mp h) (by decide)
  exact absurd hpre (by decide)

theorem not_arch_of_joined {arg path : Str} (h : joinedPath arg = some path) :
    startsWith arg (str "-Xarch_") = false :=
  not_arch_of_include (Bool.and_eq_true_iff.mp (mentionsPch_of_joined h).1).1

theorem not_bare_of_joined {arg path : Str} (h : joinedPath arg = some path) :
    arg ≠ str "-include" :=
  not_bare_of_mentions (mentionsPch_of_joined h).1

theorem joinedPath_of_arch {arch : Str} (h : startsWith arch (str "-Xarch_") = true) :
    joinedPath arch = none := by
  cases hjoined : joinedPath arch with
  | none => rfl
  | some path => exact absurd (not_arch_of_joined hjoined) (by simp [h])

theorem bare_ne_arch {arch : Str} (h : startsWith arch (str "-Xarch_") = true) :
    str "-include" ≠ arch := by
  rintro rfl
  exact absurd h (by decide)

/-- The forms in which detection finds an include. -/
inductive Form : List Str → Str → Nat → Prop
  | joined {arg path : Str} {rest : List Str} : joinedPath arg = some path →
      Form (arg :: rest) path 0
  | separate {path : Str} {rest : List Str} : strContains path (str "pch") = true →
      Form (str "-include" :: path :: rest) path 1
  | archJoined {arch arg path : Str} {rest : List Str} : startsWith arch (str "-Xarch_") = true →
      joinedPath arg = some path → Form (arch :: arg :: rest) path 1
  | archSeparate {arch path : Str} {rest : List Str} : startsWith arch (str "-Xarch_") = true →
      strContains path (str "pch") = true → Form (arch :: str "-include" :: path :: rest) path 2

theorem includedPch_forms {arg path : Str} {rest : List Str} {skip further : Nat}
    (h : includedPch arg rest skip = some (path, further)) :
    (joinedPath arg = some path ∧ further = skip) ∨
      (∃ rest', arg = str "-include" ∧ rest = path :: rest' ∧
        strContains path (str "pch") = true ∧ further = skip + 1) := by
  rw [includedPch_eq] at h
  cases hjoined : joinedPath arg with
  | some p =>
      rw [hjoined] at h
      obtain ⟨rfl, rfl⟩ := Prod.mk.inj (Option.some.inj h)
      exact Or.inl ⟨rfl, rfl⟩
  | none =>
      rw [hjoined] at h
      simp only at h
      split at h
      · rename_i hbare
        cases rest with
        | nil => exact nomatch h
        | cons p rest' =>
            rw [List.head?_cons, Option.filter_some] at h
            split at h
            · rename_i hpath
              obtain ⟨rfl, rfl⟩ := Prod.mk.inj (Option.some.inj h)
              exact Or.inr ⟨rest', hbare, rfl, hpath, rfl⟩
            · exact nomatch h
      · exact nomatch h

theorem form_of_recognised {args : List Str} {path : Str} {skip : Nat}
    (h : isPchSourceInclude args = some (path, skip)) : Form args path skip := by
  have hplain : ∀ {arg : Str} {rest : List Str}, includedPch arg rest 0 = some (path, skip) →
      Form (arg :: rest) path skip := by
    intro arg rest hfound
    rcases includedPch_forms hfound with ⟨hjoined, rfl⟩ | ⟨rest', rfl, rfl, hpath, rfl⟩
    · exact .joined hjoined
    · exact .separate hpath
  match args with
  | [] => exact nomatch h
  | [arg] => exact hplain h
  | arg :: next :: rest =>
      rw [isPchSourceInclude] at h
      split at h
      · rename_i harch
        rcases includedPch_forms h with ⟨hjoined, rfl⟩ | ⟨rest', rfl, rfl, hpath, rfl⟩
        · exact .archJoined harch hjoined
        · exact .archSeparate harch hpath
      · exact hplain h

/-- Where detection finds nothing, no include in one argument stands. -/
theorem not_joined_of_unrecognised {arg : Str} {rest : List Str}
    (h : isPchSourceInclude (arg :: rest) = none) :
    joinedPath arg = none ∧
      (startsWith arg (str "-Xarch_") = true → ∀ next, rest.head? = some next →
        joinedPath next = none) := by
  have hnone : ∀ {arg : Str} {rest : List Str} {skip : Nat}, includedPch arg rest skip = none →
      joinedPath arg = none := by
    intro arg rest skip hfound
    rw [includedPch_eq] at hfound
    cases hjoined : joinedPath arg with
    | none => rfl
    | some path =>
        rw [hjoined] at hfound
        exact nomatch hfound
  cases rest with
  | nil =>
      have hfound : includedPch arg [] 0 = none := h
      exact ⟨hnone hfound, fun _ next hnext => nomatch hnext⟩
  | cons next rest =>
      rw [isPchSourceInclude] at h
      split at h
      · rename_i harch
        refine ⟨joinedPath_of_arch harch, fun _ next' hnext => ?_⟩
        obtain rfl := Option.some.inj hnext
        exact hnone h
      · rename_i harch
        exact ⟨hnone h, fun harch' => absurd harch' harch⟩

/-! ### Paths in an argument of their own -/

/-- The include stays, or something else stands in its place.  With a path that begins like an
option it is also open what an adjuster takes the path for. -/
def StaysOr (include_ instead : List Str) (path : Str) (out : List Str) : Prop :=
  out = include_ ∨ out = instead ∨ startsWith path (str "-") = true

theorem dash_of_startsWith {flag arg : Str} (hflag : startsWith flag (str "-") = true)
    (h : startsWith arg flag = true) : startsWith arg (str "-") = true :=
  List.isPrefixOf_iff_prefix.mpr
    ((List.isPrefixOf_iff_prefix.mp hflag).trans (List.isPrefixOf_iff_prefix.mp h))

/-- What does not begin like an option mentions no include. -/
theorem not_mentions_of_path {path : Str} (h : ¬ startsWith path (str "-") = true) :
    ¬ mentionsPch path = true := by
  intro hpch
  exact h (dash_of_startsWith (by decide) (Bool.and_eq_true_iff.mp hpch).1)

theorem joinedPath_of_path {path : Str} (h : ¬ startsWith path (str "-") = true) :
    joinedPath path = none := by
  cases hjoined : joinedPath path with
  | none => rfl
  | some p => exact absurd (mentionsPch_of_joined hjoined).1 (not_mentions_of_path h)

/-! ### Rewriting -/

section Rewriting

variable (cache : PchCache)

/-- An include that detection finds and that has a cached header gives way to it; other
arguments stay.  Whether an include gives way whose path is an argument of its own is left
open. -/
def cacheVerdict : List Str → Verdict Str
  | [] => .drop 0
  | arg :: rest =>
    match isPchSourceInclude (arg :: rest) with
    | none => .keep arg
    | some (path, skip) =>
      if cache.getCompiledPch path = [] then .keep arg
      else if str "-include" ∈ (arg :: rest).take (skip + 1) then
        { allowed := StaysOr ((arg :: rest).take (skip + 1))
            [str "-include-pch", cache.getCompiledPch path] path
          further := skip }
      else .replace [str "-include-pch", cache.getCompiledPch path] skip

/-- The step: what stands in front of an include, and its path. -/
theorem pchCacheStep_none {arg : Str} {rest : List Str} (harg : joinedPath arg = none)
    (hnext : startsWith arg (str "-Xarch_") = true → ∀ next, rest.head? = some next →
      ∀ path, joinedPath next = some path → cache.getCompiledPch path = []) :
    pchCacheStep cache (arg :: rest) = none := by
  cases rest with
  | nil =>
      rw [pchCacheStep, replaceInclude_eq, harg]
      rfl
  | cons next rest =>
      rw [pchCacheStep, replaceInclude_eq, replaceInclude_eq, harg]
      split
      · rename_i harch
        cases hjoined : joinedPath next with
        | none => rfl
        | some path => simp [hnext harch next rfl path hjoined]
      · rfl

theorem pchCacheStep_joined {arg path : Str} (h : joinedPath arg = some path) (rest : List Str) :
    pchCacheStep cache (arg :: rest)
      = if cache.getCompiledPch path = [] then none
        else some ([str "-include-pch", cache.getCompiledPch path], 0) := by
  have harch := not_arch_of_joined h
  cases rest with
  | nil =>
      rw [pchCacheStep, replaceInclude_eq, h]
      rfl
  | cons next rest =>
      rw [pchCacheStep, replaceInclude_eq cache arg, h, harch]
      rfl

theorem pchCacheStep_arch {arch arg path : Str} (harch : startsWith arch (str "-Xarch_") = true)
    (h : joinedPath arg = some path) (hcached : cache.getCompiledPch path ≠ []) (rest : List Str) :
    pchCacheStep cache (arch :: arg :: rest)
      = some ([str "-include-pch", cache.getCompiledPch path], 1) := by
  rw [pchCacheStep, replaceInclude_eq, h, if_pos harch]
  simp [hcached]

/-- At any argument the rewriting goes on behind it.  An `-Xarch_*` gives way together with the
include behind it, but that include gives way by itself as well. -/
theorem cache_past (arg : Str) (rest : List Str) :
    ∃ seg, scan (pchCacheStep cache) 0 (arg :: rest)
      = seg ++ scan (pchCacheStep cache) 0 rest := by
  cases hjoined : joinedPath arg with
  | some path =>
      have hstep := pchCacheStep_joined cache hjoined rest
      split at hstep
      · exact ⟨[arg], scan_keep hstep⟩
      · exact ⟨_, scan_replace hstep⟩
  | none =>
      by_cases hpair : ∃ next rest' path, rest = next :: rest' ∧ joinedPath next = some path ∧
          cache.getCompiledPch path ≠ [] ∧ startsWith arg (str "-Xarch_") = true
      · obtain ⟨next, rest', path, rfl, hnext, hcached, harch⟩ := hpair
        have hstep := pchCacheStep_joined cache hnext rest'
        rw [if_neg hcached] at hstep
        refine ⟨[], ?_⟩
        rw [scan_replace (pchCacheStep_arch cache harch hnext hcached rest'), scan_replace hstep]
        rfl
      · refine ⟨[arg], scan_keep (pchCacheStep_none cache hjoined ?_)⟩
        intro harch next hnext path hpath
        by_contra hcached
        obtain ⟨rest', rfl⟩ := List.head?_eq_some_iff.mp hnext
        exact hpair ⟨next, rest', path, rfl, hpath, hcached, harch⟩

theorem cache_past_two (arg next : Str) (rest : List Str) :
    ∃ seg, scan (pchCacheStep cache) 0 (arg :: next :: rest)
      = seg ++ scan (pchCacheStep cache) 0 rest := by
  obtain ⟨front, hfront⟩ := cache_past cache arg (next :: rest)
  obtain ⟨seg, hseg⟩ := cache_past cache next rest
  exact ⟨front ++ seg, by rw [hfront, hseg, List.append_assoc]⟩

/-- The bare flag stays, and so does a path behind it. -/
theorem cache_keeps_bare {path : Str} (hpath : ¬ startsWith path (str "-") = true)
    (rest : List Str) :
    scan (pchCacheStep cache) 0 (str "-include" :: path :: rest)
      = [str "-include", path] ++ scan (pchCacheStep cache) 0 rest := by
  have hbare : pchCacheStep cache (str "-include" :: path :: rest) = none :=
    pchCacheStep_none cache (by decide) fun harch => absurd harch (by decide)
  have hkeep : pchCacheStep cache (path :: rest) = none :=
    pchCacheStep_none cache (joinedPath_of_path hpath) fun harch =>
      absurd (dash_of_startsWith (by decide) harch) hpath
  rw [scan_keep hbare, scan_keep hkeep]
  rfl

/-- What detection does not find, or has no cached header, the rewriting leaves. -/
theorem pchCacheStep_keep {arg : Str} {rest : List Str}
    (h : ∀ path skip, isPchSourceInclude (arg :: rest) = some (path, skip) →
      cache.getCompiledPch path = []) : pchCacheStep cache (arg :: rest) = none := by
  cases hfound : isPchSourceInclude (arg :: rest) with
  | none =>
      obtain ⟨harg, hnext⟩ := not_joined_of_unrecognised hfound
      refine pchCacheStep_none cache harg fun harch next hhead path hpath => ?_
      rw [hnext harch next hhead] at hpath
      exact nomatch hpath
  | some r =>
      obtain ⟨path, skip⟩ := r
      have hnot := h path skip hfound
      cases form_of_recognised hfound with
      | joined hjoined => rw [pchCacheStep_joined cache hjoined, if_pos hnot]
      | separate hpath =>
          exact pchCacheStep_none cache (by decide) fun harch => absurd harch (by decide)
      | archJoined harch hjoined =>
          refine pchCacheStep_none cache (joinedPath_of_arch harch) fun _ next hhead path' hpath => ?_
          obtain rfl := Option.some.inj hhead
          rw [hjoined] at hpath
          rwa [← Option.some.inj hpath]
      | archSeparate harch hpath =>
          refine pchCacheStep_none cache (joinedPath_of_arch harch) fun _ next hhead path' hpath => ?_
          obtain rfl := Option.some.inj hhead
          exact absurd rfl (not_bare_of_joined hpath)

theorem cache_obeys (args : List Str) :
    Obeys (cacheVerdict cache) args (getPchCacheAdjuster cache args) := by
  refine obeys_scan (fun arg rest => ?_) args
  simp only [cacheVerdict]
  cases hfound : isPchSourceInclude (arg :: rest) with
  | none =>
      simp only
      refine ⟨[arg], rfl, scan_keep (pchCacheStep_keep cache fun path skip hpath => ?_)⟩
      rw [hfound] at hpath
      exact nomatch hpath
  | some r =>
      obtain ⟨path, skip⟩ := r
      simp only
      by_cases hnot : cache.getCompiledPch path = []
      · rw [if_pos hnot]
        refine ⟨[arg], rfl, scan_keep (pchCacheStep_keep cache fun path' skip' hpath => ?_)⟩
        rw [hfound] at hpath
        obtain ⟨rfl, rfl⟩ := Prod.mk.inj (Option.some.inj hpath)
        exact hnot
      rw [if_neg hnot]
      cases form_of_recognised hfound with
      | joined hjoined =>
          have hstep := pchCacheStep_joined cache hjoined rest
          rw [if_neg hnot] at hstep
          rw [if_neg (by simpa using Ne.symm (not_bare_of_joined hjoined))]
          exact ⟨_, rfl, scan_replace hstep⟩
      | @separate _ rest _ =>
          rw [if_pos (by simp)]
          by_cases hdash : startsWith path (str "-") = true
          · obtain ⟨seg, hseg⟩ := cache_past_two cache (str "-include") path rest
            exact ⟨seg, Or.inr (Or.inr hdash), hseg⟩
          · exact ⟨_, Or.inl rfl, cache_keeps_bare cache hdash rest⟩
      | @archJoined _ next _ rest harch hjoined =>
          have hstep := pchCacheStep_arch cache harch hjoined hnot rest
          rw [if_neg (by simpa using ⟨bare_ne_arch harch, Ne.symm (not_bare_of_joined hjoined)⟩)]
          exact ⟨_, rfl, scan_replace hstep⟩
      | @archSeparate _ _ rest harch _ =>
          rw [if_pos (by simp)]
          by_cases hdash : startsWith path (str "-") = true
          · obtain ⟨front, hfront⟩ := cache_past cache arg (str "-include" :: path :: rest)
            obtain ⟨seg, hseg⟩ := cache_past_two cache (str "-include") path rest
            exact ⟨front ++ seg, Or.inr (Or.inr hdash),
              by rw [hfront, hseg, List.append_assoc]; rfl⟩
          · have harg : pchCacheStep cache (arg :: str "-include" :: path :: rest) = none := by
              refine pchCacheStep_none cache (joinedPath_of_arch harch) fun _ next hhead p hp => ?_
              obtain rfl := Option.some.inj hhead
              exact absurd rfl (not_bare_of_joined hp)
            refine ⟨_, Or.inl rfl, ?_⟩
            rw [scan_keep harg, cache_keeps_bare cache hdash rest]
            rfl

end Rewriting

/-! ### Stripping -/

/-- The prefixes that stripping knows. -/
def knownArchs : List Str := [str "-Xarch_arm64", str "-Xarch_x86_64"]

/-- An include that detection finds goes.  Besides, what a differently built compiler does not
take goes, some of it with the next argument, and every other `-include…` that mentions `pch`.
Whether an include goes whose path is an argument of its own is left open, and whether a prefix
that stripping does not know goes with its include. -/
def stripVerdict : List Str → Verdict Str
  | [] => .drop 0
  | arg :: rest =>
    match isPchSourceInclude (arg :: rest) with
    | some (path, skip) =>
      if str "-include" ∈ (arg :: rest).take (skip + 1) then
        { allowed := StaysOr ((arg :: rest).take (skip + 1)) [] path
          further := if path = str "-include-pch" then skip + 1 else skip }
      else if startsWith arg (str "-Xarch_") && arg ∉ knownArchs then
        { allowed := fun out => out.Sublist [arg], further := skip }
      else .drop skip
    | none =>
      if arg ∈ stripFlags then .drop 0
      else if arg ∈ str "-include-pch" :: stripWithNext then .drop 1
      else if arg ∈ knownArchs && rest.head?.any mentionsPch then .drop 1
      else if mentionsPch arg then .drop 0
      else .keep arg

/-- The step, with what goes alone and what goes with the next argument put together. -/
theorem stripStep_eq (arg : Str) (rest : List Str) :
    stripStep true (arg :: rest)
      = if arg ∈ stripFlags then some ([], 0)
        else if arg ∈ str "-include-pch" :: stripWithNext then some ([], 1)
        else if arg ∈ knownArchs && rest.head?.any mentionsPch then some ([], 1)
        else if mentionsPch arg then some ([], 0)
        else none := by
  have hknown : (arg ∈ knownArchs) ↔ (arg = str "-Xarch_arm64" ∨ arg = str "-Xarch_x86_64") := by
    simp [knownArchs]
  have hbare : mentionsPch arg = true → arg ≠ str "-include" := not_bare_of_mentions
  unfold stripStep
  by_cases hflag : arg ∈ stripFlags
  · simp [hflag]
  by_cases hnext : arg ∈ stripWithNext
  · simp [hflag, hnext]
  by_cases hcompiled : arg = str "-include-pch"
  · simp [hcompiled]
  by_cases hpch : mentionsPch arg = true
  · simp [hflag, hnext, hcompiled, hknown, hpch, hbare hpch]
  · simp [hflag, hnext, hcompiled, hknown, hpch]

theorem not_mem_of_all {p : Str → Bool} {flags : List Str} (hall : ∀ flag ∈ flags, p flag = false)
    {arg : Str} (harg : p arg = true) : arg ∉ flags := by
  intro hmem
  rw [hall arg hmem] at harg
  exact Bool.false_ne_true harg

/-- The step at what is on none of the lists. -/
theorem stripStep_unlisted {arg : Str} (h : arg ∉ stripFlags ++ stripWithNext ++ knownArchs)
    (rest : List Str) :
    stripStep true (arg :: rest)
      = if arg = str "-include-pch" then some ([], 1)
        else if mentionsPch arg then some ([], 0) else none := by
  simp only [List.mem_append, not_or] at h
  rw [stripStep_eq]
  simp [h]

theorem stripStep_mentions {arg : Str} (hpch : mentionsPch arg = true)
    (hcompiled : arg ≠ str "-include-pch") (rest : List Str) :
    stripStep true (arg :: rest) = some ([], 0) := by
  have hothers : ∀ flag ∈ stripFlags ++ stripWithNext ++ knownArchs, mentionsPch flag = false := by
    decide
  rw [stripStep_unlisted (not_mem_of_all hothers hpch), if_neg hcompiled, if_pos hpch]

theorem stripStep_arch {arch : Str} (harch : startsWith arch (str "-Xarch_") = true)
    (rest : List Str) :
    stripStep true (arch :: rest)
      = if arch ∈ knownArchs && rest.head?.any mentionsPch then some ([], 1) else none := by
  have hothers : ∀ flag ∈ str "-include-pch" :: (stripFlags ++ stripWithNext),
      startsWith flag (str "-Xarch_") = false := by decide
  have hmem := not_mem_of_all (p := (startsWith · (str "-Xarch_"))) hothers harch
  have hpch : mentionsPch arch = false := by
    by_contra hpch
    have hstart := ((mentionsPch_iff arch).mp (by simpa using hpch)).1
    exact absurd harch (by simp [not_arch_of_include hstart])
  simp only [List.mem_cons, List.mem_append, not_or] at hmem
  rw [stripStep_eq]
  simp [hmem, hpch]

theorem stripStep_bare (rest : List Str) : stripStep true (str "-include" :: rest) = none := by
  have hunlisted : str "-include" ∉ stripFlags ++ stripWithNext ++ knownArchs := by decide
  have hpch : ¬ mentionsPch (str "-include") = true := by decide
  rw [stripStep_unlisted hunlisted, if_neg (by decide), if_neg hpch]

/-- Behind a path that mentions `pch` stripping goes on, unless the path is itself the flag that
takes the compiled header. -/
theorem strip_past {path : Str} (hpath : strContains path (str "pch") = true)
    (hcompiled : path ≠ str "-include-pch") (rest : List Str) :
    ∃ seg, scan (stripStep true) 0 (path :: rest) = seg ++ scan (stripStep true) 0 rest := by
  have hothers : ∀ flag ∈ stripFlags ++ stripWithNext ++ knownArchs,
      strContains flag (str "pch") = false := by decide
  have hunlisted := not_mem_of_all (p := (strContains · (str "pch"))) hothers hpath
  by_cases hpch : mentionsPch path = true
  · exact ⟨[], scan_replace (stripStep_mentions hpch hcompiled rest)⟩
  · refine ⟨[path], scan_keep ?_⟩
    rw [stripStep_unlisted hunlisted, if_neg hcompiled, if_neg hpch]

/-- The bare flag stays, and stripping goes on behind its path. -/
theorem strip_past_bare {path : Str} (hpath : strContains path (str "pch") = true)
    (rest : List Str) :
    ∃ seg, scan (stripStep true) 0 (str "-include" :: path :: rest)
      = seg ++ scan (stripStep true) 0
          (rest.drop (if path = str "-include-pch" then 1 else 0)) := by
  rw [scan_keep (stripStep_bare _)]
  by_cases hcompiled : path = str "-include-pch"
  · have hstep : stripStep true (path :: rest) = some ([], 1) := by
      rw [hcompiled, stripStep_unlisted (by decide), if_pos rfl]
    rw [if_pos hcompiled, scan_replace hstep]
    exact ⟨[str "-include"], rfl⟩
  · obtain ⟨seg, hseg⟩ := strip_past hpath hcompiled rest
    rw [if_neg hcompiled, hseg]
    exact ⟨str "-include" :: seg, rfl⟩

theorem not_compiled_of_path {path : Str} (hpath : ¬ startsWith path (str "-") = true) :
    path ≠ str "-include-pch" := by
  rintro rfl
  exact hpath (by decide)

/-- The bare flag stays, and so does a path behind it. -/
theorem strip_keeps_bare {path : Str} (hpath : ¬ startsWith path (str "-") = true)
    (rest : List Str) :
    scan (stripStep true) 0 (str "-include" :: path :: rest)
      = [str "-include", path] ++ scan (stripStep true) 0 rest := by
  have hflags : ∀ flag ∈ stripFlags ++ stripWithNext ++ knownArchs,
      (!startsWith flag (str "-")) = false := by decide
  have hunlisted : path ∉ stripFlags ++ stripWithNext ++ knownArchs :=
    not_mem_of_all (p := fun flag => !startsWith flag (str "-")) hflags (by simpa using hpath)
  have hkeep : stripStep true (path :: rest) = none := by
    rw [stripStep_unlisted hunlisted, if_neg (not_compiled_of_path hpath),
      if_neg (not_mentions_of_path hpath)]
  rw [scan_keep (stripStep_bare _), scan_keep hkeep]
  rfl

theorem strip_obeys (args : List Str) :
    Obeys stripVerdict args (getStripIncompatibleFlagsAdjuster true args) := by
  refine obeys_scan (fun arg rest => ?_) args
  simp only [stripVerdict]
  cases hfound : isPchSourceInclude (arg :: rest) with
  | none =>
      simp only
      have hstep := stripStep_eq arg rest
      split_ifs at hstep ⊢
      · exact ⟨[], rfl, scan_replace hstep⟩
      · exact ⟨[], rfl, scan_replace hstep⟩
      · exact ⟨[], rfl, scan_replace hstep⟩
      · exact ⟨[], rfl, scan_replace hstep⟩
      · exact ⟨[arg], rfl, scan_keep hstep⟩
  | some r =>
      obtain ⟨path, skip⟩ := r
      simp only
      cases form_of_recognised hfound with
      | joined hjoined =>
          obtain ⟨hpch, hcompiled, -⟩ := mentionsPch_of_joined hjoined
          have hne : arg ≠ str "-include-pch" := by
            rintro rfl
            exact absurd hcompiled (by decide)
          rw [if_neg (by simpa using Ne.symm (not_bare_of_joined hjoined)),
            if_neg (by simp [not_arch_of_joined hjoined])]
          exact ⟨[], rfl, scan_replace (stripStep_mentions hpch hne rest)⟩
      | @separate _ rest hpath =>
          rw [if_pos (by simp)]
          by_cases hdash : startsWith path (str "-") = true
          · obtain ⟨seg, hseg⟩ := strip_past_bare hpath rest
            refine ⟨seg, Or.inr (Or.inr hdash), hseg.trans ?_⟩
            split <;> rfl
          · refine ⟨_, Or.inl rfl, (strip_keeps_bare hdash rest).trans ?_⟩
            rw [if_neg (not_compiled_of_path hdash)]
            rfl
      | @archJoined _ next _ rest harch hjoined =>
          obtain ⟨hpch, hcompiled, -⟩ := mentionsPch_of_joined hjoined
          have hne : next ≠ str "-include-pch" := by
            rintro rfl
            exact absurd hcompiled (by decide)
          rw [if_neg (by simpa using ⟨bare_ne_arch harch, Ne.symm (not_bare_of_joined hjoined)⟩)]
          have hstep := stripStep_arch harch (next :: rest)
          by_cases hknown : arg ∈ knownArchs
          · rw [if_pos (by simp [hknown, hpch])] at hstep
            rw [if_neg (by simp [hknown])]
            exact ⟨[], rfl, scan_replace hstep⟩
          · rw [if_neg (by simp [hknown])] at hstep
            rw [if_pos (by simp [hknown, harch])]
            refine ⟨[arg], List.Sublist.refl _, ?_⟩
            rw [scan_keep hstep, scan_replace (stripStep_mentions hpch hne rest)]
            rfl
      | @archSeparate _ _ rest harch hpath =>
          rw [if_pos (by simp)]
          have hstep := stripStep_arch harch (str "-include" :: path :: rest)
          have hbare : mentionsPch (str "-include") = false := by decide
          rw [if_neg (by simp [hbare])] at hstep
          by_cases hdash : startsWith path (str "-") = true
          · obtain ⟨seg, hseg⟩ := strip_past_bare hpath rest
            refine ⟨arg :: seg, Or.inr (Or.inr hdash), ?_⟩
            rw [scan_keep hstep, hseg]
            split <;> rfl
          · refine ⟨_, Or.inl rfl, ?_⟩
            rw [scan_keep hstep, strip_keeps_bare hdash rest,
              if_neg (not_compiled_of_path hdash)]
            rfl

/-- **The adjusters obey their verdicts**: of the includes that detection finds, those with a
cached header give way to it, and stripping takes out all of them; every other argument stays
in its place, but for what stripping takes out besides. -/
theorem pch_adjusters_obey (cache : PchCache) (args : List Str) :
    Obeys (cacheVerdict cache) args (getPchCacheAdjuster cache args) ∧
      Obeys stripVerdict args (getStripIncompatibleFlagsAdjuster true args) :=
  ⟨cache_obeys cache args, strip_obeys args⟩

/-! ### Detection as the only rule -/

/-- Take out every include that detection finds and that has no cached header. -/
def dropDetected (cache : PchCache) (args : List Str) : Option (List Str × Nat) :=
  (isPchSourceInclude args).bind fun (path, skip) =>
    if cache.getCompiledPch path = [] then some ([], skip) else none

/-- **Detection is not the rule of stripping**: besides the include goes what another compiler
does not take. -/
theorem adjusters_ne_detection :
    getStripIncompatibleFlagsAdjuster true
        [str "-gmodules", str "-include/x/pch.h", str "-Werror", str "-O2"]
      ≠ scan (dropDetected {}) 0
          [str "-gmodules", str "-include/x/pch.h", str "-Werror", str "-O2"] := by
  have hstripped : getStripIncompatibleFlagsAdjuster true
      [str "-gmodules", str "-include/x/pch.h", str "-Werror", str "-O2"] = [str "-O2"] := by
    decide +kernel
  have hdetected : scan (dropDetected {}) 0
      [str "-gmodules", str "-include/x/pch.h", str "-Werror", str "-O2"]
        = [str "-gmodules", str "-Werror", str "-O2"] := by
    decide +kernel
  rw [hstripped, hdetected]
  decide

end Vycor
