/-
When a call is reported.

The scores of an overload come down to a set: the positions where its parameter is, but for the
spelling, the type of the argument.  An overload in a header that is not included is reported
when it is viable and its set is not inside that of the overload that the call resolves to: as a
fallback if it holds all of it, as an ambiguity if not.  With the same set it is reported on
demand, and with less it never is.
-/
import Vycor.Proofs.Conversions

namespace Vycor

/-! ### Scores by position -/

/-- The score at a position. -/
def scoreAt (index : GlobalIndex) (modelConvertibility : Bool) (args resolved candidate : List Str)
    (i : Nat) : Nat :=
  scoreParamMatch index modelConvertibility (args.getD i []) (candidate.getD i [])
    (resolved.getD i [])

section Scores

variable {index : GlobalIndex} {modelConvertibility : Bool}

theorem scorePositions_eq (args : List Str) :
    ∀ (resolved candidate : List Str) (out : List Nat), resolved.length = args.length →
      candidate.length = args.length →
      scorePositions index modelConvertibility args resolved candidate out
        = if ∀ i < args.length, scoreAt index modelConvertibility args resolved candidate i ≠ 0
          then out ++ (List.range args.length).map
            (scoreAt index modelConvertibility args resolved candidate)
          else [] := by
  induction args with
  | nil =>
      intro resolved candidate out _ _
      simp [scorePositions]
  | cons arg args ih =>
      intro resolved candidate out hres hcand
      obtain ⟨res, resolved, rfl⟩ := List.exists_cons_of_length_eq_add_one hres
      obtain ⟨cand, candidate, rfl⟩ := List.exists_cons_of_length_eq_add_one hcand
      have hhead : scoreAt index modelConvertibility (arg :: args) (res :: resolved)
          (cand :: candidate) 0 = scoreParamMatch index modelConvertibility arg cand res := rfl
      have htail : ∀ i, scoreAt index modelConvertibility (arg :: args) (res :: resolved)
          (cand :: candidate) (i + 1)
            = scoreAt index modelConvertibility args resolved candidate i := fun _ => rfl
      have hall : (∀ i < (arg :: args).length, scoreAt index modelConvertibility (arg :: args)
            (res :: resolved) (cand :: candidate) i ≠ 0) ↔
          scoreParamMatch index modelConvertibility arg cand res ≠ 0 ∧
            ∀ i < args.length, scoreAt index modelConvertibility args resolved candidate i ≠ 0 := by
        constructor
        · exact fun h => ⟨h 0 (Nat.succ_pos _), fun i hi => h (i + 1) (Nat.succ_lt_succ hi)⟩
        · rintro ⟨hzero, hrest⟩ i hi
          cases i with
          | zero => exact hzero
          | succ i => exact hrest i (Nat.lt_of_succ_lt_succ hi)
      unfold scorePositions
      dsimp only
      by_cases hzero : scoreParamMatch index modelConvertibility arg cand res = 0
      · rw [if_pos hzero, if_neg fun h => (hall.mp h).1 hzero]
      · rw [if_neg hzero, ih _ _ _ (Nat.succ.inj hres) (Nat.succ.inj hcand)]
        refine if_congr ((and_iff_right hzero).symm.trans hall.symm) ?_ rfl
        rw [List.append_assoc, List.length_cons, List.range_succ_eq_map, List.map_cons,
          List.map_map]
        rfl

theorem scoreOverload_eq {args resolved candidate : List Str}
    (hres : resolved.length = args.length) (hcand : candidate.length = args.length) :
    scoreOverload index modelConvertibility args resolved candidate
      = if ∀ i < args.length, scoreAt index modelConvertibility args resolved candidate i ≠ 0
        then (List.range args.length).map
          (scoreAt index modelConvertibility args resolved candidate)
        else [] := by
  unfold scoreOverload
  rw [if_neg (by simp [hres, hcand]), scorePositions_eq _ _ _ _ hres hcand]
  rfl

/-- Who is better is asked of all positions. -/
theorem compareScores_eq (resolved candidate : List Nat) :
    compareScores resolved candidate
      = ((resolved.zip candidate).any fun s => s.1 < s.2,
        (resolved.zip candidate).any fun s => s.2 < s.1) := by
  have hrun : ∀ (l : List (Nat × Nat)) (better : Bool × Bool),
      l.foldl (fun better s =>
          if s.2 > s.1 then (true, better.2) else if s.1 > s.2 then (better.1, true) else better)
          better
        = (better.1 || l.any fun s => s.1 < s.2, better.2 || l.any fun s => s.2 < s.1) := by
    intro l
    induction l with
    | nil => simp
    | cons s rest ih =>
        intro better
        rw [List.foldl_cons, ih]
        rcases Nat.lt_trichotomy s.1 s.2 with hlt | heq | hgt
        · rw [if_pos hlt]
          simp [hlt, Nat.not_lt.mpr hlt.le]
        · rw [if_neg (by omega), if_neg (by omega)]
          simp [heq]
        · rw [if_neg (by omega), if_pos hgt]
          simp [hgt, Nat.not_lt.mpr hgt.le]
  exact (hrun _ _).trans (by simp)

end Scores

/-! ### Exact positions

A viable overload scores 1 or 2 at every position. So comparing scores is
comparing the sets of positions where a parameter has just the type of the
argument.
-/

/-- The positions where a parameter has the type of the argument. -/
def ExactAt (args params : List Str) : Set Nat :=
  {i | i < args.length ∧ params.getD i [] = args.getD i []}

/-- What may stand for the parameter `res` that an argument was passed to. -/
def Accepts (calls : List IndexCall) (modelConvertibility : Bool) (arg cand res : Str) : Prop :=
  cand = arg ∨ cand = res ∨ (cand ∈ arithmeticTypeNames ∧ arg ∈ arithmeticTypeNames) ∨
    (modelConvertibility = true ∧ Converts calls arg cand)

section Positions

variable (h : IndexHistory) (modelConvertibility : Bool) (args resolved candidate : List Str)

theorem scoreParamMatch_cases (arg cand res : Str) :
    (cand = arg ∧ scoreParamMatch h.index modelConvertibility arg cand res = 2) ∨
    (cand ≠ arg ∧ Accepts h.calls modelConvertibility arg cand res ∧
      scoreParamMatch h.index modelConvertibility arg cand res = 1) ∨
    (¬ Accepts h.calls modelConvertibility arg cand res ∧
      scoreParamMatch h.index modelConvertibility arg cand res = 0) := by
  unfold scoreParamMatch Accepts
  by_cases hsame : cand = arg
  · exact Or.inl ⟨hsame, if_pos hsame⟩
  rw [if_neg hsame]
  by_cases hres : cand = res
  · exact Or.inr (Or.inl ⟨hsame, Or.inr (Or.inl hres), if_pos hres⟩)
  rw [if_neg hres]
  by_cases harith : cand ∈ arithmeticTypeNames ∧ arg ∈ arithmeticTypeNames
  · refine Or.inr (Or.inl ⟨hsame, Or.inr (Or.inr (Or.inl harith)), if_pos ?_⟩)
    simp [isArithmeticTypeName, harith.1, harith.2]
  rw [if_neg (by simpa [isArithmeticTypeName] using harith)]
  have hconverts : (modelConvertibility && h.index.types.isConvertible arg cand) = true ↔
      modelConvertibility = true ∧ Converts h.calls arg cand := by
    rw [Bool.and_eq_true, h.isConvertible_iff]
  by_cases hconv : modelConvertibility = true ∧ Converts h.calls arg cand
  · exact Or.inr (Or.inl ⟨hsame, Or.inr (Or.inr (Or.inr hconv)), if_pos (hconverts.mpr hconv)⟩)
  · refine Or.inr (Or.inr ⟨?_, if_neg fun hc => hconv (hconverts.mp hc)⟩)
    rintro (hc | hc | hc | hc)
    · exact hsame hc
    · exact hres hc
    · exact harith hc
    · exact hconv hc

/-- Every argument could be passed. -/
def Viable (calls : List IndexCall) (modelConvertibility : Bool)
    (args resolved candidate : List Str) : Prop :=
  ∀ i < args.length, Accepts calls modelConvertibility (args.getD i []) (candidate.getD i [])
    (resolved.getD i [])

theorem scoreAt_ne_zero (i : Nat) :
    scoreAt h.index modelConvertibility args resolved candidate i ≠ 0 ↔
      Accepts h.calls modelConvertibility (args.getD i []) (candidate.getD i [])
        (resolved.getD i []) := by
  unfold scoreAt
  rcases scoreParamMatch_cases h modelConvertibility (args.getD i []) (candidate.getD i [])
      (resolved.getD i []) with ⟨hsame, hs⟩ | ⟨-, hacc, hs⟩ | ⟨hacc, hs⟩
  · exact iff_of_true (by rw [hs]; decide) (Or.inl hsame)
  · exact iff_of_true (by rw [hs]; decide) hacc
  · exact iff_of_false (by rw [hs]; decide) hacc

theorem viable_resolved : Viable h.calls modelConvertibility args resolved resolved :=
  fun _ _ => Or.inr (Or.inl rfl)

/-- Of two viable overloads one is better where it alone is exact. -/
theorem scoreAt_lt {candidate' : List Str} {i : Nat} (hi : i < args.length)
    (hviable : Viable h.calls modelConvertibility args resolved candidate)
    (hviable' : Viable h.calls modelConvertibility args resolved candidate') :
    scoreAt h.index modelConvertibility args resolved candidate i
        < scoreAt h.index modelConvertibility args resolved candidate' i ↔
      i ∈ ExactAt args candidate' ∧ i ∉ ExactAt args candidate := by
  have hone : ∀ {cand : List Str}, Viable h.calls modelConvertibility args resolved cand →
      (i ∈ ExactAt args cand ∧ scoreAt h.index modelConvertibility args resolved cand i = 2) ∨
      (i ∉ ExactAt args cand ∧ scoreAt h.index modelConvertibility args resolved cand i = 1) := by
    intro cand hcand
    rcases scoreParamMatch_cases h modelConvertibility (args.getD i []) (cand.getD i [])
        (resolved.getD i []) with ⟨hsame, hs⟩ | ⟨hne, -, hs⟩ | ⟨hacc, -⟩
    · exact Or.inl ⟨⟨hi, hsame⟩, hs⟩
    · exact Or.inr ⟨fun hc => hne hc.2, hs⟩
    · exact absurd (hcand i hi) hacc
  rcases hone hviable with ⟨hin, hs⟩ | ⟨hin, hs⟩ <;>
    rcases hone hviable' with ⟨hin', hs'⟩ | ⟨hin', hs'⟩ <;>
      simp [hin, hin', hs, hs']

end Positions

/-! ### One overload -/

/-- The exact positions of an overload at a call. -/
def exactIn (node : CallNode) (params : List Str) : Set Nat :=
  ExactAt (normalizeAll node.argTypes) (normalizeAll params)

/-- Another overload, which the call cannot see and which could take its arguments. -/
structure Rival (calls : List IndexCall) (opts : AnalysisOptions) (includedFiles : List Str)
    (node : CallNode) (callee : DirectCallee) (entry : FunctionOverloadEntry) : Prop where
  other : entry.paramTypes ≠ callee.paramTypes
  invisible : entry.headerPath ∉ includedFiles
  arity : entry.paramTypes.length = node.argTypes.length
  viable : Viable calls opts.modelConvertibility (normalizeAll node.argTypes)
    (normalizeAll callee.paramTypes) (normalizeAll entry.paramTypes)

/-- What there is to say of a rival. -/
inductive Says (calls : List IndexCall) (opts : AnalysisOptions) (includedFiles : List Str)
    (node : CallNode) (callee : DirectCallee) (entry : FunctionOverloadEntry) : Diagnostic → Prop
  | fallback : Rival calls opts includedFiles node callee entry →
      exactIn node callee.paramTypes ⊆ exactIn node entry.paramTypes →
      ¬ exactIn node entry.paramTypes ⊆ exactIn node callee.paramTypes →
      Says calls opts includedFiles node callee entry
        (adlFallback node.location (buildSig callee.qualifiedName callee.paramTypes)
          (buildSig entry.qualifiedName entry.paramTypes) entry.headerPath)
  | ambiguity : Rival calls opts includedFiles node callee entry →
      ¬ exactIn node entry.paramTypes ⊆ exactIn node callee.paramTypes →
      ¬ exactIn node callee.paramTypes ⊆ exactIn node entry.paramTypes →
      Says calls opts includedFiles node callee entry
        (adlAmbiguity node.location (buildSig callee.qualifiedName callee.paramTypes)
          (buildSig entry.qualifiedName entry.paramTypes) entry.headerPath)
  | sameScore : Rival calls opts includedFiles node callee entry → opts.warnSameScore = true →
      exactIn node entry.paramTypes = exactIn node callee.paramTypes →
      Says calls opts includedFiles node callee entry
        (adlSameScore node.location (buildSig callee.qualifiedName callee.paramTypes)
          (buildSig entry.qualifiedName entry.paramTypes) entry.headerPath)

theorem length_normalizeAll (raw : List Str) : (normalizeAll raw).length = raw.length :=
  List.length_map ..

section Compared

variable (h : IndexHistory) {modelConvertibility : Bool} {args resolved candidate : List Str}

theorem scoreOverload_of_viable (hres : resolved.length = args.length)
    (hcand : candidate.length = args.length)
    (hviable : Viable h.calls modelConvertibility args resolved candidate) :
    scoreOverload h.index modelConvertibility args resolved candidate
      = (List.range args.length).map
        (scoreAt h.index modelConvertibility args resolved candidate) := by
  rw [scoreOverload_eq hres hcand]
  exact if_pos fun i hi => (scoreAt_ne_zero h _ _ _ _ i).mpr (hviable i hi)

theorem scoreOverload_of_not_viable (hres : resolved.length = args.length)
    (hcand : candidate.length = args.length)
    (hviable : ¬ Viable h.calls modelConvertibility args resolved candidate) :
    scoreOverload h.index modelConvertibility args resolved candidate = [] := by
  rw [scoreOverload_eq hres hcand]
  exact if_neg fun hall => hviable fun i hi => (scoreAt_ne_zero h _ _ _ _ i).mp (hall i hi)

/-- Some position has one overload before the other where one set is not inside the other. -/
theorem any_scoreAt_lt {candidate' : List Str}
    (hviable : Viable h.calls modelConvertibility args resolved candidate)
    (hviable' : Viable h.calls modelConvertibility args resolved candidate') :
    ((List.range args.length).any fun i =>
        scoreAt h.index modelConvertibility args resolved candidate i
          < scoreAt h.index modelConvertibility args resolved candidate' i) = true ↔
      ¬ ExactAt args candidate' ⊆ ExactAt args candidate := by
  rw [List.any_eq_true, Set.not_subset]
  constructor
  · rintro ⟨i, hi, hlt⟩
    have hi := List.mem_range.mp hi
    obtain ⟨hin, hout⟩ := (scoreAt_lt h _ _ _ _ hi hviable hviable').mp (of_decide_eq_true hlt)
    exact ⟨i, hin, hout⟩
  · rintro ⟨i, hin, hout⟩
    exact ⟨i, List.mem_range.mpr hin.1,
      decide_eq_true ((scoreAt_lt h _ _ _ _ hin.1 hviable hviable').mpr ⟨hin, hout⟩)⟩

/-- The comparison of two viable overloads compares their exact positions. -/
theorem compareScores_viable
    (hviable : Viable h.calls modelConvertibility args resolved candidate) :
    let better := compareScores
      ((List.range args.length).map (scoreAt h.index modelConvertibility args resolved resolved))
      ((List.range args.length).map (scoreAt h.index modelConvertibility args resolved candidate))
    (better.1 = true ↔ ¬ ExactAt args candidate ⊆ ExactAt args resolved) ∧
      (better.2 = true ↔ ¬ ExactAt args resolved ⊆ ExactAt args candidate) := by
  dsimp only
  rw [compareScores_eq, List.zip_map', List.any_map, List.any_map]
  have hresolved := viable_resolved h modelConvertibility args resolved
  exact ⟨any_scoreAt_lt h hresolved hviable, any_scoreAt_lt h hviable hresolved⟩

/-- Viable overloads with the same exact positions have the same scores. -/
theorem scores_eq_of_exact
    (hviable : Viable h.calls modelConvertibility args resolved candidate)
    (hexact : ExactAt args candidate = ExactAt args resolved) :
    (List.range args.length).map (scoreAt h.index modelConvertibility args resolved candidate)
      = (List.range args.length).map
        (scoreAt h.index modelConvertibility args resolved resolved) := by
  have hresolved := viable_resolved h modelConvertibility args resolved
  refine List.map_congr_left fun i hi => ?_
  have hi := List.mem_range.mp hi
  have hnot := scoreAt_lt h _ _ _ _ hi hviable hresolved
  have hnot' := scoreAt_lt h _ _ _ _ hi hresolved hviable
  rw [hexact] at hnot hnot'
  refine Nat.le_antisymm (Nat.le_of_not_lt fun hlt => ?_) (Nat.le_of_not_lt fun hlt => ?_)
  · exact (hnot'.mp hlt).2 (hnot'.mp hlt).1
  · exact (hnot.mp hlt).2 (hnot.mp hlt).1

end Compared

theorem Says.rival {calls : List IndexCall} {opts : AnalysisOptions} {includedFiles : List Str}
    {node : CallNode} {callee : DirectCallee} {entry : FunctionOverloadEntry} {d : Diagnostic}
    (h : Says calls opts includedFiles node callee entry d) :
    Rival calls opts includedFiles node callee entry := by
  cases h with
  | fallback hr => exact hr
  | ambiguity hr => exact hr
  | sameScore hr => exact hr

/-- The verdict on a rival, by who is better somewhere; `tied` says that the scores agree. -/
theorem Rival.verdict_iff {calls : List IndexCall} {opts : AnalysisOptions}
    {includedFiles : List Str} {node : CallNode} {callee : DirectCallee}
    {entry : FunctionOverloadEntry} (h : Rival calls opts includedFiles node callee entry)
    {candidateBetter resolvedBetter tied : Bool}
    (hcandidate : candidateBetter = true ↔
      ¬ exactIn node entry.paramTypes ⊆ exactIn node callee.paramTypes)
    (hresolved : resolvedBetter = true ↔
      ¬ exactIn node callee.paramTypes ⊆ exactIn node entry.paramTypes)
    (htied : exactIn node entry.paramTypes = exactIn node callee.paramTypes → tied = true)
    (d : Diagnostic) :
    (if !candidateBetter then
        if opts.warnSameScore && !resolvedBetter && tied && entry.paramTypes ≠ callee.paramTypes then
          some (adlSameScore node.location (buildSig callee.qualifiedName callee.paramTypes)
            (buildSig entry.qualifiedName entry.paramTypes) entry.headerPath)
        else none
      else if !resolvedBetter then
        some (adlFallback node.location (buildSig callee.qualifiedName callee.paramTypes)
          (buildSig entry.qualifiedName entry.paramTypes) entry.headerPath)
      else some (adlAmbiguity node.location (buildSig callee.qualifiedName callee.paramTypes)
        (buildSig entry.qualifiedName entry.paramTypes) entry.headerPath)) = some d ↔
      Says calls opts includedFiles node callee entry d := by
  cases candidateBetter with
  | false =>
      have hinside := not_not.mp (mt hcandidate.mpr Bool.false_ne_true)
      have hquiet : ¬ (opts.warnSameScore = true ∧
            exactIn node entry.paramTypes = exactIn node callee.paramTypes) →
          ((none : Option Diagnostic) = some d ↔
            Says calls opts includedFiles node callee entry d) := by
        intro hnot
        refine iff_of_false (Option.some_ne_none d).symm fun hsays => ?_
        cases hsays with
        | fallback _ _ hout => exact hout hinside
        | ambiguity _ hout => exact hout hinside
        | sameScore _ hon hexact => exact hnot ⟨hon, hexact⟩
      cases resolvedBetter with
      | true =>
          have hquiet := hquiet fun hc => hresolved.mp rfl hc.2.symm.subset
          simpa using hquiet
      | false =>
          have hexact := hinside.antisymm (not_not.mp (mt hresolved.mpr Bool.false_ne_true))
          by_cases hwarn : opts.warnSameScore = true
          · simp only [hwarn, htied hexact, h.other, Bool.not_false, Bool.and_self, decide_true,
              ne_eq, not_false_eq_true, if_true, Option.some.injEq]
            constructor
            · rintro rfl
              exact .sameScore h hwarn hexact
            · intro hsays
              cases hsays with
              | fallback _ _ hout => exact absurd hinside hout
              | ambiguity _ hout => exact absurd hinside hout
              | sameScore => rfl
          · have hquiet := hquiet fun hc => hwarn hc.1
            simpa [hwarn] using hquiet
  | true =>
      have hout := hcandidate.mp rfl
      cases resolvedBetter with
      | false =>
          have hback := not_not.mp (mt hresolved.mpr Bool.false_ne_true)
          simp only [Bool.not_true, Bool.false_eq_true, if_false, Bool.not_false, if_true,
            Option.some.injEq]
          constructor
          · rintro rfl
            exact .fallback h hback hout
          · intro hsays
            cases hsays with
            | fallback => rfl
            | ambiguity _ _ hnot => exact absurd hback hnot
            | sameScore _ _ hexact => exact absurd hexact.subset hout
      | true =>
          have hback := hresolved.mp rfl
          simp only [Bool.not_true, Bool.false_eq_true, if_false, Option.some.injEq]
          constructor
          · rintro rfl
            exact .ambiguity h hout hback
          · intro hsays
            cases hsays with
            | fallback _ hinside _ => exact absurd hinside hback
            | ambiguity => rfl
            | sameScore _ _ hexact => exact absurd hexact.subset hout

/-- **What is said of an overload** is read off the exact positions. -/
theorem judgeOverload_iff (h : IndexHistory) (opts : AnalysisOptions) (includedFiles : List Str)
    {node : CallNode} {callee : DirectCallee} (hargs : node.argTypes ≠ [])
    (harity : callee.paramTypes.length = node.argTypes.length) (entry : FunctionOverloadEntry)
    (d : Diagnostic) :
    judgeOverload h.index opts includedFiles node callee
        (scoreOverload h.index opts.modelConvertibility (normalizeAll node.argTypes)
          (normalizeAll callee.paramTypes) (normalizeAll callee.paramTypes)) entry = some d ↔
      Says h.calls opts includedFiles node callee entry d := by
  have hnever : ¬ Rival h.calls opts includedFiles node callee entry →
      ((none : Option Diagnostic) = some d ↔ Says h.calls opts includedFiles node callee entry d) :=
    fun hrival => iff_of_false (Option.some_ne_none d).symm fun hsays => hrival hsays.rival
  have hres : (normalizeAll callee.paramTypes).length = (normalizeAll node.argTypes).length := by
    rw [length_normalizeAll, length_normalizeAll, harity]
  unfold judgeOverload
  by_cases hother : entry.paramTypes = callee.paramTypes
  · rw [if_pos hother]
    exact hnever fun hr => hr.other hother
  rw [if_neg hother]
  by_cases hvisible : entry.headerPath ∈ includedFiles
  · rw [if_pos hvisible]
    exact hnever fun hr => hr.invisible hvisible
  rw [if_neg hvisible]
  by_cases hcount : entry.paramTypes.length = node.argTypes.length
  swap
  · rw [if_pos hcount]
    exact hnever fun hr => hcount hr.arity
  rw [if_neg (not_not_intro hcount)]
  have hcand : (normalizeAll entry.paramTypes).length = (normalizeAll node.argTypes).length := by
    rw [length_normalizeAll, length_normalizeAll, hcount]
  by_cases hviable : Viable h.calls opts.modelConvertibility (normalizeAll node.argTypes)
      (normalizeAll callee.paramTypes) (normalizeAll entry.paramTypes)
  swap
  · rw [scoreOverload_of_not_viable h hres hcand hviable]
    exact hnever fun hr => hviable hr.viable
  have hrival : Rival h.calls opts includedFiles node callee entry :=
    ⟨hother, hvisible, hcount, hviable⟩
  obtain ⟨hcandidate, hresolved⟩ := compareScores_viable h hviable
  rw [scoreOverload_of_viable h hres hcand hviable,
    scoreOverload_of_viable h hres hres (viable_resolved h _ _ _)]
  have hsome : (List.range (normalizeAll node.argTypes).length).map
      (scoreAt h.index opts.modelConvertibility (normalizeAll node.argTypes)
        (normalizeAll callee.paramTypes) (normalizeAll entry.paramTypes)) ≠ [] := by
    rw [length_normalizeAll]
    simpa using hargs
  dsimp only
  rw [if_neg hsome]
  exact hrival.verdict_iff hcandidate hresolved
    (fun hexact => decide_eq_true (scores_eq_of_exact h hviable hexact)) d

/-! ### What the index knows -/

theorem foldl_push {α : Type} (es l : List α) : es.foldl (fun l e => l ++ [e]) l = l ++ es := by
  induction es generalizing l with
  | nil => exact (List.append_nil l).symm
  | cons e rest ih => rw [List.foldl_cons, ih, List.append_assoc, List.singleton_append]

/-- The overloads of a name that the calls gave. -/
def overloadsGiven (calls : List IndexCall) (name : Str) : List FunctionOverloadEntry :=
  calls.filterMap (overloadsPart name).concerns

/-- The deduction guides of a template that the calls gave. -/
def guidesGiven (calls : List IndexCall) (name : Str) : List DeductionGuideEntry :=
  calls.filterMap (guidesPart name).concerns

theorem IndexHistory.findOverloads_eq (h : IndexHistory) (name : Str) :
    h.index.findOverloads name = overloadsGiven h.calls name :=
  (part_eq (overloadsPart name) h).trans (foldl_push _ _)

theorem IndexHistory.findDeductionGuides_eq (h : IndexHistory) (name : Str) :
    h.index.findDeductionGuides name = guidesGiven h.calls name :=
  (part_eq (guidesPart name) h).trans (foldl_push _ _)

/-! ### Calls -/

/-- A call about which the index is asked. -/
structure Asks (calls : List IndexCall) (opts : AnalysisOptions) (node : CallNode)
    (callee : DirectCallee) : Prop where
  enabled : opts.enableAdlDiag = true
  inMainFile : node.inMainFile = true
  direct : node.callee = some callee
  inNamespace : callee.inNamespace = true
  unqualified : node.hasQualifier = false
  several : 2 ≤ (overloadsGiven calls callee.qualifiedName).length
  arguments : node.argTypes ≠ []
  arity : callee.paramTypes.length = node.argTypes.length

theorem scoreOverload_resolved_ne_nil (index : GlobalIndex) (modelConvertibility : Bool)
    {args params : List Str} :
    scoreOverload index modelConvertibility args params params ≠ [] ↔
      args ≠ [] ∧ params.length = args.length := by
  by_cases hlength : params.length = args.length
  · rw [scoreOverload_eq hlength hlength, if_pos]
    · simp [hlength]
    · intro i _
      unfold scoreAt scoreParamMatch
      split
      · decide
      · rw [if_pos rfl]
        decide
  · refine iff_of_false ?_ fun hc => hlength hc.2
    unfold scoreOverload
    rw [if_pos (Or.inl hlength)]
    exact not_not_intro rfl

theorem visitCallExpr_eq (h : IndexHistory) {opts : AnalysisOptions} (includedFiles : List Str)
    {node : CallNode} {callee : DirectCallee} (hasks : Asks h.calls opts node callee) :
    visitCallExpr h.index opts includedFiles node
      = (overloadsGiven h.calls callee.qualifiedName).filterMap
        (judgeOverload h.index opts includedFiles node callee
          (scoreOverload h.index opts.modelConvertibility (normalizeAll node.argTypes)
            (normalizeAll callee.paramTypes) (normalizeAll callee.paramTypes))) := by
  have hscores : scoreOverload h.index opts.modelConvertibility (normalizeAll node.argTypes)
      (normalizeAll callee.paramTypes) (normalizeAll callee.paramTypes) ≠ [] := by
    rw [scoreOverload_resolved_ne_nil]
    refine ⟨fun hc => hasks.arguments (List.map_eq_nil_iff.mp hc), ?_⟩
    rw [length_normalizeAll, length_normalizeAll, hasks.arity]
  unfold visitCallExpr
  rw [if_neg (by simp [hasks.enabled, hasks.inMainFile]), hasks.direct]
  dsimp only
  rw [if_neg (by simp [hasks.inNamespace, hasks.unqualified]), h.findOverloads_eq,
    if_neg (Nat.not_le.mpr hasks.several), if_neg hscores]

theorem visitCallExpr_nil (h : IndexHistory) {opts : AnalysisOptions} (includedFiles : List Str)
    {node : CallNode} (hnone : ∀ callee, ¬ Asks h.calls opts node callee) :
    visitCallExpr h.index opts includedFiles node = [] := by
  unfold visitCallExpr
  by_cases hchecked : (!opts.enableAdlDiag || !node.inMainFile) = true
  · exact if_pos hchecked
  rw [if_neg hchecked]
  cases hcallee : node.callee with
  | none => rfl
  | some callee =>
      dsimp only
      by_cases hadl : (!callee.inNamespace || node.hasQualifier) = true
      · exact if_pos hadl
      rw [if_neg hadl, h.findOverloads_eq]
      by_cases hfew : (overloadsGiven h.calls callee.qualifiedName).length ≤ 1
      · exact if_pos hfew
      rw [if_neg hfew]
      by_cases hscores : scoreOverload h.index opts.modelConvertibility (normalizeAll node.argTypes)
          (normalizeAll callee.paramTypes) (normalizeAll callee.paramTypes) = []
      · exact if_pos hscores
      obtain ⟨hargs, harity⟩ := (scoreOverload_resolved_ne_nil h.index _).mp hscores
      rw [length_normalizeAll, length_normalizeAll] at harity
      simp only [Bool.or_eq_true, Bool.not_eq_true', not_or, Bool.not_eq_false,
        Bool.not_eq_true] at hchecked hadl
      refine absurd ?_ (hnone callee)
      exact ⟨hchecked.1, hchecked.2, hcallee, hadl.1, hadl.2, Nat.not_le.mp hfew,
        fun hc => hargs (by rw [hc]; rfl), harity⟩

/-- **Calls are reported exactly**: of a call about which the index is asked, each overload in
turn gets the verdict of its exact positions, and of others nothing is said. -/
theorem calls_exact (h : IndexHistory) (opts : AnalysisOptions) (includedFiles : List Str)
    (node : CallNode) :
    (∀ callee, Asks h.calls opts node callee →
      ∃ verdict : FunctionOverloadEntry → Option Diagnostic,
        (∀ entry d, verdict entry = some d ↔
          Says h.calls opts includedFiles node callee entry d) ∧
        visitCallExpr h.index opts includedFiles node
          = (overloadsGiven h.calls callee.qualifiedName).filterMap verdict) ∧
    ((∀ callee, ¬ Asks h.calls opts node callee) →
      visitCallExpr h.index opts includedFiles node = []) := by
  refine ⟨fun callee hasks => ?_, visitCallExpr_nil h includedFiles⟩
  exact ⟨_, judgeOverload_iff h opts includedFiles hasks.arguments hasks.arity,
    visitCallExpr_eq h includedFiles hasks⟩

end Vycor
