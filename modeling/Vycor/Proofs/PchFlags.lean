/-
The flags that compile a header ahead.

`extractPchCompileFlags` is to drop what says where the output goes.  It consults the list of
options before the list of those with an operand, so an option with an operand goes and its
operand stays; and an operand joined to its option is not looked for at all.  These are left
open here (`flagVerdict`).  Everything else is said exactly: what goes, and that the rest stays
in order.
-/
import Vycor.Model.PchCache

namespace Vycor

open ArgScan

/-! ### What goes and what stays -/

/-- An option with its operand in one argument. -/
def joinsOperand (arg : Str) : Bool := skipWithNext.any fun flag => startsWith arg flag

/-- What goes by itself: file names, output and dependency options, and what concerns
precompiled headers. -/
def goesAlone (arg : Str) : Bool :=
  isFileName arg || arg ∈ skipFlags || mentionsPch arg || arg = str "-Winvalid-pch"

/-- The verdict at an argument.  An option that takes an operand goes; whether the operand does
is open, and so it is for an option joined to its operand. -/
def flagVerdict : List Str → Verdict Str
  | [] => .drop 0
  | arg :: rest =>
    if arg ∈ str "-include-pch" :: skipWithNext then
      { allowed := fun out => out.Sublist (rest.take 1), further := 1 }
    else if goesAlone arg then .drop 0
    else if startsWith arg (str "-Xarch_") && rest.head?.any mentionsPch then .drop 1
    else if joinsOperand arg then { allowed := fun out => out.Sublist [arg] }
    else .keep arg

/-! ### The filter -/

/-- The step, in short: an option with an operand is on the list of options already, and the bare
`-include` does not mention `pch`, so nothing is passed over but behind an `-Xarch_*`. -/
theorem extractStep_eq (arg : Str) (rest : List Str) :
    extractStep (arg :: rest)
      = if goesAlone arg then some ([], 0)
        else if startsWith arg (str "-Xarch_") && rest.head?.any mentionsPch then some ([], 1)
        else none := by
  have hlisted : arg ∈ skipWithNext → arg ∈ skipFlags := by
    have hsub : ∀ flag ∈ skipWithNext, flag ∈ skipFlags := by decide
    exact hsub arg
  have hbare : mentionsPch arg = true → arg ≠ str "-include" := by
    rintro hpch rfl
    exact absurd hpch (by decide)
  have harch : arg = str "-Winvalid-pch" → startsWith arg (str "-Xarch_") = false := by
    rintro rfl
    decide
  unfold extractStep goesAlone
  by_cases hfile : isFileName arg = true
  · simp [hfile]
  by_cases hflag : arg ∈ skipFlags
  · simp [hfile, hflag]
  have hnext : arg ∉ skipWithNext := mt hlisted hflag
  by_cases hpch : mentionsPch arg = true
  · simp [hfile, hflag, hnext, hpch, hbare hpch]
  by_cases hinvalid : arg = str "-Winvalid-pch"
  · simp [hfile, hflag, hnext, hpch, harch hinvalid]
  · simp [hfile, hflag, hnext, hpch, hinvalid]

theorem extractStep_drops (args : List Str) (out : List Str) (further : Nat)
    (h : extractStep args = some (out, further)) : out = [] := by
  cases args with
  | nil => exact nomatch h
  | cons arg rest =>
      rw [extractStep_eq] at h
      split_ifs at h
      · exact (Prod.mk.inj (Option.some.inj h)).1.symm
      · exact (Prod.mk.inj (Option.some.inj h)).1.symm

theorem scan_alone {arg : Str} (h : goesAlone arg = true) (rest : List Str) :
    scan extractStep 0 (arg :: rest) = scan extractStep 0 rest := by
  have hstep : extractStep (arg :: rest) = some ([], 0) := by
    rw [extractStep_eq, if_pos h]
  exact scan_replace hstep

theorem scan_pair {arg : Str} {rest : List Str} (halone : ¬ goesAlone arg = true)
    (hpair : (startsWith arg (str "-Xarch_") && rest.head?.any mentionsPch) = true) :
    scan extractStep 0 (arg :: rest) = scan extractStep 0 (rest.drop 1) := by
  have hstep : extractStep (arg :: rest) = some ([], 1) := by
    rw [extractStep_eq, if_neg halone, if_pos hpair]
  exact scan_replace hstep

theorem scan_other {arg : Str} {rest : List Str} (halone : ¬ goesAlone arg = true)
    (hpair : ¬ (startsWith arg (str "-Xarch_") && rest.head?.any mentionsPch) = true) :
    scan extractStep 0 (arg :: rest) = arg :: scan extractStep 0 rest := by
  have hstep : extractStep (arg :: rest) = none := by
    rw [extractStep_eq, if_neg halone, if_neg hpair]
  exact scan_keep hstep

/-- At an operand, the filter leaves it or not and goes on behind it.  It may be an `-Xarch_*` that
goes with the include behind it, but that include goes by itself as well. -/
theorem scan_operand (rest : List Str) :
    ∃ seg, seg.Sublist (rest.take 1) ∧
      scan extractStep 0 rest = seg ++ scan extractStep 0 (rest.drop 1) := by
  cases rest with
  | nil => exact ⟨[], List.Sublist.refl _, rfl⟩
  | cons operand rest =>
      by_cases halone : goesAlone operand = true
      · exact ⟨[], List.nil_sublist _, scan_alone halone rest⟩
      by_cases hpair : (startsWith operand (str "-Xarch_") && rest.head?.any mentionsPch) = true
      · refine ⟨[], List.nil_sublist _, ?_⟩
        rw [scan_pair halone hpair]
        cases rest with
        | nil => rfl
        | cons include_ rest =>
            have hpch : mentionsPch include_ = true := by simpa using (Bool.and_eq_true_iff.mp hpair).2
            exact (scan_alone (by simp [goesAlone, hpch]) rest).symm
      · exact ⟨[operand], List.Sublist.refl _, scan_other halone hpair⟩

theorem extract_obeys (tuArgs : List Str) :
    Obeys flagVerdict tuArgs (extractPchCompileFlags tuArgs) := by
  refine obeys_scan (fun arg rest => ?_) tuArgs
  unfold flagVerdict
  by_cases hoperand : arg ∈ str "-include-pch" :: skipWithNext
  · have halone : goesAlone arg = true := by
      have hall : ∀ flag ∈ str "-include-pch" :: skipWithNext, goesAlone flag = true := by decide
      exact hall arg hoperand
    simp only [if_pos hoperand]
    rw [scan_alone halone]
    exact scan_operand rest
  simp only [if_neg hoperand]
  by_cases halone : goesAlone arg = true
  · simp only [if_pos halone]
    exact ⟨[], rfl, scan_alone halone rest⟩
  simp only [if_neg halone]
  by_cases hpair : (startsWith arg (str "-Xarch_") && rest.head?.any mentionsPch) = true
  · simp only [if_pos hpair]
    exact ⟨[], rfl, scan_pair halone hpair⟩
  simp only [if_neg hpair]
  have hkeep : scan extractStep 0 (arg :: rest) = [arg] ++ scan extractStep 0 rest :=
    scan_other halone hpair
  split
  · exact ⟨[arg], List.Sublist.refl _, hkeep⟩
  · exact ⟨[arg], rfl, hkeep⟩

/-- **What the flags are**: the arguments of the command in their order, without the options, the
file names and the includes that go; only of operands is it open whether they go. -/
theorem extractPchCompileFlags_drops (tuArgs : List Str) :
    Obeys flagVerdict tuArgs (extractPchCompileFlags tuArgs) ∧
      (extractPchCompileFlags tuArgs).Sublist tuArgs ∧
      ∀ arg ∈ extractPchCompileFlags tuArgs, goesAlone arg = false := by
  refine ⟨extract_obeys tuArgs, sublist_of_drops extractStep_drops tuArgs, fun arg harg => ?_⟩
  obtain ⟨rest, hkept, -⟩ := kept_of_mem extractStep_drops harg
  rw [extractStep_eq] at hkept
  by_contra halone
  rw [if_pos (by simpa using halone)] at hkept
  exact nomatch hkept

/-! ### Outputs and nothing else -/

/-- Drop output and dependency options with their operands, and the source file. -/
def outputStep : List Str → Option (List Str × Nat)
  | [] => none
  | arg :: _ =>
    if arg ∈ skipWithNext then some ([], 1)
    else if joinsOperand arg || arg ∈ [str "-c", str "-MD", str "-MMD"] then some ([], 0)
    else if isFileName arg then some ([], 0)
    else none

/-- **More goes than outputs**: the include of a precompiled header goes and the warning about
such headers, which say nothing of an output. -/
theorem extract_ne_outputs :
    extractPchCompileFlags [str "-MMD", str "-include/x/pch.h", str "-Winvalid-pch", str "main.cpp"]
      ≠ scan outputStep 0
          [str "-MMD", str "-include/x/pch.h", str "-Winvalid-pch", str "main.cpp"] := by
  have hflags : extractPchCompileFlags
      [str "-MMD", str "-include/x/pch.h", str "-Winvalid-pch", str "main.cpp"] = [] := by
    decide +kernel
  have houtputs : scan outputStep 0
      [str "-MMD", str "-include/x/pch.h", str "-Winvalid-pch", str "main.cpp"]
        = [str "-include/x/pch.h", str "-Winvalid-pch"] := by
    decide +kernel
  rw [hflags, houtputs]
  decide

end Vycor
