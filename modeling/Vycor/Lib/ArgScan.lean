/-
Filters over a command line.

A filter goes over the arguments from the left.  At each it looks ahead as far as it likes and
either keeps the argument or puts others in its place, and then goes on behind the arguments it
has used up.

What a filter should do is said the same way, with some freedom: a verdict at each argument
says which outputs are fine there and how many further arguments it is about.  Where a verdict
leaves something open, a filter that obeys may do there what it likes.
-/
import Mathlib.Data.List.Basic

namespace ArgScan

variable {α : Type*}

/-- The loop: at an argument and what follows it, `step` gives what takes its place and how
many further arguments that uses up.  The number is how many are still to be passed over. -/
def scan (step : List α → Option (List α × Nat)) : Nat → List α → List α
  | _, [] => []
  | skip + 1, _ :: rest => scan step skip rest
  | 0, arg :: rest =>
    match step (arg :: rest) with
    | none => arg :: scan step 0 rest
    | some (out, further) => out ++ scan step further rest

variable {step : List α → Option (List α × Nat)} {arg : α} {rest out : List α} {further : Nat}

theorem scan_skip (step : List α → Option (List α × Nat)) (skip : Nat) (args : List α) :
    scan step skip args = scan step 0 (args.drop skip) := by
  induction skip generalizing args with
  | zero => rfl
  | succ skip ih =>
      cases args with
      | nil => rfl
      | cons arg rest => exact ih rest

theorem scan_keep (h : step (arg :: rest) = none) :
    scan step 0 (arg :: rest) = arg :: scan step 0 rest := by
  rw [scan, h]

theorem scan_replace (h : step (arg :: rest) = some (out, further)) :
    scan step 0 (arg :: rest) = out ++ scan step 0 (rest.drop further) := by
  rw [scan, h, ← scan_skip]

/-- Induction along a scan: at an argument, what is behind any number of further ones has been
dealt with. -/
theorem scan_induct {P : List α → Prop} (hnil : P [])
    (hcons : ∀ arg rest, (∀ further, P (rest.drop further)) → P (arg :: rest))
    (args : List α) : P args := by
  have hall : ∀ (n : Nat) (args : List α), args.length ≤ n → P args := by
    intro n
    induction n with
    | zero =>
        intro args hlen
        rw [List.length_eq_zero_iff.mp (Nat.le_zero.mp hlen)]
        exact hnil
    | succ n ih =>
        intro args hlen
        cases args with
        | nil => exact hnil
        | cons arg rest =>
            rw [List.length_cons] at hlen
            exact hcons arg rest fun further => ih _ (by rw [List.length_drop]; omega)
  exact hall args.length args (Nat.le_refl _)

/-- What a filter that only drops has left was kept. -/
theorem kept_of_mem (hdrop : ∀ args out further, step args = some (out, further) → out = [])
    {args : List α} {x : α} (hx : x ∈ scan step 0 args) :
    ∃ rest, step (x :: rest) = none ∧ (x :: rest) <:+ args := by
  induction args using scan_induct with
  | hnil => exact absurd hx List.not_mem_nil
  | hcons arg rest ih =>
      cases hstep : step (arg :: rest) with
      | none =>
          rw [scan_keep hstep] at hx
          rcases List.mem_cons.mp hx with rfl | hx
          · exact ⟨rest, hstep, List.suffix_refl _⟩
          · obtain ⟨rest', hnone, hsuff⟩ := ih 0 hx
            exact ⟨rest', hnone, hsuff.trans (List.suffix_cons arg rest)⟩
      | some r =>
          obtain ⟨out, further⟩ := r
          rw [scan_replace hstep, hdrop _ _ _ hstep, List.nil_append] at hx
          obtain ⟨rest', hnone, hsuff⟩ := ih further hx
          exact ⟨rest', hnone,
            hsuff.trans ((List.drop_suffix further rest).trans (List.suffix_cons arg rest))⟩

theorem sublist_of_drops (hdrop : ∀ args out further, step args = some (out, further) → out = [])
    (args : List α) : (scan step 0 args).Sublist args := by
  induction args using scan_induct with
  | hnil => exact List.Sublist.refl _
  | hcons arg rest ih =>
      cases hstep : step (arg :: rest) with
      | none =>
          rw [scan_keep hstep]
          exact (ih 0).cons_cons arg
      | some r =>
          obtain ⟨out, further⟩ := r
          rw [scan_replace hstep, hdrop _ _ _ hstep, List.nil_append]
          exact ((ih further).trans (List.drop_sublist further rest)).cons arg

/-! ### Verdicts

What a filter may do is said argument by argument, without running it: a verdict
names what may stand in place of an argument and of how many behind it. A filter
that obeys the verdicts at each argument then obeys them on the whole line.
-/

/-- What may take the place of an argument and of so many further ones. -/
structure Verdict (α : Type*) where
  allowed : List α → Prop
  further : Nat := 0

/-- The argument stays as it stands. -/
def Verdict.keep (arg : α) : Verdict α := { allowed := fun out => out = [arg] }

/-- The argument and the `further` ones after it give way to `out`. -/
def Verdict.replace (out : List α) (further : Nat) : Verdict α :=
  { allowed := fun out' => out' = out, further }

/-- The argument goes, and the `further` ones after it. -/
def Verdict.drop (further : Nat) : Verdict α := Verdict.replace [] further

/-- Arguments are replaced as the verdicts allow. -/
inductive Obeys (verdict : List α → Verdict α) : List α → List α → Prop
  | nil : Obeys verdict [] []
  | cons {arg : α} {rest seg out : List α} : (verdict (arg :: rest)).allowed seg →
      Obeys verdict (rest.drop (verdict (arg :: rest)).further) out →
      Obeys verdict (arg :: rest) (seg ++ out)

/-- **A filter obeys when it does at each argument**: what it makes of the rest begins with
something allowed and goes on as from behind the arguments the verdict is about. -/
theorem obeys_scan {verdict : List α → Verdict α}
    (h : ∀ arg rest, ∃ seg, (verdict (arg :: rest)).allowed seg ∧
      scan step 0 (arg :: rest)
        = seg ++ scan step 0 (rest.drop (verdict (arg :: rest)).further))
    (args : List α) : Obeys verdict args (scan step 0 args) := by
  induction args using scan_induct with
  | hnil => exact .nil
  | hcons arg rest ih =>
      obtain ⟨seg, hallowed, hscan⟩ := h arg rest
      rw [hscan]
      exact .cons hallowed (ih _)

end ArgScan
