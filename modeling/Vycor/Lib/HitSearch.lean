/-
Is a node beyond another one?

`search` works a stack off.  A node that comes up a second time is dropped; a node that comes
up for the first time has its successors looked at, and the search is over as soon as the
node it looks for is among them.  Otherwise all of them are pushed, seen or not, so what
bounds the number of turns is not the number of nodes but the number of edges: every node
pays for its successors once, when it is seen.

`search_spec` is the result: with more turns than that, the search answers, and the answer is
whether one or more steps lead from the start to the goal.
-/
import Mathlib.Algebra.Order.BigOperators.Group.List
import Mathlib.Algebra.Order.Ring.Nat
import Mathlib.Logic.Relation

namespace HitSearch

open Relation

variable {ι : Type*} [DecidableEq ι]

/-- The answer, or `none` if the search is not over after `fuel` turns.  The last node
pushed stands first. -/
def search (succ : ι → List ι) (goal : ι) : Nat → List ι → List ι → Option Bool
  | 0, _, _ => none
  | _ + 1, _, [] => some false
  | fuel + 1, seen, cur :: rest =>
    if cur ∈ seen then search succ goal fuel seen rest
    else if goal ∈ succ cur then some true
    else search succ goal fuel (cur :: seen) ((succ cur).reverse ++ rest)

/-! ### Soundness and completeness -/

/-- The nodes at hand lie behind the start; a node that was seen does not have the goal
next, and has its successors seen or pushed. -/
structure Inv (succ : ι → List ι) (start goal : ι) (seen stack : List ι) : Prop where
  pushed : ∀ x ∈ stack, ReflTransGen (fun a b => b ∈ succ a) start x
  started : start ∈ seen ∨ start ∈ stack
  missed : ∀ x ∈ seen, goal ∉ succ x
  closed : ∀ x ∈ seen, ∀ y ∈ succ x, y ∈ seen ∨ y ∈ stack

variable {succ : ι → List ι} {start goal cur : ι} {seen rest : List ι}

omit [DecidableEq ι] in
theorem inv_start (succ : ι → List ι) (start goal : ι) : Inv succ start goal [] [start] where
  pushed x hx := by
    rw [List.mem_singleton.mp hx]
  started := Or.inr List.mem_cons_self
  missed _ hx := absurd hx List.not_mem_nil
  closed _ hx := absurd hx List.not_mem_nil

omit [DecidableEq ι] in
/-- A node that comes up again is dropped. -/
theorem Inv.drop (h : Inv succ start goal seen (cur :: rest)) (hcur : cur ∈ seen) :
    Inv succ start goal seen rest where
  pushed x hx := h.pushed x (List.mem_cons_of_mem _ hx)
  started := by
    rcases h.started with hs | hs
    · exact Or.inl hs
    · rcases List.mem_cons.mp hs with rfl | hs
      · exact Or.inl hcur
      · exact Or.inr hs
  missed := h.missed
  closed x hx y hy := by
    rcases h.closed x hx y hy with hs | hs
    · exact Or.inl hs
    · rcases List.mem_cons.mp hs with rfl | hs
      · exact Or.inl hcur
      · exact Or.inr hs

omit [DecidableEq ι] in
/-- A new node without the goal next is seen and its successors are pushed. -/
theorem Inv.push (h : Inv succ start goal seen (cur :: rest)) (hmiss : goal ∉ succ cur) :
    Inv succ start goal (cur :: seen) ((succ cur).reverse ++ rest) where
  pushed x hx := by
    rcases List.mem_append.mp hx with hx | hx
    · exact (h.pushed cur List.mem_cons_self).tail (List.mem_reverse.mp hx)
    · exact h.pushed x (List.mem_cons_of_mem _ hx)
  started := by
    have := h.started
    simp only [List.mem_cons, List.mem_append] at *
    tauto
  missed x hx := by
    rcases List.mem_cons.mp hx with rfl | hx
    · exact hmiss
    · exact h.missed x hx
  closed x hx y hy := by
    rcases List.mem_cons.mp hx with rfl | hx
    · exact Or.inr (List.mem_append_left _ (List.mem_reverse.mpr hy))
    · have := h.closed x hx y hy
      simp only [List.mem_cons, List.mem_append] at *
      tauto

omit [DecidableEq ι] in
/-- Nothing is left to look at: the goal is not beyond the start. -/
theorem Inv.none_beyond (h : Inv succ start goal seen []) :
    ¬ TransGen (fun a b => b ∈ succ a) start goal := by
  have hseen : ∀ x, ReflTransGen (fun a b => b ∈ succ a) start x → x ∈ seen := by
    intro x hx
    induction hx with
    | refl => exact h.started.resolve_right List.not_mem_nil
    | tail _ hstep ih => exact (h.closed _ ih _ hstep).resolve_right List.not_mem_nil
  intro hgoal
  obtain ⟨x, hx, hstep⟩ := TransGen.tail'_iff.mp hgoal
  exact h.missed x (hseen x hx) hstep

/-! ### The search ends

A node pays for its successors when it is seen, and it is seen once: the number
of edges bounds the pushes, though a node may be pushed again and again before
it is popped.
-/

/-- What the nodes not seen yet may still push. -/
def unpaid (succ : ι → List ι) (nodes seen : List ι) : Nat :=
  ((nodes.filter (· ∉ seen)).map fun x => (succ x).length).sum

theorem unpaid_cons_le (succ : ι → List ι) (nodes seen : List ι) (cur : ι) :
    unpaid succ nodes (cur :: seen) ≤ unpaid succ nodes seen := by
  unfold unpaid
  refine List.Sublist.sum_le_sum (List.Sublist.map _ ?_) fun _ _ => Nat.zero_le _
  refine List.monotone_filter_right nodes fun x hx => ?_
  simp only [List.mem_cons, not_or, decide_eq_true_eq] at *
  exact hx.2

/-- A node pays for its successors when it is seen. -/
theorem unpaid_cons (succ : ι → List ι) {nodes : List ι} (hcur : cur ∈ nodes) (hnew : cur ∉ seen) :
    unpaid succ nodes (cur :: seen) + (succ cur).length ≤ unpaid succ nodes seen := by
  induction nodes with
  | nil => exact absurd hcur List.not_mem_nil
  | cons x xs ih =>
      have hle := unpaid_cons_le succ xs seen cur
      unfold unpaid at *
      by_cases hx : x = cur
      · subst hx
        simp only [List.filter_cons, hnew, not_false_eq_true, decide_true, if_true, List.mem_cons,
          true_or, not_true_eq_false, decide_false, Bool.false_eq_true, if_false, List.map_cons,
          List.sum_cons] at *
        omega
      · have ih := ih ((List.mem_cons.mp hcur).resolve_left (Ne.symm hx))
        by_cases hseen : x ∈ seen
        · simpa [List.filter_cons, hseen] using ih
        · simp only [List.filter_cons, List.mem_cons, hx, hseen, or_self, not_false_eq_true,
            decide_true, if_true, List.map_cons, List.sum_cons] at *
          omega

theorem search_inv {nodes : List ι} (hnodes : ∀ x, succ x ≠ [] → x ∈ nodes) :
    ∀ (fuel : Nat) (seen stack : List ι), Inv succ start goal seen stack →
      unpaid succ nodes seen + stack.length < fuel →
      ∃ answer, search succ goal fuel seen stack = some answer ∧
        (answer = true ↔ TransGen (fun a b => b ∈ succ a) start goal) := by
  intro fuel
  induction fuel with
  | zero =>
      intro seen stack _ hfuel
      exact absurd hfuel (Nat.not_lt_zero _)
  | succ fuel ih =>
      intro seen stack h hfuel
      cases stack with
      | nil => exact ⟨false, rfl, by simpa using h.none_beyond⟩
      | cons cur rest =>
          rw [List.length_cons] at hfuel
          rw [search]
          by_cases hseen : cur ∈ seen
          · rw [if_pos hseen]
            exact ih seen rest (h.drop hseen) (by omega)
          rw [if_neg hseen]
          by_cases hhit : goal ∈ succ cur
          · rw [if_pos hhit]
            exact ⟨true, rfl, iff_of_true rfl
              (TransGen.tail' (h.pushed cur List.mem_cons_self) hhit)⟩
          rw [if_neg hhit]
          refine ih _ _ (h.push hhit) ?_
          rw [List.length_append, List.length_reverse]
          by_cases hcur : succ cur = []
          · have := unpaid_cons_le succ nodes seen cur
            rw [hcur, List.length_nil]
            omega
          · have := unpaid_cons succ (hnodes cur hcur) hseen
            omega

/-- **The search answers whether the goal is beyond the start**, given a turn for the start,
one for each edge and one to find the stack empty. -/
theorem search_spec {nodes : List ι} (hnodes : ∀ x, succ x ≠ [] → x ∈ nodes) (start goal : ι)
    {fuel : Nat} (hfuel : (nodes.map fun x => (succ x).length).sum + 2 ≤ fuel) :
    ∃ answer, search succ goal fuel [] [start] = some answer ∧
      (answer = true ↔ TransGen (fun a b => b ∈ succ a) start goal) := by
  refine search_inv hnodes fuel [] [start] (inv_start succ start goal) ?_
  have hall : unpaid succ nodes [] = (nodes.map fun x => (succ x).length).sum := by
    simp [unpaid]
  rw [hall, List.length_singleton]
  omega

end HitSearch
