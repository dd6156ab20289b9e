/-
Breadth-first walks of a tree.

A queue is worked off from the front, and the children of what is taken off go to its end.
Nothing is remembered: what two parents share is walked once for each.  The measure is the
size of what is queued, which every turn lowers when a node is larger than its children
together.  With fuel for that, the order of the walk is the levels of the tree, one after
the other (`order_eq_levels`); so what stands on a higher level is met first.
-/
import Mathlib.Algebra.GroupWithZero.Nat
import Mathlib.Data.List.Basic
import Mathlib.Data.List.Range

namespace LevelOrder

variable {α σ : Type*} (children : α → List α)

/-- Visit what is queued, and after it what it leads to. -/
def walk (visit : σ → α → σ) : Nat → List α → σ → σ
  | 0, _, st => st
  | _ + 1, [], st => st
  | fuel + 1, x :: rest, st => walk visit fuel (rest ++ children x) (visit st x)

/-- The order in which a walk visits. -/
def order : Nat → List α → List α
  | 0, _ => []
  | _ + 1, [] => []
  | fuel + 1, x :: rest => x :: order fuel (rest ++ children x)

/-- The nodes `n` steps below the queue, as they come. -/
def level : Nat → List α → List α
  | 0, queue => queue
  | n + 1, queue => level n (queue.flatMap children)

theorem walk_eq_foldl (visit : σ → α → σ) (fuel : Nat) (queue : List α) (st : σ) :
    walk children visit fuel queue st = (order children fuel queue).foldl visit st := by
  induction fuel generalizing queue st with
  | zero => rfl
  | succ fuel ih =>
      cases queue with
      | nil => rfl
      | cons x rest => exact ih _ _

/-! ### Levels

The levels by themselves: the next level is what the nodes of this one lead to,
in their order and with repetitions.
-/

variable {children}

@[simp] theorem level_nil (n : Nat) : level children n [] = [] := by
  induction n with
  | zero => rfl
  | succ n ih => exact ih

theorem level_append (n : Nat) (a b : List α) :
    level children n (a ++ b) = level children n a ++ level children n b := by
  induction n generalizing a b with
  | zero => rfl
  | succ n ih =>
      unfold level
      rw [List.flatMap_append, ih]

theorem level_succ_singleton (n : Nat) (x : α) :
    level children (n + 1) [x] = level children n (children x) := by
  rw [level, List.flatMap_cons, List.flatMap_nil, List.append_nil]

theorem mem_level {n : Nat} {queue : List α} {x : α} :
    x ∈ level children n queue ↔ ∃ y ∈ queue, x ∈ level children n [y] := by
  induction queue with
  | nil => simp
  | cons y rest ih =>
      rw [← List.singleton_append, level_append, List.mem_append, ih]
      simp

/-! ### Enough fuel

A walk spends a turn on each node of each level, so a weight that counts them
says how much fuel empties a queue.
-/

/-- The weight of a queue. -/
def weight (size : α → Nat) (queue : List α) : Nat := (queue.map size).sum

section Fuel

variable {size : α → Nat} (hsize : ∀ x, weight size (children x) < size x)
include hsize

theorem weight_flatMap (queue : List α) :
    weight size (queue.flatMap children) + queue.length ≤ weight size queue := by
  induction queue with
  | nil => exact Nat.le_refl _
  | cons x rest ih =>
      have hx := hsize x
      simp only [weight, List.flatMap_cons, List.map_append, List.sum_append, List.map_cons,
        List.sum_cons, List.length_cons] at ih hx ⊢
      omega

/-- A walk takes what is queued first, in order, and then what that leads to. -/
theorem order_append (a b : List α) {fuel : Nat} (hfuel : weight size (a ++ b) ≤ fuel) :
    ∃ fuel', weight size (b ++ a.flatMap children) ≤ fuel' ∧
      order children fuel (a ++ b) = a ++ order children fuel' (b ++ a.flatMap children) := by
  induction a generalizing b fuel with
  | nil =>
      refine ⟨fuel, ?_, ?_⟩
      · simpa using hfuel
      · simp
  | cons x rest ih =>
      have hx := hsize x
      cases fuel with
      | zero =>
          simp only [weight, List.cons_append, List.map_cons, List.sum_cons] at hfuel hx
          omega
      | succ fuel =>
          have hle : weight size (rest ++ (b ++ children x)) ≤ fuel := by
            simp only [weight, List.cons_append, List.map_cons, List.sum_cons, List.map_append,
              List.sum_append] at hfuel hx ⊢
            omega
          obtain ⟨fuel', hfuel', heq⟩ := ih (b ++ children x) hle
          refine ⟨fuel', ?_, ?_⟩
          · rwa [List.flatMap_cons, ← List.append_assoc]
          · rw [List.flatMap_cons, ← List.append_assoc b, List.cons_append, List.cons_append, ← heq,
              order, List.append_assoc]

/-- **A walk goes level by level.** -/
theorem order_eq_levels (n : Nat) {queue : List α} {fuel : Nat} (hfuel : weight size queue ≤ fuel)
    (hn : weight size queue ≤ n) :
    order children fuel queue = (List.range n).flatMap fun i => level children i queue := by
  induction n generalizing queue fuel with
  | zero =>
      have hnil : queue = [] := by
        have := weight_flatMap hsize queue
        exact List.eq_nil_of_length_eq_zero (by omega)
      subst hnil
      cases fuel <;> rfl
  | succ n ih =>
      obtain ⟨fuel', hfuel', heq⟩ := order_append hsize queue [] (by simpa using hfuel)
      rw [List.append_nil, List.nil_append] at heq
      rw [List.nil_append] at hfuel'
      have hle : weight size (queue.flatMap children) ≤ n := by
        have := weight_flatMap hsize queue
        cases queue with
        | nil => simp [weight]
        | cons x rest =>
            simp only [List.length_cons] at this
            omega
      rw [heq, ih hfuel' hle, List.range_succ_eq_map, List.flatMap_cons, List.flatMap_map]
      rfl

/-- Every level is walked. -/
theorem mem_order {queue : List α} {fuel : Nat} (hfuel : weight size queue ≤ fuel) {x : α} :
    x ∈ order children fuel queue ↔ ∃ n, x ∈ level children n queue := by
  constructor
  · rw [order_eq_levels hsize fuel hfuel hfuel]
    intro hx
    obtain ⟨n, -, hn⟩ := List.mem_flatMap.mp hx
    exact ⟨n, hn⟩
  · rintro ⟨n, hn⟩
    rw [order_eq_levels hsize (fuel + n + 1) hfuel (by omega)]
    exact List.mem_flatMap.mpr ⟨n, List.mem_range.mpr (by omega), hn⟩

/-- What stands on the first levels comes before all that stands deeper. -/
theorem order_split (n : Nat) {queue : List α} {fuel : Nat} (hfuel : weight size queue ≤ fuel) :
    ∃ deeper, order children fuel queue =
      ((List.range n).flatMap fun i => level children i queue) ++ deeper := by
  rw [order_eq_levels hsize (n + fuel) hfuel (by omega), List.range_add, List.flatMap_append]
  exact ⟨_, rfl⟩

end Fuel

end LevelOrder
