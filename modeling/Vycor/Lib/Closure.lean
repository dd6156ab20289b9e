/-
Depth-first closure of a relation.

`search` keeps a stack, the nodes seen so far and the nodes reported, and reports every
node it sees for the first time except the one it started from.  Each turn pops one node
and pushes only nodes that were not seen before, so the number of turns is bounded by
the number of nodes any successor list mentions, and with that much fuel the search
ends with an empty stack: what is seen is then closed under the relation.

`closure_spec` is the result: the nodes reported are exactly those reachable from the
start other than the start itself, each once.
-/
import Mathlib.Data.List.Nodup
import Mathlib.Data.List.Perm.Subperm
import Mathlib.Logic.Relation
import Mathlib.Tactic.Linarith

namespace Closure

variable {ι : Type*} [DecidableEq ι]

/-- The nodes seen, the nodes reported and the nodes still to expand, the last pushed
first. -/
structure State (ι : Type*) where
  visited : List ι
  result : List ι
  stack : List ι

/-- Report and push a node that was not seen before. -/
def visit (st : State ι) (next : ι) : State ι :=
  if next ∈ st.visited then st
  else { visited := next :: st.visited, result := st.result ++ [next], stack := next :: st.stack }

/-- The loop, with fuel. -/
def search (succ : ι → List ι) : Nat → State ι → State ι
  | 0, st => st
  | fuel + 1, st =>
    match st.stack with
    | [] => st
    | cur :: rest => search succ fuel ((succ cur).foldl visit { st with stack := rest })

/-- The nodes reachable from `start` other than `start`. -/
def closure (succ : ι → List ι) (fuel : Nat) (start : ι) : List ι :=
  (search succ fuel { visited := [start], result := [], stack := [start] }).result

/-! ### One turn

A turn pushes the successors of one node, so its invariant has a form for the
middle of the turn, with the successors that are still to come as a parameter.
-/

/-- What the search has established: everything reported has been seen, was reached from
the start and stands once; what is seen is the start or reported; a node that was seen
and is no longer on the stack has all its successors seen. -/
structure Inv (succ : ι → List ι) (start : ι) (st : State ι) : Prop where
  seen : ∀ x, x ∈ st.visited ↔ x = start ∨ x ∈ st.result
  nodup : st.result.Nodup
  fresh : start ∉ st.result
  reach : ∀ x ∈ st.visited, Relation.ReflTransGen (fun a b => b ∈ succ a) start x
  stacked : ∀ x ∈ st.stack, x ∈ st.visited
  closed : ∀ x ∈ st.visited, x ∉ st.stack → ∀ y ∈ succ x, y ∈ st.visited

/-- The invariant while the successors `todo` of `cur` are being pushed. -/
private structure Mid (succ : ι → List ι) (start cur : ι) (todo : List ι) (st : State ι) : Prop where
  seen : ∀ x, x ∈ st.visited ↔ x = start ∨ x ∈ st.result
  nodup : st.result.Nodup
  fresh : start ∉ st.result
  reach : ∀ x ∈ st.visited, Relation.ReflTransGen (fun a b => b ∈ succ a) start x
  stacked : ∀ x ∈ st.stack, x ∈ st.visited
  curSeen : cur ∈ st.visited
  todoSucc : ∀ y ∈ todo, y ∈ succ cur
  curClosed : ∀ y ∈ succ cur, y ∈ st.visited ∨ y ∈ todo
  closed : ∀ x ∈ st.visited, x ≠ cur → x ∉ st.stack → ∀ y ∈ succ x, y ∈ st.visited

private theorem Mid.push {succ : ι → List ι} {start cur next : ι} {todo : List ι} {st : State ι}
    (h : Mid succ start cur (next :: todo) st) : Mid succ start cur todo (visit st next) := by
  by_cases hmem : next ∈ st.visited
  · rw [show visit st next = st from if_pos hmem]
    refine { h with
      todoSucc := (fun y hy => h.todoSucc y (List.mem_cons_of_mem _ hy)), curClosed := ?_ }
    intro y hy
    rcases h.curClosed y hy with hy | hy
    · exact Or.inl hy
    · rcases List.mem_cons.mp hy with rfl | hy
      · exact Or.inl hmem
      · exact Or.inr hy
  · have hreport : next ∉ st.result := fun hc => hmem ((h.seen next).mpr (Or.inr hc))
    have hpush : visit st next = ⟨next :: st.visited, st.result ++ [next], next :: st.stack⟩ :=
      if_neg hmem
    rw [hpush]
    refine ⟨?_, ?_, ?_, ?_, ?_, ?_, ?_, ?_, ?_⟩
    · intro x
      have := h.seen x
      simp only [List.mem_cons, List.mem_append, List.not_mem_nil, or_false]
      tauto
    · refine List.nodup_append.mpr ⟨h.nodup, List.nodup_singleton _, ?_⟩
      intro a ha b hb hab
      rw [List.mem_singleton.mp hb] at hab
      exact hreport (hab ▸ ha)
    · intro hc
      rcases List.mem_append.mp hc with hc | hc
      · exact h.fresh hc
      · rw [← List.mem_singleton.mp hc] at hmem
        exact hmem ((h.seen start).mpr (Or.inl rfl))
    · intro x hx
      rcases List.mem_cons.mp hx with rfl | hx
      · exact (h.reach cur h.curSeen).tail (h.todoSucc x List.mem_cons_self)
      · exact h.reach x hx
    · intro x hx
      rcases List.mem_cons.mp hx with rfl | hx
      · exact List.mem_cons_self
      · exact List.mem_cons_of_mem _ (h.stacked x hx)
    · exact List.mem_cons_of_mem _ h.curSeen
    · exact fun y hy => h.todoSucc y (List.mem_cons_of_mem _ hy)
    · intro y hy
      rcases h.curClosed y hy with hy | hy
      · exact Or.inl (List.mem_cons_of_mem _ hy)
      · rcases List.mem_cons.mp hy with rfl | hy
        · exact Or.inl List.mem_cons_self
        · exact Or.inr hy
    · intro x hx hcur hstack y hy
      rcases List.mem_cons.mp hx with rfl | hx
      · exact absurd List.mem_cons_self hstack
      · exact List.mem_cons_of_mem _
          (h.closed x hx hcur (fun hc => hstack (List.mem_cons_of_mem _ hc)) y hy)

private theorem Mid.visits {succ : ι → List ι} {start cur : ι} (todo : List ι) {st : State ι}
    (h : Mid succ start cur todo st) : Mid succ start cur [] (todo.foldl visit st) := by
  induction todo generalizing st with
  | nil => exact h
  | cons next rest ih => exact ih h.push

/-- **One turn of the loop keeps the invariant.** -/
theorem Inv.turn {succ : ι → List ι} {start cur : ι} {rest : List ι} {st : State ι}
    (h : Inv succ start st) (hstack : st.stack = cur :: rest) :
    Inv succ start ((succ cur).foldl visit { st with stack := rest }) := by
  have hcur : cur ∈ st.visited := h.stacked cur (hstack ▸ List.mem_cons_self)
  have hmid : Mid succ start cur (succ cur) { st with stack := rest } := by
    refine ⟨h.seen, h.nodup, h.fresh, h.reach, ?_, hcur, fun y hy => hy, fun y hy => Or.inr hy, ?_⟩
    · exact fun x hx => h.stacked x (hstack ▸ List.mem_cons_of_mem _ hx)
    · intro x hx hne hnot y hy
      refine h.closed x hx ?_ y hy
      rw [hstack]
      intro hc
      rcases List.mem_cons.mp hc with hc | hc
      · exact hne hc
      · exact hnot hc
  have hend := hmid.visits
  refine ⟨hend.seen, hend.nodup, hend.fresh, hend.reach, hend.stacked, ?_⟩
  intro x hx hnot y hy
  by_cases hxc : x = cur
  · subst hxc
    rcases hend.curClosed y hy with hy | hy
    · exact hy
    · simp at hy
  · exact hend.closed x hx hxc hnot y hy

/-! ### The loop ends

Every node is pushed at most once, since it is seen from then on; a turn pops
one. So a list that holds all the nodes in question bounds the turns.
-/

private theorem visits_length (todo : List ι) (st : State ι) :
    (todo.foldl visit st).stack.length + st.result.length
      = st.stack.length + (todo.foldl visit st).result.length := by
  induction todo generalizing st with
  | nil => rfl
  | cons next rest ih =>
      have hrest := ih (visit st next)
      have hone : (visit st next).stack.length + st.result.length
          = st.stack.length + (visit st next).result.length := by
        unfold visit
        split
        · rfl
        · simp only [List.length_cons, List.length_append, List.length_nil]
          omega
      rw [List.foldl_cons]
      omega

omit [DecidableEq ι] in
theorem Inv.result_length {succ : ι → List ι} {start : ι} {st : State ι}
    (h : Inv succ start st) {nodes : List ι} (hnodes : ∀ x, ∀ y ∈ succ x, y ∈ nodes) :
    st.result.length ≤ nodes.length := by
  have hsub : ∀ x ∈ st.result, x ∈ nodes := by
    intro x hx
    rcases Relation.ReflTransGen.cases_tail (h.reach x ((h.seen x).mpr (Or.inr hx))) with
      hstart | ⟨y, -, hy⟩
    · exact absurd (hstart ▸ hx) h.fresh
    · exact hnodes y x hy
  exact (h.nodup.subperm hsub).length_le

/-- With one turn of fuel for every node that may still be pushed or popped, the search
ends with nothing left to expand. -/
theorem Inv.search {succ : ι → List ι} {start : ι} {nodes : List ι}
    (hnodes : ∀ x, ∀ y ∈ succ x, y ∈ nodes) :
    ∀ (fuel : Nat) (st : State ι), Inv succ start st →
      nodes.length + st.stack.length ≤ fuel + st.result.length →
      Inv succ start (search succ fuel st) ∧ (Closure.search succ fuel st).stack = [] := by
  intro fuel
  induction fuel with
  | zero =>
      intro st h hfuel
      have := h.result_length hnodes
      exact ⟨h, show st.stack = [] from List.length_eq_zero_iff.mp (by omega)⟩
  | succ fuel ih =>
      intro st h hfuel
      rw [Closure.search]
      cases hstack : st.stack with
      | nil => exact ⟨h, hstack⟩
      | cons cur rest =>
          refine ih _ (h.turn hstack) ?_
          have hlen := visits_length (succ cur) { st with stack := rest }
          rw [hstack, List.length_cons] at hfuel
          simp only at hlen
          omega

/-- A search that has ended stays as it is, whatever fuel is left. -/
theorem search_more (succ : ι → List ι) (more : Nat) :
    ∀ (fuel : Nat) (st : State ι), (search succ fuel st).stack = [] →
      search succ (fuel + more) st = search succ fuel st := by
  intro fuel
  induction fuel with
  | zero =>
      intro st hdone
      have hstack : st.stack = [] := hdone
      cases more with
      | zero => rfl
      | succ more =>
          rw [Nat.zero_add]
          simp only [search, hstack]
  | succ fuel ih =>
      intro st hdone
      rw [Nat.add_right_comm, search, search]
      rw [search] at hdone
      cases hstack : st.stack with
      | nil => rfl
      | cons cur rest =>
          rw [hstack] at hdone
          exact ih _ hdone

omit [DecidableEq ι] in
theorem inv_start (succ : ι → List ι) (start : ι) :
    Inv succ start { visited := [start], result := [], stack := [start] } := by
  refine ⟨by simp, List.nodup_nil, by simp, ?_, by simp, by simp⟩
  intro x hx
  rw [List.mem_singleton.mp hx]

/-- **The search of a closure ends**, and more fuel changes nothing. -/
theorem closure_ends (succ : ι → List ι) (nodes : List ι)
    (hnodes : ∀ x, ∀ y ∈ succ x, y ∈ nodes) (start : ι) (more : Nat) :
    (search succ (nodes.length + 1 + more) ⟨[start], [], [start]⟩).stack = [] ∧
      (search succ (nodes.length + 1 + more) ⟨[start], [], [start]⟩).result
        = closure succ (nodes.length + 1) start := by
  have hdone := ((inv_start succ start).search hnodes (nodes.length + 1) _ (by simp)).2
  rw [search_more succ more _ _ hdone]
  exact ⟨hdone, rfl⟩

/-- **The closure of a node is what it reaches**, each node once and without itself. -/
theorem closure_spec (succ : ι → List ι) (nodes : List ι)
    (hnodes : ∀ x, ∀ y ∈ succ x, y ∈ nodes) {fuel : Nat} (hfuel : nodes.length + 1 ≤ fuel)
    (start : ι) :
    (closure succ fuel start).Nodup ∧
    ∀ x, x ∈ closure succ fuel start ↔
      x ≠ start ∧ Relation.ReflTransGen (fun a b => b ∈ succ a) start x := by
  obtain ⟨hinv, hstack⟩ := (inv_start succ start).search hnodes fuel _ (by simpa using hfuel)
  refine ⟨hinv.nodup, ?_⟩
  have hall : ∀ y, Relation.ReflTransGen (fun a b => b ∈ succ a) start y →
      y ∈ (search succ fuel { visited := [start], result := [], stack := [start] }).visited := by
    intro y hy
    induction hy with
    | refl => exact (hinv.seen start).mpr (Or.inl rfl)
    | tail _ hstep ih => exact hinv.closed _ ih (by rw [hstack]; simp) _ hstep
  intro x
  constructor
  · intro hx
    exact ⟨fun hc => hinv.fresh (hc ▸ hx), hinv.reach x ((hinv.seen x).mpr (Or.inr hx))⟩
  · rintro ⟨hne, hreach⟩
    exact ((hinv.seen x).mp (hall x hreach)).resolve_left hne

end Closure
