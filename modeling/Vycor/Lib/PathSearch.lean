/-
Path search with a corridor and a memo of dead ends.

`distances` is a breadth-first search: the fewest steps to each node from a set of starts,
up to a bound.  `dfs` enumerates paths from a node to goal nodes, each path using a key at
most once.  It gives up on a node from which an earlier visit, no deeper than this one,
found that nothing can be reached.  Two reasons for failing say nothing about another visit
and are never remembered: a key that the current path already uses, and enough paths found.

What a problem adds is in `enter` and `take`: when to stop at a node or pass over an edge.
`Sound` says what they may do, in terms of goals, open nodes and admissible edges that only
get fewer with depth.  `dfs_finds` is the result: if a path of admissible edges through open
nodes leads to a goal without using a key twice, a path is found.  `dfs_finds_shortest`
supplies that path from a relation: along a shortest one no node comes twice.
-/
import Vycor.Lib.UMap
import Mathlib.Data.ENat.Lattice
import Mathlib.Data.List.Nodup
import Mathlib.Data.List.Infix
import Mathlib.Data.Nat.Find
import Mathlib.Data.Set.Card

namespace PathSearch

variable {ν ε κ : Type}

/-! ### Steps of a relation -/

/-- `x` can be reached from `s` in `n` steps. -/
inductive Steps (R : ν → ν → Prop) (s : ν) : Nat → ν → Prop
  | zero : Steps R s 0 s
  | succ {n : Nat} {x y : ν} : Steps R s n x → R x y → Steps R s (n + 1) y

theorem Steps.mono {R R' : ν → ν → Prop} (h : ∀ x y, R x y → R' x y) {s : ν} {n : Nat} {x : ν}
    (hx : Steps R s n x) : Steps R' s n x := by
  induction hx with
  | zero => exact Steps.zero
  | succ _ hstep ih => exact ih.succ (h _ _ hstep)

section Distances

variable [DecidableEq ν]

/-! ### Distances from the starts

Breadth first, in turns, up to a bound. What is used of the distances is only
that a node near enough to a start has one, and how large it is at most.
-/

/-- Enter a node that has no distance yet, and keep it for the next turn. -/
def reach (dist : Nat) (st : UMap ν Nat × List ν) (x : ν) : UMap ν Nat × List ν :=
  if (st.1.lookup x).isSome then st else (st.1.insert x dist, st.2 ++ [x])

/-- The loop, for `bound` turns or until there is nothing to expand. -/
def layers (succ : ν → List ν) : Nat → Nat → UMap ν Nat → List ν → UMap ν Nat
  | 0, _, m, _ => m
  | bound + 1, dist, m, frontier =>
    if frontier.isEmpty then m
    else
      let next := (frontier.flatMap succ).foldl (reach (dist + 1)) (m, [])
      layers succ bound (dist + 1) next.1 next.2

/-- How far each node within the bound is from the starts. -/
def distances (succ : ν → List ν) (bound : Nat) (starts : List ν) : UMap ν Nat :=
  layers succ bound 0 (starts.foldl (fun m x => (reach 0 (m, []) x).1) ∅) starts

/-- After `j` turns: distances are at most `j`, a node nearer than that has its successors
entered, and the nodes at distance `j` are still to be expanded. -/
structure Layered (succ : ν → List ν) (j : Nat) (m : UMap ν Nat) (frontier : List ν) : Prop where
  le : ∀ x d, m.lookup x = some d → d ≤ j
  closed : ∀ x d, m.lookup x = some d → d < j → ∀ y ∈ succ x, ∃ d' ≤ d + 1, m.lookup y = some d'
  last : ∀ x, m.lookup x = some j → x ∈ frontier

theorem reach_keeps {dist : Nat} {st : UMap ν Nat × List ν} {x y : ν} {d : Nat}
    (h : st.1.lookup y = some d) : (reach dist st x).1.lookup y = some d := by
  unfold reach
  split
  · exact h
  · rename_i hx
    have hne : y ≠ x := by
      rintro rfl
      exact hx (by rw [h]; rfl)
    rw [AList.lookup_insert_ne hne]
    exact h

theorem reach_new {dist : Nat} {st : UMap ν Nat × List ν} {x y : ν} {d : Nat}
    (h : (reach dist st x).1.lookup y = some d) :
    st.1.lookup y = some d ∨ (d = dist ∧ y ∈ (reach dist st x).2) := by
  unfold reach at h ⊢
  split at h
  · exact Or.inl h
  · rename_i hx
    rw [if_neg hx]
    by_cases hyx : y = x
    · subst hyx
      rw [AList.lookup_insert] at h
      exact Or.inr ⟨(Option.some.inj h).symm, by simp⟩
    · rw [AList.lookup_insert_ne hyx] at h
      exact Or.inl h

theorem reach_entered (dist : Nat) (st : UMap ν Nat × List ν) (x : ν) :
    ((reach dist st x).1.lookup x).isSome := by
  unfold reach
  split
  · assumption
  · rw [AList.lookup_insert]
    rfl

theorem reach_frontier {dist : Nat} {st : UMap ν Nat × List ν} {x y : ν} (h : y ∈ st.2) :
    y ∈ (reach dist st x).2 := by
  unfold reach
  split
  · exact h
  · exact List.mem_append_left _ h

/-- What entering a list of nodes does. -/
structure Reached (dist : Nat) (xs : List ν) (st st' : UMap ν Nat × List ν) : Prop where
  keeps : ∀ y d, st.1.lookup y = some d → st'.1.lookup y = some d
  new : ∀ y d, st'.1.lookup y = some d → st.1.lookup y = some d ∨ (d = dist ∧ y ∈ st'.2)
  entered : ∀ x ∈ xs, (st'.1.lookup x).isSome
  frontier : ∀ y ∈ st.2, y ∈ st'.2

theorem foldl_reach (dist : Nat) (xs : List ν) (st : UMap ν Nat × List ν) :
    Reached dist xs st (xs.foldl (reach dist) st) := by
  induction xs generalizing st with
  | nil => exact ⟨fun _ _ h => h, fun _ _ h => Or.inl h, by simp, fun _ h => h⟩
  | cons x rest ih =>
      have hrest := ih (reach dist st x)
      rw [List.foldl_cons]
      refine ⟨?_, ?_, ?_, ?_⟩
      · intro y d h
        exact hrest.keeps y d (reach_keeps h)
      · intro y d h
        rcases hrest.new y d h with h | h
        · rcases reach_new h with h | ⟨hd, hy⟩
          · exact Or.inl h
          · exact Or.inr ⟨hd, hrest.frontier y hy⟩
        · exact Or.inr h
      · intro y hy
        rcases List.mem_cons.mp hy with rfl | hy
        · obtain ⟨d, hd⟩ := Option.isSome_iff_exists.mp (reach_entered dist st y)
          rw [hrest.keeps y d hd]
          rfl
        · exact hrest.entered y hy
      · intro y hy
        exact hrest.frontier y (reach_frontier hy)

/-- One turn. -/
theorem Layered.turn {succ : ν → List ν} {j : Nat} {m : UMap ν Nat} {frontier : List ν}
    (h : Layered succ j m frontier) :
    Layered succ (j + 1) ((frontier.flatMap succ).foldl (reach (j + 1)) (m, [])).1
      ((frontier.flatMap succ).foldl (reach (j + 1)) (m, [])).2 := by
  have hr := foldl_reach (j + 1) (frontier.flatMap succ) (m, [])
  generalize (frontier.flatMap succ).foldl (reach (j + 1)) (m, []) = st at hr ⊢
  have hle : ∀ x d, st.1.lookup x = some d → d ≤ j + 1 := by
    intro x d hx
    rcases hr.new x d hx with hx | ⟨hd, -⟩
    · exact Nat.le_succ_of_le (h.le x d hx)
    · exact hd.le
  refine ⟨hle, ?_, ?_⟩
  · intro x d hx hd y hy
    have hold : m.lookup x = some d := by
      rcases hr.new x d hx with hx | ⟨hd', -⟩
      · exact hx
      · exact absurd hd' (Nat.ne_of_lt hd)
    by_cases hlast : d = j
    · subst hlast
      have hmem : y ∈ frontier.flatMap succ := List.mem_flatMap.mpr ⟨x, h.last x hold, hy⟩
      obtain ⟨d', hd'⟩ := Option.isSome_iff_exists.mp (hr.entered y hmem)
      exact ⟨d', hle y d' hd', hd'⟩
    · obtain ⟨d', hd', hy'⟩ := h.closed x d hold (by omega) y hy
      exact ⟨d', hd', hr.keeps y d' hy'⟩
  · intro x hx
    rcases hr.new x _ hx with hx | ⟨-, hx⟩
    · exact absurd (h.le x _ hx) (by omega)
    · exact hx

/-- The loop ends with every node entered that few enough steps reach. -/
theorem Layered.layers {succ : ν → List ν} {s : ν} (bound : Nat) {j : Nat} {m : UMap ν Nat}
    {frontier : List ν} (h : Layered succ j m frontier) (hs : m.lookup s = some 0) {n : Nat} {x : ν}
    (hx : Steps (fun x y => y ∈ succ x) s n x) (hn : n ≤ j + bound) :
    ∃ d ≤ n, (layers succ bound j m frontier).lookup x = some d := by
  -- Where nodes nearer than `n` have their successors entered, so has `x`.
  have hwalk : ∀ (m : UMap ν Nat), m.lookup s = some 0 →
      (∀ y d, m.lookup y = some d → d < n → ∀ z ∈ succ y, ∃ d' ≤ d + 1, m.lookup z = some d') →
      ∃ d ≤ n, m.lookup x = some d := by
    intro m hs hclosed
    have hall : ∀ k y, Steps (fun x y => y ∈ succ x) s k y → k ≤ n → ∃ d ≤ k, m.lookup y = some d := by
      intro k y hy
      induction hy with
      | zero => exact fun _ => ⟨0, Nat.le_refl 0, hs⟩
      | succ hy hz ih =>
          intro hk
          obtain ⟨d, hd, hlookup⟩ := ih (by omega)
          obtain ⟨d', hd', hz'⟩ := hclosed _ d hlookup (by omega) _ hz
          exact ⟨d', by omega, hz'⟩
    exact hall n x hx (Nat.le_refl n)
  induction bound generalizing j m frontier with
  | zero => exact hwalk m hs fun y d hy hd => h.closed y d hy (by omega)
  | succ bound ih =>
      rw [PathSearch.layers]
      by_cases hempty : frontier.isEmpty = true
      · rw [if_pos hempty]
        refine hwalk m hs fun y d hy _ => h.closed y d hy ?_
        refine Nat.lt_of_le_of_ne (h.le y d hy) ?_
        rintro rfl
        rw [List.isEmpty_iff.mp hempty] at h
        exact absurd (h.last y hy) List.not_mem_nil
      · rw [if_neg hempty]
        have hr := foldl_reach (j + 1) (frontier.flatMap succ) (m, [])
        exact ih h.turn (hr.keeps s 0 hs) (by omega)

/-- The map the loop begins with holds the starts, at distance 0. -/
theorem start_distances {starts : List ν} (xs : List ν) {m : UMap ν Nat}
    (hsub : ∀ x ∈ xs, x ∈ starts) (hm : ∀ x d, m.lookup x = some d → d = 0 ∧ x ∈ starts) :
    (∀ x d, (xs.foldl (fun m x => (reach 0 (m, []) x).1) m).lookup x = some d → d = 0 ∧ x ∈ starts) ∧
    ∀ x, (x ∈ xs ∨ (m.lookup x).isSome) →
      ((xs.foldl (fun m x => (reach 0 (m, []) x).1) m).lookup x).isSome := by
  induction xs generalizing m with
  | nil =>
      refine ⟨hm, fun x hx => ?_⟩
      exact hx.resolve_left List.not_mem_nil
  | cons x rest ih =>
      have hm' : ∀ y d, (reach 0 (m, []) x).1.lookup y = some d → d = 0 ∧ y ∈ starts := by
        intro y d hy
        rcases reach_new hy with hy | ⟨hd, hmem⟩
        · exact hm y d hy
        · refine ⟨hd, ?_⟩
          unfold reach at hmem
          split at hmem
          · exact absurd hmem List.not_mem_nil
          · rw [List.nil_append] at hmem
            rw [List.mem_singleton.mp hmem]
            exact hsub x List.mem_cons_self
      obtain ⟨hval, hin⟩ := ih (fun y hy => hsub y (List.mem_cons_of_mem _ hy)) hm'
      refine ⟨hval, fun y hy => ?_⟩
      apply hin y
      rcases hy with hy | hy
      · rcases List.mem_cons.mp hy with rfl | hy
        · exact Or.inr (reach_entered 0 _ y)
        · exact Or.inl hy
      · obtain ⟨d, hd⟩ := Option.isSome_iff_exists.mp hy
        exact Or.inr (by rw [reach_keeps hd]; rfl)

/-- **A node that some start reaches in few enough steps has a distance of at most that.** -/
theorem distances_le {succ : ν → List ν} {bound : Nat} {starts : List ν} {s : ν} (hs : s ∈ starts)
    {n : Nat} {x : ν} (hx : Steps (fun x y => y ∈ succ x) s n x) (hn : n ≤ bound) :
    ∃ d ≤ n, (distances succ bound starts).lookup x = some d := by
  obtain ⟨hval, hin⟩ := start_distances starts (m := ∅) (fun _ hx => hx) fun x d hx =>
    absurd hx (by simp)
  have hstart : Layered succ 0 (starts.foldl (fun m x => (reach 0 (m, []) x).1) ∅) starts := by
    refine ⟨fun x d hx => (hval x d hx).1.le, fun x d _ hd => absurd hd (Nat.not_lt_zero d),
      fun x hx => (hval x 0 hx).2⟩
  obtain ⟨d, hd⟩ := Option.isSome_iff_exists.mp (hin s (Or.inl hs))
  have hzero := (hval s d hd).1
  subst hzero
  exact hstart.layers bound hd hx (by omega)

/-- Without a turn only the starts have a distance. -/
theorem distances_zero {succ : ν → List ν} {starts : List ν} {x : ν} {d : Nat}
    (h : (distances succ 0 starts).lookup x = some d) : x ∈ starts :=
  ((start_distances starts (fun _ hx => hx) fun x d hx => absurd hx (by simp)).1 x d h).2

end Distances

/-! ### Search from the far end

The search goes depth first over the edges of a node in order. It remembers
nodes from which nothing was found, at the least depth that was tried, and does
not enter them again at that depth or deeper.
-/

/-- What to do on reaching a node. -/
inductive Enter
  | stop
  /-- Pass over the node and note it; `remember` says whether as a dead end too. -/
  | skip (remember : Bool)
  | goal
  | expand

/-- What to do about an edge. -/
inductive Take
  | pass
  /-- The current path uses its key. -/
  | blocked
  | go

/-- A search for paths: the edges, and what the search does at a node and at an edge. -/
structure Problem (ν ε κ : Type) where
  edges : ν → List ε
  next : ε → ν
  key : ε → κ
  /-- At a depth and a node, with the depth the node is remembered at. -/
  enter : Nat → ν → Option Nat → Enter
  /-- With the keys in use, at a depth. -/
  take : List κ → Nat → ε → Take
  maxPaths : Nat

/-- What a search under way carries from one branch into the next. -/
structure State (ν ε : Type) where
  /-- The goals found, each with the edges from it to where the search began. -/
  found : List (ν × List ε) := []
  deadAt : UMap ν Nat := ∅
  skipped : List ν := []

/-- How a visit went. -/
structure Outcome where
  found : Bool := false
  /-- Something was left out that another visit might reach. -/
  blocked : Bool := false

/-- What two branches say together. -/
def Outcome.join (o o' : Outcome) : Outcome :=
  { found := o.found || o'.found, blocked := o.blocked || o'.blocked }

/-- Remember a dead end at the least depth it was seen at. -/
def State.remember [DecidableEq ν] (st : State ν ε) (node : ν) (depth : Nat) : State ν ε :=
  match st.deadAt.lookup node with
  | none => { st with deadAt := st.deadAt.insert node depth }
  | some d => if depth < d then { st with deadAt := st.deadAt.insert node depth } else st

/-- A node is marked as passed over, once. -/
def State.skip [DecidableEq ν] (st : State ν ε) (node : ν) : State ν ε :=
  if node ∈ st.skipped then st else { st with skipped := st.skipped ++ [node] }

/-- Visit the edges of a node in order, until enough paths are found. -/
def expand (maxPaths : Nat) (take : ε → Take) (visit : ε → State ν ε → State ν ε × Outcome) :
    List ε → State ν ε → Outcome → State ν ε × Outcome
  | [], st, o => (st, o)
  | e :: rest, st, o =>
    match take e with
    | .pass => expand maxPaths take visit rest st o
    | .blocked => expand maxPaths take visit rest st { o with blocked := true }
    | .go =>
      let r := visit e st
      if maxPaths ≤ r.1.found.length then (r.1, { o.join r.2 with blocked := true })
      else expand maxPaths take visit rest r.1 (o.join r.2)

variable [DecidableEq ν] (p : Problem ν ε κ)

/-- The search from `node`: `used` are the keys on the path to it and `taken` its edges, the
last one first. -/
def dfs : Nat → Nat → ν → List κ → List ε → State ν ε → State ν ε × Outcome
  | 0, _, _, _, _, st => (st, {})
  | fuel + 1, depth, node, used, taken, st =>
    if p.maxPaths ≤ st.found.length then (st, { blocked := true })
    else
      match p.enter depth node (st.deadAt.lookup node) with
      | .stop => (st, {})
      | .skip remember => (if remember then (st.skip node).remember node depth else st.skip node, {})
      | .goal => ({ st with found := st.found ++ [(node, taken)] }, { found := true })
      | .expand =>
        let visit := fun e st => dfs fuel (depth + 1) (p.next e) (p.key e :: used) (e :: taken) st
        let r := expand p.maxPaths (p.take used depth) visit (p.edges node) st {}
        if r.2.found || r.2.blocked then r else (r.1.remember node depth, r.2)

/-! ### What a search covers

A dead end is remembered only when it was not the path itself that stood in the
way. The proofs therefore carry a flag along: whether some edge was passed over
for its key.
-/

section Covers

variable (goal isOpen : Nat → ν → Prop) (ok : Nat → ε → Prop)

/-- A path of admissible edges through open nodes from a node to a goal. -/
inductive Run : Nat → ν → List ε → Prop
  | goal {d : Nat} {n : ν} : goal d n → Run d n []
  | edge {d : Nat} {n : ν} {e : ε} {rest : List ε} : isOpen d n → e ∈ p.edges n → ok d e →
      Run (d + 1) (p.next e) rest → Run d n (e :: rest)

/-- What a problem may leave out: nothing but what is no goal, not open or not admissible,
or was tried before, or uses a key again. -/
structure Sound (maxDepth : Nat) : Prop where
  stop : ∀ {d n memo}, p.enter d n memo = .stop →
    (∃ k ≤ d, memo = some k) ∨ (¬ goal d n ∧ ¬ isOpen d n)
  skip : ∀ {d n memo r}, p.enter d n memo = .skip r → ¬ goal d n ∧ ¬ isOpen d n
  expand : ∀ {d n memo}, p.enter d n memo = .expand → ¬ goal d n
  pass : ∀ {used d e}, p.take used d e = .pass → ¬ ok d e
  blocked : ∀ {used d e}, p.take used d e = .blocked → p.key e ∈ used ∨ ¬ ok d e
  go : ∀ {used d e}, p.take used d e = .go → d < maxDepth
  goal_anti : ∀ {d d' n}, d ≤ d' → goal d' n → goal d n
  open_anti : ∀ {d d' n}, d ≤ d' → isOpen d' n → isOpen d n
  ok_anti : ∀ {d d' e}, d ≤ d' → ok d' e → ok d e

variable {p goal isOpen ok} {maxDepth : Nat}

omit [DecidableEq ν] in
/-- What is sound for the open nodes is sound for some of them. -/
theorem Sound.narrow {isOpen' : Nat → ν → Prop} (hs : Sound p goal isOpen ok maxDepth)
    (only : ν → Prop) (hopen : ∀ d n, isOpen' d n ↔ isOpen d n ∧ only n) :
    Sound p goal isOpen' ok maxDepth where
  stop h := (hs.stop h).imp_right fun hno => ⟨hno.1, fun ho => hno.2 ((hopen _ _).mp ho).1⟩
  skip h := ⟨(hs.skip h).1, fun ho => (hs.skip h).2 ((hopen _ _).mp ho).1⟩
  expand := hs.expand
  pass := hs.pass
  blocked := hs.blocked
  go := hs.go
  goal_anti := hs.goal_anti
  open_anti hle ho :=
    (hopen _ _).mpr ⟨hs.open_anti hle ((hopen _ _).mp ho).1, ((hopen _ _).mp ho).2⟩
  ok_anti := hs.ok_anti

omit [DecidableEq ν] in
/-- A path that can be completed late can be completed early. -/
theorem Run.earlier (hs : Sound p goal isOpen ok maxDepth) {d d' : Nat} {n : ν} {run : List ε}
    (hrun : Run p goal isOpen ok d' n run) (h : d ≤ d') : Run p goal isOpen ok d n run := by
  induction hrun generalizing d with
  | goal hgoal => exact Run.goal (hs.goal_anti h hgoal)
  | edge hopen he hok _ ih =>
      exact Run.edge (hs.open_anti h hopen) he (hs.ok_anti h hok) (ih (Nat.succ_le_succ h))

/-- What is remembered leads nowhere. -/
def Dead (p : Problem ν ε κ) (goal isOpen : Nat → ν → Prop) (ok : Nat → ε → Prop)
    (st : State ν ε) : Prop :=
  ∀ n k, st.deadAt.lookup n = some k → ∀ run, ¬ Run p goal isOpen ok k n run

theorem Dead.remember {st : State ν ε} (h : Dead p goal isOpen ok st) {n : ν} {d : Nat}
    (hn : ∀ run, ¬ Run p goal isOpen ok d n run) : Dead p goal isOpen ok (st.remember n d) := by
  have hinsert : ∀ n' k, (AList.insert n d st.deadAt).lookup n' = some k →
      ∀ run, ¬ Run p goal isOpen ok k n' run := by
    intro n' k hk
    rw [UMap.lookup_insert_ite] at hk
    split at hk
    · rename_i heq
      subst heq
      cases hk
      exact hn
    · exact h n' k hk
  unfold State.remember
  split
  · exact hinsert
  · split
    · exact hinsert
    · exact h

@[simp] theorem State.remember_found (st : State ν ε) (n : ν) (d : Nat) :
    (st.remember n d).found = st.found := by
  unfold State.remember
  split
  · rfl
  · split <;> rfl

@[simp] theorem State.skip_found (st : State ν ε) (n : ν) : (st.skip n).found = st.found := by
  unfold State.skip
  split <;> rfl

@[simp] theorem State.skip_deadAt (st : State ν ε) (n : ν) : (st.skip n).deadAt = st.deadAt := by
  unfold State.skip
  split <;> rfl

omit [DecidableEq ν] in
theorem expand_grows (maxPaths : Nat) (take : ε → Take)
    {visit : ε → State ν ε → State ν ε × Outcome}
    (hvisit : ∀ e st, st.found <+: (visit e st).1.found) (es : List ε) (st : State ν ε)
    (o : Outcome) : st.found <+: (expand maxPaths take visit es st o).1.found := by
  induction es generalizing st o with
  | nil => exact List.prefix_rfl
  | cons e rest ih =>
      rw [PathSearch.expand]
      cases take e with
      | pass => exact ih st o
      | blocked => exact ih st _
      | go =>
          dsimp only
          split
          · exact hvisit e st
          · exact (hvisit e st).trans (ih _ _)

/-- Paths are only added. -/
theorem dfs_grows (fuel : Nat) (d : Nat) (n : ν) (used : List κ) (taken : List ε)
    (st : State ν ε) : st.found <+: (dfs p fuel d n used taken st).1.found := by
  induction fuel generalizing d n used taken st with
  | zero => exact List.prefix_rfl
  | succ fuel ih =>
      rw [dfs]
      split
      · exact List.prefix_rfl
      · split
        · exact List.prefix_rfl
        · split
          · rw [State.remember_found, State.skip_found]
          · rw [State.skip_found]
        · exact List.prefix_append _ _
        · have hexpand := expand_grows p.maxPaths (p.take used d)
            (fun e st => ih (d + 1) (p.next e) (p.key e :: used) (e :: taken) st) (p.edges n) st {}
          dsimp only
          split
          · exact hexpand
          · rw [State.remember_found]
            exact hexpand

/-- The loop over the edges, when nothing is found: what each visit rules out (`A`, and `B`
where it was not blocked), the loop rules out for every edge. -/
theorem expand_none {maxPaths : Nat} (hmax : 0 < maxPaths) (take : ε → Take)
    (visit : ε → State ν ε → State ν ε × Outcome) (A B : ε → Prop) (hAB : ∀ e, B e → A e)
    (hpass : ∀ e, take e = .pass → B e) (hblocked : ∀ e, take e = .blocked → A e)
    (hgrows : ∀ e st, st.found <+: (visit e st).1.found)
    (hgo : ∀ e st, take e = .go → Dead p goal isOpen ok st → (visit e st).1.found = [] →
      Dead p goal isOpen ok (visit e st).1 ∧ A e ∧ ((visit e st).2.blocked = false → B e))
    (es : List ε) (o : Outcome) {st : State ν ε} (hst : Dead p goal isOpen ok st)
    (hnone : (expand maxPaths take visit es st o).1.found = []) :
    Dead p goal isOpen ok (expand maxPaths take visit es st o).1 ∧ (∀ e ∈ es, A e) ∧
      ((expand maxPaths take visit es st o).2.blocked = false →
        o.blocked = false ∧ ∀ e ∈ es, B e) := by
  induction es generalizing st o with
  | nil => exact ⟨hst, by simp, fun h => ⟨h, by simp⟩⟩
  | cons e rest ih =>
      rw [PathSearch.expand] at hnone ⊢
      cases htake : take e with
      | pass =>
          rw [htake] at hnone
          obtain ⟨hdead, hA, hB⟩ := ih _ hst hnone
          refine ⟨hdead, ?_, fun hb => ⟨(hB hb).1, ?_⟩⟩
          · exact List.forall_mem_cons.mpr ⟨hAB e (hpass e htake), hA⟩
          · exact List.forall_mem_cons.mpr ⟨hpass e htake, (hB hb).2⟩
      | blocked =>
          rw [htake] at hnone
          obtain ⟨hdead, hA, hB⟩ := ih _ hst hnone
          refine ⟨hdead, List.forall_mem_cons.mpr ⟨hblocked e htake, hA⟩, fun hb => ?_⟩
          exact absurd (hB hb).1 (by simp)
      | go =>
          rw [htake] at hnone
          dsimp only at hnone ⊢
          split at hnone
          · rename_i hfull
            rw [hnone] at hfull
            exact absurd hfull (by simpa using hmax.ne')
          · rename_i hmore
            rw [if_neg hmore]
            have hvisit : (visit e st).1.found = [] :=
              List.prefix_nil.mp (hnone ▸ expand_grows maxPaths take hgrows rest _ _)
            obtain ⟨hdead', hAe, hBe⟩ := hgo e st htake hst hvisit
            obtain ⟨hdead, hA, hB⟩ := ih _ hdead' hnone
            refine ⟨hdead, List.forall_mem_cons.mpr ⟨hAe, hA⟩, fun hb => ?_⟩
            obtain ⟨ho, hrest⟩ := hB hb
            rw [Outcome.join, Bool.or_eq_false_iff] at ho
            exact ⟨ho.1, List.forall_mem_cons.mpr ⟨hBe ho.2, hrest⟩⟩

/-- A path that uses no key twice, and none of those in use. -/
def Fresh (p : Problem ν ε κ) (used : List κ) (run : List ε) : Prop :=
  (run.map p.key).Nodup ∧ ∀ e ∈ run, p.key e ∉ used

omit [DecidableEq ν] in
theorem Fresh.tail {used : List κ} {e : ε} {rest : List ε} (h : Fresh p used (e :: rest)) :
    Fresh p (p.key e :: used) rest := by
  obtain ⟨hnodup, hused⟩ := h
  obtain ⟨hnot, hrest⟩ := List.nodup_cons.mp (List.map_cons ▸ hnodup)
  refine ⟨hrest, fun e' he' => ?_⟩
  rw [List.mem_cons, not_or]
  refine ⟨fun heq => hnot (heq ▸ List.mem_map_of_mem he'), hused e' (List.mem_cons_of_mem _ he')⟩

omit [DecidableEq ν] in
theorem Fresh.cons {used : List κ} {e : ε} {rest : List ε} (h : Fresh p (p.key e :: used) rest)
    (he : p.key e ∉ used) : Fresh p used (e :: rest) := by
  obtain ⟨hnodup, hused⟩ := h
  refine ⟨?_, ?_⟩
  · rw [List.map_cons, List.nodup_cons]
    refine ⟨fun hmem => ?_, hnodup⟩
    obtain ⟨e', he', heq⟩ := List.mem_map.mp hmem
    exact hused e' he' (heq ▸ List.mem_cons_self)
  · refine List.forall_mem_cons.mpr ⟨he, fun e' he' hmem => ?_⟩
    exact hused e' he' (List.mem_cons_of_mem _ hmem)

/-- A visit that leaves nothing found: what it remembers is dead, no fresh path starts at the
node, and where it was not blocked no path does. -/
theorem dfs_none (hs : Sound p goal isOpen ok maxDepth) (hmax : 0 < p.maxPaths) (fuel : Nat)
    {d : Nat} {n : ν} {used : List κ} {taken : List ε} {st : State ν ε} (hd : d ≤ maxDepth)
    (hfuel : maxDepth < d + fuel) (hst : Dead p goal isOpen ok st)
    (hnone : (dfs p fuel d n used taken st).1.found = []) :
    Dead p goal isOpen ok (dfs p fuel d n used taken st).1 ∧
    (∀ run, Fresh p used run → ¬ Run p goal isOpen ok d n run) ∧
    ((dfs p fuel d n used taken st).2.blocked = false → ∀ run, ¬ Run p goal isOpen ok d n run) := by
  induction fuel generalizing d n used taken st with
  | zero => omega
  | succ fuel ih =>
      rw [dfs] at hnone ⊢
      split at hnone
      · rename_i hfull
        rw [hnone] at hfull
        exact absurd hfull (by simpa using hmax.ne')
      rename_i hmore
      rw [if_neg hmore]
      have hclosed : ¬ goal d n ∧ ¬ isOpen d n → ∀ run, ¬ Run p goal isOpen ok d n run := by
        rintro ⟨hgoal, hopen⟩ run hrun
        cases hrun with
        | goal h => exact hgoal h
        | edge h => exact hopen h
      cases henter : p.enter d n (st.deadAt.lookup n) with
      | stop =>
          have hno : ∀ run, ¬ Run p goal isOpen ok d n run := by
            rcases hs.stop henter with ⟨k, hk, hmemo⟩ | h
            · exact fun run hrun => hst n k hmemo run (hrun.earlier hs hk)
            · exact hclosed h
          exact ⟨hst, fun run _ => hno run, fun _ => hno⟩
      | skip remember =>
          have hno := hclosed (hs.skip henter)
          refine ⟨?_, fun run _ => hno run, fun _ => hno⟩
          have hskip : Dead p goal isOpen ok (st.skip n) := by
            unfold Dead
            rw [State.skip_deadAt]
            exact hst
          dsimp only
          split
          · exact hskip.remember hno
          · exact hskip
      | goal =>
          rw [henter] at hnone
          exact absurd hnone (by simp)
      | expand =>
          rw [henter] at hnone
          dsimp only at hnone ⊢
          -- `A`: no fresh path goes on over the edge; `B`: no path does.
          have hloop := expand_none hmax (p.take used d)
            (fun e st => dfs p fuel (d + 1) (p.next e) (p.key e :: used) (e :: taken) st)
            (fun e => ok d e → p.key e ∉ used → ∀ run, Fresh p (p.key e :: used) run →
              ¬ Run p goal isOpen ok (d + 1) (p.next e) run)
            (fun e => ok d e → ∀ run, ¬ Run p goal isOpen ok (d + 1) (p.next e) run)
            (fun e hB hok _ run _ => hB hok run)
            (fun e htake hok => absurd hok (hs.pass htake))
            (fun e htake hok hkey => (hs.blocked htake).elim (absurd · hkey) (absurd hok ·))
            (fun e st => dfs_grows fuel (d + 1) (p.next e) _ _ st)
            (by
              intro e st htake hst hnone
              have hlt := hs.go htake
              obtain ⟨hdead, hfresh, hall⟩ := ih (by omega) (by omega) hst hnone
              exact ⟨hdead, fun _ _ => hfresh, fun hb _ => hall hb⟩)
            (p.edges n) {} hst
          generalize expand p.maxPaths (p.take used d) _ (p.edges n) st {} = r at hloop hnone ⊢
          have hfound : r.1.found = [] := by
            split at hnone
            · exact hnone
            · rwa [State.remember_found] at hnone
          obtain ⟨hdead, hA, hB⟩ := hloop hfound
          have hfresh : ∀ run, Fresh p used run → ¬ Run p goal isOpen ok d n run := by
            intro run hfresh hrun
            cases hrun with
            | goal h => exact hs.expand henter h
            | edge _ he hok hrest =>
                exact hA _ he hok (hfresh.2 _ List.mem_cons_self) _ hfresh.tail hrest
          have hall : r.2.blocked = false → ∀ run, ¬ Run p goal isOpen ok d n run := by
            intro hb run hrun
            cases hrun with
            | goal h => exact hs.expand henter h
            | edge _ he hok hrest => exact (hB hb).2 _ he hok _ hrest
          split
          · exact ⟨hdead, hfresh, hall⟩
          · rename_i hflags
            rw [Bool.not_eq_true, Bool.or_eq_false_iff] at hflags
            exact ⟨hdead.remember (hall hflags.2), hfresh, hall⟩

/-- **If a fresh path leads to a goal, the search finds one.** -/
theorem dfs_finds (hs : Sound p goal isOpen ok maxDepth) (hmax : 0 < p.maxPaths) {n : ν}
    {used : List κ} {run : List ε} (hrun : Run p goal isOpen ok 0 n run) (hfresh : Fresh p used run) :
    (dfs p (maxDepth + 1) 0 n used [] {}).1.found ≠ [] := by
  intro hnone
  have hempty : Dead p goal isOpen ok ({} : State ν ε) := fun n k hk => absurd hk (by simp)
  obtain ⟨-, hno, -⟩ := dfs_none hs hmax (maxDepth + 1) (Nat.zero_le _) (by omega) hempty hnone
  exact hno run hfresh hrun

/-! ### What a search lists

The same for the list of paths: a visit lists the fresh paths from its node, in
order and until there are enough.
-/

/-- A sound problem that goes on exactly from open nodes over admissible edges, so that a path
ends at its first goal. -/
structure Exact (p : Problem ν ε κ) (goal isOpen : Nat → ν → Prop) (ok : Nat → ε → Prop)
    (maxDepth : Nat) : Prop extends Sound p goal isOpen ok maxDepth where
  ends : ∀ {d n memo}, p.enter d n memo = .goal → goal d n ∧ ¬ isOpen d n
  opens : ∀ {d n memo}, p.enter d n memo = .expand → isOpen d n
  admits : ∀ {used d e}, p.take used d e = .go → ok d e ∧ p.key e ∉ used

/-- `runs` are what was added to the paths found: each is in `S`, none comes twice, and
unless enough were found they are all of `S`. -/
structure Lists (maxPaths : Nat) (entry : List ε → ν × List ε) (S : List ε → Prop)
    (st st' : State ν ε) (runs : List (List ε)) : Prop where
  found : st'.found = st.found ++ runs.map entry
  nodup : runs.Nodup
  sound : ∀ run ∈ runs, S run
  complete : st'.found.length < maxPaths → ∀ run, S run → run ∈ runs
  bounded : st.found.length ≤ maxPaths → st'.found.length ≤ maxPaths

omit [DecidableEq ν] in
theorem Lists.none {maxPaths : Nat} {entry : List ε → ν × List ε} {S : List ε → Prop}
    {st st' : State ν ε} (hfound : st'.found = st.found)
    (h : st'.found.length < maxPaths → ∀ run, ¬ S run) : Lists maxPaths entry S st st' [] := by
  refine ⟨by simp [hfound], List.nodup_nil, by simp, ?_, ?_⟩
  · intro hlt run hrun
    exact absurd hrun (h hlt run)
  · rw [hfound]
    exact id

omit [DecidableEq ν] in
theorem Lists.one {maxPaths : Nat} {entry : List ε → ν × List ε} {S : List ε → Prop}
    {st st' : State ν ε} {run : List ε} (hroom : st.found.length < maxPaths)
    (hfound : st'.found = st.found ++ [entry run]) (h : ∀ run', S run' ↔ run' = run) :
    Lists maxPaths entry S st st' [run] := by
  refine ⟨hfound, List.nodup_singleton run, ?_, ?_, ?_⟩
  · intro run' hrun'
    exact (h run').mpr (List.mem_singleton.mp hrun')
  · intro _ run' hrun'
    exact List.mem_singleton.mpr ((h run').mp hrun')
  · intro _
    rw [hfound, List.length_append, List.length_singleton]
    omega

omit [DecidableEq ν] in
theorem Lists.length_le {maxPaths : Nat} {entry : List ε → ν × List ε} {S : List ε → Prop}
    {st st' : State ν ε} {runs : List (List ε)} (h : Lists maxPaths entry S st st' runs) :
    st.found.length ≤ st'.found.length := by
  rw [h.found, List.length_append]
  omega

omit [DecidableEq ν] in
/-- One visit after another. -/
theorem Lists.append {maxPaths : Nat} {entry : List ε → ν × List ε} {S S' : List ε → Prop}
    {st st' st'' : State ν ε} {runs runs' : List (List ε)} (h : Lists maxPaths entry S st st' runs)
    (h' : Lists maxPaths entry S' st' st'' runs') (hdisjoint : ∀ run, S run → ¬ S' run) :
    Lists maxPaths entry (fun run => S run ∨ S' run) st st'' (runs ++ runs') := by
  refine ⟨?_, ?_, ?_, ?_, ?_⟩
  · rw [h'.found, h.found, List.map_append, List.append_assoc]
  · rw [List.nodup_append]
    refine ⟨h.nodup, h'.nodup, fun run hrun run' hrun' heq => ?_⟩
    subst heq
    exact hdisjoint run (h.sound run hrun) (h'.sound run hrun')
  · intro run hrun
    rcases List.mem_append.mp hrun with hrun | hrun
    · exact Or.inl (h.sound run hrun)
    · exact Or.inr (h'.sound run hrun)
  · intro hlt run hrun
    have hlt' : st'.found.length < maxPaths := lt_of_le_of_lt h'.length_le hlt
    rcases hrun with hrun | hrun
    · exact List.mem_append_left _ (h.complete hlt' run hrun)
    · exact List.mem_append_right _ (h'.complete hlt run hrun)
  · intro hle
    exact h'.bounded (h.bounded hle)

omit [DecidableEq ν] in
theorem Lists.congr {maxPaths : Nat} {entry : List ε → ν × List ε} {S S' : List ε → Prop}
    {st st' : State ν ε} {runs : List (List ε)} (h : Lists maxPaths entry S st st' runs)
    (hiff : ∀ run, S' run ↔ S run) : Lists maxPaths entry S' st st' runs := by
  obtain rfl : S' = S := funext fun run => propext (hiff run)
  exact h

omit [DecidableEq ν] in
/-- The paths on from a node, listed as paths that begin with an edge to it. -/
theorem Lists.cons {maxPaths : Nat} {entry : List ε → ν × List ε} {S : List ε → Prop}
    {st st' : State ν ε} {runs : List (List ε)} {e : ε}
    (h : Lists maxPaths (fun rest => entry (e :: rest)) S st st' runs) :
    Lists maxPaths entry (fun run => ∃ rest, run = e :: rest ∧ S rest) st st'
      (runs.map (e :: ·)) := by
  refine ⟨?_, h.nodup.map fun _ _ heq => (List.cons.inj heq).2, ?_, ?_, h.bounded⟩
  · rw [h.found, List.map_map]
    rfl
  · intro run hrun
    obtain ⟨rest, hrest, rfl⟩ := List.mem_map.mp hrun
    exact ⟨rest, rfl, h.sound rest hrest⟩
  · rintro hlt _ ⟨rest, rfl, hrest⟩
    exact List.mem_map_of_mem (h.complete hlt rest hrest)

/-- The loop over the edges lists the paths over each of them (`T`).  Where it found nothing
and was not blocked, neither was any visit (`B`). -/
theorem expand_lists {maxPaths : Nat} (take : ε → Take)
    (visit : ε → State ν ε → State ν ε × Outcome) (entry : List ε → ν × List ε)
    (T : ε → List ε → Prop) (B : ε → Prop)
    (hpass : ∀ e, take e = .pass → B e ∧ ∀ rest, ¬ T e rest)
    (hblocked : ∀ e, take e = .blocked → ∀ rest, ¬ T e rest)
    (hgo : ∀ e st, take e = .go → Dead p goal isOpen ok st →
      (∃ runs, Lists maxPaths (fun rest => entry (e :: rest)) (T e) st (visit e st).1 runs) ∧
      Dead p goal isOpen ok (visit e st).1 ∧
      ((visit e st).2.found = false → (visit e st).2.blocked = false → B e))
    (es : List ε) (hes : es.Nodup) (o : Outcome) {st : State ν ε}
    (hst : Dead p goal isOpen ok st) :
    (∃ runs, Lists maxPaths entry (fun run => ∃ e ∈ es, ∃ rest, run = e :: rest ∧ T e rest) st
      (expand maxPaths take visit es st o).1 runs) ∧
    Dead p goal isOpen ok (expand maxPaths take visit es st o).1 ∧
    ((expand maxPaths take visit es st o).2.found = false →
      (expand maxPaths take visit es st o).2.blocked = false →
      o.found = false ∧ o.blocked = false ∧ ∀ e ∈ es, B e) := by
  induction es generalizing st o with
  | nil =>
      refine ⟨⟨[], Lists.none rfl fun _ run hrun => ?_⟩, hst, fun hf hb => ⟨hf, hb, by simp⟩⟩
      obtain ⟨e, he, -⟩ := hrun
      exact absurd he List.not_mem_nil
  | cons e rest ih =>
      obtain ⟨hnot, hrest⟩ := List.nodup_cons.mp hes
      -- An edge over which nothing leads leaves the listing to the others.
      have hskip : (∀ run, ¬ T e run) → ∀ run,
          (∃ e' ∈ e :: rest, ∃ tail, run = e' :: tail ∧ T e' tail) ↔
            ∃ e' ∈ rest, ∃ tail, run = e' :: tail ∧ T e' tail := by
        intro hnone run
        rw [List.exists_mem_cons_iff]
        exact or_iff_right fun ⟨tail, _, htail⟩ => hnone tail htail
      rw [PathSearch.expand]
      cases htake : take e with
      | pass =>
          obtain ⟨hB, hnone⟩ := hpass e htake
          obtain ⟨⟨runs, hruns⟩, hdead, hflags⟩ := ih hrest o hst
          refine ⟨⟨runs, hruns.congr (hskip hnone)⟩, hdead, fun hf hb => ?_⟩
          obtain ⟨hof, hob, hall⟩ := hflags hf hb
          exact ⟨hof, hob, List.forall_mem_cons.mpr ⟨hB, hall⟩⟩
      | blocked =>
          obtain ⟨⟨runs, hruns⟩, hdead, hflags⟩ := ih hrest { o with blocked := true } hst
          refine ⟨⟨runs, hruns.congr (hskip (hblocked e htake))⟩, hdead, fun hf hb => ?_⟩
          exact absurd (hflags hf hb).2.1 (by simp)
      | go =>
          obtain ⟨⟨runs, hruns⟩, hdead, hflags⟩ := hgo e st htake hst
          dsimp only
          split
          · rename_i hfull
            refine ⟨⟨_, hruns.cons.found, hruns.cons.nodup, ?_, ?_, hruns.bounded⟩, hdead,
              fun _ hb => absurd hb (by simp)⟩
            · intro run hrun
              exact ⟨e, List.mem_cons_self, hruns.cons.sound run hrun⟩
            · intro hlt
              exact absurd hfull (Nat.not_le.mpr hlt)
          · obtain ⟨⟨runs', hruns'⟩, hdead', hflags'⟩ := ih hrest (o.join (visit e st).2) hdead
            refine ⟨⟨_, (hruns.cons.append hruns' ?_).congr fun run => ?_⟩, hdead', fun hf hb => ?_⟩
            · rintro _ ⟨tail, rfl, -⟩ ⟨e', he', tail', heq, -⟩
              rw [(List.cons.inj heq).1] at hnot
              exact hnot he'
            · exact List.exists_mem_cons_iff ..
            · obtain ⟨hjf, hjb, hall⟩ := hflags' hf hb
              rw [Outcome.join, Bool.or_eq_false_iff] at hjf hjb
              exact ⟨hjf.1, hjb.1, List.forall_mem_cons.mpr ⟨hflags hjf.2 hjb.2, hall⟩⟩

/-- Where a path from `n` ends. -/
def ending (p : Problem ν ε κ) (n : ν) : List ε → ν
  | [] => n
  | e :: rest => ending p (p.next e) rest

theorem Lists.remember {maxPaths : Nat} {entry : List ε → ν × List ε} {S : List ε → Prop}
    {st st' : State ν ε} {runs : List (List ε)} (h : Lists maxPaths entry S st st' runs) (n : ν)
    (d : Nat) : Lists maxPaths entry S st (st'.remember n d) runs :=
  ⟨by rw [State.remember_found]; exact h.found, h.nodup, h.sound,
    by rw [State.remember_found]; exact h.complete,
    by rw [State.remember_found]; exact h.bounded⟩

/-- What a visit of `n` at depth `d` has done (`r`): listed the fresh paths to a goal and kept
the memo right.  Where it found nothing and was not blocked, there are no paths at all, fresh
or not. -/
structure Visited (p : Problem ν ε κ) (goal isOpen : Nat → ν → Prop) (ok : Nat → ε → Prop)
    (d : Nat) (n : ν) (used : List κ) (taken : List ε) (st : State ν ε)
    (r : State ν ε × Outcome) : Prop where
  lists : ∃ runs, Lists p.maxPaths (fun run => (ending p n run, run.reverse ++ taken))
    (fun run => Fresh p used run ∧ Run p goal isOpen ok d n run) st r.1 runs
  dead : Dead p goal isOpen ok r.1
  silent : r.2.found = false → r.2.blocked = false → ∀ run, ¬ Run p goal isOpen ok d n run

omit [DecidableEq ν] in
theorem Run.not_of_closed {d : Nat} {n : ν} (h : ¬ goal d n ∧ ¬ isOpen d n) (run : List ε) :
    ¬ Run p goal isOpen ok d n run := by
  intro hrun
  cases hrun with
  | goal hgoal => exact h.1 hgoal
  | edge hopen => exact h.2 hopen

/-- A visit that finds no path where there is none, and remembers it or not. -/
theorem Visited.none {d : Nat} {n : ν} {used : List κ} {taken : List ε} {st st' : State ν ε}
    (hno : ∀ run, ¬ Run p goal isOpen ok d n run) (hfound : st'.found = st.found)
    (hdead : Dead p goal isOpen ok st') : Visited p goal isOpen ok d n used taken st (st', {}) :=
  ⟨⟨[], Lists.none hfound fun _ run hrun => hno run hrun.2⟩, hdead, fun _ _ => hno⟩

/-- A visit that ends at a goal. -/
theorem Visited.ended {d : Nat} {n : ν} {used : List κ} {taken : List ε} {st : State ν ε}
    (hgoal : goal d n) (hclosed : ¬ isOpen d n) (hroom : st.found.length < p.maxPaths)
    (hst : Dead p goal isOpen ok st) :
    Visited p goal isOpen ok d n used taken st
      ({ st with found := st.found ++ [(n, taken)] }, { found := true }) := by
  refine ⟨⟨[[]], Lists.one hroom rfl fun run => ?_⟩, hst, fun hf => absurd hf (by simp)⟩
  constructor
  · rintro ⟨-, hrun⟩
    cases hrun with
    | goal _ => rfl
    | edge h => exact absurd h hclosed
  · rintro rfl
    exact ⟨⟨List.nodup_nil, by simp⟩, Run.goal hgoal⟩

omit [DecidableEq ν] in
/-- The fresh paths on from an open node that is no goal begin with one of its edges. -/
theorem fresh_run_iff {d : Nat} {n : ν} {used : List κ} (hgoal : ¬ goal d n)
    (hopen : isOpen d n) (run : List ε) :
    (Fresh p used run ∧ Run p goal isOpen ok d n run) ↔
      ∃ e ∈ p.edges n, ∃ rest, run = e :: rest ∧ (ok d e ∧ p.key e ∉ used) ∧
        Fresh p (p.key e :: used) rest ∧ Run p goal isOpen ok (d + 1) (p.next e) rest := by
  constructor
  · rintro ⟨hfresh, hrun⟩
    cases hrun with
    | goal h => exact absurd h hgoal
    | edge _ he hok hrest =>
        exact ⟨_, he, _, rfl, ⟨hok, hfresh.2 _ List.mem_cons_self⟩, hfresh.tail, hrest⟩
  · rintro ⟨e, he, rest, rfl, ⟨hok, hkey⟩, hfresh, hrest⟩
    exact ⟨hfresh.cons hkey, Run.edge hopen he hok hrest⟩

/-- The visits over the edges of an open node make up the visit of the node. -/
theorem Visited.edges (hs : Exact p goal isOpen ok maxDepth) (hedges : ∀ n, (p.edges n).Nodup)
    {d : Nat} {n : ν} {used : List κ} {taken : List ε} {st : State ν ε} (hgoal : ¬ goal d n)
    (hopen : isOpen d n) (visit : ε → State ν ε → State ν ε × Outcome)
    (hvisit : ∀ e st, p.take used d e = .go → Dead p goal isOpen ok st →
      Visited p goal isOpen ok (d + 1) (p.next e) (p.key e :: used) (e :: taken) st (visit e st))
    (hst : Dead p goal isOpen ok st) :
    Visited p goal isOpen ok d n used taken st
      (expand p.maxPaths (p.take used d) visit (p.edges n) st {}) := by
  obtain ⟨⟨runs, hruns⟩, hdead, hflags⟩ := expand_lists (p.take used d) visit
    (fun run => (ending p n run, run.reverse ++ taken))
    (fun e rest => (ok d e ∧ p.key e ∉ used) ∧ Fresh p (p.key e :: used) rest ∧
      Run p goal isOpen ok (d + 1) (p.next e) rest)
    (fun e => ok d e → ∀ run, ¬ Run p goal isOpen ok (d + 1) (p.next e) run)
    (by
      intro e htake
      have hnot := hs.pass htake
      exact ⟨fun hok => absurd hok hnot, fun rest h => hnot h.1.1⟩)
    (by
      intro e htake rest h
      exact (hs.blocked htake).elim h.1.2 (absurd h.1.1 ·))
    (by
      intro e st htake hst
      obtain ⟨⟨runs, hruns⟩, hdead, hsilent⟩ := hvisit e st htake hst
      refine ⟨⟨runs, ?_⟩, hdead, fun hf hb _ => hsilent hf hb⟩
      have hentry : (fun rest => (ending p n (e :: rest), (e :: rest).reverse ++ taken))
          = fun rest => (ending p (p.next e) rest, rest.reverse ++ e :: taken) := by
        funext rest
        rw [List.reverse_cons, List.append_assoc]
        rfl
      rw [hentry]
      exact hruns.congr fun run => and_iff_right (hs.admits htake))
    (p.edges n) (hedges n) {} hst
  refine ⟨⟨runs, hruns.congr (fresh_run_iff hgoal hopen)⟩, hdead, fun hf hb run hrun => ?_⟩
  cases hrun with
  | goal h => exact hgoal h
  | edge _ he hok hrest => exact (hflags hf hb).2.2 _ he hok _ hrest

/-- **A visit lists the fresh paths to a goal.**  That it tells when there are no paths at all is
what makes the memo right for every later visit. -/
theorem dfs_lists (hs : Exact p goal isOpen ok maxDepth) (hedges : ∀ n, (p.edges n).Nodup)
    (fuel : Nat) (n : ν) (used : List κ) (taken : List ε) {d : Nat} {st : State ν ε}
    (hd : d ≤ maxDepth) (hfuel : maxDepth < d + fuel) (hst : Dead p goal isOpen ok st) :
    Visited p goal isOpen ok d n used taken st (dfs p fuel d n used taken st) := by
  induction fuel generalizing d n used taken st with
  | zero => omega
  | succ fuel ih =>
      rw [dfs]
      by_cases hfull : p.maxPaths ≤ st.found.length
      · rw [if_pos hfull]
        exact ⟨⟨[], Lists.none rfl fun hlt => absurd hfull (Nat.not_le.mpr hlt)⟩, hst,
          fun _ hb => absurd hb (by simp)⟩
      rw [if_neg hfull]
      cases henter : p.enter d n (st.deadAt.lookup n) with
      | stop =>
          have hno : ∀ run, ¬ Run p goal isOpen ok d n run := by
            rcases hs.stop henter with ⟨k, hk, hmemo⟩ | h
            · exact fun run hrun => hst n k hmemo run (hrun.earlier hs.toSound hk)
            · exact Run.not_of_closed h
          exact Visited.none hno rfl hst
      | skip remember =>
          have hno : ∀ run, ¬ Run p goal isOpen ok d n run := Run.not_of_closed (hs.skip henter)
          have hskip : Dead p goal isOpen ok (st.skip n) := by
            unfold Dead
            rw [State.skip_deadAt]
            exact hst
          dsimp only
          split
          · exact Visited.none hno (by simp) (hskip.remember hno)
          · exact Visited.none hno (by simp) hskip
      | goal =>
          obtain ⟨hgoal, hclosed⟩ := hs.ends henter
          exact Visited.ended hgoal hclosed (Nat.lt_of_not_le hfull) hst
      | expand =>
          have hloop : Visited p goal isOpen ok d n used taken st _ :=
            Visited.edges hs hedges (hs.expand henter) (hs.opens henter)
              (fun e st => dfs p fuel (d + 1) (p.next e) (p.key e :: used) (e :: taken) st)
              (fun e st htake hst =>
                have hlt := hs.go htake
                ih (p.next e) (p.key e :: used) (e :: taken) (by omega) (by omega) hst) hst
          dsimp only
          split
          · exact hloop
          · rename_i hflag
            rw [Bool.not_eq_true, Bool.or_eq_false_iff] at hflag
            obtain ⟨⟨runs, hruns⟩, hdead, hsilent⟩ := hloop
            exact ⟨⟨runs, hruns.remember n d⟩,
              hdead.remember (hsilent hflag.1 hflag.2), hsilent⟩

omit [DecidableEq ν] in
theorem encard_of_nodup {α : Type} {l : List α} (h : l.Nodup) :
    ({x | x ∈ l} : Set α).encard = l.length := by
  classical
  rw [← List.coe_toFinset, Set.encard_coe_eq_coe_finsetCard, List.toFinset_card_of_nodup h]

omit [DecidableEq ν] in
/-- A list as long as the set its members are in has all of it. -/
theorem mem_of_encard_le {α : Type} {l : List α} (h : l.Nodup) {S : Set α} (hsub : ∀ x ∈ l, x ∈ S)
    (hle : S.encard ≤ l.length) {x : α} (hx : x ∈ S) : x ∈ l := by
  rw [← encard_of_nodup h] at hle
  have heq : {x | x ∈ l} = S := l.finite_toSet.eq_of_subset_of_encard_le hsub hle
  rw [← heq] at hx
  exact hx

/-- **The search lists fresh paths, none twice, and as many as there are or were asked for.** -/
theorem dfs_enumerates (hs : Exact p goal isOpen ok maxDepth) (hedges : ∀ n, (p.edges n).Nodup)
    (n : ν) (used : List κ) :
    ∃ runs : List (List ε),
      (dfs p (maxDepth + 1) 0 n used [] {}).1.found
        = runs.map (fun run => (ending p n run, run.reverse)) ∧
      runs.Nodup ∧ (∀ run ∈ runs, Fresh p used run ∧ Run p goal isOpen ok 0 n run) ∧
      (runs.length : ℕ∞)
        = min (p.maxPaths : ℕ∞) {run | Fresh p used run ∧ Run p goal isOpen ok 0 n run}.encard := by
  have hempty : Dead p goal isOpen ok ({} : State ν ε) := fun n k hk => absurd hk (by simp)
  obtain ⟨⟨runs, hruns⟩, -, -⟩ := dfs_lists hs hedges (maxDepth + 1) n used []
    (Nat.zero_le _) (by omega) hempty
  have hfound := hruns.found
  simp only [List.append_nil] at hfound
  refine ⟨runs, hfound, hruns.nodup, hruns.sound, ?_⟩
  have hlength : (dfs p (maxDepth + 1) 0 n used [] {}).1.found.length = runs.length := by
    rw [hfound, List.nil_append, List.length_map]
  have hle := hruns.bounded (Nat.zero_le _)
  have hcomplete := hruns.complete
  rw [hlength] at hle hcomplete
  rcases hle.lt_or_eq with hlt | heq
  · have hset : {run | Fresh p used run ∧ Run p goal isOpen ok 0 n run} = {run | run ∈ runs} := by
      ext run
      exact ⟨hcomplete hlt run, hruns.sound run⟩
    rw [hset, encard_of_nodup hruns.nodup, min_eq_right]
    exact_mod_cast hlt.le
  · rw [heq, min_eq_left]
    rw [← heq, ← encard_of_nodup hruns.nodup]
    exact Set.encard_le_encard hruns.sound

end Covers

/-! ### Along a shortest path

On a shortest path no node comes twice, so it is fresh for any keys that tell
the nodes.
-/

section Shortest

variable {R : ν → ν → Prop} {s : ν}

/-- `x` can be reached from `s` in `n` steps and no fewer. -/
def Shortest (R : ν → ν → Prop) (s : ν) (n : Nat) (x : ν) : Prop :=
  Steps R s n x ∧ ∀ j < n, ¬ Steps R s j x

omit [DecidableEq ν] in
theorem Shortest.unique {n n' : Nat} {x : ν} (h : Shortest R s n x) (h' : Shortest R s n' x) :
    n = n' := by
  rcases Nat.lt_trichotomy n n' with hlt | heq | hlt
  · exact absurd h.1 (h'.2 n hlt)
  · exact heq
  · exact absurd h'.1 (h.2 n' hlt)

omit [DecidableEq ν] in
theorem Steps.shortest {n : Nat} {x : ν} (h : Steps R s n x) : ∃ m ≤ n, Shortest R s m x := by
  classical
  have hex : ∃ m, Steps R s m x := ⟨n, h⟩
  refine ⟨Nat.find hex, Nat.find_le h, Nat.find_spec hex, fun j hj => Nat.find_min hex hj⟩

omit [DecidableEq ν] in
theorem Shortest.pred {n : Nat} {x : ν} (h : Shortest R s (n + 1) x) :
    ∃ y, Shortest R s n y ∧ R y x := by
  obtain ⟨hsteps, hmin⟩ := h
  cases hsteps with
  | succ hy hstep =>
      rename_i y
      exact ⟨y, ⟨hy, fun j hj hj' => hmin (j + 1) (by omega) (hj'.succ hstep)⟩, hstep⟩

variable {p : Problem ν ε κ} {goal isOpen : Nat → ν → Prop} {ok : Nat → ε → Prop} {maxDepth : Nat}

omit [DecidableEq ν] in
/-- A shortest path, walked back from its end, with the depth counting what is behind. -/
theorem Shortest.run {n : Nat} (hgoal : goal n s)
    (hedge : ∀ {d k x y}, Shortest R s (k + 1) x → Shortest R s k y → R y x → d + (k + 1) = n →
      isOpen d x ∧ ∃ e ∈ p.edges x, p.next e = y ∧ ok d e)
    {d k : Nat} {x : ν} (h : Shortest R s k x) (hd : d + k = n) :
    ∃ run, Run p goal isOpen ok d x run ∧ (run.map p.next).Nodup ∧
      ∀ e ∈ run, ∃ j < k, Shortest R s j (p.next e) := by
  induction k generalizing d x with
  | zero =>
      obtain rfl : x = s := by
        cases h.1
        rfl
      exact ⟨[], Run.goal (by rwa [← hd] at hgoal), by simp, by simp⟩
  | succ k ih =>
      obtain ⟨y, hy, hstep⟩ := h.pred
      obtain ⟨hopen, e, he, rfl, hok⟩ := hedge h hy hstep hd
      obtain ⟨run, hrun, hnodup, hless⟩ := ih hy (by omega : d + 1 + k = n)
      refine ⟨e :: run, Run.edge hopen he hok hrun, ?_, ?_⟩
      · rw [List.map_cons, List.nodup_cons]
        refine ⟨fun hmem => ?_, hnodup⟩
        obtain ⟨e', he', heq⟩ := List.mem_map.mp hmem
        obtain ⟨j, hj, hj'⟩ := hless e' he'
        rw [heq] at hj'
        exact absurd (hy.unique hj') (by omega)
      · rintro e' (_ | ⟨_, he'⟩)
        · exact ⟨k, by omega, hy⟩
        · obtain ⟨j, hj, hj'⟩ := hless e' he'
          exact ⟨j, by omega, hj'⟩

/-- **If the end can be reached and every step of a shortest path is an admissible edge
between open nodes, the search from the end finds a path.** -/
theorem dfs_finds_shortest (hs : Sound p goal isOpen ok maxDepth) (hmax : 0 < p.maxPaths)
    (hkey : ∀ e e', p.key e = p.key e' → p.next e = p.next e') {t : ν} {used : List κ}
    (hused : ∀ e, p.key e ∈ used → p.next e = t) {n : Nat} (h : Shortest R s n t) (hgoal : goal n s)
    (hedge : ∀ {d k x y}, Shortest R s (k + 1) x → Shortest R s k y → R y x → d + (k + 1) = n →
      isOpen d x ∧ ∃ e ∈ p.edges x, p.next e = y ∧ ok d e) :
    (dfs p (maxDepth + 1) 0 t used [] {}).1.found ≠ [] := by
  obtain ⟨run, hrun, hnodup, hless⟩ := h.run hgoal hedge (Nat.zero_add n)
  refine dfs_finds hs hmax hrun ⟨?_, fun e he hmem => ?_⟩
  · refine List.pairwise_map.mpr ((List.pairwise_map.mp hnodup).imp ?_)
    exact fun {e e'} hne heq => hne (hkey e e' heq)
  · obtain ⟨j, hj, hj'⟩ := hless e he
    rw [hused e hmem] at hj'
    exact absurd (h.unique hj') (by omega)

end Shortest

end PathSearch
