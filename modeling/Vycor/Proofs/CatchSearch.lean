/-
The walk of `queryNearestCatches`, turn by turn.

A turn takes the last state pushed and looks at the callers of its function.  The walk ends
because a turn takes one state off the queue and puts one on only for a name not seen before:
queue and unseen names together get fewer with every turn, and the fuel is no less than they
are at the start.

But for the catches it reports, the walk is one that takes ways off a stack, and so the ways it
takes can be told from the graph and the contexts.  `mem_nearestCatches` says which catches it
reports in these terms.
-/
import Vycor.Lib.FirstCome
import Vycor.Proofs.ExceptionProtection
import Mathlib.Data.List.Infix

namespace Vycor

namespace ControlFlowOracle

variable {graph : CallGraph} {cfIndex : ControlFlowIndex}

/-! ### Turns -/

/-- The innermost try around a call: around the first one recorded for these names. -/
def tryAround (cfIndex : ControlFlowIndex) (caller callee : Str) : Option TryCatchScope :=
  (hopContext cfIndex caller callee).bind (·.enclosingTryCatches.head?)

/-- Look at the callers of a function, unless it is too far up. -/
def lookAt (graph : CallGraph) (cfIndex : ControlFlowIndex) (state : SearchState)
    (search : CatchSearch) : CatchSearch :=
  if 20 < state.depth then search
  else (graph.callersOf state.func).foldl (searchCaller cfIndex state) search

/-- One turn of the search: the state at the head of the queue is looked at. -/
def searchTurn (graph : CallGraph) (cfIndex : ControlFlowIndex) (search : CatchSearch) :
    CatchSearch :=
  match search.queue with
  | [] => search
  | state :: rest => lookAt graph cfIndex state { search with queue := rest }

/-- The search as it begins, at the function itself. -/
def startSearch (functionName : Str) : CatchSearch where
  queue := [{ func := functionName, pathSoFar := [functionName], depth := 0 }]
  visited := [functionName]

/-- The search after some turns. -/
def turns (graph : CallGraph) (cfIndex : ControlFlowIndex) (functionName : Str) (n : Nat) :
    CatchSearch :=
  (searchTurn graph cfIndex)^[n] (startSearch functionName)

theorem searchTurn_nil {search : CatchSearch} (h : search.queue = []) :
    searchTurn graph cfIndex search = search := by
  unfold searchTurn
  rw [h]

theorem searchTurn_cons {search : CatchSearch} {state : SearchState} {rest : List SearchState}
    (h : search.queue = state :: rest) :
    searchTurn graph cfIndex search = lookAt graph cfIndex state { search with queue := rest } := by
  unfold searchTurn
  rw [h]

theorem turns_succ (functionName : Str) (n : Nat) :
    turns graph cfIndex functionName (n + 1)
      = searchTurn graph cfIndex (turns graph cfIndex functionName n) :=
  Function.iterate_succ_apply' _ n _

theorem searchCatches_eq (fuel : Nat) (search : CatchSearch) :
    searchCatches graph cfIndex fuel search = (searchTurn graph cfIndex)^[fuel] search := by
  induction fuel generalizing search with
  | zero => rfl
  | succ fuel ih =>
      rw [searchCatches, Function.iterate_succ_apply]
      cases hqueue : search.queue with
      | nil =>
          rw [searchTurn_nil hqueue, Function.iterate_fixed (searchTurn_nil hqueue)]
      | cons state rest =>
          rw [searchTurn_cons hqueue]
          exact ih _

/-! ### One caller

A caller that catches is reported without being marked, one that does not is
marked and queued. So what has been seen only grows, and a catch can be reported
from several calls.
-/

section Caller

variable {state : SearchState} {search : CatchSearch} {edge : CallGraphEdge}

theorem searchCaller_seen (h : edge.callerName ∈ search.visited) :
    searchCaller cfIndex state search edge = search := by
  unfold searchCaller
  rw [if_pos h]

theorem searchCaller_catch {scope : TryCatchScope} (h : edge.callerName ∉ search.visited)
    (htry : tryAround cfIndex edge.callerName state.func = some scope) :
    searchCaller cfIndex state search edge
      = { search with result := search.result ++
          [{ framesFromTarget := state.depth + 1
             pathSegment := edge.callerName :: state.pathSoFar, scope }] } := by
  unfold tryAround at htry
  unfold searchCaller
  rw [if_neg h, htry]

theorem searchCaller_bare (h : edge.callerName ∉ search.visited)
    (htry : tryAround cfIndex edge.callerName state.func = none) :
    searchCaller cfIndex state search edge
      = { search with
          visited := edge.callerName :: search.visited
          queue := { func := edge.callerName, pathSoFar := edge.callerName :: state.pathSoFar
                     depth := state.depth + 1 } :: search.queue } := by
  unfold tryAround at htry
  unfold searchCaller
  rw [if_neg h, htry]

/-- What holds of a search and is kept by one caller is kept by all of them. -/
theorem foldl_searchCaller {P : CatchSearch → Prop} {edges : List CallGraphEdge}
    (hstep : ∀ edge ∈ edges, ∀ search, P search → P (searchCaller cfIndex state search edge))
    (h : P search) : P (edges.foldl (searchCaller cfIndex state) search) := by
  induction edges generalizing search with
  | nil => exact h
  | cons edge rest ih =>
      obtain ⟨hedge, hrest⟩ := List.forall_mem_cons.mp hstep
      exact ih hrest (hedge search h)

/-- Results are only added. -/
theorem searchCaller_grows : search.result <+: (searchCaller cfIndex state search edge).result := by
  by_cases hseen : edge.callerName ∈ search.visited
  · rw [searchCaller_seen hseen]
  · cases htry : tryAround cfIndex edge.callerName state.func with
    | some scope =>
        rw [searchCaller_catch hseen htry]
        exact List.prefix_append _ _
    | none =>
        rw [searchCaller_bare hseen htry]

theorem visited_searchCaller {x : Str} (h : x ∈ search.visited) :
    x ∈ (searchCaller cfIndex state search edge).visited := by
  by_cases hseen : edge.callerName ∈ search.visited
  · rwa [searchCaller_seen hseen]
  · cases htry : tryAround cfIndex edge.callerName state.func with
    | some scope => rwa [searchCaller_catch hseen htry]
    | none =>
        rw [searchCaller_bare hseen htry]
        exact List.mem_cons_of_mem _ h

/-- A caller that calls inside a try and has not been seen is reported: nothing on the way to it
marks it as seen. -/
theorem caught_of_mem {edges : List CallGraphEdge} {scope : TryCatchScope} (hedge : edge ∈ edges)
    (hoff : edge.callerName ∉ search.visited)
    (htry : tryAround cfIndex edge.callerName state.func = some scope) :
    { framesFromTarget := state.depth + 1, pathSegment := edge.callerName :: state.pathSoFar, scope }
      ∈ (edges.foldl (searchCaller cfIndex state) search).result := by
  induction edges generalizing search with
  | nil => exact absurd hedge List.not_mem_nil
  | cons e rest ih =>
      rw [List.foldl_cons]
      rcases List.mem_cons.mp hedge with rfl | hedge
      · rw [searchCaller_catch hoff htry]
        refine (foldl_searchCaller (P := fun s => _ <+: s.result)
          (fun e _ s hs => hs.trans searchCaller_grows) List.prefix_rfl).subset ?_
        simp
      · apply ih hedge
        by_cases hseen : e.callerName ∈ search.visited
        · rwa [searchCaller_seen hseen]
        · cases htry' : tryAround cfIndex e.callerName state.func with
          | some scope' => rwa [searchCaller_catch hseen htry']
          | none =>
              rw [searchCaller_bare hseen htry', List.mem_cons, not_or]
              refine ⟨fun heq => ?_, hoff⟩
              rw [heq, htry'] at htry
              cases htry

/-- A caller that calls outside a try has been seen then. -/
theorem seen_of_mem {edges : List CallGraphEdge} (hedge : edge ∈ edges)
    (htry : tryAround cfIndex edge.callerName state.func = none) :
    edge.callerName ∈ (edges.foldl (searchCaller cfIndex state) search).visited := by
  induction edges generalizing search with
  | nil => exact absurd hedge List.not_mem_nil
  | cons e rest ih =>
      rw [List.foldl_cons]
      rcases List.mem_cons.mp hedge with rfl | hedge
      · refine foldl_searchCaller (P := fun s => edge.callerName ∈ s.visited)
          (fun e _ s hs => visited_searchCaller hs) ?_
        by_cases hseen : edge.callerName ∈ search.visited
        · rwa [searchCaller_seen hseen]
        · rw [searchCaller_bare hseen htry]
          exact List.mem_cons_self
      · exact ih hedge

theorem visited_searchTurn {x : Str} (h : x ∈ search.visited) :
    x ∈ (searchTurn graph cfIndex search).visited := by
  cases hqueue : search.queue with
  | nil => rwa [searchTurn_nil hqueue]
  | cons state rest =>
      rw [searchTurn_cons hqueue]
      unfold lookAt
      split
      · exact h
      · exact foldl_searchCaller (P := fun s => x ∈ s.visited)
          (fun edge _ s hs => visited_searchCaller hs) h

theorem lookAt_grows : search.result <+: (lookAt graph cfIndex state search).result := by
  unfold lookAt
  split
  · exact List.prefix_rfl
  · exact foldl_searchCaller (P := fun s => search.result <+: s.result)
      (fun edge _ s hs => hs.trans searchCaller_grows) List.prefix_rfl

theorem searchTurn_grows : search.result <+: (searchTurn graph cfIndex search).result := by
  cases hqueue : search.queue with
  | nil =>
      rw [searchTurn_nil hqueue]
  | cons state rest =>
      rw [searchTurn_cons hqueue]
      exact @lookAt_grows graph cfIndex state { search with queue := rest }

end Caller

theorem turns_grow {functionName : Str} {n m : Nat} (h : n ≤ m) :
    (turns graph cfIndex functionName n).result <+: (turns graph cfIndex functionName m).result := by
  induction m, h using Nat.le_induction with
  | base => exact List.prefix_rfl
  | succ m _ ih =>
      rw [turns_succ]
      exact ih.trans searchTurn_grows

/-! ### Enough turns

A name is queued once, so the names that have not been seen pay for the turns.
-/

/-- The names that have not been seen. -/
def unseen (graph : CallGraph) (visited : List Str) : Nat :=
  ((names graph).filter (· ∉ visited)).length

/-- What the turns use up. -/
def left (graph : CallGraph) (search : CatchSearch) : Nat :=
  search.queue.length + unseen graph search.visited

theorem unseen_cons_lt {visited : List Str} {name : Str} (hname : name ∈ names graph)
    (hnew : name ∉ visited) : unseen graph (name :: visited) < unseen graph visited := by
  have hfilter : (names graph).filter (· ∉ name :: visited)
      = ((names graph).filter (· ∉ visited)).filter (· ≠ name) := by
    rw [List.filter_filter]
    congr 1
    funext x
    simp [List.mem_cons, not_or]
  unfold unseen
  rw [hfilter, List.length_filter_lt_length_iff_exists]
  exact ⟨name, List.mem_filter.mpr ⟨hname, by simpa using hnew⟩, by simp⟩

theorem left_searchCaller {state : SearchState} {search : CatchSearch} {edge : CallGraphEdge}
    (hname : edge.callerName ∈ names graph) :
    left graph (searchCaller cfIndex state search edge) ≤ left graph search := by
  unfold searchCaller
  split
  · exact Nat.le_refl _
  · rename_i hnew
    split
    · exact Nat.le_refl _
    · have hlt := unseen_cons_lt hname hnew
      unfold left
      dsimp only
      rw [List.length_cons]
      omega

theorem left_foldl {state : SearchState} {edges : List CallGraphEdge} {search : CatchSearch}
    (hnames : ∀ edge ∈ edges, edge.callerName ∈ names graph) :
    left graph (edges.foldl (searchCaller cfIndex state) search) ≤ left graph search := by
  induction edges generalizing search with
  | nil => exact Nat.le_refl _
  | cons edge rest ih =>
      obtain ⟨hedge, hrest⟩ := List.forall_mem_cons.mp hnames
      exact (ih hrest).trans (left_searchCaller hedge)

theorem left_searchTurn {search : CatchSearch} (h : search.queue ≠ []) :
    left graph (searchTurn graph cfIndex search) < left graph search := by
  obtain ⟨state, rest, hqueue⟩ := List.exists_cons_of_ne_nil h
  have hrest : left graph { search with queue := rest } < left graph search := by
    unfold left
    dsimp only
    rw [hqueue, List.length_cons]
    omega
  rw [searchTurn_cons hqueue]
  refine lt_of_le_of_lt ?_ hrest
  unfold lookAt
  split
  · exact Nat.le_refl _
  · exact left_foldl fun edge hedge => callerName_mem_names hedge

theorem queue_iterate {n : Nat} {search : CatchSearch} (h : left graph search ≤ n) :
    ((searchTurn graph cfIndex)^[n] search).queue = [] := by
  induction n generalizing search with
  | zero =>
      unfold left at h
      exact List.length_eq_zero_iff.mp (by simp only [Function.iterate_zero, id_eq]; omega)
  | succ n ih =>
      rw [Function.iterate_succ_apply]
      by_cases hqueue : search.queue = []
      · rw [searchTurn_nil hqueue, Function.iterate_fixed (searchTurn_nil hqueue)]
        exact hqueue
      · have hlt := @left_searchTurn graph cfIndex search hqueue
        exact ih (by omega)

/-- The turns there is fuel for. -/
def enough (graph : CallGraph) : Nat := graph.interner.size + graph.nodeCount + 3

theorem queue_enough (functionName : Str) :
    (turns graph cfIndex functionName (enough graph)).queue = [] := by
  apply queue_iterate
  have hunseen : unseen graph (startSearch functionName).visited ≤ (names graph).length :=
    List.length_filter_le _ _
  have hnames : (names graph).length = graph.interner.size + graph.nodeCount + 1 := by
    simp only [names, List.length_append, List.length_cons, List.length_map]
    unfold StringInterner.size CallGraph.nodeCount
    omega
  have hone : (startSearch functionName).queue.length = 1 := rfl
  unfold left enough
  omega

/-- **The query is the walk to its end.** -/
theorem queryNearestCatches_eq (functionName : Str) :
    queryNearestCatches graph cfIndex functionName
      = (turns graph cfIndex functionName (enough graph)).result := by
  unfold queryNearestCatches
  rw [searchCatches_eq]
  rfl

/-- A walk that has ended stays as it is. -/
theorem turns_of_ended {functionName : Str} {n m : Nat}
    (h : (turns graph cfIndex functionName n).queue = []) (hle : n ≤ m) :
    turns graph cfIndex functionName m = turns graph cfIndex functionName n := by
  induction m, hle using Nat.le_induction with
  | base => rfl
  | succ m _ ih => rw [turns_succ, ih, searchTurn_nil h]

/-! ### What a turn reports -/

section Reports

variable {f : Str}

/-- The callers of a state report what they call inside a try, but for those seen before. -/
theorem mem_result_foldl {state : SearchState} {edges : List CallGraphEdge} {search : CatchSearch}
    {c : NearestCatchInfo} (h : c ∈ (edges.foldl (searchCaller cfIndex state) search).result) :
    c ∈ search.result ∨ ∃ edge ∈ edges, edge.callerName ∉ search.visited ∧
      tryAround cfIndex edge.callerName state.func = some c.scope ∧
      c.framesFromTarget = state.depth + 1 ∧ c.pathSegment = edge.callerName :: state.pathSoFar := by
  suffices hall : ∀ s : CatchSearch, s = edges.foldl (searchCaller cfIndex state) search →
      (∀ x ∈ search.visited, x ∈ s.visited) ∧ ∀ c ∈ s.result, c ∈ search.result ∨
        ∃ edge ∈ edges, edge.callerName ∉ search.visited ∧
          tryAround cfIndex edge.callerName state.func = some c.scope ∧
          c.framesFromTarget = state.depth + 1 ∧
          c.pathSegment = edge.callerName :: state.pathSoFar from (hall _ rfl).2 c h
  rintro s rfl
  refine foldl_searchCaller (P := fun s => (∀ x ∈ search.visited, x ∈ s.visited) ∧
    ∀ c ∈ s.result, c ∈ search.result ∨ ∃ edge ∈ edges, edge.callerName ∉ search.visited ∧
      tryAround cfIndex edge.callerName state.func = some c.scope ∧
      c.framesFromTarget = state.depth + 1 ∧
      c.pathSegment = edge.callerName :: state.pathSoFar) ?_ ⟨fun _ => id, fun _ => Or.inl⟩
  rintro edge hedge s ⟨hvisited, hresult⟩
  refine ⟨fun x hx => visited_searchCaller (hvisited x hx), ?_⟩
  by_cases hseen : edge.callerName ∈ s.visited
  · rwa [searchCaller_seen hseen]
  · cases htry : tryAround cfIndex edge.callerName state.func with
    | none => rwa [searchCaller_bare hseen htry]
    | some scope =>
        rw [searchCaller_catch hseen htry]
        refine List.forall_mem_append.mpr ⟨hresult, List.forall_mem_singleton.mpr (Or.inr ?_)⟩
        exact ⟨edge, hedge, fun hin => hseen (hvisited _ hin), htry, rfl, rfl⟩

/-- The turn that reports a catch: a caller of the function it looks at, not seen before. -/
structure ReportedAt (graph : CallGraph) (cfIndex : ControlFlowIndex) (f : Str)
    (c : NearestCatchInfo) (k : Nat) (state : SearchState) (caller : Str) : Prop where
  queue : ∃ rest, (turns graph cfIndex f k).queue = state :: rest
  near : state.depth ≤ 20
  new : caller ∉ (turns graph cfIndex f k).visited
  calls : Calls graph caller state.func
  scope : tryAround cfIndex caller state.func = some c.scope
  frames : c.framesFromTarget = state.depth + 1
  path : c.pathSegment = caller :: state.pathSoFar

theorem mem_turns {n : Nat} {c : NearestCatchInfo} :
    c ∈ (turns graph cfIndex f n).result ↔
      ∃ k < n, ∃ state caller, ReportedAt graph cfIndex f c k state caller := by
  constructor
  · intro h
    induction n with
    | zero => exact absurd h List.not_mem_nil
    | succ n ih =>
        rw [turns_succ] at h
        cases hqueue : (turns graph cfIndex f n).queue with
        | nil =>
            rw [searchTurn_nil hqueue] at h
            obtain ⟨k, hk, hreported⟩ := ih h
            exact ⟨k, Nat.lt_succ_of_lt hk, hreported⟩
        | cons state rest =>
            rw [searchTurn_cons hqueue] at h
            unfold lookAt at h
            split at h
            · obtain ⟨k, hk, hreported⟩ := ih h
              exact ⟨k, Nat.lt_succ_of_lt hk, hreported⟩
            · rename_i hnear
              rcases mem_result_foldl h with h | ⟨edge, hedge, hnew, htry, hframes, hpath⟩
              · obtain ⟨k, hk, hreported⟩ := ih h
                exact ⟨k, Nat.lt_succ_of_lt hk, hreported⟩
              · exact ⟨n, Nat.lt_succ_self n, state, edge.callerName, ⟨rest, hqueue⟩,
                  Nat.le_of_not_lt hnear, hnew, ⟨edge, hedge, rfl⟩, htry, hframes, hpath⟩
  · rintro ⟨k, hk, state, caller, ⟨rest, hqueue⟩, hnear, hnew, ⟨edge, hedge, rfl⟩, htry, hframes,
      hpath⟩
    refine (turns_grow (Nat.succ_le_of_lt hk)).subset ?_
    rw [turns_succ, searchTurn_cons hqueue]
    unfold lookAt
    rw [if_neg (Nat.not_lt.mpr hnear)]
    obtain ⟨frames, path, scope⟩ := c
    dsimp only at hframes hpath htry
    rw [hframes, hpath]
    exact caught_of_mem hedge hnew htry

end Reports

/-! ### The ways it takes

A way is the path of a state: the names from the one that calls on down to the function asked
for.  It goes on to the callers that call its first name outside any try, by the first context
recorded for the two names, and no way is longer than 21 calls.
-/

/-- The callers that call a function outside any try. -/
def bareCallers (graph : CallGraph) (cfIndex : ControlFlowIndex) (func : Str) : List Str :=
  ((graph.callersOf func).map (·.callerName)).filter fun caller =>
    (tryAround cfIndex caller func).isNone

/-- Where a way goes on. -/
def onward (graph : CallGraph) (cfIndex : ControlFlowIndex) : List Str → List Str
  | [] => []
  | func :: up => if up.length ≤ 20 then bareCallers graph cfIndex func else []

/-- By a first way to `func`, at most 20 calls up, `caller` calls `func` inside a try, and no
first way that comes before leads to `caller`. -/
structure CaughtOn (graph : CallGraph) (cfIndex : ControlFlowIndex) (f caller func : Str)
    (up : List Str) (scope : TryCatchScope) : Prop where
  way : FirstCome.FirstWay (onward graph cfIndex) f (func :: up)
  near : up.length ≤ 20
  unmet : FirstCome.Unmet (onward graph cfIndex) f (FirstCome.FirstWay (onward graph cfIndex) f)
    (func :: up) caller
  calls : Calls graph caller func
  inside : tryAround cfIndex caller func = some scope

/-- A search and a walk that has the same ways to take and has met the same names. -/
structure SameWays (search : CatchSearch) (s : FirstCome.Walk Str) : Prop where
  stack : s.stack = search.queue.map (·.pathSoFar)
  met : s.met = search.visited
  ways : ∀ state ∈ search.queue, ∃ up, state.pathSoFar = state.func :: up ∧ up.length = state.depth

theorem SameWays.callers {state : SearchState} {up : List Str}
    (hpath : state.pathSoFar = state.func :: up) (hlength : up.length = state.depth)
    (edges : List CallGraphEdge) {search : CatchSearch} {s : FirstCome.Walk Str}
    (h : SameWays search s) :
    SameWays (edges.foldl (searchCaller cfIndex state) search)
      (((edges.map (·.callerName)).filter fun caller =>
        (tryAround cfIndex caller state.func).isNone).foldl
          (FirstCome.push (state.func :: up)) s) := by
  induction edges generalizing search s with
  | nil => exact h
  | cons edge rest ih =>
      rw [List.foldl_cons, List.map_cons]
      cases htry : tryAround cfIndex edge.callerName state.func with
      | some scope =>
          -- A call inside a try changes neither the ways nor what has been met.
          rw [List.filter_cons_of_neg (by simp [htry])]
          refine ih ?_
          by_cases hseen : edge.callerName ∈ search.visited
          · rwa [searchCaller_seen hseen]
          · rw [searchCaller_catch hseen htry]
            exact ⟨h.stack, h.met, h.ways⟩
      | none =>
          rw [List.filter_cons_of_pos (by simp [htry]), List.foldl_cons]
          refine ih ?_
          unfold FirstCome.push
          rw [h.met]
          by_cases hseen : edge.callerName ∈ search.visited
          · rw [searchCaller_seen hseen, if_pos hseen]
            exact h
          · rw [searchCaller_bare hseen htry, if_neg hseen]
            refine ⟨?_, rfl, List.forall_mem_cons.mpr ⟨⟨state.func :: up, ?_, ?_⟩, h.ways⟩⟩
            · rw [h.stack, List.map_cons, hpath]
            · rw [hpath]
            · rw [List.length_cons, hlength]

/-- **The search takes the ways of the walk**, turn by turn. -/
theorem sameWays (f : Str) (k : Nat) :
    SameWays (turns graph cfIndex f k) (FirstCome.walk (onward graph cfIndex) f k) := by
  induction k with
  | zero => exact ⟨rfl, rfl, List.forall_mem_singleton.mpr ⟨[], rfl, rfl⟩⟩
  | succ k ih =>
      rw [turns_succ, FirstCome.walk_succ]
      unfold FirstCome.turn
      rw [ih.stack]
      cases hqueue : (turns graph cfIndex f k).queue with
      | nil =>
          rw [searchTurn_nil hqueue]
          exact ih
      | cons state rest =>
          have hways := ih.ways
          rw [hqueue] at hways
          obtain ⟨⟨up, hpath, hlength⟩, hrest⟩ := List.forall_mem_cons.mp hways
          have hstart : SameWays { turns graph cfIndex f k with queue := rest }
              { FirstCome.walk (onward graph cfIndex) f k with
                stack := rest.map (·.pathSoFar) } := ⟨rfl, ih.met, hrest⟩
          have honward : onward graph cfIndex (state.func :: up)
              = if state.depth ≤ 20 then bareCallers graph cfIndex state.func else [] := by
            rw [← hlength]
            rfl
          rw [searchTurn_cons hqueue, List.map_cons]
          dsimp only
          rw [hpath, honward]
          unfold lookAt
          by_cases hnear : state.depth ≤ 20
          · rw [if_neg (Nat.not_lt.mpr hnear), if_pos hnear]
            exact hstart.callers hpath hlength _
          · rw [if_pos (Nat.lt_of_not_le hnear), if_neg hnear]
            exact hstart

/-- The search looks at `func`, by this way, before it has seen `caller`. -/
theorem exists_turn_iff {f caller func : Str} {up : List Str} :
    (∃ k state rest, (turns graph cfIndex f k).queue = state :: rest ∧ state.func = func ∧
      state.pathSoFar = func :: up ∧ state.depth = up.length ∧
      caller ∉ (turns graph cfIndex f k).visited) ↔
    FirstCome.FirstWay (onward graph cfIndex) f (func :: up) ∧
      FirstCome.Unmet (onward graph cfIndex) f (FirstCome.FirstWay (onward graph cfIndex) f)
        (func :: up) caller := by
  have hend : (FirstCome.walk (onward graph cfIndex) f (enough graph)).stack = [] := by
    rw [(sameWays f (enough graph)).stack, queue_enough]
    rfl
  constructor
  · rintro ⟨k, state, rest, hqueue, -, hpath, -, hnew⟩
    have htaken : FirstCome.TakenAt (onward graph cfIndex) f k (func :: up) :=
      ⟨rest.map (·.pathSoFar), by rw [(sameWays f k).stack, hqueue, List.map_cons, hpath]⟩
    rw [← (sameWays f k).met] at hnew
    exact ⟨(FirstCome.firstWay_iff hend).mpr ⟨k, htaken⟩,
      (FirstCome.notMem_met_iff hend htaken caller).mp hnew⟩
  · rintro ⟨hway, hunmet⟩
    obtain ⟨k, htaken⟩ := (FirstCome.firstWay_iff hend).mp hway
    have hnew := (FirstCome.notMem_met_iff hend htaken caller).mpr hunmet
    rw [(sameWays f k).met] at hnew
    obtain ⟨ways, htop⟩ := htaken
    rw [(sameWays f k).stack] at htop
    obtain ⟨state, rest, hqueue, hpath, -⟩ := List.map_eq_cons_iff.mp htop
    obtain ⟨up', hpath', hlength⟩ := (sameWays f k).ways state (hqueue ▸ List.mem_cons_self)
    obtain ⟨rfl, rfl⟩ := List.cons.inj (hpath.symm.trans hpath')
    exact ⟨k, state, rest, hqueue, rfl, hpath, hlength.symm, hnew⟩

/-- **A catch is reported exactly when it is met on a first way.** -/
theorem mem_nearestCatches {f : Str} {c : NearestCatchInfo} :
    c ∈ queryNearestCatches graph cfIndex f ↔
      ∃ caller func up, CaughtOn graph cfIndex f caller func up c.scope ∧
        c.framesFromTarget = up.length + 1 ∧ c.pathSegment = caller :: func :: up := by
  rw [queryNearestCatches_eq, mem_turns]
  constructor
  · rintro ⟨k, -, state, caller, ⟨rest, hqueue⟩, hnear, hnew, hcalls, hinside, hframes, hpath⟩
    obtain ⟨up, hup, hlength⟩ := (sameWays f k).ways state (hqueue ▸ List.mem_cons_self)
    obtain ⟨hway, hunmet⟩ := exists_turn_iff.mp
      ⟨k, state, rest, hqueue, rfl, hup, hlength.symm, hnew⟩
    rw [← hlength] at hnear hframes
    rw [hup] at hpath
    exact ⟨caller, state.func, up, ⟨hway, hnear, hunmet, hcalls, hinside⟩, hframes, hpath⟩
  · rintro ⟨caller, func, up, ⟨hway, hnear, hunmet, hcalls, hinside⟩, hframes, hpath⟩
    obtain ⟨k, state, rest, hqueue, rfl, hup, hdepth, hnew⟩ := exists_turn_iff.mpr ⟨hway, hunmet⟩
    rw [← hdepth] at hnear hframes
    rw [← hup] at hpath
    refine ⟨k, ?_, state, caller, ⟨rest, hqueue⟩, hnear, hnew, hcalls, hinside, hframes, hpath⟩
    by_contra hk
    rw [turns_of_ended (queue_enough f) (Nat.le_of_not_lt hk), queue_enough] at hqueue
    cases hqueue

end ControlFlowOracle

end Vycor
