/-
What the dead-code walk makes of its entry points.

The walk is seeded in the order of the entry points, so two lists of them that first name the
same functions in the same order give the same walk.  The pessimistic walk is a search over
the Proven calls and takes only what the entry points reach: there the order does not matter
either.  In the optimistic walk it does, see `Proofs/DeadCodeQuestions.lean`.
-/
import Vycor.Lib.Worklist
import Vycor.Model.DeadCode

namespace Vycor

namespace DeadCodeAnalyzer

/-! ### Seeds -/

/-- The entry points in the order in which they are first named. -/
def firsts (entryPoints : List Str) : List Str := entryPoints.foldl Dedup.pushUnique []

theorem mem_firsts {entryPoints : List Str} {name : Str} :
    name ∈ firsts entryPoints ↔ name ∈ entryPoints := by
  unfold firsts
  rw [Dedup.mem_foldl_pushUnique]
  simp

theorem nodup_firsts (entryPoints : List Str) : (firsts entryPoints).Nodup :=
  Dedup.nodup_foldl_pushUnique entryPoints List.nodup_nil

/-- The usrs that the entry points resolve to. -/
def startUsrs (g : CallGraph) (entryPoints : List Str) : List Str :=
  entryPoints.flatMap g.usrsForName

/-- The part of a walk that the search is. -/
def Walk.search (w : Walk) : Worklist.State Str := { met := w.alive, queue := w.queue }

theorem search_enqueue (w : Walk) (usr : Str) :
    (enqueue w usr).search = Worklist.enqueue w.search usr := by
  unfold enqueue Worklist.enqueue Walk.search
  split <;> rfl

theorem foldl_enqueue (usrs : List Str) (w : Walk) :
    usrs.foldl enqueue w
      = { w with
          alive := (usrs.foldl Worklist.enqueue w.search).met
          queue := (usrs.foldl Worklist.enqueue w.search).queue } := by
  induction usrs generalizing w with
  | nil => rfl
  | cons usr rest ih =>
      rw [List.foldl_cons, ih, List.foldl_cons, search_enqueue]
      unfold enqueue
      split <;> rfl

theorem foldl_seed (g : CallGraph) (entryPoints : List Str) (w : Walk) :
    entryPoints.foldl (seed g) w = (startUsrs g entryPoints).foldl enqueue w := by
  unfold startUsrs
  rw [List.foldl_flatMap]
  rfl

/-- The walk starts with the usrs of the entry points, each once. -/
theorem seeded (g : CallGraph) (entryPoints : List Str) :
    entryPoints.foldl (seed g) {}
      = { alive := (startUsrs g entryPoints).foldl Dedup.pushUnique []
          queue := (startUsrs g entryPoints).foldl Dedup.pushUnique [] } := by
  rw [foldl_seed, foldl_enqueue, show ({} : Walk).search = {} from rfl,
    Worklist.foldl_enqueue_empty]

theorem bfs_firsts {entryPoints entryPoints' : List Str}
    (h : firsts entryPoints = firsts entryPoints') (g : CallGraph) (optimistic : Bool) :
    bfs g entryPoints optimistic = bfs g entryPoints' optimistic := by
  have hone : ∀ eps, (startUsrs g eps).foldl Dedup.pushUnique []
      = (startUsrs g (firsts eps)).foldl Dedup.pushUnique [] :=
    fun eps => Dedup.foldl_pushUnique_flatMap g.usrsForName eps
  unfold bfs
  rw [seeded, seeded, hone entryPoints, hone entryPoints', h]

/-! ### The pessimistic walk

Without dispatches the rounds are idle, and what is left is a search over proven
calls.
-/

/-- What a node calls for certain. -/
def provenCallees (g : CallGraph) (usr : Str) : List Str :=
  ((g.calleesOf usr).filter (·.confidence = .Proven)).map (·.calleeUsr)

theorem search_noteConstructed (g : CallGraph) (w : Walk) (edge : CallGraphEdge) :
    (noteConstructed g w edge).search = w.search := by
  unfold noteConstructed
  split
  · split
    · split <;> rfl
    · rfl
  · rfl

theorem search_visitEdge (g : CallGraph) (w : Walk) (edge : CallGraphEdge) :
    (visitEdge g false w edge).search
      = if edge.confidence = .Proven then Worklist.enqueue w.search edge.calleeUsr
        else w.search := by
  unfold visitEdge shouldFollowEdge
  by_cases hproven : edge.confidence = .Proven
  · simp only [hproven, if_true]
    rw [search_enqueue, search_noteConstructed]
  · simp only [hproven, if_false]
    exact search_noteConstructed g w edge

theorem search_visitEdges (g : CallGraph) (edges : List CallGraphEdge) (w : Walk) :
    (edges.foldl (visitEdge g false) w).search
      = ((edges.filter (·.confidence = .Proven)).map (·.calleeUsr)).foldl Worklist.enqueue
          w.search := by
  induction edges generalizing w with
  | nil => rfl
  | cons edge rest ih =>
      rw [List.foldl_cons, ih, search_visitEdge]
      by_cases hproven : edge.confidence = .Proven <;> simp [hproven]

/-- The pessimistic walk is the search over Proven calls. -/
theorem search_drain (g : CallGraph) (fuel : Nat) (w : Walk) :
    (drain g false fuel w).search = Worklist.drain (provenCallees g) fuel w.search := by
  induction fuel generalizing w with
  | zero => rfl
  | succ fuel ih =>
      unfold drain Worklist.drain
      cases hqueue : w.queue with
      | nil =>
          have hsearch : w.search.queue = [] := hqueue
          rw [hsearch]
      | cons current rest =>
          have hsearch : w.search.queue = current :: rest := hqueue
          rw [hsearch]
          show (drain g false fuel _).search = _
          rw [ih, search_visitEdges]
          rfl

theorem drain_done (g : CallGraph) (optimistic : Bool) (fuel : Nat) {w : Walk}
    (h : w.queue = []) : drain g optimistic fuel w = w := by
  cases fuel with
  | zero => rfl
  | succ fuel =>
      unfold drain
      rw [h]

/-- A round after the queue ran empty adds nothing. -/
theorem rounds_done (g : CallGraph) (fuel : Nat) {w : Walk} (h : w.queue = []) :
    (rounds g false fuel w).alive = w.alive := by
  induction fuel generalizing w with
  | zero => rfl
  | succ fuel ih =>
      unfold rounds
      rw [drain_done g false _ (w := { w with changed := false }) h]
      rfl

theorem rounds_alive (g : CallGraph) (fuel : Nat) (w : Walk)
    (h : (drain g false (g.interner.size + 2) { w with changed := false }).queue = []) :
    (rounds g false (fuel + 1) w).alive
      = (drain g false (g.interner.size + 2) { w with changed := false }).alive := by
  unfold rounds
  simp only [Bool.false_eq_true, if_false]
  split
  · rfl
  · exact rounds_done g fuel h

theorem reached_mem_strings {g : CallGraph} {entryPoints : List Str} {usr : Str}
    (h : Worklist.Reached (provenCallees g) (startUsrs g entryPoints) usr) :
    usr ∈ [] :: g.interner.strings := by
  obtain ⟨start, hstart, hpath⟩ := h
  cases hpath with
  | refl =>
      obtain ⟨name, -, hname⟩ := List.mem_flatMap.mp hstart
      obtain ⟨id, -, rfl⟩ := List.mem_map.mp hname
      exact StringInterner.resolve_mem_strings _ id
  | tail _ hstep =>
      obtain ⟨edge, hedge, rfl⟩ := List.mem_map.mp hstep
      obtain ⟨_, -, hrefs⟩ := List.mem_flatMap.mp (List.mem_filter.mp hedge).1
      obtain ⟨ref, -, rfl⟩ := List.mem_map.mp hrefs
      exact StringInterner.resolve_mem_strings _ ref.callee

/-- **The pessimistic walk reaches what Proven calls reach**, in any graph. -/
theorem mem_bfs (g : CallGraph) (entryPoints : List Str) (usr : Str) :
    usr ∈ bfs g entryPoints false
      ↔ Worklist.Reached (provenCallees g) (startUsrs g entryPoints) usr := by
  have hfuel : ([] :: g.interner.strings).length < g.interner.size + 2 := by
    simp [StringInterner.size]
  have hreach : ∀ u, Worklist.Reached (provenCallees g) (startUsrs g entryPoints) u →
      u ∈ [] :: g.interner.strings := fun _ => reached_mem_strings
  obtain ⟨hempty, hmet⟩ := Worklist.mem_drain hreach hfuel usr
  have hsearch : ∀ w : Walk, w = entryPoints.foldl (seed g) {} →
      (drain g false (g.interner.size + 2) { w with changed := false }).search
        = Worklist.drain (provenCallees g) (g.interner.size + 2)
            ((startUsrs g entryPoints).foldl Worklist.enqueue {}) := by
    rintro w rfl
    rw [search_drain, seeded, Worklist.foldl_enqueue_empty]
    rfl
  have hdrain := hsearch _ rfl
  rw [← hdrain] at hempty hmet
  show usr ∈ (rounds g false (g.nodeCount + 1 + 1) _).alive ↔ _
  rw [rounds_alive g _ _ hempty]
  exact hmet

theorem mem_bfs_congr {entryPoints entryPoints' : List Str}
    (h : ∀ name, name ∈ entryPoints ↔ name ∈ entryPoints') (g : CallGraph) (usr : Str) :
    usr ∈ bfs g entryPoints false ↔ usr ∈ bfs g entryPoints' false := by
  have hstart : ∀ u, u ∈ startUsrs g entryPoints ↔ u ∈ startUsrs g entryPoints' := by
    intro u
    unfold startUsrs
    simp only [List.mem_flatMap, h]
  rw [mem_bfs, mem_bfs]
  unfold Worklist.Reached
  simp only [hstart]

/-! ### Verdicts -/

theorem getResults_congr {pessimistic pessimistic' : List Str}
    (h : ∀ usr, usr ∈ pessimistic ↔ usr ∈ pessimistic') (g : CallGraph) (optimistic : List Str) :
    getResults g pessimistic optimistic = getResults g pessimistic' optimistic := by
  have hone : ∀ usr, livenessOf pessimistic optimistic usr = livenessOf pessimistic' optimistic usr := by
    intro usr
    unfold livenessOf
    simp only [h]
  unfold getResults
  simp only [hone]

/-- The two lists of entry points give the same verdicts in every graph. -/
def SameSeeds (optimistic : Bool) (entryPoints entryPoints' : List Str) : Prop :=
  if optimistic then firsts entryPoints = firsts entryPoints'
  else ∀ name, name ∈ entryPoints ↔ name ∈ entryPoints'

theorem SameSeeds.symm {optimistic : Bool} {entryPoints entryPoints' : List Str}
    (h : SameSeeds optimistic entryPoints entryPoints') :
    SameSeeds optimistic entryPoints' entryPoints := by
  cases optimistic with
  | false => exact fun name => (h name).symm
  | true => exact Eq.symm h

theorem SameSeeds.trans {optimistic : Bool} {first second third : List Str}
    (h : SameSeeds optimistic first second) (h' : SameSeeds optimistic second third) :
    SameSeeds optimistic first third := by
  cases optimistic with
  | false => exact fun name => (h name).trans (h' name)
  | true => exact Eq.trans h h'

theorem SameSeeds.analyze {optimistic : Bool} {entryPoints entryPoints' : List Str}
    (h : SameSeeds optimistic entryPoints entryPoints') (g : CallGraph) :
    analyze g entryPoints optimistic = analyze g entryPoints' optimistic := by
  unfold DeadCodeAnalyzer.analyze
  cases optimistic with
  | false => exact getResults_congr (mem_bfs_congr h g) g []
  | true => rw [bfs_firsts h, bfs_firsts h]

end DeadCodeAnalyzer

end Vycor
