/-
The call searches go by waves.

A queue of names with depths, and for each name the one it was met from: the front of the queue is
the rest of one wave, and behind it is as much of the next as the done part of the wave leads to
(`Stands`).  A turn takes a way off the front and puts its new ends at the back.  So the names are
looked at in the order of the waves, and the way back from a name is the one on which it was come
to first.

The search remembers that a name was met from none as the empty name, so a way is printed from its
last empty name on.
-/
import Vycor.Lib.Waves
import Vycor.Proofs.CallOrder

namespace Vycor

open Waves

namespace CallSearch

/-- What the search has met: the ends of these ways, each from the name behind it. -/
structure Met (s : CallSearch) (ws : List (Way Str)) : Prop where
  parent : ∀ w ∈ ws, s.parent.lookup w.1 = some (w.2.headD [])
  only : ∀ x, (s.parent.lookup x).isSome = true ↔ x ∈ ws.map (·.1)

variable {s : CallSearch} {ws : List (Way Str)}

theorem Met.meet_old (h : s.Met ws) {callee : Str} (hold : callee ∈ ws.map (·.1)) (caller : Str)
    (depth : Nat) : s.meet callee caller depth = s := by
  unfold meet
  rw [if_pos ((h.only callee).mpr hold)]

theorem Met.meet_fresh (h : s.Met ws) {callee : Str} (hnew : callee ∉ ws.map (·.1)) (caller : Str)
    (depth : Nat) : s.meet callee caller depth =
      { parent := s.parent.insert callee caller, queue := s.queue ++ [(callee, depth)] } := by
  unfold meet
  rw [if_neg fun hc => hnew ((h.only callee).mp hc)]

theorem Met.meet_new (h : s.Met ws) {w : Way Str} (hnew : w.1 ∉ ws.map (·.1)) (depth : Nat) :
    (s.meet w.1 (w.2.headD []) depth).Met (ws ++ [w]) ∧
      (s.meet w.1 (w.2.headD []) depth).queue = s.queue ++ [(w.1, depth)] := by
  rw [h.meet_fresh hnew]
  refine ⟨⟨fun v hv => ?_, fun x => ?_⟩, rfl⟩
  · rw [UMap.lookup_insert_ite]
    rcases List.mem_append.mp hv with hv | hv
    · rw [if_neg (fun heq : v.1 = w.1 => hnew (List.mem_map.mpr ⟨v, hv, heq⟩))]
      exact h.parent v hv
    · rw [List.mem_singleton.mp hv, if_pos rfl]
  · rw [UMap.lookup_insert_ite, List.map_append, List.mem_append, ← h.only x]
    by_cases hx : x = w.1
    · simp [hx]
    · simp [hx]

/-- Meeting names with the same trail adds the ways to the new ones. -/
theorem Met.foldl_meet (h : s.Met ws) (callees : List Str) (trail : List Str) (depth : Nat) :
    (callees.foldl (fun s c => s.meet c (trail.headD []) depth) s).Met
        (ws ++ firstNew (ws.map (·.1)) (callees.map fun y => (y, trail))) ∧
      (callees.foldl (fun s c => s.meet c (trail.headD []) depth) s).queue =
        s.queue ++ (firstNew (ws.map (·.1)) (callees.map fun y => (y, trail))).map
          fun w => (w.1, depth) := by
  induction callees generalizing s ws with
  | nil =>
      simp only [List.foldl_nil, List.map_nil, firstNew, List.append_nil]
      exact ⟨h, trivial⟩
  | cons c rest ih =>
      rw [List.foldl_cons, List.map_cons]
      by_cases hold : c ∈ ws.map (·.1)
      · rw [firstNew_old hold, h.meet_old hold]
        exact ih h
      · obtain ⟨hmet, hqueue⟩ := h.meet_new (w := (c, trail)) hold depth
        obtain ⟨hmet', hqueue'⟩ := ih hmet
        rw [firstNew_new hold]
        simp only [List.map_append, List.map_cons, List.map_nil, List.append_assoc,
          List.singleton_append, hqueue] at hmet' hqueue' ⊢
        exact ⟨hmet', hqueue'⟩

/-! ### Between two waves

The queue of the program runs waves together: at its front stands what is left
of one wave, behind it what has been met of the next.
-/

section

variable (succ : Str → List Str) (cap : Nat) (seeds : List Str)

/-- As much of the next wave as some ways of wave `n` lead to. -/
def aheadOf (n : Nat) (done : List (Way Str)) : List (Way Str) :=
  if n < cap then firstNew ((known succ cap seeds n).map (·.1)) (done.flatMap (ahead succ)) else []

/-- In wave `n` the ways `done` are worked off. -/
structure Stands (s : CallSearch) (n : Nat) (done todo : List (Way Str)) : Prop where
  bound : n ≤ cap
  wave : wave succ cap seeds n = done ++ todo
  queue : s.queue = todo.map (fun w => (w.1, n)) ++
    (aheadOf succ cap seeds n done).map fun w => (w.1, n + 1)
  met : s.Met (known succ cap seeds n ++ aheadOf succ cap seeds n done)

end

variable {succ : Str → List Str} {cap : Nat} {seeds : List Str} {n : Nat}
  {done todo : List (Way Str)} {w : Way Str}

theorem aheadOf_nil (n : Nat) : aheadOf succ cap seeds n [] = [] := by
  unfold aheadOf
  exact ite_self _

theorem aheadOf_wave (h : wave succ cap seeds n = done) :
    aheadOf succ cap seeds n done = wave succ cap seeds (n + 1) := by
  rw [wave_succ, h]
  rfl

theorem aheadOf_append (done : List (Way Str)) (w : Way Str) :
    aheadOf succ cap seeds n (done ++ [w]) = aheadOf succ cap seeds n done ++
      firstNew ((known succ cap seeds n ++ aheadOf succ cap seeds n done).map (·.1))
        ((if n < cap then succ w.1 else []).map fun y => (y, w.1 :: w.2)) := by
  unfold aheadOf
  by_cases hcap : n < cap
  · simp only [if_pos hcap, List.flatMap_append, List.flatMap_singleton, firstNew_append,
      List.map_append]
    rfl
  · simp [if_neg hcap, firstNew]

theorem stands_start (seeds : List Str) :
    Stands succ cap seeds (start seeds) 0 [] (wave succ cap seeds 0) := by
  have hempty : Met {} [] := ⟨fun _ hw => absurd hw List.not_mem_nil, fun x => by simp⟩
  obtain ⟨hmet, hqueue⟩ := hempty.foldl_meet seeds [] 0
  refine ⟨Nat.zero_le cap, rfl, ?_, ?_⟩
  · rw [aheadOf_nil, List.map_nil, List.append_nil]
    exact hqueue
  · rw [aheadOf_nil, List.append_nil]
    exact hmet

/-- A wave that is worked off makes place for the next. -/
theorem Stands.shift (h : Stands succ cap seeds s n done []) (hcap : n < cap) :
    Stands succ cap seeds s (n + 1) [] (Waves.wave succ cap seeds (n + 1)) := by
  have hdone : Waves.wave succ cap seeds n = done := by
    rw [h.wave, List.append_nil]
  have hahead := aheadOf_wave hdone
  refine ⟨hcap, rfl, ?_, ?_⟩
  · rw [h.queue, hahead, aheadOf_nil]
    simp
  · have hmet := h.met
    rw [hahead, ← known_succ] at hmet
    rw [aheadOf_nil, List.append_nil]
    exact hmet

/-- With an empty queue no way is left. -/
theorem Stands.eq_nil (h : Stands succ cap seeds s n done todo) (hqueue : s.queue = []) :
    todo ++ later succ cap seeds n = [] := by
  have hboth := h.queue
  rw [hqueue] at hboth
  obtain ⟨htodo, hahead⟩ := List.append_eq_nil_iff.mp hboth.symm
  obtain rfl := List.map_eq_nil_iff.mp htodo
  have hdone : Waves.wave succ cap seeds n = done := by
    rw [h.wave, List.append_nil]
  rw [List.nil_append]
  refine later_eq_nil ?_
  rw [← aheadOf_wave hdone]
  exact List.map_eq_nil_iff.mp hahead

/-- At the front of the queue is the next way, in this wave or in the next. -/
theorem Stands.head (h : Stands succ cap seeds s n done todo) {q : Str × Nat}
    {rest : List (Str × Nat)} (hqueue : s.queue = q :: rest) :
    ∃ n' done' w todo', Stands succ cap seeds s n' done' (w :: todo') ∧ q = (w.1, n') ∧
      todo ++ later succ cap seeds n = w :: (todo' ++ later succ cap seeds n') ∧
      known succ cap seeds n' ++ aheadOf succ cap seeds n' done' =
        known succ cap seeds n ++ aheadOf succ cap seeds n done := by
  cases todo with
  | cons w todo' =>
      have hboth := h.queue
      rw [hqueue] at hboth
      exact ⟨n, done, w, todo', h, (List.cons.inj hboth).1, rfl, rfl⟩
  | nil =>
      have hdone : Waves.wave succ cap seeds n = done := by
        rw [h.wave, List.append_nil]
      have hboth := h.queue
      rw [hqueue, aheadOf_wave hdone, List.map_nil, List.nil_append] at hboth
      cases hnext : Waves.wave succ cap seeds (n + 1) with
      | nil => rw [hnext] at hboth; cases hboth
      | cons w todo' =>
          have hcap : n < cap := (mem_wave_succ (hnext ▸ List.mem_cons_self)).1
          have hshift := h.shift hcap
          rw [hnext] at hboth hshift
          refine ⟨n + 1, [], w, todo', hshift, (List.cons.inj hboth).1, ?_, ?_⟩
          · rw [List.nil_append, later_of_lt hcap, hnext]
            rfl
          · rw [aheadOf_nil, List.append_nil, known_succ, aheadOf_wave hdone]

/-- A turn: the next way is taken off, and its new ends are queued. -/
theorem Stands.turn (h : Stands succ cap seeds s n done (w :: todo)) {q : Str × Nat}
    {rest : List (Str × Nat)} (hqueue : s.queue = q :: rest) {callees : List Str}
    (hcallees : callees = if n < cap then succ w.1 else []) :
    Stands succ cap seeds
      (callees.foldl (fun s c => s.meet c w.1 (n + 1)) { s with queue := rest }) n (done ++ [w])
      todo := by
  have hmet : Met { s with queue := rest } (known succ cap seeds n ++ aheadOf succ cap seeds n done) :=
    ⟨h.met.parent, h.met.only⟩
  obtain ⟨hmet', hqueue'⟩ := hmet.foldl_meet callees (w.1 :: w.2) (n + 1)
  have hboth := h.queue
  rw [hqueue] at hboth
  refine ⟨h.bound, by rw [h.wave, List.append_assoc]; rfl, ?_, ?_⟩
  · rw [aheadOf_append, ← hcallees, List.map_append, ← List.append_assoc]
    refine hqueue'.trans (congrArg (· ++ _) ?_)
    exact (List.cons.inj hboth).2
  · rw [aheadOf_append, ← hcallees, ← List.append_assoc]
    exact hmet'

/-! ### Ways back

The parent map is followed up to the empty name. What it prints is the way by
which a name was met first, as long as no name on it is empty.
-/

/-- The names of a way in the order of the calls, from the last that is empty on. -/
def shown (w : Way Str) : List Str := (w.1 :: w.2.takeWhile (· ≠ [])).reverse

/-- The names that `chainUp` prepends. -/
def namesUp (parent : UMap Str Str) : Nat → Str → List Str → List Str
  | 0, _, names => names
  | fuel + 1, cur, names =>
    if cur = [] then names else namesUp parent fuel (parent.getD cur []) (cur :: names)

/-- The names of `CallSearch.chain`. -/
def names (s : CallSearch) (name : Str) : List Str :=
  namesUp s.parent s.parent.entries.length (s.parent.getD name []) [name]

/-- The names as a call order is printed. -/
def printed (names : List Str) : Str := (str " -> ").intercalate names

theorem printed_cons {x : Str} {names : List Str} (h : names ≠ []) :
    printed (x :: names) = x ++ str " -> " ++ printed names := by
  obtain ⟨y, rest, rfl⟩ := List.exists_cons_of_ne_nil h
  simp [printed, List.intercalate]

theorem chainUp_printed (parent : UMap Str Str) (fuel : Nat) (cur : Str) {names : List Str}
    (h : names ≠ []) :
    chainUp parent fuel cur (printed names) = printed (namesUp parent fuel cur names) := by
  induction fuel generalizing cur names with
  | zero => rfl
  | succ fuel ih =>
      unfold chainUp namesUp
      split
      · rfl
      · rw [← printed_cons h]
        exact ih _ (List.cons_ne_nil _ _)

/-- The chain is the names with arrows between them. -/
theorem chain_eq_printed (s : CallSearch) (name : Str) : s.chain name = printed (s.names name) := by
  unfold chain names
  rw [← chainUp_printed _ _ _ (List.cons_ne_nil _ _)]
  simp [printed]

theorem namesUp_back (hmet : ∀ v ∈ ws, s.parent.lookup v.1 = some (v.2.headD []))
    (hbehind : ∀ y x back, (y, x :: back) ∈ ws → (x, back) ∈ ws) (fuel : Nat) {y : Str}
    {back : List Str} (hw : (y, back) ∈ ws) (hfuel : back.length ≤ fuel) (names : List Str) :
    namesUp s.parent fuel (back.headD []) names = (back.takeWhile (· ≠ [])).reverse ++ names := by
  induction back generalizing y fuel names with
  | nil => cases fuel <;> rfl
  | cons x rest ih =>
      obtain ⟨fuel, rfl⟩ := Nat.exists_eq_add_of_le' (Nat.lt_of_lt_of_le (Nat.zero_lt_succ _) hfuel)
      have hx := hbehind y x rest hw
      unfold namesUp
      by_cases hempty : x = []
      · simp [hempty]
      · rw [List.headD_cons, if_neg hempty, UMap.getD, hmet _ hx, Option.getD_some]
        rw [ih fuel hx (by simpa using hfuel)]
        simp [hempty]

/-- The names of a chain are those of the way, when what lies behind a way is met too. -/
theorem Met.names_eq (h : s.Met ws) (hbehind : ∀ y x back, (y, x :: back) ∈ ws → (x, back) ∈ ws)
    (hw : w ∈ ws) (hnodup : w.2.Nodup) (hknown : ∀ x ∈ w.2, x ∈ ws.map (·.1)) :
    s.names w.1 = shown w := by
  have hfuel : w.2.length ≤ s.parent.entries.length := by
    have hkeys : w.2 ⊆ s.parent.keys := fun x hx => by
      obtain ⟨v, hv, rfl⟩ := List.mem_map.mp (hknown x hx)
      exact AList.lookup_isSome.mp (by rw [h.parent v hv]; rfl)
    have hle := (hnodup.subperm hkeys).length_le
    rwa [AList.keys, List.keys, List.length_map] at hle
  unfold names shown
  rw [UMap.getD, h.parent w hw, Option.getD_some, namesUp_back h.parent hbehind _ hw hfuel,
    List.reverse_cons]

/-- From a name that was met the loop over its callers comes to the empty name. -/
theorem Met.loop_ends (h : s.Met ws) (hbehind : ∀ y x back, (y, x :: back) ∈ ws → (x, back) ∈ ws)
    (hw : w ∈ ws) : ∃ k, (fun cur => s.parent.getD cur [])^[k] w.1 = [] := by
  obtain ⟨y, back⟩ := w
  have hstep : s.parent.getD y [] = back.headD [] := by
    rw [UMap.getD, h.parent _ hw, Option.getD_some]
  induction back generalizing y with
  | nil => exact ⟨1, hstep⟩
  | cons x back ih =>
      have hx := hbehind y x back hw
      have hnext : s.parent.getD x [] = back.headD [] := by
        rw [UMap.getD, h.parent _ hx, Option.getD_some]
      obtain ⟨k, hk⟩ := ih x hx hnext
      refine ⟨k + 1, ?_⟩
      rw [Function.iterate_succ_apply]
      exact (congrArg _ hstep).trans hk

/-- What is ahead of a part of a wave comes first in the next. -/
theorem aheadOf_first (hcap : n < cap) (h : Waves.wave succ cap seeds n = done ++ todo) :
    ∃ rest, Waves.wave succ cap seeds (n + 1) = aheadOf succ cap seeds n done ++ rest := by
  unfold aheadOf
  rw [wave_succ_of_lt hcap, if_pos hcap, h, List.flatMap_append, firstNew_append]
  exact ⟨_, rfl⟩

theorem mem_aheadOf {v : Way Str} (hdone : ∀ u ∈ done, u ∈ Waves.wave succ cap seeds n)
    (h : v ∈ aheadOf succ cap seeds n done) :
    v.1 ∉ (known succ cap seeds n).map (·.1) ∧
      ∃ u ∈ Waves.wave succ cap seeds n, v.1 ∈ succ u.1 ∧ v.2 = u.1 :: u.2 := by
  unfold aheadOf at h
  split at h
  · obtain ⟨hmem, hnew⟩ := mem_firstNew h
    obtain ⟨u, hu, hahead⟩ := List.mem_flatMap.mp hmem
    obtain ⟨y, hy, rfl⟩ := List.mem_map.mp hahead
    exact ⟨hnew, u, hdone u hu, hy, rfl⟩
  · cases h

/-- What lies behind a way that is met is known. -/
theorem behind_aheadOf (hdone : ∀ u ∈ done, u ∈ Waves.wave succ cap seeds n) {y x : Str}
    {back : List Str} (h : (y, x :: back) ∈ known succ cap seeds n ++ aheadOf succ cap seeds n done) :
    (x, back) ∈ known succ cap seeds n := by
  rcases List.mem_append.mp h with h | h
  · exact behind_known h
  · obtain ⟨-, u, hu, -, hback⟩ := mem_aheadOf hdone h
    obtain ⟨rfl, rfl⟩ := List.cons.inj hback
    exact wave_sub_known n _ hu

theorem Stands.mem_done (h : Stands succ cap seeds s n done todo) :
    ∀ u ∈ done, u ∈ Waves.wave succ cap seeds n := fun u hu => by
  rw [h.wave]
  exact List.mem_append_left _ hu

theorem Stands.mem_known (h : Stands succ cap seeds s n done (w :: todo)) :
    w ∈ Waves.wave succ cap seeds n := by
  rw [h.wave]
  exact List.mem_append_right _ List.mem_cons_self

theorem Stands.names_eq (h : Stands succ cap seeds s n done (w :: todo)) : s.names w.1 = shown w := by
  obtain ⟨hnodup, hknown⟩ := nodup_of_mem_wave h.mem_known
  refine h.met.names_eq
    (fun _ _ _ hmem => List.mem_append_left _ (behind_aheadOf h.mem_done hmem))
    (List.mem_append_left _ (wave_sub_known n w h.mem_known)) (List.nodup_cons.mp hnodup).2
    fun x hx => ?_
  rw [List.map_append]
  exact List.mem_append_left _ (hknown x (List.mem_cons_of_mem _ hx))

/-- From the name at the front of the queue the loop over the callers ends. -/
theorem Stands.loop_ends (h : Stands succ cap seeds s n done todo) {q : Str × Nat}
    {rest : List (Str × Nat)} (hqueue : s.queue = q :: rest) :
    ∃ k, (fun cur => s.parent.getD cur [])^[k] q.1 = [] := by
  obtain ⟨n', done', w, todo', hstands, rfl, -, -⟩ := h.head hqueue
  exact hstands.met.loop_ends
    (fun _ _ _ hmem => List.mem_append_left _ (behind_aheadOf hstands.mem_done hmem))
    (List.mem_append_left _ (wave_sub_known n' w hstands.mem_known))

end CallSearch

end Vycor
