/-
Which paths the searches return.

`find_call_chain` lists simple paths, `query_locks_held` walks that use no call twice.  Both
go from the target back to the first start they meet, so a path is described by its edges in
calling order: `Leads` is what the two kinds have in common.  Read from the target it is
`Back`, which has the shape of the search.

The corridor is a lower bound for what is left of a path.  It is computed over the callees and
the search goes over the callers, so this needs the two to show the same edges.
-/
import Vycor.Proofs.EntrySeeds

namespace Vycor

open PathSearch Dedup

variable {g : CallGraph}

/-! ### No caller twice -/

theorem CallGraph.WF.nodup_liveInto (hwf : g.WF) (v : SId) :
    ((g.liveInto v).map (·.toEdgeKey)).Nodup := by
  have hkeys : ∀ idxs : List Nat, idxs.Nodup →
      ((((idxs.filterMap (g.edges[·]?)).filter (·.refs ≠ 0)).map (·.toEdgeKey)).Nodup) := by
    intro idxs hidxs
    induction idxs with
    | nil => exact List.nodup_nil
    | cons i rest ih =>
        obtain ⟨hnot, hrest⟩ := List.nodup_cons.mp hidxs
        cases hi : g.edges[i]? with
        | none =>
            rw [List.filterMap_cons_none hi]
            exact ih hrest
        | some e =>
            rw [List.filterMap_cons_some hi]
            by_cases hrefs : e.refs = 0
            · rw [List.filter_cons_of_neg (by simpa using hrefs)]
              exact ih hrest
            · rw [List.filter_cons_of_pos (by simpa using hrefs), List.map_cons, List.nodup_cons]
              refine ⟨fun hmem => ?_, ih hrest⟩
              -- The index gives one position for a live key.
              obtain ⟨e', he', hkey⟩ := List.mem_map.mp hmem
              obtain ⟨hin, hrefs'⟩ := List.mem_filter.mp he'
              obtain ⟨j, hj, he'⟩ := List.mem_filterMap.mp hin
              have hlive : LiveAt g.edges i e.toEdgeKey := ⟨e, hi, rfl, by omega⟩
              have hlive' : LiveAt g.edges j e.toEdgeKey :=
                ⟨e', he', hkey, Nat.pos_of_ne_zero (by simpa using hrefs')⟩
              have hij := ((hwf.edges.indexed _ _).mpr hlive).symm.trans
                ((hwf.edges.indexed _ _).mpr hlive')
              exact hnot (Option.some.inj hij ▸ hj)
  exact hkeys _ (hwf.edges.inn v).1

theorem CallGraph.WF.nodup_callerRefs (hwf : g.WF) (v : SId) : (g.callerRefsOf v).Nodup := by
  have hlive : (((g.liveInto v).filter (·.kind ≠ .functionPointerReturn)).map
      (·.toEdgeKey)).Nodup :=
    ((List.filter_sublist).map _).nodup (hwf.nodup_liveInto v)
  have hdispatched : ∀ c ∈ g.dispatchedTo v, (c.2.caller, c.2.callSite) = c.1 := by
    intro c hc
    obtain ⟨base, -, hc⟩ := List.mem_flatMap.mp hc
    obtain ⟨e, -, rfl⟩ := List.mem_map.mp hc
    rfl
  have hreturned : ∀ c ∈ g.returnedTo v, (c.2.caller, c.2.callSite) = c.1 := by
    intro c hc
    obtain ⟨returner, -, hc⟩ := List.mem_flatMap.mp hc
    obtain ⟨e, -, rfl⟩ := List.mem_map.mp hc
    rfl
  have hkept : ∀ b ∈ ((g.liveInto v).filter (·.kind ≠ .functionPointerReturn)).map (·.toEdgeKey),
      (b.caller, b.callSite) ∈ ((g.liveInto v).filter (·.kind ≠ .functionPointerReturn)).map
        fun e => (e.caller, e.callSite) := by
    intro b hb
    obtain ⟨e, he, rfl⟩ := List.mem_map.mp hb
    exact List.mem_map.mpr ⟨e, he, rfl⟩
  obtain ⟨hnodup, hseen⟩ := nodup_emitAll (_, _) (g.dispatchedTo v) hdispatched hkept hlive
  exact (nodup_emitAll _ (g.returnedTo v) hreturned hseen hnodup).1

/-! ### Paths to a target -/

/-- The nodes of a path, in calling order. -/
def pathNodes (target : SId) (path : List EdgeRef) : List SId := path.map (·.caller) ++ [target]

/-- The edges lead from a start to the target through no other start, and no node between the
two ends is a hub. -/
structure Leads (g : CallGraph) (starts : List SId) (maxFanIn : Nat) (target : SId)
    (path : List EdgeRef) : Prop where
  shown : ∀ e ∈ path, e ∈ g.callerRefsOf e.callee
  joined : path.map (·.callee) = (pathNodes target path).tail
  first : ∃ s ∈ starts, (pathNodes target path).head? = some s
  only : ∀ n ∈ (pathNodes target path).tail, n ∉ starts
  hubs : ∀ n ∈ (pathNodes target path).tail.dropLast, ¬ isHub g maxFanIn n

/-- A path read from a node back to the start. -/
inductive Back (g : CallGraph) (starts : List SId) (maxFanIn : Nat) : SId → List EdgeRef → Prop
  | start {n : SId} : n ∈ starts → Back g starts maxFanIn n []
  | step {n : SId} {e : EdgeRef} {rest : List EdgeRef} : n ∉ starts → e ∈ g.callerRefsOf n →
      (rest ≠ [] → ¬ isHub g maxFanIn e.caller) → Back g starts maxFanIn e.caller rest →
      Back g starts maxFanIn n (e :: rest)

section Paths

variable {starts : List SId} {maxFanIn : Nat}

theorem pathNodes_ne_nil (target : SId) (path : List EdgeRef) : pathNodes target path ≠ [] := by
  simp [pathNodes]

theorem pathNodes_concat (target : SId) (path : List EdgeRef) (e : EdgeRef) :
    pathNodes target (path ++ [e]) = pathNodes e.caller path ++ [target] := by
  simp [pathNodes]

/-- The nodes after the first, of which only the last may be a hub. -/
theorem pathNodes_tail (target : SId) (path : List EdgeRef) :
    (pathNodes target path).tail
      = (pathNodes target path).tail.dropLast ++ if path = [] then [] else [target] := by
  cases path with
  | nil => rfl
  | cons e rest => simp [pathNodes]

theorem leads_concat (hwf : g.WF) {target : SId} {path : List EdgeRef} {e : EdgeRef} :
    Leads g starts maxFanIn target (path ++ [e]) ↔
      target ∉ starts ∧ e ∈ g.callerRefsOf target ∧
        (path ≠ [] → ¬ isHub g maxFanIn e.caller) ∧ Leads g starts maxFanIn e.caller path := by
  have htail : (pathNodes target (path ++ [e])).tail = (pathNodes e.caller path).tail ++ [target] := by
    rw [pathNodes_concat, List.tail_append_of_ne_nil (pathNodes_ne_nil _ _)]
  have hhead : (pathNodes target (path ++ [e])).head? = (pathNodes e.caller path).head? := by
    rw [pathNodes_concat, List.head?_append_of_ne_nil _ (pathNodes_ne_nil _ _)]
  have hcallee : (path ++ [e]).map (·.callee) = (pathNodes target (path ++ [e])).tail ↔
      path.map (·.callee) = (pathNodes e.caller path).tail ∧ e.callee = target := by
    rw [htail, List.map_append, List.map_singleton, List.append_singleton_inj]
  have hhubs : (∀ n ∈ (pathNodes e.caller path).tail, ¬ isHub g maxFanIn n) ↔
      (path ≠ [] → ¬ isHub g maxFanIn e.caller) ∧
        ∀ n ∈ (pathNodes e.caller path).tail.dropLast, ¬ isHub g maxFanIn n := by
    rw [pathNodes_tail]
    by_cases hnil : path = []
    · simp [hnil, pathNodes]
    · simp only [if_neg hnil, List.dropLast_concat, List.forall_mem_append, List.forall_mem_singleton]
      exact ⟨fun h => ⟨fun _ => h.2, h.1⟩, fun h => ⟨h.2, h.1 hnil⟩⟩
  constructor
  · rintro ⟨hshown, hjoined, hfirst, honly, hhub⟩
    rw [htail, List.forall_mem_append, List.forall_mem_singleton] at honly
    rw [htail, List.dropLast_concat, hhubs] at hhub
    rw [hhead] at hfirst
    rw [List.forall_mem_append, List.forall_mem_singleton] at hshown
    obtain ⟨hjoined, hlast⟩ := hcallee.mp hjoined
    refine ⟨honly.2, hlast ▸ hshown.2, hhub.1, hshown.1, hjoined, hfirst, honly.1, hhub.2⟩
  · rintro ⟨htarget, he, hhub, hleads⟩
    have hlast := hwf.callee_of_callerRefs he
    refine ⟨?_, hcallee.mpr ⟨hleads.joined, hlast⟩, ?_, ?_, ?_⟩
    · rw [List.forall_mem_append, List.forall_mem_singleton]
      exact ⟨hleads.shown, hlast.symm ▸ he⟩
    · rw [hhead]
      exact hleads.first
    · rw [htail, List.forall_mem_append, List.forall_mem_singleton]
      exact ⟨hleads.only, htarget⟩
    · rw [htail, List.dropLast_concat, hhubs]
      exact ⟨hhub, hleads.hubs⟩

theorem leads_iff_back (hwf : g.WF) {target : SId} {run : List EdgeRef} :
    Leads g starts maxFanIn target run.reverse ↔ Back g starts maxFanIn target run := by
  induction run generalizing target with
  | nil =>
      constructor
      · rintro ⟨-, -, ⟨s, hs, hhead⟩, -, -⟩
        obtain rfl : target = s := by simpa [pathNodes] using hhead
        exact Back.start hs
      · intro h
        cases h with
        | start hs => exact ⟨by simp, rfl, ⟨target, hs, rfl⟩, by simp [pathNodes], by simp [pathNodes]⟩
  | cons e rest ih =>
      rw [List.reverse_cons, leads_concat hwf, ih, ne_eq, List.reverse_eq_nil_iff]
      constructor
      · rintro ⟨htarget, he, hhub, hrest⟩
        exact Back.step htarget he hhub hrest
      · intro h
        cases h with
        | step htarget he hhub hrest => exact ⟨htarget, he, hhub, hrest⟩

/-- What is left of a path is no shorter than the distance of the node it leads to. -/
theorem Back.near {good : EdgeRef → Prop} (succ : SId → List SId)
    (hsucc : ∀ {n e}, e ∈ g.callerRefsOf n → good e → n ∈ succ e.caller) {n : SId}
    {run : List EdgeRef} (h : Back g starts maxFanIn n run) (hgood : ∀ e ∈ run, good e)
    {bound : Nat} (hle : run.length ≤ bound) :
    ∃ d ≤ run.length, (distances succ bound starts).lookup n = some d := by
  have hsteps : ∃ s ∈ starts, Steps (fun x y => y ∈ succ x) s run.length n := by
    clear hle
    induction h with
    | start hs => exact ⟨_, hs, Steps.zero⟩
    | step _ he _ _ ih =>
        obtain ⟨hfirst, hrest⟩ := List.forall_mem_cons.mp hgood
        obtain ⟨s, hs, hsteps⟩ := ih hrest
        exact ⟨s, hs, hsteps.succ (hsucc he hfirst)⟩
  obtain ⟨s, hs, hsteps⟩ := hsteps
  exact distances_le hs hsteps hle

end Paths

/-! ### A search lists the paths

Both tools search callers from the target and differ in what may not come twice.
What they share is put down once, with the key of an edge and the limits as
parameters.
-/

section Search

variable {κ : Type} {p : Problem SId EdgeRef κ} {goal isOpen : Nat → SId → Prop}
  {ok : Nat → EdgeRef → Prop} {good : EdgeRef → Prop} {starts : List SId}
  {maxFanIn maxDepth counted : Nat} {dist : UMap SId Nat}

/-- How a search over callers treats nodes and edges.  `counted` is what the depth limit
counts beyond the edges. -/
structure Searches (g : CallGraph) (p : Problem SId EdgeRef κ) (goal isOpen : Nat → SId → Prop)
    (ok : Nat → EdgeRef → Prop) (good : EdgeRef → Prop) (starts : List SId)
    (maxFanIn maxDepth counted : Nat) (dist : UMap SId Nat) : Prop
    extends PathSearch.Exact p goal isOpen ok maxDepth where
  edges : p.edges = g.callerRefsOf
  next : p.next = (·.caller)
  isGoal : ∀ {d n}, d + counted ≤ maxDepth → (goal d n ↔ n ∈ starts)
  isStep : ∀ {d n e}, isOpen d n ∧ ok d e ↔
    n ∉ starts ∧ (d = 0 ∨ ¬ isHub g maxFanIn n) ∧ good e ∧
      inCorridor dist maxDepth (d + 1 + counted) e.caller
  near : ∀ {n run}, Back g starts maxFanIn n run → (∀ e ∈ run, good e) →
    run.length + counted ≤ maxDepth → ∃ d ≤ run.length, dist.lookup n = some d

theorem Searches.run_iff (h : Searches g p goal isOpen ok good starts maxFanIn maxDepth counted dist)
    {d : Nat} {n : SId} {run : List EdgeRef} (hd : d + counted ≤ maxDepth) :
    Run p goal isOpen ok d n run ↔
      Back g starts maxFanIn n run ∧ (∀ e ∈ run, good e) ∧ d + run.length + counted ≤ maxDepth ∧
        (d = 0 ∨ run = [] ∨ ¬ isHub g maxFanIn n) := by
  induction run generalizing d n with
  | nil =>
      constructor
      · intro hrun
        cases hrun with
        | goal hgoal => exact ⟨Back.start ((h.isGoal hd).mp hgoal), by simp, hd, Or.inr (Or.inl rfl)⟩
      · rintro ⟨hback, -, -, -⟩
        cases hback with
        | start hs => exact Run.goal ((h.isGoal hd).mpr hs)
  | cons e rest ih =>
      constructor
      · intro hrun
        cases hrun with
        | edge hopen he hok hrest =>
            obtain ⟨hstart, hhub, hgood, hcorridor⟩ := h.isStep.mp ⟨hopen, hok⟩
            rw [h.edges] at he
            rw [h.next] at hrest
            obtain ⟨hback, hall, hle, hnext⟩ := (ih (le_of_inCorridor hcorridor)).mp hrest
            refine ⟨Back.step hstart he ?_ hback, List.forall_mem_cons.mpr ⟨hgood, hall⟩, ?_,
              hhub.imp_right Or.inr⟩
            · intro hne
              exact (hnext.resolve_left (by omega)).resolve_left hne
            · rw [List.length_cons]
              omega
      · rintro ⟨hback, hgood, hle, hhub⟩
        rw [List.length_cons] at hle
        obtain ⟨hfirst, hall⟩ := List.forall_mem_cons.mp hgood
        cases hback with
        | step hstart he hnext hrest =>
            have hnear := h.near hrest hall (by omega)
            obtain ⟨hopen, hok⟩ := h.isStep.mpr ⟨hstart, hhub.imp_right fun hhub =>
              hhub.resolve_left (by simp), hfirst, inCorridor_of_le hnear (by omega)⟩
            refine Run.edge hopen (h.edges ▸ he) hok ?_
            rw [h.next]
            refine (ih (by omega)).mpr ⟨hrest, hall, by omega, Or.inr ?_⟩
            by_cases hnil : rest = []
            · exact Or.inl hnil
            · exact Or.inr (hnext hnil)

/-- What a search is to list: paths back from the target that keep to the limits. -/
def Wanted (g : CallGraph) (p : Problem SId EdgeRef κ) (good : EdgeRef → Prop) (starts : List SId)
    (maxFanIn maxDepth counted : Nat) (target : SId) (used : List κ) (path : List EdgeRef) : Prop :=
  Leads g starts maxFanIn target path ∧ (∀ e ∈ path, good e) ∧ path.length + counted ≤ maxDepth ∧
    Fresh p used path.reverse

/-- The search, begun only where the target is in the corridor. -/
theorem Searches.lists (hwf : g.WF)
    (h : Searches g p goal isOpen ok good starts maxFanIn maxDepth counted dist) (target : SId)
    (used : List κ) :
    ∃ paths : List (List EdgeRef),
      (if inCorridor dist maxDepth counted target then
        (dfs p (maxDepth + 1) 0 target used [] {}).1 else {}).found
        = paths.map (fun path => (ending p target path.reverse, path)) ∧
      paths.Nodup ∧
      (∀ path ∈ paths, Wanted g p good starts maxFanIn maxDepth counted target used path) ∧
      (paths.length : ℕ∞) = min (p.maxPaths : ℕ∞)
        {path | Wanted g p good starts maxFanIn maxDepth counted target used path}.encard := by
  by_cases hcorridor : inCorridor dist maxDepth counted target
  · have hrun : ∀ run, (Fresh p used run ∧ Run p goal isOpen ok 0 target run) ↔
        Wanted g p good starts maxFanIn maxDepth counted target used run.reverse := by
      intro run
      rw [h.run_iff ((Nat.zero_add _).trans_le (le_of_inCorridor hcorridor))]
      unfold Wanted
      rw [leads_iff_back hwf, List.length_reverse, List.reverse_reverse, Nat.zero_add]
      simp only [List.mem_reverse, true_or, and_true]
      constructor
      · rintro ⟨hfresh, hback, hgood, hle⟩
        exact ⟨hback, hgood, hle, hfresh⟩
      · rintro ⟨hback, hgood, hle, hfresh⟩
        exact ⟨hfresh, hback, hgood, hle⟩
    have hedges : ∀ n, (p.edges n).Nodup := by
      rw [h.edges]
      exact hwf.nodup_callerRefs
    obtain ⟨runs, hfound, hnodup, hsound, hlength⟩ := dfs_enumerates h.toExact hedges target used
    rw [if_pos hcorridor]
    refine ⟨runs.map List.reverse, ?_, hnodup.map List.reverse_injective, ?_, ?_⟩
    · rw [hfound, List.map_map]
      apply List.map_congr_left
      intro run _
      simp
    · intro path hpath
      obtain ⟨run, hmem, rfl⟩ := List.mem_map.mp hpath
      exact (hrun run).mp (hsound run hmem)
    · rw [List.length_map, hlength]
      congr 1
      rw [← Function.Injective.encard_image List.reverse_injective]
      congr 1
      ext path
      constructor
      · rintro ⟨run, hmem, rfl⟩
        exact (hrun run).mp hmem
      · intro hpath
        refine ⟨path.reverse, (hrun path.reverse).mpr ?_, List.reverse_reverse path⟩
        rwa [List.reverse_reverse]
  · rw [if_neg hcorridor]
    have hnone : ∀ path, ¬ Wanted g p good starts maxFanIn maxDepth counted target used path := by
      rintro path ⟨hleads, hgood, hle, -⟩
      rw [← List.reverse_reverse path, leads_iff_back hwf] at hleads
      have hnear := h.near hleads (fun e he => hgood e (List.mem_reverse.mp he))
        (by rwa [List.length_reverse])
      rw [List.length_reverse] at hnear
      exact hcorridor (inCorridor_of_le hnear hle)
    refine ⟨[], rfl, List.nodup_nil, by simp, ?_⟩
    rw [show {path | Wanted g p good starts maxFanIn maxDepth counted target used path} = ∅ from
      Set.eq_empty_of_forall_notMem hnone]
    simp

end Search

/-! ### find_call_chain -/

/-- A path that `find_call_chain` is asked for: simple, allowed by the filter and within the
limits. -/
def CallPath (g : CallGraph) (target : Str) (starts : List Str) (limits : ChainLimits)
    (filter : EdgeFilter) (path : List EdgeRef) : Prop :=
  ∃ t, g.interner.find target = some t ∧
    Leads g (startIds g starts) limits.maxFanIn t path ∧ (pathNodes t path).Nodup ∧
    (∀ e ∈ path, filter.allowsRef e) ∧ path.length ≤ limits.maxDepth

private theorem openOutside {deep outside hub : Prop} :
    deep ∧ outside ∧ hub ↔ (deep ∧ hub) ∧ outside :=
  ⟨fun h => ⟨⟨h.1, h.2.2⟩, h.2.1⟩, fun h => ⟨h.1.1, h.2, h.1.2⟩⟩

theorem chainProblem_exact (g : CallGraph) (starts : List SId) (minFromStart : UMap SId Nat)
    (limits : ChainLimits) (filter : EdgeFilter) :
    PathSearch.Exact (chainProblem g starts minFromStart limits filter)
      (fun d n => d ≤ limits.maxDepth ∧ n ∈ starts)
      (fun d n => d ≤ limits.maxDepth ∧ n ∉ starts ∧ (d = 0 ∨ ¬ isHub g limits.maxFanIn n))
      (fun d e => filter.allowsRef e ∧ inCorridor minFromStart limits.maxDepth (d + 1) e.caller)
      limits.maxDepth := by
  have hs := (chainProblem_sound (g := g) starts minFromStart limits filter).narrow (· ∉ starts)
    fun d n => openOutside
  refine { hs with ends := ?_, opens := ?_, admits := ?_ }
  · intro d n memo h
    simp only [chainProblem] at h
    split at h
    · cases h
    · rename_i hdeep
      split at h
      · cases h
      · split at h
        · rename_i hstart
          exact ⟨⟨Nat.le_of_not_lt hdeep, hstart⟩, fun hopen => hopen.2.1 hstart⟩
        · split at h <;> cases h
  · intro d n memo h
    simp only [chainProblem] at h
    split at h
    · cases h
    · rename_i hdeep
      split at h
      · cases h
      · split at h
        · cases h
        · rename_i hstart
          split at h
          · cases h
          · rename_i hhub
            refine ⟨Nat.le_of_not_lt hdeep, hstart, ?_⟩
            by_cases hzero : d = 0
            · exact Or.inl hzero
            · exact Or.inr fun hub => hhub ⟨Nat.pos_of_ne_zero hzero, hub⟩
  · intro used d e h
    simp only [chainProblem] at h
    split at h
    · cases h
    · rename_i hused
      split at h
      · cases h
      · rename_i hallows
        split at h
        · rename_i hcorridor
          exact ⟨⟨by simpa using hallows, hcorridor⟩, hused⟩
        · cases h

section Chain

variable (hsame : ∀ b : EdgeRef, b ∈ g.calleeRefsOf b.caller ↔ b ∈ g.callerRefsOf b.callee)
  (starts : List SId) (limits : ChainLimits) (filter : EdgeFilter)
include hsame

theorem chainProblem_searches (hwf : g.WF) :
    Searches g (chainProblem g starts (distances (allowedCallees g filter) limits.maxDepth starts)
        limits filter)
      (fun d n => d ≤ limits.maxDepth ∧ n ∈ starts)
      (fun d n => d ≤ limits.maxDepth ∧ n ∉ starts ∧ (d = 0 ∨ ¬ isHub g limits.maxFanIn n))
      (fun d e => filter.allowsRef e ∧ inCorridor (distances (allowedCallees g filter)
        limits.maxDepth starts) limits.maxDepth (d + 1) e.caller)
      (fun e => filter.allowsRef e) starts limits.maxFanIn limits.maxDepth 0
      (distances (allowedCallees g filter) limits.maxDepth starts) := by
  refine { chainProblem_exact g starts _ limits filter with
           edges := rfl, next := rfl, isGoal := fun hd => and_iff_right hd
           isStep := ?_, near := ?_ }
  · intro d n e
    constructor
    · rintro ⟨⟨-, hstart, hhub⟩, hallows, hcorridor⟩
      exact ⟨hstart, hhub, hallows, hcorridor⟩
    · rintro ⟨hstart, hhub, hallows, hcorridor⟩
      have hle := le_of_inCorridor hcorridor
      exact ⟨⟨by omega, hstart, hhub⟩, hallows, hcorridor⟩
  · intro n run hback hgood hle
    refine hback.near (allowedCallees g filter) ?_ hgood hle
    intro n e he hallows
    have hcallee := hwf.callee_of_callerRefs he
    refine List.mem_map.mpr ⟨e, List.mem_filter.mpr ⟨(hsame e).mpr ?_, hallows⟩, hcallee⟩
    rwa [hcallee]

end Chain

/-- No node of a simple path comes twice, its last included. -/
theorem fresh_callers {p : Problem SId EdgeRef SId} (hkey : p.key = (·.caller)) {target : SId}
    {path : List EdgeRef} :
    Fresh p [target] path.reverse ↔ (pathNodes target path).Nodup := by
  unfold Fresh pathNodes
  rw [hkey, List.map_reverse, List.nodup_reverse, List.nodup_append]
  simp only [List.mem_reverse, List.mem_singleton, List.nodup_singleton, true_and, List.mem_map]
  refine and_congr_right fun _ => ?_
  constructor
  · rintro h _ ⟨e, he, rfl⟩ _ rfl
    exact h e he
  · intro h e he
    exact h e.caller ⟨e, he, rfl⟩ target rfl

/-- **`find_call_chain` returns distinct simple paths within the limits, as many as there are
or as were asked for.** -/
theorem Script.find_call_chain_lists (s : Script)
    (hsame : ∀ b : EdgeRef, b ∈ s.graph.calleeRefsOf b.caller ↔ b ∈ s.graph.callerRefsOf b.callee)
    (target : Str) (starts : List Str) (limits : ChainLimits) (filter : EdgeFilter) :
    ∃ paths : List (List EdgeRef),
      (findCallChain s.graph target starts limits filter).paths
        = paths.map (·.map (chainHop s.graph)) ∧
      paths.Nodup ∧ (∀ path ∈ paths, CallPath s.graph target starts limits filter path) ∧
      (paths.length : ℕ∞) = min (limits.maxPaths.toNat : ℕ∞)
        {path | CallPath s.graph target starts limits filter path}.encard := by
  unfold findCallChain
  dsimp only
  cases ht : s.graph.interner.find target with
  | none =>
      refine ⟨[], rfl, List.nodup_nil, by simp, ?_⟩
      have hnone : {path | CallPath s.graph target starts limits filter path} = ∅ := by
        refine Set.eq_empty_of_forall_notMem fun path hpath => ?_
        obtain ⟨t, hfind, -⟩ := hpath
        rw [ht] at hfind
        cases hfind
      rw [hnone]
      simp
  | some t =>
      obtain ⟨paths, hfound, hnodup, hsound, hlength⟩ :=
        (chainProblem_searches hsame (startIds s.graph starts) limits filter s.wf).lists s.wf t [t]
      have hwanted : ∀ path, Wanted s.graph (chainProblem s.graph (startIds s.graph starts)
          (distances (allowedCallees s.graph filter) limits.maxDepth (startIds s.graph starts))
          limits filter) (fun e => filter.allowsRef e) (startIds s.graph starts) limits.maxFanIn
          limits.maxDepth 0 t [t] path ↔ CallPath s.graph target starts limits filter path := by
        intro path
        unfold Wanted CallPath
        rw [fresh_callers rfl]
        constructor
        · rintro ⟨hleads, hallows, hle, hsimple⟩
          exact ⟨t, ht, hleads, hsimple, hallows, hle⟩
        · rintro ⟨t', ht', hleads, hsimple, hallows, hle⟩
          obtain rfl : t = t' := Option.some.inj (ht.symm.trans ht')
          exact ⟨hleads, hallows, hle, hsimple⟩
      simp only [hwanted] at hsound hlength
      refine ⟨paths, ?_, hnodup, hsound, hlength⟩
      dsimp only
      rw [hfound, List.map_map]
      rfl

/-- Nothing is expanded where there is neither a dispatch nor a function return. -/
theorem CallGraph.WF.views_agree_of_direct (hwf : g.WF)
    (h : ∀ e ∈ g.edges, isDispatch e = false ∧ e.kind ≠ .functionPointerReturn) (b : EdgeRef) :
    b ∈ g.calleeRefsOf b.caller ↔ b ∈ g.callerRefsOf b.callee := by
  refine (hwf.views_agree_iff b.caller b.callee b.callSite).mpr ?_ b rfl rfl rfl
  have hdispatch : ∀ e, ¬ g.DispatchesAt b.caller b.callee b.callSite e := by
    rintro e ⟨he, -, -, hexpands, -⟩
    exact absurd hexpands (by simp [(h e he).1])
  have hreturn : ∀ e, ¬ g.JoinsAt b.caller b.callee b.callSite e := by
    rintro e ⟨he, -, -, hkind, -⟩
    exact (h e he).2 hkind
  have hearliest := hwf.earliestDispatch_none.mpr hdispatch
  have hjoin := hwf.earliestReturn_none.mpr hreturn
  by_cases hshown : g.ShownAt b.caller b.callee b.callSite
  · refine Or.inr (Or.inl ⟨hshown, hearliest, fun e he => ?_⟩)
    rw [hjoin] at he
    cases he
  · refine Or.inr (Or.inr ⟨hshown, ?_, fun _ => ?_⟩)
    · rw [hearliest, hwf.nearestDispatch_none.mpr hdispatch]
    · rw [hjoin, hwf.nearestReturn_none.mpr hreturn]

/-- `main` calls `f` and `g`, which call each other. -/
def mutualCalls : Script :=
  let call (caller callee site : String) : GraphOp :=
    .call (.edge { callerName := str caller, calleeName := str callee, kind := .directCall
                   confidence := .Proven, callSite := str site } (str "a.cpp"))
  (((Script.empty.op (call "main" "f" "a.cpp:9:3")).op (call "main" "g" "a.cpp:9:8")).op
    (call "f" "g" "a.cpp:3:3")).op (call "g" "f" "a.cpp:6:3")

theorem mutualCalls_views (b : EdgeRef) :
    b ∈ mutualCalls.graph.calleeRefsOf b.caller ↔ b ∈ mutualCalls.graph.callerRefsOf b.callee :=
  mutualCalls.wf.views_agree_of_direct (by decide) b

/-- Both ways from `main` to `g` are found. -/
theorem find_call_chain_mutual :
    (findCallChain mutualCalls.graph (str "g") [str "main"]).paths.length = 2 ∧
    ∃ paths : List (List EdgeRef),
      (findCallChain mutualCalls.graph (str "g") [str "main"]).paths
        = paths.map (·.map (chainHop mutualCalls.graph)) ∧
      paths.Nodup ∧
      (∀ path ∈ paths, CallPath mutualCalls.graph (str "g") [str "main"] {} {} path) ∧
      (paths.length : ℕ∞) = min (10 : ℕ∞)
        {path | CallPath mutualCalls.graph (str "g") [str "main"] {} {} path}.encard :=
  ⟨by decide +kernel, mutualCalls.find_call_chain_lists mutualCalls_views (str "g") [str "main"] {} {}⟩

/-! ### Locks on the way from an entry point -/

/-- A walk that `query_locks_held` goes: from an entry to the target, no call twice, none by
a caller without an identity, and within the limits. -/
def LockWalk (g : CallGraph) (target : Str) (entries : List Str) (maxDepth maxFanIn : Nat)
    (walk : List EdgeRef) : Prop :=
  ∃ t, g.interner.find target = some t ∧ Leads g (startIds g entries) maxFanIn t walk ∧
    (walk.map fun e => (e.caller, e.callee, e.callSite)).Nodup ∧
    (∀ e ∈ walk, g.interner.find indirectName ≠ some e.caller) ∧
    (pathNodes t walk).length ≤ maxDepth

theorem lockProblem_exact (g : CallGraph) (entries : List SId) (minFromEntry : UMap SId Nat)
    (maxDepth maxFanIn : Nat) :
    PathSearch.Exact (lockProblem g entries minFromEntry maxDepth maxFanIn)
      (fun _ n => n ∈ entries)
      (fun d n => d + 1 < maxDepth ∧ n ∉ entries ∧ (d = 0 ∨ ¬ isHub g maxFanIn n))
      (fun d e => g.interner.find indirectName ≠ some e.caller ∧
        inCorridor minFromEntry maxDepth (d + 2) e.caller)
      maxDepth := by
  have hs := (lockProblem_sound (g := g) entries minFromEntry maxDepth maxFanIn).narrow
    (· ∉ entries) fun d n => openOutside
  refine { hs with ends := ?_, opens := ?_, admits := ?_ }
  · intro d n memo h
    simp only [lockProblem] at h
    split at h
    · rename_i hentry
      exact ⟨hentry, fun hopen => hopen.2.1 hentry⟩
    · split at h
      · cases h
      · split at h
        · cases h
        · split at h <;> cases h
  · intro d n memo h
    simp only [lockProblem] at h
    split at h
    · cases h
    · rename_i hentry
      split at h
      · cases h
      · rename_i hdeep
        split at h
        · cases h
        · split at h
          · cases h
          · rename_i hhub
            refine ⟨Nat.lt_of_not_le hdeep, hentry, ?_⟩
            by_cases hzero : d = 0
            · exact Or.inl hzero
            · exact Or.inr fun hub => hhub ⟨Nat.pos_of_ne_zero hzero, hub⟩
  · intro used d e h
    simp only [lockProblem] at h
    split at h
    · cases h
    · rename_i hnamed
      split at h
      · cases h
      · rename_i hcorridor
        split at h
        · cases h
        · rename_i hused
          exact ⟨⟨hnamed, by simpa using hcorridor⟩, hused⟩

section Locks

variable (hsame : ∀ b : EdgeRef, b ∈ g.calleeRefsOf b.caller ↔ b ∈ g.callerRefsOf b.callee)
  (entries : List SId) (maxDepth maxFanIn : Nat)
include hsame

theorem lockProblem_searches (hwf : g.WF) :
    Searches g (lockProblem g entries (distances (fun node => (g.calleeRefsOf node).map (·.callee))
        (maxDepth - 1) entries) maxDepth maxFanIn)
      (fun _ n => n ∈ entries)
      (fun d n => d + 1 < maxDepth ∧ n ∉ entries ∧ (d = 0 ∨ ¬ isHub g maxFanIn n))
      (fun d e => g.interner.find indirectName ≠ some e.caller ∧
        inCorridor (distances (fun node => (g.calleeRefsOf node).map (·.callee)) (maxDepth - 1)
          entries) maxDepth (d + 2) e.caller)
      (fun e => g.interner.find indirectName ≠ some e.caller) entries maxFanIn maxDepth 1
      (distances (fun node => (g.calleeRefsOf node).map (·.callee)) (maxDepth - 1) entries) := by
  refine { lockProblem_exact g entries _ maxDepth maxFanIn with
           edges := rfl, next := rfl, isGoal := fun _ => Iff.rfl, isStep := ?_, near := ?_ }
  · intro d n e
    constructor
    · rintro ⟨⟨-, hentry, hhub⟩, hnamed, hcorridor⟩
      exact ⟨hentry, hhub, hnamed, hcorridor⟩
    · rintro ⟨hentry, hhub, hnamed, hcorridor⟩
      have hle := le_of_inCorridor hcorridor
      exact ⟨⟨by omega, hentry, hhub⟩, hnamed, hcorridor⟩
  · intro n run hback hgood hle
    refine hback.near (fun node => (g.calleeRefsOf node).map (·.callee)) ?_ hgood
      (Nat.le_sub_of_add_le hle)
    intro n e he _
    have hcallee := hwf.callee_of_callerRefs he
    refine List.mem_map.mpr ⟨e, (hsame e).mpr ?_, hcallee⟩
    rwa [hcallee]

end Locks

theorem fresh_calls {p : Problem SId EdgeRef EdgeVisitKey}
    (hkey : p.key = fun e => (e.caller, e.callee, e.callSite)) {walk : List EdgeRef} :
    Fresh p [] walk.reverse ↔ (walk.map fun e => (e.caller, e.callee, e.callSite)).Nodup := by
  unfold Fresh
  rw [hkey, List.map_reverse, List.nodup_reverse]
  simp

/-- What a walk comes out as: its nodes by name, and the locks at its call sites from the target
up. -/
def walkResult (g : CallGraph) (cf : ControlFlowIndex) (target : SId) (walk : List EdgeRef) :
    PathResult where
  entryPoint := g.interner.resolve ((pathNodes target walk).headD target)
  path := (pathNodes target walk).map g.interner.resolve
  locksHeld := (walk.reverse.map fun e => g.interner.resolve e.callSite).foldl
    (collectLocksOnEdge cf) []

theorem ending_eq_head {κ : Type} {p : Problem SId EdgeRef κ} (hnext : p.next = (·.caller))
    {target : SId} {run : List EdgeRef} :
    ending p target run = (pathNodes target run.reverse).headD target := by
  induction run generalizing target with
  | nil => rfl
  | cons e rest ih =>
      rw [ending, ih, List.reverse_cons, pathNodes_concat, hnext]
      cases hnodes : pathNodes e.caller rest.reverse with
      | nil => exact absurd hnodes (pathNodes_ne_nil _ _)
      | cons n _ => rfl

theorem lockPath_eq (cf : ControlFlowIndex) {κ : Type} {p : Problem SId EdgeRef κ}
    (hnext : p.next = (·.caller)) (target : SId) (walk : List EdgeRef) :
    lockPath g cf target (ending p target walk.reverse, walk) = walkResult g cf target walk := by
  unfold lockPath walkResult
  rw [ending_eq_head hnext, List.reverse_reverse]
  simp [pathNodes]

/-- **`query_locks_held` returns the locks of distinct walks within the limits: of every walk
when there are fewer than 512, and else of 512, which it says.** -/
theorem Script.query_locks_held_lists (s : Script)
    (hsame : ∀ b : EdgeRef, b ∈ s.graph.calleeRefsOf b.caller ↔ b ∈ s.graph.callerRefsOf b.callee)
    (cf : ControlFlowIndex) (target : Str) (entries : List Str) (maxDepth maxFanIn : Nat) :
    let walk := collectLocksHeld s.graph cf target entries maxDepth maxFanIn
    let all := {walk | LockWalk s.graph target entries maxDepth maxFanIn walk}
    ∃ walks : List (List EdgeRef),
      walk.paths = walks.map (walkResult s.graph cf (s.graph.interner.idOf target)) ∧
      walks.Nodup ∧ (∀ path ∈ walks, path ∈ all) ∧
      (all.encard < 512 → (∀ path ∈ all, path ∈ walks) ∧ walk.truncated = false) ∧
      (512 ≤ all.encard → walks.length = 512 ∧ walk.truncated = true) := by
  intro walk all
  cases ht : s.graph.interner.find target with
  | none =>
      have hnone : all = ∅ := by
        refine Set.eq_empty_of_forall_notMem fun path hpath => ?_
        obtain ⟨t, hfind, -⟩ := hpath
        rw [ht] at hfind
        cases hfind
      have hwalk : walk = {} := by
        simp only [walk, collectLocksHeld, ht]
      rw [hnone, hwalk]
      refine ⟨[], rfl, List.nodup_nil, by simp, fun _ => ⟨by simp, rfl⟩, fun h => ?_⟩
      simp at h
  | some t =>
      obtain ⟨-, hid⟩ := StringInterner.find_eq_some.mp ht
      have hsearches := lockProblem_searches hsame (startIds s.graph entries) maxDepth maxFanIn
        s.wf
      obtain ⟨walks, hfound, hnodup, hsound, hlength⟩ := hsearches.lists s.wf t []
      have hwanted : ∀ path, Wanted s.graph (lockProblem s.graph (startIds s.graph entries)
          (distances (fun node => (s.graph.calleeRefsOf node).map (·.callee)) (maxDepth - 1)
            (startIds s.graph entries)) maxDepth maxFanIn)
          (fun e => s.graph.interner.find indirectName ≠ some e.caller) (startIds s.graph entries)
          maxFanIn maxDepth 1 t [] path ↔ path ∈ all := by
        intro path
        unfold Wanted
        rw [fresh_calls rfl, Set.mem_ofPred_eq, LockWalk]
        have hnodes : (pathNodes t path).length = path.length + 1 := by simp [pathNodes]
        constructor
        · rintro ⟨hleads, hnamed, hle, hcalls⟩
          exact ⟨t, ht, hleads, hcalls, hnamed, hnodes ▸ hle⟩
        · rintro ⟨t', ht', hleads, hcalls, hnamed, hle⟩
          obtain rfl : t = t' := Option.some.inj (ht.symm.trans ht')
          exact ⟨hleads, hnamed, hnodes ▸ hle, hcalls⟩
      simp only [hwanted] at hsound hlength
      have hcast : ((kMaxPaths : ℕ) : ℕ∞) = 512 := rfl
      change (walks.length : ℕ∞) = min (kMaxPaths : ℕ∞) all.encard at hlength
      rw [hcast] at hlength
      have hpaths : walk.paths = walks.map (walkResult s.graph cf t) ∧
          walk.truncated = decide (kMaxPaths ≤ walks.length) := by
        by_cases hcorridor : inCorridor (distances
            (fun node => (s.graph.calleeRefsOf node).map (·.callee)) (maxDepth - 1)
            (startIds s.graph entries)) maxDepth 1 t
        · rw [if_pos hcorridor] at hfound
          simp only [walk, collectLocksHeld, ht, if_pos hcorridor, hfound, List.length_map,
            List.map_map]
          refine ⟨List.map_congr_left fun path _ => ?_, trivial⟩
          exact lockPath_eq cf rfl t path
        · rw [if_neg hcorridor] at hfound
          obtain rfl : walks = [] := List.map_eq_nil_iff.mp hfound.symm
          simp only [walk, collectLocksHeld, ht, if_neg hcorridor]
          exact ⟨rfl, rfl⟩
      refine ⟨walks, hid ▸ hpaths.1, hnodup, hsound, fun hfew => ?_, fun hmany => ?_⟩
      · have heq : (walks.length : ℕ∞) = all.encard := by
          rw [hlength, min_eq_right]
          exact hfew.le
        refine ⟨fun path hpath => mem_of_encard_le hnodup hsound heq.ge hpath, ?_⟩
        rw [hpaths.2, decide_eq_false_iff_not, Nat.not_le]
        rw [← heq] at hfew
        exact_mod_cast hfew
      · have heq : walks.length = kMaxPaths := by
          rw [min_eq_left hmany, ← hcast] at hlength
          exact_mod_cast hlength
        refine ⟨heq, ?_⟩
        rw [hpaths.2, heq]
        exact decide_eq_true (Nat.le_refl _)

/-- Walks may come back to a node: `main`, `g`, `f`, `g` is one. -/
theorem query_locks_held_mutual :
    let walk := collectLocksHeld mutualCalls.graph {} (str "g") [str "main"]
    let all := {walk | LockWalk mutualCalls.graph (str "g") [str "main"] 20 1000 walk}
    walk.paths.length = 3 ∧
    ∃ walks : List (List EdgeRef),
      walk.paths
        = walks.map (walkResult mutualCalls.graph {} (mutualCalls.graph.interner.idOf (str "g"))) ∧
      walks.Nodup ∧ (∀ path ∈ walks, path ∈ all) ∧
      (all.encard < 512 → (∀ path ∈ all, path ∈ walks) ∧ walk.truncated = false) ∧
      (512 ≤ all.encard → walks.length = 512 ∧ walk.truncated = true) :=
  ⟨by decide +kernel,
    mutualCalls.query_locks_held_lists mutualCalls_views {} (str "g") [str "main"] 20 1000⟩

end Vycor
