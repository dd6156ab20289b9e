/-
Whose locks a path of `query_locks_held` shows.

The locks of a hop are looked up by the spelling of its call site alone.  Callers that share a
spelling share the context recorded there first, so a path shows the locks of another function
or misses its own.

`locks_held_iff` says when neither happens.
-/
import Vycor.Proofs.PathListing

namespace Vycor

open PathSearch

/-! ### The locks of a list of call sites -/

/-- A lock with this type and variable is in scope at the call. -/
def HoldsLock (ctx : CallSiteContext) (lock : Str × Str) : Prop :=
  ∃ l ∈ ctx.liveRaiiLocals, l.kind = .lock ∧ (l.typeName, l.varName) = lock

/-- How locks are told apart. -/
def lockKey (o : LockOccurrence) : Str × Str := (o.typeName, o.varName)

/-- What the locks of a context are added to. -/
def addLock (callSite : Str) (out : List LockOccurrence) (l : RaiiLocal) : List LockOccurrence :=
  if out.any fun o => o.typeName = l.typeName ∧ o.varName = l.varName then out
  else out ++ [{ typeName := l.typeName, varName := l.varName, heldAt := callSite }]

theorem addLock_keys (callSite : Str) (out : List LockOccurrence) (l : RaiiLocal) :
    (addLock callSite out l).map lockKey
      = if (l.typeName, l.varName) ∈ out.map lockKey then out.map lockKey
        else out.map lockKey ++ [(l.typeName, l.varName)] := by
  have hany : (out.any fun o => o.typeName = l.typeName ∧ o.varName = l.varName) = true ↔
      (l.typeName, l.varName) ∈ out.map lockKey := by
    simp [lockKey]
  unfold addLock
  by_cases hin : (l.typeName, l.varName) ∈ out.map lockKey
  · rw [if_pos hin, if_pos (hany.mpr hin)]
  · rw [if_neg hin, if_neg (hany.not.mpr hin), List.map_append]
    rfl

/-- Locks are added once each. -/
theorem foldl_addLock (callSite : Str) (locals : List RaiiLocal) (out : List LockOccurrence)
    (hout : (out.map lockKey).Nodup) :
    ((locals.foldl (addLock callSite) out).map lockKey).Nodup ∧
    ∀ lock, lock ∈ (locals.foldl (addLock callSite) out).map lockKey ↔
      lock ∈ out.map lockKey ∨ ∃ l ∈ locals, (l.typeName, l.varName) = lock := by
  induction locals generalizing out with
  | nil => exact ⟨hout, fun lock => by simp⟩
  | cons l rest ih =>
      have hkeys := addLock_keys callSite out l
      have hnext : ((addLock callSite out l).map lockKey).Nodup := by
        rw [hkeys]
        split
        · exact hout
        · rename_i hnew
          exact List.nodup_append.mpr ⟨hout, List.nodup_singleton _, by
            rintro a ha b hb rfl
            exact hnew (List.mem_singleton.mp hb ▸ ha)⟩
      obtain ⟨hnodup, hmem⟩ := ih _ hnext
      refine ⟨hnodup, fun lock => ?_⟩
      rw [List.foldl_cons, hmem, hkeys]
      split
      · rename_i hin
        simp only [List.exists_mem_cons_iff]
        constructor
        · rintro (h | h)
          · exact Or.inl h
          · exact Or.inr (Or.inr h)
        · rintro (h | rfl | h)
          · exact Or.inl h
          · exact Or.inl hin
          · exact Or.inr h
      · rw [List.mem_append, List.mem_singleton, List.exists_mem_cons_iff, or_assoc, eq_comm]

variable {cf : ControlFlowIndex}

/-- What is looked up at a call site. -/
def SiteHolds (cf : ControlFlowIndex) (callSite : Str) (lock : Str × Str) : Prop :=
  ∃ ctx, cf.contextAtSite callSite = some ctx ∧ HoldsLock ctx lock

theorem collectLocksOnEdge_keys (callSite : Str) (out : List LockOccurrence)
    (hout : (out.map lockKey).Nodup) :
    ((collectLocksOnEdge cf out callSite).map lockKey).Nodup ∧
    ∀ lock, lock ∈ (collectLocksOnEdge cf out callSite).map lockKey ↔
      lock ∈ out.map lockKey ∨ SiteHolds cf callSite lock := by
  unfold collectLocksOnEdge SiteHolds
  cases hctx : cf.contextAtSite callSite with
  | none => exact ⟨hout, fun lock => by simp⟩
  | some ctx =>
      obtain ⟨hnodup, hmem⟩ :=
        foldl_addLock callSite (ctx.liveRaiiLocals.filter (·.kind = .lock)) out hout
      refine ⟨hnodup, fun lock => (hmem lock).trans (or_congr_right ?_)⟩
      simp only [List.mem_filter, decide_eq_true_eq, Option.some.injEq, exists_eq_left', HoldsLock,
        and_assoc]

/-- **The locks of a list of call sites are those looked up at them, each once.** -/
theorem collectLocks_keys (sites : List Str) (out : List LockOccurrence)
    (hout : (out.map lockKey).Nodup) :
    ((sites.foldl (collectLocksOnEdge cf) out).map lockKey).Nodup ∧
    ∀ lock, lock ∈ (sites.foldl (collectLocksOnEdge cf) out).map lockKey ↔
      lock ∈ out.map lockKey ∨ ∃ site ∈ sites, SiteHolds cf site lock := by
  induction sites generalizing out with
  | nil => exact ⟨hout, fun lock => by simp⟩
  | cons site rest ih =>
      obtain ⟨hnodup, hmem⟩ := @collectLocksOnEdge_keys cf site out hout
      obtain ⟨hnodup', hmem'⟩ := ih _ hnodup
      refine ⟨hnodup', fun lock => ?_⟩
      rw [List.foldl_cons, hmem', hmem, List.exists_mem_cons_iff, or_assoc]

/-! ### The locks of a path -/

/-- What is recorded for the call of a hop: at its site, for its caller. -/
def ownContexts (g : CallGraph) (cf : ControlFlowIndex) (e : EdgeRef) : List CallSiteContext :=
  (cf.contextsAtSite (g.interner.resolve e.callSite)).filter
    (·.callerUsr = g.interner.resolve e.caller)

/-- The locks are those live at the calls of the path, each once. -/
structure LocksOfHops (g : CallGraph) (cf : ControlFlowIndex) (path : List EdgeRef)
    (locks : List LockOccurrence) : Prop where
  once : (locks.map lockKey).Nodup
  live : ∀ lock, lock ∈ locks.map lockKey ↔
    ∃ e ∈ path, ∃ ctx ∈ ownContexts g cf e, HoldsLock ctx lock

/-- What the spellings of a path stand for comes to the same as its own calls. -/
structure SameLocks (g : CallGraph) (cf : ControlFlowIndex) (path : List EdgeRef) : Prop where
  /-- No lock of another caller that none of the hops has. -/
  foreign : ∀ e ∈ path, ∀ lock, SiteHolds cf (g.interner.resolve e.callSite) lock →
    ∃ e' ∈ path, ∃ ctx ∈ ownContexts g cf e', HoldsLock ctx lock
  /-- No lock of a hop that is recorded first at none of the sites. -/
  hidden : ∀ e ∈ path, ∀ ctx ∈ ownContexts g cf e, ∀ lock, HoldsLock ctx lock →
    ∃ e' ∈ path, SiteHolds cf (g.interner.resolve e'.callSite) lock

/-- The spelling of a hop's site stands for its own call alone. -/
def Unshared (g : CallGraph) (cf : ControlFlowIndex) (e : EdgeRef) : Prop :=
  ∀ ctx ∈ cf.contextsAtSite (g.interner.resolve e.callSite),
    ctx.callerUsr = g.interner.resolve e.caller ∧
    ∀ ctx' ∈ cf.contextsAtSite (g.interner.resolve e.callSite),
      ctx'.liveRaiiLocals = ctx.liveRaiiLocals

theorem contextAtSite_eq (callSite : Str) :
    cf.contextAtSite callSite = (cf.contextsAtSite callSite).head? := by
  unfold ControlFlowIndex.contextAtSite ControlFlowIndex.contextsAtSite
  rw [List.head?_map]

theorem Unshared.siteHolds_iff {g : CallGraph} {e : EdgeRef} (h : Unshared g cf e)
    (lock : Str × Str) : SiteHolds cf (g.interner.resolve e.callSite) lock ↔
      ∃ ctx ∈ ownContexts g cf e, HoldsLock ctx lock := by
  unfold SiteHolds ownContexts
  rw [contextAtSite_eq]
  constructor
  · rintro ⟨ctx, hfirst, hlock⟩
    have hctx := List.mem_of_head? hfirst
    exact ⟨ctx, List.mem_filter.mpr ⟨hctx, by simpa using (h ctx hctx).1⟩, hlock⟩
  · rintro ⟨ctx, hown, hlock⟩
    have hctx := (List.mem_filter.mp hown).1
    have hfirst := List.head?_eq_some_head (List.ne_nil_of_mem hctx)
    refine ⟨_, hfirst, ?_⟩
    unfold HoldsLock at hlock ⊢
    rwa [(h ctx hctx).2 _ (List.mem_of_head? hfirst)]

theorem SameLocks.of_unshared {g : CallGraph} {path : List EdgeRef}
    (h : ∀ e ∈ path, Unshared g cf e) : SameLocks g cf path where
  foreign e he lock hlock := ⟨e, he, ((h e he).siteHolds_iff lock).mp hlock⟩
  hidden e he ctx hctx lock hlock := ⟨e, he, ((h e he).siteHolds_iff lock).mpr ⟨ctx, hctx, hlock⟩⟩

theorem locksOfHops_iff {g : CallGraph} {target : SId} {path : List EdgeRef} :
    LocksOfHops g cf path (walkResult g cf target path).locksHeld ↔ SameLocks g cf path := by
  obtain ⟨hnodup, hmem⟩ := @collectLocks_keys cf
    (path.reverse.map fun e => g.interner.resolve e.callSite) [] List.nodup_nil
  have hheld : ∀ lock, lock ∈ (walkResult g cf target path).locksHeld.map lockKey ↔
      ∃ e ∈ path, SiteHolds cf (g.interner.resolve e.callSite) lock := by
    intro lock
    unfold walkResult
    rw [hmem lock]
    simp
  constructor
  · intro h
    refine ⟨fun e he lock hlock => ?_, fun e he ctx hctx lock hlock => ?_⟩
    · exact (h.live lock).mp ((hheld lock).mpr ⟨e, he, hlock⟩)
    · exact (hheld lock).mp ((h.live lock).mpr ⟨e, he, ctx, hctx, hlock⟩)
  · intro h
    refine ⟨hnodup, fun lock => (hheld lock).trans ⟨?_, ?_⟩⟩
    · rintro ⟨e, he, hlock⟩
      exact h.foreign e he lock hlock
    · rintro ⟨e, he, ctx, hctx, hlock⟩
      exact h.hidden e he ctx hctx lock hlock

/-! ### The paths of a query -/

section Walks

variable {g : CallGraph} {entries : List SId} {minFromEntry : UMap SId Nat} {maxDepth maxFanIn : Nat}

/-- A run of the search is a path back to an entry. -/
theorem back_of_run {d : Nat} {n : SId} {run : List EdgeRef}
    (h : Run (lockProblem g entries minFromEntry maxDepth maxFanIn) (fun _ n => n ∈ entries)
      (fun d n => d + 1 < maxDepth ∧ n ∉ entries ∧ (d = 0 ∨ ¬ isHub g maxFanIn n))
      (fun d e => g.interner.find indirectName ≠ some e.caller ∧
        inCorridor minFromEntry maxDepth (d + 2) e.caller) d n run) :
    Back g entries maxFanIn n run ∧ (0 < d → run ≠ [] → ¬ isHub g maxFanIn n) := by
  induction run generalizing d n with
  | nil =>
      cases h with
      | goal hgoal => exact ⟨Back.start hgoal, fun _ hne => absurd rfl hne⟩
  | cons e rest ih =>
      cases h with
      | edge hopen he _ hrest =>
          obtain ⟨hback, hhub⟩ := ih hrest
          refine ⟨Back.step hopen.2.1 he (hhub (Nat.succ_pos d)) hback, fun hd _ => ?_⟩
          exact hopen.2.2.resolve_left (Nat.ne_of_gt hd)

end Walks

/-- **A path that is reported has the locks of its own calls exactly when the contexts recorded
first at its call sites come to the same; where no spelling is shared they do.** -/
theorem Script.locks_held_iff (s : Script) (cf : ControlFlowIndex) (target : Str)
    (entries : List Str) (maxDepth maxFanIn : Nat) :
    let t := s.graph.interner.idOf target
    ∃ paths : List (List EdgeRef),
      (collectLocksHeld s.graph cf target entries maxDepth maxFanIn).paths
        = paths.map (walkResult s.graph cf t) ∧
      ∀ path ∈ paths, Leads s.graph (startIds s.graph entries) maxFanIn t path ∧
        (LocksOfHops s.graph cf path (walkResult s.graph cf t path).locksHeld ↔
          SameLocks s.graph cf path) ∧
        ((∀ e ∈ path, Unshared s.graph cf e) → SameLocks s.graph cf path) := by
  intro t
  suffices hpaths : ∃ paths : List (List EdgeRef),
      (collectLocksHeld s.graph cf target entries maxDepth maxFanIn).paths
        = paths.map (walkResult s.graph cf t) ∧
      ∀ path ∈ paths, Leads s.graph (startIds s.graph entries) maxFanIn t path by
    obtain ⟨paths, heq, hleads⟩ := hpaths
    exact ⟨paths, heq, fun path hpath =>
      ⟨hleads path hpath, locksOfHops_iff, SameLocks.of_unshared⟩⟩
  cases ht : s.graph.interner.find target with
  | none =>
      refine ⟨[], ?_, fun path hpath => absurd hpath List.not_mem_nil⟩
      simp only [collectLocksHeld, ht, List.map_nil]
  | some id =>
      obtain ⟨-, hid⟩ := StringInterner.find_eq_some.mp ht
      obtain rfl : t = id := hid
      by_cases hcorridor : inCorridor (distances
          (fun node => (s.graph.calleeRefsOf node).map (·.callee)) (maxDepth - 1)
          (startIds s.graph entries)) maxDepth 1 t
      · obtain ⟨runs, hfound, -, hsound, -⟩ := dfs_enumerates
          (lockProblem_exact s.graph (startIds s.graph entries) (distances
            (fun node => (s.graph.calleeRefsOf node).map (·.callee)) (maxDepth - 1)
            (startIds s.graph entries)) maxDepth maxFanIn) s.wf.nodup_callerRefs t []
        refine ⟨runs.map List.reverse, ?_, fun path hpath => ?_⟩
        · simp only [collectLocksHeld, ht, if_pos hcorridor, hfound, List.map_map]
          refine List.map_congr_left fun run _ => ?_
          have hpath := lockPath_eq (g := s.graph) cf
            (p := lockProblem s.graph (startIds s.graph entries) (distances
              (fun node => (s.graph.calleeRefsOf node).map (·.callee)) (maxDepth - 1)
              (startIds s.graph entries)) maxDepth maxFanIn) rfl t run.reverse
          rwa [List.reverse_reverse] at hpath
        · obtain ⟨run, hrun, rfl⟩ := List.mem_map.mp hpath
          exact (leads_iff_back s.wf).mpr (back_of_run (hsound run hrun).2).1
      · refine ⟨[], ?_, fun path hpath => absurd hpath List.not_mem_nil⟩
        simp only [collectLocksHeld, ht, if_neg hcorridor, List.map_nil]

/-- A macro calls `f` in `a` and in `b`: both calls have one spelling. -/
def macroCalls : Script :=
  let call (caller : String) : GraphOp :=
    .call (.edge { callerName := str caller, calleeName := str "f", kind := .directCall
                   confidence := .Proven, callSite := str "m.h:1:1" } (str "a.cpp"))
  (Script.empty.op (call "a")).op (call "b")

/-- Each of them holds a lock of its own. -/
def macroContexts : ControlFlowIndex :=
  let context (caller lock : String) : CallSiteContext :=
    { callerName := str caller, calleeName := str "f", callSite := str "m.h:1:1"
      liveRaiiLocals := [{ typeName := str "std::lock_guard", varName := str lock
                           declLocation := str "a.cpp:2:3", kind := .lock }] }
  (({} : ControlFlowIndex).addCallSiteContext (context "a" "la")).addCallSiteContext
    (context "b" "lb")

/-- The path of one hop from `b`. -/
def macroPath : List EdgeRef :=
  (macroCalls.graph.callerRefsOf (macroCalls.graph.interner.idOf (str "f"))).filter
    (·.caller = macroCalls.graph.interner.idOf (str "b"))

/-- The path from `b` has the lock of `a` and not the one of `b`. -/
theorem locks_held_foreign :
    (collectLocksHeld macroCalls.graph macroContexts (str "f") [str "b"]).paths
      = [walkResult macroCalls.graph macroContexts (macroCalls.graph.interner.idOf (str "f"))
          macroPath] ∧
    Leads macroCalls.graph (startIds macroCalls.graph [str "b"]) kDefaultMaxFanIn
      (macroCalls.graph.interner.idOf (str "f")) macroPath ∧
    ¬ LocksOfHops macroCalls.graph macroContexts macroPath
      (walkResult macroCalls.graph macroContexts (macroCalls.graph.interner.idOf (str "f"))
        macroPath).locksHeld := by
  refine ⟨by decide +kernel, ?_, fun h => ?_⟩
  · refine ⟨by decide, by decide, ⟨macroCalls.graph.interner.idOf (str "b"), by decide, by decide⟩,
      by decide, by decide⟩
  · have hown : ∃ e ∈ macroPath, ∃ ctx ∈ ownContexts macroCalls.graph macroContexts e,
        ∃ l ∈ ctx.liveRaiiLocals, l.kind = .lock ∧
          (l.typeName, l.varName) = (str "std::lock_guard", str "lb") := by decide +kernel
    have hshown : (str "std::lock_guard", str "lb") ∉
        (walkResult macroCalls.graph macroContexts (macroCalls.graph.interner.idOf (str "f"))
          macroPath).locksHeld.map lockKey := by decide +kernel
    exact hshown ((h.live _).mpr hown)

end Vycor
