/-
What `always_caught` promises.

The walk finds call paths and, unless it stops at its cap, every simple one: a path with
several entry points on it is found from the last of them on, and what catches the
exception there catches it on the whole path.  So the verdict covers every simple path
when fewer than `maxPaths` were found, with one reservation: for a hop it speaks of the
first context recorded for that caller and callee, and another call site of the same hop
may be bare.
-/
import Mathlib.Data.List.Chain
import Mathlib.Data.List.Perm.Subperm
import Vycor.Model.ControlFlowOracle

namespace Vycor

namespace ControlFlowOracle

/-! ### Call paths -/

/-- Some call edge, stored or expanded, leads from one name to the other. -/
def Calls (graph : CallGraph) (caller callee : Str) : Prop :=
  ∃ edge ∈ graph.callersOf callee, edge.callerName = caller

/-- A simple call path, entry first and target last. -/
structure CallPath (graph : CallGraph) (entries : List Str) (target : Str) (chain : List Str) :
    Prop where
  simple : chain.Nodup
  calls : chain.IsChain (Calls graph)
  starts : ∃ e ∈ entries, chain.head? = some e
  ends : chain.getLast? = some target

section Walk

variable {dfs : Str → List (List Str) → List (List Str)} {path : List Str} {maxPaths : Nat}

theorem walkCallers_grows (hgrow : ∀ x out, out <+: dfs x out) (edges : List CallGraphEdge) :
    ∀ out, out <+: walkCallers dfs path maxPaths edges out := by
  induction edges with
  | nil => exact fun out => List.prefix_refl out
  | cons edge rest ih =>
      intro out
      unfold walkCallers
      split
      · exact ih out
      · dsimp only
        split
        · exact hgrow _ out
        · exact (hgrow _ out).trans (ih _)

/-- Short of the cap, every caller that is not on the path is walked from. -/
theorem walkCallers_visits (hgrow : ∀ x out, out <+: dfs x out) {edges : List CallGraphEdge}
    {edge : CallGraphEdge} (hedge : edge ∈ edges) (hoff : edge.callerName ∉ path) :
    ∀ out, (walkCallers dfs path maxPaths edges out).length < maxPaths →
      ∃ out', dfs edge.callerName out' <+: walkCallers dfs path maxPaths edges out := by
  induction edges with
  | nil => exact absurd hedge List.not_mem_nil
  | cons e rest ih =>
      intro out hshort
      unfold walkCallers at hshort ⊢
      rcases List.mem_cons.mp hedge with rfl | hrest
      · rw [if_neg hoff] at hshort ⊢
        dsimp only at hshort ⊢
        split
        · exact ⟨out, List.prefix_refl _⟩
        · exact ⟨out, walkCallers_grows hgrow rest _⟩
      · split at hshort
        · rename_i hon
          rw [if_pos hon]
          exact ih hrest out hshort
        · rename_i hon
          rw [if_neg hon]
          dsimp only at hshort ⊢
          split at hshort
          · rename_i hfull
            exact absurd hshort (Nat.not_lt.mpr hfull)
          · rename_i hfull
            rw [if_neg hfull]
            exact ih hrest _ hshort

theorem walkCallers_sound {P : List Str → Prop} {edges : List CallGraphEdge}
    (hdfs : ∀ edge ∈ edges, edge.callerName ∉ path → ∀ out, (∀ c ∈ out, P c) →
      ∀ c ∈ dfs edge.callerName out, P c) :
    ∀ out, (∀ c ∈ out, P c) → ∀ c ∈ walkCallers dfs path maxPaths edges out, P c := by
  induction edges with
  | nil => exact fun out hout => hout
  | cons edge rest ih =>
      intro out hout
      have hrest := ih fun e he => hdfs e (List.mem_cons_of_mem edge he)
      unfold walkCallers
      split
      · exact hrest out hout
      · rename_i hoff
        have hnew := hdfs edge List.mem_cons_self hoff out hout
        dsimp only
        split
        · exact hnew
        · exact hrest _ hnew

end Walk

section Dfs

variable {graph : CallGraph} {entries : List Str} {maxPaths : Nat}

theorem dfs_grows (fuel : Nat) :
    ∀ cur node out, out <+: dfs graph entries maxPaths fuel cur node out := by
  induction fuel with
  | zero => exact fun _ _ out => List.prefix_refl out
  | succ fuel ih =>
      intro cur node out
      unfold dfs
      split
      · exact List.prefix_refl out
      · dsimp only
        split
        · exact List.prefix_append out _
        · exact walkCallers_grows (ih (node :: cur)) _ out

/-- The walk finds call paths only. -/
theorem dfs_sound {target : Str} (fuel : Nat) :
    ∀ cur node out, (node :: cur).Nodup → (node :: cur).IsChain (Calls graph) →
      (node :: cur).getLast? = some target →
      (∀ c ∈ out, CallPath graph entries target c) →
      ∀ c ∈ dfs graph entries maxPaths fuel cur node out, CallPath graph entries target c := by
  induction fuel with
  | zero => exact fun _ _ _ _ _ _ hout => hout
  | succ fuel ih =>
      intro cur node out hsimple hcalls hends hout
      unfold dfs
      split
      · exact hout
      · dsimp only
        split
        · rename_i hentry
          intro c hc
          rcases List.mem_append.mp hc with hc | hc
          · exact hout c hc
          · obtain rfl := List.mem_singleton.mp hc
            exact ⟨hsimple, hcalls, ⟨node, hentry, rfl⟩, hends⟩
        · refine walkCallers_sound ?_ out hout
          intro edge hedge hoff out' hout'
          refine ih (node :: cur) edge.callerName out' ?_ ?_ ?_ hout'
          · exact List.nodup_cons.mpr ⟨hoff, hsimple⟩
          · exact List.isChain_cons_cons.mpr ⟨⟨edge, hedge, rfl⟩, hcalls⟩
          · rw [List.getLast?_cons_cons]
            exact hends

/-- Short of the cap, the walk finds every way to go on to an entry point. -/
theorem dfs_complete (fuel : Nat) :
    ∀ cur node out (pre : List Str), pre.length < fuel →
      (dfs graph entries maxPaths fuel cur node out).length < maxPaths →
      (pre ++ node :: cur).Nodup → (pre ++ node :: cur).IsChain (Calls graph) →
      (∃ e ∈ entries, (pre ++ [node]).head? = some e) →
      (∀ e ∈ (pre ++ [node]).tail, e ∉ entries) →
      pre ++ node :: cur ∈ dfs graph entries maxPaths fuel cur node out := by
  induction fuel with
  | zero => exact fun _ _ _ pre h => absurd h (Nat.not_lt_zero _)
  | succ fuel ih =>
      intro cur node out pre hfuel hshort hsimple hcalls hstarts hfirst
      unfold dfs at hshort ⊢
      split at hshort
      · rename_i hfull
        exact absurd hshort (Nat.not_lt.mpr hfull)
      · rename_i hfull
        rw [if_neg hfull]
        dsimp only at hshort ⊢
        rcases List.eq_nil_or_concat pre with rfl | ⟨pre, x, rfl⟩
        · obtain ⟨e, he, hhead⟩ := hstarts
          obtain rfl : node = e := by simpa using hhead
          rw [if_pos he]
          simp
        · -- the node is not the first of the path, so it is no entry point
          have hnode : node ∉ entries := by
            refine hfirst node ?_
            cases pre <;> simp
          rw [if_neg hnode] at hshort ⊢
          rw [List.concat_eq_append, List.append_assoc, List.singleton_append] at hsimple hcalls ⊢
          obtain ⟨edge, hedge, rfl⟩ : Calls graph x node :=
            (List.isChain_cons_cons.mp hcalls.right_of_append).1
          have hoff : edge.callerName ∉ node :: cur :=
            (List.nodup_cons.mp (List.nodup_append.mp hsimple).2.1).1
          obtain ⟨out', hsub⟩ := walkCallers_visits (dfs_grows fuel (node :: cur)) hedge hoff out
            hshort
          refine hsub.subset (ih (node :: cur) edge.callerName out' pre ?_ ?_ hsimple hcalls ?_ ?_)
          · simp at hfuel
            omega
          · exact Nat.lt_of_le_of_lt hsub.length_le hshort
          · obtain ⟨e, he, hhead⟩ := hstarts
            refine ⟨e, he, ?_⟩
            rw [← hhead]
            cases pre <;> simp
          · intro e he
            refine hfirst e ?_
            cases pre with
            | nil => simp at he
            | cons p rest =>
                simp only [List.cons_append, List.tail_cons, List.concat_eq_append,
                  List.mem_append] at he ⊢
                exact Or.inl he

end Dfs

/-! ### Enough fuel

A path is simple, so the names of the graph bound its length.
-/

/-- Every name the graph can answer with. -/
def names (graph : CallGraph) : List Str :=
  [] :: graph.interner.strings ++ graph.nodes.entries.map (·.2.qualifiedName)

theorem resolve_mem_names (graph : CallGraph) (id : SId) :
    graph.interner.resolve id ∈ names graph := by
  unfold names StringInterner.resolve
  by_cases h : id < graph.interner.strings.length
  · rw [List.getD_eq_getElem _ _ h]
    simp
  · rw [List.getD_eq_default _ _ (Nat.not_lt.mp h)]
    simp

theorem callerName_mem_names {graph : CallGraph} {name : Str} {edge : CallGraphEdge}
    (h : edge ∈ graph.callersOf name) : edge.callerName ∈ names graph := by
  obtain ⟨usrId, -, h⟩ := List.mem_flatMap.mp h
  obtain ⟨ref, -, rfl⟩ := List.mem_map.mp h
  show graph.displayFor ref.caller ∈ names graph
  unfold CallGraph.displayFor
  cases hl : graph.nodes.lookup ref.caller with
  | none => exact resolve_mem_names graph ref.caller
  | some node =>
      have hentry := (UMap.mem_entries graph.nodes ref.caller node).mpr hl
      exact List.mem_append_right _ (List.mem_map_of_mem hentry)

/-- A simple path is no longer than the walk has fuel for. -/
theorem length_le_of_callPath {graph : CallGraph} {entries : List Str} {target : Str}
    {chain : List Str} (h : CallPath graph entries target chain) :
    chain.length ≤ graph.interner.size + graph.nodeCount + 2 := by
  obtain ⟨pre, rfl⟩ := List.getLast?_eq_some_iff.mp h.ends
  have hcallers : ∀ (pre : List Str), (pre ++ [target]).IsChain (Calls graph) →
      ∀ x ∈ pre, x ∈ names graph := by
    intro pre
    induction pre with
    | nil => exact fun _ _ hx => absurd hx List.not_mem_nil
    | cons p rest ih =>
        intro hchain x hx
        have hnext : ∃ y, Calls graph p y := by
          cases rest with
          | nil => exact ⟨target, (List.isChain_cons_cons.mp hchain).1⟩
          | cons q rest => exact ⟨q, (List.isChain_cons_cons.mp hchain).1⟩
        rcases List.mem_cons.mp hx with rfl | hx
        · obtain ⟨y, edge, hedge, rfl⟩ := hnext
          exact callerName_mem_names hedge
        · exact ih hchain.tail x hx
  have hsub : pre.Subperm (names graph) :=
    List.subperm_of_subset (List.nodup_append.mp h.simple).1 (hcallers pre h.calls)
  have hlen : pre.length ≤ (names graph).length := hsub.length_le
  simp only [names, List.length_append, List.length_cons, List.length_map, List.length_nil]
    at hlen ⊢
  unfold StringInterner.size CallGraph.nodeCount
  omega

/-! ### The paths that are found -/

theorem findPathsToTarget_sound (graph : CallGraph) (target : Str) (entries : List Str)
    (maxPaths : Nat) {chain : List Str}
    (h : chain ∈ findPathsToTarget graph target entries maxPaths) :
    CallPath graph entries target chain := by
  refine dfs_sound _ [] target [] ?_ ?_ rfl ?_ chain h
  · exact List.nodup_singleton target
  · exact List.isChain_singleton target
  · exact fun _ hc => absurd hc List.not_mem_nil

/-- Split a list at the last of its elements with a property. -/
theorem exists_last {α : Type} (p : α → Prop) (l : List α) (h : ∃ x ∈ l, p x) :
    ∃ pre x rest, l = pre ++ x :: rest ∧ p x ∧ ∀ y ∈ rest, ¬ p y := by
  induction l with
  | nil =>
      obtain ⟨x, hx, -⟩ := h
      exact absurd hx List.not_mem_nil
  | cons a rest ih =>
      by_cases hrest : ∃ x ∈ rest, p x
      · obtain ⟨pre, x, post, rfl, hx, hpost⟩ := ih hrest
        exact ⟨a :: pre, x, post, rfl, hx, hpost⟩
      · obtain ⟨x, hx, hpx⟩ := h
        have hxa : x = a := by
          rcases List.mem_cons.mp hx with hxa | hx
          · exact hxa
          · exact absurd ⟨x, hx, hpx⟩ hrest
        refine ⟨[], a, rest, rfl, hxa ▸ hpx, ?_⟩
        exact fun y hy hpy => hrest ⟨y, hy, hpy⟩

/-- Short of the cap, every simple path ends in one that is found. -/
theorem findPathsToTarget_complete {graph : CallGraph} {target : Str} {entries : List Str}
    {maxPaths : Nat} (hshort : (findPathsToTarget graph target entries maxPaths).length < maxPaths)
    {chain : List Str} (h : CallPath graph entries target chain) :
    ∃ pre found, chain = pre ++ found ∧ found ∈ findPathsToTarget graph target entries maxPaths := by
  have hsome : ∃ e ∈ chain, e ∈ entries := by
    obtain ⟨e, he, hhead⟩ := h.starts
    exact ⟨e, List.mem_of_head? hhead, he⟩
  obtain ⟨pre, e, rest, rfl, he, hrest⟩ := exists_last (· ∈ entries) chain hsome
  have hends : (e :: rest).getLast? = some target := by
    have := h.ends
    rwa [List.getLast?_append_of_ne_nil _ (List.cons_ne_nil e rest)] at this
  obtain ⟨front, hfront⟩ := List.getLast?_eq_some_iff.mp hends
  have hlen := length_le_of_callPath h
  rw [List.length_append, hfront, List.length_append, List.length_singleton] at hlen
  refine ⟨pre, e :: rest, rfl, ?_⟩
  rw [hfront]
  refine dfs_complete _ [] target [] front ?_ hshort ?_ ?_ ?_ ?_
  · omega
  · rw [← hfront]
    exact (List.nodup_append.mp h.simple).2.1
  · rw [← hfront]
    exact h.calls.right_of_append
  · rw [← hfront]
    exact ⟨e, he, rfl⟩
  · rw [← hfront]
    exact hrest

/-! ### What counts as caught

A hop is judged by the first context recorded for the two names, so what is
promised of a path is promised of one call of each hop.
-/

/-- The context lies in a try scope with a matching handler. -/
def Catches (exceptionType : Str) (ctx : CallSiteContext) : Prop :=
  ∃ scope ∈ ctx.enclosingTryCatches, isCaughtByScope exceptionType scope = true

/-- The first context recorded for the hop does. -/
def HopCaught (cfIndex : ControlFlowIndex) (exceptionType : Str) (hop : Str × Str) : Prop :=
  ∃ ctx, hopContext cfIndex hop.1 hop.2 = some ctx ∧ Catches exceptionType ctx

/-- Some hop of the path does. -/
def PathCaught (cfIndex : ControlFlowIndex) (exceptionType : Str) (chain : List Str) : Prop :=
  ∃ hop ∈ hops chain, HopCaught cfIndex exceptionType hop

section Verdict

variable {cfIndex : ControlFlowIndex} {exceptionType : Str}

theorem isCaught_enter (pi : PathInfo) (scope : TryCatchScope) :
    (pi.enter exceptionType scope).isCaught = true ↔
      pi.isCaught = true ∨ isCaughtByScope exceptionType scope = true := by
  unfold PathInfo.enter
  cases pi.isCaught <;> cases isCaughtByScope exceptionType scope <;> simp

theorem isCaught_foldl_enter (scopes : List TryCatchScope) :
    ∀ pi : PathInfo, (scopes.foldl (PathInfo.enter exceptionType) pi).isCaught = true ↔
      pi.isCaught = true ∨ ∃ scope ∈ scopes, isCaughtByScope exceptionType scope = true := by
  induction scopes with
  | nil => intro pi; simp
  | cons scope rest ih =>
      intro pi
      rw [List.foldl_cons, ih, isCaught_enter]
      simp only [List.mem_cons, exists_eq_or_imp, or_assoc]

theorem isCaught_walkHop (pi : PathInfo) (hop : Str × Str) :
    (walkHop cfIndex exceptionType pi hop).isCaught = true ↔
      pi.isCaught = true ∨ HopCaught cfIndex exceptionType hop := by
  unfold walkHop HopCaught Catches
  cases hopContext cfIndex hop.1 hop.2 with
  | none => simp
  | some ctx => simp [isCaught_foldl_enter]

theorem isCaught_foldl_walkHop (hs : List (Str × Str)) :
    ∀ pi : PathInfo, (hs.foldl (walkHop cfIndex exceptionType) pi).isCaught = true ↔
      pi.isCaught = true ∨ ∃ hop ∈ hs, HopCaught cfIndex exceptionType hop := by
  induction hs with
  | nil => intro pi; simp
  | cons hop rest ih =>
      intro pi
      rw [List.foldl_cons, ih, isCaught_walkHop]
      simp only [List.mem_cons, exists_eq_or_imp, or_assoc]

theorem isCaught_pathInfo (chain : List Str) :
    (pathInfo cfIndex exceptionType chain).isCaught = true ↔
      PathCaught cfIndex exceptionType chain := by
  unfold pathInfo PathCaught
  rw [isCaught_foldl_walkHop]
  simp

theorem callChain_foldl_enter (scopes : List TryCatchScope) :
    ∀ pi : PathInfo, (scopes.foldl (PathInfo.enter exceptionType) pi).callChain = pi.callChain := by
  induction scopes with
  | nil => exact fun _ => rfl
  | cons scope rest ih =>
      intro pi
      rw [List.foldl_cons, ih]
      unfold PathInfo.enter
      dsimp only
      split <;> rfl

theorem callChain_foldl_walkHop (hs : List (Str × Str)) :
    ∀ pi : PathInfo,
      (hs.foldl (walkHop cfIndex exceptionType) pi).callChain = pi.callChain := by
  induction hs with
  | nil => exact fun _ => rfl
  | cons hop rest ih =>
      intro pi
      rw [List.foldl_cons, ih]
      unfold walkHop
      cases hopContext cfIndex hop.1 hop.2 with
      | none => rfl
      | some ctx => exact callChain_foldl_enter ctx.enclosingTryCatches pi

theorem callChain_pathInfo (chain : List Str) :
    (pathInfo cfIndex exceptionType chain).callChain = chain :=
  callChain_foldl_walkHop (hops chain) _

/-- All contexts recorded for a hop. -/
def hopContexts (cfIndex : ControlFlowIndex) (hop : Str × Str) : List CallSiteContext :=
  (cfIndex.contextsForCaller hop.1).filter (·.calleeName = hop.2)

/-- The contexts of each hop catch the exception all or none. -/
def Alike (cfIndex : ControlFlowIndex) (exceptionType : Str) (chain : List Str) : Prop :=
  ∀ hop ∈ hops chain, ∀ ctx ∈ hopContexts cfIndex hop, ∀ other ∈ hopContexts cfIndex hop,
    Catches exceptionType ctx → Catches exceptionType other

/-- Where the contexts of a hop are alike, it does not matter which one is taken. -/
theorem PathCaught.any_choice {chain : List Str} (h : PathCaught cfIndex exceptionType chain)
    (halike : Alike cfIndex exceptionType chain) (choice : Str × Str → CallSiteContext)
    (hchoice : ∀ hop ∈ hops chain, choice hop ∈ hopContexts cfIndex hop) :
    ∃ hop ∈ hops chain, Catches exceptionType (choice hop) := by
  obtain ⟨hop, hhop, ctx, hfirst, hcatches⟩ := h
  have hctx : ctx ∈ hopContexts cfIndex hop := by
    unfold hopContext at hfirst
    have hcallee := List.find?_some hfirst
    exact List.mem_filter.mpr ⟨List.mem_of_find?_eq_some hfirst, hcallee⟩
  exact ⟨hop, hhop, halike hop hhop ctx hctx _ (hchoice hop hhop) hcatches⟩

/-- A later part of a path has some of its hops. -/
theorem PathCaught.append {found : List Str} (h : PathCaught cfIndex exceptionType found)
    (pre : List Str) : PathCaught cfIndex exceptionType (pre ++ found) := by
  induction pre with
  | nil => exact h
  | cons p rest ih =>
      obtain ⟨hop, hhop, hcaught⟩ := ih
      refine ⟨hop, ?_, hcaught⟩
      unfold hops at hhop ⊢
      cases hr : rest ++ found with
      | nil =>
          rw [hr] at hhop
          simp at hhop
      | cons y ys =>
          rw [hr] at hhop
          rw [List.cons_append, hr]
          simp only [List.drop_succ_cons, List.drop_zero, List.zip_cons_cons] at hhop ⊢
          exact List.mem_cons_of_mem _ hhop

end Verdict

/-- **What `always_caught` promises.**  There are paths, all of them caught; and unless the
walk came to its cap, every simple path from an entry point is caught, each hop taken at
the first context recorded for it, or at any of them where they are alike. -/
theorem always_caught_sound (graph : CallGraph) (cfIndex : ControlFlowIndex)
    (functionName exceptionType : Str) (entryPoints : List Str)
    (h : (queryExceptionProtection graph cfIndex functionName exceptionType
      entryPoints).protection = .alwaysCaught) :
    let paths := (queryExceptionProtection graph cfIndex functionName exceptionType
      entryPoints).paths
    paths ≠ [] ∧
    (∀ p ∈ paths, CallPath graph entryPoints functionName p.callChain ∧
      PathCaught cfIndex exceptionType p.callChain) ∧
    (paths.length < 100 → ∀ chain, CallPath graph entryPoints functionName chain →
      PathCaught cfIndex exceptionType chain ∧
      (Alike cfIndex exceptionType chain → ∀ choice : Str × Str → CallSiteContext,
        (∀ hop ∈ hops chain, choice hop ∈ hopContexts cfIndex hop) →
          ∃ hop ∈ hops chain, Catches exceptionType (choice hop))) := by
  unfold queryExceptionProtection at h ⊢
  dsimp only at h ⊢
  set raw := findPathsToTarget graph functionName entryPoints 100 with hraw
  by_cases hnone : raw = []
  · rw [if_pos hnone] at h
    simp at h
  · rw [if_neg hnone] at h ⊢
    dsimp only at h ⊢
    have hall : ∀ chain ∈ raw, PathCaught cfIndex exceptionType chain := by
      intro chain hchain
      have hzero : (raw.map (pathInfo cfIndex exceptionType)).countP (!·.isCaught) = 0 := by
        by_contra hc
        unfold verdict at h
        rw [if_neg hc] at h
        split at h <;> simp at h
      have := List.countP_eq_zero.mp hzero _ (List.mem_map_of_mem hchain)
      exact (isCaught_pathInfo chain).mp (by simpa using this)
    refine ⟨by simpa using hnone, ?_, ?_⟩
    · intro p hp
      obtain ⟨chain, hchain, rfl⟩ := List.mem_map.mp hp
      rw [callChain_pathInfo]
      exact ⟨findPathsToTarget_sound graph functionName entryPoints 100 hchain, hall chain hchain⟩
    · intro hshort chain hchain
      rw [List.length_map] at hshort
      obtain ⟨pre, found, rfl, hfound⟩ := findPathsToTarget_complete hshort hchain
      have hcaught := (hall found hfound).append pre
      exact ⟨hcaught, fun halike choice hchoice => hcaught.any_choice halike choice hchoice⟩

/-- A call of `f` in `main`, at one of two places. -/
def callAt (site : Str) : CallGraphEdge where
  callerName := str "main"
  calleeName := str "f"
  kind := .directCall
  confidence := .Proven
  callSite := site
  callerUsr := str "main"
  calleeUsr := str "f"

/-- A call of `f` by `main`, in the given scopes. -/
def contextAt (site : Str) (scopes : List TryCatchScope) : CallSiteContext where
  callerName := str "main"
  calleeName := str "f"
  callSite := site
  enclosingTryCatches := scopes

/-- A try of `main` that takes everything. -/
def catchAll : TryCatchScope where
  tryLocation := str "1"
  enclosingFunction := str "main"
  handlers := [{ caughtType := [], isCatchAll := true }]

/-- `main` calls `f` at one site. -/
def oneGuardedCall : CallGraph := ({} : CallGraph).addEdge (callAt (str "1"))

/-- The call is in a try that takes everything. -/
def oneGuardedContext : ControlFlowIndex :=
  ({} : ControlFlowIndex).addCallSiteContext (contextAt (str "1") [catchAll])

theorem always_caught_sound_guarded_call :
    let paths := (queryExceptionProtection oneGuardedCall oneGuardedContext (str "f") (str "E")
      [str "main"]).paths
    paths ≠ [] ∧
    (∀ p ∈ paths, CallPath oneGuardedCall [str "main"] (str "f") p.callChain ∧
      PathCaught oneGuardedContext (str "E") p.callChain) ∧
    (paths.length < 100 → ∀ chain, CallPath oneGuardedCall [str "main"] (str "f") chain →
      PathCaught oneGuardedContext (str "E") chain ∧
      (Alike oneGuardedContext (str "E") chain → ∀ choice : Str × Str → CallSiteContext,
        (∀ hop ∈ hops chain, choice hop ∈ hopContexts oneGuardedContext hop) →
          ∃ hop ∈ hops chain, Catches (str "E") (choice hop))) :=
  always_caught_sound oneGuardedCall oneGuardedContext (str "f") (str "E") [str "main"] (by decide)

/-! ### Every call site of a hop -/

/-- The call site of an edge lies in a try scope with a matching handler. -/
def SiteCaught (cfIndex : ControlFlowIndex) (exceptionType : Str) (edge : CallGraphEdge) : Prop :=
  ∃ ctx ∈ cfIndex.contextsAtSite edge.callSite, ctx.callerName = edge.callerName ∧
    Catches exceptionType ctx

/-- One edge for each hop of a path. -/
def Realises (graph : CallGraph) (chain : List Str) (sites : List CallGraphEdge) : Prop :=
  List.Forall₂ (fun hop edge => edge ∈ graph.callersOf hop.2 ∧ edge.callerName = hop.1)
    (hops chain) sites

/-- The stronger reading of `always_caught`: every simple path, and on it every choice of
call sites. -/
def CaughtAtEverySite (graph : CallGraph) (cfIndex : ControlFlowIndex)
    (functionName exceptionType : Str) (entryPoints : List Str) : Prop :=
  (queryExceptionProtection graph cfIndex functionName exceptionType
    entryPoints).protection = .alwaysCaught →
  ∀ chain, CallPath graph entryPoints functionName chain →
    ∀ sites, Realises graph chain sites →
      ∃ edge ∈ sites, SiteCaught cfIndex exceptionType edge

/-- The second call of the same function is bare, and the verdict does not see it. -/
theorem always_caught_misses_second_site :
    ¬ CaughtAtEverySite (oneGuardedCall.addEdge (callAt (str "2")))
      (oneGuardedContext.addCallSiteContext (contextAt (str "2") []))
      (str "f") (str "E") [str "main"] := by
  intro h
  have hedge : callAt (str "2")
      ∈ (oneGuardedCall.addEdge (callAt (str "2"))).callersOf (str "f") := by decide
  have hpath : CallPath (oneGuardedCall.addEdge (callAt (str "2"))) [str "main"] (str "f")
      [str "main", str "f"] :=
    ⟨by decide, List.isChain_pair.mpr ⟨_, hedge, rfl⟩, ⟨str "main", by decide, rfl⟩, rfl⟩
  obtain ⟨edge, hin, hcaught⟩ := h (by decide) _ hpath [callAt (str "2")]
    (List.Forall₂.cons ⟨hedge, rfl⟩ List.Forall₂.nil)
  obtain rfl := List.mem_singleton.mp hin
  revert hcaught
  unfold SiteCaught Catches
  decide

end ControlFlowOracle

end Vycor
