/-
The paths of the exception queries, without the cap.

`allPaths` is the walk of `findPathsToTarget` as an enumeration: the cap takes its first
`maxPaths` elements and changes nothing else.  Its elements are the simple call paths whose
first function is their only entry point, and a query reads nothing from one but the
contexts of its hops.
-/
import Vycor.Proofs.CatchSearch

namespace Vycor

namespace ControlFlowOracle

variable {graph : CallGraph} {cfIndex : ControlFlowIndex} {entries : List Str} {target : Str}

/-! ### The enumeration

The same walk without the cap, as a list of all paths. The capped walk takes
from its front.
-/

/-- The ways to go on backwards to an entry point from a function and the path behind it. -/
def pathsBack (graph : CallGraph) (entries : List Str) : Nat → List Str → Str → List (List Str)
  | 0, _, _ => []
  | fuel + 1, cur, node =>
    if node ∈ entries then [node :: cur]
    else (graph.callersOf node).flatMap fun edge =>
      if edge.callerName ∈ node :: cur then []
      else pathsBack graph entries fuel (node :: cur) edge.callerName

/-- All chains from an entry point to the target, with fuel enough. -/
def allPaths (graph : CallGraph) (target : Str) (entries : List Str) : List (List Str) :=
  pathsBack graph entries (enough graph) [] target

/-- With a cap the walk over the callers takes from the front. -/
theorem walkCallers_eq {dfs : Str → List (List Str) → List (List Str)} {path : List Str}
    {maxPaths : Nat} {F : Str → List (List Str)}
    (hdfs : ∀ x out, dfs x out = out ++ (F x).take (maxPaths - out.length))
    (edges : List CallGraphEdge) (out : List (List Str)) :
    walkCallers dfs path maxPaths edges out
      = out ++ (edges.flatMap fun edge =>
          if edge.callerName ∈ path then [] else F edge.callerName).take (maxPaths - out.length) := by
  induction edges generalizing out with
  | nil => simp [walkCallers]
  | cons edge rest ih =>
      rw [walkCallers, List.flatMap_cons]
      by_cases hon : edge.callerName ∈ path
      · rw [if_pos hon, if_pos hon, List.nil_append]
        exact ih out
      · rw [if_neg hon, if_neg hon]
        dsimp only
        rw [hdfs, List.take_append]
        have hlength : (out ++ (F edge.callerName).take (maxPaths - out.length)).length
            = out.length + min (maxPaths - out.length) (F edge.callerName).length := by
          rw [List.length_append, List.length_take]
        split
        · have hzero : maxPaths - out.length - (F edge.callerName).length = 0 := by omega
          rw [hzero, List.take_zero, List.append_nil]
        · rw [ih, List.append_assoc]
          congr 3
          omega

theorem dfs_eq (maxPaths fuel : Nat) (cur : List Str) (node : Str) (out : List (List Str)) :
    dfs graph entries maxPaths fuel cur node out
      = out ++ (pathsBack graph entries fuel cur node).take (maxPaths - out.length) := by
  induction fuel generalizing cur node out with
  | zero => simp [dfs, pathsBack]
  | succ fuel ih =>
      rw [dfs, pathsBack]
      by_cases hfull : maxPaths ≤ out.length
      · rw [if_pos hfull, Nat.sub_eq_zero_of_le hfull, List.take_zero, List.append_nil]
      · rw [if_neg hfull]
        dsimp only
        split
        · rw [List.take_of_length_le (by rw [List.length_singleton]; omega)]
        · exact walkCallers_eq (ih (node :: cur)) _ out

theorem findPathsToTarget_eq (maxPaths : Nat) :
    findPathsToTarget graph target entries maxPaths
      = (allPaths graph target entries).take maxPaths := by
  unfold findPathsToTarget
  rw [dfs_eq, List.nil_append, List.length_nil, Nat.sub_zero]
  rfl

/-! ### What is enumerated -/

/-- A simple call path on which only the first function is an entry point. -/
structure EntryChain (graph : CallGraph) (entries : List Str) (target : Str) (chain : List Str) :
    Prop extends CallPath graph entries target chain where
  only : ∀ e ∈ chain.tail, e ∉ entries

theorem mem_pathsBack {fuel : Nat} {cur : List Str} {node : Str} (hsimple : (node :: cur).Nodup)
    (hcalls : (node :: cur).IsChain (Calls graph)) (hends : (node :: cur).getLast? = some target)
    (hcur : ∀ e ∈ cur, e ∉ entries) {chain : List Str}
    (h : chain ∈ pathsBack graph entries fuel cur node) :
    EntryChain graph entries target chain ∧ node :: cur <:+ chain := by
  induction fuel generalizing cur node with
  | zero => exact absurd h List.not_mem_nil
  | succ fuel ih =>
      rw [pathsBack] at h
      split at h
      · rename_i hentry
        obtain rfl := List.mem_singleton.mp h
        exact ⟨⟨⟨hsimple, hcalls, ⟨node, hentry, rfl⟩, hends⟩, hcur⟩, List.suffix_refl _⟩
      · rename_i hnode
        obtain ⟨edge, hedge, h⟩ := List.mem_flatMap.mp h
        split at h
        · exact absurd h List.not_mem_nil
        · rename_i hoff
          obtain ⟨hchain, hsuffix⟩ := ih (List.nodup_cons.mpr ⟨hoff, hsimple⟩)
            (List.isChain_cons_cons.mpr ⟨⟨edge, hedge, rfl⟩, hcalls⟩)
            (by rw [List.getLast?_cons_cons]; exact hends)
            (List.forall_mem_cons.mpr ⟨hnode, hcur⟩) h
          exact ⟨hchain, (List.suffix_cons _ _).trans hsuffix⟩

theorem mem_allPaths {chain : List Str} :
    chain ∈ allPaths graph target entries ↔ EntryChain graph entries target chain := by
  constructor
  · intro h
    exact (mem_pathsBack (List.nodup_singleton target) (List.isChain_singleton target) rfl
      (by simp) h).1
  · intro h
    -- Without a cap the walk comes to every one of them.
    have hall : findPathsToTarget graph target entries ((allPaths graph target entries).length + 1)
        = allPaths graph target entries := by
      rw [findPathsToTarget_eq, List.take_of_length_le (Nat.le_succ _)]
    obtain ⟨pre, found, rfl, hfound⟩ := findPathsToTarget_complete
      (by rw [hall]; exact Nat.lt_succ_self _) h.toCallPath
    have hentry := (findPathsToTarget_sound _ _ _ _ hfound).starts
    rw [hall] at hfound
    cases pre with
    | nil => exact hfound
    | cons p rest =>
        obtain ⟨e, he, hhead⟩ := hentry
        refine absurd he (h.only e ?_)
        exact List.mem_append_right _ (List.mem_of_head? hhead)

/-- The end of a path and what comes before it. -/
theorem EntryChain.split {chain : List Str} (h : EntryChain graph entries target chain) :
    chain = chain.dropLast ++ [target] ∧ target ∉ chain.dropLast := by
  obtain ⟨pre, rfl⟩ := List.getLast?_eq_some_iff.mp h.ends
  rw [List.dropLast_concat]
  refine ⟨rfl, fun hmem => ?_⟩
  exact (List.nodup_append.mp h.simple).2.2 target hmem target List.mem_cons_self rfl

theorem EntryChain.nil {chain : List Str} (h : EntryChain graph entries target chain)
    (hnil : chain.dropLast = []) : target ∈ entries := by
  obtain ⟨e, he, hhead⟩ := h.starts
  rw [h.split.1, hnil] at hhead
  obtain rfl : target = e := by simpa using hhead
  exact he

/-! ### What a query reads on a path -/

/-- The scopes around the call of a hop. -/
def scopesOn (cfIndex : ControlFlowIndex) (hop : Str × Str) : List TryCatchScope :=
  ((hopContext cfIndex hop.1 hop.2).map (·.enclosingTryCatches)).getD []

theorem scopesOn_eq_nil {caller callee : Str} (h : tryAround cfIndex caller callee = none) :
    scopesOn cfIndex (caller, callee) = [] := by
  unfold tryAround at h
  unfold scopesOn
  dsimp only
  cases hctx : hopContext cfIndex caller callee with
  | none => rfl
  | some ctx =>
      rw [hctx] at h
      exact List.head?_eq_none_iff.mp h

theorem tryCatches_foldl_enter (exceptionType : Str) (scopes : List TryCatchScope) (pi : PathInfo) :
    (scopes.foldl (PathInfo.enter exceptionType) pi).tryCatchesOnPath
      = pi.tryCatchesOnPath ++ scopes := by
  induction scopes generalizing pi with
  | nil => simp
  | cons scope rest ih =>
      have hone : (pi.enter exceptionType scope).tryCatchesOnPath
          = pi.tryCatchesOnPath ++ [scope] := by
        unfold PathInfo.enter
        dsimp only
        split <;> rfl
      rw [List.foldl_cons, ih, hone, List.append_assoc]
      rfl

theorem tryCatches_walkHops (exceptionType : Str) (hs : List (Str × Str)) (pi : PathInfo) :
    (hs.foldl (walkHop cfIndex exceptionType) pi).tryCatchesOnPath
      = pi.tryCatchesOnPath ++ hs.flatMap (scopesOn cfIndex) := by
  induction hs generalizing pi with
  | nil => simp
  | cons hop rest ih =>
      have hone : (walkHop cfIndex exceptionType pi hop).tryCatchesOnPath
          = pi.tryCatchesOnPath ++ scopesOn cfIndex hop := by
        unfold walkHop scopesOn
        cases hopContext cfIndex hop.1 hop.2 with
        | none => simp
        | some ctx => exact tryCatches_foldl_enter exceptionType ctx.enclosingTryCatches pi
      rw [List.foldl_cons, ih, hone, List.append_assoc, List.flatMap_cons]

theorem tryCatches_collectHops (hs : List (Str × Str)) (pi : PathInfo) :
    (hs.foldl (collectHop cfIndex) pi).tryCatchesOnPath
      = pi.tryCatchesOnPath ++ hs.flatMap (scopesOn cfIndex) := by
  induction hs generalizing pi with
  | nil => simp
  | cons hop rest ih =>
      have hone : (collectHop cfIndex pi hop).tryCatchesOnPath
          = pi.tryCatchesOnPath ++ scopesOn cfIndex hop := by
        unfold collectHop scopesOn
        cases hopContext cfIndex hop.1 hop.2 with
        | none => simp
        | some ctx => rfl
      rw [List.foldl_cons, ih, hone, List.append_assoc, List.flatMap_cons]

theorem callChain_collectHops (hs : List (Str × Str)) (pi : PathInfo) :
    (hs.foldl (collectHop cfIndex) pi).callChain = pi.callChain := by
  induction hs generalizing pi with
  | nil => rfl
  | cons hop rest ih =>
      rw [List.foldl_cons, ih]
      unfold collectHop
      cases hopContext cfIndex hop.1 hop.2 <;> rfl

end ControlFlowOracle

end Vycor
