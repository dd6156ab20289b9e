/-
Which handler a path reports.

The walk over a path goes from the entry point in and keeps the first handler it meets, so
it reports the outermost one that matches.  An exception meets them the other way round,
from the throwing function out, and a noexcept frame on the way ends the program.

`reported_catcher_iff` says when the two come to the same.
-/
import Vycor.Proofs.ExceptionProtection

namespace Vycor

namespace ControlFlowOracle

variable {cfIndex : ControlFlowIndex} {exceptionType : Str}

/-! ### What an exception meets

The innermost matching handler, unless a noexcept function stands before it. The
path is walked from the entry in, an exception goes the other way.
-/

/-- How a handler is named in a report. -/
def handlerName (handler : CatchHandlerInfo) : Str :=
  if handler.isCatchAll then str "..." else handler.caughtType

/-- The first handler of a scope that takes the exception, with the place of the try. -/
def scopeSelects (exceptionType : Str) (scope : TryCatchScope) : Option (Str × Str) :=
  (scope.handlers.find? (handles exceptionType)).map fun h => (scope.tryLocation, handlerName h)

/-- The same for a call: the scopes around it are listed from the innermost out. -/
def selects (exceptionType : Str) (ctx : CallSiteContext) : Option (Str × Str) :=
  ctx.enclosingTryCatches.findSome? (scopeSelects exceptionType)

/-- Unwinding through these calls, the one nearest to the throw first. -/
def unwind (exceptionType : Str) : List CallSiteContext → Option (Str × Str)
  | [] => none
  | ctx :: outer =>
    match selects exceptionType ctx with
    | some handler => some handler
    | none => if ctx.callerNoexcept = .noexcept then none else unwind exceptionType outer

/-- What a path says of itself. -/
def reported (p : PathInfo) : Option (Str × Str) :=
  if p.isCaught then some (p.caughtAt, p.caughtBy) else none

/-! ### What a path reports -/

theorem scopeSelects_isSome (scope : TryCatchScope) :
    (scopeSelects exceptionType scope).isSome = isCaughtByScope exceptionType scope := by
  unfold scopeSelects isCaughtByScope
  rw [Option.isSome_map, Bool.eq_iff_iff, List.find?_isSome, List.any_eq_true]

theorem reported_enter (pi : PathInfo) (scope : TryCatchScope) :
    reported (pi.enter exceptionType scope)
      = (reported pi).or (scopeSelects exceptionType scope) := by
  have hsome := @scopeSelects_isSome exceptionType scope
  unfold PathInfo.enter reported
  cases hcaught : pi.isCaught with
  | true => simp
  | false =>
      cases hscope : isCaughtByScope exceptionType scope with
      | false =>
          rw [hscope, Option.isSome_eq_false_iff, Option.isNone_iff_eq_none] at hsome
          simp [hsome]
      | true =>
          rw [hscope] at hsome
          unfold scopeSelects at hsome ⊢
          cases hfind : scope.handlers.find? (handles exceptionType) with
          | none => simp [hfind] at hsome
          | some h => simp [handlerName]

theorem reported_foldl_enter (scopes : List TryCatchScope) (pi : PathInfo) :
    reported (scopes.foldl (PathInfo.enter exceptionType) pi)
      = (reported pi).or (scopes.findSome? (scopeSelects exceptionType)) := by
  induction scopes generalizing pi with
  | nil => simp
  | cons scope rest ih =>
      rw [List.foldl_cons, ih, reported_enter, Option.or_assoc, List.findSome?_cons]
      congr 1
      cases scopeSelects exceptionType scope <;> rfl

/-- The contexts of the hops from the entry in, where each hop has one. -/
def HopsAt (cfIndex : ControlFlowIndex) (chain : List Str) (ctxs : List CallSiteContext) : Prop :=
  List.Forall₂ (fun hop ctx => hopContexts cfIndex hop = [ctx]) (hops chain) ctxs

theorem hopContext_eq (caller callee : Str) :
    hopContext cfIndex caller callee = (hopContexts cfIndex (caller, callee)).head? := by
  unfold hopContext hopContexts
  rw [List.head?_filter]

theorem reported_foldl_walkHop {hs : List (Str × Str)} {ctxs : List CallSiteContext}
    (h : List.Forall₂ (fun hop ctx => hopContexts cfIndex hop = [ctx]) hs ctxs) (pi : PathInfo) :
    reported (hs.foldl (walkHop cfIndex exceptionType) pi)
      = (reported pi).or (ctxs.findSome? (selects exceptionType)) := by
  induction h generalizing pi with
  | nil => simp
  | @cons hop ctx hs ctxs hhop _ ih =>
      have hwalk : reported (walkHop cfIndex exceptionType pi hop)
          = (reported pi).or (selects exceptionType ctx) := by
        unfold walkHop
        rw [hopContext_eq, hhop]
        exact reported_foldl_enter ctx.enclosingTryCatches pi
      rw [List.foldl_cons, ih, hwalk, Option.or_assoc, List.findSome?_cons]
      congr 1
      cases selects exceptionType ctx <;> rfl

/-- A path reports the first handler on the way in. -/
theorem reported_pathInfo {chain : List Str} {ctxs : List CallSiteContext}
    (h : HopsAt cfIndex chain ctxs) :
    reported (pathInfo cfIndex exceptionType chain) = ctxs.findSome? (selects exceptionType) := by
  unfold pathInfo
  rw [reported_foldl_walkHop h]
  rfl

/-! ### From both ends -/

/-- The hop nearest to the entry that catches the exception. -/
def Outermost (exceptionType : Str) (ctxs : List CallSiteContext) (ctx : CallSiteContext) : Prop :=
  ∃ outer inner, ctxs = outer ++ ctx :: inner ∧ selects exceptionType ctx ≠ none ∧
    ∀ c ∈ outer, selects exceptionType c = none

/-- The hop nearest to the throw that does, with the hops inside it. -/
def Innermost (exceptionType : Str) (ctxs : List CallSiteContext) (ctx : CallSiteContext)
    (inner : List CallSiteContext) : Prop :=
  ∃ outer, ctxs = outer ++ ctx :: inner ∧ selects exceptionType ctx ≠ none ∧
    ∀ c ∈ inner, selects exceptionType c = none

/-- Both ways lead to one handler, and nothing inside it ends the program. -/
def SameFromBothEnds (exceptionType : Str) (ctxs : List CallSiteContext) : Prop :=
  ∀ first last inner, Outermost exceptionType ctxs first → Innermost exceptionType ctxs last inner →
    selects exceptionType first = selects exceptionType last ∧
      ∀ c ∈ inner, c.callerNoexcept ≠ .noexcept

theorem Outermost.findSome? {ctxs : List CallSiteContext} {ctx : CallSiteContext}
    (h : Outermost exceptionType ctxs ctx) :
    ctxs.findSome? (selects exceptionType) = selects exceptionType ctx := by
  obtain ⟨outer, inner, rfl, hctx, houter⟩ := h
  rw [List.findSome?_append, List.findSome?_eq_none_iff.mpr houter, Option.none_or,
    List.findSome?_cons]
  cases hsel : selects exceptionType ctx with
  | none => exact absurd hsel hctx
  | some handler => rfl

/-- Hops that do not catch are passed unless one of them is noexcept. -/
theorem unwind_append {inner outer : List CallSiteContext}
    (h : ∀ c ∈ inner, selects exceptionType c = none) :
    unwind exceptionType (inner ++ outer)
      = if ∃ c ∈ inner, c.callerNoexcept = .noexcept then none
        else unwind exceptionType outer := by
  induction inner with
  | nil => simp
  | cons c rest ih =>
      obtain ⟨hc, hrest⟩ := List.forall_mem_cons.mp h
      rw [List.cons_append, unwind, hc, ih hrest]
      dsimp only
      by_cases hnoexcept : c.callerNoexcept = .noexcept
      · simp [hnoexcept]
      · simp [hnoexcept]

theorem Innermost.unwind {ctxs inner : List CallSiteContext} {ctx : CallSiteContext}
    (h : Innermost exceptionType ctxs ctx inner) :
    unwind exceptionType ctxs.reverse
      = if ∃ c ∈ inner, c.callerNoexcept = .noexcept then none else selects exceptionType ctx := by
  obtain ⟨outer, rfl, hctx, hinner⟩ := h
  rw [List.reverse_append, List.reverse_cons, List.append_assoc, unwind_append fun c hc =>
    hinner c (List.mem_reverse.mp hc)]
  simp only [List.mem_reverse]
  congr 1
  rw [List.singleton_append, ControlFlowOracle.unwind]
  cases hsel : selects exceptionType ctx with
  | none => exact absurd hsel hctx
  | some handler => rfl

theorem exists_outermost {ctxs : List CallSiteContext}
    (h : ∃ c ∈ ctxs, selects exceptionType c ≠ none) : ∃ ctx, Outermost exceptionType ctxs ctx := by
  induction ctxs with
  | nil =>
      obtain ⟨c, hc, -⟩ := h
      exact absurd hc List.not_mem_nil
  | cons a rest ih =>
      by_cases ha : selects exceptionType a = none
      · obtain ⟨c, hc, hsel⟩ := h
        have hrest : c ∈ rest := (List.mem_cons.mp hc).resolve_left fun heq => hsel (heq ▸ ha)
        obtain ⟨ctx, outer, inner, rfl, hctx, houter⟩ := ih ⟨c, hrest, hsel⟩
        exact ⟨ctx, a :: outer, inner, rfl, hctx, List.forall_mem_cons.mpr ⟨ha, houter⟩⟩
      · exact ⟨a, [], rest, rfl, ha, by simp⟩

theorem exists_innermost {ctxs : List CallSiteContext}
    (h : ∃ c ∈ ctxs, selects exceptionType c ≠ none) :
    ∃ ctx inner, Innermost exceptionType ctxs ctx inner := by
  obtain ⟨outer, ctx, inner, heq, hctx, hinner⟩ := exists_last _ ctxs h
  exact ⟨ctx, inner, outer, heq, hctx, fun c hc => not_not.mp (hinner c hc)⟩

/-- The first handler on the way in is the one the exception reaches. -/
theorem findSome?_eq_unwind_iff (ctxs : List CallSiteContext) :
    ctxs.findSome? (selects exceptionType) = unwind exceptionType ctxs.reverse ↔
      SameFromBothEnds exceptionType ctxs := by
  by_cases hcaught : ∃ c ∈ ctxs, selects exceptionType c ≠ none
  · obtain ⟨first, hfirst⟩ := exists_outermost hcaught
    obtain ⟨last, inner, hlast⟩ := exists_innermost hcaught
    have hsome : selects exceptionType first ≠ none := by
      obtain ⟨-, -, -, hsome, -⟩ := hfirst
      exact hsome
    constructor
    · intro heq first' last' inner' hfirst' hlast'
      rw [hfirst'.findSome?, hlast'.unwind] at heq
      split at heq
      · obtain ⟨-, -, -, hsome', -⟩ := hfirst'
        exact absurd heq hsome'
      · rename_i hnone
        exact ⟨heq, fun c hc hnoexcept => hnone ⟨c, hc, hnoexcept⟩⟩
    · intro h
      obtain ⟨hsame, hnone⟩ := h first last inner hfirst hlast
      rw [hfirst.findSome?, hlast.unwind, if_neg, hsame]
      rintro ⟨c, hc, hnoexcept⟩
      exact hnone c hc hnoexcept
  · have hnone : ∀ c ∈ ctxs, selects exceptionType c = none := fun c hc =>
      not_not.mp fun hsel => hcaught ⟨c, hc, hsel⟩
    apply iff_of_true
    · have hunwind := @unwind_append exceptionType _ [] fun c hc => hnone c (List.mem_reverse.mp hc)
      rw [List.append_nil] at hunwind
      rw [List.findSome?_eq_none_iff.mpr hnone, hunwind]
      split <;> rfl
    · rintro first last inner ⟨outer, _, rfl, hfirst, -⟩ -
      exact absurd (hnone first (by simp)) hfirst

/-- **A path whose hops have one context each reports the handler that unwinding selects
exactly when the outermost and the innermost hop that catch select the same one and no hop
inside them is noexcept.** -/
theorem reported_catcher_iff (graph : CallGraph) (cfIndex : ControlFlowIndex)
    (functionName exceptionType : Str) (entryPoints : List Str) {p : PathInfo}
    (hp : p ∈ (queryExceptionProtection graph cfIndex functionName exceptionType entryPoints).paths)
    {ctxs : List CallSiteContext} (hone : HopsAt cfIndex p.callChain ctxs) :
    reported p = unwind exceptionType ctxs.reverse ↔ SameFromBothEnds exceptionType ctxs := by
  have hpath : p = pathInfo cfIndex exceptionType p.callChain := by
    unfold queryExceptionProtection at hp
    dsimp only at hp
    split at hp
    · exact absurd hp List.not_mem_nil
    · obtain ⟨chain, -, rfl⟩ := List.mem_map.mp hp
      rw [callChain_pathInfo]
  rw [hpath, reported_pathInfo hone]
  exact findSome?_eq_unwind_iff ctxs

/-- The paths are those found, each with what it reports. -/
theorem paths_of_found {graph : CallGraph} {cfIndex : ControlFlowIndex} {functionName : Str}
    {entryPoints : List Str} {chain : List Str} (exceptionType : Str)
    (h : chain ∈ findPathsToTarget graph functionName entryPoints 100) :
    pathInfo cfIndex exceptionType chain
      ∈ (queryExceptionProtection graph cfIndex functionName exceptionType entryPoints).paths := by
  unfold queryExceptionProtection
  dsimp only
  rw [if_neg (List.ne_nil_of_mem h)]
  exact List.mem_map_of_mem h

/-- A call inside a try of the caller that catches everything. -/
def guardedCall (caller callee : Str) : CallSiteContext where
  callerName := caller
  calleeName := callee
  callSite := caller
  enclosingTryCatches :=
    [{ tryLocation := caller, enclosingFunction := caller
       handlers := [{ caughtType := [], isCatchAll := true }] }]

/-- A call outside any try, at a site named for its caller. -/
def plainCall (caller callee : Str) : CallGraphEdge where
  callerName := caller
  calleeName := callee
  kind := .directCall
  confidence := .Proven
  callSite := caller
  callerUsr := caller
  calleeUsr := callee

/-- `main` calls `g` and `g` calls `f`, both inside a try. -/
def guardedTwice : CallGraph :=
  (({} : CallGraph).addEdge (plainCall (str "main") (str "g"))).addEdge
    (plainCall (str "g") (str "f"))

/-- Both calls are in a try. -/
def guardedTwiceContexts : ControlFlowIndex :=
  (({} : ControlFlowIndex).addCallSiteContext (guardedCall (str "main") (str "g"))).addCallSiteContext
    (guardedCall (str "g") (str "f"))

/-- A try with one handler, at a place of its caller. -/
def tryFor (place caller caughtType : Str) : TryCatchScope where
  tryLocation := place
  enclosingFunction := caller
  handlers := [{ caughtType }]

/-- `main` calls `g` in a try inside another, `g` calls `h` in a try, and `h` calls `f`. -/
def threeCalls : CallGraph :=
  ((({} : CallGraph).addEdge (plainCall (str "main") (str "g"))).addEdge
    (plainCall (str "g") (str "h"))).addEdge (plainCall (str "h") (str "f"))

/-- Only the outer try of `main` is for the exception. -/
def threeCallContexts : ControlFlowIndex :=
  ((({} : ControlFlowIndex).addCallSiteContext
    { guardedCall (str "main") (str "g") with
      enclosingTryCatches :=
        [{ tryFor (str "inner") (str "main") (str "F") with nestingDepth := 1 },
          tryFor (str "outer") (str "main") (str "E")] }).addCallSiteContext
    { guardedCall (str "g") (str "h") with
      enclosingTryCatches := [tryFor (str "in g") (str "g") (str "F")] }).addCallSiteContext
    { guardedCall (str "h") (str "f") with enclosingTryCatches := [] }

/-- The exception passes two tries, and the one that takes it is reported. -/
theorem reported_catcher_three_calls :
    let p := pathInfo threeCallContexts (str "E") [str "main", str "g", str "h", str "f"]
    let ctxs := hopContexts threeCallContexts (str "main", str "g")
      ++ hopContexts threeCallContexts (str "g", str "h")
      ++ hopContexts threeCallContexts (str "h", str "f")
    reported p = some (str "outer", str "E") ∧ reported p = unwind (str "E") ctxs.reverse ∧
      SameFromBothEnds (str "E") ctxs := by
  intro p ctxs
  have hp : p ∈ (queryExceptionProtection threeCalls threeCallContexts (str "f") (str "E")
      [str "main"]).paths := paths_of_found (str "E") (by decide)
  have hone : HopsAt threeCallContexts p.callChain ctxs := by
    rw [HopsAt, callChain_pathInfo]
    exact List.Forall₂.cons (by decide)
      (List.Forall₂.cons (by decide) (List.Forall₂.cons (by decide) List.Forall₂.nil))
  have hsame : reported p = unwind (str "E") ctxs.reverse := by decide
  exact ⟨by decide, hsame, (reported_catcher_iff _ _ _ _ _ hp hone).mp hsame⟩

/-- The exception is caught in `g`, and `main` is reported. -/
theorem reported_catcher_outer :
    ¬ ∀ p ∈ (queryExceptionProtection guardedTwice guardedTwiceContexts (str "f") (str "E")
        [str "main"]).paths,
      ∀ ctxs, HopsAt guardedTwiceContexts p.callChain ctxs →
        reported p = unwind (str "E") ctxs.reverse := by
  intro h
  have hpath := h (pathInfo guardedTwiceContexts (str "E") [str "main", str "g", str "f"])
    (paths_of_found (str "E") (by decide))
    (hopContexts guardedTwiceContexts (str "main", str "g")
      ++ hopContexts guardedTwiceContexts (str "g", str "f"))
    (by
      rw [HopsAt, callChain_pathInfo]
      exact List.Forall₂.cons (by decide) (List.Forall₂.cons (by decide) List.Forall₂.nil))
  revert hpath
  decide

end ControlFlowOracle

end Vycor
