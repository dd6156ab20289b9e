/-
Which catches the walk for the nearest ones reports.

The queue of the walk is a stack, so it may come to a function by a long way first; it then
reports the catches there too far up, or not at all when the way was too long.  A function it
passed over as a caller outside a try is not looked at again when it calls another function
inside one.  And it knows functions by their display names: of several calls between the same
two names it looks at the first recorded, and functions that share a name are one to it.

Here functions are known by their usrs, and `NearestReported` is what the query promises of
them.  `nearest_catches` says for which graphs and contexts it keeps the promise: those where the
first way to a function that a catcher calls is no longer than the shortest.
-/
import Vycor.Lib.PathSearch
import Vycor.Proofs.CatchSearch
import Vycor.Proofs.EdgeViews
import Vycor.Proofs.Unwinding

namespace Vycor

/-- The display name of a function. -/
def CallGraph.shownAs (g : CallGraph) (usr : Str) : Str := g.displayFor (g.interner.idOf usr)

namespace ControlFlowOracle

open PathSearch (Steps)

section Nearest

variable (graph : CallGraph) (cfIndex : ControlFlowIndex)

/-! ### Calls inside and outside a try

A call is an edge of the graph, stored or expanded.  An expanded edge leads to another function
than the one that is written at the call site, so no context is recorded for its callee; it is
inside the try that the call written there is inside.
-/

/-- What is recorded for a call: for its callee, else for the call that is written at its site. -/
def callContexts (edge : CallGraphEdge) : List CallSiteContext :=
  let here := (cfIndex.contextsAtSite edge.callSite).filter (·.callerUsr = edge.callerUsr)
  let same := here.filter (·.calleeUsr = edge.calleeUsr)
  if same = [] then here else same

/-- The call is inside a try, this one the innermost. -/
def InTry (edge : CallGraphEdge) (scope : TryCatchScope) : Prop :=
  ∃ ctx ∈ callContexts cfIndex edge, ctx.enclosingTryCatches.head? = some scope

/-- A call of `callee` by `caller` that is inside no try. -/
def BareCall (callee caller : Str) : Prop :=
  ∃ edge ∈ graph.callersOfUsr callee, edge.callerUsr = caller ∧ ∀ scope, ¬ InTry cfIndex edge scope

/-- From `func`, `n` calls inside no try lead to a function that is asked for as `f`. -/
def LeadsTo (f : Str) (n : Nat) (func : Str) : Prop :=
  ∃ target ∈ graph.usrsForName f, Steps (BareCall graph cfIndex) target n func

/-- The caller calls, inside a try, a function from which `n` calls inside none lead to `f`. -/
def Catcher (f caller : Str) (n : Nat) (scope : TryCatchScope) : Prop :=
  ∃ callee, ∃ edge ∈ graph.callersOfUsr callee, edge.callerUsr = caller ∧
    InTry cfIndex edge scope ∧ LeadsTo graph cfIndex f n callee

/-- The fewest such calls. -/
def NearestCatcher (f caller : Str) (n : Nat) : Prop :=
  (∃ scope, Catcher graph cfIndex f caller n scope) ∧
    ∀ n' scope, Catcher graph cfIndex f caller n' scope → n ≤ n'

/-- Every caller that catches within 20 calls is reported, with the fewest frames and the
innermost scope of such a call. -/
def NearestReported (f : Str) : Prop :=
  ∀ caller n, n ≤ 20 → NearestCatcher graph cfIndex f caller n →
    ∃ c ∈ queryNearestCatches graph cfIndex f,
      c.pathSegment.head? = some (graph.shownAs caller) ∧ c.framesFromTarget = n + 1 ∧
        Catcher graph cfIndex f caller n c.scope

/-- The catcher is met on a first way of `n` calls, and the first context recorded for the two
names there is one of such a call. -/
def MetFirst (f caller : Str) (n : Nat) : Prop :=
  ∃ func up scope, CaughtOn graph cfIndex f (graph.shownAs caller) func up scope ∧
    up.length = n ∧ Catcher graph cfIndex f caller n scope

end Nearest

/-- **Every catch is reported, with the fewest frames, exactly when each nearest catcher is met on
a first way that is no longer than the shortest.** -/
theorem nearest_catches (graph : CallGraph) (cfIndex : ControlFlowIndex) (f : Str) :
    NearestReported graph cfIndex f ↔
      ∀ caller n, n ≤ 20 → NearestCatcher graph cfIndex f caller n →
        MetFirst graph cfIndex f caller n := by
  refine forall₄_congr fun caller n _ _ => ?_
  constructor
  · rintro ⟨c, hc, hhead, hframes, hcatcher⟩
    obtain ⟨name, func, up, hcaught, hlength, hpath⟩ := mem_nearestCatches.mp hc
    rw [hpath] at hhead
    obtain rfl : name = graph.shownAs caller := Option.some.inj hhead
    exact ⟨func, up, c.scope, hcaught, by omega, hcatcher⟩
  · rintro ⟨func, up, scope, hcaught, rfl, hcatcher⟩
    exact ⟨⟨up.length + 1, graph.shownAs caller :: func :: up, scope⟩,
      mem_nearestCatches.mpr ⟨_, func, up, hcaught, rfl, rfl⟩, rfl, rfl, hcatcher⟩

/-! ### Graphs with one catch -/

section OneCatch

variable {cfIndex : ControlFlowIndex} {edge : CallGraphEdge}

theorem inTry_iff {scope : TryCatchScope} :
    InTry cfIndex edge scope ↔
      some scope ∈ (callContexts cfIndex edge).map (·.enclosingTryCatches.head?) := by
  rw [List.mem_map]
  rfl

theorem not_inTry (h : callContexts cfIndex edge = []) (scope : TryCatchScope) :
    ¬ InTry cfIndex edge scope := by
  rintro ⟨ctx, hctx, -⟩
  rw [h] at hctx
  exact absurd hctx List.not_mem_nil

theorem exists_inTry (h : ∃ ctx ∈ callContexts cfIndex edge, ctx.enclosingTryCatches ≠ []) :
    ∃ scope, InTry cfIndex edge scope := by
  obtain ⟨ctx, hctx, hne⟩ := h
  exact ⟨_, ctx, hctx, List.head?_eq_some_head hne⟩

end OneCatch

/-- Only the call of `g` by `main` is inside a try. -/
def outerGuarded : ControlFlowIndex :=
  ({} : ControlFlowIndex).addCallSiteContext (guardedCall (str "main") (str "g"))

theorem outerGuarded_leads {n : Nat} {func : Str}
    (h : LeadsTo guardedTwice outerGuarded (str "f") n func) :
    (n = 0 ∧ func = str "f") ∨ (n = 1 ∧ func = str "g") := by
  have hf : ∀ edge ∈ guardedTwice.callersOfUsr (str "f"), edge.callerUsr = str "g" := by decide
  have hg : ∀ edge ∈ guardedTwice.callersOfUsr (str "g"),
      ∃ ctx ∈ callContexts outerGuarded edge, ctx.enclosingTryCatches ≠ [] := by decide
  obtain ⟨target, htarget, hsteps⟩ := h
  obtain rfl : target = str "f" :=
    (by decide : ∀ t ∈ guardedTwice.usrsForName (str "f"), t = str "f") target htarget
  induction hsteps with
  | zero => exact Or.inl ⟨rfl, rfl⟩
  | succ _ hcall ih =>
      obtain ⟨edge, hedge, rfl, hbare⟩ := hcall
      rcases ih with ⟨rfl, rfl⟩ | ⟨rfl, rfl⟩
      · exact Or.inr ⟨rfl, hf edge hedge⟩
      · obtain ⟨scope, htried⟩ := exists_inTry (hg edge hedge)
        exact absurd htried (hbare scope)

/-- `main` catches two frames up, and nothing else catches. -/
theorem nearest_catches_outer :
    NearestReported guardedTwice outerGuarded (str "f") := by
  refine (nearest_catches guardedTwice outerGuarded (str "f")).mpr ?_
  rintro caller n - ⟨⟨scope, callee, edge, hedge, rfl, htried, hleads⟩, -⟩
  have hf : ∀ edge ∈ guardedTwice.callersOfUsr (str "f"),
      callContexts outerGuarded edge = [] := by decide
  have hg : ∀ edge ∈ guardedTwice.callersOfUsr (str "g"),
      edge.callerUsr = str "main" ∧ (callContexts outerGuarded edge).map
        (·.enclosingTryCatches.head?) = [tryAround outerGuarded (str "main") (str "g")] := by
    decide
  have hmain : guardedTwice.shownAs (str "main") = str "main" := by decide
  have hresult : (queryNearestCatches guardedTwice outerGuarded (str "f")).map
      (fun c => (c.framesFromTarget, c.pathSegment, some c.scope))
        = [(2, [str "main", str "g", str "f"], tryAround outerGuarded (str "main") (str "g"))] := by
    decide +kernel
  rcases outerGuarded_leads hleads with ⟨-, rfl⟩ | ⟨rfl, rfl⟩
  · exact absurd htried (not_inTry (hf edge hedge) scope)
  · obtain ⟨hcaller, hscopes⟩ := hg edge hedge
    obtain ⟨c, hc, heq⟩ : ∃ c ∈ queryNearestCatches guardedTwice outerGuarded (str "f"),
        (c.framesFromTarget, c.pathSegment, some c.scope)
          = (2, [str "main", str "g", str "f"], tryAround outerGuarded (str "main") (str "g")) := by
      rw [← List.mem_map, hresult]
      exact List.mem_singleton_self _
    obtain ⟨-, hpath, hscope⟩ : c.framesFromTarget = 2 ∧
        c.pathSegment = [str "main", str "g", str "f"] ∧
        some c.scope = tryAround outerGuarded (str "main") (str "g") := by simpa using heq
    obtain ⟨name, func, up, hcaught, -, hway⟩ := mem_nearestCatches.mp hc
    rw [hpath] at hway
    obtain ⟨hname, hrest⟩ := List.cons.inj hway
    obtain ⟨hfunc, hup⟩ := List.cons.inj hrest
    rw [← hname, ← hfunc, ← hup, ← hmain] at hcaught
    rw [inTry_iff, hscopes, List.mem_singleton, ← hscope] at htried
    obtain rfl := Option.some.inj htried
    rw [hcaller]
    refine ⟨str "g", [str "f"], c.scope, hcaught, rfl, str "g", edge, hedge, hcaller, ?_, hleads⟩
    rw [inTry_iff, hscopes, ← hscope]
    exact List.mem_singleton_self _

/-- `h` comes to `f` through `s` and, by one call more, through `m` and `l`, which the walk looks
at first; `g` calls `h` inside a try. -/
def twoRoutes : CallGraph :=
  [(str "s", str "f"), (str "l", str "f"), (str "m", str "l"), (str "h", str "s"),
    (str "h", str "m"), (str "g", str "h")].foldl
      (fun graph call => graph.addEdge (plainCall call.1 call.2)) {}

/-- The try of `g` around its call of `h`. -/
def twoRoutesContexts : ControlFlowIndex :=
  ({} : ControlFlowIndex).addCallSiteContext (guardedCall (str "g") (str "h"))

/-- `g` catches three frames up and is reported four frames up. -/
theorem nearest_catches_longer : ¬ NearestReported twoRoutes twoRoutesContexts (str "f") := by
  intro h
  have hbare : ∀ call ∈ [(str "s", str "f"), (str "h", str "s")],
      BareCall twoRoutes twoRoutesContexts call.2 call.1 := by
    have hall : ∀ call ∈ [(str "s", str "f"), (str "h", str "s")],
        plainCall call.1 call.2 ∈ twoRoutes.callersOfUsr call.2 ∧
          callContexts twoRoutesContexts (plainCall call.1 call.2) = [] := by decide +kernel
    intro call hcall
    obtain ⟨hedge, hnone⟩ := hall call hcall
    exact ⟨_, hedge, rfl, not_inTry hnone⟩
  have htarget : str "f" ∈ twoRoutes.usrsForName (str "f") := by decide +kernel
  have hcatcher : ∃ scope, Catcher twoRoutes twoRoutesContexts (str "f") (str "g") 2 scope := by
    have hedge : plainCall (str "g") (str "h") ∈ twoRoutes.callersOfUsr (str "h") := by
      decide +kernel
    have hne : ∃ ctx ∈ callContexts twoRoutesContexts (plainCall (str "g") (str "h")),
        ctx.enclosingTryCatches ≠ [] := by decide +kernel
    obtain ⟨scope, htried⟩ := exists_inTry hne
    exact ⟨scope, str "h", _, hedge, rfl, htried, str "f", htarget,
      (Steps.zero.succ (hbare (str "s", str "f") (by decide))).succ
        (hbare (str "h", str "s") (by decide))⟩
  have hleast : ∀ n scope, Catcher twoRoutes twoRoutesContexts (str "f") (str "g") n scope →
      2 ≤ n := by
    -- `g` calls neither `f` nor a caller of it.
    have hnear : ∀ edge ∈ twoRoutes.callersOfUsr (str "f"), edge.callerUsr ≠ str "g" ∧
        ∀ edge' ∈ twoRoutes.callersOfUsr edge.callerUsr, edge'.callerUsr ≠ str "g" := by
      decide +kernel
    have honly : ∀ t ∈ twoRoutes.usrsForName (str "f"), t = str "f" := by decide +kernel
    rintro n scope ⟨callee, edge, hedge, hcaller, -, target, htarget, hsteps⟩
    obtain rfl := honly target htarget
    cases hsteps with
    | zero => exact absurd hcaller (hnear edge hedge).1
    | succ hsteps hcall =>
        cases hsteps with
        | zero =>
            obtain ⟨call, hcall, rfl, -⟩ := hcall
            exact absurd hcaller ((hnear call hcall).2 edge hedge)
        | succ _ _ => omega
  obtain ⟨c, hc, -, hframes, -⟩ := h (str "g") 2 (by decide) ⟨hcatcher, hleast⟩
  have hall : ∀ c ∈ queryNearestCatches twoRoutes twoRoutesContexts (str "f"),
      c.framesFromTarget ≠ 3 := by decide +kernel
  exact hall c hc hframes

end ControlFlowOracle

end Vycor
