/-
Asking about a function by its usr or by its display name.

The graph takes both for the same function.  The contexts do not: they record the display
name of what is called, so with the usr no context is found for the last call of a path.  And
the walks know where they started by the name they were given, so with the usr they do not
notice when they come back to the function under its display name.

`Alias` is what the two names have in common and where they differ, and
`Alias.answersAgree_iff` says when the three queries give the same answers for both.
-/
import Vycor.Proofs.EntryChains
import Vycor.Proofs.EntrySeeds

namespace Vycor

namespace ControlFlowOracle

/-- Two names of a function, the second of them the one that callers and contexts show. -/
structure Alias (graph : CallGraph) (cfIndex : ControlFlowIndex) (usr name : Str) : Prop where
  ne : usr ≠ name
  callers : graph.callersOf usr = graph.callersOf name
  hidden : ∀ x, ∀ edge ∈ graph.callersOf x, edge.callerName ≠ usr
  bare : ∀ caller, hopContext cfIndex caller usr = none

/-! ### What is compared -/

/-- The scopes of each path, the path but for the name at its end. -/
def pathScopes (paths : List PathInfo) : List (List Str × List TryCatchScope) :=
  paths.map fun p => (p.callChain.dropLast, p.tryCatchesOnPath)

/-- A catch, but for the path to it. -/
def catchOf (c : NearestCatchInfo) : Nat × TryCatchScope := (c.framesFromTarget, c.scope)

/-- The three queries give the same answers for both names. -/
structure AnswersAgree (graph : CallGraph) (cfIndex : ControlFlowIndex) (usr name : Str)
    (entryPoints : List Str) : Prop where
  protection : ∀ exceptionType,
    (queryExceptionProtection graph cfIndex usr exceptionType entryPoints).protection
      = (queryExceptionProtection graph cfIndex name exceptionType entryPoints).protection
  scopes : ∀ exceptionType,
    pathScopes (queryExceptionProtection graph cfIndex usr exceptionType entryPoints).paths
      = pathScopes (queryExceptionProtection graph cfIndex name exceptionType entryPoints).paths
  contexts : ∀ maxPaths,
    pathScopes (queryAllPathContexts graph cfIndex usr entryPoints maxPaths)
      = pathScopes (queryAllPathContexts graph cfIndex name entryPoints maxPaths)
  catches : (queryNearestCatches graph cfIndex usr).map catchOf
    = (queryNearestCatches graph cfIndex name).map catchOf

/-! ### Scopes of paths -/

section Paths

variable {graph : CallGraph} {cfIndex : ControlFlowIndex} {entries : List Str} {target : Str}

/-- The functions above the target on a chain, and the scopes on its hops. -/
def chainScopes (cfIndex : ControlFlowIndex) (chain : List Str) : List Str × List TryCatchScope :=
  (chain.dropLast, (hops chain).flatMap (scopesOn cfIndex))

theorem pathScopes_contexts (maxPaths : Nat) :
    pathScopes (queryAllPathContexts graph cfIndex target entries maxPaths)
      = ((allPaths graph target entries).map (chainScopes cfIndex)).take maxPaths := by
  unfold queryAllPathContexts pathScopes
  rw [findPathsToTarget_eq, List.map_map, List.map_take]
  congr 2
  funext chain
  simp [chainScopes, tryCatches_collectHops, callChain_collectHops]

theorem tryCatches_pathInfo (exceptionType : Str) (chain : List Str) :
    (pathInfo cfIndex exceptionType chain).tryCatchesOnPath
      = (hops chain).flatMap (scopesOn cfIndex) :=
  tryCatches_walkHops exceptionType (hops chain) _

theorem paths_eq (exceptionType : Str) :
    (queryExceptionProtection graph cfIndex target exceptionType entries).paths
      = ((allPaths graph target entries).take 100).map (pathInfo cfIndex exceptionType) := by
  unfold queryExceptionProtection
  rw [findPathsToTarget_eq]
  dsimp only
  split
  · rename_i hnil
    rw [hnil]
    rfl
  · rfl

theorem pathScopes_protection (exceptionType : Str) :
    pathScopes (queryExceptionProtection graph cfIndex target exceptionType entries).paths
      = ((allPaths graph target entries).map (chainScopes cfIndex)).take 100 := by
  rw [paths_eq, pathScopes, List.map_map, ← List.map_take]
  congr 1
  funext chain
  simp [chainScopes, tryCatches_pathInfo, callChain_pathInfo]

/-- A path is caught when one of its scopes takes the exception. -/
theorem isCaught_eq (exceptionType : Str) (chain : List Str) :
    (pathInfo cfIndex exceptionType chain).isCaught
      = (chainScopes cfIndex chain).2.any (isCaughtByScope exceptionType) := by
  rw [Bool.eq_iff_iff, isCaught_pathInfo, List.any_eq_true]
  unfold PathCaught HopCaught Catches chainScopes
  simp only [List.mem_flatMap, scopesOn]
  constructor
  · rintro ⟨hop, hhop, ctx, hctx, scope, hscope, hcaught⟩
    exact ⟨scope, ⟨hop, hhop, by rw [hctx]; exact hscope⟩, hcaught⟩
  · rintro ⟨scope, ⟨hop, hhop, hscope⟩, hcaught⟩
    cases hctx : hopContext cfIndex hop.1 hop.2 with
    | none =>
        rw [hctx] at hscope
        exact absurd hscope List.not_mem_nil
    | some ctx =>
        rw [hctx] at hscope
        exact ⟨hop, hhop, ctx, hctx, scope, hscope, hcaught⟩

/-- The verdict is one on the scopes of the paths. -/
def verdictOn (exceptionType : Str) (scopes : List (List Str × List TryCatchScope)) : Protection :=
  if scopes = [] then .unknown
  else
    if scopes.countP (fun s => !s.2.any (isCaughtByScope exceptionType)) = 0 then .alwaysCaught
    else if scopes.countP (fun s => s.2.any (isCaughtByScope exceptionType)) = 0 then .neverCaught
    else .sometimesCaught

theorem protection_eq (exceptionType : Str) :
    (queryExceptionProtection graph cfIndex target exceptionType entries).protection
      = verdictOn exceptionType
          (((allPaths graph target entries).map (chainScopes cfIndex)).take 100) := by
  unfold queryExceptionProtection
  rw [findPathsToTarget_eq, ← List.map_take]
  dsimp only
  by_cases hnil : (allPaths graph target entries).take 100 = []
  · rw [if_pos hnil, hnil]
    rfl
  · have hscopes : ((allPaths graph target entries).take 100).map (chainScopes cfIndex) ≠ [] :=
      fun h => hnil (List.map_eq_nil_iff.mp h)
    rw [if_neg hnil]
    unfold verdictOn verdict
    rw [if_neg hscopes]
    simp only [List.countP_map, Function.comp_def, isCaught_eq]

/-- The three queries agree when the scopes of all paths and the catches do. -/
theorem answersAgree_iff {usr name : Str} :
    AnswersAgree graph cfIndex usr name entries ↔
      (allPaths graph usr entries).map (chainScopes cfIndex)
        = (allPaths graph name entries).map (chainScopes cfIndex) ∧
      (queryNearestCatches graph cfIndex usr).map catchOf
        = (queryNearestCatches graph cfIndex name).map catchOf := by
  constructor
  · intro h
    refine ⟨?_, h.catches⟩
    -- A cap that neither list reaches.
    have hall := h.contexts (((allPaths graph usr entries).map (chainScopes cfIndex)).length
      + ((allPaths graph name entries).map (chainScopes cfIndex)).length)
    rw [pathScopes_contexts, pathScopes_contexts, List.take_of_length_le (Nat.le_add_right _ _),
      List.take_of_length_le (Nat.le_add_left _ _)] at hall
    exact hall
  · rintro ⟨hpaths, hcatches⟩
    refine ⟨fun exceptionType => ?_, fun exceptionType => ?_, fun maxPaths => ?_, hcatches⟩
    · rw [protection_eq, protection_eq, hpaths]
    · rw [pathScopes_protection, pathScopes_protection, hpaths]
    · rw [pathScopes_contexts, pathScopes_contexts, hpaths]

end Paths

/-! ### The same paths -/

section Lockstep

variable {graph : CallGraph} {cfIndex : ControlFlowIndex} {usr name : Str} {entries : List Str}

/-- No path to the function comes through it under its display name. -/
def NoReturn (graph : CallGraph) (entries : List Str) (usr name : Str) : Prop :=
  ∀ chain, EntryChain graph entries usr chain → name ∉ chain

/-- No other function calls it inside a try. -/
def CalledBare (graph : CallGraph) (cfIndex : ControlFlowIndex) (name : Str) : Prop :=
  ∀ caller, Calls graph caller name → caller ≠ name → tryAround cfIndex caller name = none

/-- The path with another name at its end. -/
def renameEnd (usr : Str) (chain : List Str) : List Str := chain.dropLast ++ [usr]

theorem renameEnd_concat (pre : List Str) (x : Str) : renameEnd usr (pre ++ [x]) = pre ++ [usr] := by
  unfold renameEnd
  rw [List.dropLast_concat]

/-- No call to the usr is found inside a try. -/
theorem Alias.tryAround_none (h : Alias graph cfIndex usr name) (caller : Str) :
    tryAround cfIndex caller usr = none := by
  unfold tryAround
  rw [h.bare caller]
  rfl

/-- Beyond the first call both walks do the same, but that the one from the usr may come to the
function again.  Nothing is found beyond that. -/
theorem Alias.pathsBack_eq (h : Alias graph cfIndex usr name)
    (hreturn : NoReturn graph entries usr name) (fuel : Nat) (cur : List Str) {node : Str}
    (hsimple : (node :: (cur ++ [usr])).Nodup)
    (hcalls : (node :: (cur ++ [usr])).IsChain (Calls graph))
    (hfirst : ∀ e ∈ cur ++ [usr], e ∉ entries) :
    pathsBack graph entries fuel (cur ++ [usr]) node
      = (pathsBack graph entries fuel (cur ++ [name]) node).map (renameEnd usr) := by
  induction fuel generalizing cur node with
  | zero => rfl
  | succ fuel ih =>
      rw [pathsBack, pathsBack]
      split
      · rw [List.map_singleton, ← List.cons_append, ← List.cons_append, renameEnd_concat]
      rename_i hentry
      rw [List.map_flatMap]
      apply List.flatMap_congr
      intro edge hedge
      have hcaller := h.hidden node edge hedge
      by_cases hself : edge.callerName = name
      · -- Only the walk from the usr goes on here.
        have hon : edge.callerName ∈ node :: (cur ++ [name]) := by simp [hself]
        rw [if_pos hon, List.map_nil]
        split
        · rfl
        · rename_i hoff
          apply List.eq_nil_iff_forall_not_mem.mpr
          intro chain hchain
          obtain ⟨hpath, hsuffix⟩ := mem_pathsBack
            (List.nodup_cons.mpr ⟨hoff, hsimple⟩)
            (List.isChain_cons_cons.mpr ⟨⟨edge, hedge, rfl⟩, hcalls⟩)
            (show _ = some usr by simp [List.getLast?_cons])
            (List.forall_mem_cons.mpr ⟨hentry, hfirst⟩) hchain
          refine hreturn chain hpath (hsuffix.subset ?_)
          rw [hself]
          exact List.mem_cons_self
      · have hsame : edge.callerName ∈ node :: (cur ++ [usr]) ↔
            edge.callerName ∈ node :: (cur ++ [name]) := by
          simp [hcaller, hself]
        by_cases hon : edge.callerName ∈ node :: (cur ++ [usr])
        · rw [if_pos hon, if_pos (hsame.mp hon), List.map_nil]
        · rw [if_neg hon, if_neg (hsame.not.mp hon)]
          exact ih (node :: cur) (List.nodup_cons.mpr ⟨hon, hsimple⟩)
            (List.isChain_cons_cons.mpr ⟨⟨edge, hedge, rfl⟩, hcalls⟩)
            (List.forall_mem_cons.mpr ⟨hentry, hfirst⟩)

theorem Alias.allPaths_eq (h : Alias graph cfIndex usr name)
    (hreturn : NoReturn graph entries usr name) (husr : usr ∉ entries) (hname : name ∉ entries) :
    allPaths graph usr entries = (allPaths graph name entries).map (renameEnd usr) := by
  unfold allPaths enough
  rw [pathsBack, pathsBack, if_neg husr, if_neg hname, h.callers, List.map_flatMap]
  apply List.flatMap_congr
  intro edge hedge
  have hcaller := h.hidden name edge hedge
  rw [if_neg (by simpa using hcaller)]
  have hcalls : [edge.callerName, usr].IsChain (Calls graph) :=
    List.isChain_pair.mpr ⟨edge, h.callers ▸ hedge, rfl⟩
  have hsimple : [edge.callerName, usr].Nodup := by simpa using hcaller
  by_cases hself : edge.callerName = name
  · rw [if_pos (by simp [hself]), List.map_nil]
    apply List.eq_nil_iff_forall_not_mem.mpr
    intro chain hchain
    obtain ⟨hpath, hsuffix⟩ := mem_pathsBack hsimple hcalls (show _ = some usr from rfl)
      (by simpa using husr) hchain
    refine hreturn chain hpath (hsuffix.subset ?_)
    rw [hself]
    exact List.mem_cons_self
  · rw [if_neg (by simpa using hself)]
    exact h.pathsBack_eq hreturn _ [] hsimple hcalls
      (by simpa using husr)

theorem hops_concat (pre : List Str) (caller callee : Str) :
    hops (pre ++ [caller, callee]) = hops (pre ++ [caller]) ++ [(caller, callee)] := by
  unfold hops
  induction pre with
  | nil => rfl
  | cons p rest ih =>
      cases rest with
      | nil => rfl
      | cons q rest => simpa using ih

/-- Where no call of the function is in a try, its last hop adds nothing under either name. -/
theorem Alias.chainScopes_eq (h : Alias graph cfIndex usr name)
    (hcalled : CalledBare graph cfIndex name) {chain : List Str}
    (hchain : EntryChain graph entries name chain) :
    chainScopes cfIndex (renameEnd usr chain) = chainScopes cfIndex chain := by
  obtain ⟨hsplit, hnot⟩ := hchain.split
  have hpath := hchain.calls
  generalize chain.dropLast = pre at hsplit hnot
  subst hsplit
  rw [renameEnd_concat]
  unfold chainScopes
  rw [List.dropLast_concat, List.dropLast_concat]
  rcases List.eq_nil_or_concat pre with rfl | ⟨pre, caller, rfl⟩
  · rfl
  rw [List.concat_eq_append, List.append_assoc, List.singleton_append] at hpath
  rw [List.concat_eq_append] at hnot ⊢
  have hcalls : Calls graph caller name :=
    (List.isChain_cons_cons.mp hpath.right_of_append).1
  have hne : caller ≠ name := by
    rintro rfl
    exact hnot (by simp)
  have hlast : scopesOn cfIndex (caller, usr) = scopesOn cfIndex (caller, name) := by
    rw [scopesOn_eq_nil (hcalled caller hcalls hne), scopesOn_eq_nil (h.tryAround_none caller)]
  rw [List.append_assoc, List.append_assoc, List.singleton_append, List.singleton_append,
    hops_concat, hops_concat, List.flatMap_append, List.flatMap_append, List.flatMap_singleton,
    List.flatMap_singleton, hlast]

theorem allPaths_of_entry {target : Str} (h : target ∈ entries) :
    allPaths graph target entries = [[target]] := by
  unfold allPaths enough
  rw [pathsBack, if_pos h]

/-- **Where no other function calls it inside a try, the paths to the function have the same
scopes exactly when the entry points list both of its names or neither, and none of the paths
comes through it.** -/
theorem Alias.paths_agree_iff (h : Alias graph cfIndex usr name)
    (hcalled : CalledBare graph cfIndex name) :
    (allPaths graph usr entries).map (chainScopes cfIndex)
        = (allPaths graph name entries).map (chainScopes cfIndex) ↔
      (usr ∈ entries ↔ name ∈ entries) ∧ (usr ∉ entries → NoReturn graph entries usr name) := by
  constructor
  · intro heq
    have hmem : ∀ pre, (∃ chain, EntryChain graph entries usr chain ∧ chain.dropLast = pre) ↔
        ∃ chain, EntryChain graph entries name chain ∧ chain.dropLast = pre := by
      intro pre
      simp only [← mem_allPaths]
      have hpre := congrArg (fun l => pre ∈ l.map Prod.fst) heq
      simpa [chainScopes] using hpre
    have hself : ∀ {target}, target ∈ entries → EntryChain graph entries target [target] := by
      intro target htarget
      exact ⟨⟨List.nodup_singleton _, List.isChain_singleton _, ⟨target, htarget, rfl⟩, rfl⟩,
        by simp⟩
    refine ⟨⟨fun husr => ?_, fun hname => ?_⟩, fun _ chain hchain hin => ?_⟩
    · obtain ⟨chain, hchain, hnil⟩ := (hmem []).mp ⟨[usr], hself husr, rfl⟩
      exact hchain.nil hnil
    · obtain ⟨chain, hchain, hnil⟩ := (hmem []).mpr ⟨[name], hself hname, rfl⟩
      exact hchain.nil hnil
    · obtain ⟨other, hother, hpre⟩ := (hmem chain.dropLast).mp ⟨chain, hchain, rfl⟩
      rw [hchain.split.1] at hin
      rcases List.mem_append.mp hin with hin | hin
      · rw [← hpre] at hin
        exact hother.split.2 hin
      · exact h.ne (List.mem_singleton.mp hin).symm
  · rintro ⟨hentries, hreturn⟩
    by_cases husr : usr ∈ entries
    · rw [allPaths_of_entry husr, allPaths_of_entry (hentries.mp husr)]
      rfl
    · rw [h.allPaths_eq (hreturn husr) husr (hentries.not.mp husr), List.map_map]
      apply List.map_congr_left
      intro chain hchain
      exact h.chainScopes_eq hcalled (mem_allPaths.mp hchain)

/-! ### The same catches

The walks from the two names are run side by side. They stay in step until the
function itself comes up under its display name, which the walk from that name
has seen.
-/

/-- The catches reported so far. -/
def catches (search : CatchSearch) : List (Nat × TryCatchScope) := search.result.map catchOf

/-- The walk is about to look at a function that the searched one, not seen under its display
name, calls inside a try. -/
def MeetsItself (graph : CallGraph) (cfIndex : ControlFlowIndex) (name : Str)
    (search : CatchSearch) : Prop :=
  ∃ state rest, search.queue = state :: rest ∧ state.depth ≤ 20 ∧ name ∉ search.visited ∧
    Calls graph name state.func ∧ tryAround cfIndex name state.func ≠ none

/-- The walks from both names, but for the function itself on the first queue. -/
structure Lock (usr name : Str) (su sd : CatchSearch) : Prop where
  queue : (su.queue.filter (·.func ≠ name)).map (fun s => (s.func, s.depth))
    = sd.queue.map fun s => (s.func, s.depth)
  seen : ∀ x, x ≠ usr → x ≠ name → (x ∈ su.visited ↔ x ∈ sd.visited)
  self : name ∈ sd.visited
  queued : ∀ s ∈ su.queue, s.func = name → name ∈ su.visited

/-- The first list has all of the second, and no more exactly when `P`. -/
def Ahead (P : Prop) (U D : List (Nat × TryCatchScope)) : Prop := D.Sublist U ∧ (U = D ↔ P)

theorem Ahead.append {P Q : Prop} {U D U' D' : List (Nat × TryCatchScope)} (h : Ahead P U D)
    (h' : Ahead Q U' D') : Ahead (P ∧ Q) (U ++ U') (D ++ D') := by
  refine ⟨h.1.append h'.1, ?_⟩
  rw [← h.2, ← h'.2]
  constructor
  · intro heq
    have hlength := congrArg List.length heq
    rw [List.length_append, List.length_append] at hlength
    have hle := h.1.length_le
    have hle' := h'.1.length_le
    exact List.append_inj heq (by omega)
  · rintro ⟨rfl, rfl⟩
    rfl

theorem Ahead.congr {P Q : Prop} {U D : List (Nat × TryCatchScope)} (h : Ahead P U D)
    (hiff : P ↔ Q) : Ahead Q U D := ⟨h.1, h.2.trans hiff⟩

theorem ahead_nil {P : Prop} (h : P) : Ahead P [] [] := ⟨List.Sublist.refl _, iff_of_true rfl h⟩

/-- What both walks add in step. -/
def Added (P : Prop) (su sd su' sd' : CatchSearch) : Prop :=
  ∃ newU newD, catches su' = catches su ++ newU ∧ catches sd' = catches sd ++ newD ∧
    Ahead P newU newD

theorem Added.trans {P Q : Prop} {su sd su' sd' su'' sd'' : CatchSearch}
    (h : Added P su sd su' sd') (h' : Added Q su' sd' su'' sd'') :
    Added (P ∧ Q) su sd su'' sd'' := by
  obtain ⟨newU, newD, hu, hd, hnew⟩ := h
  obtain ⟨newU', newD', hu', hd', hnew'⟩ := h'
  refine ⟨newU ++ newU', newD ++ newD', ?_, ?_, hnew.append hnew'⟩
  · rw [hu', hu, List.append_assoc]
  · rw [hd', hd, List.append_assoc]

theorem Added.congr {P Q : Prop} {su sd su' sd' : CatchSearch} (h : Added P su sd su' sd')
    (hiff : P ↔ Q) : Added Q su sd su' sd' := by
  obtain ⟨newU, newD, hu, hd, hnew⟩ := h
  exact ⟨newU, newD, hu, hd, hnew.congr hiff⟩

theorem added_nil {P : Prop} (h : P) {su sd su' sd' : CatchSearch}
    (hu : su'.result = su.result) (hd : sd'.result = sd.result) : Added P su sd su' sd' := by
  refine ⟨[], [], ?_, ?_, ahead_nil h⟩
  · rw [catches, catches, hu, List.append_nil]
  · rw [catches, catches, hd, List.append_nil]

theorem Lock.caller {su sd : CatchSearch} (hlock : Lock usr name su sd) {stU stD : SearchState}
    (hdepth : stU.depth = stD.depth) {edge : CallGraphEdge} (hhidden : edge.callerName ≠ usr)
    (hsame : edge.callerName ≠ name →
      tryAround cfIndex edge.callerName stU.func = tryAround cfIndex edge.callerName stD.func) :
    Lock usr name (searchCaller cfIndex stU su edge) (searchCaller cfIndex stD sd edge) ∧
    Added (¬ (name ∉ su.visited ∧ edge.callerName = name ∧ tryAround cfIndex name stU.func ≠ none))
      su sd (searchCaller cfIndex stU su edge) (searchCaller cfIndex stD sd edge) ∧
    (tryAround cfIndex name stU.func ≠ none →
      (name ∈ (searchCaller cfIndex stU su edge).visited ↔ name ∈ su.visited)) := by
  by_cases hself : edge.callerName = name
  · -- The walk from the display name has seen it.
    have hseenD : edge.callerName ∈ sd.visited := by
      rw [hself]
      exact hlock.self
    rw [searchCaller_seen hseenD]
    by_cases hseen : name ∈ su.visited
    · rw [searchCaller_seen (by rwa [hself])]
      exact ⟨hlock, added_nil (fun hc => hc.1 hseen) rfl rfl, fun _ => Iff.rfl⟩
    · have hoff : edge.callerName ∉ su.visited := by rwa [hself]
      cases htry : tryAround cfIndex edge.callerName stU.func with
      | some scope =>
          rw [searchCaller_catch hoff htry]
          rw [hself] at htry
          refine ⟨⟨hlock.queue, hlock.seen, hlock.self, hlock.queued⟩, ?_, fun _ => Iff.rfl⟩
          refine ⟨[(stU.depth + 1, scope)], [], ?_, ?_, List.nil_sublist _, ?_⟩
          · simp [catches, catchOf]
          · simp
          · simp [hseen, hself, htry]
      | none =>
          rw [searchCaller_bare hoff htry]
          rw [hself] at htry
          refine ⟨⟨?_, ?_, hlock.self, ?_⟩, added_nil (fun hc => hc.2.2 htry) rfl rfl,
            fun hc => absurd htry hc⟩
          · rw [List.filter_cons_of_neg (by simpa using hself)]
            exact hlock.queue
          · intro x hx hne
            rw [← hlock.seen x hx hne, List.mem_cons, hself]
            exact or_iff_right hne
          · intro s _ _
            rw [hself]
            exact List.mem_cons_self
  · have hnot : ¬ (name ∉ su.visited ∧ edge.callerName = name ∧
        tryAround cfIndex name stU.func ≠ none) := fun hc => hself hc.2.1
    have hiff := hlock.seen edge.callerName hhidden hself
    by_cases hseen : edge.callerName ∈ su.visited
    · rw [searchCaller_seen hseen, searchCaller_seen (hiff.mp hseen)]
      exact ⟨hlock, added_nil hnot rfl rfl, fun _ => Iff.rfl⟩
    · cases htry : tryAround cfIndex edge.callerName stU.func with
      | some scope =>
          rw [searchCaller_catch hseen htry,
            searchCaller_catch (hiff.not.mp hseen) ((hsame hself).symm.trans htry)]
          refine ⟨⟨hlock.queue, hlock.seen, hlock.self, hlock.queued⟩, ?_, fun _ => Iff.rfl⟩
          refine ⟨[(stU.depth + 1, scope)], [(stU.depth + 1, scope)], ?_, ?_,
            List.Sublist.refl _, iff_of_true rfl hnot⟩
          · simp [catches, catchOf]
          · simp [catches, catchOf, hdepth]
      | none =>
          rw [searchCaller_bare hseen htry,
            searchCaller_bare (hiff.not.mp hseen) ((hsame hself).symm.trans htry)]
          refine ⟨⟨?_, ?_, List.mem_cons_of_mem _ hlock.self, ?_⟩, added_nil hnot rfl rfl, fun _ => ?_⟩
          · rw [List.filter_cons_of_pos (by simpa using hself), List.map_cons, List.map_cons,
              hlock.queue, hdepth]
          · intro x hx hne
            rw [List.mem_cons, List.mem_cons, hlock.seen x hx hne]
          · intro s hs hfunc
            rcases List.mem_cons.mp hs with rfl | hs
            · exact absurd hfunc hself
            · exact List.mem_cons_of_mem _ (hlock.queued s hs hfunc)
          · rw [List.mem_cons]
            exact or_iff_right fun heq => hself heq.symm

theorem Lock.callers {su sd : CatchSearch} (hlock : Lock usr name su sd) (stU stD : SearchState)
    (hdepth : stU.depth = stD.depth) (edges : List CallGraphEdge)
    (hhidden : ∀ edge ∈ edges, edge.callerName ≠ usr)
    (hsame : ∀ edge ∈ edges, edge.callerName ≠ name →
      tryAround cfIndex edge.callerName stU.func = tryAround cfIndex edge.callerName stD.func) :
    Lock usr name (edges.foldl (searchCaller cfIndex stU) su)
      (edges.foldl (searchCaller cfIndex stD) sd) ∧
    Added (¬ (name ∉ su.visited ∧ (∃ edge ∈ edges, edge.callerName = name) ∧
        tryAround cfIndex name stU.func ≠ none))
      su sd (edges.foldl (searchCaller cfIndex stU) su)
      (edges.foldl (searchCaller cfIndex stD) sd) := by
  induction edges generalizing su sd with
  | nil => exact ⟨hlock, added_nil (by simp) rfl rfl⟩
  | cons edge rest ih =>
      obtain ⟨hfirst, hrest⟩ := List.forall_mem_cons.mp hhidden
      obtain ⟨hlock', hadded, hvisited⟩ :=
        hlock.caller hdepth hfirst (hsame edge List.mem_cons_self)
      obtain ⟨hlock'', hadded'⟩ :=
        ih hlock' hrest fun e he => hsame e (List.mem_cons_of_mem _ he)
      refine ⟨hlock'', (hadded.trans hadded').congr ?_⟩
      by_cases htry : tryAround cfIndex name stU.func = none
      · simp [htry]
      · rw [hvisited htry, List.exists_mem_cons_iff, ← not_or, ← and_or_left, ← or_and_right]

/-- The callers of the function have been seen, so coming back to it leads nowhere. -/
def CallersSeen (graph : CallGraph) (name : Str) (search : CatchSearch) : Prop :=
  ∀ edge ∈ graph.callersOf name, edge.callerName ≠ name → edge.callerName ∈ search.visited

/-- A turn of the walk from the usr, with a turn of the other unless it looks at the function
itself. -/
theorem Alias.turn (h : Alias graph cfIndex usr name) {su sd : CatchSearch}
    (hlock : Lock usr name su sd) (hseen : CallersSeen graph name su) :
    ∃ sd', (sd' = sd ∨ sd' = searchTurn graph cfIndex sd) ∧
      Lock usr name (searchTurn graph cfIndex su) sd' ∧
      Added (¬ MeetsItself graph cfIndex name su) su sd (searchTurn graph cfIndex su) sd' := by
  cases hqueue : su.queue with
  | nil =>
      rw [searchTurn_nil hqueue]
      refine ⟨sd, Or.inl rfl, hlock, added_nil ?_ rfl rfl⟩
      rintro ⟨state, rest, hcons, -⟩
      rw [hqueue] at hcons
      cases hcons
  | cons state rest =>
      rw [searchTurn_cons hqueue]
      have hmeets : MeetsItself graph cfIndex name su ↔ state.depth ≤ 20 ∧ name ∉ su.visited ∧
          Calls graph name state.func ∧ tryAround cfIndex name state.func ≠ none := by
        unfold MeetsItself
        rw [hqueue]
        constructor
        · rintro ⟨state', rest', heq, hmeets⟩
          rw [(List.cons.inj heq).1]
          exact hmeets
        · exact fun hmeets => ⟨state, rest, rfl, hmeets⟩
      have hfilter := hlock.queue
      rw [hqueue] at hfilter
      by_cases hself : state.func = name
      · have hname : name ∈ su.visited :=
          hlock.queued state (hqueue ▸ List.mem_cons_self) hself
        have hstay : lookAt graph cfIndex state { su with queue := rest }
            = { su with queue := rest } := by
          unfold lookAt
          split
          · rfl
          · refine foldl_searchCaller (P := fun s => s = { su with queue := rest }) ?_ rfl
            rintro edge hedge _ rfl
            apply searchCaller_seen
            by_cases hcaller : edge.callerName = name
            · rwa [hcaller]
            · exact hseen edge (hself ▸ hedge) hcaller
        rw [hstay]
        rw [List.filter_cons_of_neg (by simpa using hself)] at hfilter
        refine ⟨sd, Or.inl rfl, ⟨hfilter, hlock.seen, hlock.self, ?_⟩, added_nil ?_ rfl rfl⟩
        · intro s hs
          exact hlock.queued s (hqueue ▸ List.mem_cons_of_mem _ hs)
        · rw [hmeets]
          exact fun hmeets => hmeets.2.1 hname
      · rw [List.filter_cons_of_pos (by simpa using hself), List.map_cons] at hfilter
        obtain ⟨stD, restD, hqueueD⟩ : ∃ stD restD, sd.queue = stD :: restD := by
          cases hd : sd.queue with
          | nil =>
              rw [hd] at hfilter
              cases hfilter
          | cons stD restD => exact ⟨stD, restD, rfl⟩
        rw [hqueueD, List.map_cons, List.cons.injEq, Prod.mk.injEq] at hfilter
        obtain ⟨⟨hfunc, hdepth⟩, hrest⟩ := hfilter
        have hlock' : Lock usr name { su with queue := rest } { sd with queue := restD } := by
          refine ⟨hrest, hlock.seen, hlock.self, fun s hs => ?_⟩
          exact hlock.queued s (hqueue ▸ List.mem_cons_of_mem _ hs)
        refine ⟨_, Or.inr rfl, ?_⟩
        rw [searchTurn_cons hqueueD]
        unfold lookAt
        rw [← hdepth, ← hfunc]
        by_cases hdeep : 20 < state.depth
        · rw [if_pos hdeep, if_pos hdeep]
          refine ⟨hlock', added_nil ?_ rfl rfl⟩
          rw [hmeets]
          exact fun hmeets => absurd hmeets.1 (Nat.not_le.mpr hdeep)
        · rw [if_neg hdeep, if_neg hdeep]
          obtain ⟨hlock'', hadded⟩ := hlock'.callers state stD hdepth
            (graph.callersOf state.func) (h.hidden state.func)
            fun edge _ _ => show tryAround cfIndex _ _ = _ by rw [hfunc]
          refine ⟨hlock'', Added.congr hadded ?_⟩
          rw [hmeets]
          unfold Calls
          exact not_congr (and_iff_right (Nat.le_of_not_lt hdeep)).symm

/-- The first turn: the walks look at the same callers, and report none of them. -/
theorem Alias.first_turn (h : Alias graph cfIndex usr name)
    (hcalled : CalledBare graph cfIndex name) :
    Lock usr name (turns graph cfIndex usr 1) (turns graph cfIndex name 1) ∧
    CallersSeen graph name (turns graph cfIndex usr 1) ∧
    Added (¬ MeetsItself graph cfIndex name (startSearch usr)) (startSearch usr) (startSearch name)
      (turns graph cfIndex usr 1) (turns graph cfIndex name 1) := by
  have hstart : Lock usr name { queue := [], visited := [usr] } { queue := [], visited := [name] } := by
    refine ⟨rfl, fun x hx hne => ?_, List.mem_singleton_self _, by simp⟩
    simp [hx, hne]
  have hsame : ∀ edge ∈ graph.callersOf usr, edge.callerName ≠ name →
      tryAround cfIndex edge.callerName (SearchState.mk usr [usr] 0).func
        = tryAround cfIndex edge.callerName (SearchState.mk name [name] 0).func := by
    intro edge hedge hne
    rw [h.tryAround_none, hcalled edge.callerName ⟨edge, h.callers ▸ hedge, rfl⟩ hne]
  obtain ⟨hlock, hadded⟩ := hstart.callers (SearchState.mk usr [usr] 0)
    (SearchState.mk name [name] 0) rfl (graph.callersOf usr) (h.hidden usr) hsame
  have hname : turns graph cfIndex name 1 = (graph.callersOf usr).foldl
      (searchCaller cfIndex { func := name, pathSoFar := [name], depth := 0 })
      { queue := [], visited := [name] } := by
    rw [h.callers]
    rfl
  refine ⟨by rw [hname]; exact hlock, ?_, ?_⟩
  · intro edge hedge _
    exact @seen_of_mem cfIndex _ { queue := [], visited := [usr] } _ _ (h.callers ▸ hedge)
      (h.tryAround_none _)
  · rw [hname]
    refine Added.congr hadded (iff_of_true ?_ ?_)
    · exact fun hmeets => hmeets.2.2 (h.tryAround_none name)
    · rintro ⟨state, rest, hqueue, -, -, -, htry⟩
      obtain ⟨rfl, -⟩ := List.cons.inj hqueue
      exact htry (h.tryAround_none name)

/-- Both walks after some turns. -/
theorem Alias.in_step (h : Alias graph cfIndex usr name) (hcalled : CalledBare graph cfIndex name)
    (n : Nat) :
    ∃ m ≤ n, Lock usr name (turns graph cfIndex usr (n + 1)) (turns graph cfIndex name (m + 1)) ∧
      CallersSeen graph name (turns graph cfIndex usr (n + 1)) ∧
      Added (∀ k ≤ n, ¬ MeetsItself graph cfIndex name (turns graph cfIndex usr k))
        (startSearch usr) (startSearch name)
        (turns graph cfIndex usr (n + 1)) (turns graph cfIndex name (m + 1)) := by
  induction n with
  | zero =>
      obtain ⟨hlock, hseen, hadded⟩ := h.first_turn hcalled
      exact ⟨0, Nat.le_refl 0, hlock, hseen, hadded.congr (by simp [turns])⟩
  | succ n ih =>
      obtain ⟨m, hm, hlock, hseen, hadded⟩ := ih
      obtain ⟨sd', hsd, hlock', hadded'⟩ := h.turn hlock hseen
      have hseen' : CallersSeen graph name (turns graph cfIndex usr (n + 2)) := by
        intro edge hedge hne
        rw [turns_succ]
        exact visited_searchTurn (hseen edge hedge hne)
      have hall := (hadded.trans hadded').congr (Q := ∀ k ≤ n + 1,
          ¬ MeetsItself graph cfIndex name (turns graph cfIndex usr k)) (by
        constructor
        · rintro ⟨hle, hlast⟩ k hk
          rcases Nat.le_succ_iff.mp hk with hk | rfl
          · exact hle k hk
          · exact hlast
        · exact fun hall => ⟨fun k hk => hall k (Nat.le_succ_of_le hk), hall (n + 1) le_rfl⟩)
      rw [← turns_succ] at hlock' hall
      rcases hsd with rfl | rfl
      · exact ⟨m, Nat.le_succ_of_le hm, hlock', hseen', hall⟩
      · rw [← turns_succ] at hlock' hall
        exact ⟨m + 1, Nat.succ_le_succ hm, hlock', hseen', hall⟩

/-- On a first way from its usr the function is met as a caller that catches. -/
def CatchesItself (graph : CallGraph) (cfIndex : ControlFlowIndex) (usr name : Str) : Prop :=
  ∃ func up scope, CaughtOn graph cfIndex usr name func up scope

/-- The turns at which it is met are those that take such a way. -/
theorem meetsItself_iff :
    (∃ k, MeetsItself graph cfIndex name (turns graph cfIndex usr k)) ↔
      CatchesItself graph cfIndex usr name := by
  constructor
  · rintro ⟨k, state, rest, hqueue, hnear, hnew, hcalls, htry⟩
    obtain ⟨up, hup, hlength⟩ := (sameWays usr k).ways state (hqueue ▸ List.mem_cons_self)
    obtain ⟨hway, hunmet⟩ := exists_turn_iff.mp
      ⟨k, state, rest, hqueue, rfl, hup, hlength.symm, hnew⟩
    obtain ⟨scope, hinside⟩ := Option.ne_none_iff_exists'.mp htry
    exact ⟨state.func, up, scope, hway, hlength ▸ hnear, hunmet, hcalls, hinside⟩
  · rintro ⟨func, up, scope, hway, hnear, hunmet, hcalls, hinside⟩
    obtain ⟨k, state, rest, hqueue, rfl, -, hdepth, hnew⟩ := exists_turn_iff.mpr ⟨hway, hunmet⟩
    exact ⟨k, state, rest, hqueue, hdepth ▸ hnear, hnew, hcalls,
      Option.ne_none_iff_exists'.mpr ⟨scope, hinside⟩⟩

/-- Where no other function calls it inside a try, the catches are the same exactly when the
function is not met as a caller that catches. -/
theorem Alias.catches_agree_iff (h : Alias graph cfIndex usr name)
    (hcalled : CalledBare graph cfIndex name) :
    (queryNearestCatches graph cfIndex usr).map catchOf
        = (queryNearestCatches graph cfIndex name).map catchOf ↔
      ¬ CatchesItself graph cfIndex usr name := by
  rw [← meetsItself_iff, not_exists]
  obtain ⟨m, hm, hlock, -, newU, newD, hu, hd, -, hiff⟩ := h.in_step hcalled (enough graph)
  have hlastU := turns_of_ended (@queue_enough graph cfIndex usr)
    (Nat.le_succ (enough graph))
  have hended : (turns graph cfIndex name (m + 1)).queue = [] := by
    have hqueue := hlock.queue
    rw [hlastU, queue_enough] at hqueue
    exact List.map_eq_nil_iff.mp hqueue.symm
  have hlastD : turns graph cfIndex name (m + 1)
      = turns graph cfIndex name (enough graph) := by
    rw [← turns_of_ended hended (Nat.succ_le_succ hm)]
    exact turns_of_ended (queue_enough name) (Nat.le_succ (enough graph))
  have hstart : ∀ x, catches (startSearch x) = [] := fun _ => rfl
  rw [hlastU, hstart, List.nil_append] at hu
  rw [hlastD, hstart, List.nil_append] at hd
  rw [queryNearestCatches_eq, queryNearestCatches_eq]
  change catches _ = catches _ ↔ _
  rw [hu, hd, hiff]
  constructor
  · intro hall k
    rcases Nat.le_total k (enough graph) with hk | hk
    · exact hall k hk
    · rintro ⟨state, rest, hqueue, -⟩
      rw [turns_of_ended (queue_enough usr) hk, queue_enough] at hqueue
      cases hqueue
  · exact fun hall k _ => hall k

/-- The walk from the usr reports nothing at the first call. -/
theorem Alias.frames (h : Alias graph cfIndex usr name) (n : Nat) :
    (∀ state ∈ (turns graph cfIndex usr (n + 1)).queue, 1 ≤ state.depth) ∧
    ∀ c ∈ (turns graph cfIndex usr (n + 1)).result, 2 ≤ c.framesFromTarget := by
  have hcaller : ∀ (state : SearchState) (search : CatchSearch),
      (state.func = usr ∨ 1 ≤ state.depth) →
      ((∀ s ∈ search.queue, 1 ≤ s.depth) ∧ ∀ c ∈ search.result, 2 ≤ c.framesFromTarget) →
      (∀ s ∈ (lookAt graph cfIndex state search).queue, 1 ≤ s.depth) ∧
        ∀ c ∈ (lookAt graph cfIndex state search).result, 2 ≤ c.framesFromTarget := by
    intro state search hstate hsearch
    unfold lookAt
    split
    · exact hsearch
    · refine foldl_searchCaller (P := fun s => (∀ q ∈ s.queue, 1 ≤ q.depth) ∧
        ∀ c ∈ s.result, 2 ≤ c.framesFromTarget) ?_ hsearch
      rintro edge - s ⟨hqueue, hresult⟩
      by_cases hseen : edge.callerName ∈ s.visited
      · rw [searchCaller_seen hseen]
        exact ⟨hqueue, hresult⟩
      · cases htry : tryAround cfIndex edge.callerName state.func with
        | some scope =>
            rw [searchCaller_catch hseen htry]
            refine ⟨hqueue, List.forall_mem_append.mpr ⟨hresult, ?_⟩⟩
            rw [List.forall_mem_singleton]
            rcases hstate with hstate | hstate
            · rw [hstate, h.tryAround_none] at htry
              cases htry
            · exact Nat.succ_le_succ hstate
        | none =>
            rw [searchCaller_bare hseen htry]
            exact ⟨List.forall_mem_cons.mpr ⟨Nat.le_add_left 1 _, hqueue⟩, hresult⟩
  induction n with
  | zero =>
      exact hcaller { func := usr, pathSoFar := [usr], depth := 0 } { queue := [], visited := [usr] }
        (Or.inl rfl) ⟨by simp, by simp⟩
  | succ n ih =>
      rw [turns_succ]
      cases hqueue : (turns graph cfIndex usr (n + 1)).queue with
      | nil =>
          rw [searchTurn_nil hqueue]
          exact ih
      | cons state rest =>
          rw [searchTurn_cons hqueue]
          rw [hqueue] at ih
          obtain ⟨hstate, hrest⟩ := List.forall_mem_cons.mp ih.1
          exact hcaller state _ (Or.inr hstate) ⟨hrest, ih.2⟩

/-- A call of the function inside a try is reported only under its display name. -/
theorem Alias.calledBare (h : Alias graph cfIndex usr name)
    (heq : (queryNearestCatches graph cfIndex usr).map catchOf
      = (queryNearestCatches graph cfIndex name).map catchOf) : CalledBare graph cfIndex name := by
  rintro _ ⟨edge, hedge, rfl⟩ hne
  by_contra htry
  obtain ⟨scope, htry⟩ := Option.ne_none_iff_exists'.mp htry
  have hfirst := @caught_of_mem cfIndex { func := name, pathSoFar := [name], depth := 0 }
    { queue := [], visited := [name] } edge _ scope hedge (by simpa using hne) htry
  have hlast := (@turns_grow graph cfIndex name 1 (enough graph) (by unfold enough; omega)).subset
    hfirst
  rw [← queryNearestCatches_eq] at hlast
  have hin := List.mem_map_of_mem (f := catchOf) hlast
  rw [← heq] at hin
  obtain ⟨c, hc, hcatch⟩ := List.mem_map.mp hin
  rw [queryNearestCatches_eq] at hc
  obtain ⟨n, hn⟩ : ∃ n, enough graph = n + 1 := ⟨_, rfl⟩
  rw [hn] at hc
  have hframes := (h.frames n).2 c hc
  have hone : c.framesFromTarget = 1 := congrArg Prod.fst hcatch
  omega

/-- When the three queries give the same answers for a function under both of its names. -/
structure NamesAgree (graph : CallGraph) (cfIndex : ControlFlowIndex) (usr name : Str)
    (entryPoints : List Str) : Prop where
  calledBare : CalledBare graph cfIndex name
  entries : usr ∈ entryPoints ↔ name ∈ entryPoints
  noReturn : usr ∉ entryPoints → NoReturn graph entryPoints usr name
  notMet : ¬ CatchesItself graph cfIndex usr name

theorem Alias.answersAgree_iff (h : Alias graph cfIndex usr name) :
    AnswersAgree graph cfIndex usr name entries ↔ NamesAgree graph cfIndex usr name entries := by
  rw [ControlFlowOracle.answersAgree_iff]
  constructor
  · rintro ⟨hpaths, hcatches⟩
    have hcalled := h.calledBare hcatches
    obtain ⟨hentries, hreturn⟩ := (h.paths_agree_iff hcalled).mp hpaths
    exact ⟨hcalled, hentries, hreturn, (h.catches_agree_iff hcalled).mp hcatches⟩
  · rintro ⟨hcalled, hentries, hreturn, hmet⟩
    exact ⟨(h.paths_agree_iff hcalled).mpr ⟨hentries, hreturn⟩,
      (h.catches_agree_iff hcalled).mpr hmet⟩

end Lockstep

end ControlFlowOracle

open ControlFlowOracle

/-! ### Functions with a usr of their own -/

/-- No display name is a usr. -/
structure UsrsApart (g : CallGraph) (cfIndex : ControlFlowIndex) : Prop where
  nodes : ∀ {v w n m}, g.spec.node v = some n → g.spec.node w = some m → n.qualifiedName ≠ w
  contexts : ∀ ctx ∈ cfIndex.allContexts, ∀ {w m}, g.spec.node w = some m → ctx.calleeName ≠ w

section Usrs

variable {g : CallGraph} {cfIndex : ControlFlowIndex}

theorem CallGraph.WF.node_at (hwf : g.WF) {i : SId} {n : CallGraphNode}
    (h : g.nodes.lookup i = some n) : g.spec.node n.usr = some n ∧ g.interner.idOf n.usr = i := by
  obtain ⟨hlt, hres, -⟩ := hwf.ids.node i n h
  have hid : g.interner.idOf n.usr = i := by
    rw [← hres, StringInterner.idOf_resolve hwf.ids.nodup hlt]
  refine ⟨?_, hid⟩
  show g.nodes.lookup (g.interner.idOf n.usr) = some n
  rw [hid, h]

/-- A name of one node resolves to it. -/
theorem CallGraph.WF.resolve_of_unique (hwf : g.WF) {usr : Str} {n : CallGraphNode}
    (hn : g.spec.node usr = some n) (hnone : g.spec.node n.qualifiedName = none)
    (hone : ∀ {v m}, g.spec.node v = some m → m.qualifiedName = n.qualifiedName → v = usr) :
    g.resolveUsrIds n.qualifiedName = [g.interner.idOf usr] := by
  have hname := (hwf.node_usr hn).2.2
  have hfind : g.interner.find n.qualifiedName = some (g.interner.idOf n.qualifiedName) :=
    StringInterner.find_eq_some.mpr ⟨hname, rfl⟩
  obtain ⟨hnodup, hmem⟩ := hwf.nodes (g.interner.idOf n.qualifiedName)
  have hcandidates : g.byName.getD (g.interner.idOf n.qualifiedName) [] = [g.interner.idOf usr] := by
    have hin : g.interner.idOf usr ∈ g.byName.getD (g.interner.idOf n.qualifiedName) [] :=
      (hmem _).mpr ⟨n, hn, rfl⟩
    have hall : ∀ i ∈ g.byName.getD (g.interner.idOf n.qualifiedName) [],
        i = g.interner.idOf usr := by
      intro i hi
      obtain ⟨m, hm, hid⟩ := (hmem i).mp hi
      obtain ⟨hnode, rfl⟩ := hwf.node_at hm
      rw [hone hnode ((StringInterner.idOf_inj (hwf.node_usr hnode).2.2).mp hid.symm).symm]
    exact List.perm_singleton.mp ((List.perm_ext_iff_of_nodup hnodup (List.nodup_singleton _)).mpr
      fun i => ⟨fun hi => List.mem_singleton.mpr (hall i hi),
        fun hi => List.mem_singleton.mp hi ▸ hin⟩)
  unfold CallGraph.resolveUsrIds
  have hlookup : (g.nodes.lookup (g.interner.idOf n.qualifiedName)).isSome = false := by
    change (g.spec.node n.qualifiedName).isSome = false
    rw [hnone]
    rfl
  rw [hfind]
  dsimp only
  rw [hlookup, if_neg Bool.false_ne_true]
  unfold UMap.getD at hcandidates
  cases hb : g.byName.lookup (g.interner.idOf n.qualifiedName) with
  | none =>
      rw [hb] at hcandidates
      cases hcandidates
  | some candidates =>
      rw [hb] at hcandidates
      obtain rfl : candidates = [g.interner.idOf usr] := hcandidates
      exact if_neg (List.cons_ne_nil _ _)

theorem CallGraph.WF.alias (hwf : g.WF) (hapart : UsrsApart g cfIndex) {usr : Str}
    {n : CallGraphNode} (hn : g.spec.node usr = some n)
    (hone : ∀ {v m}, g.spec.node v = some m → m.qualifiedName = n.qualifiedName → v = usr) :
    Alias g cfIndex usr n.qualifiedName where
  ne := (hapart.nodes hn hn).symm
  callers := by
    have hnone : g.spec.node n.qualifiedName = none := by
      cases hname : g.spec.node n.qualifiedName with
      | none => rfl
      | some m => exact absurd rfl (hapart.nodes hn hname)
    have husr : g.resolveUsrIds usr = [g.interner.idOf usr] := by
      have hfind : g.interner.find usr = some (g.interner.idOf usr) :=
        StringInterner.find_eq_some.mpr ⟨(hwf.node_usr hn).2.1, rfl⟩
      have hlookup : g.nodes.lookup (g.interner.idOf usr) = some n := hn
      unfold CallGraph.resolveUsrIds
      rw [hfind]
      dsimp only
      rw [hlookup]
      rfl
    unfold CallGraph.callersOf
    rw [husr, hwf.resolve_of_unique hn hnone hone]
  hidden := by
    intro x edge hedge
    obtain ⟨id, -, hedge⟩ := List.mem_flatMap.mp hedge
    obtain ⟨ref, href, rfl⟩ := List.mem_map.mp hedge
    change g.displayFor ref.caller ≠ usr
    unfold CallGraph.displayFor
    cases hlookup : g.nodes.lookup ref.caller with
    | some m => exact hapart.nodes (hwf.node_at hlookup).1 hn
    | none =>
        intro heq
        have hid := StringInterner.idOf_resolve hwf.ids.nodup (hwf.caller_lt href)
        dsimp only at heq
        rw [heq] at hid
        have hlook : g.nodes.lookup (g.interner.idOf usr) = some n := hn
        rw [hid, hlookup] at hlook
        cases hlook
  bare := by
    intro caller
    refine List.find?_eq_none.mpr fun ctx hctx => ?_
    obtain ⟨se, hse, rfl⟩ := List.mem_map.mp hctx
    obtain ⟨hstored, hlive⟩ := List.mem_filter.mp hse
    obtain ⟨i, -, hi⟩ := List.mem_filterMap.mp hstored
    have hall : cfIndex.materialize se ∈ cfIndex.allContexts :=
      List.mem_map_of_mem (List.mem_filter.mpr ⟨List.mem_of_getElem? hi, hlive⟩)
    simpa using hapart.contexts _ hall hn

end Usrs

/-- **The exception queries give the same answers for a usr and for the display name that is
its alone exactly when no other function calls it inside a try, the entry points list both
names or neither, no path to it comes through it, and on no first way from the usr it is a
caller that catches.** -/
theorem Script.exception_queries_agree_iff (s : Script) (cfIndex : ControlFlowIndex)
    (hapart : UsrsApart s.graph cfIndex) {usr : Str} {node : CallGraphNode}
    (hnode : s.graph.spec.node usr = some node)
    (hone : ∀ {v m}, s.graph.spec.node v = some m → m.qualifiedName = node.qualifiedName → v = usr)
    (entryPoints : List Str) :
    AnswersAgree s.graph cfIndex usr node.qualifiedName entryPoints ↔
      NamesAgree s.graph cfIndex usr node.qualifiedName entryPoints :=
  (s.wf.alias hapart hnode hone).answersAgree_iff

/-- A node of the graph is among its entries. -/
theorem Script.node_mem (s : Script) {usr : Str} {n : CallGraphNode}
    (h : s.graph.spec.node usr = some n) :
    n ∈ s.graph.nodes.entries.map (·.2) ∧ n.usr = usr := by
  have hentry := (UMap.mem_entries s.graph.nodes (s.graph.interner.idOf usr) n).mpr h
  exact ⟨List.mem_map_of_mem hentry, (s.wf.node_usr h).1⟩

theorem Script.usrsApart (s : Script) {cfIndex : ControlFlowIndex}
    (hnodes : ∀ n ∈ s.graph.nodes.entries.map (·.2), ∀ m ∈ s.graph.nodes.entries.map (·.2),
      n.qualifiedName ≠ m.usr)
    (hcontexts : ∀ ctx ∈ cfIndex.allContexts, ∀ m ∈ s.graph.nodes.entries.map (·.2),
      ctx.calleeName ≠ m.usr) : UsrsApart s.graph cfIndex where
  nodes {v w n m} hn hm := by
    rw [← (s.node_mem hm).2]
    exact hnodes n (s.node_mem hn).1 m (s.node_mem hm).1
  contexts ctx hctx {w m} hm := by
    rw [← (s.node_mem hm).2]
    exact hcontexts ctx hctx m (s.node_mem hm).1

/-- The call of `f` in `main`, with or without a try around it. -/
def callOfF (scopes : List TryCatchScope) : ControlFlowIndex :=
  ({} : ControlFlowIndex).addCallSiteContext
    { callerName := str "main", calleeName := str "f", callSite := str "a.cpp:3:5"
      callerUsr := str "c:@F@main#", calleeUsr := str "c:@F@f#", enclosingTryCatches := scopes }

theorem mainByUsr_only {v : Str} {m : CallGraphNode} (h : mainByUsr.graph.spec.node v = some m)
    (hname : m.qualifiedName = str "f") : v = str "c:@F@f#" := by
  obtain ⟨hmem, rfl⟩ := mainByUsr.node_mem h
  have hall : ∀ n ∈ mainByUsr.graph.nodes.entries.map (·.2),
      n.qualifiedName = str "f" → n.usr = str "c:@F@f#" := by decide
  exact hall m hmem hname

theorem exception_queries_agree_bare_call :
    AnswersAgree mainByUsr.graph (callOfF []) (str "c:@F@f#") (str "f") [str "main"] ↔
      NamesAgree mainByUsr.graph (callOfF []) (str "c:@F@f#") (str "f") [str "main"] :=
  mainByUsr.exception_queries_agree_iff (callOfF []) (mainByUsr.usrsApart (by decide) (by decide))
    (show _ = some { qualifiedName := str "f", usr := str "c:@F@f#" } by decide) mainByUsr_only
    [str "main"]

/-- With the only call inside a try that catches everything, the verdict is that it never is
caught for the usr and that it always is for the display name. -/
theorem exception_queries_disagree :
    UsrsApart mainByUsr.graph (callOfF [ControlFlowOracle.catchAll]) ∧
    (∀ {v m}, mainByUsr.graph.spec.node v = some m → m.qualifiedName = str "f" →
      v = str "c:@F@f#") ∧
    (queryExceptionProtection mainByUsr.graph (callOfF [ControlFlowOracle.catchAll])
      (str "c:@F@f#") (str "E") [str "main"]).protection = .neverCaught ∧
    (queryExceptionProtection mainByUsr.graph (callOfF [ControlFlowOracle.catchAll])
      (str "f") (str "E") [str "main"]).protection = .alwaysCaught ∧
    ¬ AnswersAgree mainByUsr.graph (callOfF [ControlFlowOracle.catchAll]) (str "c:@F@f#") (str "f")
      [str "main"] := by
  have husr : (queryExceptionProtection mainByUsr.graph (callOfF [ControlFlowOracle.catchAll])
      (str "c:@F@f#") (str "E") [str "main"]).protection = .neverCaught := by decide +kernel
  have hname : (queryExceptionProtection mainByUsr.graph (callOfF [ControlFlowOracle.catchAll])
      (str "f") (str "E") [str "main"]).protection = .alwaysCaught := by decide +kernel
  refine ⟨mainByUsr.usrsApart (by decide) (by decide), mainByUsr_only, husr, hname, fun h => ?_⟩
  have hsame := h.protection (str "E")
  rw [husr, hname] at hsame
  cases hsame

end Vycor
