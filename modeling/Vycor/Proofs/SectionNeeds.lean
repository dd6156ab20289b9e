/-
Declared section needs.

A tool reads the indexes through queries that a read-only index answers like the full one,
and the sections it does not declare are empty.  So it answers the same unless it looks at an
empty section.  Four tools do: they resolve a `site` parameter through the control-flow index
and declare the graph alone, and then no call site is ever found.
-/
import Vycor.Proofs.ReadOnlyLoad
import Vycor.Model.Registry

namespace Vycor

open SnapshotIO (Bytes load save load_readOnly)

/-! ### Queries of a read-only index

The queries do not look at the maps a read-only load leaves out. Most of them
say so by their text, the walks by induction.
-/

section Queries

variable (g : CallGraph) (cf : ControlFlowIndex)

namespace CallGraph

theorem readOnly_allDerived (fuel : Nat) : ∀ stack visited result,
    allDerived g.readOnly fuel stack visited result = allDerived g fuel stack visited result := by
  induction fuel with
  | zero => exact fun _ _ _ => rfl
  | succ fuel ih =>
      intro stack visited result
      cases stack with
      | nil => rfl
      | cons cls rest =>
          unfold allDerived
          dsimp only
          rw [ih, ih]
          rfl

theorem readOnly_getAllDerivedClasses :
    g.readOnly.getAllDerivedClasses = g.getAllDerivedClasses := by
  funext baseClass
  unfold getAllDerivedClasses
  simp only [readOnly_allDerived]
  rfl
end CallGraph

namespace DeadCodeAnalyzer
theorem readOnly_drain (optimistic : Bool) (fuel : Nat) : ∀ w,
    drain g.readOnly optimistic fuel w = drain g optimistic fuel w := by
  induction fuel with
  | zero => exact fun _ => rfl
  | succ fuel ih =>
      intro w
      unfold drain
      split
      · rfl
      · rw [ih]
        rfl

theorem readOnly_rounds (optimistic : Bool) (fuel : Nat) : ∀ w,
    rounds g.readOnly optimistic fuel w = rounds g optimistic fuel w := by
  induction fuel with
  | zero => exact fun _ => rfl
  | succ fuel ih =>
      intro w
      unfold rounds
      simp only [readOnly_drain, ih]
      rfl

theorem readOnly_analyze : analyze g.readOnly = analyze g := by
  funext entryPoints includeOptimistic
  unfold analyze bfs
  simp only [readOnly_rounds]
  rfl
end DeadCodeAnalyzer

namespace ControlFlowOracle

theorem readOnly_dfs (entries : List Str) (maxPaths fuel : Nat) : ∀ path node out,
    dfs g.readOnly entries maxPaths fuel path node out = dfs g entries maxPaths fuel path node out := by
  induction fuel with
  | zero => exact fun _ _ _ => rfl
  | succ fuel ih =>
      intro path node out
      unfold dfs
      have hih : dfs g.readOnly entries maxPaths fuel = dfs g entries maxPaths fuel := by
        funext path node out
        exact ih path node out
      rw [hih]
      rfl

theorem readOnly_findPathsToTarget : findPathsToTarget g.readOnly = findPathsToTarget g := by
  funext target entryPoints maxPaths
  exact readOnly_dfs g _ _ _ _ _ _

theorem readOnly_searchCatches (fuel : Nat) : ∀ search,
    searchCatches g.readOnly cf.readOnly fuel search = searchCatches g cf fuel search := by
  induction fuel with
  | zero => exact fun _ => rfl
  | succ fuel ih =>
      intro search
      unfold searchCatches
      split
      · rfl
      · rw [ih]
        rfl

theorem readOnly_queryExceptionProtection :
    queryExceptionProtection g.readOnly cf.readOnly = queryExceptionProtection g cf := by
  funext functionName exceptionType entryPoints
  unfold queryExceptionProtection
  rw [readOnly_findPathsToTarget]
  rfl

theorem readOnly_queryAllPathContexts :
    queryAllPathContexts g.readOnly cf.readOnly = queryAllPathContexts g cf := by
  funext functionName entryPoints maxPaths
  unfold queryAllPathContexts
  rw [readOnly_findPathsToTarget]
  rfl

theorem readOnly_queryNearestCatches :
    queryNearestCatches g.readOnly cf.readOnly = queryNearestCatches g cf := by
  funext functionName
  unfold queryNearestCatches
  rw [readOnly_searchCatches]
  rfl

end ControlFlowOracle

theorem readOnly_walkBoundaries (fuel : Nat) : ∀ walk,
    walkBoundaries g.readOnly fuel walk = walkBoundaries g fuel walk := by
  induction fuel with
  | zero => exact fun _ => rfl
  | succ fuel ih =>
      intro walk
      unfold walkBoundaries
      simp only [ih]
      rfl

theorem readOnly_findConcurrencyBoundaries :
    findConcurrencyBoundaries g.readOnly = findConcurrencyBoundaries g := by
  funext function
  unfold findConcurrencyBoundaries
  rw [readOnly_walkBoundaries]

end Queries

/-! ### Handlers that do not resolve an identity by site -/

/-- The context with a read-only graph and other indexes. -/
def ToolContext.view (ctx : ToolContext) (cfIndex : ControlFlowIndex)
    (channels : Option ChannelIndex) : ToolContext :=
  { ctx with graph := ctx.graph.readOnly, cfIndex, channels }

section Handlers

variable (args : JsonObject) (ctx : ToolContext) (cf : ControlFlowIndex)
  (ch : Option ChannelIndex)

theorem handleSearchFunctions_view :
    handleSearchFunctions args (ctx.view cf ch) = handleSearchFunctions args ctx := rfl

theorem handleGetClassHierarchy_view :
    handleGetClassHierarchy args (ctx.view cf ch) = handleGetClassHierarchy args ctx := by
  unfold handleGetClassHierarchy ToolContext.view
  dsimp only
  rw [CallGraph.readOnly_getAllDerivedClasses]
  rfl

theorem handleListEntryPoints_view :
    handleListEntryPoints args (ctx.view cf ch) = handleListEntryPoints args ctx := rfl

/-- The count of call sites comes from the header. -/
theorem handleGraphSummary_view (hsummary : ctx.summary.isSome) :
    handleGraphSummary args (ctx.view cf ch) = handleGraphSummary args ctx := by
  obtain ⟨summary, hsome⟩ := Option.isSome_iff_exists.mp hsummary
  have hgraph : graphSummary (ctx.view cf ch) = graphSummary ctx := by
    unfold graphSummary ToolContext.view
    rw [hsome]
    rfl
  unfold handleGraphSummary
  rw [hgraph]

theorem handleListCallbackSites_view :
    handleListCallbackSites args (ctx.view cf ch) = handleListCallbackSites args ctx := rfl

theorem handleListConcurrencyEntryPoints_view :
    handleListConcurrencyEntryPoints args (ctx.view cf ch)
      = handleListConcurrencyEntryPoints args ctx := rfl

theorem handleAnalyzeDeadCode_view :
    handleAnalyzeDeadCode args (ctx.view cf ch) = handleAnalyzeDeadCode args ctx := by
  unfold handleAnalyzeDeadCode ToolContext.view
  dsimp only
  rw [DeadCodeAnalyzer.readOnly_analyze]
  rfl

/-! ### Handlers that read the control-flow section -/

/-- Identities resolve alike where the control-flow index is there. -/
theorem withIdentity_view {nameParam usrParam : Str} {answer answer' : Str → Json}
    (h : ∀ ident, answer' ident = answer ident) :
    withIdentity args (ctx.view ctx.cfIndex.readOnly ch) nameParam usrParam answer'
      = withIdentity args ctx nameParam usrParam answer := by
  rw [funext h]
  rfl

theorem handleQueryExceptionSafety_view :
    handleQueryExceptionSafety args (ctx.view ctx.cfIndex.readOnly ch)
      = handleQueryExceptionSafety args ctx := by
  refine withIdentity_view args ctx ch fun ident => ?_
  unfold ToolContext.view
  dsimp only
  rw [ControlFlowOracle.readOnly_queryExceptionProtection]
  rfl

theorem handleQueryCallSiteContext_view :
    handleQueryCallSiteContext args (ctx.view ctx.cfIndex.readOnly ch)
      = handleQueryCallSiteContext args ctx := rfl

theorem handleQueryRaiiScopesAtCallsite_view :
    handleQueryRaiiScopesAtCallsite args (ctx.view ctx.cfIndex.readOnly ch)
      = handleQueryRaiiScopesAtCallsite args ctx := rfl

theorem handleQueryThrowPropagation_view :
    handleQueryThrowPropagation args (ctx.view ctx.cfIndex.readOnly ch)
      = handleQueryThrowPropagation args ctx := by
  refine withIdentity_view args ctx ch fun ident => ?_
  unfold ToolContext.view ControlFlowOracle.queryThrowPropagation
  dsimp only
  rw [ControlFlowOracle.readOnly_queryExceptionProtection]
  rfl

theorem handleQueryAllPathContexts_view :
    handleQueryAllPathContexts args (ctx.view ctx.cfIndex.readOnly ch)
      = handleQueryAllPathContexts args ctx := by
  refine withIdentity_view args ctx ch fun ident => ?_
  unfold ToolContext.view
  dsimp only
  rw [ControlFlowOracle.readOnly_queryAllPathContexts]
  rfl

theorem handleQueryNearestCatches_view :
    handleQueryNearestCatches args (ctx.view ctx.cfIndex.readOnly ch)
      = handleQueryNearestCatches args ctx := by
  refine withIdentity_view args ctx ch fun ident => ?_
  unfold ToolContext.view
  dsimp only
  rw [ControlFlowOracle.readOnly_queryNearestCatches]
  rfl

theorem handleQueryLocksHeld_view :
    handleQueryLocksHeld args (ctx.view ctx.cfIndex.readOnly ch)
      = handleQueryLocksHeld args ctx := rfl

theorem handleQuerySameLock_view :
    handleQuerySameLock args (ctx.view ctx.cfIndex.readOnly ch)
      = handleQuerySameLock args ctx := rfl

/-! ### Handlers that read the channel section -/

theorem handleListChannels_view :
    handleListChannels args (ctx.view cf (ctx.channels.map ChannelIndex.readOnly))
      = handleListChannels args ctx := by
  unfold handleListChannels ToolContext.view
  cases ctx.channels <;> rfl

theorem handleQueryChannel_view :
    handleQueryChannel args (ctx.view cf (ctx.channels.map ChannelIndex.readOnly))
      = handleQueryChannel args ctx := by
  unfold handleQueryChannel ToolContext.view
  cases args.getString (str "channel_id") <;> cases ctx.channels <;> rfl

theorem handleQueryChannelsForFunction_view :
    handleQueryChannelsForFunction args (ctx.view cf (ctx.channels.map ChannelIndex.readOnly))
      = handleQueryChannelsForFunction args ctx := by
  unfold handleQueryChannelsForFunction ToolContext.view
  cases ctx.channels <;> rfl

theorem orderingToJson_view (siteA siteB : ChannelSite) :
    orderingToJson (ctx.view cf ch) siteA siteB = orderingToJson ctx siteA siteB := by
  unfold orderingToJson ToolContext.view
  dsimp only
  rw [readOnly_findConcurrencyBoundaries]
  rfl

theorem handleExplainOrdering_view :
    handleExplainOrdering args (ctx.view cf (ctx.channels.map ChannelIndex.readOnly))
      = handleExplainOrdering args ctx := by
  unfold handleExplainOrdering
  simp only [orderingToJson_view]
  unfold ToolContext.view
  cases ctx.channels <;> rfl

end Handlers

/-! ### Identities by call site -/

/-- The identity comes from a call site that the index knows. -/
def UsesSite (args : JsonObject) (cf : ControlFlowIndex) (usrParam : Str) : Prop :=
  args.getString usrParam = none ∧
    ∃ site, args.getString (companionParam usrParam (str "site")) = some site ∧
      cf.contextsAtSite site ≠ []

/-- A response blames a call site only when the index does not know it. -/
def Honest (cf : ControlFlowIndex) (out : Json) : Prop :=
  ∀ site, out = noCallSite site → cf.contextsAtSite site = []

theorem errorResult_inj {a b : Str} (h : errorResult a = errorResult b) : a = b := by
  injection h with h
  injection h with h
  injection h with _ h
  injection h

theorem noCallSite_inj {site site' : Str} (h : noCallSite site = noCallSite site') :
    site = site' := by
  have h := errorResult_inj h
  simp only [List.append_assoc] at h
  have h := List.append_cancel_left h
  exact List.append_cancel_right h

variable {cf : ControlFlowIndex} {args : JsonObject} {ctx : ToolContext}
  {ch : Option ChannelIndex} {nameParam usrParam : Str}

/-- Another error text: it begins with another letter. -/
theorem honest_error {message : Str} (first : UInt8) (h : message.head? = some first)
    (hne : first ≠ 78) : Honest cf (errorResult message) := by
  intro site heq
  rw [errorResult_inj heq] at h
  injection h with h
  exact absurd h.symm hne

/-- A response that is no error. -/
theorem honest_object {key : String} {value : Json} {rest : JsonObject}
    (h : str key ≠ str "error") : Honest cf (.object (field key value :: rest)) := by
  intro site heq
  injection heq with heq
  injection heq with heq
  injection heq with heq
  exact absurd heq h

theorem calleesAtSite_eq_nil {site : Str} :
    calleesAtSite cf site = [] ↔ cf.contextsAtSite site = [] := by
  unfold calleesAtSite strSet sortStrs
  constructor
  · intro h
    have hlen := congrArg List.length h
    rw [List.length_mergeSort] at hlen
    have hnil := List.eq_nil_of_length_eq_zero hlen
    refine List.eq_nil_iff_forall_not_mem.mpr fun c hc => ?_
    have hmem := (Dedup.mem_foldl_pushUnique _ [] _).mpr (Or.inr (List.mem_map_of_mem
      (f := fun c : CallSiteContext => if c.calleeUsr = [] then c.calleeName else c.calleeUsr) hc))
    rw [hnil] at hmem
    exact List.not_mem_nil hmem
  · intro h
    rw [h, List.map_nil, List.foldl_nil, List.mergeSort_nil]

/-- Nothing is called at a site of an index that was not loaded. -/
theorem calleesAtSite_empty (site : Str) : calleesAtSite {} site = [] :=
  calleesAtSite_eq_nil.mpr rfl

theorem honest_resolveSite {name : Option Str} {site : Str} {out : Json}
    (h : resolveSite ctx usrParam name site = .response out) : Honest ctx.cfIndex out := by
  unfold resolveSite at h
  cases hcallees : calleesAtSite ctx.cfIndex site with
  | nil =>
      rw [hcallees] at h
      injection h with h
      intro site' heq
      rw [← noCallSite_inj (h.trans heq)]
      exact calleesAtSite_eq_nil.mp hcallees
  | cons first others =>
      rw [hcallees] at h
      dsimp only at h
      split at h
      · injection h with h
        rw [← h]
        exact honest_error 67 rfl (by decide)
      · exact Resolved.noConfusion h
      · injection h with h
        rw [← h]
        exact honest_object (by decide)

theorem honest_resolveName {fixUTF8 : Str → Str} {g : CallGraph} {name : Str}
    {filter : Option Str} {out : Json}
    (h : resolveName fixUTF8 g nameParam name filter = .response out) : Honest cf out := by
  unfold resolveName at h
  split at h
  · exact Resolved.noConfusion h
  · exact Resolved.noConfusion h
  · split at h
    · injection h with h
      rw [← h]
      exact honest_object (by decide)
    · split at h
      · exact Resolved.noConfusion h
      · injection h with h
        rw [← h]
        exact honest_object (by decide)
      · injection h with h
        rw [← h]
        exact honest_object (by decide)

theorem honest_resolveIdentity {out : Json}
    (h : resolveIdentity args ctx nameParam usrParam = .response out) :
    Honest ctx.cfIndex out := by
  unfold resolveIdentity at h
  split at h
  · exact Resolved.noConfusion h
  · dsimp only at h
    split at h
    · exact honest_resolveSite h
    · split at h
      · exact Resolved.noConfusion h
      · exact honest_resolveName h

/-- No call site is found in an index that was not loaded. -/
theorem resolveIdentity_sited (nameParam : Str) (ch : Option ChannelIndex)
    (h : UsesSite args ctx.cfIndex usrParam) :
    ∃ site, ctx.cfIndex.contextsAtSite site ≠ [] ∧
      resolveIdentity args (ctx.view {} ch) nameParam usrParam = .response (noCallSite site) := by
  obtain ⟨husr, site, hsite, hknown⟩ := h
  refine ⟨site, hknown, ?_⟩
  unfold resolveIdentity
  rw [husr, hsite]
  dsimp only
  unfold resolveSite
  rw [show (ctx.view {} ch).cfIndex = {} from rfl, calleesAtSite_empty]

/-- Without a site nothing is read from the control-flow index. -/
theorem resolveIdentity_unsited (h : ¬UsesSite args ctx.cfIndex usrParam) :
    resolveIdentity args (ctx.view {} ch) nameParam usrParam
      = resolveIdentity args ctx nameParam usrParam := by
  unfold resolveIdentity
  cases husr : args.getString usrParam with
  | some usr => rfl
  | none =>
      cases hsite : args.getString (companionParam usrParam (str "site")) with
      | none => rfl
      | some site =>
          have hunknown : ctx.cfIndex.contextsAtSite site = [] := by
            by_contra hknown
            exact h ⟨husr, site, hsite, hknown⟩
          have hnone := calleesAtSite_eq_nil.mpr hunknown
          dsimp only
          unfold resolveSite
          rw [hnone, show (ctx.view {} ch).cfIndex = {} from rfl, calleesAtSite_empty]

/-- An honest answer differs from the blame of a call site that the index knows. -/
theorem Honest.ne {out : Json} (h : Honest cf out) {site : Str} (hsite : cf.contextsAtSite site ≠ []) :
    noCallSite site ≠ out := fun heq => hsite (h site heq.symm)

theorem honest_withIdentity {answer : Str → Json} (h : ∀ ident, Honest ctx.cfIndex (answer ident)) :
    Honest ctx.cfIndex (withIdentity args ctx nameParam usrParam answer) := by
  unfold withIdentity
  split
  · exact h _
  · rename_i out hout
    exact honest_resolveIdentity hout
  · exact honest_error 77 rfl (by decide)

/-- A tool with one identity answers alike exactly when it does not come from a site. -/
theorem withIdentity_iff {answer answer' : Str → Json}
    (hsame : ∀ ident, answer' ident = answer ident)
    (hhonest : ∀ ident, Honest ctx.cfIndex (answer ident)) :
    withIdentity args (ctx.view {} ch) nameParam usrParam answer'
        = withIdentity args ctx nameParam usrParam answer
      ↔ ¬UsesSite args ctx.cfIndex usrParam := by
  constructor
  · intro heq hsited
    obtain ⟨site, hknown, hview⟩ := resolveIdentity_sited nameParam ch hsited
    have hfull : Honest ctx.cfIndex (withIdentity args ctx nameParam usrParam answer) :=
      honest_withIdentity hhonest
    refine hfull.ne hknown (Eq.trans ?_ heq)
    unfold withIdentity
    rw [hview]
  · intro hunsited
    rw [funext hsame]
    unfold withIdentity
    rw [resolveIdentity_unsited hunsited]

/-! ### The tools that resolve a site without the control-flow section -/

theorem mapM_error {ε α β : Type} {f : α → Except ε β} {e : ε} :
    ∀ {l : List α}, l.mapM f = .error e → ∃ x ∈ l, f x = .error e := by
  intro l
  induction l with
  | nil =>
      intro h
      rw [List.mapM_nil] at h
      cases h
  | cons x rest ih =>
      intro h
      rw [List.mapM_cons] at h
      cases hx : f x with
      | error e' =>
          rw [hx] at h
          injection h with h
          exact ⟨x, List.mem_cons_self, h ▸ hx⟩
      | ok y =>
          rw [hx] at h
          cases hrest : rest.mapM f with
          | error e' =>
              have h : (rest.mapM f >>= fun ys => Except.ok (y :: ys)) = .error e := h
              rw [hrest] at h
              injection h with h
              obtain ⟨x', hx', he⟩ := ih (h ▸ hrest)
              exact ⟨x', List.mem_cons_of_mem _ hx', he⟩
          | ok ys =>
              have h : (rest.mapM f >>= fun ys => Except.ok (y :: ys)) = .error e := h
              rw [hrest] at h
              cases h

/-- A filter is turned down for a value that is not one. -/
theorem parseEdgeFilter_error {err : Str} (h : parseEdgeFilter args = .error err) :
    err.head? = some 73 := by
  unfold parseEdgeFilter at h
  cases hconfs : (args.getStrings (str "include_confidences")).mapM includedConfidence with
  | error e =>
      rw [hconfs] at h
      injection h with h
      obtain ⟨s, -, hs⟩ := mapM_error hconfs
      unfold includedConfidence at hs
      split at hs
      · cases hs
      · injection hs with hs
        rw [← h, ← hs]
        rfl
  | ok confs =>
      rw [hconfs] at h
      cases hctxs : (args.getStrings (str "execution_contexts")).mapM listedContext with
      | error e =>
          rw [hctxs] at h
          injection h with h
          obtain ⟨s, -, hs⟩ := mapM_error hctxs
          unfold listedContext at hs
          split at hs
          · cases hs
          · injection hs with hs
            rw [← h, ← hs]
            rfl
      | ok ctxs =>
          rw [hctxs] at h
          cases h

theorem handleLookupFunction_view :
    handleLookupFunction args (ctx.view {} ch) = handleLookupFunction args ctx
      ↔ ¬UsesSite args ctx.cfIndex (str "usr") := by
  refine withIdentity_iff (fun ident => rfl) fun ident => ?_
  split
  · exact honest_error 70 rfl (by decide)
  · exact honest_object (by decide)

theorem handleGetEdges_view {edgesOf : CallGraph → Str → List CallGraphEdge}
    (hedges : edgesOf ctx.graph.readOnly = edgesOf ctx.graph) (countKey listKey : String) :
    handleGetEdges edgesOf countKey listKey args (ctx.view {} ch)
        = handleGetEdges edgesOf countKey listKey args ctx
      ↔ ¬UsesSite args ctx.cfIndex (str "usr") := by
  refine withIdentity_iff (fun ident => ?_) fun ident => ?_
  · rw [show (ctx.view {} ch).graph = ctx.graph.readOnly from rfl, hedges]
    rfl
  · split
    · rename_i err herr
      exact honest_error 73 (parseEdgeFilter_error herr) (by decide)
    · exact honest_object (by decide)

/-- The target comes from a call site, or the search gets as far as a start that does. -/
def ChainUsesSite (args : JsonObject) (ctx : ToolContext) : Prop :=
  UsesSite args ctx.cfIndex (str "to_usr") ∨
    (∃ target, resolveIdentity args ctx (str "to") (str "to_usr") = .identity target) ∧
      (∃ filter, parseEdgeFilter args = .ok filter) ∧ UsesSite args ctx.cfIndex (str "from_usr")

theorem honest_handleFindCallChain : Honest ctx.cfIndex (handleFindCallChain args ctx) := by
  refine honest_withIdentity fun target => ?_
  split
  · rename_i err herr
    exact honest_error 73 (parseEdgeFilter_error herr) (by decide)
  · dsimp only
    split
    · rename_i out hout
      exact honest_resolveIdentity hout
    · exact honest_object (by decide)
    · exact honest_object (by decide)

theorem handleFindCallChain_view :
    handleFindCallChain args (ctx.view {} ch) = handleFindCallChain args ctx
      ↔ ¬ChainUsesSite args ctx := by
  constructor
  · intro heq hsited
    have hblamed : ∃ site, ctx.cfIndex.contextsAtSite site ≠ [] ∧
        handleFindCallChain args (ctx.view {} ch) = noCallSite site := by
      by_cases hto : UsesSite args ctx.cfIndex (str "to_usr")
      · obtain ⟨site, hknown, hview⟩ := resolveIdentity_sited (str "to") ch hto
        refine ⟨site, hknown, ?_⟩
        unfold handleFindCallChain withIdentity
        rw [hview]
      · rcases hsited with hto' | ⟨⟨target, htarget⟩, ⟨filter, hfilter⟩, hfrom⟩
        · exact absurd hto' hto
        · obtain ⟨site, hknown, hview⟩ := resolveIdentity_sited (str "from") ch hfrom
          refine ⟨site, hknown, ?_⟩
          unfold handleFindCallChain withIdentity
          rw [resolveIdentity_unsited hto, htarget]
          dsimp only
          rw [hfilter]
          dsimp only
          rw [hview]
    obtain ⟨site, hknown, hblamed⟩ := hblamed
    have hfull : Honest ctx.cfIndex (handleFindCallChain args ctx) := honest_handleFindCallChain
    exact hfull.ne hknown (hblamed.symm.trans heq)
  · intro hunsited
    obtain ⟨hto, hfrom⟩ := not_or.mp hunsited
    unfold handleFindCallChain withIdentity
    rw [resolveIdentity_unsited hto]
    cases htarget : resolveIdentity args ctx (str "to") (str "to_usr") with
    | response out => rfl
    | missing => rfl
    | identity target =>
        dsimp only
        cases hfilter : parseEdgeFilter args with
        | error err => rfl
        | ok filter =>
            have hfrom : ¬UsesSite args ctx.cfIndex (str "from_usr") := fun h =>
              hfrom ⟨⟨target, htarget⟩, ⟨filter, hfilter⟩, h⟩
            dsimp only
            rw [resolveIdentity_unsited hfrom]
            rfl

/-! ### All tools -/

/-- A request for which the tool reads a call site without declaring the section. -/
def ReadsUndeclaredSite (tool : Str) (args : JsonObject) (ctx : ToolContext) : Prop :=
  if tool ∈ [str "lookup_function", str "get_callees", str "get_callers"] then
    UsesSite args ctx.cfIndex (str "usr")
  else if tool = str "find_call_chain" then ChainUsesSite args ctx
  else False

/-- Over the sections it declares a tool answers, and leaves its cache, as over all of them,
exactly when it does not read a call site it did not declare. -/
def NeedsSuffice (tool : ToolEntry) : Prop :=
  ∀ handler, tool.handler = some handler → ∀ fixUTF8 requested classifiers data args cache,
    (handler args (verbContext fixUTF8 requested classifiers (data.restrict tool.needs))).run cache
        = (handler args (verbContext fixUTF8 requested classifiers data)).run cache
      ↔ ¬ReadsUndeclaredSite tool.name args (verbContext fixUTF8 requested classifiers data)

/-- The tools whose requests can do that. -/
def siteTools : List Str :=
  [str "lookup_function", str "get_callees", str "get_callers", str "find_call_chain"]

variable {tool : ToolEntry} {h : ToolHandler}

/-- A tool whose answer is the same over the sections it declares. -/
theorem NeedsSuffice.same (hhandler : tool.handler = some h)
    (hname : tool.name ∉ siteTools)
    (hsame : ∀ fixUTF8 requested classifiers data args,
      h args (verbContext fixUTF8 requested classifiers (data.restrict tool.needs))
        = h args (verbContext fixUTF8 requested classifiers data)) : NeedsSuffice tool := by
  intro handler hhandler' fixUTF8 requested classifiers data args cache
  rw [hhandler] at hhandler'
  injection hhandler' with hhandler'
  rw [← hhandler', hsame]
  refine iff_of_true rfl ?_
  rw [siteTools, List.mem_cons, List.mem_cons, List.mem_cons, List.mem_singleton] at hname
  unfold ReadsUndeclaredSite
  rw [if_neg (by simp only [List.mem_cons, List.not_mem_nil]; tauto), if_neg (by tauto)]
  exact id

/-- The context of a load without sections beyond the graph. -/
theorem verbContext_graph (fixUTF8 : Str → Str) (requested : List Str)
    (classifiers : List (ConditionalGuard → Option GuardAnnotation)) (data : SnapshotData) :
    verbContext fixUTF8 requested classifiers (data.restrict kSectionGraph)
      = (verbContext fixUTF8 requested classifiers data).view {} (some {}) := rfl

theorem NeedsSuffice.graph (hhandler : tool.handler = some h)
    (hname : tool.name ∉ siteTools)
    (hneeds : tool.needs = kSectionGraph)
    (hview : ∀ args ctx, ctx.summary.isSome → h args (ctx.view {} (some {})) = h args ctx) :
    NeedsSuffice tool := by
  refine NeedsSuffice.same hhandler hname fun fixUTF8 requested classifiers data args => ?_
  rw [hneeds, verbContext_graph]
  exact hview args _ rfl

theorem NeedsSuffice.controlFlow (hhandler : tool.handler = some h)
    (hname : tool.name ∉ siteTools)
    (hneeds : tool.needs = kSectionGraph ||| kSectionControlFlow)
    (hview : ∀ args ctx, h args (ctx.view ctx.cfIndex.readOnly (some {})) = h args ctx) :
    NeedsSuffice tool := by
  refine NeedsSuffice.same hhandler hname fun fixUTF8 requested classifiers data args => ?_
  rw [hneeds]
  exact hview args (verbContext fixUTF8 requested classifiers data)

theorem NeedsSuffice.channels (hhandler : tool.handler = some h)
    (hname : tool.name ∉ siteTools)
    (hneeds : tool.needs = kSectionGraph ||| kSectionChannels)
    (hview : ∀ args ctx,
      h args (ctx.view {} (ctx.channels.map ChannelIndex.readOnly)) = h args ctx) :
    NeedsSuffice tool := by
  refine NeedsSuffice.same hhandler hname fun fixUTF8 requested classifiers data args => ?_
  rw [hneeds]
  exact hview args (verbContext fixUTF8 requested classifiers data)

/-- A tool that declares the graph alone and answers alike under a condition. -/
theorem NeedsSuffice.sited {name : String} {handle : JsonObject → ToolContext → Json}
    (hneeds : (declareNeeds (uncached name handle)).needs = kSectionGraph)
    (hview : ∀ args ctx, handle args (ctx.view {} (some {})) = handle args ctx
      ↔ ¬ReadsUndeclaredSite (str name) args ctx) :
    NeedsSuffice (declareNeeds (uncached name handle)) := by
  intro handler hhandler fixUTF8 requested classifiers data args cache
  have hpure : handler = fun args ctx => pure (handle args ctx) := (Option.some.inj hhandler).symm
  rw [hneeds, verbContext_graph, hpure]
  refine Iff.trans ?_ (hview args (verbContext fixUTF8 requested classifiers data))
  constructor
  · exact fun heq => congrArg Prod.fst heq
  · exact fun heq => congrArg (fun out => (out, cache)) heq

theorem graphTools_suffice : ∀ tool ∈ graphTools.map declareNeeds, NeedsSuffice tool := by
  simp only [graphTools, List.map_cons, List.map_nil, List.forall_mem_cons]
  refine ⟨.sited (by decide) fun args ctx => ?_, .sited (by decide) fun args ctx => ?_,
    .sited (by decide) fun args ctx => ?_, .sited (by decide) fun args ctx => ?_,
    .graph rfl (by decide) (by decide) fun args ctx _ => handleSearchFunctions_view args ctx _ _,
    .graph rfl (by decide) (by decide) fun args ctx _ =>
      congrArg pure (handleGetClassHierarchy_view args ctx _ _),
    .graph rfl (by decide) (by decide) fun args ctx _ =>
      congrArg pure (handleListEntryPoints_view args ctx _ _),
    .graph rfl (by decide) (by decide) fun args ctx hsummary =>
      handleGraphSummary_view args ctx _ _ hsummary,
    .graph rfl (by decide) (by decide) fun args ctx _ =>
      congrArg pure (handleListCallbackSites_view args ctx _ _),
    .graph rfl (by decide) (by decide) fun args ctx _ =>
      congrArg pure (handleListConcurrencyEntryPoints_view args ctx _ _),
    fun _ h => absurd h List.not_mem_nil⟩
  · rw [handleLookupFunction_view, ReadsUndeclaredSite, if_pos (by decide)]
  · rw [ReadsUndeclaredSite, if_pos (by decide)]
    exact handleGetEdges_view rfl _ _
  · rw [ReadsUndeclaredSite, if_pos (by decide)]
    exact handleGetEdges_view rfl _ _
  · rw [handleFindCallChain_view, ReadsUndeclaredSite, if_neg (by decide), if_pos rfl]

theorem exceptionTools_suffice : ∀ tool ∈ exceptionTools.map declareNeeds, NeedsSuffice tool := by
  simp only [exceptionTools, List.map_cons, List.map_nil, List.forall_mem_cons]
  exact ⟨
    .controlFlow rfl (by decide) (by decide) fun args ctx =>
      congrArg pure (handleQueryExceptionSafety_view args ctx _),
    .controlFlow rfl (by decide) (by decide) fun args ctx =>
      congrArg pure (handleQueryCallSiteContext_view args ctx _),
    .controlFlow rfl (by decide) (by decide) fun args ctx =>
      congrArg pure (handleQueryRaiiScopesAtCallsite_view args ctx _),
    .controlFlow rfl (by decide) (by decide) fun args ctx =>
      congrArg pure (handleQueryThrowPropagation_view args ctx _),
    .controlFlow rfl (by decide) (by decide) fun args ctx =>
      congrArg pure (handleQueryAllPathContexts_view args ctx _),
    .controlFlow rfl (by decide) (by decide) fun args ctx =>
      congrArg pure (handleQueryNearestCatches_view args ctx _),
    fun _ h => absurd h List.not_mem_nil⟩

theorem lockTools_suffice : ∀ tool ∈ lockTools.map declareNeeds, NeedsSuffice tool := by
  simp only [lockTools, List.map_cons, List.map_nil, List.forall_mem_cons]
  exact ⟨
    .controlFlow rfl (by decide) (by decide) fun args ctx =>
      congrArg pure (handleQueryLocksHeld_view args ctx _),
    .controlFlow rfl (by decide) (by decide) fun args ctx =>
      congrArg pure (handleQuerySameLock_view args ctx _),
    fun _ h => absurd h List.not_mem_nil⟩

theorem deadCodeTools_suffice : ∀ tool ∈ deadCodeTools.map declareNeeds, NeedsSuffice tool := by
  simp only [deadCodeTools, List.map_cons, List.map_nil, List.forall_mem_cons]
  exact ⟨
    .graph rfl (by decide) (by decide) fun args ctx _ => handleAnalyzeDeadCode_view args ctx _ _,
    fun _ h => absurd h List.not_mem_nil⟩

theorem channelTools_suffice : ∀ tool ∈ channelTools.map declareNeeds, NeedsSuffice tool := by
  simp only [channelTools, List.map_cons, List.map_nil, List.forall_mem_cons]
  exact ⟨
    .channels rfl (by decide) (by decide) fun args ctx =>
      congrArg pure (handleListChannels_view args ctx _),
    .channels rfl (by decide) (by decide) fun args ctx =>
      congrArg pure (handleQueryChannel_view args ctx _),
    .channels rfl (by decide) (by decide) fun args ctx =>
      congrArg pure (handleQueryChannelsForFunction_view args ctx _),
    .channels rfl (by decide) (by decide) fun args ctx =>
      congrArg pure (handleExplainOrdering_view args ctx _),
    fun _ h => absurd h List.not_mem_nil⟩

/-- **The declared sections suffice for a request exactly when its tool does not resolve a call
site without declaring the control-flow section.** -/
theorem declared_needs_suffice_iff {file : Bytes} {data : SnapshotData}
    (hload : (load file).run = some (some data)) {tool : ToolEntry}
    (htool : tool ∈ getRegisteredTools) {handler : ToolHandler}
    (hhandler : tool.handler = some handler) (fixUTF8 : Str → Str) (requested : List Str)
    (classifiers : List (ConditionalGuard → Option GuardAnnotation)) (args : JsonObject)
    (cache : Option QueryCache) :
    (∃ part, (load file .readOnly tool.needs).run = some (some part) ∧
        (handler args (verbContext fixUTF8 requested classifiers part)).run cache
          = (handler args (verbContext fixUTF8 requested classifiers data)).run cache)
      ↔ ¬ReadsUndeclaredSite tool.name args (verbContext fixUTF8 requested classifiers data) := by
  have hsuffice : NeedsSuffice tool := by
    unfold getRegisteredTools at htool
    simp only [List.map_append, List.mem_append, List.mem_singleton] at htool
    rcases htool with ((((h | h) | h) | h) | h) | rfl
    · exact graphTools_suffice tool h
    · exact exceptionTools_suffice tool h
    · exact lockTools_suffice tool h
    · exact deadCodeTools_suffice tool h
    · exact channelTools_suffice tool h
    · exact absurd hhandler (by simp)
  rw [load_readOnly tool.needs hload,
    ← hsuffice handler hhandler fixUTF8 requested classifiers data args cache]
  constructor
  · rintro ⟨part, hpart, heq⟩
    rw [← Option.some.inj (Option.some.inj hpart)] at heq
    exact heq
  · exact fun heq => ⟨_, rfl, heq⟩

/-! ### A call site of a saved index -/

/-- One call, in the graph and with its context. -/
def siteFile : Bytes :=
  save HashWalk.inOrder
    (CallGraph.addEdge {}
      { callerName := str "c:@F@f", calleeName := str "c:@F@g", kind := .directCall
        confidence := .Proven, callSite := str "a.cpp:4:2" } (str "a.cpp"))
    (ControlFlowIndex.addCallSiteContext {}
      { callerName := str "f", calleeName := str "g", callSite := str "a.cpp:4:2"
        callerUsr := str "c:@F@f", calleeUsr := str "c:@F@g", tuPath := str "a.cpp" }) {}

theorem siteFile_loads : ∃ data, (load siteFile).run = some (some data) ∧
    data.cfIndex.contextsAtSite (str "a.cpp:4:2") ≠ [] := by
  have hknown : ((load siteFile).run.join.any fun data =>
      data.cfIndex.contextsAtSite (str "a.cpp:4:2") ≠ []) = true := by decide +kernel
  cases hload : (load siteFile).run.join with
  | none =>
      rw [hload] at hknown
      exact absurd hknown Bool.false_ne_true
  | some data =>
      rw [hload] at hknown
      exact ⟨data, Option.join_eq_some_iff.mp hload, of_decide_eq_true hknown⟩

/-- A lookup by a call site. -/
def bySite : JsonObject := [field "site" (.string (str "a.cpp:4:2"))]

/-- A lookup of the function called at the site finds no call site over the graph alone. -/
theorem lookup_by_site_falls_short : ∃ tool ∈ getRegisteredTools, ∃ handler data part,
    tool.handler = some handler ∧ (load siteFile).run = some (some data) ∧
      (load siteFile .readOnly tool.needs).run = some (some part) ∧
      (handler bySite (verbContext id [] [] part)).run none
        ≠ (handler bySite (verbContext id [] [] data)).run none := by
  obtain ⟨data, hload, hknown⟩ := siteFile_loads
  refine ⟨declareNeeds (uncached "lookup_function" handleLookupFunction), List.mem_cons_self, _,
    data, _, rfl, hload, load_readOnly _ hload, ?_⟩
  have hsited : UsesSite bySite (verbContext id [] [] data).cfIndex (str "usr") :=
    ⟨by decide, str "a.cpp:4:2", by decide, hknown⟩
  have hreads : ReadsUndeclaredSite (str "lookup_function") bySite (verbContext id [] [] data) := by
    rw [ReadsUndeclaredSite, if_pos (by decide)]
    exact hsited
  intro heq
  exact (graphTools_suffice _ List.mem_cons_self _ rfl id [] [] data bySite none).mp heq hreads

/-- A question by name. -/
def byName : JsonObject := [field "name" (.string (str "c:@F@g"))]

/-- By name the graph is enough. -/
theorem callers_by_name_suffice : ∃ data part,
    (load siteFile).run = some (some data) ∧
      (load siteFile .readOnly kSectionGraph).run = some (some part) ∧
      handleGetCallers byName (verbContext id [] [] part)
        = handleGetCallers byName (verbContext id [] [] data) := by
  obtain ⟨data, hload, -⟩ := siteFile_loads
  have htool : declareNeeds (uncached "get_callers" handleGetCallers) ∈ getRegisteredTools :=
    List.mem_cons_of_mem _ (List.mem_cons_of_mem _ List.mem_cons_self)
  have hunsited : ¬ReadsUndeclaredSite (str "get_callers") byName (verbContext id [] [] data) := by
    rw [ReadsUndeclaredSite, if_pos (by decide)]
    rintro ⟨-, site, hsite, -⟩
    have hnone : JsonObject.getString byName (companionParam (str "usr") (str "site")) = none := by
      decide
    rw [hnone] at hsite
    exact absurd hsite.symm (Option.some_ne_none site)
  obtain ⟨part, hpart, heq⟩ :=
    (declared_needs_suffice_iff hload htool rfl id [] [] byName none).mpr hunsited
  exact ⟨data, part, hload, hpart, congrArg Prod.fst heq⟩

end Vycor
