/-
The tools that read the call graph.

Hash maps are walked in the order of their entries, and equal elements keep their order when
sorted; the source leaves both open.
-/
import Vycor.Model.Tools

namespace Vycor

/-! ### Edge filters -/

/-- An edge passes when its kind, confidence and execution context do. -/
def EdgeFilter.allowsFields (filter : EdgeFilter) (kind : EdgeKind) (conf : Confidence)
    (execCtx : ExecutionContext) : Bool :=
  if filter.kinds ≠ [] ∧ kind ∉ filter.kinds then false
  else if filter.execContexts ≠ [] ∧ execCtx ∉ filter.execContexts then false
  else if filter.useIncludeSet then conf ∈ filter.includeConfidences
  else confidenceRank filter.minConf ≤ confidenceRank conf

def EdgeFilter.allows (filter : EdgeFilter) (e : CallGraphEdge) : Bool :=
  filter.allowsFields e.kind e.confidence e.execContext

/-- A confidence by its name in a request. -/
def includedConfidence (s : Str) : Except Str Confidence :=
  if s ∈ [str "Proven", str "Plausible", str "Unknown"] then .ok (parseConfidence s)
  else
    .error (str "Invalid value in include_confidences: '" ++ s
      ++ str "' (expected Proven, Plausible, or Unknown)")

/-- An execution context as the arguments name it. -/
def listedContext (s : Str) : Except Str ExecutionContext :=
  match parseExecutionContext s with
  | some parsed => .ok parsed
  | none =>
    .error (str "Invalid value in execution_contexts: '" ++ s
      ++ str "' (expected Synchronous, ThreadSpawn, AsyncTask, PackagedTask, or Invoke)")

/-- An explicit set of confidences overrides the minimum, even when it is empty. -/
def parseEdgeFilter (args : JsonObject) : Except Str EdgeFilter := do
  let kinds := (args.getStrings (str "edge_kinds")).map parseEdgeKind
  let useIncludeSet := (args.getArray (str "include_confidences")).isSome
  let includeConfidences ←
    (args.getStrings (str "include_confidences")).mapM includedConfidence
  let minConf :=
    if useIncludeSet then .Unknown
    else ((args.getString (str "min_confidence")).map parseConfidence).getD .Unknown
  let execContexts ← (args.getStrings (str "execution_contexts")).mapM listedContext
  return { kinds, includeConfidences, useIncludeSet, minConf, execContexts }

/-! ### lookup_function -/

/-- `lookup_function`. -/
def handleLookupFunction (args : JsonObject) (ctx : ToolContext) : Json :=
  withIdentity args ctx (str "name") (str "usr") fun ident =>
    match ctx.graph.findNode ident with
    | none => errorResult (str "Function not found: " ++ ident)
    | some node =>
      .object <|
        [field "qualifiedName" (ctx.string node.qualifiedName), field "usr" (ctx.string node.usr),
          field "file" (ctx.string node.file), field "line" (.ofNat node.line.toNat),
          field "isEntryPoint" (.bool node.isEntryPoint),
          field "isVirtual" (.bool node.isVirtual)]
        ++ fieldIf (node.enclosingClass ≠ []) "enclosingClass" (ctx.string node.enclosingClass)

/-! ### get_callees and get_callers -/

/-- The edges at a function that the filter lets through. -/
def handleGetEdges (edgesOf : CallGraph → Str → List CallGraphEdge) (countKey listKey : String)
    (args : JsonObject) (ctx : ToolContext) : Json :=
  withIdentity args ctx (str "name") (str "usr") fun ident =>
    match parseEdgeFilter args with
    | .error err => errorResult err
    | .ok filter =>
      let results := ((edgesOf ctx.graph ident).filter filter.allows).map (edgeToJson ctx.fixUTF8)
      .object <|
        field "function" (ctx.string ((args.getString (str "name")).getD ident))
          :: attachUsr ctx.fixUTF8 ctx.graph ident "usr"
          ++ [field countKey (.ofNat results.length), field listKey (.array results)]

/-- `get_callees`. -/
def handleGetCallees : JsonObject → ToolContext → Json :=
  handleGetEdges CallGraph.calleesOf "calleeCount" "callees"

/-- `get_callers`. -/
def handleGetCallers : JsonObject → ToolContext → Json :=
  handleGetEdges CallGraph.callersOf "callerCount" "callers"

/-! ### find_call_chain -/

/-- The depth is cast to 32 bits, a negative one with it. -/
def chainLimits (args : JsonObject) : ChainLimits :=
  { maxPaths := (args.getInteger (str "max_paths")).getD 10
    maxDepth := (((args.getInteger (str "max_depth")).getD 20) % 2 ^ 32).toNat
    maxFanIn := (max 0 ((args.getInteger (str "max_fan_in")).getD 1000)).toNat }

variable (fixUTF8 : Str → Str)

/-- One call of a chain in a response. -/
def hopToJson (hop : ChainHop) : Json :=
  .object <|
    [field "from" (jsonString fixUTF8 hop.fromName), field "to" (jsonString fixUTF8 hop.toName),
      field "kind" (.string (edgeKindToString hop.kind)),
      field "confidence" (.string (confidenceToString hop.confidence)),
      field "callSite" (jsonString fixUTF8 hop.callSite)]
    ++ fieldIf (hop.executionContext ≠ .synchronous) "executionContext"
      (.string (executionContextToString hop.executionContext))

/-- A function with too many callers to expand. -/
def hubToJson (hub : Str × Nat) : Json :=
  .object [field "name" (jsonString fixUTF8 hub.1), field "inDegree" (.ofNat hub.2)]

/-- The chains found, and the hubs passed over. -/
def chainsToJson (args : JsonObject) (g : CallGraph) (target : Str) (chains : CallChains) :
    Json :=
  .object <|
    field "target" (jsonString fixUTF8 ((args.getString (str "to")).getD target))
      :: attachUsr fixUTF8 g target "targetUsr"
      ++ [field "pathCount" (.ofNat chains.paths.length),
        field "paths" (.array (chains.paths.map fun path => .array (path.map (hopToJson fixUTF8))))]
      ++ fieldIf (chains.skippedHubs ≠ []) "skippedHubs"
        (.array (chains.skippedHubs.map (hubToJson fixUTF8)))
      ++ fieldIf (chains.skippedHubs ≠ []) "skippedHubsNote"
        (.string (str "Ancestry of these high-fan-in functions was not expanded "
          ++ str "(stored in-degree exceeds max_fan_in). Re-run with a higher "
          ++ str "max_fan_in or query them directly with get_callers."))

/-- No `from` means the entry points. -/
def handleFindCallChain (args : JsonObject) (ctx : ToolContext) : Json :=
  withIdentity args ctx (str "to") (str "to_usr") fun target =>
    match parseEdgeFilter args with
    | .error err => errorResult err
    | .ok filter =>
      let search := fun starts =>
        chainsToJson ctx.fixUTF8 args ctx.graph target
          (findCallChain ctx.graph target starts (chainLimits args) filter)
      match resolveIdentity args ctx (str "from") (str "from_usr") with
      | .response out => out
      | .identity start => search [start]
      | .missing => search ctx.entryPoints

/-! ### search_functions -/

/-- Just past the last "::" of a name. -/
def unqualifiedOffset (name : Str) : Nat :=
  ((((List.range name.length).filter fun i => (str "::").isPrefixOf (name.drop i)).getLast?).map
    (· + 2)).getD 0

/-- A node with its name in lower case. -/
def searchEntry (node : CallGraphNode) : SearchEntry :=
  { lowerQualified := lower node.qualifiedName
    unqualifiedOffset := unqualifiedOffset node.qualifiedName, node }

/-- The exact unqualified name, then a beginning of it, then any substring. -/
def searchTier (needle : Str) (entry : SearchEntry) : Nat :=
  let unqualified := entry.lowerQualified.drop entry.unqualifiedOffset
  if unqualified = needle then 0 else if needle.isPrefixOf unqualified then 1 else 2

/-- Better tiers first, then shorter names. -/
def hitBefore (a b : CallGraphNode × Nat) : Bool :=
  if a.2 ≠ b.2 then a.2 < b.2
  else if a.1.qualifiedName.length ≠ b.1.qualifiedName.length then
    a.1.qualifiedName.length < b.1.qualifiedName.length
  else a.1.qualifiedName < b.1.qualifiedName

/-- A node that was found. -/
def hitToJson (node : CallGraphNode) : Json :=
  .object <|
    [field "qualifiedName" (jsonString fixUTF8 node.qualifiedName),
      field "usr" (jsonString fixUTF8 node.usr),
      field "file" (jsonString fixUTF8 node.file), field "line" (.ofNat node.line.toNat)]
    ++ fieldIf (node.enclosingClass ≠ []) "enclosingClass" (jsonString fixUTF8 node.enclosingClass)
    ++ fieldIf (node.isVirtual = true) "isVirtual" (.bool true)

/-- `search_functions`: the index is cached, the hits are not. -/
def handleSearchFunctions (args : JsonObject) (ctx : ToolContext) : Query Json := do
  match args.getString (str "query") with
  | none | some [] => return errorResult (str "Missing required parameter 'query'")
  | some query =>
    let limit := (max 1 ((args.getInteger (str "limit")).getD 25)).toNat
    let needle := lower query
    let index ← cachedObject (str "search_index")
      (fun | .searchIndex index => some index | _ => none) .searchIndex
      (ctx.graph.allNodes.map searchEntry)
    let hits := ((index.filter fun entry => strContains entry.lowerQualified needle).map fun entry =>
      (entry.node, searchTier needle entry)).mergeSort fun a b => !hitBefore b a
    let results := (hits.take limit).map fun hit => hitToJson ctx.fixUTF8 hit.1
    return .object
      [field "query" (ctx.string query), field "totalMatches" (.ofNat hits.length),
        field "returned" (.ofNat results.length), field "truncated" (.bool (limit < hits.length)),
        field "matches" (.array results)]

/-! ### get_class_hierarchy -/

/-- The search pops a class and lists its subclasses once; a class listed under two bases is
listed twice.  Every turn pops what an earlier one pushed, so the fuel is enough. -/
def allDerived (g : CallGraph) : Nat → List SId → List SId → List SId → List SId
  | 0, _, _, result => result
  | fuel + 1, stack, visited, result =>
    match stack with
    | [] => result
    | cls :: rest =>
      if cls ∈ visited then allDerived g fuel rest visited result
      else
        let derived := g.derivedClasses.getD cls []
        allDerived g fuel (derived.reverse ++ rest) (cls :: visited) (result ++ derived)

/-- The classes derived from a class, through others too. -/
def CallGraph.getAllDerivedClasses (g : CallGraph) (baseClass : Str) : List Str :=
  match g.interner.find baseClass with
  | none => []
  | some baseId =>
    (allDerived g ((g.derivedClasses.entries.flatMap (·.2)).length + 2) [baseId] [] []).map
      g.interner.resolve

/-- `get_class_hierarchy`. -/
def handleGetClassHierarchy (args : JsonObject) (ctx : ToolContext) : Json :=
  match args.getString (str "class_name") with
  | none => errorResult (str "Missing required parameter 'class_name'")
  | some className =>
    let derived :=
      if (args.getBoolean (str "include_transitive")).getD false then
        ctx.graph.getAllDerivedClasses className
      else ctx.graph.getDerivedClasses className
    let methods := ctx.graph.allNodes.filter fun node =>
      node.enclosingClass = className && node.isVirtual && ctx.graph.getOverrides node.usr ≠ []
    .object <|
      [field "className" (ctx.string className), field "derivedClassCount" (.ofNat derived.length),
        field "derivedClasses" (ctx.strings derived)]
      ++ fieldIf ((args.getBoolean (str "include_overrides")).getD false = true)
        "virtualMethodOverrides"
        (.array (methods.map fun node =>
          .object [field "baseMethod" (ctx.string node.qualifiedName),
            field "overrides" (ctx.strings (ctx.graph.getOverrides node.usr))]))

/-! ### list_entry_points -/

/-- An entry point with its place where the graph has it. -/
def entryPointToJson (g : CallGraph) (ep : Str) : Json :=
  .object <| field "name" (jsonString fixUTF8 ep) ::
    match g.findNode ep with
    | none => []
    | some node =>
      [field "file" (jsonString fixUTF8 node.file), field "line" (.ofNat node.line.toNat)]
        ++ fieldIf (node.enclosingClass ≠ []) "enclosingClass"
          (jsonString fixUTF8 node.enclosingClass)

/-- `list_entry_points`. -/
def handleListEntryPoints (_args : JsonObject) (ctx : ToolContext) : Json :=
  .object
    [field "count" (.ofNat ctx.entryPoints.length),
      field "entryPoints" (.array (ctx.entryPoints.map (entryPointToJson ctx.fixUTF8 ctx.graph)))]

/-! ### graph_summary -/

/-- The largest counts first. -/
def topN (counts : List (Str × Nat)) (n : Nat) : Json :=
  .array (((counts.mergeSort fun a b => b.2 ≤ a.2).take n).map fun p =>
    .object [field "qualifiedName" (jsonString fixUTF8 p.1), field "count" (.ofNat p.2)])

/-- The out-edges of a node by its usr, so that functions of one name count apart. -/
def nodeEdges (g : CallGraph) : List (CallGraphNode × List CallGraphEdge) :=
  g.allNodes.map fun node => (node, g.calleesOf node.usr)

/-- How many edges lead to each name. -/
def calleeInDegree (edges : List CallGraphEdge) : UMap Str Nat :=
  edges.foldl (fun counts e => counts.upsert e.calleeName 0 (· + 1)) ∅

/-- The counts and the busiest functions. -/
def graphSummary (ctx : ToolContext) : Json :=
  let scanned := nodeEdges ctx.graph
  let edges := scanned.flatMap (·.2)
  let callerFanout := (scanned.filter (·.2 ≠ [])).map fun p => (p.1.qualifiedName, p.2.length)
  let calleeIn := (calleeInDegree edges).entries.map fun entry => (entry.1, entry.2)
  let confidences := [Confidence.Proven, .Plausible, .Unknown].map fun c =>
    (confidenceToString c, Json.ofNat (edges.countP (·.confidence = c)))
  let kinds := [EdgeKind.directCall, .virtualDispatch, .functionPointer, .constructorCall,
      .destructorCall, .operatorCall, .templateInstantiation, .lambdaCall, .threadEntry].map
    fun kind => (edgeKindToString kind, Json.ofNat (edges.countP (·.kind = kind)))
  .object
    [field "nodeCount" (.ofNat ctx.graph.nodeCount), field "edgeCount" (.ofNat edges.length),
      field "callSiteCount" (.ofNat (match ctx.summary with
        | some summary => summary.callSites.toNat
        | none => ctx.cfIndex.size)),
      field "entryPointCount" (.ofNat ctx.entryPoints.length),
      field "confidenceHistogram" (.object confidences),
      field "edgeKindHistogram" (.object kinds),
      field "topFanoutCallers" (topN ctx.fixUTF8 callerFanout 5),
      field "topFanoutCallees" (topN ctx.fixUTF8 calleeIn 5)]

/-- `graph_summary`, cached as a whole. -/
def handleGraphSummary (_args : JsonObject) (ctx : ToolContext) : Query Json :=
  cachedResult (str "graph_summary") (return graphSummary ctx)

/-! ### list_callback_sites -/

/-- A call through a pointer or of a lambda. -/
def callbackSiteToJson (e : CallGraphEdge) : Json :=
  .object <|
    [field "caller" (jsonString fixUTF8 e.callerName),
      field "callSite" (jsonString fixUTF8 e.callSite),
      field "kind" (.string (edgeKindToString e.kind)),
      field "confidence" (.string (confidenceToString e.confidence))]
    ++ fieldIf (e.indirectionDepth > 0) "indirectionDepth" (.ofNat e.indirectionDepth.toNat)
    ++ fieldIf (e.execContext ≠ .synchronous) "executionContext"
      (.string (executionContextToString e.execContext))

/-- `list_callback_sites`. -/
def handleListCallbackSites (args : JsonObject) (ctx : ToolContext) : Json :=
  let edges := ((nodeEdges ctx.graph).flatMap (·.2)).filter fun e =>
    (e.kind = .functionPointer || e.kind = .lambdaCall)
      && ((args.getString (str "target_prefix")).getD []).isPrefixOf e.calleeName
  let targets := (strSet (edges.map (·.calleeName))).map fun target =>
    let sites := edges.filter (·.calleeName = target)
    Json.object
      [field "target" (ctx.string target), field "siteCount" (.ofNat sites.length),
        field "sites" (.array (sites.map (callbackSiteToJson ctx.fixUTF8)))]
  .object [field "targetCount" (.ofNat targets.length), field "targets" (.array targets)]

/-! ### list_concurrency_entry_points -/

/-- A function that is started elsewhere. -/
def threadEntryToJson (e : CallGraphEdge) : Json :=
  .object
    [field "spawner" (jsonString fixUTF8 e.callerName),
      field "target" (jsonString fixUTF8 e.calleeName),
      field "executionContext" (.string (executionContextToString e.execContext)),
      field "callSite" (jsonString fixUTF8 e.callSite),
      field "confidence" (.string (confidenceToString e.confidence))]

/-- `list_concurrency_entry_points`. -/
def handleListConcurrencyEntryPoints (args : JsonObject) (ctx : ToolContext) : Json :=
  match (args.getStrings (str "execution_contexts")).mapM listedContext with
  | .error err => errorResult err
  | .ok ctxFilter =>
    let entries := ((nodeEdges ctx.graph).flatMap (·.2)).filter fun e =>
      e.kind = .threadEntry && (ctxFilter = [] || e.execContext ∈ ctxFilter)
    .object
      [field "count" (.ofNat entries.length),
        field "entries" (.array (entries.map (threadEntryToJson ctx.fixUTF8)))]

end Vycor
