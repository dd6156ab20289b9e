/-
The registered tools: name, handler, and the index sections each declares to read.

A one-shot verb loads only the sections its tool declares, in the read-only mode.
-/
import Vycor.Model.ChannelTools
import Vycor.Model.DeadCodeTools
import Vycor.Model.ExceptionTools
import Vycor.Model.GraphTools
import Vycor.Model.LockTools

namespace Vycor

abbrev ToolHandler := JsonObject → ToolContext → Query Json

/-- A tool: its name, the sections it needs and its handler. -/
structure ToolEntry where
  name : Str
  /-- None for a tool that an adapter implements: it mutates the indexes. -/
  handler : Option ToolHandler
  /-- `IndexSection` bits the tool reads. -/
  needs : UInt32 := kSectionGraph

/-- Sections beyond the graph a tool reads. -/
def kExtraNeeds : List (Str × UInt32) :=
  [(str "query_exception_safety", kSectionControlFlow),
    (str "query_call_site_context", kSectionControlFlow),
    (str "query_raii_scopes_at_callsite", kSectionControlFlow),
    (str "query_throw_propagation", kSectionControlFlow),
    (str "query_all_path_contexts", kSectionControlFlow),
    (str "query_nearest_catches", kSectionControlFlow),
    (str "query_locks_held", kSectionControlFlow),
    (str "query_same_lock", kSectionControlFlow),
    (str "list_channels", kSectionChannels),
    (str "query_channel", kSectionChannels),
    (str "query_channels_for_function", kSectionChannels),
    (str "explain_ordering", kSectionChannels)]

/-- A tool that does not use the cache. -/
def uncached (name : String) (handler : JsonObject → ToolContext → Json) : ToolEntry :=
  { name := str name, handler := some fun args ctx => pure (handler args ctx) }

/-- A tool whose handler asks the cache. -/
def cachedTool (name : String) (handler : ToolHandler) : ToolEntry :=
  { name := str name, handler := some handler }

/-- The tools over the graph. -/
def graphTools : List ToolEntry :=
  [uncached "lookup_function" handleLookupFunction, uncached "get_callees" handleGetCallees,
    uncached "get_callers" handleGetCallers, uncached "find_call_chain" handleFindCallChain,
    cachedTool "search_functions" handleSearchFunctions,
    uncached "get_class_hierarchy" handleGetClassHierarchy,
    uncached "list_entry_points" handleListEntryPoints,
    cachedTool "graph_summary" handleGraphSummary,
    uncached "list_callback_sites" handleListCallbackSites,
    uncached "list_concurrency_entry_points" handleListConcurrencyEntryPoints]

/-- The tools over exceptions and call sites. -/
def exceptionTools : List ToolEntry :=
  [uncached "query_exception_safety" handleQueryExceptionSafety,
    uncached "query_call_site_context" handleQueryCallSiteContext,
    uncached "query_raii_scopes_at_callsite" handleQueryRaiiScopesAtCallsite,
    uncached "query_throw_propagation" handleQueryThrowPropagation,
    uncached "query_all_path_contexts" handleQueryAllPathContexts,
    uncached "query_nearest_catches" handleQueryNearestCatches]

/-- The tools over locks. -/
def lockTools : List ToolEntry :=
  [uncached "query_locks_held" handleQueryLocksHeld,
    uncached "query_same_lock" handleQuerySameLock]

/-- The tool over dead code. -/
def deadCodeTools : List ToolEntry := [cachedTool "analyze_dead_code" handleAnalyzeDeadCode]

/-- The tools over channels. -/
def channelTools : List ToolEntry :=
  [uncached "list_channels" handleListChannels, uncached "query_channel" handleQueryChannel,
    uncached "query_channels_for_function" handleQueryChannelsForFunction,
    uncached "explain_ordering" handleExplainOrdering]

/-- The graph, and what the table lists for the tool's name. -/
def declareNeeds (tool : ToolEntry) : ToolEntry :=
  { tool with
    needs := kSectionGraph ||| ((kExtraNeeds.find? (·.1 = tool.name)).map (·.2)).getD 0 }

/-- All tools in the order in which they are listed. -/
def getRegisteredTools : List ToolEntry :=
  (graphTools ++ exceptionTools ++ lockTools ++ deadCodeTools ++ channelTools).map declareNeeds
    ++ [{ name := str "reindex_tu", handler := none, needs := kSectionAll }]

/-! ### The one-shot verb

The verb loads the sections that the tool declares and runs its handler once.
-/

/-- The entry points of the command line, else the recorded ones, else `main`. -/
def verbEntryPoints (requested : List Str) (data : SnapshotData) : List Str :=
  if requested ≠ [] then requested
  else if data.snapMeta.entryPoints ≠ [] then data.snapMeta.entryPoints
  else [str "main"]

/-- The context of a verb over loaded indexes. -/
def verbContext (fixUTF8 : Str → Str) (requested : List Str)
    (classifiers : List (ConditionalGuard → Option GuardAnnotation)) (data : SnapshotData) :
    ToolContext :=
  { graph := data.graph, cfIndex := data.cfIndex
    entryPoints := verbEntryPoints requested data
    channels := some data.channels, summary := some data.summary, classifiers, fixUTF8 }

end Vycor
