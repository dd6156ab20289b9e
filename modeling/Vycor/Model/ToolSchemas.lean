/-
The input schemas of the tools: JSON Schema objects, whose properties are the arguments a tool
takes.

A tool is registered with its schema and its description; here both stand in tables of their
own, under the names of the tools.
-/
import Vycor.Model.Registry

namespace Vycor

/-! ### Builders

The schema functions of the source, so that each row below reads as it does
there.
-/

/-- A property of a simple type. -/
def typedProp (type desc : String) : Json :=
  .object [field "type" (.string (str type)), field "description" (.string (str desc))]

def stringProp (desc : String) : Json := typedProp "string" desc

def intProp (desc : String) : Json := typedProp "integer" desc

def boolProp (desc : String) : Json := typedProp "boolean" desc

def stringArrayProp (desc : String) : Json :=
  .object [field "type" (.string (str "array")),
    field "items" (.object [field "type" (.string (str "string"))]),
    field "description" (.string (str desc))]

/-- The two properties that refine an identity. -/
def identityRefinementProps (front : String) : JsonObject :=
  [(str front ++ str "site", stringProp
      ("Call site 'file:line:col' (as spelled in the compile command). Resolves the identity to "
        ++ "the exact overload/template instantiation called at that site — the most precise "
        ++ "disambiguator when you are looking at a specific call.")),
    (str front ++ str "filter", stringProp
      ("Literal substring matched against candidate usr, qualified name, and file to narrow an "
        ++ "ambiguous name; resolves when exactly one candidate survives. NOT type-aware: use names "
        ++ "that appear literally (e.g. a template argument's class name), not guessed signatures."))]

/-- An object with its properties and those it has to have. -/
def objectSchema (props : JsonObject) (required : List String) : Json :=
  .object
    ([field "type" (.string (str "object")), field "properties" (.object props)]
      ++ fieldIf (required ≠ []) "required" (Json.strings (required.map str)))

/-! ### The tools -/

/-- What the two tools over edges filter by.  They differ in one text. -/
def edgeProps (confidences : String) : JsonObject :=
  [field "edge_kinds" (stringArrayProp
        ("Filter by edge kind: DirectCall, VirtualDispatch, FunctionPointer, ConstructorCall, "
          ++ "DestructorCall, OperatorCall, TemplateInstantiation, LambdaCall, ThreadEntry")),
    field "min_confidence" (stringProp
        ("Inclusive minimum confidence tier: Proven, Plausible, or Unknown (default: Unknown). "
          ++ "Plausible includes both Plausible and Proven edges. Use include_confidences to select "
          ++ "exact tiers.")),
    field "include_confidences" (stringArrayProp confidences),
    field "execution_contexts" (stringArrayProp
        ("Filter by execution context: Synchronous, ThreadSpawn, AsyncTask, PackagedTask, Invoke. "
          ++ "Default: all contexts."))]

/-- What the tools over call paths take. -/
def functionProps : JsonObject :=
  [field "function" (stringProp
        ("Target function qualified name. Provide 'function' or 'usr' (usr wins when both are "
          ++ "present).")),
    field "usr" (stringProp
        ("Exact USR of the target function. Bypasses name resolution — use it to pick one "
          ++ "overload/specialization when the name is ambiguous."))] ++ identityRefinementProps ""

def entryPointsProp : Str × Json :=
  field "entry_points" (stringArrayProp
      "Entry point function names (default: configured entry points)")

/-- The enclosing function, where a site alone does not tell. -/
def callerProp : Str × Json :=
  field "caller" (stringProp
      ("Optional enclosing function (qualified name or USR). Needed when several call sites share "
        ++ "one spelling (a macro expanded in different functions); without it such a spelling returns "
        ++ "\x7bambiguous:true, candidates:[...]\x7d listing the callers."))

/-- The tools over the graph alone. -/
def graphSchemas : List (Str × Json) :=
  [field "lookup_function" (objectSchema
      ([field "name" (stringProp
            ("Qualified function name (e.g. 'MyClass::process'). Provide 'name' or 'usr' (usr wins "
              ++ "when both are present).")),
        field "usr" (stringProp
            ("Exact function USR (from search_functions results or a prior disambiguation "
              ++ "response). Bypasses name resolution entirely — use it to pick one "
              ++ "overload/specialization when a name is ambiguous."))]
        ++ identityRefinementProps "") []),
    field "get_callees" (objectSchema
      ([field "name" (stringProp
            ("Qualified name of the caller function. Provide 'name' or 'usr' (usr wins when both "
              ++ "are present).")),
        field "usr" (stringProp
            ("Exact function USR of the caller. Bypasses name resolution — use it to pick one "
              ++ "overload/specialization when the name is ambiguous."))]
        ++ identityRefinementProps ""
        ++ edgeProps
          ("Explicit set of confidence tiers to include (e.g. [\"Plausible\"] returns only "
            ++ "Plausible edges). Overrides min_confidence.")) []),
    field "get_callers" (objectSchema
      ([field "name" (stringProp
            ("Qualified name of the callee function. Provide 'name' or 'usr' (usr wins when both "
              ++ "are present).")),
        field "usr" (stringProp
            ("Exact function USR of the callee. Bypasses name resolution — use it to pick one "
              ++ "overload/specialization when the name is ambiguous."))]
        ++ identityRefinementProps ""
        ++ edgeProps "Explicit set of confidence tiers to include. Overrides min_confidence.") []),
    field "find_call_chain" (objectSchema
      ([field "from" (stringProp "Source function qualified name (omit to use entry points)"),
        field "from_usr" (stringProp
            ("Exact USR of the source function. Bypasses name resolution for 'from' when the name "
              ++ "is ambiguous."))]
        ++ identityRefinementProps "from_"
        ++ [field "to" (stringProp
                ("Target function qualified name. Provide 'to' or 'to_usr' (to_usr wins when both "
                  ++ "are present).")),
            field "to_usr" (stringProp
                ("Exact USR of the target function. Bypasses name resolution for 'to' when the "
                  ++ "name is ambiguous."))]
        ++ identityRefinementProps "to_"
        ++ [field "max_paths" (intProp "Maximum number of paths to return (default: 10)"),
            field "max_depth" (intProp
                "Maximum number of edges in a chain, i.e. node count minus one (default: 20)"),
            field "edge_kinds" (stringArrayProp
                "Prune hops whose edge kind is not in this set."),
            field "min_confidence" (stringProp
                ("Inclusive minimum confidence tier applied to every hop on the path (default: "
                  ++ "Unknown).")),
            field "include_confidences" (stringArrayProp
                "Explicit set of confidence tiers allowed at every hop. Overrides min_confidence."),
            field "max_fan_in" (intProp
                ("Skip expanding the ancestry of functions with more stored callers than this "
                  ++ "(high-fan-in hubs like loggers); skipped hubs are listed in the response. 0 "
                  ++ "disables the cutoff (default: 1000)."))]) []),
    field "search_functions" (objectSchema
      [field "query" (stringProp
           ("Case-insensitive substring to match against qualified function names (e.g. 'execute' "
             ++ "or 'TransformPipeline').")),
       field "limit" (intProp "Maximum matches to return (default: 25)")] ["query"]),
    field "get_class_hierarchy" (objectSchema
      [field "class_name" (stringProp "Qualified class name"),
       field "include_transitive" (boolProp
           "Include all descendants, not just direct (default: false)"),
       field "include_overrides" (boolProp
           "Include virtual method override info (default: false)")] ["class_name"]),
    field "list_entry_points" (objectSchema [] []),
    field "graph_summary" (objectSchema [] []),
    field "list_callback_sites" (objectSchema
      [field "target_prefix" (stringProp
           ("Optional qualified-name prefix; only targets whose name starts with this prefix are "
             ++ "returned."))] []),
    field "list_concurrency_entry_points" (objectSchema
      [field "execution_contexts" (stringArrayProp
           ("Filter by execution context: ThreadSpawn, AsyncTask, PackagedTask, Invoke. Default: "
             ++ "all ThreadEntry contexts."))] [])]

/-- The tools over call-site contexts, but for locks. -/
def exceptionSchemas : List (Str × Json) :=
  [field "query_exception_safety" (objectSchema
      (functionProps
        ++ [field "exception_type" (stringProp
                "Exception type to check (e.g. 'std::runtime_error')"),
            entryPointsProp]) []),
    field "query_call_site_context" (objectSchema
      [field "call_site" (stringProp
           ("Call site location formatted as 'file:line:col'. The file path must match the "
             ++ "compilation database canonicalization (typically an absolute path). Returns isError if "
             ++ "the site is not indexed.")),
       callerProp] ["call_site"]),
    field "query_raii_scopes_at_callsite" (objectSchema
      [field "call_site" (stringProp
           ("Call site location formatted as 'file:line:col'. Must match the compilation database "
             ++ "canonicalization.")),
       callerProp,
       field "kinds" (stringArrayProp
           "Filter by kind: lock, smart_ptr, other. Default: all kinds.")] ["call_site"]),
    field "query_throw_propagation" (objectSchema
      (functionProps
        ++ [field "exception_type" (stringProp
                ("Exception type the function throws (e.g. 'std::runtime_error'); empty matches "
                  ++ "any handler")),
            entryPointsProp]) []),
    field "query_all_path_contexts" (objectSchema
      (functionProps
        ++ [entryPointsProp,
            field "max_paths" (intProp "Maximum number of paths to enumerate (default 100)")]) []),
    field "query_nearest_catches" (objectSchema functionProps [])]

/-- Where the two walks for locks end.  They differ in one text. -/
def lockProps (depth : String) : JsonObject :=
  [field "max_depth" (intProp depth),
    field "max_fan_in" (intProp
        ("Skip expanding functions with more stored callers than this; skipped hubs are listed in "
          ++ "the response. 0 disables (default: 1000).")),
    field "entry_points" (stringArrayProp
        "Entry points to root the reverse walk (default: configured entry points)")]

def lockSchemas : List (Str × Json) :=
  [field "query_locks_held" (objectSchema
      ([field "function" (stringProp
            ("Qualified name of the target function. Provide 'function' or 'usr' (usr wins when "
              ++ "both are present).")),
        field "usr" (stringProp
            ("Exact USR of the target function. Bypasses name resolution — use it to pick one "
              ++ "overload/specialization when the name is ambiguous."))]
        ++ identityRefinementProps ""
        ++ lockProps "Maximum number of frames above the target to walk (default: 20)") []),
    field "query_same_lock" (objectSchema
      ([field "fn_a" (stringProp
            ("First function qualified name. Provide 'fn_a' or 'fn_a_usr' (the usr wins when both "
              ++ "are present).")),
        field "fn_a_usr" (stringProp
            ("Exact USR of the first function. Bypasses name resolution for 'fn_a' when the name "
              ++ "is ambiguous."))]
        ++ identityRefinementProps "fn_a_"
        ++ [field "fn_b" (stringProp
                ("Second function qualified name. Provide 'fn_b' or 'fn_b_usr' (the usr wins when "
                  ++ "both are present).")),
            field "fn_b_usr" (stringProp
                ("Exact USR of the second function. Bypasses name resolution for 'fn_b' when the "
                  ++ "name is ambiguous."))]
        ++ identityRefinementProps "fn_b_"
        ++ lockProps "Maximum number of frames above each target to walk (default: 20)") [])]

def deadCodeSchemas : List (Str × Json) :=
  [field "analyze_dead_code" (objectSchema
      [field "entry_points" (stringArrayProp
           ("Entry point function names (default: configured entry points). Entry points are "
             ++ "reachability SEEDS: a name shared by several functions (overloads) seeds ALL of them "
             ++ "(deliberate union semantics — no disambiguation round-trip here).")),
       field "include_optimistic" (boolProp
           "Include optimistically-alive functions (default: true)"),
       field "include_system" (boolProp
           ("Include functions whose source file lives in a system include directory such as "
             ++ "/usr/include or compiler-internal clang/gcc include dirs (default: false). Stdlib "
             ++ "template instantiations otherwise dominate the response.")),
       field "name_prefix" (stringProp
           "Only include dead functions whose qualified name starts with this prefix."),
       field "file_prefix" (stringProp
           "Only include dead functions whose source file path starts with this prefix."),
       field "limit" (intProp
           "Maximum number of dead entries to return after filtering (default: 500)."),
       field "offset" (intProp
           ("Number of filtered dead entries to skip before returning (default: 0). Use with limit "
             ++ "to paginate."))] [])]

def channelSchemas : List (Str × Json) :=
  [field "list_channels" (objectSchema [] []),
    field "query_channel" (objectSchema
      [field "channel_id" (stringProp
           ("Channel identity from list_channels or a channelId in another channel tool's "
             ++ "response."))]
      ["channel_id"]),
    field "query_channels_for_function" (objectSchema
      [field "function" (stringProp
           "Qualified function name or USR whose channel producer/consumer call sites to list.")]
      ["function"]),
    field "explain_ordering" (objectSchema
      [field "call_site_a" (stringProp
           ("First channel call site, 'file:line:col' (from query_channel or "
             ++ "query_channels_for_function).")),
       field "call_site_b" (stringProp "Second channel call site.")]
      ["call_site_a", "call_site_b"])]

/-- The schema of every tool, in the order of registration. -/
def toolSchemas : List (Str × Json) :=
  graphSchemas ++ exceptionSchemas ++ lockSchemas ++ deadCodeSchemas ++ channelSchemas
    ++ [field "reindex_tu" (objectSchema
      [field "file" (stringProp "Absolute path of the TU to re-index")] ["file"])]

/-! ### The descriptions -/

/-- What each tool says of itself. -/
def toolDescriptions : List (Str × Str) :=
  [(str "lookup_function", str
      ("Look up metadata for a function by qualified name. Returns file, line, class membership, "
        ++ "and virtual status. If several functions share the name (overloads, template "
        ++ "specializations), returns \x7bambiguous:true, candidates:[...]\x7d — re-query with the "
        ++ "'usr' of the intended candidate.")),
    (str "get_callees", str
      ("List all functions called by a given function. Supports filtering by edge kind and "
        ++ "confidence level. An ambiguous name returns \x7bambiguous:true, candidates:[...]\x7d — "
        ++ "re-query with 'usr'.")),
    (str "get_callers", str
      ("List all functions that call a given function. Supports filtering by edge kind and "
        ++ "confidence level. An ambiguous name returns \x7bambiguous:true, candidates:[...]\x7d — "
        ++ "re-query with 'usr'.")),
    (str "find_call_chain", str
      ("Find call chains from a source function (or entry points) to a target function. Each path "
        ++ "is an array of hop objects with \x7bfrom, to, kind, confidence, callSite, "
        ++ "executionContext?\x7d. executionContext is only emitted on ThreadEntry hops and other "
        ++ "non-Synchronous edges. An ambiguous 'from' or 'to' name returns \x7bambiguous:true, "
        ++ "candidates:[...]\x7d — re-query with the *_usr parameter.")),
    (str "search_functions", str
      ("Find functions by name substring when the exact qualified name is unknown. Returns "
        ++ "candidates ranked by match quality (exact unqualified name, then prefix, then substring). "
        ++ "Use this before lookup_function / get_callers when unsure of the precise name.")),
    (str "get_class_hierarchy", str
      ("Query class inheritance relationships and virtual method overrides. Shows derived classes "
        ++ "and optionally which methods are overridden in each.")),
    (str "list_entry_points", str
      ("List the configured entry-point functions with their file/line when resolved in the call "
        ++ "graph. Useful for orientation before calling find_call_chain or analyze_dead_code.")),
    (str "graph_summary", str
      ("Return aggregate statistics about the call graph: node and edge counts, call-site count, "
        ++ "entry-point count, top-5 fan-out callers and callees, and histograms by confidence and edge "
        ++ "kind.")),
    (str "list_callback_sites", str
      ("List every callback registration or invocation site grouped by target. Covers "
        ++ "FunctionPointer and LambdaCall edges, including synthetic lambda targets named "
        ++ "'lambda#file:line:col#enclosing'. Returns \x7btarget, siteCount, sites:[\x7bcaller, "
        ++ "callSite, kind, confidence, indirectionDepth?, executionContext?\x7d]\x7d.")),
    (str "list_concurrency_entry_points", str
      ("List every ThreadEntry edge: functions (including synthetic lambda targets) that are "
        ++ "handed to std::thread, std::jthread, std::async, std::packaged_task, std::invoke, or "
        ++ "std::bind. Returns \x7bcount, entries:[\x7bspawner, target, executionContext, callSite, "
        ++ "confidence\x7d]\x7d.")),
    (str "query_exception_safety", str
      ("Determine whether a function is protected by try/catch on its call paths from entry "
        ++ "points. Reports always, sometimes, or never caught. An ambiguous name returns "
        ++ "\x7bambiguous:true, candidates:[...]\x7d — re-query with 'usr'.")),
    (str "query_call_site_context", str
      ("Get exception handling and guard context at a specific call site location (file:line:col). "
        ++ "Shows enclosing try/catch scopes and conditional guards. A spelling shared by several call "
        ++ "sites (macro expansion) returns \x7bambiguous:true, candidates:[...]\x7d — re-query with "
        ++ "'caller'.")),
    (str "query_raii_scopes_at_callsite", str
      ("List RAII-capable locals (non-trivial-destructor) live at a call site. Each entry is "
        ++ "\x7btypeName, varName, kind, declLocation\x7d, kind in \x7block, smart_ptr, other\x7d. Use "
        ++ "`kinds` to narrow the response (e.g. [\"lock\"] for concurrency audits). A spelling shared "
        ++ "by several call sites (macro expansion) returns \x7bambiguous:true, candidates:[...]\x7d — "
        ++ "re-query with 'caller'.")),
    (str "query_throw_propagation", str
      ("If a function throws the given exception type, is it caught before unwinding to an entry "
        ++ "point? Reports the protection verdict plus every call path with its try/catch scopes, "
        ++ "guards, and where the throw would be caught. An ambiguous name returns \x7bambiguous:true, "
        ++ "candidates:[...]\x7d — re-query with 'usr'.")),
    (str "query_all_path_contexts", str
      ("Enumerate the call paths from the entry points to a function, each with the try/catch "
        ++ "scopes and conditional guards along it. The exception-context counterpart of "
        ++ "find_call_chain. An ambiguous name returns \x7bambiguous:true, candidates:[...]\x7d — "
        ++ "re-query with 'usr'.")),
    (str "query_nearest_catches", str
      ("For each call path into a function, the nearest enclosing try/catch walking up the "
        ++ "callers: the handler scope, how many frames up it sits, and the path segment between. Empty "
        ++ "when nothing on any path catches. An ambiguous name returns \x7bambiguous:true, "
        ++ "candidates:[...]\x7d — re-query with 'usr'.")),
    (str "query_locks_held", str
      ("For each entry point, enumerate call paths reaching `function` via reverse-walking the "
        ++ "call graph, and report Lock-kind RAII locals live on any edge of each path. Result: "
        ++ "\x7bpaths:[\x7bentryPoint, path:[fn...], locksHeld:[\x7btypeName, varName, "
        ++ "heldAt\x7d]\x7d], truncated, pathCount\x7d. Truncated at 512 paths total. Walks only "
        ++ "through edges with stable callee identity (indirect/function-pointer targets are skipped). "
        ++ "An ambiguous name returns \x7bambiguous:true, candidates:[...]\x7d — re-query with 'usr'.")),
    (str "query_same_lock", str
      ("Compute the intersection of locks held across paths reaching fn_a and fn_b. Lock identity "
        ++ "is the tuple (typeName, varName); the same physical mutex under different variable names "
        ++ "will not match. Result: \x7bsharedLocks:[\x7btypeName, varName, pathsA, pathsB\x7d], "
        ++ "shared, aOnly, bOnly, truncated\x7d. An ambiguous name returns \x7bambiguous:true, "
        ++ "candidates:[...]\x7d — re-query with the *_usr parameter.")),
    (str "analyze_dead_code", str
      ("Run dead code analysis via call graph reachability. Reports dead, optimistically-alive, "
        ++ "and alive functions from the configured entry points. System-header functions are excluded "
        ++ "by default; use include_system to include them.")),
    (str "list_channels", str
      ("List every tracked channel (queue/map/event-bus instance registered via "
        ++ "--channel-types-json) with its type, category, and producer/consumer site counts. Empty "
        ++ "(not an error) when the server was started without --channel-types-json. Use query_channel "
        ++ "on a channelId for the full site list.")),
    (str "query_channel", str
      ("List every producer and consumer call site on one channel: \x7bproducers:[...], "
        ++ "consumers:[...]\x7d, each site \x7bchannelType, category, operation, function, functionUsr, "
        ++ "callSite, guards:[\x7bconditionText, location, inTrueBranch, isAssertion\x7d]\x7d. A "
        ++ "channel with multiple producers/consumers lists all of them — there is no single "
        ++ "caller/callee edge to name.")),
    (str "query_channels_for_function", str
      ("List the channel sites (producer or consumer) inside one function. Use this when you "
        ++ "already know a function pushes/pops on some tracked channel but not which channel or where "
        ++ "its counterpart is.")),
    (str "explain_ordering", str
      ("Compare two channel call sites for the evidence needed to explain an ordering assumption "
        ++ "between them: whether they're the same channel, each site's enclosing guard conditions "
        ++ "(e.g. only reachable when some flag is true), and which "
        ++ "ThreadEntry/AsyncTask/PackagedTask/Invoke boundaries reach each site's enclosing function. "
        ++ "Returns structural evidence for a human/LLM to build the explanation from — an empty "
        ++ "concurrencyBoundaries list is absence of evidence, not proof of synchronous execution.")),
    (str "reindex_tu", str
      ("Re-index a single translation unit after source changes. Removes stale edges/contexts and "
        ++ "re-runs all three analysis phases for the given file. Returns counts of edges and contexts "
        ++ "removed and current totals."))]

/-! ### Rows and tools

Each registered tool has its row in both tables. -/

theorem toolSchemas_names : toolSchemas.map (·.1) = getRegisteredTools.map (·.name) := by
  decide +kernel

theorem toolDescriptions_names :
    toolDescriptions.map (·.1) = getRegisteredTools.map (·.name) := by
  decide +kernel

/-- What the tool's schema says of it. -/
def ToolEntry.description (tool : ToolEntry) : Str :=
  ((toolDescriptions.find? (·.1 = tool.name)).map (·.2)).getD []

def ToolEntry.inputSchema (tool : ToolEntry) : Json :=
  ((toolSchemas.find? (·.1 = tool.name)).map (·.2)).getD .null

theorem mem_toolSchemas {tool : ToolEntry} (h : tool ∈ getRegisteredTools) :
    (tool.name, tool.inputSchema) ∈ toolSchemas := by
  have hname : tool.name ∈ toolSchemas.map (·.1) :=
    toolSchemas_names ▸ List.mem_map_of_mem h
  obtain ⟨row, hrow, heq⟩ := List.mem_map.mp hname
  have hsome : (toolSchemas.find? (·.1 = tool.name)).isSome :=
    List.find?_isSome.mpr ⟨row, hrow, by simpa using heq⟩
  obtain ⟨found, hfound⟩ := Option.isSome_iff_exists.mp hsome
  have hkey : found.1 = tool.name := by simpa using List.find?_some hfound
  have hschema : tool.inputSchema = found.2 := by rw [ToolEntry.inputSchema, hfound]; rfl
  rw [hschema, ← hkey]
  exact List.mem_of_find?_eq_some hfound

end Vycor
