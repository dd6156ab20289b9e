/-
`analyze_dead_code`, with its two layers of cache: the response under all arguments, and the
liveness map under the arguments of the analysis.
-/
import Vycor.Model.Tools

namespace Vycor

/-- Where the headers of a system are. -/
def systemPrefixes : List Str :=
  [str "/usr/include/", str "/usr/lib/", str "/usr/local/include/", str "/usr/local/lib/",
    str "/Library/Developer/", str "/Applications/Xcode.app/", str "/opt/homebrew/"]

/-- A path of the system, or of a compiler's own headers. -/
def isSystemPath (path : Str) : Bool :=
  if path = [] then false
  else if systemPrefixes.any (·.isPrefixOf path) then true
  else strContains path (str "/lib/clang/") || strContains path (str "/lib/gcc/")

/-- The arguments of a request; a negative limit or offset counts as 0. -/
structure DeadCodeArgs where
  entryPoints : List Str
  includeOptimistic : Bool
  includeSystem : Bool
  nameStart : Str
  fileStart : Str
  limit : Int
  offset : Int

/-- The arguments with their defaults. -/
def deadCodeArgs (args : JsonObject) (ctx : ToolContext) : DeadCodeArgs :=
  { entryPoints := entryPointsArg args ctx
    includeOptimistic := (args.getBoolean (str "include_optimistic")).getD true
    includeSystem := (args.getBoolean (str "include_system")).getD false
    nameStart := (args.getString (str "name_prefix")).getD []
    fileStart := (args.getString (str "file_prefix")).getD []
    limit := max 0 ((args.getInteger (str "limit")).getD 500)
    offset := max 0 ((args.getInteger (str "offset")).getD 0) }

/-- A flag in a cache key. -/
def flagChar (b : Bool) : Str := if b then str "1" else str "0"

/-- Each entry point after a bar. -/
def entryPointKey (entryPoints : List Str) : Str := entryPoints.flatMap fun ep => str "|" ++ ep

/-- The cache key of a whole request. -/
def fullKey (a : DeadCodeArgs) : Str :=
  str "dead_code_json|" ++ flagChar a.includeOptimistic ++ flagChar a.includeSystem
    ++ str "|" ++ a.nameStart ++ str "|" ++ a.fileStart ++ str "|" ++ decimalInt a.limit
    ++ str "|" ++ decimalInt a.offset ++ entryPointKey a.entryPoints

/-- The cache key of the analysis that a request rests on. -/
def livenessKey (a : DeadCodeArgs) : Str :=
  str "dead_code|" ++ flagChar a.includeOptimistic ++ entryPointKey a.entryPoints

/-- A name without a node passes the system filter and fails a file filter. -/
def passesFilter (a : DeadCodeArgs) (node : Option CallGraphNode) (name : Str) : Bool :=
  if !a.includeSystem && node.any (isSystemPath ·.file) then false
  else if a.nameStart ≠ [] && !a.nameStart.isPrefixOf name then false
  else a.fileStart = [] || node.any (a.fileStart.isPrefixOf ·.file)

variable (fixUTF8 : Str → Str)

/-- A dead function, with its place where the graph has it. -/
def deadEntryToJson (node : Option CallGraphNode) (name : Str) : Json :=
  .object <| field "name" (jsonString fixUTF8 name) ::
    match node with
    | some node =>
      [field "file" (jsonString fixUTF8 node.file), field "line" (.ofNat node.line.toNat),
        field "usr" (jsonString fixUTF8 node.usr)]
    | none => []

/-- The names of one verdict that pass the filter. -/
def entriesOf (a : DeadCodeArgs) (g : CallGraph) (results : UMap Str Liveness)
    (verdict : Liveness) : List Json :=
  (results.entries.filter fun kv => kv.2 = verdict && passesFilter a (g.findNode kv.1) kv.1).map
    fun kv => deadEntryToJson fixUTF8 (g.findNode kv.1) kv.1

/-- The elements from `start` up to `stop`; the end is computed in 64 bits. -/
def deadPage (deadAll : List Json) (limit offset : Int) : List Json × Int :=
  let total : Int := deadAll.length
  let start := min offset total
  let stop := min ((start + limit).bmod (2 ^ 64)) total
  ((deadAll.take stop.toNat).drop start.toNat, stop)

/-- The counts of a verdict and one page of its names. -/
def deadCodeResponse (a : DeadCodeArgs) (g : CallGraph) (results : UMap Str Liveness) : Json :=
  let deadAll := entriesOf fixUTF8 a g results .dead
  let page := deadPage deadAll a.limit a.offset
  let verdicts := results.entries.map (·.2)
  .object
    [field "totalFunctions" (.ofNat results.entries.length),
      field "aliveCount" (.ofNat (verdicts.count .alive)),
      field "optimisticallyAliveCount" (.ofNat (verdicts.count .optimisticallyAlive)),
      field "totalDead" (.ofNat deadAll.length), field "deadCount" (.ofNat page.1.length),
      field "offset" (.ofInt a.offset), field "limit" (.ofInt a.limit),
      field "truncated" (.bool (page.2 < deadAll.length)), field "dead" (.array page.1),
      field "optimisticallyAlive" (.array (entriesOf fixUTF8 a g results .optimisticallyAlive))]

/-- `analyze_dead_code`: the page is cached by all arguments, the verdicts by those that
decide them. -/
def handleAnalyzeDeadCode (args : JsonObject) (ctx : ToolContext) : Query Json :=
  let a := deadCodeArgs args ctx
  cachedResult (fullKey a) do
    let results ← cachedObject (livenessKey a)
      (fun | .liveness results => some results | _ => none) .liveness
      (DeadCodeAnalyzer.analyze ctx.graph a.entryPoints a.includeOptimistic)
    return deadCodeResponse ctx.fixUTF8 a ctx.graph results

end Vycor
