/-
The server: a loop that reads requests and answers them over the indexes it owns.

Queries leave the indexes alone and share a cache; `reindex_tu` takes a TU out of the indexes,
bakes it again and empties the cache.  What the frontend makes of a TU is the environment's
choice, and it may be another thing at every bake, so it is asked with the number of bakes that
went before.  The version and the text of JSON values come from elsewhere and are parameters.
-/
import Vycor.Model.GraphSpec
import Vycor.Model.McpProtocol
import Vycor.Model.ToolSchemas

namespace Vycor

def kMethodNotFound : Int := -32601

/-! ### Results -/

/-- The message of an error payload. -/
def errorMessage : Json → Option Str
  | .object obj => JsonObject.getString obj (str "error")
  | _ => none

/-- A tool's result, as one text. -/
def mcpTextResult (text : Str) (isError : Bool := false) : Json :=
  .object <|
    field "content"
        (.array [.object [field "type" (.string (str "text")), field "text" (.string text)]])
      :: fieldIf (isError = true) "isError" (.bool true)

/-- A payload as text, or the bare message of an error. -/
def wrapToolResult (json : JsonText) (payload : Json) : Json :=
  match errorMessage payload with
  | some msg => mcpTextResult msg true
  | none => mcpTextResult (json.print payload)

def McpRequest.isNotification (req : McpRequest) : Bool :=
  match req.id with
  | .null => true
  | _ => false

namespace Mcp

/-- A reply with a result. -/
def resultMessage (id result : Json) : Json :=
  .object [field "jsonrpc" (.string (str "2.0")), field "id" id, field "result" result]

/-- The message of `writeError`, with a text that is put together. -/
def errorMessage (id : Json) (code : Int) (message : Str) : Json :=
  let error := [field "code" (.ofInt code), field "message" (.string message)]
  .object [field "jsonrpc" (.string (str "2.0")), field "id" id, field "error" (.object error)]

def writeResult (json : JsonText) (s : Stdio) (id result : Json) : Stdio :=
  writeRaw json s (resultMessage id result)

end Mcp

/-! ### The server

A reindex takes a TU out of the three indexes and bakes it again into them. What
the bake finds is a parameter of the session, by its number.
-/

/-- What baking one TU registers, all of it under the TU's path.

The frontend passes its TU path with every registration but one: the node of a constructor that
`make_unique` or `make_shared` is seen to call is added under no TU.  A bake that meets such a
call is left out here; what becomes of nodes under no TU is told where single graphs are. -/
structure TuBake (tu : Str) where
  /-- Nodes, edges and pairs, in the order the visitors register them. -/
  calls : List Call
  contexts : List CallSiteContext
  sites : List ChannelSite
  calls_tu : ∀ c ∈ calls, c.tu = tu ∧ tu ≠ []
  contexts_tu : ∀ ctx ∈ contexts, ctx.tuPath = tu ∧ tu ≠ []
  sites_tu : ∀ site ∈ sites, site.tuPath = tu ∧ tu ≠ []

/-- A bake that found nothing. -/
def TuBake.nothing (tu : Str) : TuBake tu where
  calls := []
  contexts := []
  sites := []
  calls_tu := List.forall_mem_nil _
  contexts_tu := List.forall_mem_nil _
  sites_tu := List.forall_mem_nil _

/-- What stays the same over a session. -/
structure McpParams where
  json : JsonText
  /-- LLVM's, for the strings of the indexes; what a request holds is UTF-8 already. -/
  fixUTF8 : Str → Str
  version : Str
  entryPoints : List Str := []
  classifiers : List (ConditionalGuard → Option GuardAnnotation) := []
  /-- Bakes over the compilation database, by the number of earlier ones; none without one. -/
  compDb : Option (Nat → (tu : Str) → TuBake tu) := none
  verbose : Bool := false

/-- What changes over a session, and the number of bakes so far. -/
structure McpServer where
  graph : CallGraph := {}
  cfIndex : ControlFlowIndex := {}
  channels : ChannelIndex := {}
  queryCache : QueryCache := {}
  initialized : Bool := false
  bakes : Nat := 0

namespace McpServer

/-- What a reindex reports. -/
structure ReindexResult where
  edgesRemoved : Nat
  edgesAfter : Nat
  contextsRemoved : Nat
  contextsAfter : Nat

/-- Register what a bake of a TU found. -/
def bakeTU {tu : Str} (server : McpServer) (bake : TuBake tu) : McpServer :=
  { server with
    graph := server.graph.register bake.calls
    cfIndex := bake.contexts.foldl ControlFlowIndex.addCallSiteContext server.cfIndex
    channels := bake.sites.foldl ChannelIndex.addSite server.channels
    bakes := server.bakes + 1 }

/-- Take the TU out of the indexes and bake it into them again. The cache starts over. -/
def reindexTU (p : McpParams) (server : McpServer) (filePath : Str) : ReindexResult × McpServer :=
  let (graph, edgesRemoved) := server.graph.removeTU filePath
  let (cfIndex, contextsRemoved) := server.cfIndex.removeTU filePath
  let server :=
    { server with
      queryCache := {}, graph, cfIndex, channels := (server.channels.removeTU filePath).1 }
  let server :=
    match p.compDb with
    | some bake => server.bakeTU (bake server.bakes filePath)
    | none => server
  ({ edgesRemoved, edgesAfter := server.graph.edgeCount
     contextsRemoved, contextsAfter := server.cfIndex.size }, server)

/-! ### Methods -/

/-- The protocol version is the client's, where it names one. -/
def handleInitialize (p : McpParams) (params : JsonObject) : Json :=
  .object
    [field "protocolVersion"
        (.string ((params.getString (str "protocolVersion")).getD (str "2024-11-05"))),
      field "capabilities" (.object [field "tools" (.object [])]),
      field "serverInfo" (.object
        [field "name" (.string (str "vycor-cpp")), field "version" (.string p.version)])]

/-- `tools/list`. -/
def handleToolsList : Json :=
  .object [field "tools" (.array (getRegisteredTools.map fun tool =>
    .object [field "name" (.string tool.name), field "description" (.string tool.description),
      field "inputSchema" tool.inputSchema]))]

/-- What a tool sees of the server. -/
def toolContext (p : McpParams) (server : McpServer) : ToolContext :=
  { graph := server.graph, cfIndex := server.cfIndex, entryPoints := p.entryPoints
    channels := some server.channels, classifiers := p.classifiers, fixUTF8 := p.fixUTF8 }

/-- What a reindexing tells. -/
def reindexText (filePath : Str) (r : ReindexResult) : Str :=
  str "Reindexed " ++ filePath ++ str "\nEdges removed: " ++ decimalInt r.edgesRemoved
    ++ str ", total edges: " ++ decimalInt r.edgesAfter
    ++ str "\nContexts removed: " ++ decimalInt r.contextsRemoved
    ++ str ", total contexts: " ++ decimalInt r.contextsAfter

/-- The arguments of a call; anything but an object counts as none. -/
def callArguments (params : JsonObject) : JsonObject :=
  match params.get (str "arguments") with
  | some (.object args) => args
  | _ => []

/-- A tool with a handler, over the indexes and the cache. -/
def callTool (p : McpParams) (server : McpServer) (handler : ToolHandler) (args : JsonObject) :
    Json × McpServer :=
  let (payload, cache) := (handler args (server.toolContext p)).run (some server.queryCache)
  (wrapToolResult p.json payload, { server with queryCache := cache.getD {} })

/-- A missing name and an unknown tool give a result that is an error. -/
def handleToolsCall (p : McpParams) (server : McpServer) (params : JsonObject) :
    Json × McpServer :=
  match params.getString (str "name") with
  | none => (mcpTextResult (str "Missing 'name' field in tools/call request") true, server)
  | some toolName =>
    match getRegisteredTools.find? (·.name = toolName) with
    | none => (mcpTextResult (str "Unknown tool: " ++ toolName) true, server)
    | some tool =>
      let args := callArguments params
      if toolName = str "reindex_tu" then
        match args.getString (str "file") with
        | none => (mcpTextResult (str "Missing required 'file' argument") true, server)
        | some filePath =>
          if p.compDb.isNone then
            (mcpTextResult (str "reindex_tu unavailable: no compilation database") true, server)
          else
            let (r, server) := server.reindexTU p filePath
            (mcpTextResult (reindexText filePath r), server)
      else
        match tool.handler with
        | some handler => server.callTool p handler args
        -- only `reindex_tu` is registered without a handler
        | none => (.null, server)

/-- The methods the server knows; any other is an error. -/
def dispatch (p : McpParams) (server : McpServer) (io : Stdio) (req : McpRequest) :
    McpServer × Stdio :=
  if req.method = str "initialize" then
    (server, Mcp.writeResult p.json io req.id (handleInitialize p req.params))
  else if req.method = str "tools/list" then
    (server, Mcp.writeResult p.json io req.id handleToolsList)
  else if req.method = str "tools/call" then
    let (result, server) := server.handleToolsCall p req.params
    (server, Mcp.writeResult p.json io req.id result)
  else
    (server, Mcp.writeRaw p.json io
      (Mcp.errorMessage req.id kMethodNotFound (str "Unknown method: " ++ req.method)))

/-! ### The loop -/

def logged (io : Stdio) (verbose : Bool) (line : Str) : Stdio :=
  if verbose then { io with errLog := io.errLog ++ line } else io

/-- Notifications get no reply; one of them ends the handshake, the others do nothing. -/
def notified (p : McpParams) (server : McpServer) (io : Stdio) (req : McpRequest) :
    McpServer × Stdio :=
  if req.method = str "notifications/initialized" then
    ({ server with initialized := true },
      logged io p.verbose (str "megascope: client initialized\n"))
  else (server, io)

/-- One turn of the loop. -/
def turn (p : McpParams) (server : McpServer) (io : Stdio) (req : McpRequest) : McpServer × Stdio :=
  let io := logged io p.verbose (str "megascope: received method: " ++ req.method ++ str "\n")
  if req.isNotification then server.notified p io req else server.dispatch p io req

@[simp] theorem logged_input (io : Stdio) (verbose : Bool) (line : Str) :
    (logged io verbose line).input = io.input := by
  unfold logged
  split <;> rfl

theorem turn_input (p : McpParams) (server : McpServer) (io : Stdio) (req : McpRequest) :
    (server.turn p io req).2.input = io.input := by
  unfold turn notified dispatch Mcp.writeResult
  dsimp only
  split
  · split <;> simp
  · split
    · simp
    · split
      · simp
      · split <;> simp

/-- Read and answer until the input ends. -/
def serve (p : McpParams) (server : McpServer) (io : Stdio) : McpServer × Stdio :=
  match _h : Mcp.readRequest p.json io with
  | (none, io') => (server, io')
  | (some req, io') => serve p (server.turn p io' req).1 (server.turn p io' req).2
termination_by io.input.length
decreasing_by
  rw [turn_input]
  exact Mcp.readRequest_lt _h

/-- Serve until the input ends. -/
def run (p : McpParams) (server : McpServer) (io : Stdio) : McpServer × Stdio :=
  let io := logged io true (str "megascope: server started, waiting for requests...\n")
  let (server, io) := server.serve p io
  (server, logged io true (str "megascope: shutting down\n"))

end McpServer

end Vycor
