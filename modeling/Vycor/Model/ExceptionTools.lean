/-
The tools that read call-site contexts: exception safety, call sites, RAII scopes.
-/
import Vycor.Model.ControlFlowOracle
import Vycor.Model.Tools

namespace Vycor

open ControlFlowOracle (Protection PathInfo ExceptionPathResult NearestCatchInfo)

/-- The word for a verdict. -/
def protectionToStr : Protection → Str
  | .alwaysCaught => str "always_caught"
  | .sometimesCaught => str "sometimes_caught"
  | .neverCaught => str "never_caught"
  | .noexceptBarrier => str "noexcept_barrier"
  | .unknown => str "unknown"

/-- The function as the request names it, with the usr it resolved to. -/
def functionFields (args : JsonObject) (ctx : ToolContext) (ident : Str) : JsonObject :=
  field "function" (ctx.string ((args.getString (str "function")).getD ident))
    :: attachUsr ctx.fixUTF8 ctx.graph ident "usr"

/-- The type asked about; the empty name when none is given. -/
def exceptionTypeArg (args : JsonObject) : Str :=
  (args.getString (str "exception_type")).getD []

/-! ### query_exception_safety -/

/-- `query_exception_safety`. -/
def handleQueryExceptionSafety (args : JsonObject) (ctx : ToolContext) : Json :=
  withIdentity args ctx (str "function") (str "usr") fun ident =>
    let result := ControlFlowOracle.queryExceptionProtection ctx.graph ctx.cfIndex ident
      (exceptionTypeArg args) (entryPointsArg args ctx)
    .object <| functionFields args ctx ident ++
      [field "protection" (.string (protectionToStr result.protection)),
        field "totalPaths" (.ofNat result.paths.length), field "summary" (ctx.string result.summary),
        field "caughtPaths" (.ofNat (result.paths.countP (·.isCaught))),
        field "uncaughtPaths" (.ofNat (result.paths.countP (!·.isCaught)))]

/-! ### Call sites

A request names a spelling, and perhaps a caller. Several contexts at one
spelling and no caller make an ambiguity response instead of an answer.
-/

variable (fixUTF8 : Str → Str)

/-- One of the callers that share a site. -/
def siteCandidateToJson (c : CallSiteContext) : Json :=
  .object
    [field "callSite" (jsonString fixUTF8 c.callSite),
      field "callerUsr" (jsonString fixUTF8 c.callerUsr),
      field "callerName" (jsonString fixUTF8 c.callerName)]

/-- Several contexts share the spelling, and the request names no caller. -/
def makeAmbiguousSiteResult (callSite : Str) (contexts : List CallSiteContext) : Json :=
  let contexts := contexts.mergeSort fun a b => !decide (b.callerUsr < a.callerUsr)
  .object
    [field "ambiguous" (.bool true), field "parameter" (.string (str "caller")),
      field "callSite" (jsonString fixUTF8 callSite),
      field "candidates" (.array (contexts.map (siteCandidateToJson fixUTF8))),
      field "note" (.string (str "Multiple call sites share this spelling (macro expansion). "
        ++ str "Re-run with the 'caller' parameter (USR or qualified name) "
        ++ str "of the intended enclosing function."))]

def callSiteNotIndexed (callSite : Str) : Json :=
  errorResult (str "Call site not indexed: '" ++ callSite
    ++ str "'. Ensure the path matches the compilation database "
    ++ str "canonicalization (typically an absolute path).")

/-- The context of a site: the caller's, or the only one. -/
def resolveCallSiteContext (args : JsonObject) (ctx : ToolContext) (callSite : Str) :
    Except Json CallSiteContext :=
  match args.getString (str "caller") with
  | some caller =>
    match ctx.cfIndex.contextAtSiteOf callSite caller with
    | some found => .ok found
    | none => .error (callSiteNotIndexed callSite)
  | none =>
    match ctx.cfIndex.contextsAtSite callSite with
    | [] => .error (callSiteNotIndexed callSite)
    | [found] => .ok found
    | contexts => .error (makeAmbiguousSiteResult ctx.fixUTF8 callSite contexts)

def isDigits (s : Str) : Bool := s ≠ [] && s.all fun b => 48 ≤ b && b ≤ 57

/-- "file:line:col", split at the last two colons; the file may not be empty. -/
def validSite (raw : Str) : Bool :=
  let reversed := raw.reverse
  let column := reversed.takeWhile (· ≠ 58)
  let rest := reversed.drop (column.length + 1)
  let line := rest.takeWhile (· ≠ 58)
  column.length < raw.length && line.length + 1 < rest.length && isDigits line && isDigits column

/-- `query_call_site_context`. -/
def handleQueryCallSiteContext (args : JsonObject) (ctx : ToolContext) : Json :=
  match args.getString (str "call_site") with
  | none => errorResult (str "Missing required parameter 'call_site'")
  | some raw =>
    if !validSite raw then
      errorResult (str "Invalid call_site format: expected 'file:line:col' (e.g. "
        ++ str "'src/foo.cpp:12:3'), got '" ++ raw ++ str "'")
    else
      match resolveCallSiteContext args ctx raw with
      | .error out => out
      | .ok rawCtx =>
        .object
          [field "callSite" (ctx.string rawCtx.callSite),
            field "caller" (ctx.string rawCtx.callerName),
            field "callerUsr" (ctx.string rawCtx.callerUsr),
            field "callee" (ctx.string rawCtx.calleeName),
            field "isUnderTryCatch" (.bool (rawCtx.enclosingTryCatches ≠ [])),
            field "wouldTerminateIfThrows" (.bool (rawCtx.callerNoexcept = .noexcept)),
            field "enclosingScopeCount" (.ofNat rawCtx.enclosingTryCatches.length),
            field "enclosingGuardCount" (.ofNat rawCtx.enclosingGuards.length),
            field "liveRaiiLocalsCount" (.ofNat rawCtx.liveRaiiLocals.length),
            field "enclosingScopes"
              (.array (rawCtx.enclosingTryCatches.map (serializeTryCatchScope ctx.fixUTF8))),
            field "enclosingGuards" (.array (rawCtx.enclosingGuards.map (serializeGuard ctx)))]

/-! ### query_raii_scopes_at_callsite -/

/-- A kind by its name in a request. -/
def parseRaiiKind (s : Str) : Except Str RaiiKind :=
  match [RaiiKind.lock, .smartPtr, .other].find? (raiiKindToString · = s) with
  | some kind => .ok kind
  | none =>
    .error (str "Invalid value in kinds: '" ++ s
      ++ str "' (expected lock, smart_ptr, or other)")

/-- `query_raii_scopes_at_callsite`. -/
def handleQueryRaiiScopesAtCallsite (args : JsonObject) (ctx : ToolContext) : Json :=
  match args.getString (str "call_site") with
  | none => errorResult (str "Missing required parameter 'call_site'")
  | some callSite =>
    match (args.getStrings (str "kinds")).mapM parseRaiiKind with
    | .error err => errorResult err
    | .ok allowed =>
      match resolveCallSiteContext args ctx callSite with
      | .error out => out
      | .ok csCtx =>
        .object
          [field "callSite" (ctx.string callSite), field "caller" (ctx.string csCtx.callerName),
            field "callerUsr" (ctx.string csCtx.callerUsr),
            field "callee" (ctx.string csCtx.calleeName),
            field "locals"
              (.array ((csCtx.liveRaiiLocals.filter fun l => allowed = [] || l.kind ∈ allowed).map
                (serializeRaiiLocal ctx.fixUTF8)))]

/-! ### Paths -/

/-- A path with the scopes and guards on it. -/
def serializePathInfo (ctx : ToolContext) (p : PathInfo) : Json :=
  .object <|
    [field "callChain" (ctx.strings p.callChain), field "isCaught" (.bool p.isCaught)]
    ++ fieldIf (p.isCaught = true) "caughtAt" (ctx.string p.caughtAt)
    ++ fieldIf (p.isCaught = true) "caughtBy" (ctx.string p.caughtBy)
    ++ [field "tryCatchesOnPath"
        (.array (p.tryCatchesOnPath.map (serializeTryCatchScope ctx.fixUTF8))),
      field "guardsOnPath" (.array (p.guardsOnPath.map (serializeGuard ctx)))]

def serializePaths (ctx : ToolContext) (paths : List PathInfo) : Json :=
  .array (paths.map (serializePathInfo ctx))

/-- `query_throw_propagation`. -/
def handleQueryThrowPropagation (args : JsonObject) (ctx : ToolContext) : Json :=
  withIdentity args ctx (str "function") (str "usr") fun ident =>
    let result := ControlFlowOracle.queryThrowPropagation ctx.graph ctx.cfIndex ident
      (exceptionTypeArg args) (entryPointsArg args ctx)
    .object <| functionFields args ctx ident ++
      [field "exceptionType" (ctx.string (exceptionTypeArg args)),
        field "protection" (.string (protectionToStr result.protection)),
        field "totalPaths" (.ofNat result.paths.length), field "summary" (ctx.string result.summary),
        field "paths" (serializePaths ctx result.paths)]

/-- The number of paths is cast to 32 bits after the check. -/
def handleQueryAllPathContexts (args : JsonObject) (ctx : ToolContext) : Json :=
  withIdentity args ctx (str "function") (str "usr") fun ident =>
    let requested := (args.getInteger (str "max_paths")).getD 100
    if requested ≤ 0 then errorResult (str "Invalid max_paths: must be positive")
    else
      let maxPaths := (requested % 2 ^ 32).toNat
      let paths := ControlFlowOracle.queryAllPathContexts ctx.graph ctx.cfIndex ident
        (entryPointsArg args ctx) maxPaths
      .object <| functionFields args ctx ident ++
        [field "totalPaths" (.ofNat paths.length), field "maxPaths" (.ofNat maxPaths),
          field "paths" (serializePaths ctx paths)]

/-- A catch with how far up it is. -/
def catchToJson (c : NearestCatchInfo) : Json :=
  .object
    [field "framesFromTarget" (.ofNat c.framesFromTarget),
      field "pathSegment" (jsonStrings fixUTF8 c.pathSegment),
      field "scope" (serializeTryCatchScope fixUTF8 c.scope)]

/-- `query_nearest_catches`. -/
def handleQueryNearestCatches (args : JsonObject) (ctx : ToolContext) : Json :=
  withIdentity args ctx (str "function") (str "usr") fun ident =>
    .object <| functionFields args ctx ident ++
      [field "catches"
        (.array ((ControlFlowOracle.queryNearestCatches ctx.graph ctx.cfIndex ident).map
          (catchToJson ctx.fixUTF8)))]

end Vycor
