/-
What the query tools share: their context and cache, the serialization of records, and the
resolution of an identity parameter.

A tool takes the members of its request and a context.  A few keep results in the context's
cache, which may be absent; they are computations over it.
-/
import Vycor.Model.DeadCode
import Vycor.Model.Json
import Vycor.Model.PathTools
import Vycor.Model.Snapshot

namespace Vycor

/-! ### Context

A tool sees the indexes, the entry points and, where there is one, the cache.
Nothing else of a session reaches it.
-/

/-- What a guard classifier of the organization says about a guard. -/
structure GuardAnnotation where
  kind : Str
  name : Str

/-- The oracle of the source is the graph and the control-flow index. -/
structure ToolContext where
  graph : CallGraph
  cfIndex : ControlFlowIndex
  entryPoints : List Str
  /-- None when the session has no channel configuration. -/
  channels : Option ChannelIndex := none
  /-- The counts of the header, set by the one-shot verbs. -/
  summary : Option IndexSummary := none
  /-- The process-wide classifiers, in the order of their registration. -/
  classifiers : List (ConditionalGuard → Option GuardAnnotation) := []
  /-- What becomes of a string that is not UTF-8 when it is made a JSON value. -/
  fixUTF8 : Str → Str

/-- A string of the graph, repaired where it is no UTF-8. -/
def ToolContext.string (ctx : ToolContext) (s : Str) : Json := jsonString ctx.fixUTF8 s

def ToolContext.strings (ctx : ToolContext) (l : List Str) : Json := jsonStrings ctx.fixUTF8 l

/-- An entry of the lowercased name index. -/
structure SearchEntry where
  lowerQualified : Str
  /-- Where the unqualified name starts in it. -/
  unqualifiedOffset : Nat
  node : CallGraphNode

/-- What a tool keeps from one request to the next. -/
inductive CachedObject
  | searchIndex (index : List SearchEntry)
  | liveness (results : UMap Str Liveness)

/-- The replies kept by key, and the objects. -/
structure QueryCache where
  byKey : UMap Str Json := ∅
  objects : UMap Str CachedObject := ∅

/-- A computation over the cache of the context, where there is one. -/
abbrev Query := StateM (Option QueryCache)

/-- The result under a key, computed and kept when it is not there. -/
def cachedResult (key : Str) (compute : Query Json) : Query Json := do
  match (← get).bind (·.byKey.lookup key) with
  | some out => return out
  | none =>
    let out ← compute
    modify (·.map fun cache => { cache with byKey := cache.byKey.insert key out })
    return out

/-- The object under a key, kept when it is not there. -/
def cachedObject {α : Type} (key : Str) (pick : CachedObject → Option α)
    (wrap : α → CachedObject) (built : α) : Query α := do
  match (← get).bind fun cache => (cache.objects.lookup key).bind pick with
  | some found => return found
  | none =>
    modify (·.map fun cache => { cache with objects := cache.objects.insert key (wrap built) })
    return built

/-! ### Serialization

What comes out of the indexes may be in any encoding, so that every string of a record is made a
JSON value by way of `fixUTF8`; the names of enumerators are ASCII. -/

variable (fixUTF8 : Str → Str)

def edgeKindToString : EdgeKind → Str
  | .directCall => str "DirectCall"
  | .virtualDispatch => str "VirtualDispatch"
  | .functionPointer => str "FunctionPointer"
  | .constructorCall => str "ConstructorCall"
  | .destructorCall => str "DestructorCall"
  | .operatorCall => str "OperatorCall"
  | .templateInstantiation => str "TemplateInstantiation"
  | .lambdaCall => str "LambdaCall"
  | .threadEntry => str "ThreadEntry"
  | .functionPointerReturn => str "FunctionPointerReturn"
  | .unnamed _ _ => str "Unknown"

def executionContextToString : ExecutionContext → Str
  | .synchronous => str "Synchronous"
  | .threadSpawn => str "ThreadSpawn"
  | .asyncTask => str "AsyncTask"
  | .packagedTask => str "PackagedTask"
  | .invoke => str "Invoke"
  | .unnamed _ _ => str "Synchronous"

def parseExecutionContext (s : Str) : Option ExecutionContext :=
  [ExecutionContext.synchronous, .threadSpawn, .asyncTask, .packagedTask, .invoke].find?
    (executionContextToString · = s)

def confidenceToString : Confidence → Str
  | .Proven => str "Proven"
  | .Plausible => str "Plausible"
  | .Unknown => str "Unknown"
  | .unnamed _ _ => str "Unknown"

/-- A name that is none of the kinds stands for a direct call. -/
def parseEdgeKind (s : Str) : EdgeKind :=
  (([EdgeKind.directCall, .virtualDispatch, .functionPointer, .constructorCall, .destructorCall,
    .operatorCall, .templateInstantiation, .lambdaCall, .threadEntry].find?
      (edgeKindToString · = s))).getD .directCall

def parseConfidence (s : Str) : Confidence :=
  if s = str "Proven" then .Proven else if s = str "Plausible" then .Plausible else .Unknown

/-- An edge with both its ends. -/
def edgeToJson (e : CallGraphEdge) : Json :=
  .object <|
    [field "callerName" (jsonString fixUTF8 e.callerName),
      field "calleeName" (jsonString fixUTF8 e.calleeName),
      field "kind" (.string (edgeKindToString e.kind)),
      field "confidence" (.string (confidenceToString e.confidence)),
      field "callSite" (jsonString fixUTF8 e.callSite)]
    ++ fieldIf (e.indirectionDepth > 0) "indirectionDepth" (.ofNat e.indirectionDepth.toNat)
    ++ fieldIf (e.execContext ≠ .synchronous) "executionContext"
      (.string (executionContextToString e.execContext))

def channelOperationToString (op : ChannelOperation) : Str :=
  if op = .produce then str "produce" else str "consume"

/-- The first classifier that recognizes the guard. -/
def classifyGuard (ctx : ToolContext) (g : ConditionalGuard) : Option GuardAnnotation :=
  ctx.classifiers.findSome? (· g)

def serializeGuard (ctx : ToolContext) (g : ConditionalGuard) : Json :=
  .object <|
    [field "conditionText" (ctx.string g.conditionText), field "location" (ctx.string g.location),
      field "inTrueBranch" (.bool g.inTrueBranch), field "isAssertion" (.bool g.isAssertion)]
    ++ match classifyGuard ctx g with
      | some ann =>
        [field "annotation"
          (.object [field "kind" (ctx.string ann.kind), field "name" (ctx.string ann.name)])]
      | none => []

def serializeHandler (h : CatchHandlerInfo) : Json :=
  .object
    [field "caughtType" (jsonString fixUTF8 h.caughtType), field "isCatchAll" (.bool h.isCatchAll),
      field "location" (jsonString fixUTF8 h.location),
      field "body" (jsonString fixUTF8 h.bodySummary)]

def serializeTryCatchScope (scope : TryCatchScope) : Json :=
  .object
    [field "tryLocation" (jsonString fixUTF8 scope.tryLocation),
      field "enclosingFunction" (jsonString fixUTF8 scope.enclosingFunction),
      field "nestingDepth" (.ofNat scope.nestingDepth.toNat),
      field "handlers" (.array (scope.handlers.map (serializeHandler fixUTF8)))]

def raiiKindToString : RaiiKind → Str
  | .lock => str "lock"
  | .smartPtr => str "smart_ptr"
  | .other => str "other"
  | .unnamed _ _ => str "other"

def serializeRaiiLocal (l : RaiiLocal) : Json :=
  .object
    [field "typeName" (jsonString fixUTF8 l.typeName),
      field "varName" (jsonString fixUTF8 l.varName),
      field "declLocation" (jsonString fixUTF8 l.declLocation),
      field "kind" (.string (raiiKindToString l.kind))]

def serializeChannelSite (ctx : ToolContext) (s : ChannelSite) : Json :=
  .object
    [field "channelId" (ctx.string s.channelId), field "channelType" (ctx.string s.channelTypeName),
      field "category" (ctx.string s.category),
      field "operation" (.string (channelOperationToString s.op)),
      field "function" (ctx.string s.siteFunctionDisplay),
      field "functionUsr" (ctx.string s.siteFunctionUsr), field "callSite" (ctx.string s.callSite),
      field "guards" (.array (s.enclosingGuards.map (serializeGuard ctx)))]

/-! ### Identities

A request may mean a function by its usr, by a call site, or by a name and a
filter. Where that leaves several, the response lists them instead of choosing.
-/

/-- Candidate-list cap for disambiguation responses. -/
def kMaxAmbiguousCandidates : Nat := 25

/-- A function that a name may stand for. -/
def candidateToJson (g : CallGraph) (name usr : Str) : Json :=
  .object <| field "usr" (jsonString fixUTF8 usr) ::
    match g.findNode usr with
    | some node =>
      [field "qualifiedName" (jsonString fixUTF8 node.qualifiedName),
        field "file" (jsonString fixUTF8 node.file),
        field "line" (.ofNat node.line.toNat)]
    | none => [field "qualifiedName" (jsonString fixUTF8 name)]

/-- How many of the candidates lie in each file, by file. -/
def candidatesByFile (g : CallGraph) (usrs : List Str) : List Json :=
  let files := (usrs.filterMap g.findNode).map (·.file)
  (strSet files).map fun file =>
    .object [field "file" (jsonString fixUTF8 file), field "count" (.ofNat (files.count file))]

/-- What the reply to an ambiguous name says. -/
def ambiguousNote (total : Nat) (filterNote : Str) : Str :=
  str "Multiple functions share this name. Re-run with the 'usr' parameter "
    ++ str "of the intended candidate, or narrow with 'site' (a call-site "
    ++ str "'file:line:col' resolves to the exact overload/instantiation called "
    ++ str "there) or 'filter' (a literal substring matched against candidate "
    ++ str "usr/name/file — not type-aware)."
    ++ (if kMaxAmbiguousCandidates < total then
        str " Candidate list truncated to " ++ decimalInt kMaxAmbiguousCandidates ++ str " of "
          ++ decimalInt total ++ str "."
      else [])
    ++ (if filterNote = [] then [] else str " " ++ filterNote)

/-- The response to a name that several functions share; not an error. -/
def makeAmbiguousNameResult (g : CallGraph) (paramName name : Str) (usrs : List Str)
    (filterNote : Str := []) : Json :=
  let usrs := sortStrs usrs
  let total := usrs.length
  .object <|
    [field "ambiguous" (.bool true), field "parameter" (jsonString fixUTF8 paramName),
      field "name" (jsonString fixUTF8 name), field "total_candidates" (.ofNat total),
      field "candidates"
        (.array ((usrs.take kMaxAmbiguousCandidates).map (candidateToJson fixUTF8 g name)))]
    ++ fieldIf (kMaxAmbiguousCandidates < total) "truncated" (.bool true)
    ++ fieldIf (kMaxAmbiguousCandidates < total) "candidates_by_file"
      (.array (candidatesByFile fixUTF8 g usrs))
    ++ [field "note" (jsonString fixUTF8 (ambiguousNote total filterNote))]

/-- "usr" becomes "site" or "filter", "to_usr" becomes "to_site", and so on. -/
def companionParam (usrParam suffix : Str) : Str :=
  (if (str "usr").isSuffixOf usrParam then usrParam.take (usrParam.length - 3) else usrParam)
    ++ suffix

/-- An identity, the response to an ambiguous one, or none given. -/
inductive Resolved
  | identity (usr : Str)
  | response (out : Json)
  | missing

/-- The functions called at a spelling: macro expansion can stack several contexts there. -/
def calleesAtSite (cf : ControlFlowIndex) (site : Str) : List Str :=
  strSet ((cf.contextsAtSite site).map fun c =>
    if c.calleeUsr = [] then c.calleeName else c.calleeUsr)

def noCallSite (site : Str) : Json :=
  errorResult (str "No call site found at '" ++ site
    ++ str "' (expected 'file:line:col' as spelled in the compile command; "
    ++ str "use query_call_site_context to inspect a site).")

/-- The function called at a site. -/
def resolveSite (ctx : ToolContext) (usrParam : Str) (name : Option Str) (site : Str) :
    Resolved :=
  match calleesAtSite ctx.cfIndex site with
  | [] => .response (noCallSite site)
  | first :: others =>
    let callees := first :: others
    let agreeing := match name with
      | none => callees
      | some name => callees.filter (· ∈ name :: ctx.graph.usrsForName name)
    match agreeing with
    | [] =>
      .response (errorResult (str "Call site '" ++ site ++ str "' does not call '"
        ++ name.getD [] ++ str "' (it calls: " ++ first
        ++ (if others = [] then [] else str ", ...") ++ str ")."))
    | [only] => .identity only
    | several =>
      .response (makeAmbiguousNameResult ctx.fixUTF8 ctx.graph usrParam (name.getD site) several
        (str "Several distinct functions are called at this spelling "
          ++ str "(macro-expanded call site)."))

/-- A literal substring of the candidate's usr, or of its node's name or file. -/
def matchesFilter (g : CallGraph) (filter usr : Str) : Bool :=
  strContains usr filter ||
    match g.findNode usr with
    | some node => strContains node.qualifiedName filter || strContains node.file filter
    | none => false

/-- The function of a name, if it is one function. -/
def resolveName (g : CallGraph) (nameParam name : Str) (filter : Option Str) : Resolved :=
  match g.usrsForName name with
  | [] => .identity name
  | [usr] => .identity usr
  | usrs =>
    match filter with
    | none => .response (makeAmbiguousNameResult fixUTF8 g nameParam name usrs)
    | some filter =>
      match usrs.filter (matchesFilter g filter) with
      | [usr] => .identity usr
      | [] =>
        .response (makeAmbiguousNameResult fixUTF8 g nameParam name usrs
          (str "The filter '" ++ filter
            ++ str "' matched no candidate; showing the unfiltered set."))
      | kept =>
        .response (makeAmbiguousNameResult fixUTF8 g nameParam name kept
          (str "Candidates already narrowed by filter '" ++ filter ++ str "'."))

/-- A usr is taken verbatim; else a call site gives its callee; else the name is looked up. -/
def resolveIdentity (args : JsonObject) (ctx : ToolContext) (nameParam usrParam : Str) :
    Resolved :=
  match args.getString usrParam with
  | some usr => .identity usr
  | none =>
    let name := args.getString nameParam
    match args.getString (companionParam usrParam (str "site")) with
    | some site => resolveSite ctx usrParam name site
    | none =>
      match name with
      | none => .missing
      | some name =>
        resolveName ctx.fixUTF8 ctx.graph nameParam name
          (args.getString (companionParam usrParam (str "filter")))

/-- The usr of the node an identity names, when it is registered. -/
def attachUsr (g : CallGraph) (ident : Str) (key : String) : JsonObject :=
  match g.findNode ident with
  | some node => [field key (jsonString fixUTF8 node.usr)]
  | none => []

/-- A tool that takes one identity: it answers an ambiguous or a missing one itself. -/
def withIdentity (args : JsonObject) (ctx : ToolContext) (nameParam usrParam : Str)
    (answer : Str → Json) : Json :=
  match resolveIdentity args ctx nameParam usrParam with
  | .identity ident => answer ident
  | .response out => out
  | .missing =>
    errorResult (str "Missing required parameter '" ++ nameParam ++ str "' (or '" ++ usrParam
      ++ str "')")

/-- The entry points of a request, else those of the session. -/
def entryPointsArg (args : JsonObject) (ctx : ToolContext) : List Str :=
  let entryPoints := args.getStrings (str "entry_points")
  if entryPoints = [] then ctx.entryPoints else entryPoints

end Vycor
