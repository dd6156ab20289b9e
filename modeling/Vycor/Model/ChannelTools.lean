/-
The channel tools.
-/
import Vycor.Model.Tools

namespace Vycor

/-! ### list_channels -/

variable (fixUTF8 : Str → Str)

/-- A channel with its type and its counts. -/
def channelToJson (ch : ChannelIndex) (id : Str) : Json :=
  let producers := ch.producersOf id
  let consumers := ch.consumersOf id
  .object <| field "channelId" (jsonString fixUTF8 id) ::
    (match (producers ++ consumers).head? with
      | some sample =>
        [field "channelType" (jsonString fixUTF8 sample.channelTypeName),
          field "category" (jsonString fixUTF8 sample.category)]
      | none => [])
    ++ [field "producerCount" (.ofNat producers.length),
      field "consumerCount" (.ofNat consumers.length)]

/-- `list_channels`. -/
def handleListChannels (_args : JsonObject) (ctx : ToolContext) : Json :=
  let channels := match ctx.channels with
    | some ch => ch.allChannelIds.map (channelToJson ctx.fixUTF8 ch)
    | none => []
  .object [field "count" (.ofNat channels.length), field "channels" (.array channels)]

/-! ### query_channel -/

def noChannelIndex : Json :=
  errorResult (str "No channel index loaded (server started without --channel-types-json)")

/-- `query_channel`. -/
def handleQueryChannel (args : JsonObject) (ctx : ToolContext) : Json :=
  match args.getString (str "channel_id"), ctx.channels with
  | none, _ => errorResult (str "Requires 'channel_id' (from list_channels)")
  | some _, none => noChannelIndex
  | some channelId, some ch =>
    let producers := ch.producersOf channelId
    let consumers := ch.consumersOf channelId
    if producers = [] ∧ consumers = [] then
      errorResult (str "No channel found with id '" ++ channelId ++ str "'")
    else
      .object
        [field "channelId" (ctx.string channelId),
          field "producers" (.array (producers.map (serializeChannelSite ctx))),
          field "consumers" (.array (consumers.map (serializeChannelSite ctx)))]

/-! ### query_channels_for_function -/

/-- `query_channels_for_function`. -/
def handleQueryChannelsForFunction (args : JsonObject) (ctx : ToolContext) : Json :=
  match args.getString (str "function") with
  | none => errorResult (str "Requires 'function' (qualified name or usr)")
  | some function =>
    let sites := match ctx.channels with
      | some ch => (ch.sitesForFunction function).map (serializeChannelSite ctx)
      | none => []
    .object
      [field "function" (ctx.string function), field "count" (.ofNat sites.length),
        field "sites" (.array sites)]

/-! ### explain_ordering

The walk goes up the callers from a channel site until it meets calls that start
a thread, an invocation or the like. It is bounded, and says so when it stops
early.
-/

/-- A call that starts another execution context: by whom, of what, in which context and
where. -/
structure ConcurrencyBoundary where
  spawner : Str
  target : Str
  executionContext : Str
  callSite : Str

/-- The limit on the functions that a walk meets. -/
def kMaxBoundaryWalkNodes : Nat := 2000

/-- The functions met so far, in order; `next` of them have been looked at. -/
structure BoundaryWalk where
  queue : List Str
  next : Nat := 0
  found : List ConcurrencyBoundary := []

/-- A caller that spawns is a boundary; a synchronous one is walked on from, once. -/
def visitBoundary (walk : BoundaryWalk) (e : CallGraphEdge) : BoundaryWalk :=
  if e.execContext ≠ .synchronous then
    { walk with
      found := walk.found ++
        [{ spawner := e.callerName, target := e.calleeName
           executionContext := executionContextToString e.execContext, callSite := e.callSite }] }
  else { walk with queue := Dedup.pushUnique walk.queue e.callerName }

/-- The loop stops when the queue has run through or has grown to the limit. -/
def walkBoundaries (g : CallGraph) : Nat → BoundaryWalk → BoundaryWalk
  | 0, walk => walk
  | fuel + 1, walk =>
    match walk.queue[walk.next]? with
    | none => walk
    | some cur =>
      if kMaxBoundaryWalkNodes ≤ walk.queue.length then walk
      else
        walkBoundaries g fuel
          ((g.callersOf cur).foldl visitBoundary { walk with next := walk.next + 1 })

/-- Fewer than the limit are looked at, so the limit is fuel enough. -/
def findConcurrencyBoundaries (g : CallGraph) (functionUsrOrName : Str) :
    List ConcurrencyBoundary :=
  (walkBoundaries g kMaxBoundaryWalkNodes { queue := [functionUsrOrName] }).found

/-- The first live site at the call site. -/
def findChannelSiteAt (ch : ChannelIndex) (callSite : Str) : Option ChannelSite :=
  ch.allSites.find? (·.callSite = callSite)

/-- A boundary in a response. -/
def boundaryToJson (b : ConcurrencyBoundary) : Json :=
  .object
    [field "spawner" (jsonString fixUTF8 b.spawner), field "target" (jsonString fixUTF8 b.target),
      field "executionContext" (jsonString fixUTF8 b.executionContext),
      field "callSite" (jsonString fixUTF8 b.callSite)]

def orderingNote : Str :=
  str "sameChannel=false, together with differing guard conditions on "
    ++ str "siteA/siteB, proves the two sends are not guaranteed to be routed "
    ++ str "the same way. concurrencyBoundaries* lists ThreadEntry/AsyncTask/"
    ++ str "PackagedTask/Invoke edges found walking backward from each site's "
    ++ str "enclosing function toward entry points (within "
    ++ decimalInt kMaxBoundaryWalkNodes
    ++ str " nodes). An EMPTY list is absence of evidence in the visible call "
    ++ str "graph, not proof of synchronous execution: it means no enforced "
    ++ str "ordering was found structurally, not that a race is proven."

def orderingToJson (ctx : ToolContext) (siteA siteB : ChannelSite) : Json :=
  .object
    [field "sameChannel" (.bool (siteA.channelId = siteB.channelId)),
      field "siteA" (serializeChannelSite ctx siteA),
      field "siteB" (serializeChannelSite ctx siteB),
      field "concurrencyBoundariesA"
        (.array ((findConcurrencyBoundaries ctx.graph siteA.siteFunctionUsr).map
          (boundaryToJson ctx.fixUTF8))),
      field "concurrencyBoundariesB"
        (.array ((findConcurrencyBoundaries ctx.graph siteB.siteFunctionUsr).map
          (boundaryToJson ctx.fixUTF8))),
      field "note" (.string orderingNote)]

def noChannelSite (callSite : Str) : Json :=
  errorResult (str "No channel site indexed at '" ++ callSite ++ str "'")

/-- `explain_ordering`. -/
def handleExplainOrdering (args : JsonObject) (ctx : ToolContext) : Json :=
  match args.getString (str "call_site_a"), args.getString (str "call_site_b") with
  | some siteAArg, some siteBArg =>
    match ctx.channels with
    | none => noChannelIndex
    | some ch =>
      match findChannelSiteAt ch siteAArg, findChannelSiteAt ch siteBArg with
      | none, _ => noChannelSite siteAArg
      | _, none => noChannelSite siteBArg
      | some siteA, some siteB => orderingToJson ctx siteA siteB
  | _, _ =>
    errorResult (str "Requires 'call_site_a' and 'call_site_b' (file:line:col, from "
      ++ str "query_channel or query_channels_for_function)")

end Vycor
