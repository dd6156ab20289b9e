/-
The cache of a running server.

Three tools keep results, each under keys of its own, and a reindex empties the cache before the
indexes change.  So what is kept was computed from the indexes as they are, and every reply of a
session is the one of a server that keeps nothing.  Only the keys of `analyze_dead_code` do not
tell all requests apart; of it the same holds while the requests between two reindexes have keys
apart.
-/
import Vycor.Proofs.DeadCodeCache
import Vycor.Proofs.ServerSession

namespace Vycor

open DeadCodeAnalyzer Memo

/-! ### Kept results and other keys

The cache is one map for results of several tools, so that what one tool keeps
must not be taken by another: their keys begin differently.
-/

/-- Two caches that differ at most in the summary and in the search index. -/
structure SameDeadCode (cache cache' : QueryCache) : Prop where
  byKey : ∀ k, k ≠ str "graph_summary" → cache.byKey.lookup k = cache'.byKey.lookup k
  objects : ∀ k, k ≠ str "search_index" → cache.objects.lookup k = cache'.objects.lookup k

/-- What a computation leaves of the two. -/
structure Spared (cache cache' : QueryCache) : Prop where
  byKey : cache'.byKey.lookup (str "graph_summary") = cache.byKey.lookup (str "graph_summary")
  objects : cache'.objects.lookup (str "search_index") = cache.objects.lookup (str "search_index")

/-- A computation that does not look at the summary and the search index. -/
def Blind {α : Type} (compute : Query α) : Prop :=
  ∀ cache cache' : QueryCache, SameDeadCode cache cache' →
    ∃ out after after', compute.run (some cache) = (out, some after) ∧
      compute.run (some cache') = (out, some after') ∧ SameDeadCode after after' ∧
      Spared cache after ∧ Spared cache' after'

theorem Spared.refl (cache : QueryCache) : Spared cache cache := ⟨rfl, rfl⟩

theorem Blind.andThen {α β : Type} {compute : Query α} (h : Blind compute) (f : α → β) :
    Blind (do return f (← compute) : Query β) := by
  intro cache cache' hsame
  obtain ⟨out, after, after', hrun, hrun', hrest⟩ := h cache cache' hsame
  refine ⟨f out, after, after', ?_, ?_, hrest⟩
  · rw [StateT.run_bind]
    exact congrArg (fun r => (StateT.run (pure (f r.1)) r.2 : Id _)) hrun
  · rw [StateT.run_bind]
    exact congrArg (fun r => (StateT.run (pure (f r.1)) r.2 : Id _)) hrun'

theorem Blind.cachedResult {key : Str} (hkey : key ≠ str "graph_summary") {compute : Query Json}
    (h : Blind compute) : Blind (cachedResult key compute) := by
  intro cache cache' hsame
  have hlookup := hsame.byKey key hkey
  cases hfind : cache.byKey.lookup key with
  | some out =>
      rw [hfind] at hlookup
      exact ⟨out, cache, cache', cachedResult_hit hfind, cachedResult_hit hlookup.symm, hsame,
        .refl cache, .refl cache'⟩
  | none =>
      rw [hfind] at hlookup
      obtain ⟨out, after, after', hrun, hrun', hafter, hspared, hspared'⟩ := h cache cache' hsame
      refine ⟨out, _, _, cachedResult_miss hfind hrun, cachedResult_miss hlookup.symm hrun',
        ⟨?_, hafter.objects⟩, ⟨?_, hspared.objects⟩, ⟨?_, hspared'.objects⟩⟩
      · intro k hk
        rw [UMap.lookup_insert_ite, UMap.lookup_insert_ite, hafter.byKey k hk]
      · rw [UMap.lookup_insert_ite, if_neg hkey.symm]
        exact hspared.byKey
      · rw [UMap.lookup_insert_ite, if_neg hkey.symm]
        exact hspared'.byKey

theorem cachedObject_rebuilt {α : Type} {key : Str} {pick : CachedObject → Option α}
    {wrap : α → CachedObject} {built : α} {cache : QueryCache}
    (h : (cache.objects.lookup key).bind pick = none) :
    (cachedObject key pick wrap built).run (some cache)
      = (built, some { cache with objects := cache.objects.insert key (wrap built) }) := by
  unfold cachedObject
  simp [h]
  rfl

theorem blind_cachedObject {α : Type} {key : Str} (hkey : key ≠ str "search_index")
    (pick : CachedObject → Option α) (wrap : α → CachedObject) (built : α) :
    Blind (cachedObject key pick wrap built) := by
  intro cache cache' hsame
  have hlookup := hsame.objects key hkey
  cases hfind : (cache.objects.lookup key).bind pick with
  | some found =>
      obtain ⟨kept, hkept, hpick⟩ := Option.bind_eq_some_iff.mp hfind
      exact ⟨found, cache, cache', cachedObject_hit hkept hpick,
        cachedObject_hit (hlookup ▸ hkept) hpick, hsame, .refl cache, .refl cache'⟩
  | none =>
      have hfind' : (cache'.objects.lookup key).bind pick = none := hlookup ▸ hfind
      refine ⟨built, _, _, cachedObject_rebuilt hfind, cachedObject_rebuilt hfind',
        ⟨hsame.byKey, ?_⟩, ⟨rfl, ?_⟩, ⟨rfl, ?_⟩⟩
      · intro k hk
        rw [UMap.lookup_insert_ite, UMap.lookup_insert_ite, hsame.objects k hk]
      · rw [UMap.lookup_insert_ite, if_neg hkey.symm]
      · rw [UMap.lookup_insert_ite, if_neg hkey.symm]

theorem fullKey_ne_summary (a : DeadCodeArgs) : fullKey a ≠ str "graph_summary" := by
  intro h
  have hhead := congrArg List.head? h
  simp only [fullKey, List.append_assoc] at hhead
  have hfirst : some (100 : UInt8) = some 103 := hhead
  exact absurd hfirst (by decide)

theorem livenessKey_ne_search (a : DeadCodeArgs) : livenessKey a ≠ str "search_index" := by
  intro h
  have hhead := congrArg List.head? h
  simp only [livenessKey, List.append_assoc] at hhead
  have hfirst : some (100 : UInt8) = some 115 := hhead
  exact absurd hfirst (by decide)

theorem blind_handleAnalyzeDeadCode (args : JsonObject) (ctx : ToolContext) :
    Blind (handleAnalyzeDeadCode args ctx) :=
  ((blind_cachedObject (livenessKey_ne_search _) _ _ _).andThen _).cachedResult
    (fullKey_ne_summary _)

/-! ### Tools -/

/-- A tool that does not use the cache. -/
def ToolEntry.Plain (tool : ToolEntry) : Prop :=
  ∃ handle : JsonObject → ToolContext → Json,
    tool.handler = some fun args ctx => pure (handle args ctx)

/-- The tools and what they do with the cache. -/
inductive ToolEntry.Caches (tool : ToolEntry) : Prop
  | plain (hname : tool.name ≠ str "analyze_dead_code") (h : tool.Plain)
  | search (hname : tool.name ≠ str "analyze_dead_code")
      (h : tool.handler = some handleSearchFunctions)
  | summary (hname : tool.name ≠ str "analyze_dead_code")
      (h : tool.handler = some handleGraphSummary)
  | deadCode (hname : tool.name = str "analyze_dead_code")
      (h : tool.handler = some handleAnalyzeDeadCode)
  | unhandled (h : tool.handler = none)

theorem caches_graphTools : ∀ tool ∈ graphTools, tool.Caches := by
  simp only [graphTools, List.forall_mem_cons]
  exact ⟨.plain (by decide) ⟨_, rfl⟩, .plain (by decide) ⟨_, rfl⟩, .plain (by decide) ⟨_, rfl⟩,
    .plain (by decide) ⟨_, rfl⟩, .search (by decide) rfl, .plain (by decide) ⟨_, rfl⟩,
    .plain (by decide) ⟨_, rfl⟩, .summary (by decide) rfl, .plain (by decide) ⟨_, rfl⟩,
    .plain (by decide) ⟨_, rfl⟩, List.forall_mem_nil _⟩

theorem caches_exceptionTools : ∀ tool ∈ exceptionTools, tool.Caches := by
  simp only [exceptionTools, List.forall_mem_cons]
  exact ⟨.plain (by decide) ⟨_, rfl⟩, .plain (by decide) ⟨_, rfl⟩, .plain (by decide) ⟨_, rfl⟩,
    .plain (by decide) ⟨_, rfl⟩, .plain (by decide) ⟨_, rfl⟩, .plain (by decide) ⟨_, rfl⟩,
    List.forall_mem_nil _⟩

theorem caches_lockTools : ∀ tool ∈ lockTools, tool.Caches := by
  simp only [lockTools, List.forall_mem_cons]
  exact ⟨.plain (by decide) ⟨_, rfl⟩, .plain (by decide) ⟨_, rfl⟩, List.forall_mem_nil _⟩

theorem caches_deadCodeTools : ∀ tool ∈ deadCodeTools, tool.Caches := by
  simp only [deadCodeTools, List.forall_mem_cons]
  exact ⟨.deadCode rfl rfl, List.forall_mem_nil _⟩

theorem caches_channelTools : ∀ tool ∈ channelTools, tool.Caches := by
  simp only [channelTools, List.forall_mem_cons]
  exact ⟨.plain (by decide) ⟨_, rfl⟩, .plain (by decide) ⟨_, rfl⟩, .plain (by decide) ⟨_, rfl⟩,
    .plain (by decide) ⟨_, rfl⟩, List.forall_mem_nil _⟩

theorem ToolEntry.Caches.declareNeeds {tool : ToolEntry} (h : tool.Caches) :
    (declareNeeds tool).Caches := by
  cases h with
  | plain hname h => exact .plain hname h
  | search hname h => exact .search hname h
  | summary hname h => exact .summary hname h
  | deadCode hname h => exact .deadCode hname h
  | unhandled h => exact .unhandled h

theorem caches_registered {tool : ToolEntry} (h : tool ∈ getRegisteredTools) : tool.Caches := by
  unfold getRegisteredTools at h
  rcases List.mem_append.mp h with h | h
  · obtain ⟨tool, htool, rfl⟩ := List.mem_map.mp h
    refine ToolEntry.Caches.declareNeeds ?_
    simp only [List.mem_append] at htool
    rcases htool with (((h | h) | h) | h) | h
    · exact caches_graphTools tool h
    · exact caches_exceptionTools tool h
    · exact caches_lockTools tool h
    · exact caches_deadCodeTools tool h
    · exact caches_channelTools tool h
  · obtain rfl := List.mem_singleton.mp h
    exact .unhandled rfl

namespace McpServer

open Mcp

/-! ### The cache of a server -/

/-- The server with nothing kept. -/
def fresh (server : McpServer) : McpServer := { server with queryCache := {} }

/-- What is kept belongs to the indexes; of `analyze_dead_code` it is what a session of the
requests `asked`, the first of `all`, leaves. -/
structure CacheRight (p : McpParams) (server : McpServer) (all asked : List DeadCodeArgs) :
    Prop where
  summary : ∀ out, server.queryCache.byKey.lookup (str "graph_summary") = some out →
    out = graphSummary (server.toolContext p)
  search : ∀ kept, server.queryCache.objects.lookup (str "search_index") = some kept →
    kept = .searchIndex (server.graph.allNodes.map searchEntry)
  deadCode : ∃ cache, SameDeadCode server.queryCache cache ∧
    CacheHolds p.fixUTF8 server.graph all asked cache

theorem cacheRight_empty (p : McpParams) (server : McpServer) (all : List DeadCodeArgs) :
    CacheRight p server.fresh all [] :=
  ⟨fun out hout => absurd hout (Option.not_mem_none out),
    fun kept hkept => absurd hkept (Option.not_mem_none kept),
    {}, ⟨fun _ _ => rfl, fun _ _ => rfl⟩, cacheHolds_empty _ _ all⟩

/-- What one query answers, and what it leaves. -/
structure Served (p : McpParams) (server : McpServer) (handler : ToolHandler) (args : JsonObject)
    (all asked : List DeadCodeArgs) : Prop where
  answer : (server.callTool p handler args).1 = (server.fresh.callTool p handler args).1
  right : CacheRight p (server.callTool p handler args).2 all asked

variable {p : McpParams} {server : McpServer} {all asked : List DeadCodeArgs}

theorem callTool_eq (server : McpServer) (handler : ToolHandler) {args : JsonObject} {out : Json}
    {cache : QueryCache}
    (h : (handler args (server.toolContext p)).run (some server.queryCache) = (out, some cache)) :
    server.callTool p handler args
      = (wrapToolResult p.json out, { server with queryCache := cache }) := by
  unfold callTool
  rw [h]
  rfl

theorem CacheRight.plain (h : CacheRight p server all asked)
    (handle : JsonObject → ToolContext → Json) (args : JsonObject) :
    Served p server (fun args ctx => pure (handle args ctx)) args all asked :=
  ⟨rfl, h⟩

theorem run_graphSummary (args : JsonObject) (ctx : ToolContext) (cache : QueryCache)
    (h : ∀ out, cache.byKey.lookup (str "graph_summary") = some out → out = graphSummary ctx) :
    ∃ after, (handleGraphSummary args ctx).run (some cache) = (graphSummary ctx, some after) ∧
      SameDeadCode cache after ∧ after.objects = cache.objects ∧
      ∀ out, after.byKey.lookup (str "graph_summary") = some out → out = graphSummary ctx := by
  cases hfind : cache.byKey.lookup (str "graph_summary") with
  | some out =>
      obtain rfl := h out hfind
      exact ⟨cache, cachedResult_hit hfind, ⟨fun _ _ => rfl, fun _ _ => rfl⟩, rfl, h⟩
  | none =>
      refine ⟨_, cachedResult_miss hfind rfl, ⟨?_, fun _ _ => rfl⟩, rfl, ?_⟩
      · intro k hk
        rw [UMap.lookup_insert_ite, if_neg hk]
      · intro out hout
        rw [UMap.lookup_insert_ite, if_pos rfl] at hout
        exact (Option.some.inj hout).symm

theorem CacheRight.summarize (h : CacheRight p server all asked) (args : JsonObject) :
    Served p server handleGraphSummary args all asked := by
  obtain ⟨after, hrun, hsame, hobjects, hright⟩ :=
    run_graphSummary args (server.toolContext p) _ h.summary
  obtain ⟨_, hrun', -⟩ := run_graphSummary args (server.toolContext p) {}
    fun out hout => absurd hout (Option.not_mem_none out)
  have hcall := callTool_eq server handleGraphSummary hrun
  have hcall' := callTool_eq server.fresh handleGraphSummary hrun'
  refine ⟨by rw [hcall, hcall'], ?_⟩
  rw [hcall]
  obtain ⟨cache, hcache, hholds⟩ := h.deadCode
  refine ⟨hright, fun kept hkept => h.search kept (hobjects ▸ hkept), cache, ?_, hholds⟩
  exact ⟨fun k hk => (hsame.byKey k hk).symm.trans (hcache.byKey k hk),
    fun k hk => (hsame.objects k hk).symm.trans (hcache.objects k hk)⟩

theorem run_searchIndex (g : CallGraph) {cache : QueryCache}
    (h : ∀ kept, cache.objects.lookup (str "search_index") = some kept →
      kept = .searchIndex (g.allNodes.map searchEntry)) :
    ∃ after, (cachedObject (str "search_index")
          (fun | .searchIndex index => some index | _ => none) .searchIndex
          (g.allNodes.map searchEntry)).run (some cache)
        = (g.allNodes.map searchEntry, some after) ∧
      SameDeadCode cache after ∧ after.byKey = cache.byKey ∧
      ∀ kept, after.objects.lookup (str "search_index") = some kept →
        kept = .searchIndex (g.allNodes.map searchEntry) := by
  cases hfind : cache.objects.lookup (str "search_index") with
  | some kept =>
      have hkept := h kept hfind
      subst hkept
      exact ⟨cache, cachedObject_hit hfind rfl, ⟨fun _ _ => rfl, fun _ _ => rfl⟩, rfl, h⟩
  | none =>
      refine ⟨_, cachedObject_miss hfind, ⟨fun _ _ => rfl, ?_⟩, rfl, ?_⟩
      · intro k hk
        rw [UMap.lookup_insert_ite, if_neg hk]
      · intro kept hkept
        rw [UMap.lookup_insert_ite, if_pos rfl] at hkept
        exact (Option.some.inj hkept).symm

theorem run_searchFunctions (args : JsonObject) (ctx : ToolContext) (cache : QueryCache)
    (h : ∀ kept, cache.objects.lookup (str "search_index") = some kept →
      kept = .searchIndex (ctx.graph.allNodes.map searchEntry)) :
    ∃ after, (handleSearchFunctions args ctx).run (some cache)
        = ((handleSearchFunctions args ctx).run' none, some after) ∧
      SameDeadCode cache after ∧ after.byKey = cache.byKey ∧
      ∀ kept, after.objects.lookup (str "search_index") = some kept →
        kept = .searchIndex (ctx.graph.allNodes.map searchEntry) := by
  obtain ⟨after, hrun, hrest⟩ := run_searchIndex ctx.graph h
  unfold handleSearchFunctions
  split
  · exact ⟨cache, rfl, ⟨fun _ _ => rfl, fun _ _ => rfl⟩, rfl, h⟩
  · exact ⟨cache, rfl, ⟨fun _ _ => rfl, fun _ _ => rfl⟩, rfl, h⟩
  · refine ⟨after, ?_, hrest⟩
    dsimp only
    rw [StateT.run_bind]
    exact (congrArg (fun r : Id _ => r >>= _) hrun).trans rfl

theorem CacheRight.find (h : CacheRight p server all asked) (args : JsonObject) :
    Served p server handleSearchFunctions args all asked := by
  obtain ⟨after, hrun, hsame, hbyKey, hright⟩ :=
    run_searchFunctions args (server.toolContext p) _ h.search
  obtain ⟨_, hrun', -⟩ := run_searchFunctions args (server.toolContext p) {}
    fun kept hkept => absurd hkept (Option.not_mem_none kept)
  have hcall := callTool_eq server handleSearchFunctions hrun
  have hcall' := callTool_eq server.fresh handleSearchFunctions hrun'
  refine ⟨by rw [hcall, hcall'], ?_⟩
  rw [hcall]
  obtain ⟨cache, hcache, hholds⟩ := h.deadCode
  refine ⟨fun out hout => h.summary out (hbyKey ▸ hout), hright, cache, ?_, hholds⟩
  exact ⟨fun k hk => (hsame.byKey k hk).symm.trans (hcache.byKey k hk),
    fun k hk => (hsame.objects k hk).symm.trans (hcache.objects k hk)⟩

/-- Requests with keys apart are answered as by a server that keeps nothing. -/
theorem CacheRight.analyze {later : List DeadCodeArgs} {args : JsonObject}
    (h : CacheRight p server all asked)
    (hall : all = asked ++ deadCodeArgs args (server.toolContext p) :: later)
    (hapart : KeysApart all) :
    Served p server handleAnalyzeDeadCode args all
      (asked ++ [deadCodeArgs args (server.toolContext p)]) := by
  obtain ⟨cache, hcache, hholds⟩ := h.deadCode
  have hkept : CacheHolds p.fixUTF8 (server.toolContext p).graph all asked cache := hholds
  obtain ⟨cache', hstep, hholds'⟩ := hkept.step hall
  obtain ⟨out, after, after', hrun, hrun', hafter, hspared, -⟩ :=
    blind_handleAnalyzeDeadCode args (server.toolContext p) _ _ hcache
  rw [hstep] at hrun'
  obtain ⟨hout, hcache'⟩ := Prod.mk.inj hrun'
  obtain rfl := Option.some.inj hcache'
  subst hout
  have hmem : deadCodeArgs args (server.toolContext p) ∈ all := by
    rw [hall]
    exact List.mem_append_right _ List.mem_cons_self
  have hcall := callTool_eq server handleAnalyzeDeadCode hrun
  rw [hapart.answer _ _ hmem] at hcall
  -- a session of this one request
  have hsole : KeysApart [deadCodeArgs args (server.toolContext p)] := by
    refine ⟨?_, ?_⟩
    · intro a ha b hb _
      obtain rfl := List.mem_singleton.mp ha
      obtain rfl := List.mem_singleton.mp hb
      exact hapart.full _ hmem _ hmem rfl
    · intro a ha b hb _
      obtain rfl := List.mem_singleton.mp (leader_of_miss ha).2
      obtain rfl := List.mem_singleton.mp (leader_of_miss hb).2
      exact (hapart.full _ hmem _ hmem rfl).seeds
  obtain ⟨_, hfresh, -⟩ := (cacheHolds_empty (server.toolContext p).fixUTF8 (server.toolContext p).graph
    ([] ++ deadCodeArgs args (server.toolContext p) :: [])).step rfl
  rw [List.nil_append] at hfresh
  rw [hsole.answer _ _ List.mem_cons_self] at hfresh
  have hcall' := callTool_eq server.fresh handleAnalyzeDeadCode hfresh
  refine ⟨by rw [hcall, hcall'], ?_⟩
  rw [hcall]
  refine ⟨fun out hout => h.summary out (hspared.byKey ▸ hout),
    fun kept hkept => h.search kept (hspared.objects ▸ hkept), _, hafter, hholds'⟩

/-! ### Sessions

A reindex empties the cache, so sessions fall into epochs and nothing is carried
over.
-/

/-- The `analyze_dead_code` request of a deed. -/
def askedBy (p : McpParams) : Deed → List DeadCodeArgs
  | .query _ tool _ args =>
    if tool.name = str "analyze_dead_code" then [deadCodeArgs args (toolContext p {})] else []
  | _ => []

theorem askedBy_other {p : McpParams} {id : Json} {tool : ToolEntry} {handler : ToolHandler}
    {args : JsonObject} (h : tool.name ≠ str "analyze_dead_code") :
    askedBy p (.query id tool handler args) = [] :=
  if_neg h

theorem askedBy_deadCode {p : McpParams} {id : Json} {tool : ToolEntry} {handler : ToolHandler}
    {args : JsonObject} (h : tool.name = str "analyze_dead_code") :
    askedBy p (.query id tool handler args) = [deadCodeArgs args (toolContext p {})] :=
  if_pos h

/-- The requests up to the next reindex. -/
def epochAsked (p : McpParams) : List (McpFraming × Str) → List DeadCodeArgs
  | [] => []
  | m :: rest =>
    match deed p m.2 with
    | .reindex _ _ => []
    | d => askedBy p d ++ epochAsked p rest

/-- Between two reindexes the requests have keys apart; `asked` are those since the last one. -/
def EpochsApart (p : McpParams) : List DeadCodeArgs → List (McpFraming × Str) → Prop
  | asked, [] => KeysApart asked
  | asked, m :: rest =>
    match deed p m.2 with
    | .reindex _ _ => KeysApart asked ∧ EpochsApart p [] rest
    | d => EpochsApart p (asked ++ askedBy p d) rest

theorem EpochsApart.keysApart {msgs : List (McpFraming × Str)} {asked : List DeadCodeArgs}
    (h : EpochsApart p asked msgs) : KeysApart (asked ++ epochAsked p msgs) := by
  induction msgs generalizing asked with
  | nil => exact (List.append_nil asked).symm ▸ h
  | cons m rest ih =>
      unfold EpochsApart at h
      unfold epochAsked
      cases hdeed : deed p m.2 with
      | reindex id filePath =>
          rw [hdeed] at h
          exact (List.append_nil asked).symm ▸ h.1
      | fixed msg initializes =>
          rw [hdeed] at h
          dsimp only at h ⊢
          rw [← List.append_assoc]
          exact ih h
      | query id tool handler args =>
          rw [hdeed] at h
          dsimp only at h ⊢
          rw [← List.append_assoc]
          exact ih h

/-- What a server sends that keeps nothing from one message to the next. -/
def sentFresh (p : McpParams) : McpServer → List (McpFraming × Str) → List (McpFraming × Json)
  | _, [] => []
  | server, (framing, body) :: rest =>
    ((server.fresh.reply p body).1.map fun msg => (framing, msg)).toList
      ++ sentFresh p (server.fresh.reply p body).2 rest

/-- One query of a registered tool. -/
theorem CacheRight.query {later : List DeadCodeArgs} {id : Json} {tool : ToolEntry}
    {handler : ToolHandler} {args : JsonObject} (h : CacheRight p server all asked)
    (htool : tool ∈ getRegisteredTools) (hhandler : tool.handler = some handler)
    (hall : all = asked ++ askedBy p (.query id tool handler args) ++ later)
    (hapart : KeysApart all) :
    Served p server handler args all (asked ++ askedBy p (.query id tool handler args)) := by
  have hsame : ∀ {handler' : ToolHandler}, tool.handler = some handler' → handler = handler' :=
    fun h' => Option.some.inj (hhandler.symm.trans h')
  cases caches_registered htool with
  | plain hname hplain =>
      obtain ⟨handle, hhandle⟩ := hplain
      obtain rfl := hsame hhandle
      rw [askedBy_other hname, List.append_nil]
      exact h.plain handle args
  | search hname hsearch =>
      obtain rfl := hsame hsearch
      rw [askedBy_other hname, List.append_nil]
      exact h.find args
  | summary hname hsummary =>
      obtain rfl := hsame hsummary
      rw [askedBy_other hname, List.append_nil]
      exact h.summarize args
  | deadCode hname hdead =>
      obtain rfl := hsame hdead
      rw [askedBy_deadCode hname] at hall ⊢
      rw [List.append_assoc] at hall
      exact h.analyze hall hapart
  | unhandled hnone =>
      rw [hhandler] at hnone
      exact absurd hnone (Option.some_ne_none handler)

theorem fresh_reindexTU (p : McpParams) (server : McpServer) (filePath : Str) :
    (server.reindexTU p filePath).2.fresh = (server.reindexTU p filePath).2 := by
  unfold reindexTU
  cases p.compDb <;> rfl

theorem sent_eq_sentFresh (msgs : List (McpFraming × Str)) :
    ∀ {server : McpServer} (server' : McpServer) {asked : List DeadCodeArgs},
      server'.fresh = server.fresh → CacheRight p server (asked ++ epochAsked p msgs) asked →
        EpochsApart p asked msgs → server.sent p msgs = server'.sentFresh p msgs := by
  induction msgs with
  | nil => exact fun _ _ _ _ _ => rfl
  | cons m rest ih =>
      intro server server' asked hfresh hright hapart
      obtain ⟨framing, body⟩ := m
      have hkeys := hapart.keysApart
      unfold EpochsApart at hapart
      unfold epochAsked at hright hkeys
      rw [sent, sentFresh, hfresh, reply_eq, reply_eq]
      cases hdeed : deed p body with
      | fixed msg initializes =>
          rw [hdeed] at hright hapart
          refine congrArg _ (ih _ ?_ ?_ hapart)
          · cases initializes <;> rfl
          · have hnone : askedBy p (.fixed msg initializes) = [] := rfl
            rw [hnone, List.append_nil]
            have hkept : CacheRight p server (asked ++ epochAsked p rest) asked := hright
            cases initializes
            · exact hkept
            · exact ⟨hkept.summary, hkept.search, hkept.deadCode⟩
      | reindex id filePath =>
          rw [hdeed] at hright hapart
          have hone : (server.fresh.reindexTU p filePath) = server.reindexTU p filePath := rfl
          unfold Deed.run
          dsimp only
          rw [hone]
          refine congrArg _ (ih _ rfl ?_ hapart.2)
          rw [← fresh_reindexTU]
          exact cacheRight_empty p _ _
      | query id tool handler args =>
          rw [hdeed] at hright hapart hkeys
          obtain ⟨htool, hhandler⟩ := deed_query hdeed
          have hserved := hright.query htool hhandler
            (List.append_assoc _ _ _).symm hkeys
          unfold Deed.run
          dsimp only
          rw [hserved.answer]
          refine congrArg _ (ih _ rfl ?_ hapart)
          rw [List.append_assoc]
          exact hserved.right

/-- **A session is answered as if nothing were kept**, whatever is asked and reindexed in which
order, while requests of `analyze_dead_code` between two reindexes have keys apart. -/
theorem session_transparent (p : McpParams) (server : McpServer) (msgs : List (McpFraming × Str))
    (h : EpochsApart p [] msgs) : server.fresh.sent p msgs = server.sentFresh p msgs :=
  sent_eq_sentFresh msgs server rfl (cacheRight_empty p server _) h

/-! ### A session with a reindex in it -/

/-- Requests of the same entry points that their full keys tell apart have keys apart. -/
theorem keysApart_of_full {asked : List DeadCodeArgs}
    (hkeys : ∀ a ∈ asked, ∀ b ∈ asked, fullKey a = fullKey b → a = b)
    (hseeds : ∀ a ∈ asked, ∀ b ∈ asked, a.entryPoints = b.entryPoints) : KeysApart asked := by
  have hrefl : ∀ (optimistic : Bool) (entryPoints : List Str),
      SameSeeds optimistic entryPoints entryPoints := by
    intro optimistic entryPoints
    cases optimistic
    · exact fun _ => Iff.rfl
    · exact (rfl : firsts entryPoints = firsts entryPoints)
  refine ⟨?_, ?_⟩
  · intro a ha b hb hkey
    obtain rfl := hkeys a ha b hb hkey
    exact ⟨hrefl _ _, rfl, rfl, Or.inl ⟨rfl, rfl⟩⟩
  · intro a ha b hb _
    rw [hseeds a (leader_of_miss ha).2 b (leader_of_miss hb).2]
    exact hrefl _ _

/-- A string between quotes, of characters that need no others. -/
def quoted (s : Str) : Str :=
  str "\"" ++ s.flatMap (fun ch =>
    if ch = 34 then str "\\\"" else if ch = 92 then str "\\\\"
    else if ch = 10 then str "\\n" else [ch]) ++ str "\""

mutual

/-- The compact text of a value whose numbers are integers. -/
def compactText : Json → Str
  | .null => str "null"
  | .bool b => if b then str "true" else str "false"
  | .number value => decimalInt value.num
  | .string s => quoted s
  | .array elems => str "[" ++ (str ",").intercalate (elemTexts elems) ++ str "]"
  | .object members =>
    str "\x7b" ++ (str ",").intercalate
        (((memberTexts members).insertionSort fun a b => a.1 ≤ b.1).map fun m =>
          quoted m.1 ++ str ":" ++ m.2)
      ++ str "\x7d"

/-- The texts of the elements. -/
def elemTexts : List Json → List Str
  | [] => []
  | elem :: rest => compactText elem :: elemTexts rest

/-- The keys with the texts of their values. -/
def memberTexts : List (Str × Json) → List (Str × Str)
  | [] => []
  | (key, value) :: rest => (key, compactText value) :: memberTexts rest

end

/-- A `tools/call` of a tool. -/
def toolCall (tool : String) (args : JsonObject) : JsonObject :=
  [field "id" (.ofNat 1), field "method" (.string (str "tools/call")),
    field "params" (.object [field "arguments" (.object args), field "name" (.string (str tool))])]

/-- A call of `graph_summary`. -/
def summaryCall : JsonObject := toolCall "graph_summary" []

/-- A call of `analyze_dead_code`. -/
def deadCodeCall : JsonObject := toolCall "analyze_dead_code" []

/-- The same call, for one entry. -/
def pageCall : JsonObject := toolCall "analyze_dead_code" [field "limit" (.ofNat 1)]

/-- A call of `reindex_tu`. -/
def reindexCall : JsonObject := toolCall "reindex_tu" [field "file" (.string (str "a.cpp"))]

/-- A text layer that reads these four calls. -/
def callLayer : JsonText where
  parse text :=
    match [summaryCall, deadCodeCall, pageCall, reindexCall].find? fun obj =>
        compactText (.object obj) = text with
    | some obj => .ok (.object obj)
    | none => .error (str "no")
  print := compactText

/-- One thing of a TU; an empty path has none. -/
def owned {α : Type} (tu : Str) (x : α) : List α := if tu = [] then [] else [x]

theorem mem_owned {α : Type} {tu : Str} {x y : α} (h : x ∈ owned tu y) : x = y ∧ tu ≠ [] := by
  unfold owned at h
  split at h
  · exact absurd h List.not_mem_nil
  · exact ⟨List.mem_singleton.mp h, ‹_›⟩

/-- Every bake finds one function in the TU. -/
def oneFunctionBake (tu : Str) : TuBake tu :=
  { TuBake.nothing tu with
    calls := owned tu (.node { qualifiedName := str "f", file := tu, line := 1 } tu)
    calls_tu := fun _ h => ⟨(mem_owned h).1 ▸ rfl, (mem_owned h).2⟩ }

/-- A server whose bakes find one function. -/
def callParams : McpParams where
  json := callLayer
  fixUTF8 := id
  version := str "0.2.0"
  entryPoints := [str "main"]
  compDb := some fun _ => oneFunctionBake

/-- A session that asks, bakes and asks again. -/
def callMessages : List (McpFraming × Str) :=
  [summaryCall, deadCodeCall, pageCall, deadCodeCall, reindexCall, summaryCall, deadCodeCall].map
    fun obj => (.newline, compactText (.object obj))

/-- The arguments of a call that says nothing. -/
def wholeArgs : DeadCodeArgs := deadCodeArgs [] (toolContext callParams {})

/-- The arguments of a call for one entry. -/
def pageArgs : DeadCodeArgs :=
  deadCodeArgs [field "limit" (.ofNat 1)] (toolContext callParams {})

theorem keysApart_pages {asked : List DeadCodeArgs} (h : asked ⊆ [wholeArgs, pageArgs]) :
    KeysApart asked := by
  have hpage : fullKey wholeArgs ≠ fullKey pageArgs := by decide +kernel
  have hcases : ∀ a ∈ asked, a = wholeArgs ∨ a = pageArgs := by
    intro a ha
    simpa using h ha
  refine keysApart_of_full ?_ ?_
  · intro a ha b hb hkey
    rcases hcases a ha with rfl | rfl <;> rcases hcases b hb with rfl | rfl
    · rfl
    · exact absurd hkey hpage
    · exact absurd hkey.symm hpage
    · rfl
  · intro a ha b hb
    rcases hcases a ha with rfl | rfl <;> rcases hcases b hb with rfl | rfl <;> rfl

theorem epochsApart_callMessages : EpochsApart callParams [] callMessages := by
  have happart : KeysApart [wholeArgs, pageArgs, wholeArgs] ∧ KeysApart [wholeArgs] :=
    ⟨keysApart_pages (by simp), keysApart_pages (by simp)⟩
  exact happart

theorem session_transparent_reindex :
    EpochsApart callParams [] callMessages ∧
    sent callParams (fresh {}) callMessages = sentFresh callParams {} callMessages :=
  ⟨epochsApart_callMessages,
    session_transparent callParams {} callMessages epochsApart_callMessages⟩

end McpServer

end Vycor
