/-
What the indexes hold of a TU over a session.

A reindex takes a TU out of the call graph, the control-flow index and the channel index, and
bakes it again.  The invariant ties the three to one ledger, which has a bake for each TU: the
registrations of the graph, the contexts and the channel sites that are under a TU's path are
those of its bake, and there are no others.  A reindex changes one entry of the ledger and a
query none, so after a session every TU stands as its last bake found it.
-/
import Vycor.Proofs.BatchRemoval
import Vycor.Proofs.ChannelLog
import Vycor.Proofs.ContextHistory
import Vycor.Proofs.ServerCache
import Vycor.Proofs.WarmStart

namespace Vycor

open OwnedLog
open ControlFlowIndex (History FitsKeys displayed belongsTo)

/-! ### Each index and its log -/

/-- Registering in place is merging what was registered. -/
theorem Carries.registerMore {g : CallGraph} {log more : List Call} (h : Carries g log)
    (htagged : ∀ c ∈ more, c.tu ≠ []) : Carries (g.register more) (log ++ more) := by
  obtain ⟨hwf, hspec⟩ := CallGraph.register_wf_spec more h.wf
  refine ⟨hwf, ?_, ?_, ?_⟩
  · intro c hc
    exact (List.mem_append.mp hc).elim (h.tagged c) (htagged c)
  · rw [hspec, ← GraphSpec.merge_register]
    exact h.logged.merge (GraphSpec.Logged.start htagged)
  · intro c hc p hp
    rw [hspec, GraphSpec.register_related]
    rcases List.mem_append.mp hc with hc | hc
    · exact Or.inl (h.related c hc p hp)
    · exact Or.inr ⟨c, hc, hp⟩

theorem Carries.edge_iff {g : CallGraph} {log : List Call} (h : Carries g log)
    (k : EdgeKey Str) : k ∈ CallGraph.liveKeys g ↔ ∃ c ∈ log, c.edgeKey = some k := by
  rw [h.wf.mem_liveKeys, h.logged.refs, GraphSpec.register_refs]
  show 0 < 0 + _ ↔ _
  rw [Nat.zero_add, List.countP_pos_iff]
  simp only [decide_eq_true_eq]

theorem Carries.node_iff {g : CallGraph} {log : List Call} (h : Carries g log) (u : Str) :
    (g.spec.node u).isSome ↔ ∃ c ∈ log, c.nodeUsr = some u := by
  constructor
  · intro hsome
    have hne : g.spec.contributors u ≠ ∅ := by
      intro hempty
      rw [h.logged.node u hempty] at hsome
      exact absurd hsome (by decide)
    obtain ⟨t, ht⟩ := Set.nonempty_iff_ne_empty.mpr hne
    rw [h.logged.contributors, GraphSpec.register_contributors] at ht
    rcases ht with ht | ⟨c, hc, hu, -⟩
    · exact absurd ht (Set.notMem_empty t)
    · exact ⟨c, hc, hu⟩
  · rintro ⟨c, hc, hu⟩
    exact (h.holds c.tu).node c (List.mem_filter.mpr ⟨hc, by simp⟩) u hu

namespace ControlFlowIndex

/-- A history that goes on with more contexts. -/
def History.more (h : History) (contexts : List CallSiteContext) : History :=
  contexts.foldl History.add h

variable (h : History) (contexts : List CallSiteContext)

theorem History.index_more :
    (h.more contexts).index = contexts.foldl ControlFlowIndex.addCallSiteContext h.index := by
  induction contexts generalizing h with
  | nil => rfl
  | cons ctx rest ih => exact ih (h.add ctx)

theorem History.given_more : (h.more contexts).given = h.given ++ contexts := by
  induction contexts generalizing h with
  | nil => exact (List.append_nil _).symm
  | cons ctx rest ih => exact (ih (h.add ctx)).trans (List.append_assoc _ _ _)

theorem History.contexts_more :
    (h.more contexts).contexts = h.contexts ++ contexts.map displayed := by
  induction contexts generalizing h with
  | nil => exact (List.append_nil _).symm
  | cons ctx rest ih => exact (ih (h.add ctx)).trans (List.append_assoc _ _ _)

/-- A context with a TU path leaves with its own TU only. -/
theorem belongsTo_tagged {ctx : CallSiteContext} (htagged : ctx.tuPath ≠ []) (tu : Str) :
    belongsTo [tu] ctx = decide (ctx.tuPath = tu) := by
  unfold belongsTo
  rw [if_neg htagged]
  exact decide_eq_decide.mpr List.mem_singleton

end ControlFlowIndex

namespace ChannelIndex

variable {ch : ChannelIndex} {log : List ChannelSite}

theorem Tracked.addSites (sites : List ChannelSite) :
    ∀ {ch : ChannelIndex}, ch.Tracked → (sites.foldl ChannelIndex.addSite ch).Tracked ∧
      (sites.foldl ChannelIndex.addSite ch).spec = sites.foldl ChannelSpec.add ch.spec := by
  induction sites with
  | nil => exact fun h => ⟨h, rfl⟩
  | cons site rest ih =>
      intro ch h
      obtain ⟨htracked, hspec⟩ := ih (h.addSite site)
      refine ⟨htracked, hspec.trans ?_⟩
      rw [h.addSite_spec]
      rfl

theorem Tracked.removeTU_logged (h : ch.Tracked) (hlog : ch.spec.Logged log) (tu : Str) :
    (ch.removeTU tu).1.Tracked ∧
      (ch.removeTU tu).1.spec.Logged (log.filter (·.tuPath ≠ tu)) := by
  obtain ⟨htracked, hspec, -⟩ := h.removeTUs_spec [tu]
  refine ⟨htracked, ?_⟩
  rw [show (ch.removeTU tu).1.spec = ch.spec.release tu from hspec]
  exact hlog.release tu

end ChannelIndex

namespace McpServer

/-! ### The ledger

The server keeps no record of its bakes. The ledger is what it would be: for
each TU what was found of it when it was last baked.
-/

/-- What was found of each TU when it was last baked. -/
abbrev Ledger := (tu : Str) → TuBake tu

/-- The indexes are what the bakes of the ledger amount to, and the control-flow index was
handed contexts of the given ones only. -/
structure Holding (given : List CallSiteContext) (server : McpServer) (held : Ledger) : Prop where
  calls : ∃ log, Carries server.graph log ∧ ∀ tu, ofOwner Call.tu log tu = (held tu).calls
  contexts : ∃ h : History, server.cfIndex = h.index ∧ h.given ⊆ given ∧
    (∀ ctx ∈ h.contexts, ctx.tuPath ≠ []) ∧
    ∀ tu, ofOwner (·.tuPath) h.contexts tu = (held tu).contexts.map displayed
  sites : ∃ log, server.channels.Tracked ∧ server.channels.spec.Logged log ∧
    ∀ tu, ofOwner (·.tuPath) log tu = (held tu).sites

variable {given : List CallSiteContext} {server : McpServer} {held : Ledger} {f : Str}

/-- Nothing was baked yet. -/
def noBakes : Ledger := TuBake.nothing

theorem holding_empty (given : List CallSiteContext) : Holding given {} noBakes := by
  refine ⟨⟨[], ?_, fun _ => rfl⟩, ⟨.empty, rfl, ?_, ?_, fun _ => rfl⟩,
    ⟨[], ChannelIndex.tracked_empty, ?_, fun _ => rfl⟩⟩
  · exact Carries.register fun c hc => absurd hc List.not_mem_nil
  · exact List.nil_subset given
  · exact fun ctx hctx => absurd hctx List.not_mem_nil
  · refine ⟨fun c hc => absurd hc List.not_mem_nil, List.nodup_nil,
      fun q hq => absurd hq List.not_mem_nil, fun k => ?_, fun t k => ?_⟩
    · exact ⟨fun h => absurd h List.not_mem_nil, fun ⟨c, hc, _⟩ => absurd hc List.not_mem_nil⟩
    · exact ChannelIndex.spec_reg_none rfl t

/-- The entries of a ledger under the new bake of one TU. -/
theorem ofOwner_rebaked {α β : Type} (owner : α → Str) (part : {tu : Str} → TuBake tu → List β)
    (show' : List β → List α) {log : List α}
    (hlog : ∀ tu, ofOwner owner log tu = show' (part (held tu))) (bake : TuBake f)
    (howned : ∀ x ∈ show' (part bake), owner x = f) (tu : Str) :
    ofOwner owner (replace owner log f (show' (part bake))) tu
      = show' (part (Function.update held f bake tu)) := by
  rw [ofOwner_replace howned]
  by_cases htu : tu = f
  · subst htu
    rw [Function.update_self, Function.update_self]
  · rw [Function.update_of_ne htu, Function.update_of_ne htu, hlog]

/-! ### One reindex -/

theorem kept_single (log : List Call) (f : Str) :
    GraphSpec.kept log [f] = log.filter (·.tu ≠ f) := by
  refine List.filter_congr fun c _ => ?_
  simp

/-- **A reindex replaces the entry of its TU** and no other. -/
theorem Holding.reindexTU (h : Holding given server held) {p : McpParams}
    {bake : Nat → (tu : Str) → TuBake tu} (hdb : p.compDb = some bake)
    (hgiven : (bake server.bakes f).contexts ⊆ given) :
    Holding given (server.reindexTU p f).2
      (Function.update held f (bake server.bakes f)) := by
  have hserver : (server.reindexTU p f).2
      = bakeTU { server with
          queryCache := {}, graph := (server.graph.removeTU f).1
          cfIndex := (server.cfIndex.removeTU f).1, channels := (server.channels.removeTU f).1 }
        (bake server.bakes f) := by
    unfold McpServer.reindexTU
    rw [hdb]
  rw [hserver]
  generalize hnew : bake server.bakes f = new at hgiven ⊢
  refine ⟨?_, ?_, ?_⟩
  · obtain ⟨log, hcarries, hentries⟩ := h.calls
    refine ⟨replace Call.tu log f new.calls, ?_, ?_⟩
    · have hremoved := hcarries.removeTUs [f]
      rw [kept_single] at hremoved
      exact hremoved.registerMore fun c hc => (new.calls_tu c hc).1 ▸ (new.calls_tu c hc).2
    · exact ofOwner_rebaked Call.tu TuBake.calls id hentries new
        fun c hc => (new.calls_tu c hc).1
  · obtain ⟨history, hindex, hbefore, htagged, hentries⟩ := h.contexts
    have hcontexts : ((history.removeTUs [f]).more new.contexts).contexts
        = replace (·.tuPath) history.contexts f (new.contexts.map displayed) := by
      rw [History.contexts_more]
      refine congrArg (· ++ _) (List.filter_congr fun ctx hctx => ?_)
      rw [ControlFlowIndex.belongsTo_tagged (htagged ctx hctx)]
      exact decide_not.symm
    have howned : ∀ ctx ∈ new.contexts.map displayed, ctx.tuPath = f := by
      intro ctx hctx
      obtain ⟨ctx', hctx', rfl⟩ := List.mem_map.mp hctx
      exact (new.contexts_tu ctx' hctx').1
    refine ⟨(history.removeTUs [f]).more new.contexts, ?_, ?_, ?_, ?_⟩
    · rw [History.index_more]
      exact congrArg (new.contexts.foldl ControlFlowIndex.addCallSiteContext)
        (congrArg (fun cf => (cf.removeTU f).1) hindex)
    · rw [History.given_more]
      exact List.append_subset.mpr ⟨hbefore, hgiven⟩
    · rw [hcontexts]
      intro ctx hctx
      rcases List.mem_append.mp hctx with hctx | hctx
      · exact htagged ctx (List.mem_of_mem_filter hctx)
      · obtain ⟨ctx', hctx', rfl⟩ := List.mem_map.mp hctx
        exact (new.contexts_tu ctx' hctx').1 ▸ (new.contexts_tu ctx' hctx').2
    · rw [hcontexts]
      exact ofOwner_rebaked (·.tuPath) TuBake.contexts (List.map displayed) hentries new howned
  · obtain ⟨log, htracked, hlogged, hentries⟩ := h.sites
    obtain ⟨hremoved, hkept⟩ := htracked.removeTU_logged hlogged f
    obtain ⟨hadded, hspec⟩ := hremoved.addSites new.sites
    have hall := hkept.addAll new.sites
      fun site hsite => (new.sites_tu site hsite).1 ▸ (new.sites_tu site hsite).2
    rw [← hspec] at hall
    refine ⟨replace (·.tuPath) log f new.sites, hadded, hall, ?_⟩
    exact ofOwner_rebaked (·.tuPath) TuBake.sites id hentries new
      fun site hsite => (new.sites_tu site hsite).1

/-! ### A session -/

/-- The bakes of a session, in order; `n` were made before it. -/
def rebaked (p : McpParams) (bake : Nat → (tu : Str) → TuBake tu) :
    Nat → List (McpFraming × Str) → List ((tu : Str) × TuBake tu)
  | _, [] => []
  | n, m :: rest =>
    match deed p m.2 with
    | .reindex _ f => ⟨f, bake n f⟩ :: rebaked p bake (n + 1) rest
    | _ => rebaked p bake n rest

/-- The last bake of each TU. -/
def lastBakes (held : Ledger) (bakes : List ((tu : Str) × TuBake tu)) : Ledger :=
  bakes.foldl (fun held b => Function.update held b.1 b.2) held

/-- The indexes and the number of bakes are what a ledger is about. -/
theorem Holding.congr {server' : McpServer} (h : Holding given server held)
    (hgraph : server'.graph = server.graph) (hcontexts : server'.cfIndex = server.cfIndex)
    (hchannels : server'.channels = server.channels) : Holding given server' held :=
  ⟨hgraph ▸ h.calls, hcontexts ▸ h.contexts, hchannels ▸ h.sites⟩

theorem holding_after (p : McpParams) (bake : Nat → (tu : Str) → TuBake tu)
    (hdb : p.compDb = some bake) (msgs : List (McpFraming × Str)) :
    ∀ {server : McpServer} {held : Ledger}, Holding given server held →
      (∀ b ∈ rebaked p bake server.bakes msgs, b.2.contexts ⊆ given) →
      Holding given (server.after p msgs)
        (lastBakes held (rebaked p bake server.bakes msgs)) := by
  induction msgs with
  | nil => exact fun h _ => h
  | cons m rest ih =>
      intro server held h hgiven
      have hafter : server.after p (m :: rest) = ((deed p m.2).run p server).2.after p rest := by
        rw [← reply_eq]
        rfl
      rw [hafter]
      unfold rebaked at hgiven ⊢
      cases hdeed : deed p m.2 with
      | fixed msg initializes =>
          rw [hdeed] at hgiven
          cases initializes with
          | false => exact ih h hgiven
          | true => exact ih (h.congr rfl rfl rfl) hgiven
      | query id tool handler args =>
          rw [hdeed] at hgiven
          exact ih (h.congr rfl rfl rfl) hgiven
      | reindex id f =>
          rw [hdeed] at hgiven
          have hbakes : (server.reindexTU p f).2.bakes = server.bakes + 1 := by
            unfold McpServer.reindexTU
            rw [hdb]
            rfl
          have hnext := h.reindexTU hdb (hgiven _ List.mem_cons_self)
          have hrest := ih hnext
          rw [hbakes] at hrest
          exact hrest fun b hb => hgiven b (List.mem_cons_of_mem _ hb)

/-! ### What queries see of it -/

/-- The indexes show the bakes of the ledger, TU by TU, and nothing else. -/
structure Current (server : McpServer) (held : Ledger) : Prop where
  calls : ∀ tu, Holds server.graph tu (held tu).calls
  edges : ∀ k, k ∈ CallGraph.liveKeys server.graph ↔
    ∃ tu, ∃ c ∈ (held tu).calls, c.edgeKey = some k
  nodes : ∀ u, (server.graph.spec.node u).isSome ↔
    ∃ tu, ∃ c ∈ (held tu).calls, c.nodeUsr = some u
  contexts : ∀ tu, (server.cfIndex.allContexts.filter fun ctx => ctx.tuPath = tu)
    = (held tu).contexts.map displayed
  registered : ∀ tu k, server.channels.spec.reg tu k = (held tu).sites.countP (·.key = k)
  channels : ∀ k, k ∈ server.channels.spec.keys ↔ ∃ tu, ∃ site ∈ (held tu).sites, site.key = k

/-- Some entry of a log is some entry of an owner. -/
theorem exists_entry {α : Type} {owner : α → Str} {log : List α} {part : Str → List α}
    (h : ∀ tu, ofOwner owner log tu = part tu) (P : α → Prop) :
    (∃ x ∈ log, P x) ↔ ∃ tu, ∃ x ∈ part tu, P x := by
  constructor
  · rintro ⟨x, hx, hP⟩
    exact ⟨owner x, x, h (owner x) ▸ mem_ofOwner.mpr ⟨hx, rfl⟩, hP⟩
  · rintro ⟨tu, x, hx, hP⟩
    rw [← h] at hx
    exact ⟨x, (mem_ofOwner.mp hx).1, hP⟩

theorem Holding.current (h : Holding given server held) (hfits : FitsKeys given) :
    Current server held := by
  obtain ⟨calls, hcarries, hcalls⟩ := h.calls
  obtain ⟨history, hindex, hgiven, -, hcontexts⟩ := h.contexts
  obtain ⟨sites, htracked, hlogged, hsites⟩ := h.sites
  refine ⟨?_, ?_, ?_, ?_, ?_, ?_⟩
  · intro tu
    rw [← hcalls]
    exact hcarries.holds tu
  · intro k
    rw [hcarries.edge_iff, exists_entry hcalls]
  · intro u
    rw [hcarries.node_iff, exists_entry hcalls]
  · intro tu
    rw [hindex, (History.refines history (hfits.mono hgiven)).2, ← hcontexts]
    rfl
  · intro tu k
    rw [hlogged.reg, ← hsites, ofOwner, List.countP_filter]
    refine List.countP_congr fun c _ => ?_
    simp only [decide_eq_true_eq, Bool.and_eq_true]
  · intro k
    rw [hlogged.keys, exists_entry hsites]

/-- Every bake finds a guarded call and a channel, both of another name than the bake before. -/
def changingBake (n : Nat) (tu : Str) : TuBake tu where
  calls := owned tu
    (.edge { callerName := str "run", calleeName := str "f" ++ decimalInt n
             callSite := str "a.cpp:5:1", kind := .directCall, confidence := .Proven } tu)
  contexts := owned tu
    { callerName := str "run", calleeName := str "f" ++ decimalInt n, callSite := str "a.cpp:5:1"
      tuPath := tu, enclosingGuards := [⟨str "p", str "a.cpp:4:3", true, false⟩] }
  sites := owned tu
    { channelId := str "f" ++ decimalInt n, siteFunctionUsr := str "c:@F@run"
      siteFunctionDisplay := str "run", callSite := str "a.cpp:6:1", tuPath := tu }
  calls_tu := fun _ h => ⟨(mem_owned h).1 ▸ rfl, (mem_owned h).2⟩
  contexts_tu := fun _ h => ⟨(mem_owned h).1 ▸ rfl, (mem_owned h).2⟩
  sites_tu := fun _ h => ⟨(mem_owned h).1 ▸ rfl, (mem_owned h).2⟩

/-- A server whose bakes differ from one to the next. -/
def changingParams : McpParams := { callParams with compDb := some changingBake }

/-- Two bakes of one file and a query between them. -/
def changingMessages : List (McpFraming × Str) :=
  [reindexCall, summaryCall, reindexCall].map fun obj => (.newline, compactText (.object obj))

/-- The two bakes of the session. -/
def changingBakes : List ((tu : Str) × TuBake tu) :=
  [⟨str "a.cpp", changingBake 0 (str "a.cpp")⟩, ⟨str "a.cpp", changingBake 1 (str "a.cpp")⟩]

end McpServer

end Vycor
