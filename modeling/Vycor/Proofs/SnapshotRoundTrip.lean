/-
A saved index and the loaded one from then on.

A save and a load bring the four sections back, and no run of later calls tells the loaded
indexes from the saved ones: the graphs stay in step, the control-flow indexes stay in step,
and the channel indexes stand for one abstract index.  The meta section comes back with one
dependency list for each file, which is all that a warm refresh reads of it.
-/
import Vycor.Model.WarmRefresh
import Vycor.Proofs.BatchRemoval
import Vycor.Proofs.ContextHistory
import Vycor.Proofs.GraphsInStep
import Vycor.Proofs.ReloadedChannels
import Vycor.Proofs.ReloadedContexts
import Vycor.Proofs.ReloadedGraph
import Vycor.Proofs.SnapshotMeta

namespace Vycor

namespace CallGraph

/-- Whatever is done to both graphs from here, they say the same of every string and give the
same answers.  Only a row among the callers of a name may be shown as another edge at its site
expands to it, and not where the expansions at a site agree. -/
def Interchangeable (g g' : CallGraph) : Prop :=
  ∀ later : List Mutation,
    Agree (later.foldl Mutation.apply g)
      (later.foldl Mutation.apply g') ∧
    Indistinct (later.foldl Mutation.apply g)
      (later.foldl Mutation.apply g') ∧
    ((later.foldl Mutation.apply g).spec.Uniform →
      SameAnswers (later.foldl Mutation.apply g)
        (later.foldl Mutation.apply g'))

end CallGraph

namespace ControlFlowIndex

/-- Whatever is done to both indexes from here, every query of a site answers alike, and so
does every query by name while no emptied usr entry hides contexts listed by display name. -/
def Interchangeable (cf cf' : ControlFlowIndex) : Prop :=
  ∀ later : List Mutation,
    SameSites (later.foldl Mutation.apply cf)
      (later.foldl Mutation.apply cf') ∧
    ((later.foldl Mutation.apply cf).NoShadow →
      SameAnswers (later.foldl Mutation.apply cf)
        (later.foldl Mutation.apply cf'))

end ControlFlowIndex

namespace ChannelIndex

/-- Whatever is done to both indexes from here, they stand for one abstract index and give the
same answers, up to which of its TUs a site names. -/
def Interchangeable (ch ch' : ChannelIndex) : Prop :=
  ∀ later : List Mutation,
    (later.foldl Mutation.apply ch).spec
      = (later.foldl Mutation.apply ch').spec ∧
    SameAnswers (later.foldl Mutation.apply ch)
      (later.foldl Mutation.apply ch')

end ChannelIndex

namespace SnapshotIO

/-- An index whose counts and lengths the format has room for. -/
structure Fits (w : HashWalk) (graph : CallGraph) (cfIndex : ControlFlowIndex)
    (snapMeta : SnapshotMeta) (channels : ChannelIndex) : Prop where
  graphFits : GraphFits graph
  contextsFit : ContextsFit cfIndex
  metaFits : MetaFits snapMeta
  channelsShort : ChannelsShort channels
  fileFits : (save w graph cfIndex snapMeta channels).length < 2 ^ 64

/-- What a save and a load make of an index. -/
def reloaded (w : HashWalk) (graph : CallGraph) (cfIndex : ControlFlowIndex)
    (snapMeta : SnapshotMeta) (channels : ChannelIndex) : SnapshotData where
  graph := reloadGraph w graph
  cfIndex := reloadContexts .mutable cfIndex
  channels := reloadChannels w .mutable channels
  snapMeta := { snapMeta with tuDeps := writtenDeps snapMeta }
  summary := summaryOf graph cfIndex channels
  loaded := kSectionAll

theorem run_pure {α : Type} (a : α) : (pure a : Load α).run = some (some a) := rfl

theorem run_readNeeded {α : Type} {needs bit : UInt32} {empty a : α} {read : Load α}
    (hbit : (needs &&& bit != 0) = true) (hread : read.run = some (some a)) :
    (readNeeded needs bit empty read).run = some (some a) := by
  unfold readNeeded
  rw [if_pos hbit, hread]

/-- **A saved index loads.** -/
theorem load_saved {w : HashWalk} {graph : CallGraph} {cfIndex : ControlFlowIndex}
    {snapMeta : SnapshotMeta} {channels : ChannelIndex}
    (h : Fits w graph cfIndex snapMeta channels) (hgraph : graph.WF) (hcf : cfIndex.WF)
    (hchannels : channels.Listed) :
    (load (save w graph cfIndex snapMeta channels)).run
      = some (some (reloaded w graph cfIndex snapMeta channels)) := by
  rw [load_save w graph cfIndex snapMeta channels .mutable kSectionAll h.fileFits,
    decode_of_reads (reads_readMeta h.metaFits),
    decode_of_reads (reads_readGraph hgraph h.graphFits),
    decode_of_reads (reads_readControlFlow hcf h.contextsFit),
    decode_of_reads (reads_readChannels (h.channelsShort.fit hchannels w))]
  refine (run_bind_of (run_pure _)).trans ?_
  refine (run_bind_of (run_readNeeded (by decide) (run_pure _))).trans ?_
  refine (run_bind_of (run_readNeeded (by decide) (run_pure _))).trans ?_
  exact (run_bind_of (run_readNeeded (by decide) (run_pure _))).trans (run_pure _)

/-! ### A small index -/

open ControlFlowIndex (smallHistory)

instance {α : Type} (l : List α) : Decidable (Short l) := inferInstanceAs (Decidable (_ < _))

theorem short_of_listed {m : UMap Str (List Nat)} (h : ∀ entry ∈ m.entries, Short entry.1)
    (t : Str) (ht : m.getD t [] ≠ []) : Short t := by
  cases hl : m.lookup t with
  | none => exact absurd (by rw [UMap.getD, hl]; rfl) ht
  | some l => exact h ⟨t, l⟩ ((UMap.mem_entries m t l).mpr hl)

/-- One TU and a header it opens. -/
def oneInclude : SnapshotMeta where
  files := [{ path := str "a.cpp" }]
  deps := [{ path := str "h.h" }]
  tuDeps := [[0]]

theorem graphFits_sharedEdge : GraphFits sharedEdge.graph where
  stringCount := by decide +kernel
  strings := by decide +kernel
  nodeCount := by decide +kernel
  nodes := by
    have hnodes : ∀ entry ∈ sharedEdge.graph.nodes.entries, Short entry.2.file ∧
        Short entry.2.enclosingClass ∧
        Short (sharedEdge.graph.nodeContributors.getD entry.1 []) := by decide +kernel
    exact fun entry hentry =>
      ⟨(hnodes entry hentry).1, (hnodes entry hentry).2.1, (hnodes entry hentry).2.2⟩
  edgeCount := by decide +kernel
  refs := by decide +kernel
  related := fun r => by cases r <;> decide +kernel

theorem contextsFit_smallHistory : ContextsFit smallHistory.index where
  stringCount := by decide +kernel
  strings := by decide +kernel
  scopeSetCount := by decide +kernel
  scopeSets := by
    have hsets : ∀ set ∈ smallHistory.index.scopeSets.sets, Short set ∧ ∀ scope ∈ set,
        Short scope.tryLocation ∧ Short scope.enclosingFunction ∧ Short scope.handlers ∧
        ∀ h ∈ scope.handlers, Short h.caughtType ∧ Short h.location ∧ Short h.bodySummary := by
      decide +kernel
    refine fun set hset => ⟨(hsets set hset).1, fun scope hscope => ?_⟩
    obtain ⟨htry, hfunction, hcount, hhandlers⟩ := (hsets set hset).2 scope hscope
    exact ⟨htry, hfunction, hcount, fun h hh =>
      ⟨(hhandlers h hh).1, (hhandlers h hh).2.1, (hhandlers h hh).2.2⟩⟩
  guardSetCount := by decide +kernel
  guardSets := by
    have hsets : ∀ set ∈ smallHistory.index.guardSets.sets, Short set ∧ ∀ g ∈ set,
        Short g.conditionText ∧ Short g.location := by decide +kernel
    exact fun set hset => ⟨(hsets set hset).1, fun g hg =>
      ⟨((hsets set hset).2 g hg).1, ((hsets set hset).2 g hg).2⟩⟩
  raiiSetCount := by decide +kernel
  raiiSets := by decide +kernel
  contextCount := by decide +kernel

theorem metaFits_oneInclude : MetaFits oneInclude where
  collapseCount := by decide
  collapsePaths := by decide
  allowCount := by decide
  lockAllowlist := by decide
  specCount := by decide
  channelTypes := fun spec hspec => absurd hspec List.not_mem_nil
  fileCount := by decide
  files := by decide
  entryCount := by decide
  entryPoints := by decide
  depCount := by decide
  deps := by decide
  tuDeps := by decide
  inRange := by decide

theorem channelsShort_sharedSite : ChannelsShort sharedSite.channels where
  count := by decide +kernel
  site := by
    have hsites : ∀ s ∈ sharedSite.channels.sites, Short s.site.channelId ∧
        Short s.site.channelTypeName ∧ Short s.site.category ∧ Short s.site.siteFunctionUsr ∧
        Short s.site.siteFunctionDisplay ∧ Short s.site.callSite ∧
        s.site.enclosingGuards = [] := by decide +kernel
    intro s hs _
    obtain ⟨hid, htype, hcategory, husr, hdisplay, hsite, hguards⟩ := hsites s hs
    exact ⟨hid, htype, hcategory, husr, hdisplay, hsite, hguards ▸ by decide,
      fun g hg => absurd (hguards ▸ hg) List.not_mem_nil⟩
  refs := by decide +kernel
  tuCount := by
    have htus : ∀ i < sharedSite.channels.sites.length,
        UMap.total (List.count i) sharedSite.channels.byTu < 2 ^ 32 := by decide +kernel
    exact fun i s hs _ => htus i (List.getElem?_eq_some_iff.mp hs).1
  tus := short_of_listed (by decide +kernel)

theorem fits_small :
    Fits .inOrder sharedEdge.graph smallHistory.index oneInclude sharedSite.channels where
  graphFits := graphFits_sharedEdge
  contextsFit := contextsFit_smallHistory
  metaFits := metaFits_oneInclude
  channelsShort := channelsShort_sharedSite
  fileFits := by decide +kernel

/-! ### The graph

The reloaded graph need not be equal to the saved one: it has lost its
tombstones and relations come back in another order. It is in step with it,
which no call undoes.
-/

theorem edgeSide_installOf (r : Relation) (acc : CallGraph) (a b : SId) :
    (installOf r acc a b).edgeSide = acc.edgeSide := by
  cases r <;> rfl

theorem edgeSide_reloadPairs (w : HashWalk) (g : CallGraph) (r : Relation) (acc : CallGraph) :
    (reloadPairs w g r acc).edgeSide = acc.edgeSide :=
  List.foldlRecOn (relationPairs w (g.relation r)) _
    (motive := fun acc' : CallGraph => acc'.edgeSide = acc.edgeSide) rfl
    fun acc' hacc' pair _ => (edgeSide_installOf r acc' pair.1 pair.2).trans hacc'

/-- The edges come back as compacting leaves them. -/
theorem edgeSide_reloadGraph {g : CallGraph} (hwf : g.WF) (w : HashWalk) :
    (reloadGraph w g).edgeSide = g.compact.edgeSide := by
  have hedges : (reloadEdges w g).edgeSide = g.compact.edgeSide := by
    have hsaved := (edgesReloaded hwf w g.edges).graph
    show ((savedEdges g.edges).foldl (reloadEdge w g) (reloadNodes w g)).edgeSide = _
    rw [hsaved]
    rfl
  exact (edgeSide_reloadPairs w g .functionReturn _).trans
    ((edgeSide_reloadPairs w g .effectiveImpl _).trans
      ((edgeSide_reloadPairs w g .methodOverride _).trans
        ((edgeSide_reloadPairs w g .derivedClass _).trans hedges)))

/-- **A reloaded graph is in step with the saved one.** -/
theorem reloadGraph_inStep {g : CallGraph} (h : g.InStep g) (hpairs : g.PairsOnce) (w : HashWalk) :
    g.InStep (reloadGraph w g) := by
  obtain ⟨hwf', hspec⟩ := reloadGraph_wf_spec h.wf hpairs w
  obtain ⟨t, order, hl, -⟩ := h.lists
  obtain ⟨horder, hlive⟩ := CallGraph.compact_order g
  have hside := edgeSide_reloadGraph h.wf w
  refine ⟨h.wf, hwf', hspec.symm, t, order, hl, ?_⟩
  exact ⟨(related_reloadGraph h.wf hpairs w).interner.trans hl.interner, horder.frame hside,
    (CallGraph.liveOrder_frame hside).trans (hlive.trans hl.liveOrder)⟩

variable {s : Script} {flow : ControlFlowIndex.History} {channel : ChannelIndex.History}
  {snapMeta : SnapshotMeta} {w : HashWalk}

/-- **A loaded graph cannot be told from the saved one.** -/
theorem graph_round_trip (h : Fits w s.graph flow.index snapMeta channel.channels) :
    ∃ data, (load (save w s.graph flow.index snapMeta channel.channels)).run = some (some data) ∧
      CallGraph.Interchangeable s.graph data.graph := by
  refine ⟨_, load_saved h s.wf flow.wf channel.listed, fun later => ?_⟩
  have hstep := (reloadGraph_inStep s.inStep s.pairsOnce w).run later
  exact ⟨hstep.wf.agree hstep.wf' hstep.spec, hstep.indistinct, hstep.sameAnswers⟩

theorem graph_round_trip_small :
    Fits .inOrder sharedEdge.graph smallHistory.index oneInclude sharedSite.channels ∧
    ∃ data, (load (save .inOrder sharedEdge.graph smallHistory.index oneInclude
        sharedSite.channels)).run = some (some data) ∧
      CallGraph.Interchangeable sharedEdge.graph data.graph :=
  ⟨fits_small, graph_round_trip fits_small⟩

/-! ### The control-flow index -/

/-- **A loaded control-flow index cannot be told from the saved one.** -/
theorem contexts_round_trip (h : Fits w s.graph flow.index snapMeta channel.channels) :
    ∃ data, (load (save w s.graph flow.index snapMeta channel.channels)).run = some (some data) ∧
      ControlFlowIndex.Interchangeable flow.index data.cfIndex := by
  refine ⟨_, load_saved h s.wf flow.wf channel.listed, fun later => ?_⟩
  obtain ⟨hwf, hwf', hstep⟩ := (reloadContexts_inStep flow.wf flow.exact h.contextsFit).run
    flow.wf (reloadContexts_wf flow.wf) later
  exact ⟨hstep.sameSites hwf hwf', hstep.sameAnswers hwf hwf'⟩

theorem contexts_round_trip_small :
    Fits .inOrder sharedEdge.graph smallHistory.index oneInclude sharedSite.channels ∧
    ∃ data, (load (save .inOrder sharedEdge.graph smallHistory.index oneInclude
        sharedSite.channels)).run = some (some data) ∧
      ControlFlowIndex.Interchangeable smallHistory.index data.cfIndex :=
  ⟨fits_small, contexts_round_trip fits_small⟩

/-! ### The channel index -/

/-- **A loaded channel index cannot be told from the saved one.** -/
theorem channels_round_trip (h : Fits w s.graph flow.index snapMeta channel.channels) :
    ∃ data, (load (save w s.graph flow.index snapMeta channel.channels)).run = some (some data) ∧
      ChannelIndex.Interchangeable channel.channels data.channels := by
  refine ⟨_, load_saved h s.wf flow.wf channel.listed, fun later => ?_⟩
  obtain ⟨htracked, hspec⟩ := reloadChannels_tracked_spec channel.listed w
  obtain ⟨hrun, hrunSpec⟩ := channel.tracked.run_spec later
  obtain ⟨hrun', hrunSpec'⟩ := htracked.run_spec later
  have hsame : (later.foldl ChannelIndex.Mutation.apply channel.channels).spec
      = (later.foldl ChannelIndex.Mutation.apply (reloadChannels w .mutable channel.channels)).spec := by
    rw [hrunSpec, hrunSpec', hspec]
  exact ⟨hsame, hrun.sameAnswers hrun' hsame⟩

theorem channels_round_trip_small :
    Fits .inOrder sharedEdge.graph smallHistory.index oneInclude sharedSite.channels ∧
    ∃ data, (load (save .inOrder sharedEdge.graph smallHistory.index oneInclude
        sharedSite.channels)).run = some (some data) ∧
      ChannelIndex.Interchangeable sharedSite.channels data.channels :=
  ⟨fits_small, channels_round_trip fits_small⟩

/-! ### The meta section

A table without a list for every file comes back with empty ones, which makes no
difference to what a refresh does with it.
-/

open WarmRefresh (refreshDependencies refreshedMeta savedMeta toDrop toBake)

/-- Two expansions of a dependency table that list the same for every path. -/
def SameLists (deps deps' : TuDependencies) : Prop := ∀ f, deps.getD f [] = deps'.getD f []

theorem SameLists.append {deps deps' : TuDependencies} (h : SameLists deps deps') (f : Str)
    (l : List FileStamp) :
    SameLists (deps.upsert f [] (· ++ l)) (deps'.upsert f [] (· ++ l)) := by
  intro f'
  rw [UMap.getD_upsert, UMap.getD_upsert, h f, h f']

theorem SameLists.append_nil {deps deps' : TuDependencies} (h : SameLists deps deps') (f : Str) :
    SameLists deps (deps'.upsert f [] (· ++ [])) := by
  intro f'
  rw [UMap.getD_upsert, List.append_nil]
  by_cases hf : f' = f
  · rw [if_pos hf, hf]
    exact h f
  · rw [if_neg hf]
    exact h f'

theorem SameLists.eraseAll {deps deps' : TuDependencies} (h : SameLists deps deps')
    (keys : List Str) : SameLists (deps.eraseAll keys) (deps'.eraseAll keys) := by
  intro f
  unfold UMap.getD
  rw [UMap.lookup_eraseAll, UMap.lookup_eraseAll]
  by_cases hf : f ∈ keys
  · rw [if_pos hf, if_pos hf]
  · rw [if_neg hf, if_neg hf]
    exact h f

theorem SameLists.insertAll {deps deps' : TuDependencies} (h : SameLists deps deps')
    (fresh : TuDependencies) : SameLists (deps.insertAll fresh) (deps'.insertAll fresh) := by
  intro f
  unfold UMap.getD
  rw [UMap.lookup_insertAll, UMap.lookup_insertAll]
  cases fresh.lookup f with
  | some l => rfl
  | none => exact h f

/-- A row for every file expands like the rows that there were. -/
theorem sameLists_rows (table : List FileStamp) :
    ∀ (files : List FileStamp) (rows : List (List Nat)) (deps deps' : TuDependencies),
      SameLists deps deps' →
        SameLists
          ((files.zip rows).foldl
            (fun out (f, ids) => out.upsert f.path [] (· ++ ids.filterMap (table[·]?))) deps)
          ((files.zip ((List.range files.length).map fun i => rows.getD i [])).foldl
            (fun out (f, ids) => out.upsert f.path [] (· ++ ids.filterMap (table[·]?))) deps') := by
  intro files
  induction files with
  | nil => exact fun rows deps deps' h => h
  | cons f files ih =>
      intro rows deps deps' h
      rw [List.length_cons, List.range_succ_eq_map, List.map_cons, List.map_map]
      cases rows with
      | nil =>
          have hnext := ih [] deps _ (h.append_nil f.path)
          rw [List.zip_nil_right] at hnext ⊢
          exact hnext
      | cons row rows => exact ih rows _ _ (h.append f.path (row.filterMap (table[·]?)))

theorem sameLists_written (snapMeta : SnapshotMeta) :
    SameLists (dependenciesOf snapMeta)
      (dependenciesOf { snapMeta with tuDeps := writtenDeps snapMeta }) :=
  sameLists_rows snapMeta.deps snapMeta.files snapMeta.tuDeps ∅ ∅ fun _ => rfl

theorem SameLists.enterTUs {deps deps' : TuDependencies} (h : SameLists deps deps') :
    ∀ (files : List FileStamp) (t : DepTable), t.enterTUs deps files = t.enterTUs deps' files := by
  intro files
  induction files with
  | nil => exact fun t => rfl
  | cons f files ih =>
      intro t
      unfold DepTable.enterTUs
      rw [h f.path]
      dsimp only
      rw [ih]

theorem SameLists.recordDependencies {deps deps' : TuDependencies} (h : SameLists deps deps')
    (snapMeta : SnapshotMeta) :
    recordDependencies snapMeta deps = recordDependencies snapMeta deps' := by
  unfold SnapshotIO.recordDependencies
  rw [h.enterTUs]

theorem getD_writtenDeps (snapMeta : SnapshotMeta) {i : Nat} (hi : i < snapMeta.files.length) :
    (writtenDeps snapMeta).getD i [] = snapMeta.tuDeps.getD i [] := by
  unfold writtenDeps
  rw [List.getD_eq_getElem _ _ (by simpa using hi), List.getElem_map, List.getElem_range]

/-- A flag reads the lists of the recorded files only. -/
theorem dirtyTUs_written (fs : FileSystem) (snapMeta : SnapshotMeta) (current : List FileStamp) :
    dirtyTUs fs { snapMeta with tuDeps := writtenDeps snapMeta } current
      = dirtyTUs fs snapMeta current := by
  have hflag : ∀ recorded changed, dirtyFlag { snapMeta with tuDeps := writtenDeps snapMeta }
      recorded changed = dirtyFlag snapMeta recorded changed := by
    intro recorded changed
    funext stamp
    unfold dirtyFlag
    cases recorded.lookup stamp.path with
    | none => rfl
    | some i =>
        dsimp only
        by_cases hfile : snapMeta.files[i]? = some stamp
        · rw [getD_writtenDeps snapMeta (List.getElem?_eq_some_iff.mp hfile).1]
        · rw [if_pos hfile, if_pos hfile]
  unfold dirtyTUs
  dsimp only
  rw [hflag]
  rfl

theorem refreshedMeta_written (fs : FileSystem) (cfg : IndexConfig) (snapMeta : SnapshotMeta)
    (files : List Str) (fresh : TuDependencies) :
    refreshedMeta fs cfg { snapMeta with tuDeps := writtenDeps snapMeta } files fresh
      = refreshedMeta fs cfg snapMeta files fresh := by
  have hdeps : ∀ drop bake : List Str, SameLists (refreshDependencies snapMeta drop bake fresh)
      (refreshDependencies { snapMeta with tuDeps := writtenDeps snapMeta } drop bake fresh) :=
    fun drop bake =>
      (((sameLists_written snapMeta).eraseAll drop).eraseAll bake).insertAll fresh
  unfold refreshedMeta savedMeta
  dsimp only
  rw [dirtyTUs_written]
  exact ((hdeps _ _).recordDependencies _).symm

/-- Two meta sections serve a warm refresh alike: they flag the same TUs whatever the files
have become, and a refresh saves the same section from either. -/
def RefreshAlike (snapMeta snapMeta' : SnapshotMeta) : Prop :=
  ∀ fs : FileSystem,
    (∀ current, dirtyTUs fs snapMeta current = dirtyTUs fs snapMeta' current) ∧
    ∀ cfg files fresh, refreshedMeta fs cfg snapMeta files fresh
      = refreshedMeta fs cfg snapMeta' files fresh

/-- **A loaded meta section serves a warm refresh as the saved one does**, and it is the saved
one when that had a dependency list for every file. -/
theorem meta_round_trip (h : Fits w s.graph flow.index snapMeta channel.channels) :
    ∃ data, (load (save w s.graph flow.index snapMeta channel.channels)).run = some (some data) ∧
      RefreshAlike data.snapMeta snapMeta ∧
      (snapMeta.tuDeps.length = snapMeta.files.length → data.snapMeta = snapMeta) := by
  refine ⟨_, load_saved h s.wf flow.wf channel.listed, fun fs => ?_, fun hrows => ?_⟩
  · exact ⟨dirtyTUs_written fs snapMeta, fun cfg => refreshedMeta_written fs cfg snapMeta⟩
  · show { snapMeta with tuDeps := writtenDeps snapMeta } = snapMeta
    rw [writtenDeps_eq hrows]

theorem meta_round_trip_small :
    Fits .inOrder sharedEdge.graph smallHistory.index oneInclude sharedSite.channels ∧
    ∃ data, (load (save .inOrder sharedEdge.graph smallHistory.index oneInclude
        sharedSite.channels)).run = some (some data) ∧
      RefreshAlike data.snapMeta oneInclude ∧
      (oneInclude.tuDeps.length = oneInclude.files.length → data.snapMeta = oneInclude) :=
  ⟨fits_small, meta_round_trip fits_small⟩

end SnapshotIO

end Vycor
