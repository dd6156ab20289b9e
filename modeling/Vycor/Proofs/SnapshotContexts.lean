/-
The control-flow section, read back.

A load puts the live contexts of the saved index into an empty one, in their order, under
the same ids and the same set tables: what compacting does.  So a saved and loaded index
answers like the one that was saved under the condition under which the compacted one does.
-/
import Vycor.Proofs.ContextHistory
import Vycor.Proofs.ContextQueries

namespace Vycor

open Sticky Postings

namespace SnapshotIO

open ControlFlowIndex (HandlerFits ScopeFits IdsBelow SetsBelow LocalBelow)

/-! ### What fits the format -/

/-- The strings, the sets and the live contexts of an index fit 32-bit lengths and counts. -/
structure ContextsFit (cf : ControlFlowIndex) : Prop where
  stringCount : Short cf.interner.strings
  strings : ∀ s ∈ cf.interner.strings, Short s
  scopeSetCount : Short cf.scopeSets.sets
  scopeSets : ∀ set ∈ cf.scopeSets.sets, Short set ∧ ∀ scope ∈ set, ScopeFits scope
  guardSetCount : Short cf.guardSets.sets
  guardSets : ∀ set ∈ cf.guardSets.sets, Short set ∧ ∀ g ∈ set, GuardFits g
  raiiSetCount : Short cf.raiiSets.sets
  raiiSets : ∀ set ∈ cf.raiiSets.sets, Short set
  contextCount : Short (cf.contexts.filter (·.live))

/-! ### Records -/

theorem reads_readHandler {h : CatchHandlerInfo} (hfits : HandlerFits h) :
    Reads readHandler (emitHandler h) h := by
  refine (Reads.lenStr hfits.caughtType).bind ((Reads.bool h.isCatchAll).bind
    ((Reads.lenStr hfits.location).bind ?_))
  exact (Reads.lenStr hfits.bodySummary).last

theorem emitHandler_pos (h : CatchHandlerInfo) : 0 < (emitHandler h).length := by
  have := putLenStr_pos h.caughtType
  simp only [emitHandler, List.length_append]
  omega

theorem reads_readScope {scope : TryCatchScope} (hfits : ScopeFits scope) :
    Reads readScope (emitScope scope) scope := by
  refine (Reads.lenStr hfits.tryLocation).bind ((Reads.lenStr hfits.enclosingFunction).bind
    ((Reads.u32 scope.nestingDepth).bind ?_))
  exact (Reads.list hfits.handlerCount (fun h _ => emitHandler_pos h)
    fun h hh => reads_readHandler (hfits.handlers h hh)).last

theorem emitScope_pos (scope : TryCatchScope) : 0 < (emitScope scope).length := by
  have := putLenStr_pos scope.tryLocation
  simp only [emitScope, List.length_append]
  omega

theorem putList_pos {α : Type} (put : α → Bytes) (l : List α) : 0 < (putList put l).length := by
  simp [putList]

theorem reads_checkedId {interner : StringInterner} (hsize : interner.size < 2 ^ 32) {id : SId}
    (hid : id < interner.size) : Reads (checkedId interner) (putU32 id) id := by
  have hback : (UInt32.ofNat id).toNat = id :=
    UInt32.toNat_ofNat_of_lt' (Nat.lt_trans hid hsize)
  refine Reads.congr ((Reads.u32_ofNat (Nat.lt_trans hid hsize)).bind ?_) (List.append_nil _).symm
  refine Reads.require ?_ ?_
  · refine decide_eq_true (UInt32.lt_iff_toNat_lt.mpr ?_)
    rw [hback, UInt32.toNat_ofNat_of_lt' hsize]
    exact hid
  · rw [hback]
    exact Reads.pure _

theorem reads_readLocal {interner : StringInterner} (hsize : interner.size < 2 ^ 32)
    {l : StoredRaiiLocal} (hl : LocalBelow interner.size l) :
    Reads (readLocal interner) (emitLocal l) l := by
  refine (reads_checkedId hsize hl.1).bind ((reads_checkedId hsize hl.2.1).bind
    ((reads_checkedId hsize hl.2.2).bind ?_))
  have h := (Reads.u8 l.kind.toU8).last (f := fun code =>
    StoredRaiiLocal.mk l.typeName l.varName l.declLocation (RaiiKind.ofU8 code))
  rwa [RaiiKind.ofU8_toU8] at h

theorem emitLocal_pos (l : StoredRaiiLocal) : 0 < (emitLocal l).length := by
  simp [emitLocal, putU32]

/-- A TU path that is recorded is no `kNoString`, since the table has fewer strings. -/
theorem reads_readTuPath {interner : StringInterner} (hsize : interner.size < 2 ^ 32)
    {tuPath : Option SId} (htu : ∀ tu, tuPath = some tu → tu < interner.size) :
    Reads (readTuPath interner) (putU32 (tuPath.getD kNoString.toNat)) tuPath := by
  cases tuPath with
  | none =>
      refine Reads.congr ((Reads.u32 kNoString).bind ?_) (List.append_nil _).symm
      rw [if_neg (by simp)]
      exact Reads.pure _
  | some tu =>
      have hid := htu tu rfl
      have hback : (UInt32.ofNat tu).toNat = tu :=
        UInt32.toNat_ofNat_of_lt' (Nat.lt_trans hid hsize)
      have hne : UInt32.ofNat tu ≠ kNoString := by
        intro hc
        rw [hc] at hback
        have hlast : kNoString.toNat + 1 = 2 ^ 32 := by decide
        have hlt : kNoString.toNat < interner.size := hback ▸ hid
        omega
      refine Reads.congr ((Reads.u32_ofNat (Nat.lt_trans hid hsize)).bind ?_)
        (List.append_nil _).symm
      rw [if_pos hne]
      refine Reads.require ?_ ?_
      · refine decide_eq_true (UInt32.lt_iff_toNat_lt.mpr ?_)
        rw [hback, UInt32.toNat_ofNat_of_lt' hsize]
        exact hid
      · rw [hback]
        exact Reads.pure _

theorem emitContext_pos (se : StoredContext) : 0 < (emitContext se).length := by
  simp [emitContext, putU32]

/-- A stored context reads back into an index with the tables of its own. -/
theorem reads_readContext {cf cf' : ControlFlowIndex} (hfits : ContextsFit cf) (mode : LoadMode)
    (hinterner : cf'.interner = cf.interner) (hscopes : cf'.scopeSets.sets = cf.scopeSets.sets)
    (hguards : cf'.guardSets.sets = cf.guardSets.sets)
    (hraiis : cf'.raiiSets.sets = cf.raiiSets.sets) {se : StoredContext}
    (hids : IdsBelow cf.interner.size se) (hsets : SetsBelow cf se) (hlive : se.live = true) :
    Reads (readContext mode cf') (emitContext se) (installContext mode cf' se) := by
  have hsize : cf.interner.size < 2 ^ 32 := hfits.stringCount
  have hscope : se.scopeSet < 2 ^ 32 := Nat.lt_trans hsets.scopeSet hfits.scopeSetCount
  have hguard : se.guardSet < 2 ^ 32 := Nat.lt_trans hsets.guardSet hfits.guardSetCount
  have hraii : se.raiiSet < 2 ^ 32 := Nat.lt_trans hsets.raiiSet hfits.raiiSetCount
  unfold readContext
  rw [hinterner, hscopes, hguards, hraiis]
  refine (reads_checkedId hsize hids.caller).bind ((reads_checkedId hsize hids.callee).bind
    ((reads_checkedId hsize hids.callerDisplay).bind
    ((reads_checkedId hsize hids.calleeDisplay).bind ((reads_checkedId hsize hids.site).bind
    ((reads_readTuPath hsize hids.tuPath).bind ((Reads.u32_ofNat hscope).bind
    ((Reads.u32_ofNat hguard).bind ((Reads.u32_ofNat hraii).bind ((Reads.u8 _).bind ?_)))))))))
  refine Reads.congr ((Reads.bool se.insideCatchBlock).bind ?_) (List.append_nil _).symm
  rw [UInt32.toNat_ofNat_of_lt' hscope, UInt32.toNat_ofNat_of_lt' hguard,
    UInt32.toNat_ofNat_of_lt' hraii, NoexceptSpec.ofU8_toU8]
  refine Reads.require ?_ (Reads.ifOk ?_)
  · simp [hsets.scopeSet, hsets.guardSet, hsets.raiiSet]
  · have hsame : (⟨se.caller, se.callee, se.callerDisplay, se.calleeDisplay, se.site, se.tuPath,
        se.scopeSet, se.guardSet, se.raiiSet, se.callerNoexcept, se.insideCatchBlock, true⟩ :
        StoredContext) = se := by
      rw [← hlive]
    rw [hsame]
    exact Reads.pure _

/-! ### The section -/

variable {cf : ControlFlowIndex} {mode : LoadMode} {heap : Nat}

/-- The empty index under the tables a load has read. -/
def reloadTables (mode : LoadMode) (cf : ControlFlowIndex) : ControlFlowIndex where
  interner := cf.interner
  scopeSets := rebuildTable mode ControlFlowIndex.scopeSetKey cf.scopeSets.sets
  guardSets := rebuildTable mode ControlFlowIndex.guardSetKey cf.guardSets.sets
  raiiSets := rebuildTable mode ControlFlowIndex.raiiSetKey cf.raiiSets.sets

/-- The index a load makes of a saved one. -/
def reloadContexts (mode : LoadMode) (cf : ControlFlowIndex) : ControlFlowIndex :=
  (cf.contexts.filter (·.live)).foldl (installContext mode) (reloadTables mode cf)

theorem seeded_of_inRange {α : Type} {t : SetTable α} (h : t.InRange) : seeded t.sets = true := by
  obtain ⟨rest, hsets⟩ := h.seed
  rw [hsets]
  rfl

theorem installContext_tables (mode : LoadMode) (cf : ControlFlowIndex) (se : StoredContext) :
    (installContext mode cf se).interner = cf.interner ∧
      (installContext mode cf se).scopeSets = cf.scopeSets ∧
      (installContext mode cf se).guardSets = cf.guardSets ∧
      (installContext mode cf se).raiiSets = cf.raiiSets := by
  cases mode <;> exact ⟨rfl, rfl, rfl, rfl⟩

/-- **The control-flow section reads back as the reloaded index.** -/
theorem reads_readControlFlow (hwf : cf.WF) (hfits : ContextsFit cf) :
    Reads (readControlFlow heap mode) (emitControlFlow cf) (reloadContexts mode cf) := by
  have hsize : cf.interner.size < 2 ^ 32 := hfits.stringCount
  have hinterner : Reads (readInternerTable heap) (emitInternerTable cf.interner) cf.interner :=
    (Reads.listReserved hfits.stringCount (fun s _ => putLenStr_pos s)
      fun s hs => Reads.lenStr (hfits.strings s hs)).last
  have hscopes : Reads (list (listReserved heap readScope)) (putList (putList emitScope) cf.scopeSets.sets)
      cf.scopeSets.sets :=
    Reads.list hfits.scopeSetCount (fun set _ => putList_pos _ set) fun set hset =>
      Reads.listReserved (hfits.scopeSets set hset).1 (fun scope _ => emitScope_pos scope)
        fun scope hscope => reads_readScope ((hfits.scopeSets set hset).2 scope hscope)
  have hguards : Reads (list (listReserved heap readGuard)) (putList (putList emitGuard) cf.guardSets.sets)
      cf.guardSets.sets :=
    Reads.list hfits.guardSetCount (fun set _ => putList_pos _ set) fun set hset =>
      Reads.listReserved (hfits.guardSets set hset).1 (fun g _ => emitGuard_pos g)
        fun g hg => reads_readGuard ((hfits.guardSets set hset).2 g hg)
  have hraiis : Reads (list (listReserved heap (readLocal cf.interner)))
      (putList (putList emitLocal) cf.raiiSets.sets) cf.raiiSets.sets :=
    Reads.list hfits.raiiSetCount (fun set _ => putList_pos _ set) fun set hset =>
      Reads.listReserved (hfits.raiiSets set hset) (fun l _ => emitLocal_pos l)
        fun l hl => reads_readLocal hsize (hwf.inRange.locals set hset l hl)
  have htables : Reads (readSetTables heap mode cf.interner)
      (putList (putList emitScope) cf.scopeSets.sets ++
        (putList (putList emitGuard) cf.guardSets.sets ++
          putList (putList emitLocal) cf.raiiSets.sets)) (reloadTables mode cf) := by
    refine hscopes.bind (hguards.bind (Reads.congr (hraiis.bind ?_) (List.append_nil _).symm))
    refine Reads.require ?_ (Reads.pure _)
    rw [seeded_of_inRange hwf.inRange.scopeSets, seeded_of_inRange hwf.inRange.guardSets,
      seeded_of_inRange hwf.inRange.raiiSets]
    rfl
  have hcontexts : Reads (readContexts heap mode (reloadTables mode cf))
      (putList emitContext (cf.contexts.filter (·.live))) (reloadContexts mode cf) := by
    refine (Reads.countedReserved (s := reloadTables mode cf)
      (fun cf' : ControlFlowIndex => cf'.interner = cf.interner ∧
      cf'.scopeSets.sets = cf.scopeSets.sets ∧ cf'.guardSets.sets = cf.guardSets.sets ∧
      cf'.raiiSets.sets = cf.raiiSets.sets) hfits.contextCount (fun se _ => emitContext_pos se)
      ?_ ⟨rfl, rfl, rfl, rfl⟩).1
    rintro se hse cf' ⟨hi, hs, hg, hr⟩
    have hmem := List.mem_of_mem_filter hse
    obtain ⟨hi', hs', hg', hr'⟩ := installContext_tables mode cf' se
    exact ⟨reads_readContext hfits mode hi hs hg hr (hwf.inRange.ids se hmem)
      (hwf.inRange.sets se hmem) (List.mem_filter.mp hse).2,
      by rw [hi', hi], by rw [hs', hs], by rw [hg', hg], by rw [hr', hr]⟩
  unfold readControlFlow emitControlFlow
  refine hinterner.bind (Reads.ifOk (Reads.congr (htables.bind hcontexts) ?_))
  rw [putU32, hwf.liveCount]
  simp only [putList, List.append_assoc]

/-! ### The reloaded index -/

/-- A load inserts the contexts as the mutators do, up to the maps of the TUs. -/
theorem foldl_installContext (mode : LoadMode) (stored : List StoredContext)
    (cf : ControlFlowIndex) (tus : UMap SId (List Nat)) (unnamed : List Nat) :
    ∃ tus' unnamed', stored.foldl (installContext mode)
        { cf with byTu := tus, noProvenance := unnamed }
      = { stored.foldl ControlFlowIndex.insertStored cf with
          byTu := tus', noProvenance := unnamed' } := by
  induction stored generalizing cf tus unnamed with
  | nil => exact ⟨tus, unnamed, rfl⟩
  | cons se rest ih =>
      have hstep : ∃ tus' unnamed', installContext mode
          { cf with byTu := tus, noProvenance := unnamed } se
          = { cf.insertStored se with byTu := tus', noProvenance := unnamed' } := by
        cases mode <;> exact ⟨_, _, rfl⟩
      obtain ⟨tus', unnamed', hstep⟩ := hstep
      rw [List.foldl_cons, hstep, List.foldl_cons]
      exact ih (cf.insertStored se) tus' unnamed'

/-- **The reloaded index holds the live contexts of the saved one.** -/
theorem rebuilt_reload (mode : LoadMode) (cf : ControlFlowIndex) :
    ControlFlowIndex.Rebuilt cf (reloadContexts mode cf) := by
  obtain ⟨tus, unnamed, hreload⟩ := foldl_installContext mode (cf.contexts.filter (·.live))
    (reloadTables mode cf) ∅ []
  have hstart : { reloadTables mode cf with byTu := ∅, noProvenance := [] }
      = reloadTables mode cf := rfl
  rw [hstart] at hreload
  have hfiled : ControlFlowIndex.Filed
      ((cf.contexts.filter (·.live)).foldl ControlFlowIndex.insertStored (reloadTables mode cf)) :=
    (ControlFlowIndex.filed_tables _ _ _ _).insertAll _
  obtain ⟨hinterner, hscopes, hguards, hraiis⟩ := ControlFlowIndex.insertAll_tables
    (cf.contexts.filter (·.live)) (reloadTables mode cf) _ rfl
  have hcontexts := ControlFlowIndex.insertAll_contexts (cf.contexts.filter (·.live))
    (reloadTables mode cf)
  have hfull := ControlFlowIndex.noneEmpty_insertAll (cf.contexts.filter (·.live))
    (reloadTables mode cf) noneEmpty_empty noneEmpty_empty
  generalize (cf.contexts.filter (·.live)).foldl ControlFlowIndex.insertStored
    (reloadTables mode cf) = built
    at hreload hfiled hinterner hscopes hguards hraiis hcontexts hfull
  unfold reloadContexts
  rw [hreload]
  exact
    { byCallee := hfiled.byCallee, byCaller := hfiled.byCaller
      byCalleeDisplay := hfiled.byCalleeDisplay, byCallerDisplay := hfiled.byCallerDisplay
      bySite := hfiled.bySite
      interner := hinterner
      scopeSets := (congrArg SetTable.sets hscopes : built.scopeSets.sets = _)
      guardSets := (congrArg SetTable.sets hguards : built.guardSets.sets = _)
      raiiSets := (congrArg SetTable.sets hraiis : built.raiiSets.sets = _)
      contexts := hcontexts.trans (ControlFlowIndex.live_map_live _)
      callees := hfull.1, callers := hfull.2 }

/-- **A saved index that loads comes back with the reloaded contexts.** -/
theorem load_save_contexts (w : HashWalk) {graph : CallGraph} {snapMeta : SnapshotMeta}
    {channels : ChannelIndex} (hwf : cf.WF) (hfits : ContextsFit cf)
    (hfile : (save w graph cf snapMeta channels).length < 2 ^ 64) {data : SnapshotData}
    (hload : (load (save w graph cf snapMeta channels) mode).run = some (some data)) :
    data.cfIndex = reloadContexts mode cf := by
  have hread : Reads (readControlFlow 0 mode) (emitControlFlow cf) _ :=
    reads_readControlFlow hwf hfits
  rw [load_save w graph cf snapMeta channels mode kSectionAll hfile, decode_of_reads hread] at hload
  obtain ⟨snapMeta', -, hload⟩ := run_bind_some hload
  obtain ⟨graph', -, hload⟩ := run_bind_some hload
  obtain ⟨cfIndex', hcf, hload⟩ := run_bind_some hload
  obtain ⟨channels', -, hload⟩ := run_bind_some hload
  have hcf' : some (some (reloadContexts mode cf)) = some (some cfIndex') := hcf
  injection hcf' with hcf'
  injection hcf' with hcf'
  have hdata : some (some _) = some (some data) := hload
  injection hdata with hdata
  injection hdata with hdata
  rw [← hdata, hcf']

/-- The index section of a file without anything else always comes back. -/
theorem load_save_alone (w : HashWalk) (hwf : cf.WF) (hfits : ContextsFit cf)
    (hfile : (save w {} cf {} {}).length < 2 ^ 64) :
    ∃ data, (load (save w {} cf {} {}) mode).run = some (some data) := by
  have hread : Reads (readControlFlow 0 mode) (emitControlFlow cf) _ :=
    reads_readControlFlow hwf hfits
  have hwalk : ∀ {κ β : Type}, w.walk (∅ : UMap κ β) = [] := fun {κ β} =>
    List.perm_nil.mp (w.perm (∅ : UMap κ β))
  have hgraph : emitGraph w {} = List.replicate 28 0 := by
    simp only [emitGraph, emitPairs, relationPairs, hwalk]
    rfl
  have hchannels : emitChannels w {} = List.replicate 4 0 := by
    rfl
  rw [load_save w {} cf {} {} mode kSectionAll hfile, decode_of_reads hread, hgraph, hchannels]
  cases mode with
  | mutable => exact ⟨_, rfl⟩
  | readOnly => exact ⟨_, rfl⟩

end SnapshotIO

/-! ### Rewrites -/

namespace ControlFlowIndex

open SnapshotIO (ContextsFit save load load_save_contexts rebuilt_reload)

/-- Neither compacting nor saving and loading, in either mode, changes an answer. -/
structure RewritesInvisibly (cf : ControlFlowIndex) : Prop where
  compact : SameAnswers cf cf.compact
  reload : ContextsFit cf → ∀ (w : HashWalk) (graph : CallGraph) (snapMeta : SnapshotMeta)
    (channels : ChannelIndex) (mode : LoadMode) (data : SnapshotData),
    (save w graph cf snapMeta channels).length < 2 ^ 64 →
      (load (save w graph cf snapMeta channels) mode).run = some (some data) →
        SameAnswers cf data.cfIndex

/-- **Compacting and reloading are invisible exactly when no empty usr entry hides contexts**,
in every index that a history reaches. -/
theorem History.rewritesInvisibly_iff (h : History) :
    RewritesInvisibly h.index ↔ h.index.NoShadow := by
  have hwf := h.wf
  constructor
  · intro hinvisible
    exact (hwf.rebuilt_compact.sameAnswers_iff hwf).mp hinvisible.compact
  · intro hshadow
    refine ⟨hwf.rebuilt_compact.sameAnswers hwf.queried hshadow, ?_⟩
    intro hfits w graph snapMeta channels mode data hfile hload
    rw [load_save_contexts w hwf hfits hfile hload]
    exact (rebuilt_reload mode h.index).sameAnswers hwf.queried hshadow

/-- A call of `log` recorded by name only, and one recorded by usr. -/
def loggedCall (tuPath usr : Str) : CallSiteContext where
  callerName := str "main"
  calleeName := str "log"
  callSite := tuPath ++ str ":3:5"
  calleeUsr := usr
  tuPath := tuPath

/-- The TU of the call by name goes; its usr entry stays behind, empty. -/
def shadowHistory : History :=
  .removeTUs (.add (.add .empty (loggedCall (str "a.cpp") []))
    (loggedCall (str "b.cpp") (str "c:@F@log"))) [str "a.cpp"]

theorem shadowHistory_visible :
    shadowHistory.index.contextsForCallee (str "log") = [] ∧
      shadowHistory.index.compact.contextsForCallee (str "log")
        = [displayed (loggedCall (str "b.cpp") (str "c:@F@log"))] := by
  decide +kernel

end ControlFlowIndex

end Vycor
