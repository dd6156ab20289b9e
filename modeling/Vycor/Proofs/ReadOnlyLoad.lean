/-
A read-only load against a mutable one.

Both decode the same records; the read-only one leaves out the maps that only mutation needs,
and the sections nobody asked for.  So each of its readers is the image of the mutable one
under forgetting those maps, and what it loads is the restriction of what the other loads.

By the same comparison the memory of the machine does not matter to a file that loads: what
such a file asks for is warranted by its own bytes.
-/
import Vycor.Proofs.SnapshotSafety

namespace Vycor

open Sticky (Read Image Cursor Safe)

/-! ### The maps a read-only index does without -/

/-- The graph without what only a change of it needs. -/
def CallGraph.readOnly (g : CallGraph) : CallGraph :=
  { g with edgeIndex := ∅, tuEdges := ∅, nodeContributors := ∅, tuNodes := ∅ }

/-- The sets without the ids of their keys. -/
def SetTable.readOnly {α : Type} (t : SetTable α) : SetTable α := { t with ids := ∅ }

/-- The contexts without what only a change of them needs. -/
def ControlFlowIndex.readOnly (cf : ControlFlowIndex) : ControlFlowIndex :=
  { cf with
    scopeSets := cf.scopeSets.readOnly, guardSets := cf.guardSets.readOnly
    raiiSets := cf.raiiSets.readOnly, byTu := ∅, noProvenance := [] }

/-- The channel sites without what only a change of them needs. -/
def ChannelIndex.readOnly (ch : ChannelIndex) : ChannelIndex := { ch with byTu := ∅ }

/-- What a read-only load of the needed sections makes of the file of a full load. -/
def SnapshotData.restrict (data : SnapshotData) (needs : UInt32) : SnapshotData :=
  { data with
    graph := if needs &&& kSectionGraph != 0 then data.graph.readOnly else {}
    cfIndex := if needs &&& kSectionControlFlow != 0 then data.cfIndex.readOnly else {}
    channels := if needs &&& kSectionChannels != 0 then data.channels.readOnly else {}
    loaded := needs &&& kSectionAll }

namespace SnapshotIO

variable {heap heap' : Nat} {mode : LoadMode}

theorem same_readInternerTable :
    Image id (readInternerTable heap) (readInternerTable heap') :=
  Image.bind (Image.listReserved Safe.lenStr.image) fun strings =>
    Image.pure id ({ strings } : StringInterner)

theorem same_checkedId (t : StringInterner) : Image id (checkedId t) (checkedId t) :=
  (safe_checkedId t).image

/-! ### The graph section -/

/-- A stored node's contributors are read past. -/
theorem image_readNode (g : CallGraph) :
    Image CallGraph.readOnly (readNode .mutable g) (readNode .readOnly g.readOnly) := by
  refine Image.step (same_checkedId _) fun nameId => Image.step (same_checkedId _) fun displayId => ?_
  refine Image.step Safe.lenStr.image fun file => Image.step Safe.u32.image fun line => ?_
  refine Image.step Safe.u8.image fun flags => Image.step Safe.lenStr.image fun enclosingClass => ?_
  refine Image.step Safe.count.image fun contribCount => Image.ifOk ?_ g
  refine Image.step (Image.entry _ _) fun usr => Image.step (Image.entry _ _) fun name => ?_
  refine Image.loop (fun g => ?_) contribCount _
  refine Image.step (same_checkedId _) fun tuId => Image.ifOk ?_ g
  exact Image.pure CallGraph.readOnly (g.addContributor nameId tuId)

theorem image_readEdge (g : CallGraph) :
    Image CallGraph.readOnly (readEdge .mutable g) (readEdge .readOnly g.readOnly) := by
  refine Image.step (same_checkedId _) fun caller => Image.step (same_checkedId _) fun callee => ?_
  refine Image.step (same_checkedId _) fun callSite => Image.step Safe.u8.image fun kind => ?_
  refine Image.step Safe.u8.image fun confidence => Image.step Safe.u8.image fun execContext => ?_
  refine Image.step Safe.u32.image fun indirectionDepth => Image.step Safe.u32.image fun refs => ?_
  refine Image.step Safe.count.image fun contribCount => ?_
  refine Image.step Safe.require.image fun _ => Image.ifOk ?_ g
  refine Image.loop (fun g' => ?_) contribCount _
  refine Image.step (same_checkedId _) fun tuId => Image.ifOk ?_ g'
  exact Image.pure CallGraph.readOnly (g'.tagEdges tuId [g.edges.length])

/-- The relations are read in full by both. -/
theorem image_readPair {install : CallGraph → SId → SId → CallGraph}
    (h : ∀ g a b, install g.readOnly a b = (install g a b).readOnly) (g : CallGraph) :
    Image CallGraph.readOnly (readPair install g) (readPair install g.readOnly) := by
  refine Image.step (same_checkedId _) fun a => Image.step (same_checkedId _) fun b =>
    Image.ifOk ?_ g
  rw [h]
  exact Image.pure CallGraph.readOnly (install g a b)

/-- A read-only load makes no room for an edge index. -/
theorem image_readEdges (g : CallGraph) :
    Image CallGraph.readOnly (readEdges heap .mutable g) (readEdges heap' .readOnly g.readOnly) :=
  Image.bind Safe.count.image fun n => Image.reserving (Image.loop image_readEdge n g)

theorem image_readGraph :
    Image CallGraph.readOnly (readGraph heap .mutable) (readGraph heap' .readOnly) := by
  refine Image.bind same_readInternerTable fun interner => ?_
  refine Image.ifOk (f := CallGraph.readOnly) ?_ {}
  refine Image.bind (Image.counting fun n => Image.loop image_readNode n { interner }) fun g => ?_
  refine Image.bind (image_readEdges g) fun g => ?_
  refine Image.bind (Image.counted (image_readPair fun _ _ _ => rfl) g) fun g => ?_
  refine Image.bind (Image.counted (image_readPair fun _ _ _ => rfl) g) fun g => ?_
  refine Image.bind (Image.counted (image_readPair fun _ _ _ => rfl) g) fun g => ?_
  exact Image.counted (image_readPair fun _ _ _ => rfl) g

/-! ### The control-flow section -/

theorem image_readContext (cf : ControlFlowIndex) :
    Image ControlFlowIndex.readOnly (readContext .mutable cf)
      (readContext .readOnly cf.readOnly) := by
  refine Image.step (same_checkedId _) fun caller => Image.step (same_checkedId _) fun callee => ?_
  refine Image.step (same_checkedId _) fun callerDisplay => ?_
  refine Image.step (same_checkedId _) fun calleeDisplay => ?_
  refine Image.step (same_checkedId _) fun site => ?_
  refine Image.step (safe_readTuPath _).image fun tuPath => ?_
  refine Image.step Safe.u32.image fun scopeSet => Image.step Safe.u32.image fun guardSet => ?_
  refine Image.step Safe.u32.image fun raiiSet => Image.step Safe.u8.image fun noexceptSpec => ?_
  refine Image.step Safe.bool.image fun insideCatchBlock => ?_
  refine Image.step Safe.require.image fun _ => Image.ifOk ?_ cf
  exact Image.pure ControlFlowIndex.readOnly (cf.insertStored _)

theorem image_readSetTables (interner : StringInterner) :
    Image ControlFlowIndex.readOnly (readSetTables heap .mutable interner)
      (readSetTables heap' .readOnly interner) := by
  refine Image.bind (Image.list (Image.listReserved safe_readScope.image)) fun scopeSets => ?_
  refine Image.bind (Image.list (Image.listReserved safe_readGuard.image)) fun guardSets => ?_
  refine Image.bind (Image.list (Image.listReserved (safe_readLocal interner).image))
    fun raiiSets => ?_
  refine Image.step Safe.require.image fun _ => ?_
  exact Image.pure ControlFlowIndex.readOnly _

theorem image_readControlFlow :
    Image ControlFlowIndex.readOnly (readControlFlow heap .mutable)
      (readControlFlow heap' .readOnly) := by
  refine Image.bind same_readInternerTable fun interner => ?_
  refine Image.ifOk (f := ControlFlowIndex.readOnly) ?_ {}
  refine Image.bind (image_readSetTables interner) fun cf => ?_
  exact Image.counting fun n => Image.loop image_readContext n cf

/-! ### The channel section -/

theorem image_readSite (ch : ChannelIndex) :
    Image ChannelIndex.readOnly (readSite heap .mutable ch)
      (readSite heap' .readOnly ch.readOnly) := by
  refine Image.step safe_readSiteHead.image fun head => Image.counting fun n => ?_
  refine Image.step (Safe.many Safe.lenStr.guarded n).image fun tus => ?_
  refine Image.step Safe.require.image fun _ => Image.ifOk ?_ ch
  exact Image.pure ChannelIndex.readOnly (installSite .mutable ch head.1 head.2.toNat tus)

theorem image_readChannels :
    Image ChannelIndex.readOnly (readChannels heap .mutable) (readChannels heap' .readOnly) :=
  Image.counted image_readSite {}

/-! ### Other memory -/

theorem heap_readGraph : Image id (readGraph heap .mutable) (readGraph heap' .mutable) := by
  refine Image.bind same_readInternerTable fun interner => ?_
  refine Image.ifOk (f := id) ?_ ({} : CallGraph)
  refine Image.bind (Image.counting fun n => Image.loop (f := id) (fun g => (image_readNode g).self)
    n { interner }) fun g => ?_
  refine Image.bind (Image.counting fun n => Image.loop (f := id) (fun g => (image_readEdge g).self)
    n g) fun g => ?_
  have hpairs : ∀ {install : CallGraph → SId → SId → CallGraph} (g : CallGraph),
      (∀ g a b, install g.readOnly a b = (install g a b).readOnly) →
      Image id (Sticky.counted (readPair install) g) (Sticky.counted (readPair install) g) := fun g h =>
    Image.counted (f := id) (fun g => (image_readPair h g).self) g
  refine Image.bind (hpairs g fun _ _ _ => rfl) fun g => ?_
  refine Image.bind (hpairs g fun _ _ _ => rfl) fun g => ?_
  refine Image.bind (hpairs g fun _ _ _ => rfl) fun g => ?_
  exact hpairs g fun _ _ _ => rfl

theorem heap_readControlFlow :
    Image id (readControlFlow heap .mutable) (readControlFlow heap' .mutable) := by
  refine Image.bind same_readInternerTable fun interner => ?_
  refine Image.ifOk (f := id) ?_ ({} : ControlFlowIndex)
  refine Image.bind (f := id) ?_ fun cf =>
    Image.counting fun n => Image.loop (f := id) (fun cf => (image_readContext cf).self) n cf
  refine Image.bind (Image.list (Image.listReserved safe_readScope.image)) fun scopeSets => ?_
  refine Image.bind (Image.list (Image.listReserved safe_readGuard.image)) fun guardSets => ?_
  refine Image.bind (Image.list (Image.listReserved (safe_readLocal interner).image))
    fun raiiSets => Image.step Safe.require.image fun _ => Image.pure id _

theorem heap_readChannels :
    Image id (readChannels heap .mutable) (readChannels heap' .mutable) := by
  refine Image.counted (f := id) (fun ch => ?_) ({} : ChannelIndex)
  refine Image.step safe_readSiteHead.image fun head => Image.counting fun n => ?_
  refine Image.step (Safe.many Safe.lenStr.guarded n).image fun tus => ?_
  exact Image.step Safe.require.image fun _ => Image.ifOk (f := id) (Image.pure id _) ch

/-! ### The file -/

/-- Bytes that decode also decode for the reader of the image. -/
theorem decode_image {α β : Type} {f : α → β} {m : Read α} {m' : Read β} (h : Image f m m')
    {bytes : Bytes} {a : α} (hm : (decode m bytes).run = some (some a)) :
    (decode m' bytes).run = some (some (f a)) := by
  obtain ⟨⟨a', cursor⟩, hread, hrest⟩ := run_bind_some hm
  have hread : m ⟨bytes, true⟩ = some (a', cursor) := by
    cases hrun : m ⟨bytes, true⟩ with
    | none => simp [OptionT.run_lift, hrun] at hread
    | some r => simpa [OptionT.run_lift, hrun] using hread
  dsimp only at hrest
  split at hrest
  · rename_i hdone
    have hok : cursor.ok = true := (Bool.and_eq_true_iff.mp hdone).1
    have hlift : (OptionT.lift (m' ⟨bytes, true⟩) : Load (β × Cursor)).run
        = some (some (f a', cursor)) := by
      rw [(h _ _ _ hread hok).2]
      rfl
    refine (run_bind_of hlift).trans ?_
    dsimp only
    rw [if_pos hdone, ← run_pure_inj hrest]
    rfl
  · exact absurd hrest (by simp)

theorem readSection_image {α β : Type} {f : α → β} {m : Read α} {m' : Read β} (h : Image f m m')
    {file : Bytes} {header : Header} {kind : Nat} {a : α}
    (hm : (readSection file header kind m).run = some (some a)) :
    (readSection file header kind m').run = some (some (f a)) := by
  obtain ⟨bytes, hslice, hrest⟩ := run_bind_some hm
  exact (run_bind_of hslice).trans (decode_image h hrest)

theorem readNeeded_image {α : Type} {f : α → α} {needs bit : UInt32} {empty : α} {x x' : Load α}
    (h : ∀ a, x.run = some (some a) → x'.run = some (some (f a))) {a : α}
    (hx : x.run = some (some a)) :
    (readNeeded needs bit empty x').run
      = some (some (if needs &&& bit != 0 then f a else empty)) := by
  unfold readNeeded
  split
  · exact h a hx
  · rfl

/-- **A file that loads in full loads read-only**, and to the restriction of the full load. -/
theorem load_readOnly {file : Bytes} {data : SnapshotData} (needs : UInt32)
    (h : (load file .mutable kSectionAll heap).run = some (some data)) :
    (load file .readOnly needs heap').run = some (some (data.restrict needs)) := by
  obtain ⟨⟨found, cursor⟩, hheader, h⟩ := run_bind_some h
  obtain ⟨header, hfound, h⟩ := run_bind_some h
  refine (run_bind_of hheader).trans ((run_bind_of hfound).trans ?_)
  dsimp only at h ⊢
  split at h
  · exact absurd h (by simp)
  · rename_i hsize
    rw [if_neg hsize]
    obtain ⟨snapMeta, hmeta, h⟩ := run_bind_some h
    obtain ⟨graph, hgraph, h⟩ := run_bind_some h
    obtain ⟨cfIndex, hcf, h⟩ := run_bind_some h
    obtain ⟨channels, hchannels, h⟩ := run_bind_some h
    refine (run_bind_of hmeta).trans ?_
    refine (run_bind_of (readNeeded_image (fun a => readSection_image image_readGraph)
      hgraph)).trans ?_
    refine (run_bind_of (readNeeded_image (fun a => readSection_image image_readControlFlow)
      hcf)).trans ?_
    refine (run_bind_of (readNeeded_image (fun a => readSection_image image_readChannels)
      hchannels)).trans ?_
    rw [← run_pure_inj h]
    rfl

/-- **A file that loads, loads whatever the memory**, and to the same data. -/
theorem load_heap {file : Bytes} {needs : UInt32} {data : SnapshotData}
    (h : (load file .mutable needs heap).run = some (some data)) :
    (load file .mutable needs heap').run = some (some data) := by
  by_cases hopens : ∃ header, Opens file header
  case neg =>
    rw [load_unopened hopens] at h
    simp at h
  obtain ⟨header, hopens⟩ := hopens
  have hneeded : ∀ {α : Type} {bit : UInt32} {empty a : α} {m m' : Read α} {bytes : Bytes},
      Image id m m' → (readNeeded needs bit empty (decode m bytes)).run = some (some a) →
      (readNeeded needs bit empty (decode m' bytes)).run = some (some a) := by
    intro α bit empty a m m' bytes himage hrun
    unfold readNeeded at hrun ⊢
    split at hrun
    · rename_i hbit
      rw [if_pos hbit]
      exact decode_image himage hrun
    · rename_i hbit
      rw [if_neg hbit]
      exact hrun
  rw [load_opened hopens] at h ⊢
  obtain ⟨snapMeta, hmeta, h⟩ := run_bind_some h
  obtain ⟨graph, hgraph, h⟩ := run_bind_some h
  obtain ⟨cfIndex, hcf, h⟩ := run_bind_some h
  obtain ⟨channels, hchannels, h⟩ := run_bind_some h
  rw [run_bind_of hmeta, run_bind_of (hneeded heap_readGraph hgraph),
    run_bind_of (hneeded heap_readControlFlow hcf),
    run_bind_of (hneeded heap_readChannels hchannels)]
  exact h

end SnapshotIO

end Vycor
