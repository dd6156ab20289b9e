/-
When a load is safe.

Every record of the snapshot is read by a `Safe` sequence: an id is checked against the
interner before it is used, and the flag is looked at between the check and the use.  What a
section installs is then in range by one lemma for each record, and the loops keep it.  The
header's section table is what keeps the sections themselves inside the file.

Three counts are read without a look at the flag since the records before them: the edges of
a mutable graph, the contexts and the TUs of a channel site.  Room is made for each, so a
section that goes wrong in front of one of them can ask for any amount.  That is the one way
in which a load fails to come back, and `FileOverasks` says which files do it.
-/
import Vycor.Proofs.IndexRange
import Vycor.Proofs.SnapshotFile

namespace Vycor

open Sticky

namespace SnapshotIO

open CallGraph (KeyBelow IdLists PosLists)
open UMap (Lists)

variable {mode : LoadMode} {heap : Nat} {A : Prop}

/-! ### Meta -/

theorem safe_readChannelTypeSpec : Safe A readChannelTypeSpec fun _ => True :=
  Safe.skip Safe.lenStr fun _ => Safe.skip (Safe.list Safe.lenStr.guarded) fun _ =>
    Safe.skip (Safe.list Safe.lenStr.guarded) fun _ => Safe.skip Safe.lenStr fun _ =>
      Safe.pure fun _ => trivial

theorem safe_readStamp : Safe A readStamp fun _ => True :=
  Safe.skip Safe.lenStr fun _ => Safe.skip Safe.u64 fun _ => Safe.skip Safe.u64 fun _ =>
    Safe.pure fun _ => trivial

theorem safe_readDep (deps : Nat) : Safe A (readDep deps) (· < deps) :=
  Safe.skip Safe.u32 fun _ => Safe.step Safe.require fun _ =>
    Safe.pure fun h => of_decide_eq_true h.2

/-- Every dependency id is an index into the dependency table. -/
def MetaInRange (snapMeta : SnapshotMeta) : Prop :=
  ∀ ids ∈ snapMeta.tuDeps, ∀ id ∈ ids, id < snapMeta.deps.length

theorem safe_readMeta : Safe A readMeta MetaInRange :=
  Safe.skip (Safe.list Safe.lenStr.guarded) fun _ =>
    Safe.skip (Safe.list Safe.lenStr.guarded) fun _ =>
      Safe.skip Safe.bool fun _ =>
        Safe.skip (Safe.list safe_readChannelTypeSpec.guarded) fun _ =>
          Safe.skip (Safe.list safe_readStamp.guarded) fun _ =>
            Safe.skip (Safe.list Safe.lenStr.guarded) fun _ =>
              Safe.skip (Safe.list safe_readStamp.guarded) fun deps =>
                Safe.step (Safe.many (Safe.list (safe_readDep deps.length).guarded).guarded _)
                  fun _ => Safe.pure fun h => h.2

/-! ### The graph section

A checked id lies below the table's size while the flag is set, and records are
installed behind a test of the flag only. What is read without it is the edge
count.
-/

theorem guarded_readInternerTable : Guarded (readInternerTable heap) fun _ => True :=
  (Guarded.listReserved Safe.lenStr.guarded).bind fun _ => Safe.pure fun _ => trivial

/-- A checked id lies below the table's size, however large the table is. -/
theorem lt_size_of_checked {t : StringInterner} {id : UInt32}
    (h : decide (id < UInt32.ofNat t.size) = true) : id.toNat < t.size := by
  have hlt : id.toNat < (UInt32.ofNat t.size).toNat := UInt32.lt_iff_toNat_lt.mp
    (of_decide_eq_true h)
  rw [UInt32.toNat_ofNat'] at hlt
  exact Nat.lt_of_lt_of_le hlt (Nat.mod_le _ _)

theorem safe_checkedId (t : StringInterner) : Safe A (checkedId t) (· < t.size) :=
  Safe.skip Safe.u32 fun _ => Safe.step Safe.require fun _ =>
    Safe.pure fun h => lt_size_of_checked h.2

/-- What a load keeps of the graph: it is in range and all its edges are live. -/
def GraphLoaded (g : CallGraph) : Prop := g.InRange ∧ ∀ e ∈ g.edges, 0 < e.refs

theorem GraphLoaded.installNode {g : CallGraph} (h : GraphLoaded g) {nameId displayId : SId}
    (hname : nameId < g.interner.size) (hdisplay : displayId < g.interner.size)
    (node : CallGraphNode) : GraphLoaded (installNode g nameId displayId node) := by
  refine ⟨{ h.1 with byName := h.1.byName.pushUnique hdisplay hname, node := ?_ }, h.2⟩
  intro id n hn
  have hn' : AList.lookup id (g.nodes.emplace nameId node) = some n := hn
  rw [UMap.lookup_emplace] at hn'
  split at hn'
  · rename_i heq
    rw [heq]
    exact hname
  · exact h.1.node id n hn'

theorem safe_readNode {g : CallGraph} (h : GraphLoaded g) :
    Safe A (readNode mode g) GraphLoaded := by
  refine Safe.step (safe_checkedId _) fun nameId => Safe.step (safe_checkedId _) fun displayId =>
    Safe.skip Safe.lenStr fun file => Safe.skip Safe.u32 fun line => Safe.skip Safe.u8 fun flags =>
    Safe.skip Safe.lenStr fun enclosingClass => Safe.skip Safe.count fun n => Safe.ifOk ?_
  rintro ⟨⟨-, hname⟩, hdisplay⟩
  refine Safe.guarded (Safe.skip (Safe.entry hname) fun usr =>
    Safe.skip (Safe.entry hdisplay) fun qualifiedName => ?_)
  refine (Safe.loop (I := fun g => GraphLoaded g ∧ nameId < g.interner.size) ?_ n _).mono
    (fun _ => ⟨h.installNode hname hdisplay _, hname⟩) fun _ h => h.1
  intro g ⟨hg, hname⟩
  refine Safe.guarded (Safe.step (safe_checkedId _) fun tuId => Safe.ifOk fun htu =>
    Safe.guarded (Safe.pure fun _ => ?_))
  split
  · exact ⟨⟨hg.1.addContributor hname htu.2, hg.2⟩, hname⟩
  · exact ⟨hg, hname⟩

theorem GraphLoaded.installEdge {g : CallGraph} (h : GraphLoaded g) {key : EdgeKey SId}
    (hkey : KeyBelow g.interner.size key) {refs : Nat} (hrefs : 0 < refs) :
    GraphLoaded (installEdge mode g key refs) := by
  refine ⟨h.1.pushEdge hkey refs ?_, ?_⟩
  · intro k i hi
    split at hi
    · refine Nat.le_of_lt_succ (UMap.lt_of_lookup_emplace ?_ (Nat.lt_succ_self _) _ hi)
      exact fun k i hk => Nat.lt_succ_of_lt (h.1.indexed k i hk)
    · exact Nat.le_of_lt (h.1.indexed k i hi)
  · intro e he
    rcases List.mem_append.mp he with he | he
    · exact h.2 e he
    · rw [List.mem_singleton.mp he]
      exact hrefs

theorem safe_readEdge {g : CallGraph} (h : GraphLoaded g) :
    Safe A (readEdge mode g) GraphLoaded := by
  refine Safe.step (safe_checkedId _) fun caller => Safe.step (safe_checkedId _) fun callee =>
    Safe.step (safe_checkedId _) fun callSite => Safe.skip Safe.u8 fun kind =>
    Safe.skip Safe.u8 fun confidence => Safe.skip Safe.u8 fun execContext =>
    Safe.skip Safe.u32 fun indirectionDepth => Safe.skip Safe.u32 fun refs =>
    Safe.skip Safe.count fun n => Safe.step Safe.require fun _ => Safe.ifOk ?_
  rintro ⟨⟨⟨⟨-, hcaller⟩, hcallee⟩, hsite⟩, hrefs⟩
  have hpos : 0 < refs.toNat := by
    refine Nat.pos_of_ne_zero ?_
    intro hzero
    exact of_decide_eq_true hrefs (UInt32.toNat_inj.mp hzero)
  refine Safe.guarded ((Safe.loop
    (I := fun g' => GraphLoaded g' ∧ g.edges.length < g'.edges.length) ?_ n _).mono
    (fun _ => ⟨h.installEdge ⟨hcaller, hcallee, hsite⟩ hpos, ?_⟩) fun _ h => h.1)
  · intro g' ⟨hg', hlt⟩
    refine Safe.guarded (Safe.step (safe_checkedId _) fun tuId => Safe.ifOk fun htu =>
      Safe.guarded (Safe.pure fun _ => ?_))
    split
    · refine ⟨⟨hg'.1.tagEdges htu.2 ?_, hg'.2⟩, hlt⟩
      intro i hi
      rw [List.mem_singleton.mp hi]
      exact hlt
    · exact ⟨hg', hlt⟩
  · show g.edges.length < (g.edges ++ [_]).length
    simp

theorem safe_readPair {install : CallGraph → SId → SId → CallGraph}
    (hinstall : ∀ {g : CallGraph} {a b : SId}, GraphLoaded g → a < g.interner.size →
      b < g.interner.size → GraphLoaded (install g a b)) {g : CallGraph} (h : GraphLoaded g) :
    Safe A (readPair install g) GraphLoaded :=
  Safe.step (safe_checkedId _) fun _ => Safe.step (safe_checkedId _) fun _ =>
    Safe.ifOk fun hids => Safe.guarded (Safe.pure fun _ => hinstall h hids.1.2 hids.2)

theorem GraphLoaded.installDerived {g : CallGraph} {a b : SId} (h : GraphLoaded g)
    (ha : a < g.interner.size) (hb : b < g.interner.size) :
    GraphLoaded (installDerived g a b) :=
  ⟨{ h.1 with derivedClasses := h.1.derivedClasses.push ha hb }, h.2⟩

theorem GraphLoaded.installOverride {g : CallGraph} {a b : SId} (h : GraphLoaded g)
    (ha : a < g.interner.size) (hb : b < g.interner.size) :
    GraphLoaded (installOverride g a b) :=
  ⟨{ h.1 with methodOverrides := h.1.methodOverrides.push ha hb
              overrideBases := h.1.overrideBases.push hb ha }, h.2⟩

theorem GraphLoaded.installReturn {g : CallGraph} {a b : SId} (h : GraphLoaded g)
    (ha : a < g.interner.size) (hb : b < g.interner.size) :
    GraphLoaded (installReturn g a b) :=
  ⟨{ h.1 with functionReturns := h.1.functionReturns.setInsert ha hb
              returnedBy := h.1.returnedBy.push hb ha }, h.2⟩

/-- A counted run of records, each of which keeps what the section has installed. -/
theorem safe_records {σ : Type} {body : σ → Read σ} {I : σ → Prop}
    (h : ∀ {s}, I s → Guarded (body s) I) {s : σ} (hs : A → I s) : Safe A (counted body s) I :=
  (Safe.counted (fun _ hs => h hs) s).mono hs fun _ h => h

/-- The same run after its length has been read. -/
theorem safe_turns {σ : Type} {body : σ → Read σ} {I : σ → Prop}
    (h : ∀ {s}, I s → Guarded (body s) I) {s : σ} (hs : A → I s) (n : Nat) :
    Safe A (loop n body s) I :=
  (Safe.loop (fun _ hs => h hs) n s).mono hs fun _ h => h

theorem guarded_readNodes (interner : StringInterner) :
    Guarded (readNodes heap mode interner) GraphLoaded := by
  have hstart : GraphLoaded { interner } :=
    ⟨CallGraph.inRange_empty interner, fun e he => absurd he List.not_mem_nil⟩
  exact Guarded.counting fun n => safe_turns (fun h => (safe_readNode h).guarded) (fun _ => hstart) n

/-- After the nodes the section goes wrong in one way only: it asks for an edge index that
nothing in the file warrants. -/
theorem safeAt_readEdges {g : CallGraph} {c : Cursor}
    (hasks : mode = .mutable → ¬ Overasks heap c) (hg : c.ok = true → GraphLoaded g) :
    SafeAt c (readEdges heap mode g) GraphLoaded := by
  cases mode with
  | mutable =>
      exact SafeAt.counting (hasks rfl) hg fun n =>
        safe_turns (fun h => (safe_readEdge h).guarded) id n
  | readOnly => exact safe_records (fun h => (safe_readEdge h).guarded) id c hg

/-- The nodes are read up to a failure, and where it stopped the next four bytes ask for more
edges than there is room for. -/
def GraphOverasks (heap : Nat) (bytes : Bytes) : Prop :=
  ∃ interner c g c', readInternerTable heap ⟨bytes, true⟩ = some (interner, c) ∧ c.ok = true ∧
    readNodes heap .mutable interner c = some (g, c') ∧ Overasks heap c'

theorem safeAt_readGraph {bytes : Bytes} (h : mode = .mutable → ¬ GraphOverasks heap bytes) :
    SafeAt ⟨bytes, true⟩ (readGraph heap mode) GraphLoaded := by
  refine SafeAt.bind (guarded_readInternerTable _ rfl) fun interner c hrun _ => ?_
  refine SafeAt.ifOk fun hok => ?_
  refine SafeAt.bind (guarded_readNodes interner c hok) fun g c' hrun' hg => ?_
  refine SafeAt.bind (P := GraphLoaded) (safeAt_readEdges ?_ fun hok' => (hg hok').2)
    fun g c'' _ hg => ?_
  · rintro rfl hasks
    exact h rfl ⟨interner, c, g, c', hrun, hok, hrun', hasks⟩
  have hpairs : Safe (GraphLoaded g) (do
      let g ← counted (readPair installDerived) g
      let g ← counted (readPair installOverride) g
      let g ← counted (readPair installImpl) g
      counted (readPair installReturn) g) GraphLoaded := by
    refine Safe.bind (safe_records (fun h => (safe_readPair GraphLoaded.installDerived h).guarded)
      id) fun g => ?_
    refine Safe.bind (safe_records (fun h => (safe_readPair GraphLoaded.installOverride h).guarded)
      id) fun g => ?_
    refine Safe.bind (safe_records (fun h => (safe_readPair ?_ h).guarded) id) fun g =>
      safe_records (fun h => (safe_readPair GraphLoaded.installReturn h).guarded) id
    exact fun hg ha hb => ⟨hg.1.relateImpl ha hb, hg.2⟩
  exact hpairs c'' fun hok => (hg hok).2

theorem readGraph_overasks {bytes : Bytes} (h : GraphOverasks heap bytes) :
    readGraph heap .mutable ⟨bytes, true⟩ = none := by
  obtain ⟨interner, c, g, c', hinterner, hok, hnodes, hasks⟩ := h
  show (readInternerTable heap _).bind _ = _
  rw [hinterner]
  show ifOk _ _ c = _
  rw [ifOk, if_pos hok]
  show (readNodes heap .mutable interner c).bind _ = _
  rw [hnodes]
  show (readEdges heap .mutable g c').bind _ = _
  rw [show readEdges heap .mutable g c' = none from counting_overasks hasks]
  rfl

/-! ### The control-flow section -/

theorem safe_readHandler : Safe A readHandler fun _ => True :=
  Safe.skip Safe.lenStr fun _ => Safe.skip Safe.bool fun _ => Safe.skip Safe.lenStr fun _ =>
    Safe.skip Safe.lenStr fun _ => Safe.pure fun _ => trivial

theorem safe_readScope : Safe A readScope fun _ => True :=
  Safe.skip Safe.lenStr fun _ => Safe.skip Safe.lenStr fun _ => Safe.skip Safe.u32 fun _ =>
    Safe.skip (Safe.list safe_readHandler.guarded) fun _ => Safe.pure fun _ => trivial

theorem safe_readGuard : Safe A readGuard fun _ => True :=
  Safe.skip Safe.lenStr fun _ => Safe.skip Safe.lenStr fun _ => Safe.skip Safe.bool fun _ =>
    Safe.skip Safe.bool fun _ => Safe.pure fun _ => trivial

theorem safe_readLocal (t : StringInterner) :
    Safe A (readLocal t) (ControlFlowIndex.LocalBelow t.size) :=
  Safe.step (safe_checkedId t) fun _ => Safe.step (safe_checkedId t) fun _ =>
    Safe.step (safe_checkedId t) fun _ => Safe.skip Safe.u8 fun _ =>
      Safe.pure fun h => ⟨h.1.1.2, h.1.2, h.2⟩

theorem seeded_iff {α : Type} {sets : List (List α)} :
    seeded sets = true ↔ ∃ rest, sets = [] :: rest := by
  unfold seeded
  split
  · rename_i rest
    exact ⟨fun _ => ⟨rest, rfl⟩, fun _ => rfl⟩
  · rename_i hne
    refine ⟨fun h => by simp at h, ?_⟩
    rintro ⟨rest, rfl⟩
    exact absurd rfl (hne rest)

theorem rebuildTable_inRange {α : Type} (key : List α → Str) {sets : List (List α)}
    (h : seeded sets = true) : (rebuildTable mode key sets).InRange := by
  refine ⟨seeded_iff.mp h, ?_⟩
  intro k id hid
  have hid' : (if mode = .mutable then rebuildKeys key sets else ∅).lookup k = some id := hid
  split at hid'
  · have hkeys : ∀ k id, (rebuildKeys key sets).lookup k = some id → id < sets.length := by
      refine List.foldlRecOn (motive := fun ids : UMap Str Nat =>
        ∀ k id, ids.lookup k = some id → id < sets.length) _ _ (fun k id h => by simp at h) ?_
      intro ids hids set hset k id hid
      have hpos : set.2 < sets.length := by
        have hmem : set ∈ sets.zipIdx := List.mem_of_mem_drop hset
        exact (List.mem_zipIdx' hmem).1
      exact UMap.lt_of_lookup_emplace hids hpos _ hid
    exact hkeys k id hid'
  · simp at hid'

theorem inRange_installContext {cf : ControlFlowIndex} (h : cf.InRange) {se : StoredContext}
    (hids : ControlFlowIndex.IdsBelow cf.interner.size se)
    (hsets : ControlFlowIndex.SetsBelow cf se) : (installContext mode cf se).InRange := by
  have hstored := h.insertStored hids hsets
  cases mode with
  | mutable => exact hstored
  | readOnly =>
      have hlen : (cf.insertStored se).contexts.length = cf.contexts.length + 1 := by
        simp [ControlFlowIndex.insertStored]
      have hle : ∀ i, i < cf.contexts.length → i < (cf.insertStored se).contexts.length := by
        intro i hi
        omega
      exact
        { hstored with
          sets := fun x hx => ⟨(hstored.sets x hx).scopeSet, (hstored.sets x hx).guardSet,
            (hstored.sets x hx).raiiSet⟩
          byTu := h.byTu.mono (fun _ hk => hk) hle
          noProvenance := fun i hi => hle i (h.noProvenance i hi) }

theorem safe_readTuPath (t : StringInterner) :
    Safe A (readTuPath t) fun tuPath => ∀ tu, tuPath = some tu → tu < t.size := by
  refine Safe.skip Safe.u32 fun tuPath => ?_
  split
  · refine Safe.step Safe.require fun _ => Safe.pure fun h => ?_
    intro tu htu
    injection htu with htu
    rw [← htu]
    exact lt_size_of_checked h.2
  · exact Safe.pure fun _ tu htu => by simp at htu

theorem safe_readContext {cf : ControlFlowIndex} (h : cf.InRange) :
    Safe A (readContext mode cf) ControlFlowIndex.InRange := by
  refine Safe.step (safe_checkedId _) fun caller => Safe.step (safe_checkedId _) fun callee =>
    Safe.step (safe_checkedId _) fun callerDisplay =>
    Safe.step (safe_checkedId _) fun calleeDisplay => Safe.step (safe_checkedId _) fun site =>
    Safe.step (safe_readTuPath _) fun tuPath => Safe.skip Safe.u32 fun scopeSet =>
    Safe.skip Safe.u32 fun guardSet => Safe.skip Safe.u32 fun raiiSet =>
    Safe.skip Safe.u8 fun callerNoexcept => Safe.skip Safe.bool fun insideCatchBlock =>
    Safe.step Safe.require fun _ => Safe.ifOk fun hall => Safe.guarded (Safe.pure fun _ => ?_)
  obtain ⟨⟨⟨⟨⟨⟨⟨-, h₁⟩, h₂⟩, h₃⟩, h₄⟩, h₅⟩, h₆⟩, hsets⟩ := hall
  simp only [Bool.and_eq_true, decide_eq_true_eq] at hsets
  exact inRange_installContext h ⟨h₁, h₂, h₃, h₄, h₅, h₆⟩ ⟨hsets.1.1, hsets.1.2, hsets.2⟩

theorem safe_readSetTables (interner : StringInterner) :
    Safe A (readSetTables heap mode interner) ControlFlowIndex.InRange := by
  have hany : ∀ {α : Type} {one : Read (List α)} {P : List α → Prop}, Guarded one P →
      Safe True (list one) fun _ => True := fun h =>
    (Safe.list h).mono id fun _ _ => trivial
  refine Safe.skip (hany (Guarded.listReserved safe_readScope.guarded)) fun scopeSets => ?_
  refine Safe.skip (hany (Guarded.listReserved safe_readGuard.guarded)) fun guardSets => ?_
  refine Safe.step (Safe.list (Guarded.listReserved (safe_readLocal interner).guarded))
    fun raiiSets => Safe.step Safe.require fun _ => Safe.pure ?_
  rintro ⟨⟨-, hlocals⟩, hseeded⟩
  simp only [Bool.and_eq_true] at hseeded
  exact ControlFlowIndex.inRange_tables (rebuildTable_inRange _ hseeded.1.1)
    (rebuildTable_inRange _ hseeded.1.2) (rebuildTable_inRange _ hseeded.2) hlocals

/-- The set tables are read up to a failure, a table without the empty set at its head
included, and where it stopped the next four bytes ask for more contexts than there is room
for. -/
def ControlFlowOverasks (heap : Nat) (mode : LoadMode) (bytes : Bytes) : Prop :=
  ∃ interner c cf c', readInternerTable heap ⟨bytes, true⟩ = some (interner, c) ∧ c.ok = true ∧
    readSetTables heap mode interner c = some (cf, c') ∧ Overasks heap c'

theorem safeAt_readControlFlow {bytes : Bytes} (h : ¬ ControlFlowOverasks heap mode bytes) :
    SafeAt ⟨bytes, true⟩ (readControlFlow heap mode) ControlFlowIndex.InRange := by
  refine SafeAt.bind (guarded_readInternerTable _ rfl) fun interner c hrun _ => ?_
  refine SafeAt.ifOk fun hok => ?_
  refine SafeAt.bind (safe_readSetTables (A := True) interner c fun _ => trivial)
    fun cf c' hrun' hcf => ?_
  refine SafeAt.counting ?_ (fun hok' => (hcf hok').2) fun n =>
    safe_turns (fun h => (safe_readContext h).guarded) id n
  exact fun hasks => h ⟨interner, c, cf, c', hrun, hok, hrun', hasks⟩

theorem readControlFlow_overasks {bytes : Bytes} (h : ControlFlowOverasks heap mode bytes) :
    readControlFlow heap mode ⟨bytes, true⟩ = none := by
  obtain ⟨interner, c, cf, c', hinterner, hok, htables, hasks⟩ := h
  show (readInternerTable heap _).bind _ = _
  rw [hinterner]
  show ifOk _ _ c = _
  rw [ifOk, if_pos hok]
  show (readSetTables heap mode interner c).bind _ = _
  rw [htables]
  exact counting_overasks hasks

/-! ### The channel section -/

theorem inRange_installSite {ch : ChannelIndex} (h : ch.InRange) (site : ChannelSite) (refs : Nat)
    (tus : List Str) : (installSite mode ch site refs tus).InRange := by
  have happended := h.appendSite { site with tuPath := tus.headD [] } refs
  unfold installSite
  dsimp only
  split
  · refine { happended with byTu := ?_ }
    refine List.foldlRecOn tus _ happended.byTu ?_
    intro m hm tu _
    refine ChannelIndex.Positions.pushAt hm tu ?_
    rw [ChannelIndex.length_appendSite]
    exact Nat.lt_succ_self _
  · exact happended

theorem safe_readSiteHead : Safe A readSiteHead fun _ => True :=
  Safe.skip Safe.lenStr fun _ => Safe.skip Safe.lenStr fun _ => Safe.skip Safe.lenStr fun _ =>
    Safe.skip Safe.u8 fun _ => Safe.skip Safe.lenStr fun _ => Safe.skip Safe.lenStr fun _ =>
      Safe.skip Safe.lenStr fun _ => Safe.skip Safe.u32 fun _ =>
        Safe.skip (Safe.list safe_readGuard.guarded) fun _ => Safe.pure fun _ => trivial

/-- A site's record is read up to a failure in front of its TUs, and where it stopped the next
four bytes ask for more TUs than there is room for. -/
def SiteOverasks (heap : Nat) (c : Cursor) : Prop :=
  ∃ head c', readSiteHead c = some (head, c') ∧ Overasks heap c'

theorem safeAt_readSite {ch : ChannelIndex} {c : Cursor} (h : ¬ SiteOverasks heap c)
    (hch : ch.InRange) : SafeAt c (readSite heap mode ch) ChannelIndex.InRange := by
  refine SafeAt.bind (safe_readSiteHead (A := True) c fun _ => trivial) fun head c' hrun _ => ?_
  refine SafeAt.counting (A := True) (fun hasks => h ⟨head, c', hrun, hasks⟩) (fun _ => trivial)
    fun n => ?_
  exact Safe.skip ((Safe.many Safe.lenStr.guarded n).mono id fun _ _ => trivial) fun tus =>
    Safe.step Safe.require fun _ => Safe.ifOk fun _ =>
      Safe.guarded (Safe.pure fun _ => inRange_installSite hch _ _ _)

theorem readSite_overasks {ch : ChannelIndex} {c : Cursor} (h : SiteOverasks heap c) :
    readSite heap mode ch c = none := by
  obtain ⟨head, c', hhead, hasks⟩ := h
  show (readSiteHead c).bind _ = _
  rw [hhead]
  exact counting_overasks hasks

/-- Some sites are read in full, and then comes one that asks for too much. -/
def ChannelsOverask (heap : Nat) (mode : LoadMode) (bytes : Bytes) : Prop :=
  ∃ n c, Sticky.count ⟨bytes, true⟩ = some (n, c) ∧ ∃ k < n, ∃ ch c',
    loop k (readSite heap mode) {} c = some (ch, c') ∧ c'.ok = true ∧ SiteOverasks heap c'

/-- The sites that are read before one that asks for too much are in range. -/
theorem safeAt_readSites {n : Nat} :
    ∀ {ch : ChannelIndex} {c : Cursor}, (c.ok = true → ch.InRange) →
      (¬ ∃ k < n, ∃ ch' c', loop k (readSite heap mode) ch c = some (ch', c') ∧ c'.ok = true ∧
        SiteOverasks heap c') →
      SafeAt c (loop n (readSite heap mode) ch) ChannelIndex.InRange := by
  induction n with
  | zero => exact fun hch _ => ⟨_, _, rfl, fun hok => ⟨hok, hch hok⟩⟩
  | succ n ih =>
      intro ch c hch h
      refine SafeAt.ifOk fun hok => ?_
      refine SafeAt.bind (safeAt_readSite ?_ (hch hok)) fun ch' c' hrun hch' => ?_
      · exact fun hasks => h ⟨0, Nat.succ_pos n, ch, c, rfl, hok, hasks⟩
      · refine ih (fun hok' => (hch' hok').2) ?_
        rintro ⟨k, hk, ch'', c'', hrun', hrest⟩
        refine h ⟨k + 1, Nat.succ_lt_succ hk, ch'', c'', ?_, hrest⟩
        show (if c.ok then (readSite heap mode ch c).bind _ else _) = _
        rw [if_pos hok, hrun]
        exact hrun'

theorem safeAt_readChannels {bytes : Bytes} (h : ¬ ChannelsOverask heap mode bytes) :
    SafeAt ⟨bytes, true⟩ (readChannels heap mode) ChannelIndex.InRange := by
  refine SafeAt.bind (Safe.count (A := True) _ fun _ => trivial) fun n c hrun _ => ?_
  refine safeAt_readSites (fun _ => ChannelIndex.inRange_empty) ?_
  exact fun hasks => h ⟨n, c, hrun, hasks⟩

theorem readChannels_overask {bytes : Bytes} (h : ChannelsOverask heap mode bytes) :
    readChannels heap mode ⟨bytes, true⟩ = none := by
  obtain ⟨n, c, hcount, k, hk, ch, c', hrun, hok, hasks⟩ := h
  show (Sticky.count _).bind _ = _
  rw [hcount]
  exact loop_none.mpr ⟨k, hk, ch, c', hrun, hok, readSite_overasks hasks⟩

/-! ### The header -/

/-- Every listed section lies within a file of this size. -/
def RangesWithin (fileSize : Nat) (ranges : List (Option Range)) : Prop :=
  ∀ range, some range ∈ ranges → range.offset + range.length ≤ fileSize

theorem safe_readRange {fileSize : Nat} {ranges : List (Option Range)}
    (hlen : ranges.length = kSectionKinds) (h : RangesWithin fileSize ranges) :
    Safe A (readRange fileSize ranges) fun ranges =>
      ranges.length = kSectionKinds ∧ RangesWithin fileSize ranges := by
  refine Safe.skip Safe.u8 fun kind => Safe.skip Safe.u64 fun offset =>
    Safe.skip Safe.u64 fun length => Safe.step Safe.require fun _ => Safe.ifOk fun hkind =>
      Safe.guarded ?_
  have hkind' : kind.toNat < ranges.length := by
    rw [hlen]
    exact of_decide_eq_true hkind.2
  refine Safe.step (Safe.entry hkind') fun slot => Safe.step Safe.require fun _ =>
    Safe.ifOk fun hfits => Safe.guarded (Safe.pure fun _ => ⟨by rw [List.length_set, hlen], ?_⟩)
  have hfits' := hfits.2
  simp only [Bool.and_eq_true, decide_eq_true_eq] at hfits'
  intro range hrange
  rcases List.mem_or_eq_of_mem_set hrange with hrange | hrange
  · exact h range hrange
  · injection hrange with hrange
    subst hrange
    show offset.toNat + length.toNat ≤ fileSize
    omega

theorem safe_flag : Safe A flag fun _ => True := fun c _ => ⟨c.ok, c, rfl, fun h => ⟨h, trivial⟩⟩

theorem safe_readHeader (fileSize : Nat) :
    Safe A (readHeader fileSize) fun found => ∀ header, found = some header →
      RangesWithin fileSize header.ranges := by
  have hnone : ∀ {B : Prop}, Safe B (Pure.pure none : Read (Option Header)) fun found =>
      ∀ header, found = some header → RangesWithin fileSize header.ranges :=
    Safe.pure fun _ header h => by simp at h
  refine Safe.skip (Safe.bytes 4) fun magic => Safe.skip safe_flag fun ok => ?_
  split
  · exact hnone
  refine Safe.skip Safe.u32 fun version => ?_
  split
  · exact hnone
  refine Safe.skip Safe.u64 fun nodes => Safe.skip Safe.u64 fun edges =>
    Safe.skip Safe.u64 fun callSites => Safe.skip Safe.u64 fun channelSites =>
    Safe.skip Safe.u32 fun tableCount => Safe.skip safe_flag fun ok => ?_
  split
  · exact hnone
  refine Safe.bind (P := fun ranges : List (Option Range) =>
    ranges.length = kSectionKinds ∧ RangesWithin fileSize ranges) ?_ fun ranges =>
      Safe.pure fun h header hheader => ?_
  · refine (Safe.loop (fun ranges h => (safe_readRange h.1 h.2).guarded) _ _).mono (fun _ => ⟨rfl, ?_⟩)
      fun _ h => h
    intro range hrange
    rw [List.mem_replicate] at hrange
    simp at hrange
  · injection hheader with hheader
    subst hheader
    exact h.2

/-! ### The load -/

/-- The load does not fault, and what it returns satisfies `P`. -/
def Loads {α : Type} (x : Load α) (P : α → Prop) : Prop :=
  ∃ r : Option α, x.run = some r ∧ ∀ a, r = some a → P a

namespace Loads

variable {α β : Type} {P : α → Prop} {R : β → Prop}

theorem pure {a : α} (h : P a) : Loads (Pure.pure a) P :=
  ⟨some a, rfl, fun b hb => by injection hb with hb; exact hb ▸ h⟩

theorem turnedDown : Loads (failure : Load α) P := ⟨none, rfl, fun a h => by simp at h⟩

theorem bind {x : Load α} {f : α → Load β} (hx : Loads x P) (hf : ∀ a, P a → Loads (f a) R) :
    Loads (x >>= f) R := by
  obtain ⟨r, hr, hP⟩ := hx
  cases r with
  | none =>
      refine ⟨none, ?_, fun b h => by simp at h⟩
      rw [OptionT.run_bind, hr]
      rfl
  | some a =>
      obtain ⟨r', hr', hR⟩ := hf a (hP a rfl)
      refine ⟨r', ?_, hR⟩
      rw [OptionT.run_bind, hr]
      exact hr'

/-- What a load returns is what it has come back with. -/
theorem got {x : Load α} (hx : Loads x P) : Loads x fun a => P a ∧ x.run = some (some a) := by
  obtain ⟨r, hr, hP⟩ := hx
  refine ⟨r, hr, ?_⟩
  rintro a rfl
  exact ⟨hP a rfl, hr⟩

theorem lift {x : Option α} {a : α} (hx : x = some a) (h : P a) : Loads (OptionT.lift x) P :=
  ⟨some a, by rw [hx]; rfl, fun b hb => by injection hb with hb; exact hb ▸ h⟩

end Loads

/-- Where a listed section lies, the file has bytes. -/
theorem slice_within {file : Bytes} {ranges : List (Option Range)}
    (h : RangesWithin file.length ranges) (kind : Nat) :
    ∃ bytes, slice file (ranges.getD kind none) = some bytes := by
  cases hr : ranges.getD kind none with
  | none => exact ⟨[], rfl⟩
  | some range =>
      have hget : ranges[kind]? = some (some range) := by
        rw [List.getD_eq_getElem?_getD] at hr
        cases hk : ranges[kind]? with
        | none => simp [hk] at hr
        | some r => simpa [hk] using hr
      exact ⟨_, if_pos (h range (List.mem_of_getElem? hget))⟩

/-- The bytes of a section of the file. -/
def sectionBytes (file : Bytes) (header : Header) (kind : Nat) : Bytes :=
  (slice file (header.ranges.getD kind none)).getD []

theorem readSection_eq {α : Type} {file : Bytes} {header : Header}
    (h : RangesWithin file.length header.ranges) (kind : Nat) (read : Read α) :
    readSection file header kind read = decode read (sectionBytes file header kind) := by
  obtain ⟨bytes, hbytes⟩ := slice_within h kind
  unfold readSection sectionBytes
  rw [hbytes]
  rfl

theorem loads_decode {α : Type} {read : Read α} {P : α → Prop} {bytes : Bytes}
    (hread : SafeAt ⟨bytes, true⟩ read P) : Loads (decode read bytes) P := by
  obtain ⟨a, cursor, hrun, hP⟩ := hread
  refine Loads.bind (Loads.lift (P := fun r => r = (a, cursor)) hrun rfl) ?_
  rintro _ rfl
  dsimp only
  split
  · rename_i hdone
    rw [Bool.and_eq_true] at hdone
    exact Loads.pure (hP hdone.1).2
  · exact Loads.turnedDown

theorem run_bind_none {α β : Type} {x : Load α} {f : α → Load β} (h : x.run = none) :
    (x >>= f).run = none := by
  rw [OptionT.run_bind, h]
  rfl

theorem decode_none {α : Type} {read : Read α} {bytes : Bytes} (h : read ⟨bytes, true⟩ = none) :
    (decode read bytes).run = none := by
  unfold decode
  rw [h]
  rfl

theorem loads_readNeeded {α : Type} {needs bit : UInt32} {empty : α} {read : Load α}
    {P : α → Prop} (hempty : P empty) (hread : needs &&& bit ≠ 0 → Loads read P) :
    Loads (readNeeded needs bit empty read) P := by
  unfold readNeeded
  split
  · rename_i hneeded
    exact hread (by simpa using hneeded)
  · exact Loads.pure hempty

/-- Every stored id, set index and position of the data points at something. -/
structure DataInRange (data : SnapshotData) : Prop where
  graph : data.graph.InRange
  edges : ∀ e ∈ data.graph.edges, 0 < e.refs
  cfIndex : data.cfIndex.InRange
  channels : data.channels.InRange
  snapMeta : MetaInRange data.snapMeta

/-! ### What a load can be refused

A section is decoded when those before it were in order, so a file comes to a
refused allocation in one section at most.
-/

/-- The file's header is in order. -/
def Opens (file : Bytes) (header : Header) : Prop :=
  ∃ cursor, readHeader file.length ⟨file, true⟩ = some (some header, cursor) ∧
    cursor.ok = true ∧ file.length - cursor.rest.length = kHeaderBytes

/-- The section is in order, or nobody asks for it. -/
def Passes {α : Type} (needs bit : UInt32) (read : Read α) (bytes : Bytes) : Prop :=
  needs &&& bit ≠ 0 → ∃ a, (decode read bytes).run = some (some a)

/-- **The load comes to an allocation that it is refused**: every section it has read before
is in order, and this one goes wrong in front of a count that makes room for elements. -/
inductive FileOverasks (heap : Nat) (file : Bytes) (mode : LoadMode) (needs : UInt32) : Prop
  | graph (header : Header) (opens : Opens file header) (snapMeta : SnapshotMeta)
      (metaLoads : (decode readMeta (sectionBytes file header kMetaKind)).run
        = some (some snapMeta))
      (needed : needs &&& kSectionGraph ≠ 0) (isMutable : mode = .mutable)
      (asks : GraphOverasks heap (sectionBytes file header kGraphKind))
  | controlFlow (header : Header) (opens : Opens file header) (snapMeta : SnapshotMeta)
      (metaLoads : (decode readMeta (sectionBytes file header kMetaKind)).run
        = some (some snapMeta))
      (graph : Passes needs kSectionGraph (readGraph heap mode)
        (sectionBytes file header kGraphKind))
      (needed : needs &&& kSectionControlFlow ≠ 0)
      (asks : ControlFlowOverasks heap mode (sectionBytes file header kControlFlowKind))
  | channels (header : Header) (opens : Opens file header) (snapMeta : SnapshotMeta)
      (metaLoads : (decode readMeta (sectionBytes file header kMetaKind)).run
        = some (some snapMeta))
      (graph : Passes needs kSectionGraph (readGraph heap mode)
        (sectionBytes file header kGraphKind))
      (controlFlow : Passes needs kSectionControlFlow (readControlFlow heap mode)
        (sectionBytes file header kControlFlowKind))
      (needed : needs &&& kSectionChannels ≠ 0)
      (asks : ChannelsOverask heap mode (sectionBytes file header kChannelsKind))

theorem passes_of_run {α : Type} {needs bit : UInt32} {empty a : α} {read : Read α}
    {bytes : Bytes} (h : (readNeeded needs bit empty (decode read bytes)).run = some (some a)) :
    Passes needs bit read bytes := by
  intro hneeded
  unfold readNeeded at h
  rw [if_pos (by simpa using hneeded)] at h
  exact ⟨a, h⟩

theorem run_of_passes {α : Type} {needs bit : UInt32} (empty : α) {read : Read α} {bytes : Bytes}
    (h : Passes needs bit read bytes) :
    ∃ a, (readNeeded needs bit empty (decode read bytes)).run = some (some a) := by
  unfold readNeeded
  by_cases hneeded : needs &&& bit = 0
  · exact ⟨empty, by rw [if_neg (by simpa using hneeded)]; rfl⟩
  · rw [if_pos (by simpa using hneeded)]
    exact h hneeded

theorem rangesWithin_of_opens {file : Bytes} {header : Header} (h : Opens file header) :
    RangesWithin file.length header.ranges := by
  obtain ⟨cursor, hrun, hok, -⟩ := h
  obtain ⟨found, cursor', hrun', hranges⟩ := safe_readHeader (A := True) file.length ⟨file, true⟩
    fun _ => trivial
  rw [hrun] at hrun'
  obtain ⟨rfl, rfl⟩ := Prod.mk.inj (Option.some.inj hrun')
  exact (hranges hok).2 header rfl

/-- What a load does once the header is in order. -/
theorem load_opened {file : Bytes} {header : Header} (h : Opens file header) (mode : LoadMode)
    (needs : UInt32) (heap : Nat) :
    load file mode needs heap = do
      let snapMeta ← decode readMeta (sectionBytes file header kMetaKind)
      let graph ← readNeeded needs kSectionGraph {}
        (decode (readGraph heap mode) (sectionBytes file header kGraphKind))
      let cfIndex ← readNeeded needs kSectionControlFlow {}
        (decode (readControlFlow heap mode) (sectionBytes file header kControlFlowKind))
      let channels ← readNeeded needs kSectionChannels {}
        (decode (readChannels heap mode) (sectionBytes file header kChannelsKind))
      return { graph, cfIndex, channels, snapMeta, summary := header.summary
               loaded := needs &&& kSectionAll } := by
  have hwithin := rangesWithin_of_opens h
  obtain ⟨cursor, hrun, hok, hsize⟩ := h
  unfold load
  rw [hrun, lift_some]
  dsimp only
  rw [mk_some, if_neg (by simp [hok, hsize])]
  simp only [readSection_eq hwithin]

/-- A file whose header is not in order is turned down. -/
theorem load_unopened {file : Bytes} (h : ¬ ∃ header, Opens file header) (mode : LoadMode)
    (needs : UInt32) (heap : Nat) : (load file mode needs heap).run = some none := by
  obtain ⟨found, cursor, hrun, -⟩ := safe_readHeader (A := True) file.length ⟨file, true⟩
    fun _ => trivial
  unfold load
  rw [hrun, lift_some]
  dsimp only
  cases found with
  | none => rfl
  | some header =>
      rw [mk_some, if_pos ?_]
      · rfl
      · by_contra hdone
        simp only [Bool.or_eq_true, Bool.not_eq_true', bne_iff_ne, ne_eq, not_or,
          Bool.not_eq_false, Decidable.not_not] at hdone
        exact h ⟨header, cursor, hrun, hdone.1, hdone.2⟩

theorem loads_inRange {file : Bytes} {mode : LoadMode} {needs : UInt32}
    (h : ¬ FileOverasks heap file mode needs) : Loads (load file mode needs heap) DataInRange := by
  by_cases hopens : ∃ header, Opens file header
  case neg => exact ⟨none, load_unopened hopens mode needs heap, fun _ hc => by simp at hc⟩
  obtain ⟨header, hopens⟩ := hopens
  rw [load_opened hopens]
  refine Loads.bind (loads_decode (safe_readMeta.guarded _ rfl)).got fun snapMeta hmeta => ?_
  refine Loads.bind (loads_readNeeded (P := GraphLoaded) ?_ fun hneeded => ?_).got
    fun graph hgraph => ?_
  · exact ⟨CallGraph.inRange_empty _, fun e he => absurd he List.not_mem_nil⟩
  · refine loads_decode (safeAt_readGraph fun hmode hasks => h ?_)
    exact .graph header hopens snapMeta hmeta.2 hneeded hmode hasks
  have hgraphPasses := passes_of_run hgraph.2
  refine Loads.bind (loads_readNeeded ControlFlowIndex.inRange_empty fun hneeded => ?_).got
    fun cfIndex hcf => ?_
  · refine loads_decode (safeAt_readControlFlow fun hasks => h ?_)
    exact .controlFlow header hopens snapMeta hmeta.2 hgraphPasses hneeded hasks
  refine Loads.bind (loads_readNeeded ChannelIndex.inRange_empty fun hneeded => ?_)
    fun channels hchannels => ?_
  · refine loads_decode (safeAt_readChannels fun hasks => h ?_)
    exact .channels header hopens snapMeta hmeta.2 hgraphPasses (passes_of_run hcf.2) hneeded hasks
  exact Loads.pure ⟨hgraph.1.1, hgraph.1.2, hcf.1, hchannels, hmeta.1⟩

/-- A load that is refused an allocation returns nothing at all. -/
theorem load_overasks {file : Bytes} {mode : LoadMode} {needs : UInt32}
    (h : FileOverasks heap file mode needs) : (load file mode needs heap).run = none := by
  have hneeded : ∀ {α : Type} {bit : UInt32} {empty : α} {read : Load α}, needs &&& bit ≠ 0 →
      read.run = none → (readNeeded needs bit empty read).run = none := by
    intro α bit empty read hbit hnone
    rwa [readNeeded, if_pos (by simpa using hbit)]
  cases h with
  | graph header opens snapMeta metaLoads needed isMutable asks =>
      subst isMutable
      rw [load_opened opens, run_bind_of metaLoads]
      exact run_bind_none (hneeded needed (decode_none (readGraph_overasks asks)))
  | controlFlow header opens snapMeta metaLoads graph needed asks =>
      obtain ⟨g, hg⟩ := run_of_passes {} graph
      rw [load_opened opens, run_bind_of metaLoads, run_bind_of hg]
      exact run_bind_none (hneeded needed (decode_none (readControlFlow_overasks asks)))
  | channels header opens snapMeta metaLoads graph controlFlow needed asks =>
      obtain ⟨g, hg⟩ := run_of_passes {} graph
      obtain ⟨cf, hcf⟩ := run_of_passes {} controlFlow
      rw [load_opened opens, run_bind_of metaLoads, run_bind_of hg, run_bind_of hcf]
      exact run_bind_none (hneeded needed (decode_none (readChannels_overask asks)))

/-- The load comes back, inside the file and past no table, and the indexes it returns are in
range, now and after any mutators. -/
def LoadSafe (heap : Nat) (file : Bytes) (mode : LoadMode) (needs : UInt32) : Prop :=
  ∃ r, (load file mode needs heap).run = some r ∧ ∀ data, r = some data →
    DataInRange data ∧
      (∀ g, data.graph.Later g → g.InRange) ∧
      (∀ cf, data.cfIndex.Later cf → cf.InRange) ∧
      (∀ ch, data.channels.Later ch → ch.InRange)

/-- **A load is safe on every byte string on which no count that is read after a failure makes
room for too much**, and on no other. -/
theorem load_safe_iff (heap : Nat) (file : Bytes) (mode : LoadMode) (needs : UInt32) :
    LoadSafe heap file mode needs ↔ ¬ FileOverasks heap file mode needs := by
  constructor
  · rintro ⟨r, hr, -⟩ hasks
    rw [load_overasks hasks] at hr
    cases hr
  · intro h
    obtain ⟨r, hr, hdata⟩ := loads_inRange h
    refine ⟨r, hr, ?_⟩
    intro data hsome
    have h := hdata data hsome
    exact ⟨h, fun g hg => h.graph.later hg, fun cf hcf => h.cfIndex.later hcf,
      fun ch hch => h.channels.later hch⟩

/-- A graph section whose one node names a string that the empty table does not have.  The
record is read past, and behind it stands the number of edges. -/
def strayNode : Bytes := putU32 0 ++ (putU32 1 ++ (List.replicate 25 0 ++ putU32 (2 ^ 32 - 1)))

/-- 174 bytes: the header, an empty meta section and that graph section. -/
def overaskingFile : Bytes :=
  let sections := [emitMeta {}, strayNode, [], []]
  emitHeader {} {} {} sections ++ sections.flatten

/-- Room for 2^31 elements, 16 GiB of hash buckets, does not do for the 174 bytes. -/
theorem load_overasked :
    ¬ ∀ (file : Bytes) (mode : LoadMode) (needs : UInt32), LoadSafe (2 ^ 31) file mode needs := by
  intro h
  obtain ⟨r, hr, -⟩ := h overaskingFile .mutable kSectionAll
  have hnone : (load overaskingFile .mutable kSectionAll (2 ^ 31)).run.isNone = true := by
    decide +kernel
  rw [hr] at hnone
  cases hnone

end SnapshotIO

end Vycor
