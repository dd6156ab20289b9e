/-
What a warm start may rely on.

A TU that `dirtyTUs` does not flag is taken to be in the graph already.  The invariant of a
history ties the three tables of a snapshot to the ledger: a recorded stamp is the one the
run of the TU's last bake took, the graph holds of the TU exactly what that bake landed,
and the dependency table lists the paths that parse opened.

So the graph holds the parse of an unflagged TU when its last bake delivered it.  When it
did not, nothing says so: the stamps saved are those of the selection, and the TU looks as
clean as the others.
-/
import Vycor.Model.IndexRun
import Vycor.Proofs.Rebuild
import Vycor.Proofs.WarmRefresh
import Vycor.Proofs.WorkerPool

namespace Vycor

open SnapshotIO WarmRefresh

/-! ### What a graph holds of one TU -/

/-- The graph has these registrations of the TU, its edges as often as they were made and
no others, and the pairs they relate. -/
structure Holds (g : CallGraph) (tu : Str) (calls : List Call) : Prop where
  reg : ∀ k, g.spec.reg tu k = calls.countP fun c => c.edgeKey = some k
  contributes : ∀ u, tu ∈ g.spec.contributors u ↔ ∃ c ∈ calls, c.nodeUsr = some u
  node : ∀ c ∈ calls, ∀ u ∈ c.nodeUsr, (g.spec.node u).isSome
  related : ∀ c ∈ calls, ∀ p ∈ c.relates, g.spec.related p.1 p.2.1 p.2.2

/-- The graph is one that came about from these registrations, whatever else was removed
from it since. -/
structure Carries (g : CallGraph) (log : List Call) : Prop where
  wf : g.WF
  tagged : ∀ c ∈ log, c.tu ≠ []
  logged : g.spec.Logged log
  related : ∀ c ∈ log, ∀ p ∈ c.relates, g.spec.related p.1 p.2.1 p.2.2

namespace Carries

variable {g : CallGraph} {log : List Call}

theorem holds (h : Carries g log) (tu : Str) : Holds g tu (log.filter (·.tu = tu)) := by
  have hcontributes : ∀ u, tu ∈ g.spec.contributors u ↔
      ∃ c ∈ log.filter (·.tu = tu), c.nodeUsr = some u := by
    intro u
    rw [h.logged.contributors, GraphSpec.register_contributors]
    constructor
    · rintro (hin | ⟨c, hc, hu, rfl, -⟩)
      · exact absurd hin (Set.notMem_empty tu)
      · exact ⟨c, List.mem_filter.mpr ⟨hc, by simp⟩, hu⟩
    · rintro ⟨c, hc, hu⟩
      obtain ⟨hlog, htu⟩ := List.mem_filter.mp hc
      have htu : c.tu = tu := by simpa using htu
      exact Or.inr ⟨c, hlog, hu, htu, htu ▸ h.tagged c hlog⟩
  refine ⟨?_, hcontributes, ?_, ?_⟩
  · intro k
    rw [h.logged.reg, GraphSpec.register_reg, List.countP_filter]
    refine (Nat.zero_add _).trans (List.countP_congr fun c hc => ?_)
    have hne := h.tagged c hc
    simp only [decide_eq_true_eq, Bool.and_eq_true]
    constructor
    · rintro ⟨hk, -, ht⟩
      exact ⟨hk, ht.symm⟩
    · rintro ⟨hk, ht⟩
      exact ⟨hk, hne, ht.symm⟩
  · intro c hc u hu
    have hin : tu ∈ g.spec.contributors u := (hcontributes u).mpr ⟨c, hc, hu⟩
    exact h.wf.contributed _ _ hin
  · intro c hc
    exact h.related c (List.mem_of_mem_filter hc)

theorem register (htagged : ∀ c ∈ log, c.tu ≠ []) :
    Carries (({} : CallGraph).register log) log := by
  obtain ⟨hwf, hspec⟩ := CallGraph.register_wf_spec log CallGraph.wf_empty
  rw [CallGraph.spec_empty] at hspec
  refine ⟨hwf, htagged, ?_, ?_⟩
  · rw [hspec]
    exact GraphSpec.Logged.start htagged
  · intro c hc p hp
    rw [hspec, GraphSpec.register_related]
    exact Or.inr ⟨c, hc, hp⟩

theorem readBack (codec : Codec) (h : Carries g log) : Carries (codec.readBack g) log := by
  obtain ⟨hwf, hspec⟩ := codec.faithful h.wf
  refine ⟨hwf, h.tagged, ?_, ?_⟩
  · rw [hspec]
    exact h.logged
  · rw [hspec]
    exact h.related

theorem absorb (h : Carries g log) {shard : CallGraph} {log' : List Call}
    (h' : Carries shard log') : Carries (g.absorb shard) (log ++ log') := by
  obtain ⟨hwf, hspec⟩ := CallGraph.absorb_wf_spec h.wf h'.wf
  refine ⟨hwf, ?_, ?_, ?_⟩
  · intro c hc
    rcases List.mem_append.mp hc with hc | hc
    · exact h.tagged c hc
    · exact h'.tagged c hc
  · rw [hspec]
    exact h.logged.merge h'.logged
  · intro c hc p hp
    rw [hspec]
    rcases List.mem_append.mp hc with hc | hc
    · exact Or.inl (h.related c hc p hp)
    · exact Or.inr (h'.related c hc p hp)

theorem removeTUs (h : Carries g log) (tus : List Str) :
    Carries (g.removeTUs tus).1 (GraphSpec.kept log tus) := by
  obtain ⟨hwf, hspec⟩ := CallGraph.removeTUs_wf_spec h.wf tus
  obtain ⟨hlogged, -, hrelated⟩ := h.logged.removeTUs tus h.tagged
  refine ⟨hwf, fun c hc => h.tagged c (List.mem_of_mem_filter hc), ?_, ?_⟩
  · rw [hspec]
    exact hlogged
  · intro c hc p hp
    rw [hspec, hrelated]
    exact h.related c (List.mem_of_mem_filter hc) p hp

end Carries

/-! ### What a bake delivers -/

theorem Parses.tagged {frontend : Frontend} {files : List Str} (p : Parses frontend files) :
    ∀ c ∈ p.log, c.tu ≠ [] := by
  intro c hc
  have hmem : c ∈ p.log.filter (·.tu = c.tu) := List.mem_filter.mpr ⟨hc, by simp⟩
  exact ((frontend c.tu).tagged c ((p.started c.tu).subset hmem)).2

/-- Paths of the files a list of stamps is about. -/
def pathsOf (stamps : List FileStamp) : List Str := stamps.map (·.path)

/-- The dependency lists of a bake: nothing about other files, and the paths each finished
parse opened. -/
structure Lists (frontend : Frontend) (files finished : List Str) (deps : TuDependencies) :
    Prop where
  only : ∀ tu, tu ∉ files → deps.lookup tu = none
  opened : ∀ tu ∈ finished, pathsOf (deps.getD tu []) = pathsOf (frontend tu).opened

theorem lookup_finished (frontend : Frontend) (finished : List Str) (deps : TuDependencies)
    (tu : Str) :
    (finished.foldl (fun deps t => AList.insert t (frontend t).opened deps) deps).lookup tu
      = if tu ∈ finished then some (frontend tu).opened else deps.lookup tu := by
  induction finished generalizing deps with
  | nil => rfl
  | cons t rest ih =>
      rw [List.foldl_cons, ih, UMap.lookup_insert_ite]
      by_cases hrest : tu ∈ rest
      · rw [if_pos hrest, if_pos (List.mem_cons_of_mem t hrest)]
      · by_cases ht : tu = t
        · subst ht
          rw [if_neg hrest, if_pos rfl, if_pos List.mem_cons_self]
        · rw [if_neg hrest, if_neg ht, if_neg]
          simp [ht, hrest]

theorem bakeIndexes_lists {frontend : Frontend} {files : List Str} (p : Parses frontend files) :
    Lists frontend files p.finished (bakeIndexes p).deps := by
  have hlook := lookup_finished frontend p.finished ∅
  refine ⟨?_, ?_⟩
  · intro tu htu
    refine (hlook tu).trans (if_neg fun hc => ?_)
    exact htu (p.ended tu hc).1
  · intro tu htu
    have hsome : (bakeIndexes p).deps.lookup tu = some (frontend tu).opened :=
      (hlook tu).trans (if_pos htu)
    rw [UMap.getD, hsome]
    rfl

/-! ### Paths survive recording -/

theorem lookup_dependenciesOf_none {snap : SnapshotMeta} {tu : Str}
    (h : tu ∉ snap.files.map (·.path)) : (dependenciesOf snap).lookup tu = none := by
  have hfold : ∀ (l : List (FileStamp × List Nat)) (m : TuDependencies),
      (∀ x ∈ l, x.1.path ≠ tu) → m.lookup tu = none →
      (l.foldl (fun out x => UMap.upsert out x.1.path [] (· ++ x.2.filterMap (snap.deps[·]?)))
        m).lookup tu = none := by
    intro l
    induction l with
    | nil => exact fun m _ hm => hm
    | cons x rest ih =>
        intro m hne hm
        refine ih _ (fun y hy => hne y (List.mem_cons_of_mem x hy)) ?_
        rw [UMap.lookup_upsert, if_neg fun hc => hne x List.mem_cons_self hc.symm]
        exact hm
  refine hfold _ ∅ ?_ rfl
  intro x hx hpath
  exact h (hpath ▸ List.mem_map_of_mem (List.of_mem_zip hx).1)

/-- Recording may change a stamp of a list, never its path. -/
theorem paths_after_record {snap : SnapshotMeta} (deps : TuDependencies)
    (hnd : (snap.files.map (·.path)).Nodup) {f : FileStamp} (hf : f ∈ snap.files) :
    pathsOf ((dependenciesOf (recordDependencies snap deps)).getD f.path [])
      = pathsOf (deps.getD f.path []) := by
  obtain ⟨i, hi⟩ := List.getElem?_of_mem hf
  obtain ⟨row, hrow, hread⟩ := recordDependencies_row snap deps hi
  rw [dependenciesOf_getD (recordDependencies snap deps) hnd hi,
    List.getD_eq_getElem?_getD, hrow, Option.getD_some]
  have hcompact : row.filterMap ((recordDependencies snap deps).deps[·]?)
      = (deps.getD f.path []).filterMap
          (fun d => oldest (reportedStamps snap.files deps) d.path) := by
    have := congrArg (List.filterMap id) hread
    simpa [List.filterMap_map, Function.comp_def] using this
  rw [hcompact]
  have hkeep : ∀ l : List FileStamp, (∀ d ∈ l, d ∈ deps.getD f.path []) →
      pathsOf (l.filterMap fun d => oldest (reportedStamps snap.files deps) d.path)
        = pathsOf l := by
    intro l
    induction l with
    | nil => exact fun _ => rfl
    | cons d rest ih =>
        intro hl
        have hreported : d ∈ reportedStamps snap.files deps :=
          List.mem_flatMap.mpr ⟨f, hf, hl d List.mem_cons_self⟩
        obtain ⟨k, hk⟩ := oldest_isSome hreported
        simp only [List.filterMap_cons, hk]
        show k.path :: pathsOf _ = d.path :: pathsOf rest
        rw [ih fun e he => hl e (List.mem_cons_of_mem d he), (oldest_mem _ hk).2]
  exact hkeep _ fun _ h => h

/-! ### Shards -/

section Shards

variable {frontend : Frontend} {codec : Codec} {fs : FileSystem}

theorem shard_lists {shard : Shard frontend} (hnd : shard.1.Nodup) :
    Lists frontend shard.1 shard.2.finished (dependenciesOf (shardMeta fs shard)) := by
  have hpaths : (stampFiles fs shard.1).map (·.path) = shard.1 := stampFiles_paths fs shard.1
  obtain ⟨-, hopened⟩ := bakeIndexes_lists shard.2
  refine ⟨?_, ?_⟩
  · intro tu htu
    refine lookup_dependenciesOf_none ?_
    show tu ∉ (stampFiles fs shard.1).map (·.path)
    rw [hpaths]
    exact htu
  · intro tu htu
    obtain ⟨f, hf, rfl⟩ : ∃ f ∈ stampFiles fs shard.1, f.path = tu := by
      refine List.mem_map.mp ?_
      rw [hpaths]
      exact (shard.2.ended tu htu).1
    refine (paths_after_record _ ?_ hf).trans (hopened f.path htu)
    show ((stampFiles fs shard.1).map (·.path)).Nodup
    rw [hpaths]
    exact hnd

theorem consumed_carries (shards : List (Shard frontend)) {out : BakedIndexes} {log : List Call}
    (h : Carries out.graph log) :
    Carries (shards.foldl (consumeShard codec fs) out).graph
      (log ++ shards.flatMap (·.2.log)) := by
  induction shards generalizing out log with
  | nil => simpa using h
  | cons shard rest ih =>
      have hshard : Carries (codec.readBack (bakeIndexes shard.2).graph) shard.2.log :=
        (Carries.register shard.2.tagged).readBack codec
      have hout : Carries (consumeShard codec fs out shard).graph (log ++ shard.2.log) :=
        h.absorb hshard
      rw [List.flatMap_cons, ← List.append_assoc]
      exact ih hout

/-- A TU is in one batch only, so the shard that finished it has all calls about it. -/
theorem shards_calls (shards : List (Shard frontend)) (hnd : ((shards.map (·.1)).flatten).Nodup)
    {shard : Shard frontend} (hshard : shard ∈ shards) {tu : Str} (htu : tu ∈ shard.2.finished) :
    (shards.flatMap (·.2.log)).filter (·.tu = tu) = (frontend tu).calls := by
  have hsilent : ∀ s : Shard frontend, tu ∉ s.1 → s.2.log.filter (·.tu = tu) = [] := by
    intro s hs
    refine List.filter_eq_nil_iff.mpr fun c hc hct => ?_
    have hct : c.tu = tu := by simpa using hct
    exact hs (hct ▸ s.2.own c hc)
  obtain ⟨hin, hcalls⟩ := shard.2.ended tu htu
  induction shards with
  | nil => exact absurd hshard List.not_mem_nil
  | cons s rest ih =>
      rw [List.map_cons, List.flatten_cons, List.nodup_append] at hnd
      obtain ⟨-, hrest, hapart⟩ := hnd
      rw [List.flatMap_cons, List.filter_append]
      rcases List.mem_cons.mp hshard with rfl | hmem
      · have hnone : (rest.flatMap (·.2.log)).filter (·.tu = tu) = [] := by
          rw [List.filter_flatMap]
          refine List.flatMap_eq_nil_iff.mpr fun x hx => hsilent x fun hc => ?_
          exact hapart tu hin tu (List.mem_flatten.mpr ⟨x.1, List.mem_map_of_mem hx, hc⟩) rfl
        rw [hnone, List.append_nil]
        exact hcalls
      · have hlater : tu ∈ (rest.map (·.1)).flatten :=
          List.mem_flatten.mpr ⟨shard.1, List.mem_map_of_mem hmem, hin⟩
        rw [hsilent s fun hc => hapart tu hc tu hlater rfl, List.nil_append]
        exact ih hrest hmem

theorem consumed_lists (shards : List (Shard frontend)) {out : BakedIndexes}
    (hnd : ((shards.map (·.1)).flatten).Nodup) (tu : Str)
    (hfresh : tu ∈ (shards.map (·.1)).flatten → out.deps.lookup tu = none) :
    (tu ∉ (shards.map (·.1)).flatten →
      (shards.foldl (consumeShard codec fs) out).deps.lookup tu = out.deps.lookup tu) ∧
    (∀ shard ∈ shards, tu ∈ shard.2.finished →
      pathsOf ((shards.foldl (consumeShard codec fs) out).deps.getD tu [])
        = pathsOf (frontend tu).opened) := by
  induction shards generalizing out with
  | nil => exact ⟨fun _ => rfl, fun _ h => absurd h List.not_mem_nil⟩
  | cons shard rest ih =>
      rw [List.map_cons, List.flatten_cons, List.nodup_append] at hnd
      obtain ⟨hbatch, hrest, hapart⟩ := hnd
      have hlists : Lists frontend shard.1 shard.2.finished
          (dependenciesOf (shardMeta fs shard)) := shard_lists hbatch
      have hone : (consumeShard codec fs out shard).deps.lookup tu
          = ((dependenciesOf (shardMeta fs shard)).lookup tu).or (out.deps.lookup tu) :=
        UMap.lookup_insertAll _ _ tu
      rw [List.map_cons, List.flatten_cons] at hfresh
      have hlater : tu ∈ (rest.map (·.1)).flatten →
          (consumeShard codec fs out shard).deps.lookup tu = none := by
        intro hin
        rw [hone, hfresh (List.mem_append_right _ hin), Option.or_none]
        exact hlists.only tu fun hc => hapart tu hc tu hin rfl
      obtain ⟨hother, hfinished⟩ := ih hrest hlater
      refine ⟨?_, ?_⟩
      · intro htu
        rw [List.map_cons, List.flatten_cons, List.mem_append, not_or] at htu
        rw [List.foldl_cons, hother htu.2, hone, hlists.only tu htu.1, Option.none_or]
      · intro s hs htu
        rcases List.mem_cons.mp hs with rfl | hs
        · have hin : tu ∈ s.1 := (s.2.ended tu htu).1
          have hout : tu ∉ (rest.map (·.1)).flatten := fun hc => hapart tu hin tu hc rfl
          rw [List.foldl_cons, UMap.getD, hother hout, hone, ← hlists.opened tu htu, UMap.getD,
            hfresh (List.mem_append_left _ hin), Option.or_none]
        · rw [List.foldl_cons]
          exact hfinished s hs htu

end Shards

/-- The consumed batches share no file, and no foreign one is among them. -/
theorem Dispatched.batches {frontend : Frontend} {files : List Str} (hnd : files.Nodup)
    (d : Dispatched frontend files) :
    ((d.shards.map (·.1)).flatten).Nodup ∧ ∀ tu ∈ (d.shards.map (·.1)).flatten, tu ∈ files := by
  have hcount : ∀ tu, ((d.shards.map (·.1)).flatten).count tu ≤ files.count tu := by
    intro tu
    have := (WorkerPool.reachable_inv hnd d.reached).conserved tu
    rw [WorkerPool.Dispatch.decided, List.count_append] at this
    rw [d.consumed]
    omega
  refine ⟨List.nodup_iff_count_le_one.mpr fun tu => ?_, ?_⟩
  · exact Nat.le_trans (hcount tu) (List.nodup_iff_count_le_one.mp hnd tu)
  · intro tu htu
    have := List.count_pos_iff.mpr htu
    exact List.count_pos_iff.mp (Nat.lt_of_lt_of_le this (hcount tu))

namespace Bake

variable {frontend : Frontend} {files : List Str} (codec : Codec) (fs : FileSystem)

theorem carries (b : Bake frontend files) : Carries (b.indexes codec fs).graph b.log := by
  have hempty : Carries (({} : BakedIndexes).graph) [] :=
    Carries.register fun _ hc => absurd hc List.not_mem_nil
  cases b with
  | inProcess p => exact Carries.register p.tagged
  | isolated d => exact consumed_carries d.shards hempty
  | aborted => exact hempty

theorem own (hnd : files.Nodup) (b : Bake frontend files) : ∀ c ∈ b.log, c.tu ∈ files := by
  cases b with
  | inProcess p => exact p.own
  | isolated d =>
      intro c hc
      obtain ⟨shard, hshard, hc⟩ := List.mem_flatMap.mp hc
      refine (d.batches hnd).2 c.tu (List.mem_flatten.mpr ⟨shard.1, ?_, shard.2.own c hc⟩)
      exact List.mem_map_of_mem hshard
  | aborted => exact fun c hc => absurd hc List.not_mem_nil

theorem landed_of_notMem (hnd : files.Nodup) (b : Bake frontend files) {tu : Str}
    (htu : tu ∉ files) : b.landed tu = [] := by
  refine List.filter_eq_nil_iff.mpr fun c hc hct => ?_
  have hct : c.tu = tu := by simpa using hct
  exact htu (hct ▸ b.own hnd c hc)

theorem lists (hnd : files.Nodup) (b : Bake frontend files) :
    Lists frontend files b.delivered (b.indexes codec fs).deps := by
  cases b with
  | inProcess p => exact bakeIndexes_lists p
  | isolated d =>
      obtain ⟨hbatches, hforeign⟩ := d.batches hnd
      have hconsumed := @consumed_lists frontend codec fs d.shards {} hbatches
      refine ⟨?_, ?_⟩
      · intro tu htu
        exact (hconsumed tu fun _ => rfl).1 fun hc => htu (hforeign tu hc)
      · intro tu htu
        obtain ⟨shard, hshard, htu⟩ := List.mem_flatMap.mp htu
        exact (hconsumed tu fun _ => rfl).2 shard hshard htu
  | aborted => exact ⟨fun _ _ => rfl, fun _ h => absurd h List.not_mem_nil⟩

/-- A TU that was delivered landed its whole parse. -/
theorem landed_of_delivered (hnd : files.Nodup) (b : Bake frontend files) {tu : Str}
    (htu : tu ∈ b.delivered) : b.landed tu = (frontend tu).calls := by
  cases b with
  | inProcess p => exact (p.ended tu htu).2
  | isolated d =>
      obtain ⟨shard, hshard, htu⟩ := List.mem_flatMap.mp htu
      exact shards_calls d.shards (d.batches hnd).1 hshard htu
  | aborted => exact absurd htu List.not_mem_nil

end Bake

/-! ### The three ways a run ends -/

/-- A run leaves the file alone, or saves a full build, or saves a refresh of what it found. -/
theorem IndexRun.run_cases (r : IndexRun) (codec : Codec) (disk : Option Snapshot) :
    r.run codec disk = (disk, []) ∨
    r.run codec disk = (some (r.saved (r.bakeOf codec r.files)), r.files) ∨
    ∃ snap, disk = some snap ∧
      r.run codec disk
        = (some (r.saved (r.refresh codec snap (toDrop snap.snapMeta r.files)
            (r.dirty snap.snapMeta))), r.dirty snap.snapMeta) := by
  have hsave : ∀ indexes baked, r.save disk indexes baked = (disk, []) ∨
      r.save disk indexes baked = (some (r.saved indexes), baked) := by
    intro indexes baked
    unfold save
    by_cases hs : r.saves
    · exact Or.inr (if_pos hs)
    · exact Or.inl (if_neg hs)
  have hplan : ∀ drop bake, r.plan disk = .refresh drop bake →
      ∃ snap, disk = some snap ∧ drop = toDrop snap.snapMeta r.files ∧
        bake = r.dirty snap.snapMeta := by
    intro drop bake hp
    unfold plan at hp
    cases hd : disk.filter (fun _ => r.metaLoads) with
    | none =>
        rw [hd] at hp
        simp at hp
    | some snap =>
        rw [hd] at hp
        refine ⟨snap, (Option.filter_eq_some_iff.mp hd).1, ?_⟩
        dsimp only at hp
        split_ifs at hp
        exact ⟨(Plan.refresh.inj hp).1.symm, (Plan.refresh.inj hp).2.symm⟩
  unfold run
  cases hp : r.plan disk with
  | full => exact (hsave _ _).imp_right Or.inl
  | unchanged => exact Or.inl rfl
  | refresh drop bake =>
      obtain ⟨snap, rfl, rfl, rfl⟩ := hplan drop bake hp
      dsimp only
      split_ifs
      · exact Or.inl rfl
      · exact (hsave _ _).imp_right fun h => Or.inr ⟨snap, rfl, h⟩

/-! ### The ledger -/

/-- What a snapshot records of one TU agrees with a bake of it. -/
structure Entry (snap : Snapshot) (log : List Call) (f : FileStamp) (b : BakeRecord) : Prop where
  nodup : b.toBake.Nodup
  stamp : stampFile b.run.fs f.path = f
  landed : log.filter (·.tu = f.path) = b.bake.landed f.path
  opened : f.path ∈ b.bake.delivered →
    pathsOf ((dependenciesOf snap.snapMeta).getD f.path [])
      = pathsOf (b.run.frontend f.path).opened

/-- The invariant of a history: every recorded TU agrees with its last bake. -/
structure Ledger (t : Trace) (snap : Snapshot) (log : List Call) : Prop where
  nodup : (snap.snapMeta.files.map (·.path)).Nodup
  carries : Carries snap.graph log
  own : ∀ c ∈ log, c.tu ∈ snap.snapMeta.files.map (·.path)
  entry : ∀ f ∈ snap.snapMeta.files, ∃ b, t.lastBake f.path = some b ∧ Entry snap log f b

section Saved

variable {r : IndexRun} {codec : Codec}

theorem saved_files (indexes : BakedIndexes) :
    (r.saved indexes).snapMeta.files = r.currentStamps := rfl

theorem saved_paths (indexes : BakedIndexes) :
    (r.saved indexes).snapMeta.files.map (·.path) = r.files := stampFiles_paths r.fs r.files

theorem saved_lists (indexes : BakedIndexes) {p : Str} (hp : p ∈ r.files) :
    pathsOf ((dependenciesOf (r.saved indexes).snapMeta).getD p [])
      = pathsOf (indexes.deps.getD p []) := by
  have hmem : stampFile r.fs p ∈ r.currentStamps := List.mem_map_of_mem hp
  have hnd : (r.currentStamps.map (·.path)).Nodup := by
    rw [← saved_files indexes, saved_paths]
    exact r.nodup
  show pathsOf ((dependenciesOf (savedMeta r.cfg r.currentStamps indexes.deps)).getD p []) = _
  unfold savedMeta
  rw [← stampFile_path r.fs p]
  exact paths_after_record indexes.deps hnd hmem

/-- A full build enters the whole selection. -/
theorem Ledger.full (t : Trace) :
    let indexes := r.bakeOf codec r.files
    Ledger { disk := some (r.saved indexes)
             lastBake := fun tu => if tu ∈ r.files then some ⟨r, r.files⟩ else t.lastBake tu }
      (r.saved indexes) (r.runBake r.files).log := by
  intro indexes
  refine ⟨?_, (r.runBake r.files).carries codec r.fs, ?_, ?_⟩
  · rw [saved_paths]
    exact r.nodup
  · rw [saved_paths]
    exact (r.runBake r.files).own r.nodup
  · intro f hf
    obtain ⟨p, hp, rfl⟩ := List.mem_map.mp hf
    rw [stampFile_path]
    refine ⟨⟨r, r.files⟩, if_pos hp, r.nodup, by rw [stampFile_path], by rw [stampFile_path]; rfl, ?_⟩
    rw [stampFile_path, saved_lists indexes hp]
    exact ((r.runBake r.files).lists codec r.fs r.nodup).opened p

theorem toBake_sublist (stamps : List FileStamp) (flags : List Bool) :
    (toBake stamps flags).Sublist (stamps.map (·.path)) := by
  unfold toBake
  induction stamps generalizing flags with
  | nil => exact List.nil_sublist _
  | cons stamp rest ih =>
      cases flags with
      | nil => exact List.nil_sublist _
      | cons flag flags =>
          cases flag with
          | true => exact (ih flags).cons_cons stamp.path
          | false => exact (ih flags).cons stamp.path

theorem dirty_sublist (snap : SnapshotMeta) : (r.dirty snap).Sublist r.files := by
  have := toBake_sublist r.currentStamps (dirtyTUs r.fs snap r.currentStamps).1
  rwa [show r.currentStamps.map (·.path) = r.files from stampFiles_paths r.fs r.files] at this

/-- A TU the snapshot is clean about is recorded under its current stamp. -/
theorem recorded_of_clean {snap : SnapshotMeta} {p : Str} (hp : p ∈ r.files)
    (hclean : p ∉ r.dirty snap) : stampFile r.fs p ∈ snap.files := by
  have hrec : Recorded snap.files (stampFile r.fs p) := by
    by_contra hc
    exact hclean (mem_toBake.mpr ⟨hp, dirtyFlag_changed r.fs snap hc⟩)
  obtain ⟨i, -, hi⟩ := hrec
  exact List.mem_of_getElem? hi

theorem kept_filter (log : List Call) (tus : List Str) (p : Str) :
    (GraphSpec.kept log tus).filter (·.tu = p)
      = if p ∈ tus then [] else log.filter (·.tu = p) := by
  unfold GraphSpec.kept
  rw [List.filter_filter]
  by_cases hp : p ∈ tus
  · rw [if_pos hp]
    refine List.filter_eq_nil_iff.mpr fun c _ hc => ?_
    simp only [Bool.and_eq_true, decide_eq_true_eq] at hc
    exact hc.2 (hc.1 ▸ hp)
  · rw [if_neg hp]
    refine List.filter_congr fun c _ => ?_
    by_cases hc : c.tu = p
    · simp [hc, hp]
    · simp [hc]

theorem refresh_carries {snap : Snapshot} {log : List Call} (h : Carries snap.graph log)
    (drop : List Str) {bake : List Str} (hnd : bake.Nodup) :
    Carries (r.refresh codec snap drop bake).graph
      (GraphSpec.kept log (drop ++ bake.filter (· ∈ snap.snapMeta.files.map (·.path)))
        ++ (r.runBake bake).log) := by
  have hold := (h.readBack codec).removeTUs
    (drop ++ bake.filter (· ∈ snap.snapMeta.files.map (·.path)))
  unfold IndexRun.refresh
  by_cases hb : bake = []
  · have hnone : (r.runBake bake).log = [] := by
      refine List.eq_nil_iff_forall_not_mem.mpr fun c hc => ?_
      have hin := (r.runBake bake).own hnd c hc
      rw [hb] at hin
      exact List.not_mem_nil hin
    rw [hnone, List.append_nil]
    simp only [if_pos hb]
    exact hold
  · simp only [if_neg hb]
    exact hold.absorb ((r.runBake bake).carries codec r.fs)

theorem refresh_lists (snap : Snapshot) (drop : List Str) {bake : List Str} (hnd : bake.Nodup)
    (p : Str) :
    (p ∈ bake → p ∈ (r.runBake bake).delivered →
      pathsOf ((r.refresh codec snap drop bake).deps.getD p []) = pathsOf (r.frontend p).opened) ∧
    (p ∉ bake → p ∉ drop →
      (r.refresh codec snap drop bake).deps.getD p []
        = (dependenciesOf snap.snapMeta).getD p []) := by
  obtain ⟨honly, hopened⟩ := (r.runBake bake).lists codec r.fs hnd
  refine ⟨?_, ?_⟩
  · intro hp hdelivered
    have hb : bake ≠ [] := List.ne_nil_of_mem hp
    have hlook : (r.refresh codec snap drop bake).deps.lookup p
        = (r.bakeOf codec bake).deps.lookup p := by
      refine (lookup_refreshDependencies _ _ _ _ p).trans ?_
      rw [if_neg hb, if_pos hp, Option.or_none]
    rw [UMap.getD, hlook]
    exact hopened p hdelivered
  · intro hp hdrop
    have hlook : (r.refresh codec snap drop bake).deps.lookup p
        = (dependenciesOf snap.snapMeta).lookup p := by
      refine (lookup_refreshDependencies _ _ _ _ p).trans ?_
      have hnone : (if bake = [] then ({} : BakedIndexes) else r.bakeOf codec bake).deps.lookup p
          = none := by
        by_cases hb : bake = []
        · rw [if_pos hb]
          rfl
        · rw [if_neg hb]
          exact honly p hp
      rw [hnone, if_neg hp, if_neg hdrop, Option.none_or]
    rw [UMap.getD, hlook, UMap.getD]

/-- A refresh enters what it parsed again and keeps the entries of what was clean. -/
theorem Ledger.refresh {t : Trace} {snap : Snapshot} {log : List Call} (h : Ledger t snap log) :
    let bake := r.dirty snap.snapMeta
    let indexes := r.refresh codec snap (toDrop snap.snapMeta r.files) bake
    ∃ log', Ledger { disk := some (r.saved indexes)
                     lastBake := fun tu => if tu ∈ bake then some ⟨r, bake⟩ else t.lastBake tu }
      (r.saved indexes) log' := by
  intro bake indexes
  have hnd : bake.Nodup := (dirty_sublist snap.snapMeta).nodup r.nodup
  have hbake : ∀ p ∈ bake, p ∈ r.files := (dirty_sublist snap.snapMeta).subset
  have hdrop : ∀ p, p ∈ toDrop snap.snapMeta r.files ↔
      p ∈ snap.snapMeta.files.map (·.path) ∧ p ∉ r.files := by
    intro p
    rw [toDrop, List.mem_filter, decide_eq_true_eq]
  set toRemove := toDrop snap.snapMeta r.files
    ++ bake.filter (· ∈ snap.snapMeta.files.map (·.path)) with hremove
  have hmem : ∀ p, p ∈ toRemove ↔ p ∈ snap.snapMeta.files.map (·.path) ∧
      (p ∉ r.files ∨ p ∈ bake) := by
    intro p
    rw [hremove, List.mem_append, hdrop, List.mem_filter, decide_eq_true_eq, and_or_left,
      and_comm (a := p ∈ bake)]
  refine ⟨GraphSpec.kept log toRemove ++ (r.runBake bake).log, ?_,
    refresh_carries h.carries _ hnd, ?_, ?_⟩
  · rw [saved_paths]
    exact r.nodup
  · rw [saved_paths]
    intro c hc
    rcases List.mem_append.mp hc with hc | hc
    · obtain ⟨hlog, hkept⟩ := List.mem_filter.mp hc
      have hkept : c.tu ∉ toRemove := by simpa using hkept
      by_contra hout
      exact hkept ((hmem c.tu).mpr ⟨h.own c hlog, Or.inl hout⟩)
    · exact hbake c.tu ((r.runBake bake).own hnd c hc)
  · intro f hf
    obtain ⟨p, hp, rfl⟩ := List.mem_map.mp hf
    rw [stampFile_path]
    obtain ⟨hnew, hkeep⟩ := @refresh_lists r codec snap (toDrop snap.snapMeta r.files) bake hnd p
    by_cases hpb : p ∈ bake
    · refine ⟨⟨r, bake⟩, if_pos hpb, hnd, by rw [stampFile_path], ?_, ?_⟩
      · -- whatever the old graph had of it is gone
        have hgone : (GraphSpec.kept log toRemove).filter (·.tu = p) = [] := by
          rw [kept_filter]
          by_cases hrec : p ∈ snap.snapMeta.files.map (·.path)
          · exact if_pos ((hmem p).mpr ⟨hrec, Or.inr hpb⟩)
          · split
            · rfl
            · refine List.filter_eq_nil_iff.mpr fun c hc hct => ?_
              have hct : c.tu = p := by simpa using hct
              exact hrec (hct ▸ h.own c hc)
        rw [stampFile_path, List.filter_append, hgone]
        rfl
      · rw [stampFile_path, saved_lists indexes hp]
        exact hnew hpb
    · have hclean := recorded_of_clean hp hpb
      obtain ⟨b, hb, hentry⟩ := h.entry _ hclean
      have hkept : p ∉ toRemove := fun hc => ((hmem p).mp hc).2.elim (· hp) hpb
      have hstay : p ∉ toDrop snap.snapMeta r.files := fun hc => ((hdrop p).mp hc).2 hp
      rw [stampFile_path] at hb
      refine ⟨b, (if_neg hpb).trans hb, hentry.nodup, hentry.stamp, ?_, ?_⟩
      · have hsilent : (r.runBake bake).log.filter (·.tu = p) = [] :=
          (r.runBake bake).landed_of_notMem hnd hpb
        have := hentry.landed
        rw [stampFile_path] at this ⊢
        rw [List.filter_append, kept_filter, if_neg hkept, hsilent, List.append_nil]
        exact this
      · have := hentry.opened
        rw [stampFile_path] at this ⊢
        rw [saved_lists indexes hp, hkeep hpb hstay]
        exact this

end Saved

/-- **Every history keeps the ledger.** -/
theorem trace_ledger (codec : Codec) (history : List IndexRun) {snap : Snapshot}
    (hdisk : (trace codec history).disk = some snap) :
    ∃ log, Ledger (trace codec history) snap log := by
  have hstep : ∀ (t : Trace) (r : IndexRun),
      (∀ snap, t.disk = some snap → ∃ log, Ledger t snap log) →
      ∀ snap, (t.next codec r).disk = some snap → ∃ log, Ledger (t.next codec r) snap log := by
    intro t r h snap hsnap
    rcases r.run_cases codec t.disk with hrun | hrun | ⟨old, hold, hrun⟩
    · have hsame : t.next codec r = t := by
        unfold Trace.next
        rw [hrun]
        simp
      rw [hsame] at hsnap ⊢
      exact h snap hsnap
    · unfold Trace.next at hsnap ⊢
      rw [hrun] at hsnap ⊢
      obtain rfl := Option.some.inj hsnap
      exact ⟨_, Ledger.full t⟩
    · unfold Trace.next at hsnap ⊢
      rw [hrun] at hsnap ⊢
      obtain rfl := Option.some.inj hsnap
      obtain ⟨log, hledger⟩ := h old hold
      exact hledger.refresh
  have hrun : ∀ (history : List IndexRun) (t : Trace),
      (∀ snap, t.disk = some snap → ∃ log, Ledger t snap log) →
      ∀ snap, (history.foldl (Trace.next codec) t).disk = some snap →
        ∃ log, Ledger (history.foldl (Trace.next codec) t) snap log := by
    intro history
    induction history with
    | nil => exact fun _ h => h
    | cons r rest ih => exact fun t h => ih (t.next codec r) (hstep t r h)
  exact hrun history {} (fun _ h => by simp at h) snap hdisk

/-! ### Warm starts

A TU that is not flagged was recorded under the stamp its file still has, and
what the graph holds of it is what its last bake landed. Whether that is its
whole parse is the question whether the bake delivered it.
-/

/-- After a history, if the next run takes the TU to be clean, the graph has the parse of
its recorded version: the one of its last bake, made under the stamp it still has. -/
def WarmStartSound (codec : Codec) (history : List IndexRun) (next : IndexRun) (tu : Str) :
    Prop :=
  ∀ snap, (trace codec history).disk = some snap →
    tu ∈ next.files → tu ∉ next.dirty snap.snapMeta →
      ∃ b, (trace codec history).lastBake tu = some b ∧
        stampFile b.run.fs tu = stampFile next.fs tu ∧
        Holds snap.graph tu (b.run.frontend tu).calls

/-- What a snapshot holds of a clean TU is what its last bake landed, and the recorded
dependencies of a delivered one are the files its parse opened. -/
theorem clean_holds_landed {codec : Codec} {history : List IndexRun} {next : IndexRun}
    {snap : Snapshot} (hdisk : (trace codec history).disk = some snap) {tu : Str}
    (htu : tu ∈ next.files) (hclean : tu ∉ next.dirty snap.snapMeta) :
    ∃ b, (trace codec history).lastBake tu = some b ∧ b.toBake.Nodup ∧
      stampFile b.run.fs tu = stampFile next.fs tu ∧
      Holds snap.graph tu (b.bake.landed tu) ∧
      (tu ∈ b.bake.delivered → pathsOf ((dependenciesOf snap.snapMeta).getD tu [])
        = pathsOf (b.run.frontend tu).opened) := by
  obtain ⟨log, hledger⟩ := trace_ledger codec history hdisk
  obtain ⟨b, hb, hentry⟩ := hledger.entry _ (recorded_of_clean htu hclean)
  obtain ⟨hnd, hstamp, hlanded, hopened⟩ := hentry
  rw [stampFile_path] at hb hstamp hlanded hopened
  refine ⟨b, hb, hnd, hstamp, ?_, hopened⟩
  rw [← hlanded]
  exact hledger.carries.holds tu

/-- **A warm start is sound about a TU that its last bake delivered**, whatever runs came
before and whatever became of the other TUs. -/
theorem warm_start_sound (codec : Codec) (history : List IndexRun) (next : IndexRun) (tu : Str)
    (hdelivered : ∀ b, (trace codec history).lastBake tu = some b → tu ∈ b.bake.delivered) :
    WarmStartSound codec history next tu := by
  intro snap hdisk htu hclean
  obtain ⟨b, hb, hnd, hstamp, hholds, -⟩ := clean_holds_landed hdisk htu hclean
  refine ⟨b, hb, hstamp, ?_⟩
  rw [b.bake.landed_of_delivered hnd (hdelivered b hb)] at hholds
  exact hholds

/-- A file that gives back what was saved. -/
def plainCodec : Codec where
  readBack := id
  faithful := fun h => ⟨h, rfl⟩

/-- Each TU has the one function. -/
def oneFunction : Frontend := fun tu =>
  { calls := if tu = [] then [] else [.node { qualifiedName := str "f", file := tu, line := 1 } tu]
    opened := []
    tagged := by
      intro c hc
      split at hc
      · exact absurd hc List.not_mem_nil
      · obtain rfl := List.mem_singleton.mp hc
        exact ⟨rfl, ‹_›⟩ }

/-- A parse of the first file. -/
def parsedA : Parses oneFunction [str "a"] where
  log := (oneFunction (str "a")).calls
  finished := [str "a"]
  own := by decide
  started := by
    intro tu
    by_cases h : tu = str "a"
    · subst h
      decide
    · have hnone : (oneFunction (str "a")).calls.filter (·.tu = tu) = [] := by
        refine List.filter_eq_nil_iff.mpr fun c hc hct => h ?_
        have hct : c.tu = tu := by simpa using hct
        exact hct.symm.trans ((oneFunction (str "a")).tagged c hc).1
      rw [hnone]
      exact List.nil_prefix
  ended := by decide

open WorkerPool in
/-- Two files go to two workers, and the second file's worker dies. -/
def secondDies : Dispatched oneFunction [str "a", str "b"] where
  workers := 2
  batchSizeOverride := 1
  final :=
    { outstanding := 0, stop := true, consumed := [[str "a"]], poisoned := [str "b"] }
  reached := by
    refine .step (.step (.step (.step (.step (.step (.step .start
      (.take [str "a"] [[str "b"]] rfl (by decide)))
      (.take [str "b"] [] rfl (by decide)))
      (.finish [] [[str "b"]] ⟨[str "a"], 0, none⟩ rfl))
      (.finish [] [] ⟨[str "b"], -1, none⟩ rfl))
      (.collect ⟨[str "a"], 0, none⟩ [⟨[str "b"], -1, none⟩] true rfl (by decide) rfl rfl))
      (.collect ⟨[str "b"], -1, none⟩ [] false rfl (by decide) rfl rfl))
      (.stop rfl rfl rfl)
  shards := [⟨[str "a"], parsedA⟩]
  consumed := rfl

/-- An index run of two files that loses the second. -/
def secondLost : IndexRun where
  files := [str "a", str "b"]
  nodup := by decide
  fs := fun _ => some (1000000000, 10)
  frontend := oneFunction
  runBake := fun files =>
    if h : files = [str "a", str "b"] then h ▸ .isolated secondDies else .aborted

theorem lastBake_secondLost {tu : Str} (htu : tu ∈ secondLost.files) :
    (trace plainCodec [secondLost]).lastBake tu = some ⟨secondLost, secondLost.files⟩ :=
  if_pos htu

theorem warm_start_sound_first_file :
    WarmStartSound plainCodec [secondLost] secondLost (str "a") := by
  refine warm_start_sound plainCodec [secondLost] secondLost (str "a") ?_
  intro b hb
  rw [lastBake_secondLost (by decide)] at hb
  obtain rfl := Option.some.inj hb
  decide

/-- The second file is saved as clean, and nothing of it is in the graph. -/
theorem warm_start_loses_second_file :
    ¬ WarmStartSound plainCodec [secondLost] secondLost (str "b") := by
  intro h
  have hdisk : (trace plainCodec [secondLost]).disk
      = some (secondLost.saved (secondLost.bakeOf plainCodec secondLost.files)) := rfl
  have hclean : str "b" ∉ secondLost.dirty
      (secondLost.saved (secondLost.bakeOf plainCodec secondLost.files)).snapMeta := by decide
  obtain ⟨b, hb, -, hholds⟩ := h _ hdisk (by decide) hclean
  obtain ⟨b', hb', -, -, hlanded, -⟩ := clean_holds_landed hdisk (by decide) hclean
  rw [lastBake_secondLost (by decide)] at hb hb'
  obtain rfl := Option.some.inj hb
  obtain rfl := Option.some.inj hb'
  have hin := (hholds.contributes (str "f")).mpr ⟨_, List.mem_singleton_self _, rfl⟩
  obtain ⟨c, hc, -⟩ := (hlanded.contributes (str "f")).mp hin
  exact List.not_mem_nil hc

end Vycor
