/-
An `index` run, from the snapshot it finds to the snapshot it leaves.

A run stamps its selection, asks `dirtyTUs` what changed, and then bakes everything, bakes
what changed into the graph it decodes, or leaves the file alone.  A bake runs in this
process or in worker processes, and either may come back with less than it was asked for:
a crashed parse is abandoned where it stands, a poisoned TU reaches no shard, and without
a shard directory there is nothing at all.  What the frontend and the workers do is the
environment's choice.  Of the three indexes only the call graph is modelled.

`Trace` runs a history and keeps a ledger beside the file: for every TU, the last bake of
it that went into a saved snapshot.  The program keeps no such ledger.
-/
import Vycor.Model.GraphInvariant
import Vycor.Model.WarmRefresh
import Vycor.Model.WorkerPool

namespace Vycor

open SnapshotIO WarmRefresh

/-! ### Bakes

What a run gets of the frontend and the workers is a parameter: for each TU what
its parse registers, whether it ended, and in what order registrations and
shards come in.
-/

/-- What the frontend makes of one TU. -/
structure ParsedTU (tu : Str) where
  /-- The registrations its parse makes, all under its path.  The one node that the frontend
  adds under no path, a constructor seen through `make_unique` or `make_shared`, is left out. -/
  calls : List Call
  /-- The files its parse opens, in the version the frontend sees. -/
  opened : List FileStamp
  tagged : ∀ c ∈ calls, c.tu = tu ∧ tu ≠ []

/-- What parsing each TU gives at one time. -/
abbrev Frontend := (tu : Str) → ParsedTU tu

/-- The parses of one in-process bake.  Their registrations interleave, each TU's in
order; a crashed parse leaves the ones it had made. -/
structure Parses (frontend : Frontend) (files : List Str) where
  /-- The registrations, in the order they were made. -/
  log : List Call
  /-- TUs whose parse ran to its end. -/
  finished : List Str
  own : ∀ c ∈ log, c.tu ∈ files
  started : ∀ tu, log.filter (·.tu = tu) <+: (frontend tu).calls
  ended : ∀ tu ∈ finished, tu ∈ files ∧ log.filter (·.tu = tu) = (frontend tu).calls

/-- What a bake leaves in memory: the graph, and what each finished TU opened. -/
structure BakedIndexes where
  graph : CallGraph := {}
  deps : TuDependencies := ∅

/-- What loading a saved graph yields: a graph that says the same. -/
structure Codec where
  readBack : CallGraph → CallGraph
  faithful : ∀ {g : CallGraph}, g.WF → (readBack g).WF ∧ (readBack g).spec = g.spec

/-- A TU's dependencies are entered when its parse ends. -/
def bakeIndexes {frontend : Frontend} {files : List Str} (p : Parses frontend files) :
    BakedIndexes :=
  { graph := ({} : CallGraph).register p.log
    deps := p.finished.foldl (fun deps tu => deps.insert tu (frontend tu).opened) ∅ }

/-- One consumed shard: the batch, and the parses of the worker that baked it. -/
abbrev Shard (frontend : Frontend) := (batch : List Str) × Parses frontend batch

/-- A finished dispatch of some files to workers. -/
structure Dispatched (frontend : Frontend) (files : List Str) where
  workers : Nat
  batchSizeOverride : Nat
  final : WorkerPool.Dispatch
  reached : WorkerPool.Reachable files workers batchSizeOverride final
  shards : List (Shard frontend)
  consumed : shards.map (·.1) = final.consumed

/-- What a worker writes down about its batch. -/
def shardMeta (fs : FileSystem) {frontend : Frontend} (shard : Shard frontend) : SnapshotMeta :=
  recordDependencies { files := stampFiles fs shard.1 } (bakeIndexes shard.2).deps

/-- Merge one shard into the parent's indexes. -/
def consumeShard (codec : Codec) (fs : FileSystem) {frontend : Frontend} (out : BakedIndexes)
    (shard : Shard frontend) : BakedIndexes :=
  { graph := out.graph.absorb (codec.readBack (bakeIndexes shard.2).graph)
    deps := out.deps.insertAll (dependenciesOf (shardMeta fs shard)) }

/-- The shards of the workers, merged in the order they are consumed. -/
def bakeIsolatedWithRunner (codec : Codec) (fs : FileSystem) {frontend : Frontend}
    {files : List Str} (d : Dispatched frontend files) : BakedIndexes :=
  d.shards.foldl (consumeShard codec fs) {}

/-- How a bake of some files went. -/
inductive Bake (frontend : Frontend) (files : List Str)
  | inProcess (p : Parses frontend files)
  | isolated (d : Dispatched frontend files)
  /-- No shard directory could be created. -/
  | aborted

namespace Bake

variable {frontend : Frontend} {files : List Str}

/-- What the bake hands back, whichever way it went. -/
def indexes (codec : Codec) (fs : FileSystem) : Bake frontend files → BakedIndexes
  | inProcess p => bakeIndexes p
  | isolated d => bakeIsolatedWithRunner codec fs d
  | aborted => {}

/-- The registrations that reached the baked graph. -/
def log : Bake frontend files → List Call
  | inProcess p => p.log
  | isolated d => d.shards.flatMap (·.2.log)
  | aborted => []

/-- The TUs whose parse ran to its end and reached the baked graph. -/
def delivered : Bake frontend files → List Str
  | inProcess p => p.finished
  | isolated d => d.shards.flatMap (·.2.finished)
  | aborted => []

/-- What reached the baked graph of one TU. -/
def landed (b : Bake frontend files) (tu : Str) : List Call := b.log.filter (·.tu = tu)

end Bake

/-! ### Runs -/

/-- What a run works on: the selection, the options, and what the file system, the
frontend and the workers answer. -/
structure IndexRun where
  files : List Str
  nodup : files.Nodup
  cfg : IndexConfig := {}
  force : Bool := false
  /-- `--dump-nodes` was asked for. -/
  dumpNodes : Bool := false
  /-- The files when the run stamps them. -/
  fs : FileSystem
  frontend : Frontend
  /-- How a bake of these files goes. -/
  runBake : (toBake : List Str) → Bake frontend toBake
  /-- The snapshot's header and meta section can be read. -/
  metaLoads : Bool := true
  /-- Its indexes can be decoded too. -/
  indexesLoad : Bool := true
  saves : Bool := true

/-- A saved index. -/
structure Snapshot where
  snapMeta : SnapshotMeta
  graph : CallGraph

/-- What a run does about the snapshot it finds. -/
inductive Plan
  | full
  | unchanged
  | refresh (toDrop toBake : List Str)

/-- The snapshot was baked with the same options. -/
def configMatch (snap : SnapshotMeta) (cfg : IndexConfig) : Bool :=
  snap.collapsePaths == cfg.collapsePaths && snap.lockAllowlist == cfg.lockAllowlist
    && snap.lockBuiltins == cfg.lockBuiltins && snap.channelTypes == cfg.channelTypes

namespace IndexRun

/-- The stamps of the selection before anything is parsed. -/
def currentStamps (r : IndexRun) : List FileStamp := stampFiles r.fs r.files

/-- Selected TUs the snapshot is dirty about. -/
def dirty (r : IndexRun) (snap : SnapshotMeta) : List Str :=
  toBake r.currentStamps (dirtyTUs r.fs snap r.currentStamps).1

/-- Past half the selection the cold bake wins. -/
def plan (r : IndexRun) (disk : Option Snapshot) : Plan :=
  match disk.filter (fun _ => r.metaLoads) with
  | none => .full
  | some snap =>
    let drop := toDrop snap.snapMeta r.files
    let bake := r.dirty snap.snapMeta
    if r.force then .full
    else if !configMatch snap.snapMeta r.cfg then .full
    else if bake.length * 2 > r.files.length then .full
    else if drop = [] ∧ bake = [] ∧ !r.dumpNodes then .unchanged
    else if !r.indexesLoad then .full
    else .refresh drop bake

/-- What a bake of some files hands back in this run. -/
def bakeOf (r : IndexRun) (codec : Codec) (toBake : List Str) : BakedIndexes :=
  (r.runBake toBake).indexes codec r.fs

/-- Take out what is dropped or parsed again, and absorb the new parses. -/
def refresh (r : IndexRun) (codec : Codec) (snap : Snapshot) (toDrop toBake : List Str) :
    BakedIndexes :=
  let recorded := snap.snapMeta.files.map (·.path)
  let toRemove := toDrop ++ toBake.filter (· ∈ recorded)
  let graph := ((codec.readBack snap.graph).removeTUs toRemove).1
  let fresh := if toBake = [] then {} else r.bakeOf codec toBake
  { graph := if toBake = [] then graph else graph.absorb fresh.graph
    deps := refreshDependencies snap.snapMeta toDrop toBake fresh.deps }

/-- The stamps are those of the whole selection. -/
def saved (r : IndexRun) (indexes : BakedIndexes) : Snapshot :=
  { snapMeta := savedMeta r.cfg r.currentStamps indexes.deps, graph := indexes.graph }

/-- A failed save leaves the file that was there. -/
def save (r : IndexRun) (disk : Option Snapshot) (indexes : BakedIndexes) (baked : List Str) :
    Option Snapshot × List Str :=
  if r.saves then (some (r.saved indexes), baked) else (disk, [])

/-- The file a run leaves, and the TUs whose bake went into it. -/
def run (r : IndexRun) (codec : Codec) (disk : Option Snapshot) : Option Snapshot × List Str :=
  match r.plan disk, disk with
  | .refresh toDrop toBake, some snap =>
    if toDrop = [] ∧ toBake = [] then (disk, [])
    else r.save disk (r.refresh codec snap toDrop toBake) toBake
  | .unchanged, _ => (disk, [])
  | _, _ => r.save disk (r.bakeOf codec r.files) r.files

end IndexRun

/-! ### Histories

Besides the file, a history keeps a ledger of the last bake of each TU that was
saved. The program keeps no such ledger: it is what the results are stated with.
-/

/-- One bake of a TU, as the ledger records it. -/
structure BakeRecord where
  run : IndexRun
  toBake : List Str

namespace BakeRecord

def bake (b : BakeRecord) : Bake b.run.frontend b.toBake := b.run.runBake b.toBake

end BakeRecord

/-- The file between two runs, with the ledger. -/
structure Trace where
  disk : Option Snapshot := none
  /-- The last bake of a TU that was saved. -/
  lastBake : Str → Option BakeRecord := fun _ => none

/-- One run.  The TUs it baked into the file it saved are entered in the ledger. -/
def Trace.next (codec : Codec) (t : Trace) (r : IndexRun) : Trace :=
  let (disk, baked) := r.run codec t.disk
  { disk
    lastBake := fun tu => if tu ∈ baked then some ⟨r, baked⟩ else t.lastBake tu }

/-- What a history of runs leaves, starting without an index. -/
def trace (codec : Codec) (history : List IndexRun) : Trace :=
  history.foldl (Trace.next codec) {}

end Vycor
