/-
`runAnalysis` with a checkpoint, and histories of such runs.

A run stamps its sources, takes from the journal what still carries its TU's stamp, parses
the rest, and analyzes each TU against what was merged; a phase-2 record counts only while
the set of contributing stamps hashes as it did.  What the frontend makes of a TU is a
parameter: a function of the TU and of the contents of the files its parse opens, and for
the analysis of the merged index as well.  Threads merge their shards as they finish, so
the merged index is a multiset of contributions.  Workers hand over what they made of a TU
once, or the TU is lost with them.

A run is described by the journal it loaded, the files it found and the TUs whose workers
it gave up.  The order in which its threads append records is left open, and so is the byte
at which it is killed.  A run that crashes in a parse is one that is killed there.
-/
import Mathlib.Data.List.Dedup
import Mathlib.Data.List.Sort
import Mathlib.Data.Multiset.MapFold
import Vycor.Model.Checkpoint

namespace Vycor

open SnapshotIO Checkpoint

/-! ### Files and the frontend

A parse reads what stands in the files it opens, so what it finds is a function
of these contents. Stamps are all that the journal compares.
-/

/-- A file at one time. -/
structure SourceFile where
  mtimeNs : UInt64
  size : UInt64
  content : Str
deriving DecidableEq

/-- The source files and headers at one time. -/
abbrev World := Str → Option SourceFile

namespace World

/-- What `stat` sees of them. -/
def fs (w : World) : FileSystem := fun path => (w path).map fun f => (f.mtimeNs, f.size)

def stamp (w : World) (tu : Str) : FileStamp := stampFile w.fs tu

end World

/-- What a parse of a TU reads: the path and content of each file it opens. -/
abbrev Inputs := List (Str × Option Str)

/-- The frontend: which files a parse opens and what it finds in them. -/
structure Parser where
  /-- The files a parse of a TU opens: its source and its headers. -/
  opens : World → Str → List Str
  index : Str → Inputs → AnnealIndexPayload
  analyze : Str → Inputs → Multiset AnnealIndexPayload → List Diagnostic
  /-- Coverage, ODR and the other checks that read the merged index only. -/
  indexChecks : Multiset AnnealIndexPayload → List Diagnostic

namespace Parser

variable (p : Parser)

def inputs (w : World) (tu : Str) : Inputs :=
  (p.opens w tu).map fun path => (path, (w path).map (·.content))

/-- What a TU adds to the index. -/
def contribution (w : World) (tu : Str) : AnnealIndexPayload := p.index tu (p.inputs w tu)

/-- The phase-2 diagnostics of a TU. -/
def diagnose (w : World) (tu : Str) (merged : Multiset AnnealIndexPayload) : List Diagnostic :=
  p.analyze tu (p.inputs w tu) merged

end Parser

/-! ### Hash of the contributing set -/

namespace Checkpoint

def kFnv64Seed : UInt64 := 14695981039346656037

/-- The hash, continued from a seed. -/
def fnv64 (data : Bytes) (seed : UInt64) : UInt64 :=
  data.foldl (fun h b => (h ^^^ b.toUInt64) * 1099511628211) seed

/-- `std::to_string`. -/
def decimal (n : UInt64) : Str := (Nat.toDigits 10 n.toNat).map fun c => UInt8.ofNat c.toNat

/-- A stamp as it goes into the hash. -/
def stampKey (s : FileStamp) : Str :=
  s.path ++ str "|" ++ decimal s.mtimeNs ++ str "|" ++ decimal s.size

/-- The hash does not depend on the order of the stamps. -/
def annealStampSetHash (stamps : List FileStamp) : UInt64 :=
  ((stamps.map stampKey).insertionSort (· ≤ ·)).foldl
    (fun h k => fnv64 (str "\n") (fnv64 k h)) kFnv64Seed

end Checkpoint

/-! ### A run -/

/-- A run of the tool, by what decides its course. -/
structure AnalysisRun where
  parser : Parser
  /-- The journal as it was loaded. -/
  ckpt : AnnealCheckpoint
  world : World
  sourceFiles : List Str
  /-- TUs that a phase-1 worker was given up on, and a phase-2 worker. -/
  lostIndex : List Str := []
  lostAnalyze : List Str := []

namespace AnalysisRun

open AnnealCheckpoint

variable (r : AnalysisRun)

def kMaxAttempts : UInt32 := 2

def stamp (file : Str) : FileStamp := r.world.stamp file

/-- What phase 1 takes from the journal for a TU. -/
def replayed1 (file : Str) : Option AnnealIndexPayload := r.ckpt.replayPhase1 file (r.stamp file)

/-- Its parse died too often. -/
def worn (phase : UInt8) (file : Str) : Bool :=
  kMaxAttempts ≤ r.ckpt.attemptsOf phase file (r.stamp file)

/-- The TUs that phase 1 parses. -/
def toIndex : List Str :=
  r.sourceFiles.filter fun file => (r.replayed1 file).isNone && !r.worn kPhaseIndex file

/-- The TUs phase 1 skipped, and those it lost with their workers. -/
def poisoned : List Str :=
  (r.sourceFiles.filter fun file => (r.replayed1 file).isNone && r.worn kPhaseIndex file)
    ++ r.toIndex.filter (· ∈ r.lostIndex)

/-- The TUs whose parse of this run was merged. -/
def indexed : List Str := r.toIndex.filter (· ∉ r.poisoned)

/-- The TUs that phase 1 takes from the journal. -/
def restored : List Str := r.sourceFiles.filter fun file => (r.replayed1 file).isSome

/-- The stamps behind the merged index. -/
def contributing : List FileStamp := (r.restored ++ r.indexed).map r.stamp

def merged : Multiset AnnealIndexPayload :=
  (r.sourceFiles.filterMap r.replayed1 : Multiset AnnealIndexPayload)
    + (r.indexed.map (r.parser.contribution r.world) : Multiset AnnealIndexPayload)

/-- The hash of the stamps of all that contribute. -/
def setHash : UInt64 := annealStampSetHash r.contributing

/-- What phase 2 takes from the journal for a TU, after what its slot holds. -/
def replayed2 (file : Str) (slot : List Diagnostic) : Option (List Diagnostic) :=
  r.ckpt.replayPhase2 file (r.stamp file) r.setHash slot

/-- The TUs phase 2 skips because their parse died too often. -/
def skipped2 : List Str :=
  r.sourceFiles.filter fun file =>
    file ∉ r.poisoned && (r.replayed2 file []).isNone && r.worn kPhaseAnalyze file

/-- The TUs that phase 2 parses. -/
def toAnalyze : List Str :=
  r.sourceFiles.filter fun file =>
    file ∉ r.poisoned && (r.replayed2 file []).isNone && !r.worn kPhaseAnalyze file

/-- The TUs that phase 2 analyzes and does not lose. -/
def analyzed : List Str := r.toAnalyze.filter (· ∉ r.lostAnalyze)

/-- The slot of a TU in the end.  A replay appends to it, each time the TU is listed; an
analysis replaces it. -/
def slot (file : Str) : List Diagnostic :=
  if file ∈ r.analyzed then r.parser.diagnose r.world file r.merged
  else if file ∈ r.poisoned then []
  else
    (r.sourceFiles.filter (· = file)).foldl (fun slot _ => (r.replayed2 file slot).getD slot) []

/-- A TU that is listed again has the slot of its last place. -/
def diagnostics : List Diagnostic :=
  r.parser.indexChecks r.merged ++ r.sourceFiles.dedup.flatMap r.slot

/-- No TU was skipped or lost. -/
def Complete : Prop :=
  r.poisoned = [] ∧ r.skipped2 = [] ∧ ∀ file ∈ r.toAnalyze, file ∉ r.lostAnalyze

instance : Decidable r.Complete := inferInstanceAs (Decidable (_ ∧ _ ∧ _))

/-- A record that the run can append. -/
def Journals : Op → Prop
  | .attempt _ tu stamp => tu ∈ r.sourceFiles ∧ stamp = r.stamp tu
  | .phase1 tu stamp contribution =>
      tu ∈ r.indexed ∧ stamp = r.stamp tu ∧ contribution = r.parser.contribution r.world tu
  | .phase2 tu stamp indexSetHash diags =>
      tu ∈ r.analyzed ∧ stamp = r.stamp tu ∧ indexSetHash = r.setHash ∧
        diags = r.parser.diagnose r.world tu r.merged

end AnalysisRun

/-- The diagnostics of a run without a checkpoint. -/
def freshDiagnostics (parser : Parser) (world : World) (sourceFiles : List Str) :
    List Diagnostic :=
  let merged : Multiset AnnealIndexPayload := sourceFiles.map (parser.contribution world)
  parser.indexChecks merged
    ++ sourceFiles.dedup.flatMap fun file => parser.diagnose world file merged

/-! ### Histories -/

/-- A run on a checkpoint file: what it journals, killed after `cut` bytes. -/
structure Pass where
  run : AnalysisRun
  ops : List AnnealCheckpoint.Op
  cut : Nat

namespace Pass

open AnnealCheckpoint

def file (optionsFingerprint : UInt64) (file : Option Bytes) (p : Pass) : Option Bytes :=
  Run.file optionsFingerprint file ⟨p.ops, p.cut⟩

/-- Where the record begins that a kill left in the file in part. -/
def tear (optionsFingerprint : UInt64) (file : Option Bytes) (p : Pass) : Option Nat :=
  match openAt file optionsFingerprint with
  | none => none
  | some o =>
    let whole := o.ckpt.out.length
      + ((Run.flushed optionsFingerprint file ⟨p.ops, p.cut⟩).flatMap Op.framed).length
    let written := ((p.ops.foldl Op.run o.ckpt).out.take p.cut).length
    if whole < written then some (o.kept.length + whole) else none

end Pass

/-- A checkpoint file with its past: the runs on it, and where the first torn record is. -/
structure Session where
  file : Option Bytes
  past : List Pass := []
  torn : Option Nat := none

namespace Session

open AnnealCheckpoint

/-- The run found this journal, and everything it journals is its own. -/
structure Allows (fp : UInt64) (parser : Parser) (s : Session) (p : Pass) : Prop where
  parser : p.run.parser = parser
  opened : (openAt s.file fp).map (·.ckpt) = some p.run.ckpt
  journals : ∀ op ∈ p.ops, p.run.Journals op

/-- The session with one more run. -/
def after (fp : UInt64) (s : Session) (p : Pass) : Session :=
  { file := p.file fp s.file, past := s.past ++ [p]
    torn := s.torn.or (p.tear fp s.file) }

/-- Any history of runs on a checkpoint that starts with no journal of these options, if
each run meets a condition in the state it finds. -/
inductive Reached (fp : UInt64) (parser : Parser) (meets : Session → Pass → Prop) :
    Session → Prop
  | start {file : Option Bytes} :
      (∀ bytes, file = some bytes → reusable bytes fp = false) → Reached fp parser meets { file }
  | pass {s : Session} {p : Pass} : Reached fp parser meets s → s.Allows fp parser p → meets s p →
      Reached fp parser meets (s.after fp p)

end Session

end Vycor
