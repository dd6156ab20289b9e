/-
The dependency bookkeeping of a warm refresh.

An `index` run that finds a usable snapshot splits its work by two lists: the TUs the
snapshot records but the selection no longer names are dropped, and the selected TUs
`dirtyTUs` flags are parsed again.  The per-TU dependency lists follow: expand the
table, forget the lists of both kinds of TU, enter what the new parses reported, and
record the result under the current stamps.
-/
import Vycor.Model.Dependencies

namespace Vycor

/-- The options an `index` run is invoked with, as far as the snapshot records them. -/
structure IndexConfig where
  collapsePaths : List Str := []
  lockAllowlist : List Str := []
  lockBuiltins : Bool := true
  channelTypes : List ChannelTypeSpec := []
  entryPoints : List Str := []
deriving DecidableEq

namespace WarmRefresh

open SnapshotIO

/-- Recorded TUs the selection no longer names. -/
def toDrop (snap : SnapshotMeta) (files : List Str) : List Str :=
  (snap.files.map (·.path)).filter (· ∉ files)

/-- Selected TUs that are flagged dirty. -/
def toBake (currentStamps : List FileStamp) (dirtyFlags : List Bool) : List Str :=
  (currentStamps.zip dirtyFlags).filterMap
    (fun (stamp, dirty) => if dirty then some stamp.path else none)

/-- The per-TU lists after the refresh, `fresh` being what the new parses reported. -/
def refreshDependencies (snap : SnapshotMeta) (drop bake : List Str)
    (fresh : TuDependencies) : TuDependencies :=
  let deps := dependenciesOf snap
  let deps := deps.eraseAll drop
  let deps := deps.eraseAll bake
  deps.insertAll fresh

/-- The meta section a run saves. -/
def savedMeta (cfg : IndexConfig) (currentStamps : List FileStamp) (deps : TuDependencies) :
    SnapshotMeta :=
  recordDependencies
    { collapsePaths := cfg.collapsePaths
      lockAllowlist := cfg.lockAllowlist
      lockBuiltins := cfg.lockBuiltins
      channelTypes := cfg.channelTypes
      files := currentStamps
      entryPoints := cfg.entryPoints }
    deps

/-- The meta section a warm refresh of `snap` saves for the selection `files`. -/
def refreshedMeta (fs : FileSystem) (cfg : IndexConfig) (snap : SnapshotMeta)
    (files : List Str) (fresh : TuDependencies) : SnapshotMeta :=
  let currentStamps := stampFiles fs files
  let bake := toBake currentStamps (dirtyTUs fs snap currentStamps).1
  savedMeta cfg currentStamps (refreshDependencies snap (toDrop snap files) bake fresh)

end WarmRefresh

end Vycor
