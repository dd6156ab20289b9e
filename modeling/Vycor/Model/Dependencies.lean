/-
File stamps, the snapshot's meta section and its dependency table.

A snapshot remembers, for every TU it indexed, the TU's own stamp and the stamps of
the files its parse opened.  The stamps of one file are shared: `deps` holds one
entry per path and `tuDeps` lists, parallel to `files`, which entries each TU opened.
`recordDependencies` builds that table from per-TU lists, `dependenciesOf` expands it
again, and `dirtyTUs` compares it with the files as they are now.

A 32-bit table index is a `Nat`: the table holds one entry per header, so it never
comes near `2 ^ 32` of them.  The stamps keep their 64 bits.
-/
import Vycor.Model.Str
import Vycor.Lib.UMap

namespace Vycor

/-- A file's identity for dirty checks: path, mtime in nanoseconds, size. -/
structure FileStamp where
  path : Str
  mtimeNs : UInt64 := 0
  size : UInt64 := 0
deriving DecidableEq, Repr

/-- Per TU, every file its parse opened, with the stamp the frontend saw. -/
abbrev TuDependencies := UMap Str (List FileStamp)

/-- One registered container type of the channel tracker. -/
structure ChannelTypeSpec where
  qualifiedTypeName : Str
  produceMethods : List Str
  consumeMethods : List Str
  category : Str
deriving DecidableEq, Repr

/-- What a snapshot records besides the indexes themselves. -/
structure SnapshotMeta where
  collapsePaths : List Str := []
  lockAllowlist : List Str := []
  lockBuiltins : Bool := true
  channelTypes : List ChannelTypeSpec := []
  /-- Stamps of the recorded TUs. -/
  files : List FileStamp := []
  /-- The dependency table: one stamp per opened file. -/
  deps : List FileStamp := []
  /-- Parallel to `files`: indices into `deps`. -/
  tuDeps : List (List Nat) := []
  entryPoints : List Str := []
deriving DecidableEq

/-- What `stat` answers for a path: mtime and size, or nothing. -/
abbrev FileSystem := Str → Option (UInt64 × UInt64)

namespace SnapshotIO

/-- A file that cannot be stat'ed keeps mtime and size zero. -/
def stampFile (fs : FileSystem) (f : Str) : FileStamp :=
  match fs f with
  | some (mtimeNs, size) => { path := f, mtimeNs, size }
  | none => { path := f }

/-- The stamps of the files, each as it stands. -/
def stampFiles (fs : FileSystem) (files : List Str) : List FileStamp :=
  files.map (stampFile fs)

def kNsPerSecond : UInt64 := 1000000000

/-- A recorded dependency stamp has whole seconds; the file matches it when the sizes
agree and its mtime falls in that second. -/
def sameParsedVersion (recorded now : FileStamp) : Bool :=
  recorded.size == now.size
    && recorded.mtimeNs == now.mtimeNs - now.mtimeNs % kNsPerSecond

/-! ### Which TUs must be parsed again -/

/-- Path to index into `files`; a repeated path keeps its last index. -/
def recordedIndex (files : List FileStamp) : UMap Str Nat :=
  files.zipIdx.foldl (fun recorded (f, i) => recorded.insert f.path i) ∅

/-- Every dependency is stat'ed once, not once per includer. -/
def depChanged (fs : FileSystem) (snap : SnapshotMeta) : List Bool :=
  let depsNow := stampFiles fs (snap.deps.map (·.path))
  List.zipWith (fun d now => !sameParsedVersion d now) snap.deps depsNow

/-- Whether one selected TU is dirty, and whether only through a dependency. -/
def dirtyFlag (snap : SnapshotMeta) (recorded : UMap Str Nat) (changed : List Bool)
    (current : FileStamp) : Bool × Bool :=
  match recorded.lookup current.path with
  | none => (true, false)
  | some i =>
    if snap.files[i]? ≠ some current then (true, false)
    else if (snap.tuDeps.getD i []).any (fun id => changed.getD id false) then (true, true)
    else (false, false)

/-- One flag per entry of `current`, and how many are dirty only through a dependency. -/
def dirtyTUs (fs : FileSystem) (snap : SnapshotMeta) (current : List FileStamp) :
    List Bool × Nat :=
  let recorded := recordedIndex snap.files
  let changed := depChanged fs snap
  let flags := current.map (dirtyFlag snap recorded changed)
  (flags.map (·.1), flags.countP (·.2))

/-! ### The dependency table

A file that many TUs opened is stored once. Where two parses saw different
versions of it, the older stamp is kept.
-/

/-- The table expanded to per-TU stamp lists. -/
def dependenciesOf (snap : SnapshotMeta) : TuDependencies :=
  (snap.files.zip snap.tuDeps).foldl
    (fun out (f, ids) => out.upsert f.path [] (· ++ ids.filterMap (snap.deps[·]?))) ∅

/-- Two parses saw different versions: the older stamp is kept. -/
def keepOlder (d kept : FileStamp) : FileStamp :=
  if d.mtimeNs < kept.mtimeNs then d else kept

/-- The table under construction and the path index that finds an entry again. -/
structure DepTable where
  deps : List FileStamp := []
  ids : UMap Str Nat := ∅

/-- Enter one stamp; the result also names the entry it went to. -/
def DepTable.enter (t : DepTable) (d : FileStamp) : DepTable × Nat :=
  match t.ids.lookup d.path with
  | none => ({ deps := t.deps ++ [d], ids := t.ids.insert d.path t.deps.length }, t.deps.length)
  | some pos => ({ t with deps := t.deps.modify pos (keepOlder d) }, pos)

/-- Enter one TU's list. -/
def DepTable.enterAll (t : DepTable) : List FileStamp → DepTable × List Nat
  | [] => (t, [])
  | d :: ds =>
    let (t, id) := t.enter d
    let (t, ids) := t.enterAll ds
    (t, id :: ids)

/-- Enter every recorded TU's list; a TU without one gets an empty row. -/
def DepTable.enterTUs (t : DepTable) (deps : TuDependencies) :
    List FileStamp → DepTable × List (List Nat)
  | [] => (t, [])
  | f :: files =>
    let (t, ids) := t.enterAll (deps.getD f.path [])
    let (t, rows) := t.enterTUs deps files
    (t, ids :: rows)

/-- Replace the dependency table by one built from `deps`. -/
def recordDependencies (snap : SnapshotMeta) (deps : TuDependencies) : SnapshotMeta :=
  let (t, rows) := DepTable.enterTUs {} deps snap.files
  { snap with deps := t.deps, tuDeps := rows }

end SnapshotIO

end Vycor
