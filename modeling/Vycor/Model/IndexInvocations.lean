/-
Invocations of `index`.

An existing index is read before the TUs are selected: without a selection flag its own TUs
are what is refreshed.  A selection that fails, or selects nothing, ends the program before
anything is baked.
-/
import Vycor.Model.IndexRun
import Vycor.Model.SourceSelection

namespace Vycor

/-- What the command line selects and the run that follows.  The files of the run are those of
the selection. -/
structure Invocation where
  world : SelectionWorld
  sel : SourceSelection
  run : IndexRun

/-- The TUs that a snapshot records. -/
def recordedPaths (snap : Snapshot) : List Str := snap.snapMeta.files.map (·.path)

namespace Invocation

/-- The TUs of the index, as far as it can be read. -/
def selection (inv : Invocation) (disk : Option Snapshot) : SourceSelection :=
  { inv.sel with
    recordedFiles := (disk.filter fun _ => inv.run.metaLoads).elim [] recordedPaths }

def onFiles (inv : Invocation) (selected : Candidates) : IndexRun :=
  { inv.run with files := selected.files, nodup := selected.nodup }

/-- The file an invocation leaves. -/
def exec (inv : Invocation) (codec : Codec) (disk : Option Snapshot) : Option Snapshot :=
  match SourceSelection.selectSources inv.world (inv.selection disk) with
  | .error _ => disk
  | .ok (selected, _) =>
    if selected.files = [] then disk else ((inv.onFiles selected).run codec disk).1

/-- What invocations leave of the file they start from. -/
def execAll (codec : Codec) (disk : Option Snapshot) (history : List Invocation) :
    Option Snapshot :=
  history.foldl (fun disk inv => inv.exec codec disk) disk

end Invocation

end Vycor
