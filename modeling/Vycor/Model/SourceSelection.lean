/-
Which TUs a bake works on.

The candidates are the files and list entries the command line names, the TUs an index
records, or what the compilation database lists, in that order of preference; a regular
expression and the skipped paths narrow them.  Paths are made absolute without `.` and `..`
before they are compared, so a TU is selected once however it is spelled.

Paths, the files, the regular expression engine and LLVM's text functions come from outside.
The set of seen paths holds what the list holds, so a list without repetitions stands for both.
-/
import Vycor.Lib.Dedup
import Vycor.Model.Ast
import Vycor.Model.Json

namespace Vycor

/-- What the command line and the index say about the TUs to bake. -/
structure SourceSelection where
  /-- `--source`. -/
  explicitFiles : List Str := []
  /-- `--source-list`, `-` being standard input. -/
  listFile : Str := []
  /-- `--source-re`. -/
  regex : Str := []
  /-- `--skip-paths`. -/
  skipPaths : List Str := []
  /-- The TUs of an existing index. -/
  recordedFiles : List Str := []
deriving DecidableEq

/-- What became of the candidates. -/
structure SourceSelectionStats where
  /-- Candidates before filtering. -/
  base : Nat := 0
  regexDropped : Nat := 0
  skipDropped : Nat := 0
  /-- Database entries that are no source files or are gone. -/
  dbSkipped : Nat := 0
  baseSource : Str := []
deriving DecidableEq

/-- What a selection asks its surroundings. -/
structure SelectionWorld where
  /-- `llvm::sys::fs::make_absolute`. -/
  makeAbsolute : Str → Str
  /-- `llvm::sys::path::remove_dots`, `..` included. -/
  removeDots : Str → Str
  /-- `llvm::sys::path::extension`. -/
  extension : Str → Str
  isRegularFile : Str → Bool
  /-- A compiled regular expression, searched for in a path, or what is wrong with it. -/
  regex : Str → Except Str (Str → Bool)
  /-- The contents of a file, or why there are none. -/
  getFile : Str → Except Str Str
  /-- `llvm::line_iterator` over a file's contents, blank lines and `#` lines skipped. -/
  listFileLines : Str → List Str
  /-- `llvm::StringRef::trim`. -/
  trim : Str → Str
  stdin : Str
  /-- The database's files, in hash order and once for every configuration. -/
  getAllFiles : List Str

/-- Selected paths. -/
structure Candidates where
  files : List Str
  nodup : files.Nodup

namespace Candidates

def empty : Candidates := ⟨[], List.nodup_nil⟩

def push (c : Candidates) (path : Str) : Candidates :=
  ⟨Dedup.pushUnique c.files path, Dedup.nodup_pushUnique c.nodup path⟩

/-- `std::sort`. -/
def sort (c : Candidates) : Candidates :=
  ⟨sortStrs c.files, (List.mergeSort_perm c.files _).nodup_iff.mpr c.nodup⟩

/-- `erase` and `remove_if`, of the others. -/
def keep (c : Candidates) (p : Str → Bool) : Candidates := ⟨c.files.filter p, c.nodup.filter p⟩

end Candidates

namespace SourceSelection

/-- The spelling that the stamps of an index use. -/
def canonical (w : SelectionWorld) (path : Str) : Str := w.removeDots (w.makeAbsolute path)

/-- A path that was seen in another spelling is not listed again. -/
def appendUnique (w : SelectionWorld) (out : Candidates) (path : Str) : Candidates :=
  out.push (canonical w path)

/-- One path per line; blank lines and comments name none. -/
def appendListLine (w : SelectionWorld) (out : Candidates) (line : Str) : Candidates :=
  let s := w.trim line
  if s ≠ [] ∧ ¬ str "#" <+: s then appendUnique w out s else out

/-- The lines `std::getline` reads: what follows the last line end is one if it is not empty. -/
def getlines (text : Str) : List Str :=
  let pieces := text.splitOn 10
  if pieces.getLast? = some [] then pieces.dropLast else pieces

/-- The extensions a bake can parse. -/
def kExts : List Str :=
  [str ".c", str ".cc", str ".cp", str ".cpp", str ".cxx", str ".c++", str ".C", str ".m",
    str ".mm", str ".cu"]

/-- A database can list assembly, resources and files that are gone. -/
def isCppSourceOnDisk (w : SelectionWorld) (path : Str) : Bool :=
  kExts.any (w.extension path = ·) && w.isRegularFile path

/-! ### The selection

The base set comes first, and its source is one of three: what the command line names, what the
index records, or the database.  The two filters then apply to any of them.
-/

/-- A bad regular expression fails before any list or the database is read. -/
def compileRegex (w : SelectionWorld) (sel : SourceSelection) :
    Except Str (Option (Str → Bool)) :=
  if sel.regex = [] then .ok none
  else
    match w.regex sel.regex with
    | .ok re => .ok (some re)
    | .error reError =>
      .error (str "invalid --source-re '" ++ sel.regex ++ str "': " ++ reError)

/-- The files and list entries the command line names. -/
def namedFiles (w : SelectionWorld) (sel : SourceSelection) : Except Str Candidates :=
  let files := sel.explicitFiles.foldl (appendUnique w) .empty
  if sel.listFile = [] then .ok files
  else if sel.listFile = str "-" then .ok ((getlines w.stdin).foldl (appendListLine w) files)
  else
    match w.getFile sel.listFile with
    | .ok text => .ok ((w.listFileLines text).foldl (appendListLine w) files)
    | .error message =>
      .error (str "cannot read --source-list " ++ sel.listFile ++ str ": " ++ message)

/-- The database's entries, in an order that does not depend on its own. -/
def databaseFiles (w : SelectionWorld) (files : Candidates) : Candidates × Nat :=
  let onDisk := w.getAllFiles.filter (isCppSourceOnDisk w)
  ((onDisk.foldl (appendUnique w) files).sort, w.getAllFiles.length - onDisk.length)

/-- The candidates, where they came from and how many database entries were skipped. -/
def baseFiles (w : SelectionWorld) (sel : SourceSelection) (re : Option (Str → Bool))
    (files : Candidates) : Except Str (Candidates × Str × Nat) :=
  if sel.explicitFiles ≠ [] ∧ sel.listFile ≠ [] then
    .ok (files, str "source + source-list", 0)
  else if sel.explicitFiles ≠ [] then .ok (files, str "source", 0)
  else if sel.listFile ≠ [] then .ok (files, str "source-list", 0)
  else if re.isNone ∧ sel.recordedFiles ≠ [] then
    .ok (sel.recordedFiles.foldl (appendUnique w) files, str "index", 0)
  else if w.getAllFiles = [] then
    .error (str ("the compilation database lists no files (a compile_flags.txt "
      ++ "database cannot be enumerated); pass --source or --source-list"))
  else
    let (files, dbSkipped) := databaseFiles w files
    .ok (files, str "database", dbSkipped)

/-- What the regular expression lets through; without one, everything. -/
def matching (re : Option (Str → Bool)) (f : Str) : Bool := re.elim true (· f)

/-- What no skipped path covers. -/
def unskipped (skipPaths : List Str) (f : Str) : Bool :=
  !(CollapseFilter.ofPatterns skipPaths).isCollapsed f

/-- The selection with its counts, or the first thing that is wrong. -/
def selectSources (w : SelectionWorld) (sel : SourceSelection) :
    Except Str (Candidates × SourceSelectionStats) := do
  let re ← compileRegex w sel
  let files ← namedFiles w sel
  let (files, baseSource, dbSkipped) ← baseFiles w sel re files
  let matched := files.keep (matching re)
  let selected := matched.keep (unskipped sel.skipPaths)
  return (selected,
    { base := files.files.length
      regexDropped := files.files.length - matched.files.length
      skipDropped := matched.files.length - selected.files.length
      dbSkipped
      baseSource })

end SourceSelection

end Vycor
