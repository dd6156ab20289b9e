/-
The transform pipeline: passes of rules over source files, and their replacements on disk.

Clang finds the matches and keeps the replacements of a file apart: databases, matchers, a
run of the tool and the set of one file's replacements are parameters (`Tooling`).  A callback
makes replacements of a match.  Nothing is written until every pass is through; then the files
are read, rewritten and written one by one, in the order of their paths.

What the disk refuses is a parameter too (`Faults`): a file that cannot be read or opened, and
a write that breaks off.  The stream that writes a file checks its errors when it is destroyed,
and ends the process over one.  A file goes by one path here.
-/
import Vycor.Lib.UMap
import Vycor.Model.IndexChecks
import Vycor.Model.Json

namespace Vycor

/-! ### Clang and the disk

What Clang does is a parameter; the disk is a map with points at which it fails.
-/

/-- `clang::tooling::Replacement`. -/
structure Replacement where
  filePath : Str
  offset : Nat
  length : Nat
  replacementText : Str
deriving DecidableEq

/-- The contents of the files, by path. -/
abbrev Disk := Str → Option Str

/-- The file has a new content. -/
def Disk.write (disk : Disk) (path content : Str) : Disk :=
  fun p => if p = path then some content else disk p

/-- What the pipeline uses of Clang. -/
structure Tooling where
  Database : Type
  Command : Type
  Matcher : Type
  Match : Type
  /-- `clang::tooling::Replacements`: those of one file. -/
  Replacements : Type
  loadFromDirectory : Str → Except Str Database
  getCompileCommands : Database → Str → List Command
  parseMatcherExpression : Str → Except Str Matcher
  tryBind : Matcher → Str → Option Matcher
  /-- The exit code of a run over sources, and its matches, each with the place of its matcher. -/
  run : Disk → (Str → List Command) → List Str → List Matcher → Int × List (Nat × Match)
  noReplacements : Replacements
  add : Replacements → Replacement → Except Str Replacements
  replacements : Replacements → List Replacement
  applyAllReplacements : Str → Replacements → Except Str Str

/-- Where the disk fails, and what it says. -/
structure Faults where
  read : Str → Option Str := fun _ => none
  openFile : Str → Option Str := fun _ => none
  /-- The content that was written when a write breaks off. -/
  write : Str → Option Str := fun _ => none

/-- The disk and the standard streams. -/
structure Terminal where
  disk : Disk
  errs : Str := []
  outs : Str := []

def Terminal.err (w : Terminal) (text : Str) : Terminal := { w with errs := w.errs ++ text }

def Terminal.out (w : Terminal) (text : Str) : Terminal := { w with outs := w.outs ++ text }

/-- `llvm::MemoryBuffer::getFile`. -/
def getFile (faults : Faults) (disk : Disk) (path : Str) : Except Str Str :=
  match faults.read path, disk path with
  | some message, _ => .error message
  | none, some content => .ok content
  | none, none => .error (str "No such file or directory")

variable {T : Tooling}

/-- The compile commands of the first database that has some for the file. -/
def fallbackCompileCommands (dbs : List T.Database) (filePath : Str) : List T.Command :=
  ((dbs.map (T.getCompileCommands · filePath)).find? (!·.isEmpty)).getD []

/-! ### Matcher engine -/

/-- A rule: what it matches and what replacements it makes of a match. -/
structure TransformRule (T : Tooling) where
  matcherExpression : Str
  bindId : Str
  callback : T.Match → List Replacement

/-- The rules of a pass, and the replacements they have made. -/
structure MatcherEngine (T : Tooling) where
  /-- The registered matchers with their callbacks. -/
  rules : List (T.Matcher × (T.Match → List Replacement)) := []
  replacements : UMap Str T.Replacements := ∅

namespace MatcherEngine

/-- Parse the matcher, bind its root, and register it. -/
def addRule (engine : MatcherEngine T) (rule : TransformRule T) : Except Str (MatcherEngine T) :=
  match T.parseMatcherExpression rule.matcherExpression with
  | .error message => .error message
  | .ok matcher =>
    if rule.bindId = [] then
      .ok { engine with rules := engine.rules ++ [(matcher, rule.callback)] }
    else
      match T.tryBind matcher rule.bindId with
      | none => .error (str "Failed to bind matcher with id: " ++ rule.bindId)
      | some bound => .ok { engine with rules := engine.rules ++ [(bound, rule.callback)] }

end MatcherEngine

/-- Add a replacement to those of its file; one that conflicts is reported and left out. -/
def addReplacement (conflict : Str) (file : Str)
    (st : UMap Str T.Replacements × Terminal) (r : Replacement) :
    UMap Str T.Replacements × Terminal :=
  let repls := st.1.getD file T.noReplacements
  match T.add repls r with
  | .ok repls => (st.1.insert file repls, st.2)
  | .error message => (st.1.insert file repls, st.2.err (conflict ++ message ++ str "\n"))

namespace MatcherEngine

/-- `CallbackAdapter::run`, for the callback at its place. -/
def onMatch (rules : List (T.Matcher × (T.Match → List Replacement)))
    (st : UMap Str T.Replacements × Terminal) (found : Nat × T.Match) :
    UMap Str T.Replacements × Terminal :=
  match rules[found.1]? with
  | none => st
  | some (_, callback) =>
    (callback found.2).foldl
      (fun st r => addReplacement (str "Replacement conflict: ") r.filePath st r) st

/-- Run the matchers: the exit code, and the replacements their callbacks made. -/
def run (engine : MatcherEngine T) (dbs : List T.Database) (sourceFiles : List Str)
    (w : Terminal) : Int × MatcherEngine T × Terminal :=
  let (code, found) :=
    T.run w.disk (fallbackCompileCommands dbs) sourceFiles (engine.rules.map (·.1))
  let (replacements, w) := found.foldl (onMatch engine.rules) (engine.replacements, w)
  (code, { engine with replacements }, w)

end MatcherEngine

/-! ### Pipeline

The passes only collect replacements. Files are written at the end, one after
the other, each read, rewritten and written before the next is looked at.
-/

/-- The passes, and the replacements made so far by file. -/
structure TransformPipeline (T : Tooling) where
  passes : List (List (TransformRule T)) := []
  allReplacements : UMap Str T.Replacements := ∅

/-- How `execute` ends: with a code, or with the process. -/
inductive Ending
  | returned (code : Int)
  | fatal
deriving DecidableEq

namespace TransformPipeline

def addPass (p : TransformPipeline T) (rules : List (TransformRule T)) : TransformPipeline T :=
  { p with passes := p.passes ++ [rules] }

/-- The databases of the build paths, or the report on the first that does not load. -/
def loadDatabases (buildPaths : List Str) : Except Str (List T.Database) :=
  buildPaths.mapM fun path =>
    match T.loadFromDirectory path with
    | .ok db => .ok db
    | .error message =>
      .error (str "Error loading compilation database from " ++ path ++ str ": " ++ message
        ++ str "\n")

/-- Merge the replacements of a pass into the overall set. -/
def mergeReplacements (engine : MatcherEngine T) (all : UMap Str T.Replacements)
    (w : Terminal) : UMap Str T.Replacements × Terminal :=
  (ascending engine.replacements).foldl
    (fun st entry =>
      (T.replacements entry.2).foldl
        (addReplacement (str "Replacement merge conflict: ") entry.1) st)
    (all, w)

/-- The passes in turn, over the same files: a failed one ends them with its code. -/
def runPasses (dbs : List T.Database) (sourceFiles : List Str) :
    List (List (TransformRule T)) → UMap Str T.Replacements → Terminal →
      Int × UMap Str T.Replacements × Terminal
  | [], all, w => (0, all, w)
  | rules :: rest, all, w =>
    match rules.foldlM MatcherEngine.addRule {} with
    | .error message => (1, all, w.err (str "Error adding rule: " ++ message ++ str "\n"))
    | .ok engine =>
      let (code, engine, w) := engine.run dbs sourceFiles w
      if code ≠ 0 then (code, all, w)
      else
        let (all, w) := mergeReplacements engine all w
        runPasses dbs sourceFiles rest all w

/-- Line and column where the content shows them, else the byte range. -/
def positionText (content : Str) (r : Replacement) : Str :=
  if content ≠ [] ∧ r.offset ≤ content.length then
    let before := content.take r.offset
    let column := (before.reverse.takeWhile (· ≠ 10)).length + 1
    decimalInt (before.count 10 + 1) ++ str ":" ++ decimalInt column
  else decimalInt r.offset ++ str ":" ++ decimalInt r.length

/-- What a dry run says of one file. -/
def describeFile (faults : Faults) (w : Terminal) (entry : Str × T.Replacements) : Terminal :=
  let content := (getFile faults w.disk entry.1).toOption.getD []
  (T.replacements entry.2).foldl
    (fun w r => w.out (entry.1 ++ str ":" ++ positionText content r ++ str ": replace with '"
      ++ r.replacementText ++ str "'\n"))
    w

/-- Rewrite the files one by one; the first that fails ends it, whatever was written. -/
def applyReplacements (faults : Faults) :
    List (Str × T.Replacements) → Terminal → Ending × Terminal
  | [], w => (.returned 0, w)
  | (file, repls) :: rest, w =>
    match getFile faults w.disk file with
    | .error message =>
      (.returned 1, w.err (str "Error reading " ++ file ++ str ": " ++ message ++ str "\n"))
    | .ok content =>
      match T.applyAllReplacements content repls with
      | .error message =>
        (.returned 1, w.err (str "Error applying replacements to " ++ file ++ str ": " ++ message
          ++ str "\n"))
      | .ok result =>
        match faults.openFile file with
        | some message =>
          (.returned 1, w.err (str "Error writing " ++ file ++ str ": " ++ message ++ str "\n"))
        | none =>
          match faults.write file with
          | some written => (.fatal, { w with disk := w.disk.write file written })
          | none => applyReplacements faults rest { w with disk := w.disk.write file result }

/-- Execute all passes, then describe or apply what they collected. -/
def execute (faults : Faults) (p : TransformPipeline T) (buildPaths sourceFiles : List Str)
    (dryRun : Bool) (w : Terminal) : Ending × TransformPipeline T × Terminal :=
  match loadDatabases buildPaths with
  | .error message => (.returned 1, p, w.err message)
  | .ok dbs =>
    let (code, all, w) := runPasses dbs sourceFiles p.passes p.allReplacements w
    let p := { p with allReplacements := all }
    if code ≠ 0 then (.returned code, p, w)
    else if dryRun then (.returned 0, p, (ascending all).foldl (describeFile faults) w)
    else
      match applyReplacements faults (ascending all) w with
      | (.returned 0, w) =>
        (.returned 0, p, w.out (str "Applied replacements to "
          ++ decimalInt (ascending all).length ++ str " file(s).\n"))
      | (ending, w) => (ending, p, w)

end TransformPipeline

end Vycor
