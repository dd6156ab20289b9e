/-
The checks that read the index alone.

ODR violations, default arguments and exception specifications are grouped under a key in an
ordered map and walked in the order of the keys; within a group the sites stand in the order
in which they were first seen.  Header statics, static initializers and noexcept functions
are sorted by file, line and name.  The two call searches go breadth first through the
summaries by name, each name once, and remember for a name the one it was met from.

A `std::set` is a list without repetitions: the checks ask for its size and, where it has one
element, for that.  A search takes fuel: a name is queued once.
-/
import Vycor.Lib.Keyed
import Vycor.Model.GlobalIndex

namespace Vycor

open GlobalIndex (toStr bar)

/-! ### Sites and groups

The checks over the whole index group its entries by what is defined and then
look at the sites of each group. Both are ordered maps in the source, so the
order of the reports is that of the keys.
-/

/-- File and line. -/
abbrev IndexSite := Str × UInt32

/-- A site as the reports show it. -/
def formatSite (site : IndexSite) : Str := site.1 ++ str ":" ++ toStr site.2.toNat

/-- What was seen at a site joins what was seen there before. -/
def noteSite {α : Type} [DecidableEq α] (sites : List (IndexSite × List α)) (site : IndexSite) (seen : α) :
    List (IndexSite × List α) :=
  Keyed.put (·.1) (fun old new => (old.1, new.2.foldl Dedup.pushUnique old.2)) sites (site, [seen])

/-- All that was seen at the sites. -/
def allSeen {α : Type} [DecidableEq α] (sites : List (IndexSite × List α)) : List α :=
  (sites.flatMap (·.2)).foldl Dedup.pushUnique []

/-- `if (!text.empty()) text += ", "; text += item`. -/
def listItem (text item : Str) : Str := (if text = [] then [] else text ++ str ", ") ++ item

/-- The entries of a `std::map` in the order of their keys. -/
def ascending {β : Type} (m : UMap Str β) : List (Str × β) :=
  (sortStrs (m.entries.map (·.1))).filterMap fun key => (m.lookup key).map fun value => (key, value)

/-- A report that names no declarations. -/
def flagged (kind : Diagnostic.Kind) (callLocation message : Str) : Diagnostic :=
  { kind, callLocation, resolvedDecl := [], betterDecl := [], missingHeader := [], message
    checkName := [] }

/-! ### ODR violations

Entries are grouped by name, signature and whether they are a class.  What differs
at one site is the cause; what differs between sites only is a duplicate, and the
methods of a duplicated class are not reported for it again.
-/

/-- The definitions of one class or function: the hashes seen at each site. -/
structure OdrGroup where
  displayName : Str := []
  isClass : Bool := false
  enclosingClass : Str := []
  /-- In first-seen order, each with every distinct body hash observed there. -/
  sites : List (IndexSite × List UInt64) := []

/-- A class and a function of one name are two groups. -/
def odrGroupKey (e : OdrEntry) : Str :=
  e.qualifiedName ++ bar ++ e.signature ++ (if e.isClass then str "|c" else str "|f")

/-- Enter a definition; the last entry names the group. -/
def OdrGroup.note (group : OdrGroup) (e : OdrEntry) : OdrGroup :=
  { displayName := e.qualifiedName
    isClass := e.isClass
    enclosingClass := if e.enclosingClass ≠ [] then e.enclosingClass else group.enclosingClass
    sites := noteSite group.sites (e.filePath, e.line) e.odrHash }

/-- The groups of an index. -/
def odrGroups (index : GlobalIndex) : UMap Str OdrGroup :=
  index.odrEntries.foldl (fun groups e => groups.upsert (odrGroupKey e) {} (·.note e)) ∅

/-- The reports so far, and the classes reported as duplicates. -/
structure OdrRun where
  diagnostics : List Diagnostic := []
  /-- Classes flagged as duplicates; their methods are not reported again. -/
  duplicatedClasses : List Str := []

/-- One site with several definitions, which then depend on the preprocessor. -/
def divergentDefinition (group : OdrGroup) (site : IndexSite) (hashes : List UInt64) : Diagnostic :=
  flagged .odrDivergentDefinition (formatSite site)
    (str "ODR violation: '" ++ group.displayName ++ str "' at " ++ formatSite site
      ++ str " compiles to " ++ toStr hashes.length
      ++ str " different definitions across TUs — its body depends on "
      ++ str "preprocessor state that differs between compile commands. Every "
      ++ str "TU must see an identical definition.")

/-- Several sites with different definitions. -/
def duplicateDefinition (group : OdrGroup) (front : IndexSite) : Diagnostic :=
  flagged .odrDuplicateDefinition (formatSite front)
    (str "ODR violation: '" ++ group.displayName ++ str "' has " ++ toStr group.sites.length
      ++ str " definitions with differing bodies ("
      ++ group.sites.foldl (fun text s => listItem text (formatSite s.1)) []
      ++ str "). TUs including different ones link silently, and the "
      ++ str "linker keeps one arbitrarily — unify or rename.")

/-- A site with several hashes is the root cause; else several sites that differ are
duplicates. -/
def analyzeGroup (classesOnly : Bool) (run : OdrRun) (group : OdrGroup) : OdrRun :=
  if group.isClass ≠ classesOnly then run
  else
    match group.sites.find? (2 ≤ ·.2.length) with
    | some (site, hashes) =>
      { run with diagnostics := run.diagnostics ++ [divergentDefinition group site hashes] }
    | none =>
      match group.sites with
      | front :: _ :: _ =>
        if (allSeen group.sites).length < 2 then run
        else if !group.isClass && group.enclosingClass ∈ run.duplicatedClasses then run
        else
          { diagnostics := run.diagnostics ++ [duplicateDefinition group front.1]
            duplicatedClasses :=
              if group.isClass then Dedup.pushUnique run.duplicatedClasses group.displayName
              else run.duplicatedClasses }
      | _ => run

/-- Classes before functions, each in the order of the keys. -/
def analyzeOdrViolations (index : GlobalIndex) : List Diagnostic :=
  let groups := (ascending (odrGroups index)).map (·.2)
  (groups.foldl (analyzeGroup false) (groups.foldl (analyzeGroup true) {})).diagnostics

/-! ### Default arguments -/

/-- The defaults given to one parameter, and where. -/
structure DefaultArgGroup where
  displayName : Str := []
  paramName : Str := []
  /-- In first-seen order, with the text at each. -/
  sites : List (IndexSite × Str) := []

def defaultArgGroupKey (e : DefaultArgEntry) : Str :=
  e.qualifiedName ++ bar ++ e.signature ++ bar ++ toStr e.paramIndex.toNat

/-- Enter a declaration with its default. -/
def DefaultArgGroup.note (group : DefaultArgGroup) (e : DefaultArgEntry) : DefaultArgGroup :=
  { displayName := e.qualifiedName
    paramName := if e.paramName ≠ [] then e.paramName else group.paramName
    sites := Dedup.pushUnique group.sites ((e.filePath, e.line), e.defaultText) }

/-- The default arguments by parameter. -/
def defaultArgGroups (index : GlobalIndex) : UMap Str DefaultArgGroup :=
  index.defaultArgs.foldl (fun groups e => groups.upsert (defaultArgGroupKey e) {} (·.note e)) ∅

/-- One default is no divergence. -/
def DefaultArgGroup.report (group : DefaultArgGroup) : List Diagnostic :=
  if ((group.sites.map (·.2)).foldl Dedup.pushUnique []).length < 2 then []
  else
    match group.sites with
    | [] => []
    | front :: _ =>
      [flagged .defaultArgDivergent (formatSite front.1)
        (str "Default-argument divergence: parameter"
          ++ (if group.paramName = [] then [] else str " '" ++ group.paramName ++ str "'")
          ++ str " of '" ++ group.displayName ++ str "' has conflicting defaults ("
          ++ group.sites.foldl
              (fun text s => listItem text (str "'" ++ s.2 ++ str "' at " ++ formatSite s.1)) []
          ++ str "). Each TU silently calls with whichever value its "
          ++ str "includes provided — keep the default in exactly one declaration.")]

/-- One report for each parameter that is given different defaults. -/
def analyzeDefaultArgDivergence (index : GlobalIndex) : List Diagnostic :=
  (ascending (defaultArgGroups index)).flatMap (·.2.report)

/-! ### Exception specifications -/

/-- The specifications given to one function, and where. -/
structure ExceptionSpecGroup where
  displayName : Str := []
  /-- In first-seen order, each with the specifications observed there. -/
  sites : List (IndexSite × List Bool) := []

def exceptionSpecGroupKey (e : ExceptionSpecEntry) : Str := e.qualifiedName ++ bar ++ e.signature

/-- Enter a declaration with its specification. -/
def ExceptionSpecGroup.note (group : ExceptionSpecGroup) (e : ExceptionSpecEntry) :
    ExceptionSpecGroup :=
  { displayName := e.qualifiedName
    sites := noteSite group.sites (e.filePath, e.line) e.isNoexcept }

/-- The exception specifications by function. -/
def exceptionSpecGroups (index : GlobalIndex) : UMap Str ExceptionSpecGroup :=
  index.exceptionSpecs.foldl
    (fun groups e => groups.upsert (exceptionSpecGroupKey e) {} (·.note e)) ∅

/-- A site that was seen with both specifications. -/
def bothWaysSpec (displayName : Str) (site : IndexSite) : Diagnostic :=
  flagged .exceptionSpecDivergent (formatSite site)
    (str "Exception-spec divergence: '" ++ displayName ++ str "' at " ++ formatSite site
      ++ str " resolves to noexcept in some TUs and "
      ++ str "potentially-throwing in others — its specification depends on "
      ++ str "preprocessor state that differs between compile commands. All "
      ++ str "declarations of a function must agree (IFNDR); callers compile "
      ++ str "contradictory unwind assumptions.")

/-- A site with both specifications is reported alone. -/
def ExceptionSpecGroup.report (group : ExceptionSpecGroup) : List Diagnostic :=
  if (allSeen group.sites).length < 2 then []
  else
    match group.sites.find? (1 < ·.2.length) with
    | some (site, _) => [bothWaysSpec group.displayName site]
    | none =>
      let listed (isNoexcept : Bool) : Str :=
        (group.sites.filter (·.2.head? = some isNoexcept)).foldl
          (fun text s => listItem text (formatSite s.1)) []
      match group.sites with
      | [] => []
      | front :: _ =>
        [flagged .exceptionSpecDivergent (formatSite front.1)
          (str "Exception-spec divergence: '" ++ group.displayName
            ++ str "' is declared noexcept at " ++ listed true
            ++ str " but potentially-throwing at " ++ listed false
            ++ str ". No TU sees both declarations (the in-TU case is a compile "
            ++ str "error), so this contradiction is IFNDR: callers that saw "
            ++ str "noexcept elide unwind paths, and noexcept-dependent decisions "
            ++ str "(move_if_noexcept) fork per TU. Unify the declarations.")]

/-- One report for each function whose declarations do not agree. -/
def analyzeExceptionSpecDivergence (index : GlobalIndex) : List Diagnostic :=
  (ascending (exceptionSpecGroups index)).flatMap (·.2.report)

/-! ### Sorted walks -/

/-- `std::tie(filePath, line, name)` is less. -/
def tieLess (a b : Str × UInt32 × Str) : Bool :=
  a.1 < b.1 || a.1 = b.1 && (a.2.1 < b.2.1 || a.2.1 = b.2.1 && a.2.2 < b.2.2)

/-- Sort by the tie of file, line and name. -/
def sortByTie {α : Type} (tie : α → Str × UInt32 × Str) (l : List α) : List α :=
  l.mergeSort fun a b => !tieLess (tie b) (tie a)

/-! ### Header statics -/

/-- The report names the TUs that have a copy. -/
def headerStaticDiagnostic (entry : HeaderStaticEntry) : Diagnostic :=
  let tus := sortStrs entry.tuPaths
  let tuList := (str ", ").intercalate (tus.take 3) ++ if tus.length > 3 then str ", ..." else []
  let site := formatSite (entry.filePath, entry.line)
  flagged .headerStaticDuplicated site
    (str "Header-static duplication: '" ++ entry.name ++ str "' is defined static in " ++ site
      ++ str ", and " ++ toStr tus.length ++ str " TUs (" ++ tuList
      ++ str ") each materialized their OWN copy — writes in one TU are "
      ++ str "invisible in the others, and its address differs per TU. Use "
      ++ str "'inline' (C++17) for one shared object, extern with a single "
      ++ str "definition, or constexpr if it is meant to be a constant.")

/-- A header variable that is not const and has a copy in two TUs or more. -/
def isDuplicatedStatic (e : HeaderStaticEntry) : Bool := !e.isConst && 2 ≤ e.tuPaths.length

/-- What the statics of headers are sorted by. -/
def headerStaticTie (e : HeaderStaticEntry) : Str × UInt32 × Str := (e.filePath, e.line, e.name)

/-- The duplicated variables in the order of their ties. -/
def analyzeHeaderStaticDuplication (index : GlobalIndex) : List Diagnostic :=
  (sortByTie headerStaticTie (index.headerStatics.filter isDuplicatedStatic)).map
    headerStaticDiagnostic

/-! ### Searching the calls

Breadth first over names, with the caller by which each was met. The empty name
marks a seed.
-/

def kMaxDepth : Nat := 16

/-- The names met, each with the one it was met from, and those to look at with their
depths. -/
structure CallSearch where
  parent : UMap Str Str := ∅
  queue : List (Str × Nat) := []

/-- `if (parent.emplace(callee, caller).second) queue.push_back({callee, depth})`. -/
def CallSearch.meet (s : CallSearch) (callee caller : Str) (depth : Nat) : CallSearch :=
  if (s.parent.lookup callee).isSome then s
  else { parent := s.parent.insert callee caller, queue := s.queue ++ [(callee, depth)] }

/-- The seeds at depth 0, met from nothing. -/
def CallSearch.start (seeds : List Str) : CallSearch :=
  seeds.foldl (fun s seed => s.meet seed [] 0) {}

/-- Prepend the callers of a name, up to a seed; a name was met from an earlier one. -/
def chainUp (parent : UMap Str Str) : Nat → Str → Str → Str
  | 0, _, chain => chain
  | fuel + 1, cur, chain =>
    if cur = [] then chain
    else chainUp parent fuel (parent.getD cur []) (cur ++ str " -> " ++ chain)

/-- The calls from a seed to a name, as text. -/
def CallSearch.chain (s : CallSearch) (name : Str) : Str :=
  chainUp s.parent s.parent.entries.length (s.parent.getD name []) name

/-! ### Static initialization order -/

/-- What the initializers are sorted by. -/
def staticInitTie (e : StaticInitEntry) : Str × UInt32 × Str := (e.filePath, e.line, e.qualifiedName)

/-- The entry reads something at its dynamic initialization. -/
def readsAtInit (e : StaticInitEntry) : Bool :=
  e.dynamicInit && !e.isConstructorFn && (e.referencedGlobals ≠ [] || e.calledFunctions ≠ [])

/-- A global of another file that is initialized dynamically. -/
def resolveTarget (index : GlobalIndex) (entry : StaticInitEntry) (ref : Str) :
    Option StaticInitEntry :=
  (index.findStaticInit ref).filter fun target =>
    target.dynamicInit && !target.isConstructorFn && target.filePath ≠ entry.filePath

/-- A search with the reports so far and the targets they name. -/
structure OrderWalk extends CallSearch where
  reportedTargets : List Str := []
  diagnostics : List Diagnostic := []

/-- The report of an initializer that reads another file's. -/
def orderDiagnostic (entry target : StaticInitEntry) (chain : Str) : Diagnostic :=
  let site := formatSite (entry.filePath, entry.line)
  flagged .staticInitOrderDependency site
    (str "Static initialization order fiasco: '" ++ entry.qualifiedName ++ str "' (" ++ site
      ++ str ") is dynamically initialized from '" ++ target.qualifiedName ++ str "' ("
      ++ formatSite (target.filePath, target.line) ++ str ")"
      ++ (if chain = [] then [] else str " via " ++ chain)
      ++ str ", which is itself dynamically initialized in a different TU. "
      ++ str "Cross-TU initialization order is unspecified — the reader may "
      ++ str "observe its zero/constant-initialized state. Use a "
      ++ str "construct-on-first-use function-local static, or make the "
      ++ str "dependency constinit/constexpr.")

/-- One diagnostic per target. -/
def OrderWalk.report (w : OrderWalk) (entry target : StaticInitEntry) (chain : Str) : OrderWalk :=
  if target.qualifiedName ∈ w.reportedTargets then w
  else
    { w with
      reportedTargets := w.reportedTargets ++ [target.qualifiedName]
      diagnostics := w.diagnostics ++ [orderDiagnostic entry target chain] }

/-- Report the references of a function that are to other files' dynamic globals. -/
def OrderWalk.reportRefs (index : GlobalIndex) (entry : StaticInitEntry) (chain : Str)
    (refs : List Str) (w : OrderWalk) : OrderWalk :=
  refs.foldl
    (fun w ref =>
      match resolveTarget index entry ref with
      | some target => w.report entry target chain
      | none => w) w

/-- Work off the queue. -/
def followCalls (index : GlobalIndex) (entry : StaticInitEntry) : Nat → OrderWalk → OrderWalk
  | 0, w => w
  | fuel + 1, w =>
    match w.queue with
    | [] => w
    | (name, depth) :: rest =>
      let w := { w with queue := rest }
      match index.findFunctionSummary name with
      | none => followCalls index entry fuel w
      | some summary =>
        let w := w.reportRefs index entry (w.chain name) summary.referencedGlobals
        if kMaxDepth ≤ depth + 1 then followCalls index entry fuel w
        else
          followCalls index entry fuel
            { w with
              toCallSearch := summary.calledFunctions.foldl
                (fun s callee => s.meet callee name (depth + 1)) w.toCallSearch }

/-- A name is queued once, and it is a seed or called by a summary. -/
def followFuel (index : GlobalIndex) (entry : StaticInitEntry) : Nat :=
  entry.calledFunctions.length + (index.functionSummaries.map (·.calledFunctions.length)).sum + 1

/-- The reports of one entry: its own references first, then those of what it calls. -/
def orderDependencies (index : GlobalIndex) (entry : StaticInitEntry) : List Diagnostic :=
  let direct := OrderWalk.reportRefs index entry [] entry.referencedGlobals {}
  (followCalls index entry (followFuel index entry)
    { direct with toCallSearch := CallSearch.start entry.calledFunctions }).diagnostics

/-- The entries in the order of their ties. -/
def analyzeStaticInitOrder (index : GlobalIndex) : List Diagnostic :=
  (sortByTie staticInitTie (index.staticInits.filter readsAtInit)).flatMap
    (orderDependencies index)

/-! ### Escaping exceptions -/

/-- What the functions are sorted by. -/
def summaryTie (e : FunctionSummaryEntry) : Str × UInt32 × Str :=
  (e.filePath, e.line, e.qualifiedName)

/-- The first function found that throws, and the calls to it.  A noexcept callee stops what
comes through it. -/
def findThrow (index : GlobalIndex) : Nat → CallSearch → Option (Str × Str)
  | 0, _ => none
  | fuel + 1, s =>
    match s.queue with
    | [] => none
    | (name, depth) :: rest =>
      let s := { s with queue := rest }
      match index.findFunctionSummary name with
      | none => findThrow index fuel s
      | some summary =>
        if summary.hasUncaughtThrow then some (name, s.chain name)
        else if kMaxDepth ≤ depth + 1 then findThrow index fuel s
        else if summary.isNoexcept then findThrow index fuel s
        else
          findThrow index fuel
            (summary.unguardedCalls.foldl (fun s callee => s.meet callee name (depth + 1)) s)

/-- More turns than the walk can take. -/
def throwFuel (index : GlobalIndex) (root : FunctionSummaryEntry) : Nat :=
  root.unguardedCalls.length + (index.functionSummaries.map (·.unguardedCalls.length)).sum + 1

/-- The report of an exception that a `noexcept` root lets through. -/
def escapeDiagnostic (root : FunctionSummaryEntry) (hit chain : Str) : Diagnostic :=
  let site := formatSite (root.filePath, root.line)
  flagged .exceptionEscape site
    (str "Exception escape: noexcept function '" ++ root.qualifiedName ++ str "' (" ++ site
      ++ str ") can reach a throw in '" ++ hit ++ str "' (" ++ chain
      ++ str ") with no intervening handler — an escaping exception calls "
      ++ str "std::terminate. Catch it inside, or drop the noexcept.")

/-- A hit without a name is none. -/
def escapeOf (index : GlobalIndex) (root : FunctionSummaryEntry) : List Diagnostic :=
  let found :=
    if root.hasUncaughtThrow then
      some (root.qualifiedName, root.qualifiedName ++ str " (throw in its own body)")
    else findThrow index (throwFuel index root) (CallSearch.start root.unguardedCalls)
  match found with
  | some (hit, chain) => if hit = [] then [] else [escapeDiagnostic root hit chain]
  | none => []

/-- The noexcept functions in the order of their ties. -/
def analyzeExceptionEscape (index : GlobalIndex) : List Diagnostic :=
  (sortByTie summaryTie (index.functionSummaries.filter (·.isNoexcept))).flatMap (escapeOf index)

/-- The checks in the order in which they run, coverage aside. -/
def analyzeIndex (index : GlobalIndex) : List Diagnostic :=
  analyzeOdrViolations index ++ analyzeDefaultArgDivergence index ++ analyzeStaticInitOrder index
    ++ analyzeExceptionEscape index ++ analyzeHeaderStaticDuplication index
    ++ analyzeExceptionSpecDivergence index

end Vycor
