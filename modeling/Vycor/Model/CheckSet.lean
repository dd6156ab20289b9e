/-
Which checks run.

A specification is a list of entries applied in order: a name enables, a name behind `-`
disables, and the name of a group stands for its members.  It comes from a config file, then
from the comma-separated `--checks` value, then from the old toggle flags.  A parent hands the
set it resolved to its workers as `-all` and the names of the set, again as one `--checks`
value; the workers read the same config.

A `std::set` of names is an ascending list.  The summaries of the built-in checks, finding and
parsing the config file, and what a check does are not modelled.
-/
import Vycor.Lib.Ordered
import Vycor.Lib.UMap
import Vycor.Model.Str

namespace Vycor

/-! ### The registry

The checks are a table of the program, and an organization may add checks and
groups.
-/

/-- A check with its groups. -/
structure CheckInfo where
  name : Str
  defaultOn : Bool := false
  /-- Beyond the implicit "all". -/
  groups : List Str := []

/-- The checks that come with the program, in its order. -/
def builtinAnnealChecks : List CheckInfo :=
  [{ name := str "adl-visibility", defaultOn := true },
    { name := str "ctad-visibility", defaultOn := true },
    { name := str "specialization-visibility", defaultOn := true },
    { name := str "default-arg-divergence", defaultOn := true },
    { name := str "static-init-order", defaultOn := true },
    { name := str "static-init-hazards", groups := [str "compute-heavy"] },
    { name := str "header-static-duplication", defaultOn := true },
    { name := str "exception-spec-divergence", defaultOn := true },
    { name := str "exception-escape", groups := [str "noisy"] },
    { name := str "odr-violations", groups := [str "compute-heavy"] },
    { name := str "coverage-properties", groups := [str "noisy"] },
    { name := str "dead-code", groups := [str "compute-heavy"] }]

/-- What an organization registered: the names of its checks, and its groups. -/
structure ExtensionRegistry where
  allCheckNames : List Str := []
  checkGroups : UMap Str (List Str) := ∅

/-- Names that are listed already are not listed again. -/
def ExtensionRegistry.addCheckGroup (registry : ExtensionRegistry) (group : Str)
    (checkNames : List Str) : ExtensionRegistry :=
  { registry with
    checkGroups := registry.checkGroups.upsert group [] fun members =>
      checkNames.foldl (fun members name => if name ∈ members then members else members ++ [name])
        members }

/-! ### Sets of names -/

def nameLess (a b : Str) : Bool := a < b

/-- `enabled.insert(name)`. -/
def insertName (enabled : List Str) (name : Str) : List Str :=
  Ordered.insertBy nameLess name enabled

/-- `enabled.erase(name)`. -/
def eraseName (enabled : List Str) (name : Str) : List Str := enabled.filter (· ≠ name)

/-- The checks that are on by themselves, and all that an organization registered. -/
def defaultCheckSet (registry : ExtensionRegistry) : List Str :=
  registry.allCheckNames.foldl insertName
    (((builtinAnnealChecks.filter (·.defaultOn)).map (·.name)).foldl insertName [])

/-! ### Resolution

Entries are applied from left to right to the set of enabled checks: a group
stands for its members, and an entry with a minus sign takes away.
-/

/-- Every name a specification may use for a check. -/
def knownChecks (registry : ExtensionRegistry) : List Str :=
  builtinAnnealChecks.map (·.name) ++ registry.allCheckNames

/-- `groups[group].push_back(name)`. -/
def pushMember (group : Str) (groups : UMap Str (List Str)) (name : Str) : UMap Str (List Str) :=
  groups.upsert group [] (· ++ [name])

/-- The organization's groups extend those of one name, in whatever order they are walked. -/
def checkGroups (registry : ExtensionRegistry) : UMap Str (List Str) :=
  let groups := builtinAnnealChecks.foldl
    (fun groups check =>
      check.groups.foldl (fun groups group => pushMember group groups check.name)
        (pushMember (str "all") groups check.name)) ∅
  let groups := registry.allCheckNames.foldl (pushMember (str "all")) groups
  registry.checkGroups.entries.foldl
    (fun groups entry => groups.upsert entry.1 [] (· ++ entry.2)) groups

/-- Whether the entry disables, and what it names. -/
def readEntry (raw : Str) : Bool × Str :=
  match raw with
  | 45 :: name => (true, name)
  | name => (false, name)

/-- `insert` or `erase`. -/
def applyName (disable : Bool) (enabled : List Str) (name : Str) : List Str :=
  if disable then eraseName enabled name else insertName enabled name

/-- One entry of a specification. -/
def resolveEntry (registry : ExtensionRegistry) (enabled : List Str) (raw : Str) :
    Except Str (List Str) :=
  let (disable, name) := readEntry raw
  if name = [] then .error (str "empty entry in checks specification")
  else
    match (checkGroups registry).lookup name with
    | some members => .ok (members.foldl (applyName disable) enabled)
    | none =>
      if name ∈ knownChecks registry then .ok (applyName disable enabled name)
      else
        .error (str "unknown check or group '" ++ name
          ++ str "' (see docs/checks/README.md for the list)")

/-- The entries applied from left to right; an unknown name is an error. -/
def resolveCheckSpec (registry : ExtensionRegistry) (spec : List Str) (enabled : List Str) :
    Except Str (List Str) :=
  spec.foldlM (resolveEntry registry) enabled

/-! ### The command line -/

/-- The pieces between commas, empty ones too. -/
def splitCommas : Str → List Str
  | [] => [[]]
  | c :: rest =>
    if c = 44 then [] :: splitCommas rest
    else
      match splitCommas rest with
      | entry :: more => (c :: entry) :: more
      | [] => [[c]]

/-- Without the blanks around it. -/
def trimBlanks (entry : Str) : Str :=
  ((entry.dropWhile (· = 32)).reverse.dropWhile (· = 32)).reverse

/-- The entries of a `--checks` value; empty ones are skipped. -/
def commandLineEntries (cli : Str) : List Str := ((splitCommas cli).map trimBlanks).filter (· ≠ [])

/-- The old toggle flags, which append their check. -/
structure LegacyFlags where
  coverageDiag : Bool := false
  odrDiag : Bool := false
  deadCode : Bool := false

def LegacyFlags.entries (flags : LegacyFlags) : List Str :=
  (if flags.coverageDiag then [str "coverage-properties"] else [])
    ++ (if flags.odrDiag then [str "odr-violations"] else [])
    ++ if flags.deadCode then [str "dead-code"] else []

/-- The checks that `anneal` enables. -/
def enabledChecks (registry : ExtensionRegistry) (config : List Str) (cli : Str)
    (flags : LegacyFlags) : Except Str (List Str) :=
  resolveCheckSpec registry (config ++ commandLineEntries cli ++ flags.entries)
    (defaultCheckSet registry)

/-- The `--checks` value for the workers. -/
def workerChecks (enabled : List Str) : Str :=
  enabled.foldl (fun text name => text ++ str "," ++ name) (str "-all")

/-- A worker is started without the toggle flags. -/
def workerEnabledChecks (registry : ExtensionRegistry) (config : List Str) (enabled : List Str) :
    Except Str (List Str) :=
  enabledChecks registry config (workerChecks enabled) {}

end Vycor
