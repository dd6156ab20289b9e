/-
What a bake is set up from: the command line, the organization's configuration and what
compiled extensions registered.

A bake in worker processes hands its setup on as a command line: a worker reads its arguments,
the same files and the same environment, and sets itself up again.

LLVM's command-line reader, its JSON parser and its regular expressions are parameters.  The
reader gives the options in the order they were given, each with its value; only the options
that a bake is set up from are named here.
-/
import Vycor.Model.MegascopeCli
import Vycor.Model.SourceSelection
import Vycor.Model.WarmRefresh

namespace Vycor

/-! ### Configuration files

Two files configure a bake: one registers channel types, the other is the organization's and
holds names of every kind.  Each is read whole before anything of it is registered.
-/

/-- The channel types whose call sites are traced. -/
structure ChannelTypeConfig where
  registeredTypes : List ChannelTypeSpec := []
deriving DecidableEq

/-- An expression that flags match, and the group that holds a flag's name. -/
structure FeatureFlagPattern where
  pattern : Str
  nameGroup : Nat := 0
deriving DecidableEq

/-- The organization's configuration file. -/
structure OrgConfig where
  lockTypes : List Str := []
  staticInitHazards : List Str := []
  channelTypes : List ChannelTypeSpec := []
  featureFlags : List FeatureFlagPattern := []
  collapsePaths : List Str := []
  disabledAnnealChecks : List Str := []
deriving DecidableEq

/-- The extension registry, as far as a bake reads it.  A pattern stands for its classifier. -/
structure HookRegistry where
  lockTypes : List Str := []
  staticInitHazards : List Str := []
  channelTypes : List ChannelTypeSpec := []
  featureFlags : List FeatureFlagPattern := []
deriving DecidableEq

/-- The options that were given, each with its value, in order. -/
abbrev Occurrences := List (Str × Str)

/-- What a process of a bake asks its surroundings. -/
structure BakeWorld where
  selection : SelectionWorld
  parseJson : Str → Except Str Json
  /-- Whether a pattern is a regular expression. -/
  isValidRegex : Str → Bool
  /-- `llvm::cl::ParseCommandLineOptions` on the arguments behind `megascope`; none where it
  complains. -/
  parseCommandLineOptions : List Str → Option Occurrences
  /-- Whether there is a file of that name, which `@` and the name would have read. -/
  isResponseFile : Str → Bool
  /-- `VYCOR_EXTRA_ARGS`. -/
  extraArgsEnv : Str := []

namespace BakeConfig

/-- `getAsArray`. -/
def asArray : Json → Option (List Json)
  | .array elems => some elems
  | _ => none

/-- `getAsObject`. -/
def asObject : Json → Option JsonObject
  | .object members => some members
  | _ => none

/-- One registration; none without its `type`. -/
def readChannelType (obj : JsonObject) : Option ChannelTypeSpec :=
  (obj.getString (str "type")).map fun type =>
    { qualifiedTypeName := type
      produceMethods := obj.getStrings (str "produce")
      consumeMethods := obj.getStrings (str "consume")
      category := (obj.getString (str "category")).getD [] }

/-- Any entry that is wrong fails the whole file. -/
def parseChannelTypesJson (w : BakeWorld) (path : Str) : Except Str ChannelTypeConfig := do
  let buf ← (w.selection.getFile path).mapError fun message =>
    str "channel-types-json: cannot read " ++ path ++ str ": " ++ message
  let json ← (w.parseJson buf).mapError fun message =>
    str "channel-types-json: parse error in " ++ path ++ str ": " ++ message
  match asArray json with
  | none =>
    throw (str "channel-types-json: " ++ path ++ str " must contain a top-level JSON array")
  | some arr =>
    let specs ← arr.mapM fun entry =>
      match asObject entry with
      | none => throw (str "channel-types-json: each entry must be an object")
      | some obj =>
        match readChannelType obj with
        | none => throw (str "channel-types-json: entry missing required 'type'")
        | some spec => return spec
    return { registeredTypes := specs }

/-- No file registers no types. -/
def channelTypesIfSet (w : BakeWorld) (path : Str) : Except Str ChannelTypeConfig :=
  if path = [] then .ok {} else parseChannelTypesJson w path

/-- The strings under a key; none are there when the key is not. -/
def parseStringArray (obj : JsonObject) (key : Str) : Except Str (List Str) :=
  let message := str "'" ++ key ++ str "' must be an array of strings"
  match obj.get key with
  | none => .ok []
  | some value =>
    match asArray value with
    | none => .error message
    | some arr => arr.mapM fun entry => entry.asString.elim (.error message) .ok

/-- The keys of the organization's file. -/
def knownKeys : List Str :=
  [str "lockTypes", str "channelTypes", str "featureFlags", str "collapsePaths",
    str "disabledAnnealChecks", str "staticInitHazards"]

/-- The entries under a key, each an object. -/
def parseEntries {α : Type} (obj : JsonObject) (key : Str) (read : JsonObject → Except Str α) :
    Except Str (List α) :=
  match obj.get key with
  | none => .ok []
  | some value =>
    match asArray value with
    | none => .error (str "'" ++ key ++ str "' must be an array of objects")
    | some arr =>
      arr.mapM fun entry =>
        (asObject entry).elim (.error (str "'" ++ key ++ str "' entries must be objects")) read

/-- An entry of `channelTypes`. -/
def parseChannelType (obj : JsonObject) : Except Str ChannelTypeSpec :=
  (readChannelType obj).elim (.error (str "'channelTypes' entry missing required 'type'")) .ok

/-- An entry of `featureFlags`; its group is an `unsigned`. -/
def parseFeatureFlag (obj : JsonObject) : Except Str FeatureFlagPattern :=
  match obj.getString (str "pattern") with
  | none => .error (str "'featureFlags' entry missing required 'pattern'")
  | some pattern =>
    match obj.getInteger (str "nameGroup") with
    | none => .ok { pattern }
    | some group =>
      if group < 0 then .error (str "'featureFlags' nameGroup must be >= 0")
      else .ok { pattern, nameGroup := group.toNat % 2 ^ 32 }

/-- A key that is not known fails the whole file.  LLVM keeps the members in hash order: of
several unknown keys any may be named. -/
def parseOrgConfigJson (w : BakeWorld) (buffer : Str) : Except Str OrgConfig := do
  let json ← (w.parseJson buffer).mapError (str "parse error: " ++ ·)
  match asObject json with
  | none => throw (str "top level must be a JSON object")
  | some root =>
    match root.find? (·.1 ∉ knownKeys) with
    | some (key, _) =>
      throw (str "unknown key '" ++ key ++ str ("' (expected one of: lockTypes, channelTypes, "
        ++ "featureFlags, collapsePaths, disabledAnnealChecks, staticInitHazards)"))
    | none =>
      let staticInitHazards ← parseStringArray root (str "staticInitHazards")
      let lockTypes ← parseStringArray root (str "lockTypes")
      let collapsePaths ← parseStringArray root (str "collapsePaths")
      let disabledAnnealChecks ← parseStringArray root (str "disabledAnnealChecks")
      let channelTypes ← parseEntries root (str "channelTypes") parseChannelType
      let featureFlags ← parseEntries root (str "featureFlags") parseFeatureFlag
      return { lockTypes, staticInitHazards, channelTypes, featureFlags, collapsePaths,
               disabledAnnealChecks }

/-- What is wrong with the file is told with its path. -/
def loadOrgConfigFile (w : BakeWorld) (path : Str) : Except Str OrgConfig := do
  let buf ← (w.selection.getFile path).mapError (str "cannot read " ++ path ++ str ": " ++ ·)
  (parseOrgConfigJson w buf).mapError (path ++ str ": " ++ ·)

/-! ### The registry

Compiled extensions register before `main` runs, the organization's file adds to them, and what
a bake uses is the command line's lists with what the registry has beyond them.
-/

/-- What is registered already is not registered again. -/
def addNames {α : Type} [DecidableEq α] (registered names : List α) : List α :=
  names.foldl Dedup.pushUnique registered

/-- The first pattern that is none ends it. -/
def addFeatureFlags (w : BakeWorld) (registry : HookRegistry) :
    List FeatureFlagPattern → Except Str HookRegistry
  | [] => .ok registry
  | flag :: rest =>
    if w.isValidRegex flag.pattern then
      addFeatureFlags w { registry with featureFlags := registry.featureFlags ++ [flag] } rest
    else .error (str "featureFlags pattern is not a valid regex: " ++ flag.pattern)

/-- The feature flags come last. -/
def applyOrgConfig (w : BakeWorld) (registry : HookRegistry) (cfg : OrgConfig) :
    Except Str HookRegistry :=
  addFeatureFlags w
    { registry with
      lockTypes := addNames registry.lockTypes cfg.lockTypes
      staticInitHazards := addNames registry.staticInitHazards cfg.staticInitHazards
      channelTypes := addNames registry.channelTypes cfg.channelTypes }
    cfg.featureFlags

/-- The configuration of the organization, and what the registry holds with it. -/
def loadOrgConfigIfSet (w : BakeWorld) (registry : HookRegistry) (path : Str) :
    Except Str (OrgConfig × HookRegistry) :=
  if path = [] then .ok ({}, registry)
  else do
    let cfg ← (loadOrgConfigFile w path).mapError (str "org-config: " ++ ·)
    let registry ← (applyOrgConfig w registry cfg).mapError (str "org-config: " ++ ·)
    return (cfg, registry)

/-- What a process bakes, and how. -/
structure BakeSetup where
  files : List Str
  lockCfg : LockTypeConfig
  channelCfg : ChannelTypeConfig
  collapsePaths : List Str
  registry : HookRegistry
deriving DecidableEq

/-- What the command line has stands first and as it is. -/
def mergeExtensionConfig (registry : HookRegistry) (orgCfg : OrgConfig) (lockCfg : LockTypeConfig)
    (channelCfg : ChannelTypeConfig) (collapsePaths : List Str) :
    LockTypeConfig × ChannelTypeConfig × List Str :=
  ({ lockCfg with userAllowlist := addNames lockCfg.userAllowlist registry.lockTypes },
    { registeredTypes := addNames channelCfg.registeredTypes registry.channelTypes },
    addNames collapsePaths orgCfg.collapsePaths)

/-! ### The command line

What LLVM's reader makes of an argument list is a function of the world; which
options there are and what their values are used for is the program's own.
-/

/-- The options that may be repeated. -/
def listOptions : List Str :=
  [str "source", str "skip-paths", str "collapse-paths", str "lock-types", str "extra-arg"]

/-- The options with one value. -/
def singleOptions : List Str :=
  [str "build-path", str "source-list", str "source-re", str "channel-types-json",
    str "org-config", str "sysroot", str "worker-out", str "threads"]

/-- The values of an option. -/
def values (args : Occurrences) (name : Str) : List Str :=
  (args.filter (·.1 = name)).map (·.2)

/-- The value of an option that is given at most once. -/
def value (args : Occurrences) (name : Str) : Str := (values args name).head?.getD []

/-- `--bake-worker`. -/
def bakeWorker (args : Occurrences) : Bool := args.any (·.1 = str "bake-worker")

/-- What arrives of the arguments a process is started with: a zero byte ends one. -/
def received (argv : List Str) : List Str := argv.map (·.takeWhile (· ≠ 0))

/-! ### Setting up -/

/-- The words of the environment's extra arguments. -/
def envExtraArgs (env : Str) : List Str :=
  (((env.takeWhile (· ≠ 0)).map fun c => if c = 9 then 32 else c).splitOn 32).filter (· ≠ [])

/-- `globalExtraArgs`: the environment's, then the command line's. -/
def globalExtraArgs (w : BakeWorld) (args : Occurrences) : List Str :=
  envExtraArgs w.extraArgsEnv ++ values args (str "extra-arg")

/-- A worker takes nothing from the index: its batch is the whole selection. -/
def selectionOf (args : Occurrences) (recorded : List Str) : SourceSelection :=
  { explicitFiles := values args (str "source")
    listFile := value args (str "source-list")
    regex := value args (str "source-re")
    skipPaths := values args (str "skip-paths")
    recordedFiles := if bakeWorker args then [] else recorded }

/-- The counts of a selection, in words. -/
def describeSelection (files : Nat) (stats : SourceSelectionStats) : Str :=
  decimalInt files ++ str " of " ++ decimalInt stats.base ++ str " TUs selected from "
    ++ stats.baseSource ++ str " (" ++ decimalInt stats.regexDropped
    ++ str " dropped by --source-re, " ++ decimalInt stats.skipDropped ++ str " by --skip-paths"
    ++ (if stats.dbSkipped = 0 then [] else
      str ", " ++ decimalInt stats.dbSkipped
        ++ str " database entries skipped: not C/C++ or missing")
    ++ str ")"

/-- What a process is about to bake, from its arguments and the TUs of an index. -/
def bakeSetup (w : BakeWorld) (registry : HookRegistry) (args : Occurrences)
    (recorded : List Str) : Except Str BakeSetup := do
  let (selected, stats) ←
    (SourceSelection.selectSources w.selection (selectionOf args recorded)).mapError
      (str "megascope: " ++ ·)
  if selected.files = [] then
    throw (str "megascope: no TUs to index — " ++ describeSelection 0 stats)
  let channelCfg ← channelTypesIfSet w (value args (str "channel-types-json"))
  let (orgCfg, registry) ← loadOrgConfigIfSet w registry (value args (str "org-config"))
  let (lockCfg, channelCfg, collapsePaths) :=
    mergeExtensionConfig registry orgCfg { userAllowlist := values args (str "lock-types") }
      channelCfg (values args (str "collapse-paths"))
  return { files := selected.files, lockCfg, channelCfg, collapsePaths, registry }

/-! ### Workers

A worker is the same program with another command line, which the parent writes
out of what it has merged. Whether the two agree is a question about this text.
-/

/-- What a worker's command line is made from. -/
structure McpBakeConfig where
  buildPath : Str
  collapsePaths : List Str
  extraArgs : List Str
  sysroot : Str
  lockTypes : List Str
  channelTypesJson : Str
  orgConfig : Str

/-- The parent hands on what it merged, and the extra arguments of its environment with its own. -/
def workerConfig (w : BakeWorld) (args : Occurrences) (setup : BakeSetup) : McpBakeConfig :=
  { buildPath := value args (str "build-path")
    collapsePaths := setup.collapsePaths
    extraArgs := globalExtraArgs w args
    sysroot := value args (str "sysroot")
    lockTypes := setup.lockCfg.userAllowlist
    channelTypesJson := value args (str "channel-types-json")
    orgConfig := value args (str "org-config") }

/-- The flag before each of the values. -/
def repeated (flag : Str) (vals : List Str) : List Str := vals.flatMap fun v => [flag, v]

/-- An option without a value is left out. -/
def unlessEmpty (flag val : Str) : List Str := if val = [] then [] else [flag, val]

/-- The arguments behind `megascope`, of the worker that bakes a batch. -/
def workerArgv (cfg : McpBakeConfig) (batch : List Str) (shardPath : Str) : List Str :=
  [str "--bake-worker", str "--worker-out", shardPath, str "--build-path", cfg.buildPath,
    str "--threads", str "1"]
    ++ repeated (str "--collapse-paths") cfg.collapsePaths
    ++ cfg.extraArgs.map (str "--extra-arg=" ++ ·)
    ++ unlessEmpty (str "--sysroot") cfg.sysroot
    ++ repeated (str "--lock-types") cfg.lockTypes
    ++ unlessEmpty (str "--channel-types-json") cfg.channelTypesJson
    ++ unlessEmpty (str "--org-config") cfg.orgConfig
    ++ repeated (str "--source") batch

end BakeConfig

end Vycor
