/-
The command line of a query verb.

`splitCommonFlags` takes the flags of the verb itself out of the arguments and leaves the rest to
the tool, and `parseToolArgs` reads the rest by the tool's schema into the object that its handler
takes.

LLVM's `json::fixUTF8`, which a JSON string goes through that is not UTF-8, is a parameter.
-/
import Vycor.Lib.Keyed
import Vycor.Model.McpProtocol
import Vycor.Model.PchCache
import Vycor.Model.ToolSchemas

namespace Vycor

/-! ### Names -/

/-- A verb spelled with hyphens names the tool. -/
def canonicalToolName (verb : Str) : Str := verb.map fun ch => if ch = 45 then 95 else ch

/-- The spelling of a name on the command line. -/
def hyphenated (name : Str) : Str := name.map fun ch => if ch = 95 then 45 else ch

/-! ### Library functions -/

/-- `StringRef::split('=')`: at the first one; all of it when there is none. -/
def splitEq (s : Str) : Str × Str := (s.takeWhile (· ≠ 61), (s.dropWhile (· ≠ 61)).drop 1)

/-- `StringRef::getAsInteger(10, n)` for a signed 64-bit `n`; none when it fails. -/
def getAsInteger (s : Str) : Option Int :=
  let negative := s.head? = some 45
  let digits := if negative then s.drop 1 else s
  let value : Int := if negative then -(Mcp.leadingDigits digits : Int)
    else Mcp.leadingDigits digits
  if digits ≠ [] ∧ digits.all Mcp.isDigit ∧ -2 ^ 63 ≤ value ∧ value < 2 ^ 63 then some value else none

/-- `obj[key] = value`. -/
def JsonObject.set (obj : JsonObject) (key : Str) (value : Json) : JsonObject :=
  Keyed.put (·.1) (fun old new => (old.1, new.2)) obj (key, value)

def Json.asObject : Json → JsonObject
  | .object members => members
  | _ => []

/-! ### Schema to flags

A tool's flags are its schema's properties, spelled with hyphens.
-/

/-- A flag of a tool and the type its value has. -/
structure FlagSpec where
  name : Str
  type : Str := str "string"
  itemType : Str := []
  required : Bool := false
  deriving DecidableEq

/-- The flag of one property. -/
def propertyFlag (required : List Str) (name : Str) (prop : Json) : FlagSpec :=
  let type := (prop.asObject.getString (str "type")).getD (str "string")
  let items : JsonObject := match prop.asObject.get (str "items") with
    | some (.object items) => items
    | _ => []
  { name, type
    itemType := if type = str "array" then (items.getString (str "type")).getD (str "string") else []
    required := name ∈ required }

/-- The flags in the order of the properties. -/
def propertyFlags (schema : Json) : List FlagSpec :=
  let required := schema.asObject.getStrings (str "required")
  match schema.asObject.get (str "properties") with
  | some (.object props) => props.map fun kv => propertyFlag required kv.1 kv.2
  | _ => []

/-- The flags of a tool. -/
def schemaFlags (tool : ToolEntry) : List FlagSpec :=
  (propertyFlags tool.inputSchema).mergeSort fun a b => !decide (b.name < a.name)

def flagList (specs : List FlagSpec) : Str :=
  List.intercalate (str ", ") (specs.map fun f => str "--" ++ hyphenated f.name)

/-! ### The flags of a tool -/

/-- The arguments so far and the arrays that a flag has begun. -/
structure ToolArgs where
  args : JsonObject
  /-- Arrays that the command line has given already. -/
  arraysSeen : List Str := []

/-- The first use of an array replaces what was there, later ones append. -/
def ToolArgs.pushItem (st : ToolArgs) (key : Str) (item : Json) : ToolArgs :=
  let elems := if key ∈ st.arraysSeen then (st.args.getArray key).getD [] else []
  { args := st.args.set key (.array (elems ++ [item])), arraysSeen := key :: st.arraysSeen }

def ToolArgs.set (st : ToolArgs) (key : Str) (value : Json) : ToolArgs :=
  { st with args := st.args.set key value }

/-- The text that follows every complaint of the parser. -/
def usageError (tool : ToolEntry) (msg : Str) : Str :=
  msg ++ str " (valid flags for " ++ hyphenated tool.name ++ str ": "
    ++ flagList (schemaFlags tool) ++ str ")"

section Parsing

variable (fixUTF8 : Str → Str) (tool : ToolEntry)

/-- The value of a flag and how many further arguments it takes up: what stands behind the `=`,
else the next argument unless that is a flag. -/
def takeValue (rawKey : Str) (inlineVal : Option Str) (rest : List Str) : Except Str (Str × Nat) :=
  match inlineVal, rest with
  | some value, _ => .ok (value, 0)
  | none, next :: _ =>
    if startsWith next (str "--") then
      .error (usageError tool (str "flag '--" ++ rawKey ++ str "' requires a value"))
    else .ok (next, 1)
  | none, [] => .error (usageError tool (str "flag '--" ++ rawKey ++ str "' requires a value"))

def parseBoolean (rawKey : Str) (inlineVal : Option Str) : Except Str Bool :=
  match inlineVal with
  | none => .ok true
  | some value =>
    if value = str "true" ∨ value = str "1" then .ok true
    else if value = str "false" ∨ value = str "0" then .ok false
    else .error (usageError tool (str "flag '--" ++ rawKey ++ str "' expects true or false"))

def parseInteger (rawKey value : Str) : Except Str Json :=
  match getAsInteger value with
  | some n => .ok (Json.ofInt n)
  | none =>
    .error (usageError tool (str "flag '--" ++ rawKey ++ str "' expects an integer, got '" ++ value
      ++ str "'"))

/-- One flag of a tool: the arguments after it, and how many further ones it takes up. -/
def parseFlag (a : Str) (rest : List Str) (st : ToolArgs) : Except Str (ToolArgs × Nat) := do
  if !startsWith a (str "--") || a.length = 2 then
    throw (usageError tool (str "unexpected argument '" ++ a ++ str "'"))
  let body := a.drop 2
  let (rawKey, value) := splitEq body
  let inlineVal := if 61 ∈ body then some value else none
  let key := canonicalToolName rawKey
  match (schemaFlags tool).find? (·.name = key) with
  | none => throw (usageError tool (str "unknown flag '--" ++ rawKey ++ str "'"))
  | some spec =>
    if spec.type = str "boolean" then
      let value ← parseBoolean tool rawKey inlineVal
      return (st.set key (.bool value), 0)
    let (value, further) ← takeValue tool rawKey inlineVal rest
    if spec.type = str "integer" then
      let n ← parseInteger tool rawKey value
      return (st.set key n, further)
    else if spec.type = str "array" then
      let item ← if spec.itemType = str "integer" then parseInteger tool rawKey value
        else pure (jsonString fixUTF8 value)
      return (st.pushItem key item, further)
    else return (st.set key (jsonString fixUTF8 value), further)

/-- The loop; the number is how many arguments are still to be passed over. -/
def parseFlags : Nat → List Str → ToolArgs → Except Str ToolArgs
  | _, [], st => .ok st
  | skip + 1, _ :: rest, st => parseFlags skip rest st
  | 0, a :: rest, st => do
    let (st, further) ← parseFlag fixUTF8 tool a rest st
    parseFlags further rest st

/-- The arguments of a tool, over those it starts from. -/
def parseToolArgs (argv : List Str) (seed : JsonObject) : Except Str JsonObject := do
  let st ← parseFlags fixUTF8 tool 0 argv { args := seed }
  match (schemaFlags tool).find? fun f => f.required && (st.args.get f.name).isNone with
  | some f =>
    throw (usageError tool (str "missing required flag '--" ++ hyphenated f.name ++ str "'"))
  | none => return st.args

end Parsing

/-! ### The flags of a verb

The verb takes its own flags out of the arguments and leaves the others to the
tool.
-/

/-- The options of the verb and the arguments left to the tool. -/
structure CommonOpts where
  index : Str := []
  buildPath : Str := []
  argsJson : Str := []
  format : Str := []
  pretty : Bool := false
  verbose : Bool := false
  help : Bool := false
  files : Bool := false
  entryPoints : List Str := []
  sources : List Str := []
  sourceList : Str := []
  sourceRe : Str := []
  skipPaths : List Str := []
  collapsePaths : List Str := []
  threads : Str := []
  orgConfig : Str := []
  /-- Everything else, in order. -/
  rest : List Str := []

/-- The flags of the verb, and what a value of each is stored into. -/
def commonTargets : List (Str × (CommonOpts → Str → CommonOpts)) :=
  [(str "index", fun o value => { o with index := value }),
    (str "build-path", fun o value => { o with buildPath := value }),
    (str "args", fun o value => { o with argsJson := value }),
    (str "format", fun o value => { o with format := value }),
    (str "source-list", fun o value => { o with sourceList := value }),
    (str "source-re", fun o value => { o with sourceRe := value }),
    (str "threads", fun o value => { o with threads := value }),
    (str "org-config", fun o value => { o with orgConfig := value }),
    (str "entry-point", fun o value => { o with entryPoints := o.entryPoints ++ [value] }),
    (str "source", fun o value => { o with sources := o.sources ++ [value] }),
    (str "skip-paths", fun o value => { o with skipPaths := o.skipPaths ++ [value] }),
    (str "collapse-paths", fun o value => { o with collapsePaths := o.collapsePaths ++ [value] })]

/-- None for a flag of the tool. -/
def commonTarget (key : Str) : Option (CommonOpts → Str → CommonOpts) :=
  (commonTargets.find? (·.1 = key)).map (·.2)

/-- One argument: the options after it, and how many further arguments it takes up. -/
def splitFlag (acceptFiles : Bool) (a : Str) (rest : List Str) (o : CommonOpts) :
    Except Str (CommonOpts × Nat) :=
  if a = str "-h" ∨ a = str "--help" then .ok ({ o with help := true }, 0)
  else if a = str "-v" ∨ a = str "--verbose" then .ok ({ o with verbose := true }, 0)
  else if a = str "--pretty" then .ok ({ o with pretty := true }, 0)
  else if acceptFiles ∧ a = str "--files" then .ok ({ o with files := true }, 0)
  else
    let isFlag := startsWith a (str "--")
    let body := if isFlag then a.drop 2 else a
    let (rawKey, inlineVal) := splitEq body
    let key := hyphenated rawKey
    match if isFlag then commonTarget key else none with
    | none => .ok ({ o with rest := o.rest ++ [a] }, 0)
    | some store =>
      if isFlag ∧ 61 ∈ body then .ok (store o inlineVal, 0)
      else match rest with
        | next :: _ =>
          if startsWith next (str "--") then
            .error (str "flag '--" ++ key ++ str "' requires a value")
          else .ok (store o next, 1)
        | [] => .error (str "flag '--" ++ key ++ str "' requires a value")

/-- The loop; the number is how many arguments are still to be passed over. -/
def splitFlags (acceptFiles : Bool) : Nat → List Str → CommonOpts → Except Str CommonOpts
  | _, [], o => .ok o
  | skip + 1, _ :: rest, o => splitFlags acceptFiles skip rest o
  | 0, a :: rest, o => do
    let (o, further) ← splitFlag acceptFiles a rest o
    splitFlags acceptFiles further rest o

/-- The flags of the verb itself, and what is left for the tool. -/
def splitCommonFlags (argv : List Str) (acceptFiles : Bool) : Except Str CommonOpts :=
  splitFlags acceptFiles 0 argv {}

end Vycor
