/-
The lock tools, over the search of `PathTools`.
-/
import Vycor.Model.Tools

namespace Vycor

/-- At least 1, and then cast to 32 bits. -/
def lockDepth (args : JsonObject) : Nat :=
  (max 1 ((args.getInteger (str "max_depth")).getD kDefaultMaxDepth) % 2 ^ 32).toNat

/-- The fan-in bound of the arguments, never negative. -/
def lockFanIn (args : JsonObject) : Nat :=
  (max 0 ((args.getInteger (str "max_fan_in")).getD kDefaultMaxFanIn)).toNat

/-- The walk of one function, with the limits of the request. -/
def locksHeldBy (args : JsonObject) (ctx : ToolContext) (function : Str) : LocksHeld :=
  collectLocksHeld ctx.graph ctx.cfIndex function (entryPointsArg args ctx) (lockDepth args)
    (lockFanIn args)

variable (fixUTF8 : Str → Str)

/-- A lock and where it is held. -/
def lockToJson (l : LockOccurrence) : Json :=
  .object
    [field "typeName" (jsonString fixUTF8 l.typeName),
      field "varName" (jsonString fixUTF8 l.varName),
      field "heldAt" (jsonString fixUTF8 l.heldAt)]

/-- A path and the locks on it. -/
def pathResultToJson (pr : PathResult) : Json :=
  .object
    [field "entryPoint" (jsonString fixUTF8 pr.entryPoint),
      field "path" (jsonStrings fixUTF8 pr.path),
      field "locksHeld" (.array (pr.locksHeld.map (lockToJson fixUTF8)))]

def lockHubToJson (hub : Str × Nat) : Json :=
  .object [field "name" (jsonString fixUTF8 hub.1), field "inDegree" (.ofNat hub.2)]

/-- The hubs by name, when there are any. -/
def skippedHubFields (skippedHubs : UMap Str Nat) : JsonObject :=
  let hubs := (skippedHubs.entries.map fun entry => (entry.1, entry.2)).mergeSort
    fun a b => !decide (b.1 < a.1)
  fieldIf (hubs ≠ []) "skippedHubs" (.array (hubs.map (lockHubToJson fixUTF8)))

/-! ### query_locks_held -/

/-- `query_locks_held`. -/
def handleQueryLocksHeld (args : JsonObject) (ctx : ToolContext) : Json :=
  withIdentity args ctx (str "function") (str "usr") fun ident =>
    let walk := locksHeldBy args ctx ident
    .object <|
      field "function" (ctx.string ((args.getString (str "function")).getD ident))
        :: attachUsr ctx.fixUTF8 ctx.graph ident "usr"
        ++ [field "paths" (.array (walk.paths.map (pathResultToJson ctx.fixUTF8))),
          field "truncated" (.bool walk.truncated), field "pathCount" (.ofNat walk.paths.length)]
        ++ skippedHubFields ctx.fixUTF8 walk.skippedHubs

/-! ### query_same_lock -/

/-- A shared lock with one path of each function. -/
def sharedLockToJson (walkA walkB : LocksHeld) (key : Str × Str) : Json :=
  .object
    [field "typeName" (jsonString fixUTF8 key.1), field "varName" (jsonString fixUTF8 key.2),
      field "pathsA" (.array ((pathsWith walkA key).map (pathResultToJson fixUTF8))),
      field "pathsB" (.array ((pathsWith walkB key).map (pathResultToJson fixUTF8)))]

/-- The locks of two functions, and those they share. -/
def sameLockToJson (args : JsonObject) (ctx : ToolContext) (a b : Str) : Json :=
  let walkA := locksHeldBy args ctx a
  let walkB := locksHeldBy args ctx b
  let shared := (lockKeys walkA).filter (· ∈ lockKeys walkB)
  .object <|
    [field "fn_a" (ctx.string ((args.getString (str "fn_a")).getD a)),
      field "fn_b" (ctx.string ((args.getString (str "fn_b")).getD b))]
    ++ attachUsr ctx.fixUTF8 ctx.graph a "fn_a_usr"
    ++ attachUsr ctx.fixUTF8 ctx.graph b "fn_b_usr"
    ++ [field "sharedLocks" (.array (shared.map (sharedLockToJson ctx.fixUTF8 walkA walkB))),
      field "shared" (.ofNat shared.length),
      field "aOnly" (.ofNat ((lockKeys walkA).length - shared.length)),
      field "bOnly" (.ofNat ((lockKeys walkB).length - shared.length)),
      field "truncated" (.bool (walkA.truncated || walkB.truncated))]
    ++ skippedHubFields ctx.fixUTF8 (walkA.skippedHubs ∪ walkB.skippedHubs)

/-- Both identities are resolved before a missing one is reported. -/
def handleQuerySameLock (args : JsonObject) (ctx : ToolContext) : Json :=
  match resolveIdentity args ctx (str "fn_a") (str "fn_a_usr"),
      resolveIdentity args ctx (str "fn_b") (str "fn_b_usr") with
  | .response out, _ => out
  | _, .response out => out
  | .identity a, .identity b => sameLockToJson args ctx a b
  | _, _ =>
    errorResult (str "Missing required parameters 'fn_a' and 'fn_b' (or their *_usr twins)")

end Vycor
