/-
The control-flow index: what encloses each call site.

A context is stored with its strings interned and its scope, guard and RAII vectors shared
through set tables, entry 0 of each being the empty set.  Lookups go by position: the maps
list the positions of the contexts of a caller, a callee, a call site or a TU, and a
context whose TU was removed stays as a tombstone until `compact`.  A by-name lookup takes
the usr map first and falls back to the display map, which lists only the contexts whose
display name is not the usr.

As in the call graph, the ids of strings and the counts are unbounded here and 32 bits wide
in the source.  `kNoString`, the last id of 32 bits, is `none` here, so the two agree while
fewer than 2^32 strings are interned.  The entries of the set tables are numbered in 32 bits,
as in the source.
-/
import Vycor.Lib.UMap
import Vycor.Lib.Wire
import Vycor.Model.ByteEnums
import Vycor.Model.StringInterner

namespace Vycor

/-! ### Contexts -/

/-- One RAII-capable local variable live at a call site. -/
structure RaiiLocal where
  typeName : Str
  varName : Str
  declLocation : Str
  kind : RaiiKind := .other
deriving DecidableEq

/-- A handler of a try statement, or catch-all. -/
structure CatchHandlerInfo where
  caughtType : Str
  isCatchAll : Bool := false
  location : Str := []
  bodySummary : Str := []
deriving DecidableEq

/-- A try statement around a call, with its handlers. -/
structure TryCatchScope where
  tryLocation : Str
  enclosingFunction : Str
  handlers : List CatchHandlerInfo
  /-- 0 is the outermost try in the function. -/
  nestingDepth : UInt32 := 0
deriving DecidableEq

/-- A condition that holds, or does not, where a call stands. -/
structure ConditionalGuard where
  conditionText : Str
  location : Str
  inTrueBranch : Bool := true
  isAssertion : Bool := false
deriving DecidableEq

/-- A call with everything that is around it. -/
structure CallSiteContext where
  callerName : Str
  calleeName : Str
  callSite : Str
  callerUsr : Str := []
  calleeUsr : Str := []
  tuPath : Str := []
  /-- Innermost first, as the guards. -/
  enclosingTryCatches : List TryCatchScope := []
  enclosingGuards : List ConditionalGuard := []
  callerNoexcept : NoexceptSpec := .none
  insideCatchBlock : Bool := false
  /-- Outer scopes first. -/
  liveRaiiLocals : List RaiiLocal := []
deriving DecidableEq

/-! ### Set tables

Equal vectors of scopes, guards and locals are stored once. Entry 0 of each
table is the empty vector, and entries are found again under a key that dumps
the vector's fields.
-/

/-- A table of shared vectors and the keys of the entries after entry 0. -/
structure SetTable (α : Type) where
  sets : List (List α) := [[]]
  ids : UMap Str Nat := ∅

namespace SetTable

variable {α : Type}

/-- The entry of a vector: 0 for the empty one, the one stored under its key, or a new one.
The number of a new entry is cast to 32 bits. -/
def intern (t : SetTable α) (key : Str) (set : List α) : SetTable α × Nat :=
  if set = [] then (t, 0)
  else
    match t.ids.lookup key with
    | some id => (t, id)
    | none =>
      let id := t.sets.length % 2 ^ 32
      ({ sets := t.sets ++ [set], ids := t.ids.insert key id }, id)

end SetTable

/-- Four bytes of a key. -/
def keyU32 (v : UInt32) : Str := Wire.leBytes 4 v.toNat

/-- A string in a key, after its length. -/
def keyStr (s : Str) : Str := keyU32 (UInt32.ofNat s.length) ++ s

/-- One byte of a key. -/
def keyBool (b : Bool) : Str := [if b then 1 else 0]

/-- `RaiiLocal` with its strings interned. -/
structure StoredRaiiLocal where
  typeName : SId
  varName : SId
  declLocation : SId
  kind : RaiiKind
deriving DecidableEq

/-- The byte of a kind. -/
def RaiiKind.toU8 : RaiiKind → UInt8
  | lock => 0
  | smartPtr => 1
  | other => 2
  | unnamed code _ => code

/-- A context in the index: interned names and the entries of its sets. -/
structure StoredContext where
  caller : SId
  callee : SId
  callerDisplay : SId
  calleeDisplay : SId
  site : SId
  tuPath : Option SId
  scopeSet : Nat
  guardSet : Nat
  raiiSet : Nat
  callerNoexcept : NoexceptSpec
  insideCatchBlock : Bool
  live : Bool := true
deriving DecidableEq

/-- The contexts, the set tables they refer to, and the maps that find them. -/
structure ControlFlowIndex where
  interner : StringInterner := {}
  contexts : List StoredContext := []
  scopeSets : SetTable TryCatchScope := {}
  guardSets : SetTable ConditionalGuard := {}
  raiiSets : SetTable StoredRaiiLocal := {}
  byCallee : UMap SId (List Nat) := ∅
  byCaller : UMap SId (List Nat) := ∅
  byCalleeDisplay : UMap SId (List Nat) := ∅
  byCallerDisplay : UMap SId (List Nat) := ∅
  bySite : UMap SId (List Nat) := ∅
  byTu : UMap SId (List Nat) := ∅
  /-- Positions of the contexts recorded without a TU path. -/
  noProvenance : List Nat := []
  liveCount : Nat := 0

namespace ControlFlowIndex

/-- Every string of a key is led by its length, in 32 bits. -/
def scopeSetKey (scopes : List TryCatchScope) : Str :=
  scopes.flatMap fun scope =>
    keyStr scope.tryLocation ++ keyStr scope.enclosingFunction ++ keyU32 scope.nestingDepth
      ++ keyU32 (UInt32.ofNat scope.handlers.length)
      ++ scope.handlers.flatMap fun h =>
        keyStr h.caughtType ++ keyBool h.isCatchAll ++ keyStr h.location ++ keyStr h.bodySummary

/-- The guards one after the other. -/
def guardSetKey (guards : List ConditionalGuard) : Str :=
  guards.flatMap fun g =>
    keyStr g.conditionText ++ keyStr g.location ++ keyBool g.inTrueBranch ++ keyBool g.isAssertion

/-- The locals' strings are interned, so their ids are the identity. -/
def raiiSetKey (locals : List StoredRaiiLocal) : Str :=
  locals.flatMap fun l =>
    keyU32 (UInt32.ofNat l.typeName) ++ keyU32 (UInt32.ofNat l.varName)
      ++ keyU32 (UInt32.ofNat l.declLocation) ++ [l.kind.toU8]

def intern (cf : ControlFlowIndex) (s : Str) : ControlFlowIndex :=
  { cf with interner := cf.interner.intern s }

def internAll (cf : ControlFlowIndex) (strings : List Str) : ControlFlowIndex :=
  strings.foldl intern cf

def internScopeSet (cf : ControlFlowIndex) (scopes : List TryCatchScope) :
    ControlFlowIndex × Nat :=
  let (table, id) := cf.scopeSets.intern (scopeSetKey scopes) scopes
  ({ cf with scopeSets := table }, id)

def internGuardSet (cf : ControlFlowIndex) (guards : List ConditionalGuard) :
    ControlFlowIndex × Nat :=
  let (table, id) := cf.guardSets.intern (guardSetKey guards) guards
  ({ cf with guardSets := table }, id)

def internRaiiSet (cf : ControlFlowIndex) (locals : List StoredRaiiLocal) :
    ControlFlowIndex × Nat :=
  let (table, id) := cf.raiiSets.intern (raiiSetKey locals) locals
  ({ cf with raiiSets := table }, id)

/-! ### Mutators -/

def pushAt (m : UMap SId (List Nat)) (key : SId) (idx : Nat) : UMap SId (List Nat) :=
  m.upsert key [] (· ++ [idx])

/-- Append a context under ids and set entries that exist already. -/
def insertStored (cf : ControlFlowIndex) (se : StoredContext) : ControlFlowIndex :=
  let idx := cf.contexts.length
  { cf with
    byCallee := pushAt cf.byCallee se.callee idx
    byCaller := pushAt cf.byCaller se.caller idx
    byCalleeDisplay :=
      if se.calleeDisplay ≠ se.callee then pushAt cf.byCalleeDisplay se.calleeDisplay idx
      else cf.byCalleeDisplay
    byCallerDisplay :=
      if se.callerDisplay ≠ se.caller then pushAt cf.byCallerDisplay se.callerDisplay idx
      else cf.byCallerDisplay
    bySite := pushAt cf.bySite se.site idx
    byTu := match se.tuPath with
      | some tu => pushAt cf.byTu tu idx
      | none => cf.byTu
    noProvenance := match se.tuPath with
      | some _ => cf.noProvenance
      | none => cf.noProvenance ++ [idx]
    contexts := cf.contexts ++ [{ se with live := true }]
    liveCount := cf.liveCount + 1 }

/-- The locals under their ids, once their strings are interned. -/
def storeLocals (t : StringInterner) (locals : List RaiiLocal) : List StoredRaiiLocal :=
  locals.map fun l =>
    { typeName := t.idOf l.typeName, varName := t.idOf l.varName
      declLocation := t.idOf l.declLocation, kind := l.kind }

/-- The strings `addCallSiteContext` interns, in its order.  A context without a usr is
keyed by its display name, one without a TU path has none interned. -/
def stringsOf (ctx : CallSiteContext) : List Str :=
  [ctx.calleeName, ctx.callerName]
    ++ (if ctx.calleeUsr = [] then [] else [ctx.calleeUsr])
    ++ (if ctx.callerUsr = [] then [] else [ctx.callerUsr])
    ++ [ctx.callSite] ++ (if ctx.tuPath = [] then [] else [ctx.tuPath])
    ++ ctx.liveRaiiLocals.flatMap fun l => [l.typeName, l.varName, l.declLocation]

/-- The strings and sets of the context are interned, then it is stored under their ids.
-/
def addCallSiteContext (cf : ControlFlowIndex) (ctx : CallSiteContext) : ControlFlowIndex :=
  let cf := cf.internAll (stringsOf ctx)
  let idOf := cf.interner.idOf
  let calleeDisplay := idOf ctx.calleeName
  let callerDisplay := idOf ctx.callerName
  let callee := if ctx.calleeUsr = [] then calleeDisplay else idOf ctx.calleeUsr
  let caller := if ctx.callerUsr = [] then callerDisplay else idOf ctx.callerUsr
  let tuPath := if ctx.tuPath = [] then none else some (idOf ctx.tuPath)
  let locals := storeLocals cf.interner ctx.liveRaiiLocals
  let (cf, scopeSet) := cf.internScopeSet ctx.enclosingTryCatches
  let (cf, guardSet) := cf.internGuardSet ctx.enclosingGuards
  let (cf, raiiSet) := cf.internRaiiSet locals
  cf.insertStored
    { caller, callee, callerDisplay, calleeDisplay, site := idOf ctx.callSite, tuPath, scopeSet
      guardSet, raiiSet, callerNoexcept := ctx.callerNoexcept
      insideCatchBlock := ctx.insideCatchBlock }

/-- Intern the entries of a set table after entry 0; the entry each gets, by position. -/
def absorbSets {α : Type} (internSet : ControlFlowIndex → List α → ControlFlowIndex × Nat)
    (cf : ControlFlowIndex) (sets : List (List α)) : ControlFlowIndex × List Nat :=
  (sets.drop 1).foldl
    (fun st set => let r := internSet st.1 set; (r.1, st.2 ++ [r.2])) (cf, [0])

/-- A local of another index, by its strings. -/
def remapLocal (remap : SId → SId) (l : StoredRaiiLocal) : StoredRaiiLocal :=
  { l with typeName := remap l.typeName, varName := remap l.varName
           declLocation := remap l.declLocation }

/-- Merge another index: its live contexts are appended under this index's ids. -/
def absorb (cf shard : ControlFlowIndex) : ControlFlowIndex :=
  let cf := cf.internAll shard.interner.strings
  let remap : SId → SId := fun id => cf.interner.idOf (shard.interner.resolve id)
  let (cf, scopeRemap) := absorbSets internScopeSet cf shard.scopeSets.sets
  let (cf, guardRemap) := absorbSets internGuardSet cf shard.guardSets.sets
  let (cf, raiiRemap) := absorbSets
    (fun cf locals => cf.internRaiiSet (locals.map (remapLocal remap))) cf shard.raiiSets.sets
  (shard.contexts.filter (·.live)).foldl
    (fun cf se => cf.insertStored
      { se with
        caller := remap se.caller, callee := remap se.callee
        callerDisplay := remap se.callerDisplay, calleeDisplay := remap se.calleeDisplay
        site := remap se.site, tuPath := se.tuPath.map remap
        scopeSet := scopeRemap.getD se.scopeSet 0, guardSet := guardRemap.getD se.guardSet 0
        raiiSet := raiiRemap.getD se.raiiSet 0 })
    cf

/-- The first pass of a removal: what became a tombstone, and the keys it was listed under. -/
structure Removal where
  contexts : List StoredContext
  dead : List StoredContext := []
  deadIdxs : List Nat := []

/-- The site's file is one of these TUs, by its spelling. -/
def fromRemovedTu (cf : ControlFlowIndex) (tuPaths : List Str) (se : StoredContext) : Bool :=
  tuPaths.any fun tuPath => (tuPath ++ str ":").isPrefixOf (cf.interner.resolve se.site)

/-- Tombstone one candidate; one without provenance only when its site names a removed TU. -/
def removeCandidate (cf : ControlFlowIndex) (tuPaths : List Str) (r : Removal)
    (candidate : Nat × Bool) : Removal :=
  match r.contexts[candidate.1]? with
  | none => r
  | some se =>
    if !se.live then r
    else if !candidate.2 && !cf.fromRemovedTu tuPaths se then r
    else
      { contexts := r.contexts.set candidate.1 { se with live := false }
        dead := r.dead ++ [se], deadIdxs := r.deadIdxs ++ [candidate.1] }

/-- Drop dead positions from the vectors of the affected keys. -/
def scrub (m : UMap SId (List Nat)) (affected : List SId) (dead : List Nat) :
    UMap SId (List Nat) :=
  affected.foldl (fun m id => m.upsert id [] (·.filter (· ∉ dead))) m

/-- The same, and a vector that is empty then goes. -/
def scrubSite (m : UMap SId (List Nat)) (affected : List SId) (dead : List Nat) :
    UMap SId (List Nat) :=
  affected.foldl
    (fun m id =>
      match m.lookup id with
      | none => m
      | some v =>
        let v := v.filter (· ∉ dead)
        if v = [] then m.erase id else m.insert id v)
    m

/-- The index without the contexts of some TUs, and how many went. -/
def removeTUs (cf : ControlFlowIndex) (tuPaths : List Str) : ControlFlowIndex × Nat :=
  let tuIds := tuPaths.filterMap cf.interner.find
  let candidates :=
    (tuIds.flatMap (cf.byTu.getD · [])).map (·, true) ++ cf.noProvenance.map (·, false)
  let r := candidates.foldl (cf.removeCandidate tuPaths) { contexts := cf.contexts }
  let dead := r.deadIdxs
  let displayOf (display usr : StoredContext → SId) : List SId :=
    (r.dead.filter fun se => display se ≠ usr se).map display
  ({ cf with
      contexts := r.contexts
      byCallee := scrub cf.byCallee (r.dead.map (·.callee)) dead
      byCaller := scrub cf.byCaller (r.dead.map (·.caller)) dead
      byCalleeDisplay := scrub cf.byCalleeDisplay (displayOf (·.calleeDisplay) (·.callee)) dead
      byCallerDisplay := scrub cf.byCallerDisplay (displayOf (·.callerDisplay) (·.caller)) dead
      bySite := scrubSite cf.bySite (r.dead.map (·.site)) dead
      byTu := if dead = [] then cf.byTu else cf.byTu.eraseAll tuIds
      noProvenance :=
        if dead = [] then cf.noProvenance else cf.noProvenance.filter (· ∉ dead)
      liveCount := cf.liveCount - dead.length },
    dead.length)

def removeTU (cf : ControlFlowIndex) (tuPath : Str) : ControlFlowIndex × Nat :=
  cf.removeTUs [tuPath]

/-- Drop the tombstones.  The set tables stay as they are. -/
def compact (cf : ControlFlowIndex) : ControlFlowIndex :=
  let compacted := (cf.contexts.filter (·.live)).foldl insertStored
    { interner := cf.interner, scopeSets := cf.scopeSets, guardSets := cf.guardSets
      raiiSets := cf.raiiSets }
  { compacted with liveCount := cf.liveCount }

/-! ### Queries

A name is looked up as a usr first and as a display name only when it has no usr
entry.
-/

/-- The public form of a stored context. -/
def materialize (cf : ControlFlowIndex) (se : StoredContext) : CallSiteContext :=
  let resolve := cf.interner.resolve
  { callerName := resolve se.callerDisplay, calleeName := resolve se.calleeDisplay
    callerUsr := resolve se.caller, calleeUsr := resolve se.callee, callSite := resolve se.site
    tuPath := (se.tuPath.map resolve).getD []
    enclosingTryCatches := cf.scopeSets.sets.getD se.scopeSet []
    enclosingGuards := cf.guardSets.sets.getD se.guardSet []
    callerNoexcept := se.callerNoexcept, insideCatchBlock := se.insideCatchBlock
    liveRaiiLocals := (cf.raiiSets.sets.getD se.raiiSet []).map fun l =>
      { typeName := resolve l.typeName, varName := resolve l.varName
        declLocation := resolve l.declLocation, kind := l.kind } }

/-- The usr entry of a name wins, even when it has run empty. -/
def indicesFor (cf : ControlFlowIndex) (usrMap displayMap : UMap SId (List Nat)) (name : Str) :
    Option (List Nat) :=
  (cf.interner.find name).bind fun id => (usrMap.lookup id).or (displayMap.lookup id)

/-- The live contexts at these positions. -/
def liveAt (cf : ControlFlowIndex) (idxs : List Nat) : List StoredContext :=
  (idxs.filterMap (cf.contexts[·]?)).filter (·.live)

/-- The live contexts that share a call-site spelling. -/
def storedAtSite (cf : ControlFlowIndex) (callSite : Str) : List StoredContext :=
  match cf.interner.find callSite with
  | none => []
  | some id => cf.liveAt (cf.bySite.getD id [])

/-- The live contexts at a call-site spelling. -/
def contextsAtSite (cf : ControlFlowIndex) (callSite : Str) : List CallSiteContext :=
  (cf.storedAtSite callSite).map cf.materialize

/-- The first of them. -/
def contextAtSite (cf : ControlFlowIndex) (callSite : Str) : Option CallSiteContext :=
  (cf.storedAtSite callSite).head?.map cf.materialize

/-- The first of them whose caller has this usr or display name. -/
def contextAtSiteOf (cf : ControlFlowIndex) (callSite callerUsrOrName : Str) :
    Option CallSiteContext :=
  (cf.interner.find callerUsrOrName).bind fun callerId =>
    ((cf.storedAtSite callSite).find? fun se =>
      se.caller = callerId || se.callerDisplay = callerId).map cf.materialize

/-- The live contexts of calls of the function, by usr or by display name. -/
def storedForCallee (cf : ControlFlowIndex) (calleeName : Str) : List StoredContext :=
  cf.liveAt ((cf.indicesFor cf.byCallee cf.byCalleeDisplay calleeName).getD [])

/-- The live contexts of calls of a function. -/
def contextsForCallee (cf : ControlFlowIndex) (calleeName : Str) : List CallSiteContext :=
  (cf.storedForCallee calleeName).map cf.materialize

/-- The contexts of calls in the function. -/
def contextsForCaller (cf : ControlFlowIndex) (callerName : Str) : List CallSiteContext :=
  (cf.liveAt ((cf.indicesFor cf.byCaller cf.byCallerDisplay callerName).getD [])).map
    cf.materialize

/-- Entry 0 is the empty set: any other entry has a scope. -/
def protectedCallsTo (cf : ControlFlowIndex) (calleeName : Str) : List CallSiteContext :=
  ((cf.storedForCallee calleeName).filter (·.scopeSet ≠ 0)).map cf.materialize

/-- Those of its callers outside any try. -/
def unprotectedCallsTo (cf : ControlFlowIndex) (calleeName : Str) : List CallSiteContext :=
  ((cf.storedForCallee calleeName).filter (·.scopeSet = 0)).map cf.materialize

def allContexts (cf : ControlFlowIndex) : List CallSiteContext :=
  (cf.contexts.filter (·.live)).map cf.materialize

def size (cf : ControlFlowIndex) : Nat := cf.liveCount

end ControlFlowIndex

end Vycor
