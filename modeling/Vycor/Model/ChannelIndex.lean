/-
The channel index: producer and consumer sites of the registered container types.

A site is kept once, under its channel, call site, enclosing function and operation, with
the number of its registrations.  The stored site carries the TU path of its first
registration; the positions every TU registered are listed in `byTu`.  A site whose last
registration was released stays as a tombstone until `compact`.

`refs` is unbounded here and 32 bits wide in the source.
-/
import Vycor.Lib.UMap
import Vycor.Model.ControlFlowIndex

namespace Vycor

/-- `ChannelOperation`, a byte in the snapshot. -/
inductive ChannelOperation
  | produce
  | consume
  | unnamed (code : UInt8) (h : 2 ≤ code)
deriving DecidableEq

/-- One producer or consumer call site on a channel. -/
structure ChannelSite where
  channelId : Str
  channelTypeName : Str := []
  category : Str := []
  op : ChannelOperation := .produce
  siteFunctionUsr : Str
  siteFunctionDisplay : Str
  callSite : Str
  /-- Innermost first. -/
  enclosingGuards : List ConditionalGuard := []
  /-- Empty when the site has no provenance. -/
  tuPath : Str := []
deriving DecidableEq

/-- One row: the site of its first registration and how many registrations it has. -/
structure StoredSite where
  site : ChannelSite
  refs : Nat := 0
  live : Bool := true
deriving DecidableEq

/-- What makes two registrations one site. -/
structure SiteKey where
  channelId : Str
  callSite : Str
  siteFunctionUsr : Str
  op : ChannelOperation
deriving DecidableEq

/-- What makes two registrations one site. -/
def ChannelSite.key (site : ChannelSite) : SiteKey :=
  { channelId := site.channelId, callSite := site.callSite
    siteFunctionUsr := site.siteFunctionUsr, op := site.op }

/-- The sites and the maps that find them, with the positions each TU registered. -/
structure ChannelIndex where
  sites : List StoredSite := []
  index : UMap SiteKey Nat := ∅
  byChannel : UMap Str (List Nat) := ∅
  byFunctionUsr : UMap Str (List Nat) := ∅
  /-- Only the sites whose display name is not the usr. -/
  byFunctionDisplay : UMap Str (List Nat) := ∅
  byTu : UMap Str (List Nat) := ∅
  liveCount : Nat := 0

namespace ChannelIndex

/-- A position goes on the list of a key. -/
def pushAt (m : UMap Str (List Nat)) (key : Str) (idx : Nat) : UMap Str (List Nat) :=
  m.upsert key [] (· ++ [idx])

/-! ### Mutators

A site is one row under its key, with a count of its registrations and, for each
TU, the positions it has registered. The row's own TU path is that of the first
registration.
-/

/-- Append a site at the next position and list it under its channel and its function. -/
def appendSite (ch : ChannelIndex) (site : ChannelSite) (refs : Nat) : ChannelIndex :=
  let idx := ch.sites.length
  { ch with
    sites := ch.sites ++ [{ site, refs, live := true }]
    index := ch.index.emplace site.key idx
    byChannel := pushAt ch.byChannel site.channelId idx
    byFunctionUsr := pushAt ch.byFunctionUsr site.siteFunctionUsr idx
    byFunctionDisplay :=
      if site.siteFunctionDisplay ≠ site.siteFunctionUsr then
        pushAt ch.byFunctionDisplay site.siteFunctionDisplay idx
      else ch.byFunctionDisplay
    liveCount := ch.liveCount + 1 }

/-- The position of the site: stored already, or the next one. -/
def sitePos (ch : ChannelIndex) (key : SiteKey) : Nat := (ch.index.lookup key).getD ch.sites.length

/-- One more registration of a stored site, or a new one. -/
def storeSite (ch : ChannelIndex) (site : ChannelSite) : ChannelIndex :=
  match ch.index.lookup site.key with
  | some idx => { ch with sites := ch.sites.modify idx fun s => { s with refs := s.refs + 1 } }
  | none => ch.appendSite site 1

/-- The TU is recorded on every call, for a stored site too. -/
def addSite (ch : ChannelIndex) (site : ChannelSite) : ChannelIndex :=
  let idx := ch.sitePos site.key
  let ch := ch.storeSite site
  if site.tuPath ≠ [] then { ch with byTu := pushAt ch.byTu site.tuPath idx } else ch

/-- Replay the registrations of each live site of the shard. -/
def absorb (ch shard : ChannelIndex) : ChannelIndex :=
  (shard.sites.filter (·.live)).foldl
    (fun ch stored => (List.replicate stored.refs stored.site).foldl addSite ch) ch

/-- The first pass of a removal: registrations are released, and what dies is noted. -/
structure Release where
  ch : ChannelIndex
  dead : List Nat := []
  affectedChannels : List Str := []
  affectedFuncUsr : List Str := []
  affectedFuncDisplay : List Str := []
  removed : Nat := 0

/-- Release one registration; the site survives while other contributors remain. -/
def releaseSite (r : Release) (idx : Nat) : Release :=
  match r.ch.sites[idx]? with
  | none => r
  | some se =>
    if se.refs = 0 then r
    else if se.refs - 1 > 0 then
      { r with ch := { r.ch with sites := r.ch.sites.set idx { se with refs := se.refs - 1 } } }
    else
      { ch := { r.ch with
          sites := r.ch.sites.set idx { se with refs := se.refs - 1, live := false }
          index := r.ch.index.erase se.site.key
          liveCount := r.ch.liveCount - 1 }
        dead := idx :: r.dead
        affectedChannels := se.site.channelId :: r.affectedChannels
        affectedFuncUsr := se.site.siteFunctionUsr :: r.affectedFuncUsr
        affectedFuncDisplay :=
          if se.site.siteFunctionDisplay ≠ se.site.siteFunctionUsr then
            se.site.siteFunctionDisplay :: r.affectedFuncDisplay
          else r.affectedFuncDisplay
        removed := r.removed + 1 }

/-- A TU lets go of all it registered. -/
def releaseTU (r : Release) (tuPath : Str) : Release :=
  match r.ch.byTu.lookup tuPath with
  | none => r
  | some idxs =>
    let r := idxs.foldl releaseSite r
    { r with ch := { r.ch with byTu := r.ch.byTu.erase tuPath } }

/-- Drop the dead positions under the affected keys; an entry that is empty then goes. -/
def scrub (m : UMap Str (List Nat)) (affected : List Str) (dead : List Nat) :
    UMap Str (List Nat) :=
  affected.foldl
    (fun m key =>
      match m.lookup key with
      | none => m
      | some v =>
        let v := v.filter (· ∉ dead)
        if v = [] then m.erase key else m.insert key v)
    m

/-- The index without the registrations of some TUs, and how many sites went. -/
def removeTUs (ch : ChannelIndex) (tuPaths : List Str) : ChannelIndex × Nat :=
  let r := tuPaths.foldl releaseTU { ch }
  ({ r.ch with
      byChannel := scrub r.ch.byChannel r.affectedChannels r.dead
      byFunctionUsr := scrub r.ch.byFunctionUsr r.affectedFuncUsr r.dead
      byFunctionDisplay := scrub r.ch.byFunctionDisplay r.affectedFuncDisplay r.dead },
    r.removed)

def removeTU (ch : ChannelIndex) (tuPath : Str) : ChannelIndex × Nat := ch.removeTUs [tuPath]

/-- The new position of every old one, none for a tombstone. -/
def oldToNew (sites : List StoredSite) : List (Option Nat) :=
  (sites.foldl
    (fun st se => if se.live then (st.1 ++ [some st.2], st.2 + 1) else (st.1 ++ [none], st.2))
    ([], 0)).1

/-- The vectors of a map at their new positions, without those that run empty. -/
def remapInto (newOf : List (Option Nat)) (m : UMap Str (List Nat)) : UMap Str (List Nat) :=
  UMap.filterMapVals
    (fun v =>
      let nv := v.filterMap fun i => newOf.getD i none
      if nv = [] then none else some nv)
    m

/-- Drop the tombstones. -/
def compact (ch : ChannelIndex) : ChannelIndex :=
  let newOf := oldToNew ch.sites
  { ch with
    sites := ch.sites.filter (·.live)
    index := UMap.filterMapVals (fun idx => newOf.getD idx none) ch.index
    byChannel := remapInto newOf ch.byChannel
    byFunctionUsr := remapInto newOf ch.byFunctionUsr
    byFunctionDisplay := remapInto newOf ch.byFunctionDisplay
    byTu := remapInto newOf ch.byTu }

/-! ### Queries -/

/-- The live sites at these positions. -/
def liveAt (ch : ChannelIndex) (idxs : List Nat) : List ChannelSite :=
  ((idxs.filterMap (ch.sites[·]?)).filter (·.live)).map (·.site)

/-- The live sites that send on the channel. -/
def producersOf (ch : ChannelIndex) (channelId : Str) : List ChannelSite :=
  (ch.liveAt (ch.byChannel.getD channelId [])).filter (·.op = .produce)

/-- The live sites that receive from it. -/
def consumersOf (ch : ChannelIndex) (channelId : Str) : List ChannelSite :=
  (ch.liveAt (ch.byChannel.getD channelId [])).filter (·.op = .consume)

/-- The sites whose enclosing function has this usr, then those with this display name. -/
def sitesForFunction (ch : ChannelIndex) (functionUsrOrDisplay : Str) : List ChannelSite :=
  ch.liveAt (ch.byFunctionUsr.getD functionUsrOrDisplay [])
    ++ ch.liveAt (ch.byFunctionDisplay.getD functionUsrOrDisplay [])

def allChannelIds (ch : ChannelIndex) : List Str :=
  (ch.byChannel.entries.filter fun kv => ch.liveAt kv.2 ≠ []).map (·.1)

def allSites (ch : ChannelIndex) : List ChannelSite := (ch.sites.filter (·.live)).map (·.site)

def size (ch : ChannelIndex) : Nat := ch.liveCount

end ChannelIndex

end Vycor
