/-
The anneal checkpoint journal.

A journal is a 16-byte header and then one framed record per append: kind, 32-bit
length, payload, checksum.  `openAt` reads the records of a journal written with the same
options and appends to it; any other file is truncated and gets a fresh header.
`loadRecords` stops at the first record that is cut short or fails its checksum.

The length check of the source adds 4 to a 32-bit length, so it wraps.  A length that
wraps past the check makes the source read beyond its buffer; the loader answers `none`
there.  A file that cannot be opened for writing is not modelled: the caller then runs
without a checkpoint.  `replayPhase1` returns the payload that the source applies to
the index.
-/
import Vycor.Lib.UMap
import Vycor.Lib.Wire
import Vycor.Model.AnnealIndex
import Vycor.Model.Dependencies

namespace Vycor

open Wire

namespace Checkpoint

abbrev Bytes := List UInt8

/-- The checksum of a record. -/
def fnv32 (data : Bytes) : UInt32 :=
  data.foldl (fun h b => (h ^^^ b.toUInt32) * 16777619) 2166136261

/-! ### Little-endian writers -/

def putU8 (v : UInt8) : Bytes := [v]

def putU32 (v : UInt32) : Bytes := leBytes 4 v.toNat

def putU64 (v : UInt64) : Bytes := leBytes 8 v.toNat

def putStr (s : Str) : Bytes := putU32 (UInt32.ofNat s.length) ++ s

def putBool (b : Bool) : Bytes := putU8 (if b then 1 else 0)

def putI32 (v : Int32) : Bytes := putU32 v.toUInt32

/-- A count and then each element. -/
def putList {α : Type} (put : α → Bytes) (l : List α) : Bytes :=
  putU32 (UInt32.ofNat l.length) ++ l.flatMap put

/-! ### Bounds-checked reader

A position and a flag. A read that does not fit clears the flag and returns
zeros, and the caller looks at the flag at the end of a record.
-/

/-- Whether `n` bytes are left; if not, the reader has overrun. -/
def need (n : Nat) : Read Bool := do
  let r ← get
  if !r.ok || r.rest.length < n then
    set { r with ok := false }
    return false
  return true

/-- Advance `pos` over `n` bytes that are known to be there. -/
def take (n : Nat) : Read Bytes :=
  modifyGet fun r => (r.rest.take n, { r with rest := r.rest.drop n })

def u8 : Read UInt8 := do
  if ← need 1 then
    return UInt8.ofNat (leValue (← take 1))
  return 0

def u32 : Read UInt32 := do
  if ← need 4 then
    return UInt32.ofNat (leValue (← take 4))
  return 0

def u64 : Read UInt64 := do
  if ← need 8 then
    return UInt64.ofNat (leValue (← take 8))
  return 0

def readStr : Read Str := do
  let n ← u32
  if ← need n.toNat then
    take n.toNat
  else
    return []

def readBool : Read Bool := do
  return (← u8) != 0

def readI32 : Read Int32 := do
  return (← u32).toInt32

def readList {α : Type} (one : Read α) : Read (List α) := do
  let n ← u32
  readMany one n.toNat

/-! ### Payload wire form

For each kind of entry a writer and a reader, field by field in the order of the
source.
-/

/-- A stamp without its path. -/
def putStamp (stamp : FileStamp) : Bytes := putU64 stamp.mtimeNs ++ putU64 stamp.size

/-- Read the stamp of `tu`: the path is not stored with it. -/
def readStamp (tu : Str) : Read FileStamp := do
  return { path := tu, mtimeNs := ← u64, size := ← u64 }

def putStringPair (p : Str × Str) : Bytes := putStr p.1 ++ putStr p.2

def readStringPair : Read (Str × Str) := do
  return (← readStr, ← readStr)

def encodeOverload (e : FunctionOverloadEntry) : Bytes :=
  putStr e.qualifiedName ++ (putStr e.headerPath ++ (putList putStr e.paramTypes ++
    (putStr e.returnType ++ putU32 e.sourceLine)))

def decodeOverload : Read FunctionOverloadEntry := do
  return { qualifiedName := ← readStr, headerPath := ← readStr, paramTypes := ← readList readStr,
           returnType := ← readStr, sourceLine := ← u32 }

def encodeGuide (e : DeductionGuideEntry) : Bytes :=
  putStr e.templateName ++ (putStr e.headerPath ++ (putList putStr e.paramTypes ++
    (putStr e.deducedType ++ putU32 e.sourceLine)))

def decodeGuide : Read DeductionGuideEntry := do
  return { templateName := ← readStr, headerPath := ← readStr, paramTypes := ← readList readStr,
           deducedType := ← readStr, sourceLine := ← u32 }

/-- The booleans of a method in one byte. -/
def coverageFlags (e : CoveragePropertyEntry) : UInt8 :=
  (if e.isInlined then 0x01 else 0) ||| (if e.isConstexpr then 0x02 else 0) |||
  (if e.isDefaulted then 0x04 else 0) ||| (if e.isTrivial then 0x08 else 0) |||
  (if e.isVirtual then 0x10 else 0) ||| (if e.isStaticMethod then 0x20 else 0) |||
  (if e.isImplicitlyInstantiable then 0x40 else 0)

def encodeCoverage (e : CoveragePropertyEntry) : Bytes :=
  putStr e.qualifiedName ++ (putStr e.headerPath ++ (putU32 e.sourceLine ++
    (putStr e.enclosingClass ++ (putI32 e.gvaLinkage ++ (putU8 (coverageFlags e) ++
    (putI32 e.templatedKind ++ (putI32 e.storageClass ++ (putI32 e.formalLinkage ++
    (putU32 e.bodyStmtCount ++ putStr e.signature)))))))))

def decodeCoverage : Read CoveragePropertyEntry := do
  let qualifiedName ← readStr
  let headerPath ← readStr
  let sourceLine ← u32
  let enclosingClass ← readStr
  let gvaLinkage ← readI32
  let flags ← u8
  return { qualifiedName, headerPath, sourceLine, enclosingClass, gvaLinkage
           isInlined := flags &&& 0x01 != 0
           isConstexpr := flags &&& 0x02 != 0
           isDefaulted := flags &&& 0x04 != 0
           isTrivial := flags &&& 0x08 != 0
           isVirtual := flags &&& 0x10 != 0
           isStaticMethod := flags &&& 0x20 != 0
           isImplicitlyInstantiable := flags &&& 0x40 != 0
           templatedKind := ← readI32, storageClass := ← readI32, formalLinkage := ← readI32
           bodyStmtCount := ← u32, signature := ← readStr }

def encodeOdr (e : OdrEntry) : Bytes :=
  putStr e.qualifiedName ++ (putStr e.signature ++ (putBool e.isClass ++
    (putStr e.enclosingClass ++ (putStr e.filePath ++ (putU32 e.line ++ putU64 e.odrHash)))))

def decodeOdr : Read OdrEntry := do
  return { qualifiedName := ← readStr, signature := ← readStr, isClass := ← readBool,
           enclosingClass := ← readStr, filePath := ← readStr, line := ← u32, odrHash := ← u64 }

def encodeSpecialization (e : SpecializationEntry) : Bytes :=
  putStr e.templateName ++ (putStr e.argsString ++ (putStr e.headerPath ++ putU32 e.line))

def decodeSpecialization : Read SpecializationEntry := do
  return { templateName := ← readStr, argsString := ← readStr, headerPath := ← readStr,
           line := ← u32 }

def encodeDefaultArg (e : DefaultArgEntry) : Bytes :=
  putStr e.qualifiedName ++ (putStr e.signature ++ (putU32 e.paramIndex ++
    (putStr e.paramName ++ (putStr e.defaultText ++ (putStr e.filePath ++ putU32 e.line)))))

def decodeDefaultArg : Read DefaultArgEntry := do
  return { qualifiedName := ← readStr, signature := ← readStr, paramIndex := ← u32,
           paramName := ← readStr, defaultText := ← readStr, filePath := ← readStr,
           line := ← u32 }

/-- The two low bits of a flag byte. -/
def putFlags (bit0 bit1 : Bool) : Bytes :=
  putU8 ((if bit0 then 0x01 else 0) ||| (if bit1 then 0x02 else 0))

def encodeStaticInit (e : StaticInitEntry) : Bytes :=
  putStr e.qualifiedName ++ (putStr e.filePath ++ (putU32 e.line ++
    (putFlags e.dynamicInit e.isConstructorFn ++ (putList putStr e.referencedGlobals ++
    putList putStr e.calledFunctions))))

def decodeStaticInit : Read StaticInitEntry := do
  let qualifiedName ← readStr
  let filePath ← readStr
  let line ← u32
  let flags ← u8
  return { qualifiedName, filePath, line
           dynamicInit := flags &&& 0x01 != 0, isConstructorFn := flags &&& 0x02 != 0
           referencedGlobals := ← readList readStr, calledFunctions := ← readList readStr }

def encodeFunctionSummary (e : FunctionSummaryEntry) : Bytes :=
  putStr e.qualifiedName ++ (putStr e.filePath ++ (putU32 e.line ++
    (putFlags e.isNoexcept e.hasUncaughtThrow ++ (putList putStr e.calledFunctions ++
    (putList putStr e.unguardedCalls ++ putList putStr e.referencedGlobals)))))

def decodeFunctionSummary : Read FunctionSummaryEntry := do
  let qualifiedName ← readStr
  let filePath ← readStr
  let line ← u32
  let flags ← u8
  return { qualifiedName, filePath, line
           isNoexcept := flags &&& 0x01 != 0, hasUncaughtThrow := flags &&& 0x02 != 0
           calledFunctions := ← readList readStr, unguardedCalls := ← readList readStr
           referencedGlobals := ← readList readStr }

def encodeHeaderStatic (e : HeaderStaticEntry) : Bytes :=
  putStr e.name ++ (putStr e.filePath ++ (putU32 e.line ++ (putBool e.isConst ++
    putList putStr e.tuPaths)))

def decodeHeaderStatic : Read HeaderStaticEntry := do
  return { name := ← readStr, filePath := ← readStr, line := ← u32, isConst := ← readBool,
           tuPaths := ← readList readStr }

def encodeExceptionSpec (e : ExceptionSpecEntry) : Bytes :=
  putStr e.qualifiedName ++ (putStr e.signature ++ (putBool e.isNoexcept ++
    (putStr e.filePath ++ putU32 e.line)))

def decodeExceptionSpec : Read ExceptionSpecEntry := do
  return { qualifiedName := ← readStr, signature := ← readStr, isNoexcept := ← readBool,
           filePath := ← readStr, line := ← u32 }

def encodeIndexPayload (p : AnnealIndexPayload) : Bytes :=
  putList encodeOverload p.overloads ++ (putList encodeGuide p.guides ++
    (putList encodeCoverage p.coverage ++ (putList putStringPair p.baseEdges ++
    (putList putStringPair p.ctorEdges ++ (putList putStringPair p.convOpEdges ++
    (putList encodeOdr p.odrEntries ++ (putList encodeSpecialization p.specializations ++
    (putList encodeDefaultArg p.defaultArgs ++ (putList encodeStaticInit p.staticInits ++
    (putList encodeFunctionSummary p.functionSummaries ++
    (putList encodeHeaderStatic p.headerStatics ++
    putList encodeExceptionSpec p.exceptionSpecs)))))))))))

def decodeIndexPayload : Read AnnealIndexPayload := do
  let overloads ← readList decodeOverload
  let guides ← readList decodeGuide
  let coverage ← readList decodeCoverage
  let baseEdges ← readList readStringPair
  let ctorEdges ← readList readStringPair
  let convOpEdges ← readList readStringPair
  return { overloads, guides, coverage, baseEdges, ctorEdges, convOpEdges
           odrEntries := ← readList decodeOdr
           specializations := ← readList decodeSpecialization
           defaultArgs := ← readList decodeDefaultArg
           staticInits := ← readList decodeStaticInit
           functionSummaries := ← readList decodeFunctionSummary
           headerStatics := ← readList decodeHeaderStatic
           exceptionSpecs := ← readList decodeExceptionSpec }

def encodeDiagnostic (d : Diagnostic) : Bytes :=
  putU32 d.kind.toU32 ++ (putStr d.callLocation ++ (putStr d.resolvedDecl ++
    (putStr d.betterDecl ++ (putStr d.missingHeader ++ (putStr d.message ++
    putStr d.checkName)))))

def decodeDiagnostic : Read Diagnostic := do
  let kind ← u32
  return { kind := Diagnostic.Kind.ofU32 kind, callLocation := ← readStr,
           resolvedDecl := ← readStr, betterDecl := ← readStr, missingHeader := ← readStr,
           message := ← readStr, checkName := ← readStr }

def encodeDiagnostics (diags : List Diagnostic) : Bytes := putList encodeDiagnostic diags

def decodeDiagnostics : Read (List Diagnostic) := readList decodeDiagnostic

end Checkpoint

open Checkpoint

/-! ### The journal

What the loader makes of the records: the last contribution and the last
diagnostics of each TU, and how often its parse was begun without being
finished.
-/

/-- The contribution of a TU under the stamp it was made from. -/
structure Phase1Record where
  stamp : FileStamp
  payload : AnnealIndexPayload
deriving DecidableEq

/-- The diagnostics of a TU, under its stamp and the hash of the index they were made
with. -/
structure Phase2Record where
  stamp : FileStamp
  indexSetHash : UInt64 := 0
  diagnostics : List Diagnostic
deriving DecidableEq

/-- Most-recent attempt tracking. -/
structure AttemptState where
  stamp : FileStamp := { path := [] }
  count : UInt32 := 0
deriving DecidableEq

/-- What the loaded records amount to, and what this process has written so far. -/
structure AnnealCheckpoint where
  phase1 : UMap Str Phase1Record := ∅
  phase2 : UMap Str Phase2Record := ∅
  /-- Keyed by `attemptKey`. -/
  attempts : UMap Str AttemptState := ∅
  out : Bytes := []
deriving DecidableEq

namespace AnnealCheckpoint

def kMagic : Bytes := str "VYCJ"
def kVersion : UInt32 := 8
def kHeaderSize : Nat := 4 + 4 + 8

def kKindAttempt : UInt8 := 1
def kKindPhase1 : UInt8 := 2
def kKindPhase2 : UInt8 := 3

def kPhaseIndex : UInt8 := 1
def kPhaseAnalyze : UInt8 := 2

/-- Attempts are counted for each phase and TU. -/
def attemptKey (phase : UInt8) (tu : Str) : Str := phase :: 0 :: tu

/-- One more start of the TU; a changed stamp restarts the count. -/
def countAttempt (c : AnnealCheckpoint) (phase : UInt8) (tu : Str) (stamp : FileStamp) :
    AnnealCheckpoint :=
  { c with
    attempts := c.attempts.upsert (attemptKey phase tu) {} fun state =>
      if state.stamp = stamp then { state with count := state.count + 1 } else { stamp, count := 1 } }

/-- Completion clears the attempt counter of the TU and phase. -/
def clearAttempts (c : AnnealCheckpoint) (phase : UInt8) (tu : Str) : AnnealCheckpoint :=
  { c with attempts := c.attempts.erase (attemptKey phase tu) }

/-! ### Load

Records follow each other in frames of a kind, a length, a payload and its checksum.
The first frame that is cut or does not match its checksum ends the load.
-/

def readAttempt : Read (UInt8 × Str × FileStamp) := do
  let phase ← u8
  let tu ← readStr
  return (phase, tu, ← readStamp tu)

def readPhase1 : Read (Str × Phase1Record) := do
  let tu ← readStr
  let stamp ← readStamp tu
  return (tu, { stamp, payload := ← decodeIndexPayload })

def readPhase2 : Read (Str × Phase2Record) := do
  let tu ← readStr
  let stamp ← readStamp tu
  return (tu, { stamp, indexSetHash := ← u64, diagnostics := ← decodeDiagnostics })

/-- Take in one record.  An unknown kind and a payload that does not decode are skipped. -/
def loadRecord (c : AnnealCheckpoint) (kind : UInt8) (payload : Bytes) : AnnealCheckpoint :=
  if kind = kKindAttempt then
    let res := readAttempt.run ⟨payload, true⟩
    if res.2.ok then c.countAttempt res.1.1 res.1.2.1 res.1.2.2 else c
  else if kind = kKindPhase1 then
    let res := readPhase1.run ⟨payload, true⟩
    if res.2.ok then
      let c := c.clearAttempts kPhaseIndex res.1.1
      { c with phase1 := c.phase1.insert res.1.1 res.1.2 }
    else c
  else if kind = kKindPhase2 then
    let res := readPhase2.run ⟨payload, true⟩
    if res.2.ok then
      let c := c.clearAttempts kPhaseAnalyze res.1.1
      { c with phase2 := c.phase2.insert res.1.1 res.1.2 }
    else c
  else c

/-- What the loader finds at its position. -/
inductive Frame
  /-- A truncated or corrupt tail: keep what was read before it. -/
  | tail
  /-- The length wrapped past the bounds check: the source reads beyond the buffer. -/
  | overrun
  | record (kind : UInt8) (payload : Bytes) (rest : Reader)
deriving DecidableEq

/-- A frame that is cut, or whose checksum is another, is the tail; `overrun` is a read
past the file. -/
def readFrame (stream : Reader) : Frame :=
  let kind := u8.run stream
  let len := u32.run kind.2
  let fits := (need (len.1 + 4).toNat).run len.2
  let n := len.1.toNat
  if !fits.1 then .tail
  else if fits.2.rest.length < n + 4 then .overrun
  else
    let payload := (take n).run fits.2
    let checksum := u32.run payload.2
    if checksum.1 ≠ fnv32 payload.1 then .tail else .record kind.1 payload.1 checksum.2

/-- The loop of `loadRecords`.  Every turn consumes a byte, so `fuel` bytes of fuel are
enough for a stream of that length. -/
def loadFrames : Nat → AnnealCheckpoint → Reader → Option AnnealCheckpoint
  | 0, c, _ => some c
  | fuel + 1, c, stream =>
    if stream.ok && stream.rest ≠ [] then
      match readFrame stream with
      | .tail => some c
      | .overrun => none
      | .record kind payload rest => loadFrames fuel (c.loadRecord kind payload) rest
    else some c

/-- The records of a stream; none where a read runs past its end. -/
def loadRecords (c : AnnealCheckpoint) (data : Bytes) : Option AnnealCheckpoint :=
  loadFrames data.length c ⟨data, true⟩

/-! ### Open

A file that is no journal of this version and these options is truncated; any
other is appended to.
-/

/-- The bytes a journal begins with. -/
def header (optionsFingerprint : UInt64) : Bytes :=
  kMagic ++ (putU32 kVersion ++ putU64 optionsFingerprint)

/-- The file is a journal of this version, written with the same options. -/
def reusable (file : Bytes) (optionsFingerprint : UInt64) : Bool :=
  decide (kHeaderSize ≤ file.length) && file.take 4 == kMagic &&
    (let version := u32.run ⟨(file.take kHeaderSize).drop 4, true⟩
     let fingerprint := u64.run version.2
     version.1 == kVersion && fingerprint.1 == optionsFingerprint)

/-- The journal object, and what the file holds before its first write. -/
structure Opened where
  ckpt : AnnealCheckpoint
  kept : Bytes
deriving DecidableEq

/-- `none` for a file that does not exist. -/
def openAt (file : Option Bytes) (optionsFingerprint : UInt64) : Option Opened :=
  match file with
  | none => some ⟨{ out := header optionsFingerprint }, []⟩
  | some bytes =>
    if reusable bytes optionsFingerprint then
      (loadRecords {} (bytes.drop kHeaderSize)).map (⟨·, bytes⟩)
    else
      some ⟨{ out := header optionsFingerprint }, []⟩

/-! ### Appends and queries -/

/-- A record as it stands in the file. -/
def frame (kind : UInt8) (payload : Bytes) : Bytes :=
  putU8 kind ++ (putU32 (UInt32.ofNat payload.length) ++ (payload ++ putU32 (fnv32 payload)))

/-- A record goes behind what has been written. -/
def appendRecord (c : AnnealCheckpoint) (kind : UInt8) (payload : Bytes) : AnnealCheckpoint :=
  { c with out := c.out ++ frame kind payload }

def attemptPayload (phase : UInt8) (tu : Str) (stamp : FileStamp) : Bytes :=
  putU8 phase ++ (putStr tu ++ putStamp stamp)

def phase1Payload (tu : Str) (stamp : FileStamp) (contribution : AnnealIndexPayload) : Bytes :=
  putStr tu ++ (putStamp stamp ++ encodeIndexPayload contribution)

def phase2Payload (tu : Str) (stamp : FileStamp) (indexSetHash : UInt64)
    (diags : List Diagnostic) : Bytes :=
  putStr tu ++ (putStamp stamp ++ (putU64 indexSetHash ++ encodeDiagnostics diags))

/-- An attempt is recorded, and counted for its TU. -/
def recordAttempt (c : AnnealCheckpoint) (phase : UInt8) (tu : Str) (stamp : FileStamp) :
    AnnealCheckpoint :=
  (c.appendRecord kKindAttempt (attemptPayload phase tu stamp)).countAttempt phase tu stamp

/-- A contribution is recorded. -/
def recordPhase1 (c : AnnealCheckpoint) (tu : Str) (stamp : FileStamp)
    (contribution : AnnealIndexPayload) : AnnealCheckpoint :=
  (c.appendRecord kKindPhase1 (phase1Payload tu stamp contribution)).clearAttempts kPhaseIndex tu

/-- The diagnostics of a TU are recorded. -/
def recordPhase2 (c : AnnealCheckpoint) (tu : Str) (stamp : FileStamp) (indexSetHash : UInt64)
    (diags : List Diagnostic) : AnnealCheckpoint :=
  (c.appendRecord kKindPhase2 (phase2Payload tu stamp indexSetHash diags)).clearAttempts
    kPhaseAnalyze tu

/-- How often the TU was begun under this stamp and not finished. -/
def attemptsOf (c : AnnealCheckpoint) (phase : UInt8) (tu : Str) (stamp : FileStamp) : UInt32 :=
  match c.attempts.lookup (attemptKey phase tu) with
  | some state => if state.stamp = stamp then state.count else 0
  | none => 0

/-- The recorded contribution, if the stamp is still the same. -/
def replayPhase1 (c : AnnealCheckpoint) (tu : Str) (stamp : FileStamp) :
    Option AnnealIndexPayload :=
  match c.phase1.lookup tu with
  | some rec => if rec.stamp = stamp then some rec.payload else none
  | none => none

/-- The recorded diagnostics, if the stamp and the index are still the same. -/
def replayPhase2 (c : AnnealCheckpoint) (tu : Str) (stamp : FileStamp) (indexSetHash : UInt64)
    (out : List Diagnostic) : Option (List Diagnostic) :=
  match c.phase2.lookup tu with
  | some rec =>
    if rec.stamp = stamp ∧ rec.indexSetHash = indexSetHash then some (out ++ rec.diagnostics)
    else none
  | none => none

/-! ### Runs

A run opens the journal, makes some calls and is killed.  What it wrote reaches the file
from the front, so the kill leaves a prefix of it.
-/

/-- One call on the journal object. -/
inductive Op
  | attempt (phase : UInt8) (tu : Str) (stamp : FileStamp)
  | phase1 (tu : Str) (stamp : FileStamp) (contribution : AnnealIndexPayload)
  | phase2 (tu : Str) (stamp : FileStamp) (indexSetHash : UInt64) (diags : List Diagnostic)
deriving DecidableEq

/-- The call on the checkpoint. -/
def Op.run (c : AnnealCheckpoint) : Op → AnnealCheckpoint
  | attempt phase tu stamp => c.recordAttempt phase tu stamp
  | phase1 tu stamp contribution => c.recordPhase1 tu stamp contribution
  | phase2 tu stamp indexSetHash diags => c.recordPhase2 tu stamp indexSetHash diags

/-- The bytes the call appends. -/
def Op.framed : Op → Bytes
  | attempt phase tu stamp => frame kKindAttempt (attemptPayload phase tu stamp)
  | phase1 tu stamp contribution => frame kKindPhase1 (phase1Payload tu stamp contribution)
  | phase2 tu stamp indexSetHash diags =>
      frame kKindPhase2 (phase2Payload tu stamp indexSetHash diags)

/-- The calls of a process, killed after `cut` bytes of what it wrote are in the file. -/
structure Run where
  ops : List Op
  cut : Nat

/-- The records that are whole among the first `n` bytes. -/
def flushedOps : List Op → Nat → List Op
  | [], _ => []
  | op :: ops, n =>
    if op.framed.length ≤ n then op :: flushedOps ops (n - op.framed.length) else []

/-- The file after the run. -/
def Run.file (optionsFingerprint : UInt64) (file : Option Bytes) (run : Run) : Option Bytes :=
  match openAt file optionsFingerprint with
  | some o => some (o.kept ++ (run.ops.foldl Op.run o.ckpt).out.take run.cut)
  | none => file

/-- The records whose append the run completed. -/
def Run.flushed (optionsFingerprint : UInt64) (file : Option Bytes) (run : Run) : List Op :=
  match openAt file optionsFingerprint with
  | some o => flushedOps run.ops (run.cut - o.ckpt.out.length)
  | none => []

/-- The file after runs one after the other. -/
def afterRuns (optionsFingerprint : UInt64) (file : Option Bytes) (runs : List Run) :
    Option Bytes :=
  runs.foldl (Run.file optionsFingerprint) file

def flushedBy (optionsFingerprint : UInt64) : Option Bytes → List Run → List Op
  | _, [] => []
  | file, run :: runs =>
    run.flushed optionsFingerprint file ++
      flushedBy optionsFingerprint (run.file optionsFingerprint file) runs

end AnnealCheckpoint

end Vycor
