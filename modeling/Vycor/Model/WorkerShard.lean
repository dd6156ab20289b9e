/-
The shard files of anneal workers.

A shard file is a magic, a version, a count and that many entries: the TU, the length of
its payload, the payload and a checksum.  The reader hands each entry to a callback as
soon as it has decoded it and goes on to the next; the callback's state is `σ` here, and
what the reader answers comes with the state the callback left.

As in the journal, the length check adds 4 to a 32-bit length and wraps; where the source
then reads beyond its buffer, the reader here answers `none`.  A file that does not exist
is `none` too, as an argument.
-/
import Vycor.Model.Checkpoint

namespace Vycor

open Wire Checkpoint

namespace WorkerShard

def kShardVersion : UInt32 := 8

def kIndexShardMagic : Bytes := str "VYAI"
def kDiagShardMagic : Bytes := str "VYAD"

/-! ### Writing -/

def shardHeader (magic : Bytes) (count : UInt32) : Bytes :=
  magic ++ (putU32 kShardVersion ++ putU32 count)

/-- A TU with its payload. -/
def shardEntry (tu : Str) (payload : Bytes) : Bytes :=
  putStr tu ++ (putU32 (UInt32.ofNat payload.length) ++ (payload ++ putU32 (fnv32 payload)))

/-- The header, then each TU with its payload. -/
def writeShardFile (magic : Bytes) (tuPayloads : List (Str × Bytes)) : Bytes :=
  shardHeader magic (UInt32.ofNat tuPayloads.length)
    ++ tuPayloads.flatMap fun entry => shardEntry entry.1 entry.2

def writeAnnealIndexShard (tus : List (Str × AnnealIndexPayload)) : Bytes :=
  writeShardFile kIndexShardMagic (tus.map fun entry => (entry.1, encodeIndexPayload entry.2))

def writeAnnealDiagShard (tus : List (Str × List Diagnostic)) : Bytes :=
  writeShardFile kDiagShardMagic (tus.map fun entry => (entry.1, encodeDiagnostics entry.2))

/-! ### Reading

The number of entries stands in front. They are handed over as they are read, so
a file that breaks off in the middle has handed over what stands before.
-/

/-- What the reader finds at its position. -/
inductive ShardEntry
  /-- Cut short, or not what the checksum says. -/
  | broken
  /-- The length wrapped past the bounds check: the source reads beyond the buffer. -/
  | overrun
  | entry (tu : Str) (payload : Bytes) (rest : Reader)
deriving DecidableEq

/-- One entry, or why there is none. -/
def readEntry (stream : Reader) : ShardEntry :=
  let tu := readStr.run stream
  let len := u32.run tu.2
  let fits := (need (len.1 + 4).toNat).run len.2
  let n := len.1.toNat
  if !fits.1 then .broken
  else if fits.2.rest.length < n + 4 then .overrun
  else
    let payload := (take n).run fits.2
    let checksum := u32.run payload.2
    if checksum.1 ≠ fnv32 payload.1 then .broken else .entry tu.1 payload.1 checksum.2

section Read

variable {σ α : Type}

/-- The loop over the entries.  The callback answers whether to go on. -/
def readEntries (fn : Str → Bytes → σ → Bool × σ) : Nat → Reader → σ → Option (Bool × σ)
  | 0, stream, s => some (stream.ok, s)
  | n + 1, stream, s =>
    match readEntry stream with
    | .broken => some (false, s)
    | .overrun => none
    | .entry tu payload rest =>
      let res := fn tu payload s
      if res.1 then readEntries fn n rest res.2 else some (false, res.2)

/-- Hand over the entries one by one; a file that ends early has handed over those before.
-/
def readShardFile (file : Option Bytes) (magic : Bytes) (fn : Str → Bytes → σ → Bool × σ)
    (s : σ) : Option (Bool × σ) :=
  match file with
  | none => some (false, s)
  | some bytes =>
    if bytes.length < 8 ∨ bytes.take 4 ≠ magic then some (false, s)
    else
      let version := u32.run ⟨bytes.drop 4, true⟩
      if version.1 ≠ kShardVersion then some (false, s)
      else
        let count := u32.run version.2
        readEntries fn count.1.toNat count.2 s

/-- Decode a payload and hand the value on; a payload that does not decode stops the
reader. -/
def decoding (decode : Read α) (fn : Str → α → σ → σ) (tu : Str) (payload : Bytes) (s : σ) :
    Bool × σ :=
  let res := decode.run ⟨payload, true⟩
  if res.2.ok then (true, fn tu res.1 s) else (false, s)

/-- Each entry of the shard is handed over as it is read. -/
def readAnnealIndexShard (file : Option Bytes) (fn : Str → AnnealIndexPayload → σ → σ) (s : σ) :
    Option (Bool × σ) :=
  readShardFile file kIndexShardMagic (decoding decodeIndexPayload fn) s

/-- Each entry of the shard is handed over as it is read. -/
def readAnnealDiagShard (file : Option Bytes) (fn : Str → List Diagnostic → σ → σ) (s : σ) :
    Option (Bool × σ) :=
  readShardFile file kDiagShardMagic (decoding decodeDiagnostics fn) s

end Read

/-! ### What the analysis does with a shard -/

/-- What the phase-1 consumer changes: the journal, when there is one, and the merged
index, here the contributions applied to it in order. -/
structure IndexSink where
  ckpt : Option AnnealCheckpoint
  applied : List AnnealIndexPayload := []
deriving DecidableEq

/-- Every entry is merged; it is journaled when its TU has a stamp. -/
def IndexSink.consume (stampFor : UMap Str FileStamp) (tu : Str) (payload : AnnealIndexPayload)
    (sink : IndexSink) : IndexSink where
  ckpt := sink.ckpt.map fun ckpt =>
    match stampFor.lookup tu with
    | some stamp => ckpt.recordPhase1 tu stamp payload
    | none => ckpt
  applied := sink.applied ++ [payload]

/-- What the phase-2 consumer changes: the journal and the diagnostics of each file. -/
structure DiagSink where
  ckpt : Option AnnealCheckpoint
  perFile : List (List Diagnostic)
deriving DecidableEq

/-- An entry of a file that is not in the selection is dropped. -/
def DiagSink.consume (stampFor : UMap Str FileStamp) (slotFor : UMap Str Nat) (setHash : UInt64)
    (tu : Str) (diags : List Diagnostic) (sink : DiagSink) : DiagSink :=
  match slotFor.lookup tu with
  | none => sink
  | some slot =>
    { ckpt := sink.ckpt.map fun ckpt =>
        match stampFor.lookup tu with
        | some stamp => ckpt.recordPhase2 tu stamp setHash diags
        | none => ckpt
      perFile := sink.perFile.set slot diags }

end WorkerShard

end Vycor
