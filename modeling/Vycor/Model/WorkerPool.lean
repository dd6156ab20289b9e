/-
The shard dispatcher.

`dispatchIsolated` cuts the file list into batches and shares them out to worker
threads, each of which blocks in the runner for one batch at a time.  A single parent
loop collects finished batches: it consumes the shard of a clean exit and bisects the
batch of a failed one.  Threads and parent meet only under one mutex, so the state is
what that mutex guards plus the parent's own variables, and `Step` is one critical
section of one of them: any thread and the parent may go next.

The runner and `consumeShard` are the environment.  A batch may finish with any exit
code and any stderr log, and a shard may be rejected for any reason, differently on
every attempt.  The paths of the temporary files are left out: they only tell the
runner where to write.
-/
import Mathlib.Data.List.Basic
import Vycor.Model.Str
import Vycor.Lib.UMap

namespace Vycor.WorkerPool

/-- A TU is re-dispatched at most this many times. -/
def kMaxTuRetries : Nat := 2

/-- What a worker thread reports for the batch it ran: the runner's exit code and the
worker's stderr log, if it can be read. -/
structure BatchResult where
  tus : List Str
  exitCode : Int
  stderr : Option Str
deriving DecidableEq

def isSpace (c : UInt8) : Bool :=
  c == 32 || (9 ≤ c && c ≤ 13)

def trim (s : Str) : Str :=
  ((s.dropWhile isSpace).reverse.dropWhile isSpace).reverse

/-- The last `WORKER-TU <path>` line of a stderr log. -/
def lastWorkerTuMarker (stderr : Option Str) : Option Str :=
  stderr.bind fun text =>
    (text.splitOn 10).foldl
      (fun last line =>
        match (str "WORKER-TU ").isPrefixOf? line with
        | some rest => some (trim rest)
        | none => last)
      none

/-- The state the parent and the worker threads share, and the log of what the two
callbacks were called with. -/
structure Dispatch where
  /-- Batches waiting for a thread. -/
  work : List (List Str) := []
  /-- Batches a thread is blocked on in the runner. -/
  running : List (List Str) := []
  /-- Finished batches waiting for the parent. -/
  results : List BatchResult := []
  /-- Batches queued or running. -/
  outstanding : Nat := 0
  retries : UMap Str Nat := ∅
  /-- Groups of TUs the parent is about to re-enqueue. -/
  pending : List (List Str) := []
  stop : Bool := false
  /-- Batches `consumeShard` accepted. -/
  consumed : List (List Str) := []
  /-- TUs `onPoison` was called for. -/
  poisoned : List Str := []

/-! ### The parent loop

A batch that fails is blamed on the TU in flight when its worker named one; else
it is cut in half and tried again, until one TU is left. A TU may be dispatched
again only so often.
-/

/-- What counting one more dispatch of a group leaves behind. -/
structure Retried where
  retries : UMap Str Nat
  poisoned : List Str
  /-- The TUs that may be dispatched again. -/
  rest : List Str

/-- Count one more dispatch of each TU, poisoning those over the bound. -/
def countRetries (retries : UMap Str Nat) (poisoned : List Str) : List Str → Retried
  | [] => { retries, poisoned, rest := [] }
  | tu :: tus =>
    let n := retries.getD tu 0 + 1
    if n > kMaxTuRetries then countRetries (retries.insert tu n) (poisoned ++ [tu]) tus
    else
      let r := countRetries (retries.insert tu n) poisoned tus
      { r with rest := tu :: r.rest }

/-- Re-enqueue the given TUs as one batch. -/
def Dispatch.requeue (s : Dispatch) (tus : List Str) : Dispatch :=
  let r := countRetries s.retries s.poisoned tus
  let s := { s with retries := r.retries, poisoned := r.poisoned }
  if r.rest = [] then s
  else { s with outstanding := s.outstanding + 1, work := s.work ++ [r.rest] }

/-- Bisect a failed batch: poison the TU in flight when the worker named one, else the
only TU, else split in half. -/
def Dispatch.handleFailure (s : Dispatch) (res : BatchResult) : Dispatch :=
  match (lastWorkerTuMarker res.stderr).filter (· ∈ res.tus) with
  | some marker =>
    { s with poisoned := s.poisoned ++ [marker], pending := [res.tus.filter (· ≠ marker)] }
  | none =>
    match res.tus with
    | [tu] => { s with poisoned := s.poisoned ++ [tu] }
    | tus => { s with pending := [tus.take (tus.length / 2), tus.drop (tus.length / 2)] }

/-- Absorb or bisect one finished batch.  `accepted` is what `consumeShard` answers; it
is asked only after a clean exit, and a rejected shard counts as a failure. -/
def Dispatch.collect (s : Dispatch) (res : BatchResult) (accepted : Bool) : Dispatch :=
  if res.exitCode = 0 ∧ accepted then { s with consumed := s.consumed ++ [res.tus] }
  else s.handleFailure res

/-! ### Batching -/

/-- Consecutive batches of `batchSize` files. -/
def splitBatches (batchSize : Nat) : Nat → List Str → List (List Str)
  | 0, _ => []
  | _ + 1, [] => []
  | fuel + 1, files =>
    files.take batchSize :: splitBatches batchSize fuel (files.drop batchSize)

def workerCount (workers : Nat) : Nat := if workers = 0 then 1 else workers

/-- The batch size given, or one that gives every worker several batches. -/
def batchSizeOf (files : List Str) (workers batchSizeOverride : Nat) : Nat :=
  if batchSizeOverride ≠ 0 then batchSizeOverride
  else min 32 (max 1 (files.length / (workers * 4)))

/-- The state in which the threads start; with no files nothing is dispatched. -/
def dispatchStart (files : List Str) (workers batchSizeOverride : Nat) : Dispatch :=
  let batchSize := batchSizeOf files (workerCount workers) batchSizeOverride
  let work := splitBatches batchSize files.length files
  { work, outstanding := work.length, stop := files.isEmpty }

/-- One critical section of a worker thread or of the parent. -/
inductive Step (workers : Nat) : Dispatch → Dispatch → Prop
  /-- An idle thread takes the front batch. -/
  | take {s : Dispatch} (b : List Str) (rest : List (List Str)) (hwork : s.work = b :: rest)
      (hidle : s.running.length < workers) :
      Step workers s { s with work := rest, running := s.running ++ [b] }
  /-- The runner returns, with any outcome. -/
  | finish {s : Dispatch} (pre post : List (List Str)) (res : BatchResult)
      (hrun : s.running = pre ++ res.tus :: post) :
      Step workers s { s with running := pre ++ post, results := s.results ++ [res] }
  /-- The parent pops a finished batch and absorbs or bisects it. -/
  | collect {s : Dispatch} (res : BatchResult) (rest : List BatchResult) (accepted : Bool)
      (hres : s.results = res :: rest) (hbusy : s.outstanding ≠ 0) (hpend : s.pending = [])
      (hgo : s.stop = false) :
      Step workers s
        ({ s with results := rest, outstanding := s.outstanding - 1 }.collect res accepted)
  /-- The parent re-enqueues the next group of a bisected batch. -/
  | requeue {s : Dispatch} (tus : List Str) (rest : List (List Str))
      (hpend : s.pending = tus :: rest) :
      Step workers s ({ s with pending := rest }.requeue tus)
  /-- Nothing is queued or running: the parent stops the threads. -/
  | stop {s : Dispatch} (hidle : s.outstanding = 0) (hpend : s.pending = [])
      (hgo : s.stop = false) : Step workers s { s with stop := true }

/-- The dispatcher's runs. -/
inductive Reachable (files : List Str) (workers batchSizeOverride : Nat) : Dispatch → Prop
  | start : Reachable files workers batchSizeOverride
      (dispatchStart files workers batchSizeOverride)
  | step {s t : Dispatch} (hs : Reachable files workers batchSizeOverride s)
      (hstep : Step (workerCount workers) s t) : Reachable files workers batchSizeOverride t

end Vycor.WorkerPool
