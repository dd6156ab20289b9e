/-
On what evidence a TU is poisoned.

A run is logged here: what the parent puts into a new batch, what it poisons and, when that is
part of bisecting a failed batch, which batch that was.  The log holds as many dispatches of a TU as
its retries say, up to the bound, so who is poisoned for too many retries had them.

What is poisoned as the marker of a batch has the marker as its only evidence, and the marker says
nothing where the worker finished: the last TU that was announced is not in flight any more.  A clean
exit with an unreadable shard is bisected all the same, so runs are right exactly when no such batch
names one of its TUs.
-/
import Vycor.Lib.EventLog
import Vycor.Proofs.WorkerPool

namespace Vycor.WorkerPool

open EventLog

/-! ### The log -/

/-- What the dispatcher does about a failed batch. -/
inductive Event
  /-- The TU goes into a new batch. -/
  | again (tu : Str)
  /-- `onPoison` is called, with the failed batch that is bisected. -/
  | poison (tu : Str) (failed : Option BatchResult)
  /-- `consumeShard` rejects the shard of a clean exit. -/
  | unreadable (res : BatchResult)
deriving DecidableEq

/-- The TU that the event poisons. -/
def Event.poisoned? : Event → Option Str
  | poison tu _ => some tu
  | _ => none

/-- The TU that the event dispatches again. -/
def Event.again? : Event → Option Str
  | again tu => some tu
  | _ => none

/-- What bisecting or absorbing a batch logs. -/
def collectEvents (s : Dispatch) (res : BatchResult) (accepted : Bool) : List Event :=
  (if res.exitCode = 0 ∧ accepted = false then [.unreadable res] else []) ++
    ((s.collect res accepted).poisoned.drop s.poisoned.length).map (.poison · (some res))

/-- What counting one more dispatch logs, TU by TU. -/
def countEvents (retries : UMap Str Nat) : List Str → List Event
  | [] => []
  | tu :: tus =>
    let n := retries.getD tu 0 + 1
    (if n > kMaxTuRetries then .poison tu none else .again tu)
      :: countEvents (retries.insert tu n) tus

/-- A step of the dispatcher with what it logs. -/
inductive LoggedStep (workers : Nat) : Dispatch → List Event → Dispatch → Prop
  | take {s : Dispatch} (b : List Str) (rest : List (List Str)) (hwork : s.work = b :: rest)
      (hidle : s.running.length < workers) :
      LoggedStep workers s [] { s with work := rest, running := s.running ++ [b] }
  | finish {s : Dispatch} (pre post : List (List Str)) (res : BatchResult)
      (hrun : s.running = pre ++ res.tus :: post) :
      LoggedStep workers s [] { s with running := pre ++ post, results := s.results ++ [res] }
  | collect {s : Dispatch} (res : BatchResult) (rest : List BatchResult) (accepted : Bool)
      (hres : s.results = res :: rest) (hbusy : s.outstanding ≠ 0) (hpend : s.pending = [])
      (hgo : s.stop = false) :
      LoggedStep workers s (collectEvents s res accepted)
        ({ s with results := rest, outstanding := s.outstanding - 1 }.collect res accepted)
  | requeue {s : Dispatch} (tus : List Str) (rest : List (List Str))
      (hpend : s.pending = tus :: rest) :
      LoggedStep workers s (countEvents s.retries tus) ({ s with pending := rest }.requeue tus)
  | stop {s : Dispatch} (hidle : s.outstanding = 0) (hpend : s.pending = [])
      (hgo : s.stop = false) : LoggedStep workers s [] { s with stop := true }

/-- The dispatcher's runs with their logs. -/
abbrev LoggedRun (files : List Str) (workers batchSizeOverride : Nat) : List Event → Dispatch → Prop :=
  Logged (LoggedStep (workerCount workers)) (dispatchStart files workers batchSizeOverride)

/-! ### Evidence -/

/-- The TU went into a new batch twice. -/
def RedispatchedTwice (before : List Event) (tu : Str) : Prop := 2 ≤ before.count (.again tu)

/-- The TU was in flight when the worker died, or alone in its batch, or re-dispatched twice. -/
def Evidence (before : List Event) (tu : Str) (failed : Option BatchResult) : Prop :=
  (∃ res, failed = some res ∧
    (res.exitCode ≠ 0 ∧ lastWorkerTuMarker res.stderr = some tu ∧ tu ∈ res.tus ∨
      res.tus = [tu])) ∨
    RedispatchedTwice before tu

/-- A poisoning has evidence before it. -/
def EvidenceAt (before : List Event) : Event → Prop
  | .poison tu failed => Evidence before tu failed
  | _ => True

/-- A worker that finished named no TU of its batch last, or the batch is that TU alone, or the TU
was re-dispatched twice. -/
def FinishedUnnamed (before : List Event) (res : BatchResult) : Prop :=
  ∀ tu ∈ res.tus, lastWorkerTuMarker res.stderr = some tu →
    res.tus = [tu] ∨ RedispatchedTwice before tu

/-- A worker whose shard is unreadable is such a one. -/
def FinishedUnnamedAt (before : List Event) : Event → Prop
  | .unreadable res => FinishedUnnamed before res
  | _ => True

/-! ### Logged steps are the dispatcher's -/

variable {workers : Nat} {s t : Dispatch} {events : List Event}

theorem LoggedStep.step (h : LoggedStep workers s events t) : Step workers s t := by
  cases h with
  | take b rest hwork hidle => exact Step.take b rest hwork hidle
  | finish pre post res hrun => exact Step.finish pre post res hrun
  | collect res rest accepted hres hbusy hpend hgo =>
      exact Step.collect res rest accepted hres hbusy hpend hgo
  | requeue tus rest hpend => exact Step.requeue tus rest hpend
  | stop hidle hpend hgo => exact Step.stop hidle hpend hgo

theorem exists_loggedStep (h : Step workers s t) : ∃ events, LoggedStep workers s events t := by
  cases h with
  | take b rest hwork hidle => exact ⟨_, LoggedStep.take b rest hwork hidle⟩
  | finish pre post res hrun => exact ⟨_, LoggedStep.finish pre post res hrun⟩
  | collect res rest accepted hres hbusy hpend hgo =>
      exact ⟨_, LoggedStep.collect res rest accepted hres hbusy hpend hgo⟩
  | requeue tus rest hpend => exact ⟨_, LoggedStep.requeue tus rest hpend⟩
  | stop hidle hpend hgo => exact ⟨_, LoggedStep.stop hidle hpend hgo⟩

theorem reachable_iff_logged {files : List Str} {batchSizeOverride : Nat} :
    Reachable files workers batchSizeOverride s ↔
      ∃ log, LoggedRun files workers batchSizeOverride log s := by
  constructor
  · intro h
    induction h with
    | start => exact ⟨[], Logged.start⟩
    | step _ hstep ih =>
        obtain ⟨log, hlog⟩ := ih
        obtain ⟨events, hevents⟩ := exists_loggedStep hstep
        exact ⟨log ++ events, hlog.step hevents⟩
  · rintro ⟨log, hlog⟩
    induction hlog with
    | start => exact Reachable.start
    | step _ hstep ih => exact ih.step hstep.step

/-! ### Counting dispatches -/

/-- The poisoned are logged in order. -/
theorem poisoned_countEvents (retries : UMap Str Nat) (poisoned tus : List Str) :
    (countRetries retries poisoned tus).poisoned =
      poisoned ++ (countEvents retries tus).filterMap Event.poisoned? := by
  induction tus generalizing retries poisoned with
  | nil => exact (List.append_nil poisoned).symm
  | cons tu tus ih =>
      unfold countRetries countEvents
      dsimp only
      by_cases hover : retries.getD tu 0 + 1 > kMaxTuRetries
      · rw [if_pos hover, if_pos hover, ih, List.append_assoc]
        rfl
      · rw [if_neg hover, if_neg hover]
        exact ih _ _

/-- The log holds the dispatches that were counted, up to the bound. -/
def Counted (log : List Event) (retries : UMap Str Nat) : Prop :=
  ∀ tu, log.count (.again tu) = min (retries.getD tu 0) kMaxTuRetries

/-- One TU counted. -/
theorem Counted.next {log : List Event} {retries : UMap Str Nat} (h : Counted log retries)
    (tu : Str) :
    Counted (log ++ [if retries.getD tu 0 + 1 > kMaxTuRetries then .poison tu none else .again tu])
      (retries.insert tu (retries.getD tu 0 + 1)) := by
  intro f
  rw [List.count_append, h f]
  by_cases hf : f = tu
  · subst hf
    rw [UMap.getD_insert, if_pos rfl]
    by_cases hover : retries.getD f 0 + 1 > kMaxTuRetries
    · rw [if_pos hover, List.count_singleton, if_neg (by simp)]
      omega
    · rw [if_neg hover, List.count_singleton, if_pos (by simp)]
      omega
  · rw [UMap.getD_insert, if_neg hf]
    have hnone : ([if retries.getD tu 0 + 1 > kMaxTuRetries then Event.poison tu none
        else .again tu].count (.again f)) = 0 := by
      rw [List.count_eq_zero, List.mem_singleton]
      split
      · simp
      · simpa using hf
    rw [hnone]
    omega

theorem retries_requeue (s : Dispatch) (tus : List Str) :
    (s.requeue tus).retries = (countRetries s.retries s.poisoned tus).retries := by
  unfold Dispatch.requeue
  dsimp only
  split <;> rfl

theorem poisoned_requeue (s : Dispatch) (tus : List Str) :
    (s.requeue tus).poisoned = (countRetries s.retries s.poisoned tus).poisoned := by
  unfold Dispatch.requeue
  dsimp only
  split <;> rfl

theorem retries_collect (s : Dispatch) (res : BatchResult) (accepted : Bool) :
    (s.collect res accepted).retries = s.retries := by
  unfold Dispatch.collect Dispatch.handleFailure
  split
  · rfl
  · split
    · rfl
    · split <;> rfl

/-- **A group is re-enqueued on evidence**, and the log goes on counting. -/
theorem countEvents_spec {retries : UMap Str Nat} (poisoned tus : List Str) {log : List Event}
    (h : Counted log retries) :
    Counted (log ++ countEvents retries tus) (countRetries retries poisoned tus).retries ∧
      Along (fun before => EvidenceAt (log ++ before)) (countEvents retries tus) ∧
      Along (fun before => FinishedUnnamedAt (log ++ before)) (countEvents retries tus) := by
  induction tus generalizing retries poisoned log with
  | nil =>
      rw [countEvents, List.append_nil]
      exact ⟨h, along_nil, along_nil⟩
  | cons tu tus ih =>
      have hnext := h.next tu
      unfold countEvents countRetries
      dsimp only
      simp only [along_cons, List.append_nil]
      by_cases hover : retries.getD tu 0 + 1 > kMaxTuRetries
      · rw [if_pos hover] at hnext ⊢
        obtain ⟨hcounted, hevidence, hunnamed⟩ := ih (poisoned ++ [tu]) hnext
        simp only [List.append_assoc, List.singleton_append] at hcounted hevidence hunnamed
        have htwice : RedispatchedTwice log tu := by
          unfold RedispatchedTwice
          rw [h tu]
          unfold kMaxTuRetries at hover ⊢
          omega
        rw [if_pos hover]
        exact ⟨hcounted, ⟨Or.inr htwice, hevidence⟩, trivial, hunnamed⟩
      · rw [if_neg hover] at hnext ⊢
        obtain ⟨hcounted, hevidence, hunnamed⟩ := ih poisoned hnext
        simp only [List.append_assoc, List.singleton_append] at hcounted hevidence hunnamed
        rw [if_neg hover]
        exact ⟨hcounted, ⟨trivial, hevidence⟩, trivial, hunnamed⟩

/-! ### Bisecting a batch

The last marker is looked at whatever the exit code was. A worker that finished
has named its last TU last, and when its shard cannot be read this TU is taken
for the one in flight.
-/

/-- The TU that bisecting a failed batch poisons. -/
def blamed (res : BatchResult) : Option Str :=
  match (lastWorkerTuMarker res.stderr).filter (· ∈ res.tus) with
  | some marker => some marker
  | none =>
    match res.tus with
    | [tu] => some tu
    | _ => none

theorem poisoned_handleFailure (s : Dispatch) (res : BatchResult) :
    (s.handleFailure res).poisoned = s.poisoned ++ (blamed res).toList := by
  unfold Dispatch.handleFailure blamed
  cases hmarker : (lastWorkerTuMarker res.stderr).filter (· ∈ res.tus) with
  | some marker => rfl
  | none =>
      dsimp only
      rcases res.tus with _ | ⟨tu, _ | ⟨tu', rest⟩⟩
      · exact (List.append_nil _).symm
      · rfl
      · exact (List.append_nil _).symm

theorem collectEvents_accepted (s : Dispatch) {res : BatchResult} (h : res.exitCode = 0) :
    collectEvents s res true = [] := by
  unfold collectEvents Dispatch.collect
  rw [if_neg (by simp), if_pos ⟨h, rfl⟩]
  simp

theorem collectEvents_failed (s : Dispatch) {res : BatchResult} {accepted : Bool}
    (h : ¬ (res.exitCode = 0 ∧ accepted = true)) :
    collectEvents s res accepted = (if res.exitCode = 0 then [.unreadable res] else []) ++
      (blamed res).toList.map (.poison · (some res)) := by
  have hclean : (res.exitCode = 0 ∧ accepted = false) ↔ res.exitCode = 0 := by
    refine ⟨And.left, fun hzero => ⟨hzero, ?_⟩⟩
    cases accepted with
    | false => rfl
    | true => exact absurd ⟨hzero, rfl⟩ h
  unfold collectEvents Dispatch.collect
  rw [if_neg h, poisoned_handleFailure, List.drop_left, if_congr hclean rfl rfl]

/-- Who is blamed was named by the worker, or is alone in the batch. -/
theorem blamed_some {res : BatchResult} {tu : Str} (h : blamed res = some tu) :
    lastWorkerTuMarker res.stderr = some tu ∧ tu ∈ res.tus ∨ res.tus = [tu] := by
  unfold blamed at h
  cases hmarker : (lastWorkerTuMarker res.stderr).filter (· ∈ res.tus) with
  | some marker =>
      rw [hmarker] at h
      obtain rfl := Option.some.inj h
      obtain ⟨hlast, hin⟩ := Option.filter_eq_some_iff.mp hmarker
      exact Or.inl ⟨hlast, of_decide_eq_true hin⟩
  | none =>
      rw [hmarker] at h
      dsimp only at h
      split at h
      · rename_i only htus
        obtain rfl := Option.some.inj h
        exact Or.inr htus
      · cases h

/-- And a TU of the batch that was named is blamed. -/
theorem blamed_of_marker {res : BatchResult} {tu : Str}
    (hlast : lastWorkerTuMarker res.stderr = some tu) (hin : tu ∈ res.tus) : blamed res = some tu := by
  unfold blamed
  rw [Option.filter_eq_some_iff.mpr ⟨hlast, decide_eq_true hin⟩]

/-- **A batch is bisected on evidence exactly when a worker that finished named none.** -/
theorem collectEvents_agree (log : List Event) (s : Dispatch) (res : BatchResult) (accepted : Bool) :
    Along (fun before => EvidenceAt (log ++ before)) (collectEvents s res accepted) ↔
      Along (fun before => FinishedUnnamedAt (log ++ before)) (collectEvents s res accepted) := by
  by_cases haccepted : res.exitCode = 0 ∧ accepted = true
  · obtain ⟨hzero, rfl⟩ := haccepted
    rw [collectEvents_accepted s hzero]
    exact ⟨fun _ => along_nil, fun _ => along_nil⟩
  · rw [collectEvents_failed s haccepted]
    have hcount : ∀ tu, RedispatchedTwice (log ++ [.unreadable res]) tu ↔ RedispatchedTwice log tu := by
      intro tu
      unfold RedispatchedTwice
      rw [List.count_append, List.count_singleton, if_neg (by simp), Nat.add_zero]
    by_cases hzero : res.exitCode = 0
    · rw [if_pos hzero, List.singleton_append, along_cons, along_cons, List.append_nil]
      cases hblamed : blamed res with
      | none =>
          refine ⟨fun _ => ⟨fun tu hin hlast => ?_, along_nil⟩, fun _ => ⟨trivial, along_nil⟩⟩
          rw [blamed_of_marker hlast hin] at hblamed
          cases hblamed
      | some tu =>
          rw [Option.toList_some, List.map_singleton, along_singleton, along_singleton]
          change True ∧ Evidence (log ++ [.unreadable res]) tu (some res) ↔
            FinishedUnnamed log res ∧ True
          rw [true_and, and_true]
          constructor
          · rintro (⟨_, hres, ⟨hcode, -⟩ | halone⟩ | htwice) f hin hlast
            · exact absurd ((Option.some.inj hres) ▸ hzero) hcode
            · obtain rfl := Option.some.inj hres
              rw [blamed_of_marker hlast hin] at hblamed
              obtain rfl := Option.some.inj hblamed
              exact Or.inl halone
            · rw [blamed_of_marker hlast hin] at hblamed
              obtain rfl := Option.some.inj hblamed
              exact Or.inr ((hcount f).mp htwice)
          · intro hunnamed
            rcases blamed_some hblamed with ⟨hlast, hin⟩ | halone
            · rcases hunnamed tu hin hlast with halone | htwice
              · exact Or.inl ⟨res, rfl, Or.inr halone⟩
              · exact Or.inr ((hcount tu).mpr htwice)
            · exact Or.inl ⟨res, rfl, Or.inr halone⟩
    · rw [if_neg hzero, List.nil_append]
      cases hblamed : blamed res with
      | none => exact ⟨fun _ => along_nil, fun _ => along_nil⟩
      | some tu =>
          rw [Option.toList_some, List.map_singleton, along_singleton, along_singleton]
          refine ⟨fun _ => trivial, fun _ => Or.inl ⟨res, rfl, ?_⟩⟩
          rcases blamed_some hblamed with ⟨hlast, hin⟩ | halone
          · exact Or.inl ⟨hzero, hlast, hin⟩
          · exact Or.inr halone

/-! ### Runs -/

theorem loggedStep_counted {log : List Event} (h : Counted log s.retries)
    (hstep : LoggedStep workers s events t) : Counted (log ++ events) t.retries := by
  cases hstep with
  | take => rwa [List.append_nil]
  | finish => rwa [List.append_nil]
  | stop => rwa [List.append_nil]
  | requeue tus rest =>
      rw [retries_requeue]
      exact (countEvents_spec _ tus h).1
  | collect res rest accepted =>
      rw [retries_collect]
      have hsilent : ∀ tu, (collectEvents s res accepted).count (.again tu) = 0 := by
        intro tu
        unfold collectEvents
        rw [List.count_eq_zero, List.mem_append, not_or]
        refine ⟨?_, fun hmem => ?_⟩
        · split <;> simp
        · obtain ⟨_, -, heq⟩ := List.mem_map.mp hmem
          cases heq
      intro tu
      rw [List.count_append, hsilent, h tu]
      rfl

theorem counted_start (files : List Str) (workers batchSizeOverride : Nat) :
    Counted [] (dispatchStart files workers batchSizeOverride).retries := fun tu => by
  change 0 = min (UMap.getD ∅ tu 0) kMaxTuRetries
  rw [UMap.getD_empty]
  rfl

theorem loggedStep_agree {log : List Event} (h : Counted log s.retries)
    (hstep : LoggedStep workers s events t) :
    Along (fun before => EvidenceAt (log ++ before)) events ↔
      Along (fun before => FinishedUnnamedAt (log ++ before)) events := by
  cases hstep with
  | take => exact ⟨fun _ => along_nil, fun _ => along_nil⟩
  | finish => exact ⟨fun _ => along_nil, fun _ => along_nil⟩
  | stop => exact ⟨fun _ => along_nil, fun _ => along_nil⟩
  | requeue tus rest =>
      obtain ⟨-, hevidence, hunnamed⟩ := countEvents_spec [] tus h
      exact ⟨fun _ => hunnamed, fun _ => hevidence⟩
  | collect res rest accepted => exact collectEvents_agree log s res accepted

/-- The log has every call of `onPoison`, in order. -/
theorem LoggedRun.poisoned {files : List Str} {batchSizeOverride : Nat} {log : List Event}
    (h : LoggedRun files workers batchSizeOverride log s) :
    s.poisoned = log.filterMap Event.poisoned? := by
  refine h.invariant (I := fun log s => s.poisoned = log.filterMap Event.poisoned?) rfl ?_
  intro log events s t hs hstep
  rw [List.filterMap_append, ← hs]
  cases hstep with
  | take => exact (List.append_nil _).symm
  | finish => exact (List.append_nil _).symm
  | stop => exact (List.append_nil _).symm
  | requeue tus rest =>
      rw [poisoned_requeue]
      exact poisoned_countEvents _ _ tus
  | collect res rest accepted =>
      have hgrown : s.poisoned <+: (s.collect res accepted).poisoned := by
        unfold Dispatch.collect
        split
        · exact List.prefix_rfl
        · rw [poisoned_handleFailure]
          exact List.prefix_append _ _
      obtain ⟨new, hnew⟩ := hgrown
      have hquiet : (if res.exitCode = 0 ∧ accepted = false then [Event.unreadable res]
          else []).filterMap Event.poisoned? = [] := by
        split <;> rfl
      have hevents : (collectEvents s res accepted).filterMap Event.poisoned? = new := by
        unfold collectEvents
        rw [List.filterMap_append, hquiet, ← hnew, List.drop_left, List.nil_append,
          List.filterMap_map]
        exact List.filterMap_some
      rw [hevents, hnew]
      unfold Dispatch.collect Dispatch.handleFailure
      split
      · rfl
      · split
        · rfl
        · split <;> rfl

theorem unreadable_notMem_countEvents (res : BatchResult) (retries : UMap Str Nat) (tus : List Str) :
    .unreadable res ∉ countEvents retries tus := by
  induction tus generalizing retries with
  | nil => exact List.not_mem_nil
  | cons tu tus ih =>
      unfold countEvents
      dsimp only
      rw [List.mem_cons, not_or]
      refine ⟨?_, ih _⟩
      split <;> simp

/-- **The batch of a clean exit with an unreadable shard is split**, all of it, when it has more than
one TU and none of them was named last. -/
theorem LoggedStep.splits (h : LoggedStep workers s events t) {res : BatchResult}
    (hmem : .unreadable res ∈ events)
    (hunnamed : ∀ tu ∈ res.tus, lastWorkerTuMarker res.stderr ≠ some tu)
    (hlength : res.tus.length ≠ 1) :
    t.poisoned = s.poisoned ∧ t.pending.length = 2 ∧ t.pending.flatten = res.tus := by
  cases h with
  | take => cases hmem
  | finish => cases hmem
  | stop => cases hmem
  | requeue tus rest => exact absurd hmem (unreadable_notMem_countEvents res _ tus)
  | collect res' rest accepted =>
      have hunreadable : res = res' ∧ accepted = false := by
        unfold collectEvents at hmem
        rcases List.mem_append.mp hmem with hmem | hmem
        · split at hmem
          · rename_i hclean
            exact ⟨Event.unreadable.inj (List.mem_singleton.mp hmem), hclean.2⟩
          · cases hmem
        · obtain ⟨_, -, heq⟩ := List.mem_map.mp hmem
          cases heq
      obtain ⟨rfl, rfl⟩ := hunreadable
      have hmarker : (lastWorkerTuMarker res.stderr).filter (· ∈ res.tus) = none := by
        rw [Option.filter_eq_none_iff]
        exact fun tu hlast hin => hunnamed tu (of_decide_eq_true hin) hlast
      unfold Dispatch.collect Dispatch.handleFailure
      rw [if_neg (by simp), hmarker]
      dsimp only
      split
      · rename_i tu htus
        exact absurd (congrArg List.length htus) hlength
      · refine ⟨rfl, rfl, ?_⟩
        simp

/-- **In every run the TUs are poisoned on evidence exactly when no worker that finished named a TU
of an unreadable batch of several**, or one that had used up its retries anyway; and such a batch is
dispatched again in two halves. -/
theorem poisoned_on_evidence_iff (files : List Str) (workers batchSizeOverride : Nat) :
    (∀ s, Reachable files workers batchSizeOverride s ↔
      ∃ log, LoggedRun files workers batchSizeOverride log s) ∧
    (∀ log s, LoggedRun files workers batchSizeOverride log s →
      s.poisoned = log.filterMap Event.poisoned? ∧
        (Along EvidenceAt log ↔ Along FinishedUnnamedAt log)) ∧
    ∀ s events t, LoggedStep (workerCount workers) s events t → ∀ res, .unreadable res ∈ events →
      (∀ tu ∈ res.tus, lastWorkerTuMarker res.stderr ≠ some tu) → res.tus.length ≠ 1 →
        t.poisoned = s.poisoned ∧ t.pending.length = 2 ∧ t.pending.flatten = res.tus := by
  refine ⟨fun s => reachable_iff_logged, fun log s hrun => ⟨hrun.poisoned, ?_⟩,
    fun s events t hstep res hmem => hstep.splits hmem⟩
  exact hrun.along_iff (I := fun log s => Counted log s.retries)
    (counted_start files workers batchSizeOverride) loggedStep_counted loggedStep_agree

/-! ### A worker that finished -/

/-- What the run of one batch of `a` and `b` reports. -/
def ranBoth (exitCode : Int) : BatchResult where
  tus := [str "a", str "b"]
  exitCode
  stderr := some (str "WORKER-TU a\nWORKER-TU b\n")

theorem blamed_ranBoth (exitCode : Int) : blamed (ranBoth exitCode) = some (str "b") := rfl

/-- The batch is taken, run, and its shard is not accepted. -/
theorem loggedRun_ranBoth (exitCode : Int) :
    ∃ s, LoggedRun [str "a", str "b"] 1 2
      ((if exitCode = 0 then [.unreadable (ranBoth exitCode)] else []) ++
        [.poison (str "b") (some (ranBoth exitCode))]) s := by
  have htake : LoggedRun [str "a", str "b"] 1 2 ([] ++ []) _ :=
    Logged.start.step (LoggedStep.take [str "a", str "b"] [] rfl Nat.one_pos)
  have hfinish := htake.step (LoggedStep.finish [] [] (ranBoth exitCode) rfl)
  have hcollect := hfinish.step
    (LoggedStep.collect (ranBoth exitCode) [] false rfl Nat.one_ne_zero rfl rfl)
  rw [collectEvents_failed _ (by simp), blamed_ranBoth] at hcollect
  exact ⟨_, hcollect⟩

/-- The worker died while it parsed `b`. -/
theorem poisoned_in_flight :
    Along EvidenceAt [Event.poison (str "b") (some (ranBoth 139))] := by
  obtain ⟨s, hrun⟩ := loggedRun_ranBoth 139
  exact ((poisoned_on_evidence_iff [str "a", str "b"] 1 2).2.1 _ s hrun).2.mpr
    (along_singleton.mpr trivial)

/-- The worker finished both, its shard cannot be read, and `b` is poisoned. -/
theorem finished_tu_poisoned :
    ∃ log s, LoggedRun [str "a", str "b"] 1 2 log s ∧
      .poison (str "b") (some (ranBoth 0)) ∈ log ∧ ¬ Along EvidenceAt log := by
  obtain ⟨s, hrun⟩ := loggedRun_ranBoth 0
  refine ⟨_, s, hrun, by decide, fun hevidence => ?_⟩
  rcases hevidence [.unreadable (ranBoth 0)] (.poison (str "b") (some (ranBoth 0))) [] rfl with
    ⟨res, hres, ⟨hcode, -⟩ | halone⟩ | htwice
  · obtain rfl := Option.some.inj hres
    exact hcode rfl
  · obtain rfl := Option.some.inj hres
    exact absurd halone (by decide)
  · exact absurd htwice (by unfold RedispatchedTwice; decide)

end Vycor.WorkerPool
