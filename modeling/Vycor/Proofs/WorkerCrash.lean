/-
A crashing TU costs only itself.

The runner here processes a batch in order and prints each TU's marker before parsing it.
It dies at the first bad TU, and a batch without one is consumed.  So a failure always
names a bad TU, and the rest of the batch goes back into the queue with one retry used
up and one bad TU fewer.

That is the invariant: in every batch, what a TU has used up of its retries and the bad
TUs left in the batch stay within `kMaxTuRetries` together.  A healthy TU then never runs
out of retries, and the only TUs poisoned are the named ones.

The marker is a line, and the parent trims what it reads.  A bad TU whose name has a line
break, or a blank at either end, cannot be named by one, and then another TU can pay.
-/
import Mathlib.Data.List.Induction
import Vycor.Proofs.WorkerPool

namespace Vycor.WorkerPool

/-! ### The crashing runner

A worker parses its batch in order and dies at the first bad TU, which it has
named before. The dispatcher's steps are those of every runner, with these
results.
-/

/-- What a marker line begins with. -/
def markerWord : Str := str "WORKER-TU "

/-- A log to which the markers of `tus` were printed in order, among lines that are no
markers. -/
inductive Printed : List Str → Str → Prop
  | start : Printed [] []
  | marker {tus : List Str} {log : Str} (h : Printed tus log) (tu : Str) :
      Printed (tus ++ [tu]) (log ++ (markerWord ++ tu) ++ [10])
  | noise {tus : List Str} {log : Str} (h : Printed tus log) (line : Str) (hline : 10 ∉ line)
      (hquiet : markerWord.isPrefixOf? line = none) : Printed tus (log ++ line ++ [10])

/-- The TUs whose parse a worker starts: those before the first bad one, and that one. -/
def started (bad : Str → Bool) : List Str → List Str
  | [] => []
  | tu :: tus => if bad tu then [tu] else tu :: started bad tus

/-- What the runner reports for a batch.  The log of a worker that died may end in an
unfinished line. -/
def Ran (bad : Str → Bool) (res : BatchResult) : Prop :=
  if res.tus.any bad then
    res.exitCode ≠ 0 ∧ ∃ log line, Printed (started bad res.tus) log ∧ 10 ∉ line ∧
      markerWord.isPrefixOf? line = none ∧ res.stderr = some (log ++ line)
  else res.exitCode = 0

/-- A step of the dispatcher with this runner; `consumeShard` accepts what it writes. -/
inductive CrashStep (bad : Str → Bool) (workers : Nat) : Dispatch → Dispatch → Prop
  | take {s : Dispatch} (b : List Str) (rest : List (List Str)) (hwork : s.work = b :: rest)
      (hidle : s.running.length < workers) :
      CrashStep bad workers s { s with work := rest, running := s.running ++ [b] }
  | finish {s : Dispatch} (pre post : List (List Str)) (res : BatchResult)
      (hrun : s.running = pre ++ res.tus :: post) (hran : Ran bad res) :
      CrashStep bad workers s { s with running := pre ++ post, results := s.results ++ [res] }
  | collect {s : Dispatch} (res : BatchResult) (rest : List BatchResult)
      (hres : s.results = res :: rest) (hbusy : s.outstanding ≠ 0) (hpend : s.pending = [])
      (hgo : s.stop = false) :
      CrashStep bad workers s
        ({ s with results := rest, outstanding := s.outstanding - 1 }.collect res true)
  | requeue {s : Dispatch} (tus : List Str) (rest : List (List Str))
      (hpend : s.pending = tus :: rest) :
      CrashStep bad workers s ({ s with pending := rest }.requeue tus)
  | stop {s : Dispatch} (hidle : s.outstanding = 0) (hpend : s.pending = [])
      (hgo : s.stop = false) : CrashStep bad workers s { s with stop := true }

theorem CrashStep.step {bad : Str → Bool} {workers : Nat} {s t : Dispatch}
    (h : CrashStep bad workers s t) : Step workers s t := by
  cases h with
  | take b rest hwork hidle => exact Step.take b rest hwork hidle
  | finish pre post res hrun hran => exact Step.finish pre post res hrun
  | collect res rest hres hbusy hpend hgo => exact Step.collect res rest true hres hbusy hpend hgo
  | requeue tus rest hpend => exact Step.requeue tus rest hpend
  | stop hidle hpend hgo => exact Step.stop hidle hpend hgo

/-- The dispatcher's runs with this runner. -/
inductive CrashReachable (bad : Str → Bool) (files : List Str) (workers batchSizeOverride : Nat) :
    Dispatch → Prop
  | start : CrashReachable bad files workers batchSizeOverride
      (dispatchStart files workers batchSizeOverride)
  | step {s t : Dispatch} (hs : CrashReachable bad files workers batchSizeOverride s)
      (hstep : CrashStep bad (workerCount workers) s t) :
      CrashReachable bad files workers batchSizeOverride t

theorem CrashReachable.reachable {bad : Str → Bool} {files : List Str}
    {workers batchSizeOverride : Nat} {s : Dispatch}
    (h : CrashReachable bad files workers batchSizeOverride s) :
    Reachable files workers batchSizeOverride s := by
  induction h with
  | start => exact Reachable.start
  | step _ hstep ih => exact Reachable.step ih hstep.step

/-! ### Reading the marker back -/

/-- The loop of `lastWorkerTuMarker`, from any state. -/
def lastMarker (last : Option Str) (lines : List Str) : Option Str :=
  lines.foldl
    (fun last line =>
      match markerWord.isPrefixOf? line with
      | some rest => some (trim rest)
      | none => last)
    last

theorem lastWorkerTuMarker_some (text : Str) :
    lastWorkerTuMarker (some text) = lastMarker none (text.splitOn 10) := rfl

theorem lastMarker_append (last : Option Str) (a b : List Str) :
    lastMarker last (a ++ b) = lastMarker (lastMarker last a) b := List.foldl_append

theorem lastMarker_quiet (last : Option Str) {line : Str} (h : markerWord.isPrefixOf? line = none) :
    lastMarker last [line] = last := by
  show (match markerWord.isPrefixOf? line with
    | some rest => some (trim rest)
    | none => last) = last
  rw [h]

theorem lastMarker_marker (last : Option Str) (tu : Str) :
    lastMarker last [markerWord ++ tu] = some (trim tu) := by
  have h : markerWord.isPrefixOf? (markerWord ++ tu) = some tu := by
    rw [List.isPrefixOf?_eq_some_iff_append_eq]
  show (match markerWord.isPrefixOf? (markerWord ++ tu) with
    | some rest => some (trim rest)
    | none => last) = _
  rw [h]

/-- What a log of finished lines contributes before the lines after it are read. -/
theorem Printed.read {tus : List Str} {log : Str} (h : Printed tus log) :
    ∃ last, (∀ rest : Str, lastMarker none ((log ++ rest).splitOn 10)
        = lastMarker last (rest.splitOn 10)) ∧
      ∀ tu, tus.getLast? = some tu → 10 ∉ tu → last = some (trim tu) := by
  induction h with
  | start => exact ⟨none, fun rest => rfl, fun tu htu => by simp at htu⟩
  | @marker tus log h tu ih =>
      obtain ⟨last, hread, -⟩ := ih
      refine ⟨lastMarker last ((markerWord ++ tu).splitOn 10), ?_, ?_⟩
      · intro rest
        rw [List.append_assoc, List.append_assoc, hread, List.singleton_append,
          List.splitOn_append_cons_self, lastMarker_append]
      · intro tu' htu' hline
        obtain rfl : tu = tu' := by simpa using htu'
        have hword : (10 : UInt8) ∉ markerWord := by decide
        have hone : (markerWord ++ tu).splitOn 10 = [markerWord ++ tu] := by
          refine List.splitOn_eq_singleton ?_
          rw [List.mem_append]
          exact fun hc => hc.elim hword hline
        rw [hone, lastMarker_marker]
  | @noise tus log h line hline hquiet ih =>
      obtain ⟨last, hread, hlast⟩ := ih
      refine ⟨last, ?_, hlast⟩
      intro rest
      rw [List.append_assoc, List.append_assoc, hread, List.singleton_append,
        List.splitOn_append_cons_self, lastMarker_append, List.splitOn_eq_singleton hline,
        lastMarker_quiet last hquiet]

/-- A name that a marker line gives back. -/
def Nameable (tu : Str) : Prop := 10 ∉ tu ∧ trim tu = tu

theorem getLast?_started (bad : Str → Bool) (tus : List Str) (h : tus.any bad = true) :
    ∃ tu ∈ tus, bad tu = true ∧ (started bad tus).getLast? = some tu := by
  induction tus with
  | nil => simp at h
  | cons x rest ih =>
      unfold started
      by_cases hx : bad x = true
      · exact ⟨x, List.mem_cons_self, hx, by simp [hx]⟩
      · rw [if_neg hx]
        rw [List.any_cons] at h
        simp only [hx, Bool.false_or] at h
        obtain ⟨tu, hmem, hbad, hlast⟩ := ih h
        refine ⟨tu, List.mem_cons_of_mem _ hmem, hbad, ?_⟩
        rw [List.getLast?_cons, hlast]
        rfl

/-- A worker that died names a bad TU of its batch. -/
theorem Ran.marker {bad : Str → Bool} {res : BatchResult} (h : Ran bad res)
    (hbad : res.tus.any bad = true) (hname : ∀ tu ∈ res.tus, bad tu = true → Nameable tu) :
    res.exitCode ≠ 0 ∧ ∃ tu ∈ res.tus, bad tu = true ∧
      (lastWorkerTuMarker res.stderr).filter (· ∈ res.tus) = some tu := by
  rw [Ran, if_pos hbad] at h
  obtain ⟨hexit, log, line, hprinted, hline, hquiet, hstderr⟩ := h
  obtain ⟨tu, hmem, hb, hlast⟩ := getLast?_started bad res.tus hbad
  obtain ⟨hbreak, htrim⟩ := hname tu hmem hb
  obtain ⟨last, hread, hval⟩ := hprinted.read
  refine ⟨hexit, tu, hmem, hb, ?_⟩
  rw [hstderr, lastWorkerTuMarker_some, hread, List.splitOn_eq_singleton hline,
    lastMarker_quiet last hquiet, hval tu hlast hbreak, htrim]
  simp [hmem]

/-! ### Retries left

Each crash takes the bad TU it names off the batch, so a batch is dispatched again
at most once for each bad TU in it. With at most `kMaxTuRetries` bad TUs in an
initial batch no TU goes over the bound.
-/

/-- What the TUs of a batch have used up of their retries, what the batch still owes, and
the bad TUs in it stay within the bound. -/
def Spare (bad : Str → Bool) (retries : UMap Str Nat) (owed : Nat) (tus : List Str) : Prop :=
  ∀ tu ∈ tus, retries.getD tu 0 + owed + tus.countP bad ≤ kMaxTuRetries

/-- While no TU is over the bound, re-enqueueing poisons none. -/
theorem countRetries_spare :
    ∀ (tus : List Str) (retries : UMap Str Nat) (poisoned : List Str), tus.Nodup →
      (∀ tu ∈ tus, retries.getD tu 0 < kMaxTuRetries) →
      (countRetries retries poisoned tus).rest = tus ∧
      (countRetries retries poisoned tus).poisoned = poisoned ∧
      ∀ tu, (countRetries retries poisoned tus).retries.getD tu 0
        = retries.getD tu 0 + if tu ∈ tus then 1 else 0 := by
  intro tus
  induction tus with
  | nil => intro retries poisoned _ _; simp [countRetries]
  | cons x rest ih =>
      intro retries poisoned hnd hspare
      obtain ⟨hx, hrest⟩ := List.nodup_cons.mp hnd
      have hown := hspare x List.mem_cons_self
      set retries₁ : UMap Str Nat := AList.insert x (retries.getD x 0 + 1) retries with hr₁
      have hone : ∀ tu, retries₁.getD tu 0 = retries.getD tu 0 + if tu = x then 1 else 0 := by
        intro tu
        rw [hr₁, UMap.getD_insert]
        split
        · rename_i htu
          rw [htu]
        · rfl
      have hspare₁ : ∀ tu ∈ rest, retries₁.getD tu 0 < kMaxTuRetries := by
        intro tu htu
        have hne : tu ≠ x := fun hc => hx (hc ▸ htu)
        rw [hone, if_neg hne]
        exact hspare tu (List.mem_cons_of_mem _ htu)
      obtain ⟨hrestEq, hpoison, hretries⟩ := ih retries₁ poisoned hrest hspare₁
      have hover : ¬ retries.getD x 0 + 1 > kMaxTuRetries := by omega
      rw [countRetries]
      simp only [if_neg hover, ← hr₁]
      refine ⟨by rw [hrestEq], hpoison, ?_⟩
      intro tu
      rw [hretries, hone]
      by_cases htu : tu = x
      · simp [htu, hx]
      · simp [htu]

theorem Spare.of_retries {bad : Str → Bool} {retries retries' : UMap Str Nat} {owed : Nat}
    {tus : List Str} (h : Spare bad retries owed tus)
    (hsame : ∀ tu ∈ tus, retries'.getD tu 0 = retries.getD tu 0) : Spare bad retries' owed tus := by
  intro tu htu
  rw [hsame tu htu]
  exact h tu htu

/-- Taking the named bad TU off a batch pays for the retry the others are about to use. -/
theorem Spare.filter_ne {bad : Str → Bool} {retries : UMap Str Nat} {tus : List Str} {tu : Str}
    (h : Spare bad retries 0 tus) (htu : tu ∈ tus) (hbad : bad tu = true) :
    Spare bad retries 1 (tus.filter (· ≠ tu)) := by
  have hfewer : (tus.filter (· ≠ tu)).countP bad < tus.countP bad := by
    rw [List.countP_eq_length_filter, List.countP_eq_length_filter, List.filter_comm]
    refine List.length_filter_lt_length_iff_exists.mpr ?_
    exact ⟨tu, List.mem_filter.mpr ⟨htu, hbad⟩, by simp⟩
  intro x hx
  have := h x (List.mem_filter.mp hx).1
  omega

/-! ### The invariant -/

/-- What holds of every state: no batch is out of retries, a finished batch is one the
runner ran, and each decided TU was decided for what it is. -/
structure CrashInv (bad : Str → Bool) (s : Dispatch) : Prop where
  queued : ∀ b ∈ s.work ++ s.running ++ s.results.map (·.tus), Spare bad s.retries 0 b
  pending : ∀ g ∈ s.pending, Spare bad s.retries 1 g
  ran : ∀ res ∈ s.results, Ran bad res
  consumed : ∀ f ∈ s.consumed.flatten, bad f = false
  poisoned : ∀ f ∈ s.poisoned, bad f = true

theorem crashInv_start {bad : Str → Bool} {files : List Str} {workers batchSizeOverride : Nat}
    (hbatches : ∀ b ∈ (dispatchStart files workers batchSizeOverride).work,
      b.countP bad ≤ kMaxTuRetries) :
    CrashInv bad (dispatchStart files workers batchSizeOverride) := by
  refine ⟨?_, ?_, ?_, ?_, ?_⟩
  · intro b hb tu _
    have hwork : b ∈ (dispatchStart files workers batchSizeOverride).work := by
      simpa [dispatchStart] using hb
    have hzero : (dispatchStart files workers batchSizeOverride).retries.getD tu 0 = 0 := rfl
    rw [hzero]
    have := hbatches b hwork
    omega
  · intro g hg
    simp [dispatchStart] at hg
  · intro res hres
    simp [dispatchStart] at hres
  · intro f hf
    simp [dispatchStart] at hf
  · intro f hf
    simp [dispatchStart] at hf

/-- A TU is in one batch only. -/
theorem Inv.apart {files : List Str} (hnd : files.Nodup) {s : Dispatch} (h : Inv files s)
    {tus : List Str} {rest : List (List Str)} (hpend : s.pending = tus :: rest) {f : Str}
    (hf : f ∈ tus) :
    f ∉ (s.work ++ s.running ++ s.results.map (·.tus)).flatten ∧ f ∉ rest.flatten := by
  have hle := List.nodup_iff_count_le_one.mp hnd f
  have hcount := h.conserved f
  have hpos := List.count_pos_iff.mpr hf
  simp only [Dispatch.inPlay, hpend, List.flatten_cons, List.count_append] at hcount
  refine ⟨?_, List.count_eq_zero.mp (by omega)⟩
  rw [List.flatten_append, List.flatten_append]
  refine List.count_eq_zero.mp ?_
  rw [List.count_append, List.count_append]
  omega

theorem crashInv_requeue {bad : Str → Bool} {files : List Str} (hnd : files.Nodup)
    {s : Dispatch} {tus : List Str} {rest : List (List Str)} (h : Inv files s)
    (hc : CrashInv bad s) (hpend : s.pending = tus :: rest) :
    CrashInv bad ({ s with pending := rest }.requeue tus) := by
  have hspare : Spare bad s.retries 1 tus := hc.pending tus (by rw [hpend]; exact List.mem_cons_self)
  have htus : tus.Nodup := by
    refine List.nodup_iff_count_le_one.mpr fun f => ?_
    have hf := h.conserved f
    have hle := List.nodup_iff_count_le_one.mp hnd f
    simp only [Dispatch.inPlay, hpend, List.flatten_cons, List.count_append] at hf
    omega
  have hunder : ∀ tu ∈ tus, s.retries.getD tu 0 < kMaxTuRetries := by
    intro tu htu
    have := hspare tu htu
    omega
  obtain ⟨hrest, hpoison, hretries⟩ := countRetries_spare tus s.retries s.poisoned htus hunder
  set retries' := (countRetries s.retries s.poisoned tus).retries with hr
  -- The other batches hold none of these TUs, so their counts stand.
  have hothers : ∀ b ∈ s.work ++ s.running ++ s.results.map (·.tus), Spare bad retries' 0 b := by
    intro b hb
    refine (hc.queued b hb).of_retries ?_
    intro tu htu
    have hnot : tu ∉ tus := fun hin =>
      (h.apart hnd hpend hin).1 (List.mem_flatten.mpr ⟨b, hb, htu⟩)
    rw [hretries, if_neg hnot, Nat.add_zero]
  have hgroups : ∀ g ∈ rest, Spare bad retries' 1 g := by
    intro g hg
    refine (hc.pending g (by rw [hpend]; exact List.mem_cons_of_mem _ hg)).of_retries ?_
    intro tu htu
    have hnot : tu ∉ tus := fun hin =>
      (h.apart hnd hpend hin).2 (List.mem_flatten.mpr ⟨g, hg, htu⟩)
    rw [hretries, if_neg hnot, Nat.add_zero]
  have hbatch : Spare bad retries' 0 tus := by
    intro tu htu
    have := hspare tu htu
    rw [hretries, if_pos htu]
    omega
  unfold Dispatch.requeue
  simp only [hrest, hpoison, ← hr]
  split
  · exact ⟨hothers, hgroups, hc.ran, hc.consumed, hc.poisoned⟩
  · refine ⟨?_, hgroups, hc.ran, hc.consumed, hc.poisoned⟩
    intro b hb
    rw [List.append_assoc, List.append_assoc, List.mem_append, List.mem_append] at hb
    rcases hb with hb | hb | hb
    · exact hothers b (by simp [hb])
    · rw [List.mem_singleton.mp hb]
      exact hbatch
    · exact hothers b (by rw [List.append_assoc]; exact List.mem_append_right _ hb)

theorem crashInv_collect {bad : Str → Bool} {s : Dispatch} {res : BatchResult}
    {rest : List BatchResult} (hc : CrashInv bad s) (hres : s.results = res :: rest)
    (hpend : s.pending = []) (hname : ∀ tu ∈ res.tus, bad tu = true → Nameable tu) :
    CrashInv bad
      ({ s with results := rest, outstanding := s.outstanding - 1 }.collect res true) := by
  have hran : Ran bad res := hc.ran res (by rw [hres]; exact List.mem_cons_self)
  have hspare : Spare bad s.retries 0 res.tus := hc.queued res.tus (by simp [hres])
  have hqueued : ∀ b ∈ s.work ++ s.running ++ rest.map (·.tus), Spare bad s.retries 0 b := by
    intro b hb
    refine hc.queued b ?_
    rw [hres, List.map_cons]
    rw [List.mem_append] at hb ⊢
    exact hb.imp id (List.mem_cons_of_mem _)
  have hrest : ∀ r ∈ rest, Ran bad r := fun r hr =>
    hc.ran r (by rw [hres]; exact List.mem_cons_of_mem _ hr)
  unfold Dispatch.collect
  by_cases hbad : res.tus.any bad = true
  · obtain ⟨hexit, tu, hmem, hb, hmarker⟩ := hran.marker hbad hname
    have hnot : ¬ (res.exitCode = 0 ∧ true = true) := fun h => hexit h.1
    rw [if_neg hnot]
    unfold Dispatch.handleFailure
    rw [hmarker]
    refine ⟨hqueued, ?_, hrest, hc.consumed, ?_⟩
    · intro g hg
      rw [List.mem_singleton.mp hg]
      exact hspare.filter_ne hmem hb
    · intro f hf
      rcases List.mem_append.mp hf with hf | hf
      · exact hc.poisoned f hf
      · rw [List.mem_singleton.mp hf]
        exact hb
  · rw [Ran, if_neg hbad] at hran
    rw [if_pos ⟨hran, rfl⟩]
    refine ⟨hqueued, ?_, hrest, ?_, hc.poisoned⟩
    · intro g hg
      have hg : g ∈ s.pending := hg
      rw [hpend] at hg
      simp at hg
    · intro f hf
      rw [List.flatten_append, List.mem_append] at hf
      rcases hf with hf | hf
      · exact hc.consumed f hf
      · have hf : f ∈ res.tus := by simpa using hf
        by_contra hc
        exact hbad (List.any_eq_true.mpr ⟨f, hf, by simpa using hc⟩)

theorem crashStep_inv {bad : Str → Bool} {files : List Str} (hnd : files.Nodup)
    (hname : ∀ f ∈ files, bad f = true → Nameable f) {workers : Nat} {s t : Dispatch}
    (hstep : CrashStep bad workers s t) (h : Inv files s) (hc : CrashInv bad s) :
    CrashInv bad t := by
  cases hstep with
  | take b rest hwork hidle =>
      refine ⟨?_, hc.pending, hc.ran, hc.consumed, hc.poisoned⟩
      intro x hx
      refine hc.queued x ?_
      rw [hwork]
      simp only [List.mem_append, List.mem_cons, List.not_mem_nil, or_false] at hx ⊢
      tauto
  | finish pre post res hrun hran =>
      refine ⟨?_, hc.pending, ?_, hc.consumed, hc.poisoned⟩
      · intro x hx
        refine hc.queued x ?_
        rw [hrun]
        simp only [List.map_append, List.map_cons, List.map_nil, List.mem_append, List.mem_cons,
          List.not_mem_nil, or_false] at hx ⊢
        tauto
      · intro r hr
        rcases List.mem_append.mp hr with hr | hr
        · exact hc.ran r hr
        · rw [List.mem_singleton.mp hr]
          exact hran
  | collect res rest hres hbusy hpend hgo =>
      refine crashInv_collect hc hres hpend fun tu htu hb => hname tu ?_ hb
      -- The batch is part of the selection.
      have hcount := h.conserved tu
      have hpos := List.count_pos_iff.mpr htu
      simp only [Dispatch.inPlay, hres, List.map_cons, List.flatten_cons,
        List.count_append] at hcount
      exact List.count_pos_iff.mp (by omega)
  | requeue tus rest hpend => exact crashInv_requeue hnd h hc hpend
  | stop hidle hpend hgo => exact ⟨hc.queued, hc.pending, hc.ran, hc.consumed, hc.poisoned⟩

theorem CrashReachable.crashInv {bad : Str → Bool} {files : List Str} (hnd : files.Nodup)
    (hname : ∀ f ∈ files, bad f = true → Nameable f) {workers batchSizeOverride : Nat}
    (hbatches : ∀ b ∈ (dispatchStart files workers batchSizeOverride).work,
      b.countP bad ≤ kMaxTuRetries)
    {s : Dispatch} (h : CrashReachable bad files workers batchSizeOverride s) : CrashInv bad s := by
  induction h with
  | start => exact crashInv_start hbatches
  | step hs hstep ih => exact crashStep_inv hnd hname hstep (reachable_inv hnd hs.reachable) ih

/-! ### Every run ends -/

/-- Whatever the names are, there is a log with their markers. -/
theorem exists_printed (tus : List Str) : ∃ log, Printed tus log := by
  induction tus using List.reverseRecOn with
  | nil => exact ⟨_, Printed.start⟩
  | append_singleton rest tu ih =>
      obtain ⟨log, hlog⟩ := ih
      exact ⟨_, hlog.marker tu⟩

theorem exists_ran (bad : Str → Bool) (tus : List Str) :
    ∃ res : BatchResult, res.tus = tus ∧ Ran bad res := by
  by_cases hbad : tus.any bad = true
  · obtain ⟨log, hlog⟩ := exists_printed (started bad tus)
    refine ⟨⟨tus, 1, some log⟩, rfl, ?_⟩
    rw [Ran, if_pos hbad]
    exact ⟨by simp, log, [], hlog, List.not_mem_nil, rfl, by rw [List.append_nil]⟩
  · refine ⟨⟨tus, 0, none⟩, rfl, ?_⟩
    rw [Ran, if_neg hbad]

theorem exists_crashStep {files : List Str} {workers : Nat} (hworkers : 0 < workers)
    (bad : Str → Bool) {s : Dispatch} (h : Inv files s) (hgo : s.stop = false) :
    ∃ t, CrashStep bad workers s t := by
  cases hpend : s.pending with
  | cons tus rest => exact ⟨_, CrashStep.requeue tus rest hpend⟩
  | nil =>
      by_cases hidle : s.outstanding = 0
      · exact ⟨_, CrashStep.stop hidle hpend hgo⟩
      cases hres : s.results with
      | cons res rest => exact ⟨_, CrashStep.collect res rest hres hidle hpend hgo⟩
      | nil =>
          cases hrun : s.running with
          | cons b post =>
              obtain ⟨res, rfl, hran⟩ := exists_ran bad b
              exact ⟨_, CrashStep.finish [] post res hrun hran⟩
          | nil =>
              cases hwork : s.work with
              | cons b rest =>
                  exact ⟨_, CrashStep.take b rest hwork (by simpa [hrun] using hworkers)⟩
              | nil =>
                  have := h.outstanding
                  simp [hwork, hrun, hres] at this
                  exact absurd this hidle

/-- When the dispatcher is done, it has poisoned the bad TUs, each once, and every other
TU is in exactly one consumed batch. -/
def CostsOnlyItself (bad : Str → Bool) (files : List Str) (s : Dispatch) : Prop :=
  (∀ f, s.poisoned.count f = if f ∈ files ∧ bad f = true then 1 else 0) ∧
    ∀ f ∈ files, bad f = false → s.consumed.countP (f ∈ ·) = 1

theorem CrashInv.costsOnlyItself {bad : Str → Bool} {files : List Str} (hnd : files.Nodup)
    {s : Dispatch} (h : Inv files s) (hc : CrashInv bad s) (hstop : s.stop = true) :
    CostsOnlyItself bad files s := by
  have hhealthy : ∀ f, bad f = false → s.poisoned.count f = 0 := by
    intro f hf
    refine List.count_eq_zero.mpr fun hmem => ?_
    have := hc.poisoned f hmem
    rw [hf] at this
    exact Bool.false_ne_true this
  have hsettled := fun f (hf : f ∈ files) => settled_of_stopped hnd h hstop hf
  refine ⟨?_, ?_⟩
  · intro f
    by_cases hf : f ∈ files
    · by_cases hb : bad f = true
      · rw [if_pos ⟨hf, hb⟩]
        rcases hsettled f hf with ⟨hone, -⟩ | ⟨-, hone⟩
        · -- A consumed batch holds no bad TU.
          obtain ⟨b, hmem, hfb⟩ := List.countP_pos_iff.mp (by omega : 0 < s.consumed.countP (f ∈ ·))
          have := hc.consumed f (List.mem_flatten.mpr ⟨b, hmem, by simpa using hfb⟩)
          rw [hb] at this
          exact absurd this Bool.noConfusion
        · exact hone
      · rw [if_neg fun hboth => hb hboth.2]
        exact hhealthy f (by simpa using hb)
    · rw [if_neg fun hboth => hf hboth.1]
      have hcount := h.conserved f
      rw [List.count_eq_zero.mpr hf, Dispatch.decided, List.count_append] at hcount
      omega
  · intro f hf hb
    have hzero := hhealthy f hb
    rcases hsettled f hf with ⟨hone, -⟩ | ⟨-, hone⟩
    · exact hone
    · omega

/-- **A crashing TU costs only itself.**  Whatever the order in which batches finish, no
run goes on forever, a run that cannot go on has stopped the threads, and then, where
every initial batch has at most `kMaxTuRetries` bad TUs and each of these can be named on
a marker line, exactly the bad TUs were poisoned and every other TU was consumed once. -/
theorem crash_costs_only_itself (files : List Str) (hnd : files.Nodup)
    (workers batchSizeOverride : Nat) (bad : Str → Bool)
    (hbatches : ∀ b ∈ (dispatchStart files workers batchSizeOverride).work,
      b.countP bad ≤ kMaxTuRetries)
    (hname : ∀ f ∈ files, bad f = true → Nameable f) :
    (¬ ∃ run : Nat → Dispatch, run 0 = dispatchStart files workers batchSizeOverride ∧
        ∀ n, CrashStep bad (workerCount workers) (run n) (run (n + 1))) ∧
    ∀ s, CrashReachable bad files workers batchSizeOverride s →
      (∀ t, ¬ CrashStep bad (workerCount workers) s t) →
      s.stop = true ∧ CostsOnlyItself bad files s := by
  refine ⟨?_, ?_⟩
  · rintro ⟨run, -, hrun⟩
    exact no_infinite_run run fun n => (hrun n).step
  · intro s hs hstuck
    have hinv := reachable_inv hnd hs.reachable
    have hstop : s.stop = true := by
      by_contra hc
      obtain ⟨t, ht⟩ := exists_crashStep (workerCount_pos workers) bad hinv (by simpa using hc)
      exact hstuck t ht
    exact ⟨hstop, (hs.crashInv hnd hname hbatches).costsOnlyItself hnd hinv hstop⟩

/-- Four files in one batch, the first and the last of them bad. -/
theorem crash_costs_only_itself_two_bad :
    (¬ ∃ run : Nat → Dispatch, run 0 = dispatchStart [[97], [98], [99], [100]] 1 4 ∧
        ∀ n, CrashStep (· ∈ [[97], [100]]) (workerCount 1) (run n) (run (n + 1))) ∧
    ∀ s, CrashReachable (· ∈ [[97], [100]]) [[97], [98], [99], [100]] 1 4 s →
      (∀ t, ¬ CrashStep (· ∈ [[97], [100]]) (workerCount 1) s t) →
      s.stop = true ∧ CostsOnlyItself (· ∈ [[97], [100]]) [[97], [98], [99], [100]] s :=
  crash_costs_only_itself [[97], [98], [99], [100]] (by decide) 1 4 (· ∈ [[97], [100]])
    (by decide) (by unfold Nameable; decide)

/-- A file and the same name with a blank after it, which is the bad one: the marker that
names it is read back as the other's. -/
theorem crash_poisons_healthy_neighbour :
    ¬ ∀ (files : List Str) (workers batchSizeOverride : Nat) (bad : Str → Bool), files.Nodup →
      (∀ b ∈ (dispatchStart files workers batchSizeOverride).work,
        b.countP bad ≤ kMaxTuRetries) →
      ∀ s, CrashReachable bad files workers batchSizeOverride s → s.stop = true →
        CostsOnlyItself bad files s := by
  intro hclaim
  let w : Str := [119]
  let blank : Str := [119, 32]
  let bad : Str → Bool := (· == blank)
  let both : BatchResult :=
    ⟨[w, blank], 1, some (markerWord ++ w ++ [10] ++ (markerWord ++ blank) ++ [10])⟩
  let alone : BatchResult := ⟨[blank], 1, some (markerWord ++ blank ++ [10])⟩
  have hboth : Ran bad both :=
    ⟨by decide, _, [], (Printed.start.marker w).marker blank, List.not_mem_nil, rfl, rfl⟩
  have halone : Ran bad alone :=
    ⟨by decide, _, [], Printed.start.marker blank, List.not_mem_nil, rfl, rfl⟩
  have h₀ : CrashReachable bad [w, blank] 1 2 _ := CrashReachable.start
  have h₁ := h₀.step (CrashStep.take [w, blank] [] rfl (by decide))
  have h₂ := h₁.step (CrashStep.finish [] [] both rfl hboth)
  have h₃ := h₂.step (CrashStep.collect both [] rfl (by decide) rfl rfl)
  have h₄ := h₃.step (CrashStep.requeue [blank] [] (by decide))
  have h₅ := h₄.step (CrashStep.take [blank] [] (by decide) (by decide))
  have h₆ := h₅.step (CrashStep.finish [] [] alone (by decide) halone)
  have h₇ := h₆.step (CrashStep.collect alone [] (by decide) (by decide) (by decide) (by decide))
  have h₈ := h₇.step (CrashStep.stop (by decide) (by decide) (by decide))
  have hcost := (hclaim _ 1 2 bad (by decide) (by decide) _ h₈ rfl).1 w
  revert hcost
  decide

end Vycor.WorkerPool
