/-
The dispatcher conserves translation units.

Every TU of the selection is in exactly one place: in a queued, running or finished
batch, in a group waiting to be re-enqueued, in a consumed batch, or poisoned.
`Inv.conserved` counts it over all of them, and each critical section moves it from one
to another.  A poisoned TU leaves the batch that named it only because TUs of a batch
are distinct, which the count itself says when the selection has no duplicates.

Termination is the measure

    μ(s) = 5·queued + 4·running + 3·finished + pending + [not stopped]
             + 5 · Σ (3 - retries of tu)    over the TUs still in play.

Taking, finishing and collecting a batch lower the first line; only `requeue` raises
it, and the batch it adds is paid for by the TUs in it, each of which has used up one
more of its retries.
-/
import Mathlib.Tactic.Linarith
import Vycor.Model.WorkerPool

namespace Vycor.WorkerPool

/-! ### Where the TUs are

At any time a TU is waiting, with a worker, or decided, and in one of these
places only.
-/

/-- TUs that have not been decided yet. -/
def Dispatch.inPlay (s : Dispatch) : List Str :=
  s.work.flatten ++ s.running.flatten ++ (s.results.map (·.tus)).flatten ++ s.pending.flatten

/-- TUs that have been decided: consumed or poisoned. -/
def Dispatch.decided (s : Dispatch) : List Str :=
  s.consumed.flatten ++ s.poisoned

/-- The invariant of the dispatcher. -/
structure Inv (files : List Str) (s : Dispatch) : Prop where
  /-- Each file is in exactly as many places as it was selected. -/
  conserved : ∀ f, s.inPlay.count f + s.decided.count f = files.count f
  outstanding : s.outstanding = s.work.length + s.running.length + s.results.length
  stopped : s.stop = true → s.outstanding = 0 ∧ s.pending = []

theorem flatten_splitBatches {batchSize : Nat} (hpos : 0 < batchSize) :
    ∀ (fuel : Nat) (files : List Str), files.length ≤ fuel →
      (splitBatches batchSize fuel files).flatten = files := by
  intro fuel
  induction fuel with
  | zero =>
      intro files hlen
      have : files = [] := List.length_eq_zero_iff.mp (Nat.le_zero.mp hlen)
      subst this
      rfl
  | succ fuel ih =>
      intro files hlen
      cases files with
      | nil => rfl
      | cons f files =>
          have hshort : ((f :: files).drop batchSize).length ≤ fuel := by
            rw [List.length_cons] at hlen
            rw [List.length_drop, List.length_cons]
            omega
          show (f :: files).take batchSize
            ++ (splitBatches batchSize fuel ((f :: files).drop batchSize)).flatten = f :: files
          rw [ih _ hshort, List.take_append_drop]

theorem batchSizeOf_pos (files : List Str) (workers batchSizeOverride : Nat) :
    0 < batchSizeOf files workers batchSizeOverride := by
  unfold batchSizeOf
  split <;> omega

theorem inv_start (files : List Str) (workers batchSizeOverride : Nat) :
    Inv files (dispatchStart files workers batchSizeOverride) := by
  have hflat := flatten_splitBatches
    (batchSizeOf_pos files (workerCount workers) batchSizeOverride) files.length files (Nat.le_refl _)
  refine ⟨?_, ?_, ?_⟩
  · intro f
    simp [Dispatch.inPlay, Dispatch.decided, dispatchStart, hflat]
  · simp [dispatchStart]
  · intro hstop
    have : files = [] := by simpa [dispatchStart] using hstop
    subst this
    simp [dispatchStart, splitBatches]

/-! ### Re-enqueueing -/

theorem countRetries_count (f : Str) :
    ∀ (tus : List Str) (retries : UMap Str Nat) (poisoned : List Str),
      (countRetries retries poisoned tus).rest.count f
        + (countRetries retries poisoned tus).poisoned.count f
      = tus.count f + poisoned.count f := by
  intro tus
  induction tus with
  | nil => intro retries poisoned; simp [countRetries]
  | cons tu tus ih =>
      intro retries poisoned
      rw [countRetries]
      by_cases hn : retries.getD tu 0 + 1 > kMaxTuRetries
      · simp only [if_pos hn]
        rw [ih]
        simp only [List.count_append, List.count_cons, List.count_nil]
        omega
      · simp only [if_neg hn]
        have := ih (retries.insert tu (retries.getD tu 0 + 1)) poisoned
        simp only [List.count_cons]
        omega

theorem inv_requeue {files : List Str} {s : Dispatch} {tus : List Str} {rest : List (List Str)}
    (h : Inv files s) (hpend : s.pending = tus :: rest) :
    Inv files ({ s with pending := rest }.requeue tus) := by
  have hcount := fun f => countRetries_count f tus s.retries s.poisoned
  have hgo : s.stop = false := by
    by_contra hc
    have := (h.stopped (by simpa using hc)).2
    rw [hpend] at this
    simp at this
  unfold Dispatch.requeue
  by_cases hrest : (countRetries s.retries s.poisoned tus).rest = []
  · simp only [hrest, if_pos]
    refine ⟨?_, h.outstanding, ?_⟩
    · intro f
      have hf := h.conserved f
      have hc := hcount f
      simp only [Dispatch.inPlay, Dispatch.decided, hpend, hrest, List.flatten_cons,
        List.count_append, List.count_nil] at hf hc ⊢
      omega
    · intro hstop
      simp only at hstop
      rw [hgo] at hstop
      simp at hstop
  · simp only [hrest, if_false]
    refine ⟨?_, ?_, ?_⟩
    · intro f
      have hf := h.conserved f
      have hc := hcount f
      simp only [Dispatch.inPlay, Dispatch.decided, hpend, List.flatten_cons,
        List.flatten_append, List.flatten_nil, List.append_nil, List.count_append] at hf hc ⊢
      omega
    · have := h.outstanding
      simp only [List.length_append, List.length_singleton]
      omega
    · intro hstop
      simp only at hstop
      rw [hgo] at hstop
      simp at hstop

/-! ### Collecting a finished batch -/

theorem count_filter_ne (f marker : Str) (tus : List Str) :
    (tus.filter (· ≠ marker)).count f = if f = marker then 0 else tus.count f := by
  by_cases hf : f = marker
  · subst hf
    rw [if_pos rfl]
    exact List.count_eq_zero.mpr (by simp)
  · rw [if_neg hf, List.count_filter]
    simpa using hf

/-- Bisecting a batch of distinct TUs decides some of them and puts the rest back in
play. -/
theorem handleFailure_count (s : Dispatch) (res : BatchResult) (hpend : s.pending = [])
    (hnd : res.tus.Nodup) (f : Str) :
    (s.handleFailure res).inPlay.count f + (s.handleFailure res).decided.count f
      = s.inPlay.count f + s.decided.count f + res.tus.count f := by
  have hle : res.tus.count f ≤ 1 := List.nodup_iff_count_le_one.mp hnd f
  unfold Dispatch.handleFailure
  cases hm : (lastWorkerTuMarker res.stderr).filter (· ∈ res.tus) with
  | some marker =>
      have hmem : marker ∈ res.tus := by
        have := (Option.filter_eq_some_iff.mp hm).2
        simpa using this
      have hone : res.tus.count marker = 1 := List.count_eq_one_of_mem hnd hmem
      simp only [Dispatch.inPlay, Dispatch.decided, hpend, List.flatten_cons, List.flatten_nil,
        List.append_nil, List.count_append, List.count_cons, List.count_nil,
        count_filter_ne]
      by_cases hf : f = marker
      · subst hf
        simp [hone]
        omega
      · simp [hf, Ne.symm hf]
        omega
  | none =>
      dsimp only
      split
      · rename_i tu heq
        simp only [Dispatch.inPlay, Dispatch.decided, hpend, heq, List.count_append]
        omega
      · simp only [Dispatch.inPlay, Dispatch.decided, hpend, List.flatten_cons, List.flatten_nil,
          List.append_nil, List.take_append_drop, List.count_append]
        omega

/-- Collecting touches neither the queues nor their counter. -/
theorem collect_queues (s : Dispatch) (res : BatchResult) (accepted : Bool) :
    (s.collect res accepted).work = s.work ∧ (s.collect res accepted).running = s.running ∧
      (s.collect res accepted).results = s.results ∧
      (s.collect res accepted).outstanding = s.outstanding ∧
      (s.collect res accepted).retries = s.retries ∧
      (s.collect res accepted).stop = s.stop := by
  unfold Dispatch.collect
  split
  · exact ⟨rfl, rfl, rfl, rfl, rfl, rfl⟩
  · unfold Dispatch.handleFailure
    split
    · exact ⟨rfl, rfl, rfl, rfl, rfl, rfl⟩
    · split <;> exact ⟨rfl, rfl, rfl, rfl, rfl, rfl⟩

theorem collect_count (s : Dispatch) (res : BatchResult) (accepted : Bool)
    (hpend : s.pending = []) (hnd : res.tus.Nodup) (f : Str) :
    (s.collect res accepted).inPlay.count f + (s.collect res accepted).decided.count f
      = s.inPlay.count f + s.decided.count f + res.tus.count f := by
  unfold Dispatch.collect
  split
  · simp only [Dispatch.inPlay, Dispatch.decided, List.flatten_append, List.flatten_cons,
      List.flatten_nil, List.append_nil, List.count_append]
    omega
  · exact handleFailure_count s res hpend hnd f

/-- A batch holds each TU once: it is part of a selection that does. -/
theorem Inv.batch_nodup {files : List Str} {s : Dispatch} (h : Inv files s) (hnd : files.Nodup)
    {res : BatchResult} {rest : List BatchResult} (hres : s.results = res :: rest) :
    res.tus.Nodup := by
  refine List.nodup_iff_count_le_one.mpr fun f => ?_
  have hf := h.conserved f
  have hle := List.nodup_iff_count_le_one.mp hnd f
  simp only [Dispatch.inPlay, hres, List.map_cons, List.flatten_cons, List.count_append] at hf
  omega

theorem inv_collect {files : List Str} (hnd : files.Nodup) {s : Dispatch} {res : BatchResult}
    {rest : List BatchResult} (accepted : Bool) (h : Inv files s)
    (hres : s.results = res :: rest) (hpend : s.pending = []) (hgo : s.stop = false) :
    Inv files ({ s with results := rest, outstanding := s.outstanding - 1 }.collect res accepted) := by
  set popped : Dispatch := { s with results := rest, outstanding := s.outstanding - 1 } with hpop
  obtain ⟨hwork, hrun, hresults, hout, -, hstop⟩ := collect_queues popped res accepted
  refine ⟨?_, ?_, ?_⟩
  · intro f
    have hf := h.conserved f
    rw [collect_count popped res accepted hpend (h.batch_nodup hnd hres)]
    simp only [hpop, Dispatch.inPlay, Dispatch.decided, hres, List.map_cons, List.flatten_cons,
      List.count_append] at hf ⊢
    omega
  · have := h.outstanding
    rw [hres, List.length_cons] at this
    rw [hwork, hrun, hresults, hout]
    show s.outstanding - 1 = s.work.length + s.running.length + rest.length
    omega
  · intro hc
    rw [hstop] at hc
    simp [hpop, hgo] at hc

/-! ### Every critical section keeps the invariant -/

theorem step_inv {files : List Str} (hnd : files.Nodup) {workers : Nat} {s t : Dispatch}
    (hstep : Step workers s t) (h : Inv files s) : Inv files t := by
  cases hstep with
  | take b rest hwork hidle =>
      have hgo : s.stop = false := by
        by_contra hc
        have h0 := (h.stopped (by simpa using hc)).1
        rw [h.outstanding, hwork, List.length_cons] at h0
        omega
      refine ⟨?_, ?_, by simp [hgo]⟩
      · intro f
        have hf := h.conserved f
        simp only [Dispatch.inPlay, Dispatch.decided, hwork, List.flatten_cons,
          List.flatten_append, List.flatten_nil, List.append_nil, List.count_append] at hf ⊢
        omega
      · have := h.outstanding
        rw [hwork, List.length_cons] at this
        simp only [List.length_append, List.length_singleton]
        omega
  | finish pre post res hrun =>
      have hgo : s.stop = false := by
        by_contra hc
        have h0 := (h.stopped (by simpa using hc)).1
        rw [h.outstanding, hrun, List.length_append, List.length_cons] at h0
        omega
      refine ⟨?_, ?_, by simp [hgo]⟩
      · intro f
        have hf := h.conserved f
        simp only [Dispatch.inPlay, Dispatch.decided, hrun, List.map_append, List.map_cons,
          List.map_nil, List.flatten_cons, List.flatten_append, List.flatten_nil,
          List.append_nil, List.count_append] at hf ⊢
        omega
      · have := h.outstanding
        rw [hrun, List.length_append, List.length_cons] at this
        simp only [List.length_append, List.length_singleton]
        omega
  | collect res rest accepted hres hbusy hpend hgo =>
      exact inv_collect hnd accepted h hres hpend hgo
  | requeue tus rest hpend => exact inv_requeue h hpend
  | stop hidle hpend hgo => exact ⟨h.conserved, h.outstanding, fun _ => ⟨hidle, hpend⟩⟩

theorem reachable_inv {files : List Str} (hnd : files.Nodup) {workers batchSizeOverride : Nat}
    {s : Dispatch} (h : Reachable files workers batchSizeOverride s) : Inv files s := by
  induction h with
  | start => exact inv_start files workers batchSizeOverride
  | step _ hstep ih => exact step_inv hnd hstep ih

/-! ### The measure

Each dispatch of a TU uses up one of its retries, and a batch that is cut in
half is shorter. The measure weighs the two so that every critical section
lowers it.
-/

/-- What the retries still allowed to these TUs are worth. -/
def credit (retries : UMap Str Nat) (tus : List Str) : Nat :=
  (tus.map (fun tu => 3 - retries.getD tu 0)).sum

@[simp] theorem credit_nil (retries : UMap Str Nat) : credit retries [] = 0 := rfl

@[simp] theorem credit_cons (retries : UMap Str Nat) (tu : Str) (tus : List Str) :
    credit retries (tu :: tus) = 3 - retries.getD tu 0 + credit retries tus := by
  simp [credit]

@[simp] theorem credit_append (retries : UMap Str Nat) (a b : List Str) :
    credit retries (a ++ b) = credit retries a + credit retries b := by
  simp [credit]

/-- Using up retries cannot raise anyone's credit. -/
theorem credit_mono {retries retries' : UMap Str Nat}
    (h : ∀ tu, retries.getD tu 0 ≤ retries'.getD tu 0) (tus : List Str) :
    credit retries' tus ≤ credit retries tus := by
  induction tus with
  | nil => simp
  | cons tu tus ih =>
      have := h tu
      simp only [credit_cons]
      omega

theorem credit_filter_le (retries : UMap Str Nat) (p : Str → Bool) (tus : List Str) :
    credit retries (tus.filter p) ≤ credit retries tus := by
  induction tus with
  | nil => simp
  | cons tu tus ih =>
      rw [List.filter_cons]
      split
      · simp only [credit_cons]
        omega
      · simp only [credit_cons]
        omega

theorem countRetries_mono :
    ∀ (tus : List Str) (retries : UMap Str Nat) (poisoned : List Str) (tu : Str),
      retries.getD tu 0 ≤ (countRetries retries poisoned tus).retries.getD tu 0 := by
  intro tus
  induction tus with
  | nil => intro retries poisoned tu; exact Nat.le_refl _
  | cons x tus ih =>
      intro retries poisoned tu
      have hins : retries.getD tu 0
          ≤ UMap.getD (AList.insert x (retries.getD x 0 + 1) retries) tu 0 := by
        rw [UMap.getD_insert]
        split
        · rename_i htu
          subst htu
          omega
        · exact Nat.le_refl _
      rw [countRetries]
      split
      · exact Nat.le_trans hins (ih _ _ tu)
      · exact Nat.le_trans hins (ih _ _ tu)

/-- The TUs that may be dispatched again have each paid for it. -/
theorem countRetries_credit :
    ∀ (tus : List Str) (retries : UMap Str Nat) (poisoned : List Str),
      credit (countRetries retries poisoned tus).retries (countRetries retries poisoned tus).rest
        + (countRetries retries poisoned tus).rest.length ≤ credit retries tus := by
  intro tus
  induction tus with
  | nil => intro retries poisoned; simp [countRetries]
  | cons tu tus ih =>
      intro retries poisoned
      set retries₁ : UMap Str Nat := AList.insert tu (retries.getD tu 0 + 1) retries with hr₁
      have hmono : ∀ x, retries.getD x 0 ≤ retries₁.getD x 0 := by
        intro x
        rw [hr₁, UMap.getD_insert]
        split
        · rename_i hx
          subst hx
          omega
        · exact Nat.le_refl _
      have hcredit := credit_mono hmono tus
      rw [countRetries, credit_cons, ← hr₁]
      by_cases hn : retries.getD tu 0 + 1 > kMaxTuRetries
      · simp only [if_pos hn]
        have := ih retries₁ (poisoned ++ [tu])
        omega
      · simp only [if_neg hn]
        have hih := ih retries₁ poisoned
        have hown := countRetries_mono tus retries₁ poisoned tu
        have hval : retries₁.getD tu 0 = retries.getD tu 0 + 1 := by
          rw [hr₁, UMap.getD_insert, if_pos rfl]
        simp only [kMaxTuRetries] at hn
        simp only [credit_cons, List.length_cons]
        omega

/-- What is left to do. -/
def measure (s : Dispatch) : Nat :=
  5 * s.work.length + 4 * s.running.length + 3 * s.results.length + s.pending.length
    + (if s.stop then 0 else 1) + 5 * credit s.retries s.inPlay

theorem requeue_measure {s : Dispatch} {tus : List Str} {rest : List (List Str)}
    (hpend : s.pending = tus :: rest) :
    measure ({ s with pending := rest }.requeue tus) < measure s := by
  have hcredit := countRetries_credit tus s.retries s.poisoned
  have hmono := credit_mono (countRetries_mono tus s.retries s.poisoned)
  have h1 := hmono s.work.flatten
  have h2 := hmono s.running.flatten
  have h3 := hmono (s.results.map (·.tus)).flatten
  have h4 := hmono rest.flatten
  unfold Dispatch.requeue
  by_cases hrest : (countRetries s.retries s.poisoned tus).rest = []
  · simp only [hrest, if_pos, measure, Dispatch.inPlay, hpend, List.flatten_cons,
      credit_append, List.length_cons]
    omega
  · have hlen := List.length_pos_iff.mpr hrest
    simp only [hrest, if_false, measure, Dispatch.inPlay, hpend, List.flatten_cons,
      List.flatten_append, List.flatten_nil, List.append_nil, credit_append, List.length_cons,
      List.length_append, List.length_nil]
    omega

theorem handleFailure_measure (s : Dispatch) (res : BatchResult) (hpend : s.pending = []) :
    measure (s.handleFailure res) ≤ measure s + 2 + 5 * credit s.retries res.tus := by
  unfold Dispatch.handleFailure
  split
  · rename_i marker _
    have := credit_filter_le s.retries (fun tu => decide (tu ≠ marker)) res.tus
    simp only [measure, Dispatch.inPlay, hpend, credit_append, List.flatten_cons,
      List.flatten_nil, List.append_nil, List.length_cons, List.length_nil]
    omega
  · split
    · simp only [measure, Dispatch.inPlay]
      omega
    · have hsplit : credit s.retries res.tus
          = credit s.retries (res.tus.take (res.tus.length / 2))
            + credit s.retries (res.tus.drop (res.tus.length / 2)) := by
        rw [← credit_append, List.take_append_drop]
      simp only [measure, Dispatch.inPlay, hpend, credit_append, List.flatten_cons,
        List.flatten_nil, List.append_nil, List.length_cons, List.length_nil]
      omega

/-- **Every critical section lowers the measure.** -/
theorem step_measure {workers : Nat} {s t : Dispatch} (hstep : Step workers s t) :
    measure t < measure s := by
  cases hstep with
  | take b rest hwork hidle =>
      simp only [measure, Dispatch.inPlay, hwork, List.flatten_cons, List.flatten_append,
        List.flatten_nil, List.append_nil, credit_append, List.length_cons, List.length_append,
        List.length_nil]
      omega
  | finish pre post res hrun =>
      simp only [measure, Dispatch.inPlay, hrun, List.map_append, List.map_cons, List.map_nil,
        List.flatten_cons, List.flatten_append, List.flatten_nil, List.append_nil,
        credit_append, List.length_cons, List.length_append, List.length_nil]
      omega
  | collect res rest accepted hres hbusy hpend hgo =>
      set popped : Dispatch := { s with results := rest, outstanding := s.outstanding - 1 }
        with hpop
      have hs : measure s = measure popped + 3 + 5 * credit s.retries res.tus := by
        simp only [measure, Dispatch.inPlay, hpop, hres, List.map_cons, List.flatten_cons,
          credit_append, List.length_cons]
        omega
      unfold Dispatch.collect
      split
      · rw [hs]
        simp only [measure, Dispatch.inPlay]
        omega
      · have := handleFailure_measure popped res hpend
        have hret : popped.retries = s.retries := rfl
        rw [hret] at this
        omega
  | requeue tus rest hpend => exact requeue_measure hpend
  | stop hidle hpend hgo =>
      simp only [measure, Dispatch.inPlay, hgo, if_true, Bool.false_eq_true, if_false]
      omega

/-- No run goes on forever. -/
theorem no_infinite_run {workers : Nat} (run : Nat → Dispatch)
    (hrun : ∀ n, Step workers (run n) (run (n + 1))) : False := by
  have hlt : ∀ n, measure (run n) + n ≤ measure (run 0) := by
    intro n
    induction n with
    | zero => simp
    | succ n ih =>
        have := step_measure (hrun n)
        omega
  have := hlt (measure (run 0) + 1)
  omega

/-! ### Progress and the end of a run -/

theorem workerCount_pos (workers : Nat) : 0 < workerCount workers := by
  unfold workerCount
  split <;> omega

/-- As long as the parent has not stopped the threads, somebody can go on. -/
theorem exists_step {files : List Str} {workers : Nat} (hworkers : 0 < workers) {s : Dispatch}
    (h : Inv files s) (hgo : s.stop = false) : ∃ t, Step workers s t := by
  cases hpend : s.pending with
  | cons tus rest => exact ⟨_, Step.requeue tus rest hpend⟩
  | nil =>
      by_cases hidle : s.outstanding = 0
      · exact ⟨_, Step.stop hidle hpend hgo⟩
      cases hres : s.results with
      | cons res rest => exact ⟨_, Step.collect res rest true hres hidle hpend hgo⟩
      | nil =>
          cases hrun : s.running with
          | cons b post => exact ⟨_, Step.finish [] post ⟨b, 0, none⟩ hrun⟩
          | nil =>
              cases hwork : s.work with
              | cons b rest => exact ⟨_, Step.take b rest hwork (by simpa [hrun] using hworkers)⟩
              | nil =>
                  have := h.outstanding
                  simp [hwork, hrun, hres] at this
                  exact absurd this hidle

/-- Once stopped, nothing is in play. -/
theorem inPlay_of_stopped {files : List Str} {s : Dispatch} (h : Inv files s)
    (hstop : s.stop = true) : s.inPlay = [] := by
  obtain ⟨hidle, hpend⟩ := h.stopped hstop
  have hout := h.outstanding
  have hwork : s.work = [] := List.length_eq_zero_iff.mp (by omega)
  have hrun : s.running = [] := List.length_eq_zero_iff.mp (by omega)
  have hres : s.results = [] := List.length_eq_zero_iff.mp (by omega)
  simp [Dispatch.inPlay, hwork, hrun, hres, hpend]

/-- How a file ends: in one consumed batch and never poisoned, or in none and poisoned
once. -/
def Settled (s : Dispatch) (f : Str) : Prop :=
  (s.consumed.countP (f ∈ ·) = 1 ∧ s.poisoned.count f = 0) ∨
    (s.consumed.countP (f ∈ ·) = 0 ∧ s.poisoned.count f = 1)

theorem countP_mem_le_count (f : Str) (bs : List (List Str)) :
    bs.countP (f ∈ ·) ≤ bs.flatten.count f := by
  induction bs with
  | nil => simp
  | cons b bs ih =>
      rw [List.countP_cons, List.flatten_cons, List.count_append]
      by_cases hb : f ∈ b
      · have := List.count_pos_iff.mpr hb
        simp only [hb, decide_true, if_true]
        omega
      · simp only [hb, decide_false, Bool.false_eq_true, if_false]
        omega

theorem settled_of_stopped {files : List Str} (hnd : files.Nodup) {s : Dispatch}
    (h : Inv files s) (hstop : s.stop = true) {f : Str} (hf : f ∈ files) : Settled s f := by
  have hcount := h.conserved f
  rw [inPlay_of_stopped h hstop, List.count_eq_one_of_mem hnd hf, Dispatch.decided,
    List.count_append, List.count_nil] at hcount
  have hle := countP_mem_le_count f s.consumed
  by_cases hc : s.consumed.flatten.count f = 0
  · exact Or.inr ⟨by omega, by omega⟩
  · refine Or.inl ⟨?_, by omega⟩
    have hmem : f ∈ s.consumed.flatten := List.count_pos_iff.mp (by omega)
    obtain ⟨b, hb, hfb⟩ := List.mem_flatten.mp hmem
    have hpos : 0 < s.consumed.countP (f ∈ ·) :=
      List.countP_pos_iff.mpr ⟨b, hb, by simpa using hfb⟩
    omega

/-- **The dispatcher conserves translation units.**  No run goes on forever; a run that
cannot go on has stopped the threads; and then every file is in exactly one consumed
batch and was never poisoned, or in none and was poisoned exactly once. -/
theorem dispatchIsolated_conserves (files : List Str) (hnd : files.Nodup)
    (workers batchSizeOverride : Nat) :
    (¬ ∃ run : Nat → Dispatch, run 0 = dispatchStart files workers batchSizeOverride ∧
        ∀ n, Step (workerCount workers) (run n) (run (n + 1))) ∧
    ∀ s, Reachable files workers batchSizeOverride s →
      (∀ t, ¬ Step (workerCount workers) s t) →
      s.stop = true ∧ (∀ f ∈ files, Settled s f) ∧
        ∀ f ∉ files, f ∉ s.consumed.flatten ∧ f ∉ s.poisoned := by
  refine ⟨?_, ?_⟩
  · rintro ⟨run, -, hrun⟩
    exact no_infinite_run run hrun
  · intro s hs hstuck
    have hinv := reachable_inv hnd hs
    have hstop : s.stop = true := by
      by_contra hc
      obtain ⟨t, ht⟩ := exists_step (workerCount_pos workers) hinv (by simpa using hc)
      exact hstuck t ht
    refine ⟨hstop, fun f hf => settled_of_stopped hnd hinv hstop hf, ?_⟩
    intro f hf
    have hcount := hinv.conserved f
    rw [List.count_eq_zero.mpr hf, Dispatch.decided, List.count_append] at hcount
    exact ⟨List.count_eq_zero.mp (by omega), List.count_eq_zero.mp (by omega)⟩

/-- Two files and one worker. -/
theorem dispatchIsolated_conserves_pair :
    (¬ ∃ run : Nat → Dispatch, run 0 = dispatchStart [str "a", str "b"] 1 2 ∧
        ∀ n, Step (workerCount 1) (run n) (run (n + 1))) ∧
    ∀ s, Reachable [str "a", str "b"] 1 2 s → (∀ t, ¬ Step (workerCount 1) s t) →
      s.stop = true ∧ (∀ f ∈ [str "a", str "b"], Settled s f) ∧
        ∀ f ∉ [str "a", str "b"], f ∉ s.consumed.flatten ∧ f ∉ s.poisoned :=
  dispatchIsolated_conserves [str "a", str "b"] (by decide) 1 2

end Vycor.WorkerPool
