/-
Logs of a run, and what is said of each event in the light of those before it.

A run logs any number of events at each step.  To compare two properties of all events of a run it
is enough to compare them on the events of one step, with an invariant that relates the log and
the state.
-/
import Mathlib.Data.List.Basic

namespace EventLog

variable {ε σ : Type}

/-! ### Along a log

A property of the events that may speak of those before it.
-/

/-- Every event has the property, given those before it. -/
def Along (P : List ε → ε → Prop) (log : List ε) : Prop :=
  ∀ before e after, log = before ++ e :: after → P before e

variable {P Q : List ε → ε → Prop}

theorem along_nil : Along P [] := by
  intro before e after h
  cases before <;> cases h

theorem along_cons {e : ε} {log : List ε} :
    Along P (e :: log) ↔ P [] e ∧ Along (fun before => P (e :: before)) log := by
  constructor
  · intro h
    exact ⟨h [] e log rfl, fun before e' after heq => h (e :: before) e' after (heq ▸ rfl)⟩
  · rintro ⟨hfirst, hrest⟩ before e' after heq
    cases before with
    | nil =>
        obtain ⟨rfl, -⟩ := List.cons.inj heq
        exact hfirst
    | cons d before =>
        obtain ⟨rfl, htail⟩ := List.cons.inj heq
        exact hrest before e' after htail

theorem along_append {log events : List ε} :
    Along P (log ++ events) ↔ Along P log ∧ Along (fun before => P (log ++ before)) events := by
  induction log generalizing P with
  | nil => exact ⟨fun h => ⟨along_nil, h⟩, And.right⟩
  | cons e log ih =>
      rw [List.cons_append, along_cons, along_cons, ih, and_assoc]
      rfl

theorem along_singleton {e : ε} : Along P [e] ↔ P [] e := by
  rw [along_cons]
  exact ⟨And.left, fun h => ⟨h, along_nil⟩⟩

/-! ### Logged runs

The invariant rule for runs that write a log: what every step keeps, and what
every step logs, holds of the whole run and of its whole log.
-/

/-- The runs from a state, with all that their steps logged. -/
inductive Logged (step : σ → List ε → σ → Prop) (start : σ) : List ε → σ → Prop
  | start : Logged step start [] start
  | step {log events : List ε} {s t : σ} (h : Logged step start log s) (hstep : step s events t) :
      Logged step start (log ++ events) t

variable {step : σ → List ε → σ → Prop} {start : σ}

/-- What holds at the start and is kept by every step holds of every run. -/
theorem Logged.invariant {I : List ε → σ → Prop} (hstart : I [] start)
    (hstep : ∀ {log events s t}, I log s → step s events t → I (log ++ events) t) {log : List ε}
    {s : σ} (h : Logged step start log s) : I log s := by
  induction h with
  | start => exact hstart
  | step _ hs ih => exact hstep ih hs

/-- **Two properties that agree on the events of every step agree on a run.** -/
theorem Logged.along_iff {I : List ε → σ → Prop} (hstart : I [] start)
    (hstep : ∀ {log events s t}, I log s → step s events t → I (log ++ events) t)
    (hagree : ∀ {log events s t}, I log s → step s events t →
      (Along (fun before => P (log ++ before)) events ↔
        Along (fun before => Q (log ++ before)) events))
    {log : List ε} {s : σ} (h : Logged step start log s) : Along P log ↔ Along Q log := by
  induction h with
  | start => exact ⟨fun _ => along_nil, fun _ => along_nil⟩
  | step hlog hs ih =>
      rw [along_append, along_append, ih, hagree (hlog.invariant hstart hstep) hs]

end EventLog
