/-
Breadth-first search from several starts.

A node is queued the first time it is met, so a turn takes one node off the queue and puts on
at most as many as were not met before.  When every node that can be met lies in one list,
the length of that list is fuel enough, and what has been met at the end is what the starts
reach: neither their order nor how often they are given matters.
-/
import Vycor.Lib.Dedup
import Mathlib.Data.List.Perm.Subperm
import Mathlib.Logic.Relation

namespace Worklist

open Relation

variable {ι : Type*} [DecidableEq ι]

/-- What was met, and of it what is still to be taken. -/
structure State (ι : Type*) where
  met : List ι := []
  queue : List ι := []

/-- An element not met before is met and queued. -/
def enqueue (s : State ι) (x : ι) : State ι :=
  if x ∈ s.met then s else { met := s.met ++ [x], queue := s.queue ++ [x] }

/-- Work off the queue. -/
def drain (succ : ι → List ι) : Nat → State ι → State ι
  | 0, s => s
  | fuel + 1, s =>
    match s.queue with
    | [] => s
    | current :: rest => drain succ fuel ((succ current).foldl enqueue { s with queue := rest })

/-! ### Queueing

A node is queued when it is met, so what is queued has been met, once.
-/

theorem mem_foldl_enqueue (xs : List ι) (s : State ι) (x : ι) :
    x ∈ (xs.foldl enqueue s).met ↔ x ∈ s.met ∨ x ∈ xs := by
  induction xs generalizing s with
  | nil => simp
  | cons y rest ih =>
      rw [List.foldl_cons, ih, List.mem_cons]
      unfold enqueue
      by_cases hy : y ∈ s.met
      · rw [if_pos hy]
        constructor
        · rintro (h | h)
          · exact Or.inl h
          · exact Or.inr (Or.inr h)
        · rintro (h | rfl | h)
          · exact Or.inl h
          · exact Or.inl hy
          · exact Or.inr h
      · rw [if_neg hy]
        simp only [List.mem_append, List.mem_singleton, or_assoc]

/-- What has been met and is not queued stays as it was. -/
theorem settled_foldl_enqueue (xs : List ι) {s : State ι} {x : ι}
    (hmet : x ∈ (xs.foldl enqueue s).met) (hqueue : x ∉ (xs.foldl enqueue s).queue) :
    x ∈ s.met ∧ x ∉ s.queue := by
  induction xs generalizing s with
  | nil => exact ⟨hmet, hqueue⟩
  | cons y rest ih =>
      obtain ⟨hin, hout⟩ := ih hmet hqueue
      unfold enqueue at hin hout
      by_cases hy : y ∈ s.met
      · rw [if_pos hy] at hin hout
        exact ⟨hin, hout⟩
      · rw [if_neg hy] at hin hout
        simp only [List.mem_append, List.mem_singleton, not_or] at hin hout
        exact ⟨hin.resolve_right hout.2, hout.1⟩

theorem queued_foldl_enqueue (xs : List ι) {s : State ι} (h : ∀ x ∈ s.queue, x ∈ s.met) :
    ∀ x ∈ (xs.foldl enqueue s).queue, x ∈ (xs.foldl enqueue s).met := by
  induction xs generalizing s with
  | nil => exact h
  | cons y rest ih =>
      refine ih ?_
      unfold enqueue
      split
      · exact h
      · intro x hx
        rcases List.mem_append.mp hx with hx | hx
        · exact List.mem_append_left _ (h x hx)
        · exact List.mem_append_right _ hx

theorem nodup_foldl_enqueue (xs : List ι) {s : State ι} (h : s.met.Nodup) :
    (xs.foldl enqueue s).met.Nodup := by
  induction xs generalizing s with
  | nil => exact h
  | cons y rest ih =>
      refine ih ?_
      have hpush := Dedup.nodup_pushUnique h y
      unfold Dedup.pushUnique at hpush
      unfold enqueue
      split
      · exact h
      · rename_i hy
        rwa [if_neg hy] at hpush

/-- What a push adds to the queue it adds to what has been met. -/
theorem length_foldl_enqueue (xs : List ι) (s : State ι) :
    (xs.foldl enqueue s).queue.length + s.met.length
      = (xs.foldl enqueue s).met.length + s.queue.length := by
  induction xs generalizing s with
  | nil => exact Nat.add_comm _ _
  | cons y rest ih =>
      have hrest := ih (enqueue s y)
      have hone : (enqueue s y).queue.length + s.met.length
          = (enqueue s y).met.length + s.queue.length := by
        unfold enqueue
        split
        · exact Nat.add_comm _ _
        · simp only [List.length_append, List.length_singleton]
          omega
      rw [List.foldl_cons]
      omega

/-- Queueing from nothing meets the nodes in the order they first stand in. -/
theorem foldl_enqueue_empty (xs : List ι) :
    xs.foldl enqueue {}
      = { met := xs.foldl Dedup.pushUnique [], queue := xs.foldl Dedup.pushUnique [] } := by
  induction xs using List.reverseRecOn with
  | nil => rfl
  | append_singleton xs x ih =>
      rw [List.foldl_append, List.foldl_append, ih]
      show enqueue _ x = _
      unfold enqueue Dedup.pushUnique
      split <;> simp_all

/-! ### The search

The invariant has the usual two halves: what has been met is reached, and what a
node that is not queued leads to has been met.
-/

variable {succ : ι → List ι} {starts : List ι}

/-- Some start reaches the node. -/
def Reached (succ : ι → List ι) (starts : List ι) (x : ι) : Prop :=
  ∃ s ∈ starts, ReflTransGen (fun a b => b ∈ succ a) s x

/-- What is met is reached, and what is met and no longer queued leads only to what is
met. -/
structure Inv (succ : ι → List ι) (starts : List ι) (s : State ι) : Prop where
  nodup : s.met.Nodup
  queued : ∀ x ∈ s.queue, x ∈ s.met
  started : ∀ x ∈ starts, x ∈ s.met
  sound : ∀ x ∈ s.met, Reached succ starts x
  closed : ∀ x ∈ s.met, x ∉ s.queue → ∀ y ∈ succ x, y ∈ s.met

theorem inv_start (succ : ι → List ι) (starts : List ι) :
    Inv succ starts (starts.foldl enqueue {}) where
  nodup := nodup_foldl_enqueue starts List.nodup_nil
  queued := queued_foldl_enqueue starts fun _ h => nomatch h
  started x hx := (mem_foldl_enqueue starts _ x).mpr (Or.inr hx)
  sound x hx := by
    rcases (mem_foldl_enqueue starts _ x).mp hx with hx | hx
    · exact nomatch hx
    · exact ⟨x, hx, .refl⟩
  closed x hx hnot := by
    obtain ⟨hx, -⟩ := settled_foldl_enqueue starts hx hnot
    exact nomatch hx

theorem Inv.turn {s : State ι} {current : ι} {rest : List ι} (h : Inv succ starts s)
    (hqueue : s.queue = current :: rest) :
    Inv succ starts ((succ current).foldl enqueue { s with queue := rest }) := by
  have hcurrent : current ∈ s.met := h.queued _ (hqueue ▸ List.mem_cons_self)
  have hqueued : ∀ x ∈ rest, x ∈ s.met := fun x hx => h.queued x (hqueue ▸ List.mem_cons_of_mem _ hx)
  have hmem := mem_foldl_enqueue (succ current) { s with queue := rest }
  exact
    { nodup := nodup_foldl_enqueue _ h.nodup
      queued := queued_foldl_enqueue _ hqueued
      started := fun x hx => (hmem x).mpr (Or.inl (h.started x hx))
      sound := by
        intro x hx
        rcases (hmem x).mp hx with hx | hx
        · exact h.sound x hx
        · obtain ⟨start, hstart, hpath⟩ := h.sound current hcurrent
          exact ⟨start, hstart, hpath.tail hx⟩
      closed := by
        intro x hx hnot y hy
        obtain ⟨hin, hout⟩ := settled_foldl_enqueue _ hx hnot
        by_cases hxc : x = current
        · subst hxc
          exact (hmem y).mpr (Or.inr hy)
        · refine (hmem y).mpr (Or.inl (h.closed x hin ?_ y hy))
          rw [hqueue, List.mem_cons, not_or]
          exact ⟨hxc, hout⟩ }

/-- Enough fuel empties the queue. -/
theorem Inv.drain {s : State ι} {all : List ι} (h : Inv succ starts s)
    (hmet : ∀ x, Reached succ starts x → x ∈ all) (fuel : Nat)
    (hfuel : all.length + s.queue.length < fuel + s.met.length) :
    Inv succ starts (drain succ fuel s) ∧ (Worklist.drain succ fuel s).queue = [] := by
  induction fuel generalizing s with
  | zero =>
      have hle : s.met.length ≤ all.length :=
        (List.subperm_of_subset h.nodup fun x hx => hmet x (h.sound x hx)).length_le
      omega
  | succ fuel ih =>
      unfold Worklist.drain
      cases hqueue : s.queue with
      | nil => exact ⟨h, hqueue⟩
      | cons current rest =>
          refine ih (h.turn hqueue) ?_
          have hlength := length_foldl_enqueue (succ current) { s with queue := rest }
          rw [hqueue, List.length_cons] at hfuel
          simp only at hlength
          omega

/-- **The search meets exactly what the starts reach.** -/
theorem mem_drain {all : List ι} (hmet : ∀ x, Reached succ starts x → x ∈ all) {fuel : Nat}
    (hfuel : all.length < fuel) (x : ι) :
    (drain succ fuel (starts.foldl enqueue {})).queue = [] ∧
      (x ∈ (drain succ fuel (starts.foldl enqueue {})).met ↔ Reached succ starts x) := by
  have hstart := inv_start succ starts
  have hlength := length_foldl_enqueue starts ({} : State ι)
  obtain ⟨h, hempty⟩ := hstart.drain hmet fuel (by
    simp only [List.length_nil] at hlength
    omega)
  refine ⟨hempty, h.sound x, ?_⟩
  rintro ⟨start, hs, hpath⟩
  induction hpath with
  | refl => exact h.started start hs
  | tail _ hstep ih => exact h.closed _ ih (by rw [hempty]; exact List.not_mem_nil) _ hstep

end Worklist
