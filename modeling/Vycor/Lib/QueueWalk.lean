/-
A breadth-first walk over a queue that only grows.

Nothing is taken off the queue: an index says how far it has been looked at, and a node is
pushed unless it is there.  The walk stops when the index has reached the end, or when the
queue has grown to a cap.  A turn moves the index by one, so the cap is fuel enough.  A walk
that never grows to the cap has queued what its start reaches, each node once.
-/
import Mathlib.Data.List.Perm.Subperm
import Mathlib.Logic.Relation
import Vycor.Lib.Dedup

namespace QueueWalk

open Relation

variable {ι : Type*} [DecidableEq ι]

/-- A queue that keeps what was taken, and the position of the next turn. -/
structure State (ι : Type*) where
  queue : List ι
  next : Nat := 0

/-- The nodes that have been looked at. -/
def State.seen (st : State ι) : List ι := st.queue.take st.next

/-- What a node leads to and the queue has not goes on its end. -/
def turn (succ : ι → List ι) (st : State ι) (cur : ι) : State ι :=
  { queue := (succ cur).foldl Dedup.pushUnique st.queue, next := st.next + 1 }

/-- Turns until the queue runs out or is as long as the cap. -/
def walk (succ : ι → List ι) (cap : Nat) : Nat → State ι → State ι
  | 0, st => st
  | fuel + 1, st =>
    match st.queue[st.next]? with
    | none => st
    | some cur =>
      if cap ≤ st.queue.length then st else walk succ cap fuel (turn succ st cur)

/-- Nothing is left to look at, or the queue has grown to the cap. -/
def Ended (cap : Nat) (st : State ι) : Prop := st.queue.length ≤ st.next ∨ cap ≤ st.queue.length

variable {succ : ι → List ι} {cap : Nat} {start : ι} {st : State ι}

/-! ### One turn

The queue never shrinks: nodes are appended and an index walks over them. So a
turn is read off the list, and what has been looked at is its front.
-/

theorem prefix_turn (succ : ι → List ι) (st : State ι) (cur : ι) :
    st.queue <+: (turn succ st cur).queue := by
  have hpush : ∀ (xs l : List ι), l <+: xs.foldl Dedup.pushUnique l := by
    intro xs
    induction xs with
    | nil => exact fun l => List.prefix_refl l
    | cons x rest ih =>
        intro l
        refine List.IsPrefix.trans ?_ (ih (Dedup.pushUnique l x))
        unfold Dedup.pushUnique
        split
        · exact List.prefix_refl l
        · exact List.prefix_append l [x]
  exact hpush _ _

/-- A turn has looked at one node more. -/
theorem seen_turn {cur : ι} (hcur : st.queue[st.next]? = some cur) :
    (turn succ st cur).seen = st.seen ++ [cur] := by
  obtain ⟨hlt, hget⟩ := List.getElem?_eq_some_iff.mp hcur
  have hsame : (turn succ st cur).queue.take (st.next + 1) = st.queue.take (st.next + 1) := by
    obtain ⟨more, hmore⟩ := prefix_turn succ st cur
    rw [← hmore]
    exact List.take_append_of_le_length hlt
  show (turn succ st cur).queue.take (st.next + 1) = _
  rw [hsame, List.take_add_one, hcur]
  rfl

/-- Every node stands once and is reached from the start, which stands there; what a node that
was looked at leads to is queued. -/
structure Inv (succ : ι → List ι) (start : ι) (st : State ι) : Prop where
  nodup : st.queue.Nodup
  started : start ∈ st.queue
  reach : ∀ x ∈ st.queue, ReflTransGen (fun a b => b ∈ succ a) start x
  closed : ∀ x ∈ st.seen, ∀ y ∈ succ x, y ∈ st.queue
  within : st.next ≤ st.queue.length

omit [DecidableEq ι] in
theorem inv_start (succ : ι → List ι) (start : ι) : Inv succ start { queue := [start] } where
  nodup := List.nodup_singleton start
  started := List.mem_singleton_self start
  reach x hx := by
    rw [List.mem_singleton.mp hx]
  closed x hx := by simp [State.seen] at hx
  within := Nat.zero_le _

theorem Inv.turn {cur : ι} (h : Inv succ start st) (hcur : st.queue[st.next]? = some cur) :
    Inv succ start (turn succ st cur) := by
  have hmem : cur ∈ st.queue := List.mem_of_getElem? hcur
  have hgrown := prefix_turn succ st cur
  refine ⟨Dedup.nodup_foldl_pushUnique _ h.nodup, hgrown.subset h.started, ?_, ?_, ?_⟩
  · intro x hx
    rcases (Dedup.mem_foldl_pushUnique _ _ x).mp hx with hx | hx
    · exact h.reach x hx
    · exact (h.reach cur hmem).tail hx
  · intro x hx y hy
    rw [seen_turn hcur] at hx
    rcases List.mem_append.mp hx with hx | hx
    · exact hgrown.subset (h.closed x hx y hy)
    · rw [List.mem_singleton.mp hx] at hy
      exact (Dedup.mem_foldl_pushUnique _ _ y).mpr (Or.inr hy)
  · obtain ⟨hlt, -⟩ := List.getElem?_eq_some_iff.mp hcur
    have := hgrown.length_le
    show st.next + 1 ≤ _
    omega

/-! ### Whole walks -/

theorem Inv.walk (fuel : Nat) {st : State ι} (h : Inv succ start st) :
    Inv succ start (walk succ cap fuel st) := by
  induction fuel generalizing st with
  | zero => exact h
  | succ fuel ih =>
      rw [QueueWalk.walk]
      cases hcur : st.queue[st.next]? with
      | none => exact h
      | some cur =>
          simp only
          split
          · exact h
          · exact ih (h.turn hcur)

/-- **The cap is fuel enough.** -/
theorem Inv.ends (fuel : Nat) {st : State ι} (h : Inv succ start st)
    (hfuel : cap ≤ fuel + st.next) : Ended cap (QueueWalk.walk succ cap fuel st) := by
  induction fuel generalizing st with
  | zero =>
      have := h.within
      exact Or.inr (by show cap ≤ st.queue.length; omega)
  | succ fuel ih =>
      rw [QueueWalk.walk]
      cases hcur : st.queue[st.next]? with
      | none => exact Or.inl (List.getElem?_eq_none_iff.mp hcur)
      | some cur =>
          simp only
          split
          · rename_i hcap
            exact Or.inr hcap
          · refine ih (h.turn hcur) ?_
            show cap ≤ fuel + (st.next + 1)
            omega

/-- A walk that has ended stays as it is, whatever fuel is left. -/
theorem walk_more (succ : ι → List ι) (cap more fuel : Nat) {st : State ι}
    (h : Ended cap (walk succ cap fuel st)) :
    walk succ cap (fuel + more) st = walk succ cap fuel st := by
  induction fuel generalizing st with
  | zero =>
      rw [Nat.zero_add]
      cases more with
      | zero => rfl
      | succ more =>
          cases hcur : st.queue[st.next]? with
          | none => simp only [walk, hcur]
          | some cur =>
              obtain ⟨hlt, -⟩ := List.getElem?_eq_some_iff.mp hcur
              have hcap : cap ≤ st.queue.length := h.resolve_left (Nat.not_le.mpr hlt)
              simp only [walk, hcur, if_pos hcap]
  | succ fuel ih =>
      rw [Nat.add_right_comm, walk, walk]
      rw [walk] at h
      cases hcur : st.queue[st.next]? with
      | none => rfl
      | some cur =>
          rw [hcur] at h
          simp only at h ⊢
          split
          · rfl
          · rename_i hcap
            rw [if_neg hcap] at h
            exact ih h

/-- **A walk that stays under the cap has looked at what the start reaches**, each node once. -/
theorem walk_spec {all : List ι} (hall : ∀ x, ReflTransGen (fun a b => b ∈ succ a) start x → x ∈ all)
    (hcap : all.length < cap) {fuel : Nat} (hfuel : cap ≤ fuel) :
    (walk succ cap fuel { queue := [start] }).seen.Nodup ∧
      ∀ x, x ∈ (walk succ cap fuel { queue := [start] }).seen ↔
        ReflTransGen (fun a b => b ∈ succ a) start x := by
  have hinv : Inv succ start (walk succ cap fuel { queue := [start] }) :=
    (inv_start succ start).walk fuel
  have hsub : (walk succ cap fuel { queue := [start] }).queue.length ≤ all.length :=
    (hinv.nodup.subperm fun x hx => hall x (hinv.reach x hx)).length_le
  have hdone := ((inv_start succ start).ends fuel (Nat.le_add_right_of_le hfuel)).resolve_right
    (by omega)
  have hseen : (walk succ cap fuel { queue := [start] }).seen
      = (walk succ cap fuel { queue := [start] }).queue := List.take_of_length_le hdone
  have hclosed := hinv.closed
  rw [hseen] at hclosed ⊢
  refine ⟨hinv.nodup, fun x => ⟨hinv.reach x, fun hx => ?_⟩⟩
  induction hx with
  | refl => exact hinv.started
  | tail _ hstep ih => exact hclosed _ ih _ hstep

end QueueWalk
