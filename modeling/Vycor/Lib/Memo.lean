/-
Tables that remember an answer for each key.

A table is filled as queries come in: the first query of a key is answered and kept, and the
later ones of that key get its answer, whatever they ask.  `Holds` says so of a table after a
list of queries, and `leader` is the query that a given one is answered with.
-/
import Vycor.Lib.UMap

namespace Memo

variable {α κ β : Type} [DecidableEq κ] {key : α → κ} {value : α → β}

/-- The first of the queries that has the key, or the query itself. -/
def leader (key : α → κ) (asked : List α) (a : α) : α := (asked.find? (key · = key a)).getD a

theorem key_leader (key : α → κ) (asked : List α) (a : α) : key (leader key asked a) = key a := by
  unfold leader
  cases hfind : asked.find? (key · = key a) with
  | none => rfl
  | some b => simpa using List.find?_some hfind

theorem leader_mem {asked : List α} {a : α} (h : a ∈ asked) : leader key asked a ∈ asked := by
  unfold leader
  cases hfind : asked.find? (key · = key a) with
  | none => exact h
  | some b => exact List.mem_of_find?_eq_some hfind

/-- Queries of one key are answered with the same query. -/
theorem leader_congr {asked : List α} {a b : α} (h : key a = key b) (ha : a ∈ asked) :
    leader key asked a = leader key asked b := by
  unfold leader
  rw [h]
  cases hfind : asked.find? (key · = key b) with
  | none =>
      have hno := List.find?_eq_none.mp hfind a ha
      simp [h] at hno
  | some c => rfl

/-- Later queries do not change it. -/
theorem leader_of_find {asked more : List α} {a b : α} (h : asked <+: more)
    (hfind : asked.find? (key · = key a) = some b) : leader key more a = b := by
  obtain ⟨later, rfl⟩ := h
  unfold leader
  rw [List.find?_append, hfind]
  rfl

theorem leader_of_first {asked more : List α} {a : α} (h : asked ++ [a] <+: more)
    (hfind : asked.find? (key · = key a) = none) : leader key more a = a := by
  refine leader_of_find h ?_
  rw [List.find?_append, hfind]
  simp

/-- What a table holds after the queries. -/
def Holds (key : α → κ) (value : α → β) (asked : List α) (table : UMap κ β) : Prop :=
  ∀ k, table.lookup k = (asked.find? (key · = k)).map value

theorem holds_empty : Holds key value [] ∅ := fun _ => rfl

/-- A query that is answered from the table leaves it. -/
theorem Holds.hit {asked : List α} {table : UMap κ β} (h : Holds key value asked table) {a : α}
    (hfound : (asked.find? (key · = key a)).isSome) : Holds key value (asked ++ [a]) table := by
  intro k
  rw [h k, List.find?_append]
  by_cases hk : key a = k
  · subst hk
    rw [Option.or_of_isSome hfound]
  · simp [hk]

theorem Holds.miss {asked : List α} {table : UMap κ β} (h : Holds key value asked table) {a : α}
    (hnone : asked.find? (key · = key a) = none) :
    Holds key value (asked ++ [a]) (table.insert (key a) (value a)) := by
  intro k
  rw [UMap.lookup_insert_ite, List.find?_append]
  by_cases hk : k = key a
  · subst hk
    rw [if_pos rfl, hnone]
    simp
  · have hk' : ¬ key a = k := fun hc => hk hc.symm
    rw [if_neg hk, h k]
    simp [hk']

end Memo
