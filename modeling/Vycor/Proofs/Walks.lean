/-
Walking a map in the order of its hash table.

A walk meets each entry of a map once, in an order of its own.  What is collected under one
key, and how often a key is met, does not depend on that order.
-/
import Vycor.Model.Snapshot

namespace Vycor

open UMap

variable {κ β α : Type} {w : HashWalk}

theorem mem_walk {m : UMap κ β} {entry : Σ _ : κ, β} : entry ∈ w.walk m ↔ entry ∈ m.entries :=
  (w.perm m).mem_iff

theorem nodup_walk (w : HashWalk) (m : UMap κ β) : ((w.walk m).map (·.1)).Nodup :=
  ((w.perm m).map _).nodup_iff.mpr m.nodupKeys

variable [DecidableEq κ]

/-- The map that a walk of `m` lists in its own order. -/
def walked (w : HashWalk) (m : UMap κ β) : UMap κ β := ⟨w.walk m, nodup_walk w m⟩

theorem lookup_walked (w : HashWalk) (m : UMap κ β) (k : κ) : (walked w m).lookup k = m.lookup k :=
  AList.perm_lookup (w.perm m)

/-- A walk meets the list of a key once. -/
theorem walk_at (w : HashWalk) (m : UMap κ (List α)) (k : κ) :
    (w.walk m).flatMap (fun entry => if entry.1 = k then entry.2 else []) = m.getD k [] := by
  have hone : ∀ entries : List (Σ _ : κ, List α), (entries.map (·.1)).Nodup →
      entries.flatMap (fun entry => if entry.1 = k then entry.2 else [])
        = (List.dlookup k entries).getD [] := by
    intro entries
    induction entries with
    | nil => exact fun _ => rfl
    | cons entry rest ih =>
        intro hnd
        rw [List.map_cons, List.nodup_cons] at hnd
        rw [List.flatMap_cons, ih hnd.2]
        by_cases hk : entry.1 = k
        · subst hk
          have hnone : List.dlookup entry.1 rest = none := List.dlookup_eq_none.mpr hnd.1
          have hhead : List.dlookup entry.1 (entry :: rest) = some entry.2 :=
            List.dlookup_cons_eq rest entry.1 entry.2
          rw [if_pos rfl, hnone, hhead]
          exact List.append_nil _
        · rw [if_neg hk, List.nil_append, List.dlookup_cons_ne rest entry (Ne.symm hk)]
  have hlookup : List.dlookup k (w.walk m) = m.lookup k := lookup_walked w m k
  rw [hone _ (nodup_walk w m), hlookup]
  rfl

/-- The keys whose lists hold `i`, each as often as its list does. -/
def holders (w : HashWalk) (m : UMap κ (List Nat)) (i : Nat) : List κ :=
  (w.walk m).flatMap fun entry => (entry.2.filter (· = i)).map fun _ => entry.1

theorem length_filter_eq (l : List Nat) (i : Nat) : (l.filter (· = i)).length = l.count i := by
  rw [List.count_eq_length_filter]
  rfl

theorem count_holders (w : HashWalk) (m : UMap κ (List Nat)) (i : Nat) (k : κ) :
    (holders w m i).count k = (m.getD k []).count i := by
  rw [← walk_at w m k, holders, List.count_flatMap, List.count_flatMap]
  congr 1
  refine List.map_congr_left ?_
  intro entry _
  rw [Function.comp_apply, Function.comp_apply, List.map_const', List.count_replicate,
    length_filter_eq]
  by_cases hk : entry.1 = k
  · simp [hk]
  · simp [hk]

omit [DecidableEq κ] in
theorem length_holders (w : HashWalk) (m : UMap κ (List Nat)) (i : Nat) :
    (holders w m i).length = total (List.count i) m := by
  unfold holders total
  rw [List.length_flatMap]
  refine (((w.perm m).map _).sum_eq).trans ?_
  congr 1
  refine List.map_congr_left ?_
  intro entry _
  rw [List.length_map, length_filter_eq]

theorem mem_holders {w : HashWalk} {m : UMap κ (List Nat)} {i : Nat} {k : κ} :
    k ∈ holders w m i ↔ i ∈ m.getD k [] := by
  rw [← List.count_pos_iff, count_holders, List.count_pos_iff]

end Vycor
