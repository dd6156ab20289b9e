/-
Logs whose entries have owners.

An owner's entries are replaced as a whole: the old ones are taken out and the new ones go to the
end.  What an owner has in the log afterwards is what it was given last.
-/
import Mathlib.Data.List.Basic
import Mathlib.Logic.Function.Basic

namespace OwnedLog

variable {α κ : Type} [DecidableEq κ] (owner : α → κ)

/-- The entries of one owner. -/
def ofOwner (log : List α) (k : κ) : List α := log.filter (owner · = k)

/-- The entries of one owner replaced. -/
def replace (log : List α) (k : κ) (new : List α) : List α := log.filter (owner · ≠ k) ++ new

variable {owner}

theorem mem_ofOwner {log : List α} {k : κ} {x : α} :
    x ∈ ofOwner owner log k ↔ x ∈ log ∧ owner x = k := by
  simp [ofOwner]

theorem ofOwner_eq_self {new : List α} {k : κ} (h : ∀ x ∈ new, owner x = k) :
    ofOwner owner new k = new :=
  List.filter_eq_self.mpr fun x hx => decide_eq_true (h x hx)

theorem ofOwner_eq_nil {new : List α} {k k' : κ} (h : ∀ x ∈ new, owner x = k) (hne : k' ≠ k) :
    ofOwner owner new k' = [] := by
  refine List.filter_eq_nil_iff.mpr fun x hx hc => hne ?_
  exact (of_decide_eq_true hc).symm.trans (h x hx)

/-- **What an owner has is what it was given last.** -/
theorem ofOwner_replace {log new : List α} {k : κ} (h : ∀ x ∈ new, owner x = k) :
    ofOwner owner (replace owner log k new) = Function.update (ofOwner owner log) k new := by
  funext k'
  have happend : ofOwner owner (replace owner log k new) k'
      = (log.filter (owner · ≠ k)).filter (owner · = k') ++ ofOwner owner new k' :=
    List.filter_append ..
  rw [happend, List.filter_filter]
  by_cases hk : k' = k
  · subst hk
    have hnone : log.filter (fun x => decide (owner x = k') && decide (owner x ≠ k')) = [] := by
      refine List.filter_eq_nil_iff.mpr fun x _ hc => ?_
      simp at hc
    rw [hnone, ofOwner_eq_self h, Function.update_self]
    rfl
  · rw [ofOwner_eq_nil h hk, List.append_nil, Function.update_of_ne hk]
    refine List.filter_congr fun x _ => ?_
    by_cases hx : owner x = k'
    · simp [hx, hk]
    · simp [hx]

end OwnedLog
