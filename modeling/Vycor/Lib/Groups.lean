/-
Lists taken apart by a key.

What is made of each group is, over all groups, what is made of the list as a whole, as long as
a list is gone through entry by entry: the groups themselves put together are the list, and the
pairs within the groups are the pairs of the list that share the key.

Pairs that a symmetric function is applied to give the same in every order of the list.
-/
import Mathlib.Data.List.Nodup
import Mathlib.Data.List.Perm.Basic

namespace Groups

variable {α β κ : Type*}

/-- Each entry with each that comes after it. -/
def laterPairs : List α → List (α × α)
  | [] => []
  | a :: rest => rest.map (a, ·) ++ laterPairs rest

/-- A symmetric function on the pairs of a list. -/
theorem perm_laterPairs {f : α × α → Option β} (hsymm : ∀ a b, f (a, b) = f (b, a))
    {l l' : List α} (hperm : l.Perm l') :
    ((laterPairs l).filterMap f).Perm ((laterPairs l').filterMap f) := by
  induction hperm with
  | nil => exact .refl _
  | cons a hrest ih =>
      simp only [laterPairs, List.filterMap_append]
      exact ((hrest.map _).filterMap _).append ih
  | swap a b l =>
      simp only [laterPairs, List.map_cons, List.cons_append, List.filterMap_cons,
        List.filterMap_append, hsymm b a]
      cases f (a, b) with
      | none => exact List.perm_append_comm_assoc ..
      | some x => exact (List.perm_append_comm_assoc ..).cons x
  | trans _ _ ih₁ ih₂ => exact ih₁.trans ih₂

variable [DecidableEq κ] {key : α → κ} {keys : List κ}

/-- **One entry more** changes its own group only. -/
theorem flatMap_groups_cons {F : List α → List β} {g : α → List α → List β}
    (hF : ∀ a l, F (a :: l) = g a l ++ F l) (hnodup : keys.Nodup) {a : α}
    (hkey : key a ∈ keys) (l : List α) :
    (keys.flatMap fun k => F ((a :: l).filter (key · = k))).Perm
      (g a (l.filter (key · = key a)) ++ keys.flatMap fun k => F (l.filter (key · = k))) := by
  obtain ⟨pre, post, rfl⟩ := List.append_of_mem hkey
  have hother : ∀ k, k ≠ key a → F ((a :: l).filter (key · = k)) = F (l.filter (key · = k)) :=
    fun k hk => by rw [List.filter_cons_of_neg (by simpa using Ne.symm hk)]
  have hown : F ((a :: l).filter (key · = key a))
      = g a (l.filter (key · = key a)) ++ F (l.filter (key · = key a)) := by
    rw [List.filter_cons_of_pos (by simp), hF]
  obtain ⟨hpre, hpost⟩ : key a ∉ pre ∧ key a ∉ post := by
    have hout := (List.nodup_cons.mp (List.nodup_middle.mp hnodup)).1
    exact not_or.mp (mt List.mem_append.mpr hout)
  have hsame : ∀ ks : List κ, key a ∉ ks →
      (ks.flatMap fun k => F ((a :: l).filter (key · = k)))
        = ks.flatMap fun k => F (l.filter (key · = k)) :=
    fun ks hks => List.flatMap_congr fun k hk => hother k fun hc => hks (hc ▸ hk)
  simp only [List.flatMap_append, List.flatMap_cons, hown, hsame pre hpre, hsame post hpost,
    List.append_assoc]
  exact List.perm_append_comm_assoc ..

/-- **The groups are the list.** -/
theorem perm_groups (hnodup : keys.Nodup) (f : α → List β) {l : List α}
    (hkeys : ∀ a ∈ l, key a ∈ keys) :
    (keys.flatMap fun k => (l.filter (key · = k)).flatMap f).Perm (l.flatMap f) := by
  induction l with
  | nil => simp
  | cons a rest ih =>
      have hstep := flatMap_groups_cons (F := (List.flatMap f)) (g := fun a _ => f a)
        (fun _ _ => List.flatMap_cons) hnodup (hkeys a List.mem_cons_self) rest
      refine hstep.trans ?_
      rw [List.flatMap_cons]
      exact (ih fun b hb => hkeys b (List.mem_cons_of_mem _ hb)).append_left _

/-- **The pairs within the groups** are those that share the key. -/
theorem perm_pairs_in_groups (hnodup : keys.Nodup) {l : List α} (hkeys : ∀ a ∈ l, key a ∈ keys) :
    (keys.flatMap fun k => laterPairs (l.filter (key · = k))).Perm
      ((laterPairs l).filter fun p => key p.1 = key p.2) := by
  induction l with
  | nil => simp [laterPairs]
  | cons a rest ih =>
      refine (flatMap_groups_cons (F := laterPairs) (g := fun a l => l.map (a, ·))
        (fun _ _ => rfl) hnodup (hkeys a List.mem_cons_self) rest).trans ?_
      rw [laterPairs, List.filter_append]
      refine List.Perm.append (.of_eq ?_) (ih fun b hb => hkeys b (List.mem_cons_of_mem _ hb))
      rw [List.filter_map]
      refine congrArg _ (List.filter_congr fun b _ => ?_)
      simp [eq_comm]

end Groups
