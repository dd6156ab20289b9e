/-
Folds over the same entries in another order.

Where a step keeps a relation of states, and two steps end in related states in either order,
a fold ends in related states in every order.
-/
import Mathlib.Data.List.Perm.Basic

namespace FoldOrder

variable {α β : Type*} {R : β → β → Prop} {f : β → α → β}

theorem foldl_perm {l l' : List α} (hperm : l.Perm l') (hrefl : ∀ b, R b b)
    (htrans : ∀ {a b c}, R a b → R b c → R a c)
    (hstep : ∀ x ∈ l, ∀ {b b'}, R b b' → R (f b x) (f b' x))
    (hcomm : ∀ x ∈ l, ∀ y ∈ l, ∀ b, R (f (f b x) y) (f (f b y) x)) {b b' : β} (hb : R b b') :
    R (l.foldl f b) (l'.foldl f b') := by
  have hrun : ∀ {l : List α}, (∀ x ∈ l, ∀ {b b'}, R b b' → R (f b x) (f b' x)) →
      ∀ {b b'}, R b b' → R (l.foldl f b) (l.foldl f b') :=
    fun hstep _ _ hb => List.foldl_rel hb fun x hx _ _ hr => hstep x hx hr
  induction hperm generalizing b b' with
  | nil => exact hb
  | cons x _ ih =>
      exact ih (fun y hy => hstep y (.tail _ hy))
        (fun y hy z hz => hcomm y (.tail _ hy) z (.tail _ hz)) (hstep x (.head _) hb)
  | swap x y l =>
      refine hrun (fun z hz => hstep z (.tail _ (.tail _ hz))) ?_
      exact htrans (hcomm y (.head _) x (.tail _ (.head _)) b)
        (hstep y (.head _) (hstep x (.tail _ (.head _)) hb))
  | trans h₁ _ ih₁ ih₂ =>
      have hback : ∀ x, x ∈ _ → x ∈ _ := fun x => h₁.mem_iff.mpr
      exact htrans (ih₁ hstep hcomm hb) (ih₂ (fun x hx => hstep x (hback x hx))
        (fun x hx y hy => hcomm x (hback x hx) y (hback y hy)) (hrefl _))

end FoldOrder
