/-
Sorting by a strict total order given as a test.

A sorted list is determined by what it holds, as long as no two of its entries are tied.
`filter_sortBy_eq` is this for the part of two sorted lists that a predicate keeps: what the
others are, and in what order they came, makes no difference there.
-/
import Mathlib.Data.List.Nodup
import Mathlib.Data.List.Perm.Basic

namespace Ordered

variable {τ τ' : Type*}

/-- The test is a strict total order. -/
structure Strict (less : τ → τ → Bool) : Prop where
  trans : ∀ {a b c}, less a b → less b c → less a c
  asymm : ∀ {a b}, less a b → ¬ less b a
  tied : ∀ {a b}, ¬ less a b → ¬ less b a → a = b

/-- A strict total order that can be decided. -/
theorem strict_decide {r : τ → τ → Prop} [DecidableRel r] (trans : ∀ {a b c}, r a b → r b c → r a c)
    (asymm : ∀ {a b}, r a b → ¬ r b a) (tied : ∀ {a b}, ¬ r a b → ¬ r b a → a = b) :
    Strict fun a b => decide (r a b) where
  trans hab hbc := decide_eq_true (trans (of_decide_eq_true hab) (of_decide_eq_true hbc))
  asymm hab hba := asymm (of_decide_eq_true hab) (of_decide_eq_true hba)
  tied hab hba := tied (mt decide_eq_true hab) (mt decide_eq_true hba)

/-- By the first component, then by the second. -/
def lex [DecidableEq τ] (less : τ → τ → Bool) (less' : τ' → τ' → Bool) (a b : τ × τ') : Bool :=
  less a.1 b.1 || a.1 = b.1 && less' a.2 b.2

theorem lex_iff [DecidableEq τ] {less : τ → τ → Bool} {less' : τ' → τ' → Bool} {a b : τ × τ'} :
    lex less less' a b ↔ less a.1 b.1 ∨ a.1 = b.1 ∧ less' a.2 b.2 := by
  simp [lex]

theorem Strict.lex [DecidableEq τ] {less : τ → τ → Bool} {less' : τ' → τ' → Bool}
    (h : Strict less) (h' : Strict less') : Strict (lex less less') where
  trans {a b c} hab hbc := by
    rw [lex_iff] at hab hbc ⊢
    rcases hab with hab | ⟨hab, hab'⟩
    · rcases hbc with hbc | ⟨hbc, -⟩
      · exact Or.inl (h.trans hab hbc)
      · exact Or.inl (hbc ▸ hab)
    · rcases hbc with hbc | ⟨hbc, hbc'⟩
      · exact Or.inl (hab ▸ hbc)
      · exact Or.inr ⟨hab.trans hbc, h'.trans hab' hbc'⟩
  asymm {a b} hab hba := by
    rw [lex_iff] at hab hba
    rcases hab with hab | ⟨hab, hab'⟩
    · rcases hba with hba | ⟨hba, -⟩
      · exact h.asymm hab hba
      · rw [hba] at hab
        exact h.asymm hab hab
    · rcases hba with hba | ⟨-, hba'⟩
      · rw [hab] at hba
        exact h.asymm hba hba
      · exact h'.asymm hab' hba'
  tied {a b} hab hba := by
    rw [lex_iff, not_or] at hab hba
    have hfst : a.1 = b.1 := h.tied hab.1 hba.1
    exact Prod.ext hfst (h'.tied (fun hc => hab.2 ⟨hfst, hc⟩) fun hc => hba.2 ⟨hfst.symm, hc⟩)

/-! ### Sorted lists

Sorting by a strict total order leaves no ties, so a sorted list is determined
by what it holds, and a filter may be taken before or after.
-/

variable {α : Type*} {less : τ → τ → Bool} {tie : α → τ}

/-- Sort by the tie. -/
def sortBy (less : τ → τ → Bool) (tie : α → τ) (l : List α) : List α :=
  l.mergeSort fun a b => !less (tie b) (tie a)

theorem perm_sortBy (less : τ → τ → Bool) (tie : α → τ) (l : List α) : (sortBy less tie l).Perm l :=
  List.mergeSort_perm l _

theorem pairwise_sortBy (h : Strict less) (tie : α → τ) (l : List α) :
    (sortBy less tie l).Pairwise fun a b => ¬ less (tie b) (tie a) := by
  refine (List.pairwise_mergeSort (fun a b c hab hbc => ?_) (fun a b => ?_) l).imp fun hab => ?_
  · simp only [Bool.not_eq_true'] at hab hbc ⊢
    refine Bool.eq_false_iff.mpr fun hca => ?_
    by_cases hba : less (tie a) (tie b)
    · exact absurd (h.trans hca hba) (Bool.eq_false_iff.mp hbc)
    · rw [h.tied hba (Bool.eq_false_iff.mp hab)] at hca
      exact absurd hca (Bool.eq_false_iff.mp hbc)
  · simp only [Bool.or_eq_true, Bool.not_eq_true']
    by_cases hab : less (tie b) (tie a)
    · exact Or.inr (Bool.eq_false_iff.mpr (h.asymm hab))
    · exact Or.inl (Bool.eq_false_iff.mpr hab)
  · simpa using hab

/-- **What a predicate keeps of a sorted list** is determined by what it keeps of the list. -/
theorem filter_sortBy_eq (h : Strict less) {p : α → Bool} {l l' : List α}
    (hperm : (l.filter p).Perm (l'.filter p))
    (htie : ∀ a ∈ l.filter p, ∀ b ∈ l.filter p, tie a = tie b → a = b) :
    (sortBy less tie l).filter p = (sortBy less tie l').filter p := by
  have hl := (perm_sortBy less tie l).filter p
  have hl' := (perm_sortBy less tie l').filter p
  refine List.Perm.eq_of_pairwise (fun a b ha hb hba hab => ?_)
    ((pairwise_sortBy h tie l).filter p) ((pairwise_sortBy h tie l').filter p)
    (hl.trans (hperm.trans hl'.symm))
  exact htie a (hl.mem_iff.mp ha) b (hperm.mem_iff.mpr (hl'.mem_iff.mp hb)) (h.tied hab hba)

theorem sortBy_eq (h : Strict less) {l l' : List α} (hperm : l.Perm l')
    (htie : ∀ a ∈ l, ∀ b ∈ l, tie a = tie b → a = b) :
    sortBy less tie l = sortBy less tie l' := by
  have hall : (sortBy less tie l).filter (fun _ => true) = (sortBy less tie l').filter fun _ => true :=
    filter_sortBy_eq h (by rwa [List.filter_true, List.filter_true]) (by rwa [List.filter_true])
  rwa [List.filter_true, List.filter_true] at hall

/-! ### Ascending sets

A list kept in order by insertion is the one ascending list of its elements.
-/

/-- Insert into an ascending list, unless it is there. -/
def insertBy (less : α → α → Bool) (x : α) : List α → List α
  | [] => [x]
  | y :: rest =>
    if less x y then x :: y :: rest else if less y x then y :: insertBy less x rest else y :: rest

/-- Ascending, without repetitions. -/
def Ascending (less : α → α → Bool) (l : List α) : Prop := l.Pairwise fun a b => less a b

variable {less : α → α → Bool}

theorem mem_insertBy (h : Strict less) {x y : α} {l : List α} :
    y ∈ insertBy less x l ↔ y = x ∨ y ∈ l := by
  induction l with
  | nil => simp [insertBy]
  | cons z rest ih =>
      rw [insertBy]
      split
      · rw [List.mem_cons]
      · rename_i hxz
        split
        · rw [List.mem_cons, ih, List.mem_cons]
          tauto
        · rename_i hzx
          rw [h.tied hxz hzx, List.mem_cons]
          tauto

theorem ascending_insertBy (h : Strict less) (x : α) {l : List α} (hl : Ascending less l) :
    Ascending less (insertBy less x l) := by
  induction l with
  | nil => exact List.pairwise_singleton _ x
  | cons z rest ih =>
      obtain ⟨hz, hrest⟩ := List.pairwise_cons.mp hl
      rw [insertBy]
      split
      · rename_i hxz
        refine List.pairwise_cons.mpr ⟨fun y hy => ?_, hl⟩
        rcases List.mem_cons.mp hy with rfl | hy
        · exact hxz
        · exact h.trans hxz (hz y hy)
      · split
        · rename_i hzx
          refine List.pairwise_cons.mpr ⟨fun y hy => ?_, ih hrest⟩
          rcases (mem_insertBy h).mp hy with rfl | hy
          · exact hzx
          · exact hz y hy
        · exact hl

/-- An ascending list is determined by what it holds. -/
theorem Ascending.ext (h : Strict less) {l l' : List α} (hl : Ascending less l)
    (hl' : Ascending less l') (hmem : ∀ x, x ∈ l ↔ x ∈ l') : l = l' := by
  have hnodup : ∀ {l : List α}, Ascending less l → l.Nodup := by
    intro l hl
    refine List.Pairwise.imp (fun {a b} hab => ?_) hl
    rintro rfl
    exact h.asymm hab hab
  refine List.Perm.eq_of_pairwise (fun a b _ _ hab hba => absurd hba (h.asymm hab)) hl hl' ?_
  exact (List.perm_ext_iff_of_nodup (hnodup hl) (hnodup hl')).mpr hmem

end Ordered
