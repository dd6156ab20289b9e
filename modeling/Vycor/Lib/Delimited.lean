/-
Self-delimiting codes.

A code is self-delimiting over the values that satisfy a predicate when a code word with
anything behind it has only one reading: the word and the rest are both determined.  A code
of fixed length is one if it is injective, a list behind its length is one if the length's
code is, and so is a counted list of code words.  A plain sequence of code words, with no
count in front, still has only one reading as a whole, as long as no word is empty.

The predicate is where a bound on what the code can carry goes: a length field of four bytes
delimits only the lists shorter than 2^32.
-/
import Mathlib.Data.List.Basic

namespace Delimited

variable {α σ : Type*}

/-- Behind a code word, the word and the rest are determined. -/
def Delimits (P : α → Prop) (enc : α → List σ) : Prop :=
  ∀ ⦃a b : α⦄ ⦃s t : List σ⦄, P a → P b → enc a ++ s = enc b ++ t → a = b ∧ s = t

variable {P : α → Prop} {enc : α → List σ}

/-- Words of one length. -/
theorem Delimits.of_length {n : Nat} (hlen : ∀ a, P a → (enc a).length = n)
    (hinj : ∀ a b, P a → P b → enc a = enc b → a = b) : Delimits P enc := by
  intro a b s t ha hb heq
  obtain ⟨hword, hrest⟩ := List.append_inj heq ((hlen a ha).trans (hlen b hb).symm)
  exact ⟨hinj a b ha hb hword, hrest⟩

/-- A list behind the code of its length. -/
theorem Delimits.sized {N : Nat → Prop} {head : Nat → List σ} (hhead : Delimits N head) :
    Delimits (fun l : List σ => N l.length) fun l => head l.length ++ l := by
  intro a b s t ha hb heq
  rw [List.append_assoc, List.append_assoc] at heq
  obtain ⟨hlen, hbody⟩ := hhead ha hb heq
  exact List.append_inj hbody hlen

/-- Two sequences of equally many words. -/
theorem Delimits.flatMap (h : Delimits P enc) :
    ∀ {l m : List α} {s t : List σ}, l.length = m.length → (∀ a ∈ l, P a) → (∀ a ∈ m, P a) →
      l.flatMap enc ++ s = m.flatMap enc ++ t → l = m ∧ s = t := by
  intro l
  induction l with
  | nil =>
      intro m s t hlen _ _ heq
      obtain rfl := List.length_eq_zero_iff.mp hlen.symm
      exact ⟨rfl, heq⟩
  | cons a rest ih =>
      intro m s t hlen hl hm heq
      cases m with
      | nil => exact absurd hlen (by simp)
      | cons b rest' =>
          rw [List.flatMap_cons, List.flatMap_cons, List.append_assoc, List.append_assoc] at heq
          obtain ⟨rfl, hrest⟩ := h (hl a List.mem_cons_self) (hm b List.mem_cons_self) heq
          obtain ⟨rfl, hst⟩ := ih (Nat.succ.inj hlen)
            (fun x hx => hl x (List.mem_cons_of_mem _ hx))
            (fun x hx => hm x (List.mem_cons_of_mem _ hx)) hrest
          exact ⟨rfl, hst⟩

/-- A sequence of words behind the code of their number. -/
theorem Delimits.counted {N : Nat → Prop} {head : Nat → List σ} (hhead : Delimits N head)
    (h : Delimits P enc) :
    Delimits (fun l : List α => N l.length ∧ ∀ a ∈ l, P a)
      fun l => head l.length ++ l.flatMap enc := by
  intro a b s t ha hb heq
  rw [List.append_assoc, List.append_assoc] at heq
  obtain ⟨hlen, hbody⟩ := hhead ha.1 hb.1 heq
  exact h.flatMap hlen ha.2 hb.2 hbody

/-- **A whole sequence of nonempty words has one reading.** -/
theorem Delimits.flatMap_inj (h : Delimits P enc) (hne : ∀ a, enc a ≠ []) :
    ∀ {l m : List α}, (∀ a ∈ l, P a) → (∀ a ∈ m, P a) → l.flatMap enc = m.flatMap enc →
      l = m := by
  intro l
  induction l with
  | nil =>
      intro m _ _ heq
      cases m with
      | nil => rfl
      | cons b rest =>
          rw [List.flatMap_cons] at heq
          exact absurd (List.append_eq_nil_iff.mp heq.symm).1 (hne b)
  | cons a rest ih =>
      intro m hl hm heq
      cases m with
      | nil =>
          rw [List.flatMap_cons] at heq
          exact absurd (List.append_eq_nil_iff.mp heq).1 (hne a)
      | cons b rest' =>
          rw [List.flatMap_cons, List.flatMap_cons] at heq
          obtain ⟨rfl, hrest⟩ := h (hl a List.mem_cons_self) (hm b List.mem_cons_self) heq
          rw [ih (fun x hx => hl x (List.mem_cons_of_mem _ hx))
            (fun x hx => hm x (List.mem_cons_of_mem _ hx)) hrest]

end Delimited
