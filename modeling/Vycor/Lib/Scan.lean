/-
Scanning text for marks.

A doubled element marks a place in a text.  Its first occurrence is right behind a text that
holds none and does not end in that element (`Clear`): nothing begins earlier, whatever comes
next.  So a text of clear pieces between marks is cut where it was joined.

A split at a separator passes over what stands between quotes.  A text is `Quiet` when the
split reads it as a piece of a part and comes out of it unquoted; plain elements and quoted
texts are quiet, and so is what is joined from them.
-/
import Mathlib.Data.List.Chain
import Mathlib.Data.List.DropRight
import Mathlib.Data.List.Infix

namespace Scan

variable {σ : Type*} {c : σ}

/-! ### Marks

A mark is an element standing twice.  `Apart` says that none stands in the text,
`Clear` that none begins in it, whatever follows.
-/

/-- The element is never doubled in the text. -/
def Apart (c : σ) (s : List σ) : Prop := s.IsChain fun x y => ¬ (x = c ∧ y = c)

/-- Nothing doubled begins in the text, whatever follows it. -/
structure Clear (c : σ) (s : List σ) : Prop where
  apart : Apart c s
  last : s.getLast? ≠ some c

theorem apart_iff {s : List σ} : Apart c s ↔ ¬ [c, c] <:+: s := by
  unfold Apart
  rw [List.isChain_iff_forall_rel_of_append_cons_cons]
  constructor
  · rintro h ⟨p, q, rfl⟩
    exact @h c c p q (by simp) ⟨rfl, rfl⟩
  · rintro h a b p q rfl ⟨rfl, rfl⟩
    exact h ⟨p, q, by simp⟩

theorem apart_of_not_mem {s : List σ} (h : c ∉ s) : Apart c s :=
  apart_iff.mpr fun hin => h (hin.subset List.mem_cons_self)

theorem clear_of_not_mem {s : List σ} (h : c ∉ s) : Clear c s :=
  ⟨apart_of_not_mem h, fun hlast => h (List.mem_of_getLast? hlast)⟩

theorem Clear.append {s t : List σ} (hs : Clear c s) (ht : Clear c t) : Clear c (s ++ t) := by
  refine ⟨List.isChain_append.mpr ⟨hs.apart, ht.apart, ?_⟩, ?_⟩
  · rintro x hx y - ⟨rfl, -⟩
    exact hs.last hx
  · rw [List.getLast?_append]
    intro hlast
    rcases Option.or_eq_some_iff.mp hlast with h | ⟨-, h⟩
    · exact ht.last h
    · exact hs.last h

/-- Behind other elements nothing of the text is left open. -/
theorem Apart.append {s t : List σ} (hs : Apart c s) (ht : c ∉ t) (hne : t ≠ []) :
    Clear c (s ++ t) := by
  refine ⟨List.isChain_append.mpr ⟨hs, apart_of_not_mem ht, ?_⟩, ?_⟩
  · rintro x - y hy ⟨-, rfl⟩
    exact ht (List.mem_of_head? hy)
  · rw [List.getLast?_append_of_ne_nil _ hne]
    exact fun hlast => ht (List.mem_of_getLast? hlast)

theorem Clear.flatMap {α : Type*} {f : α → List σ} {l : List α} (h : ∀ a ∈ l, Clear c (f a)) :
    Clear c (l.flatMap f) := by
  induction l with
  | nil => exact clear_of_not_mem List.not_mem_nil
  | cons a rest ih =>
      rw [List.flatMap_cons]
      exact (h a List.mem_cons_self).append (ih fun b hb => h b (List.mem_cons_of_mem _ hb))

/-- **A text is clear when no mark begins at its front**, though one begins behind it, and the
rest is clear. -/
theorem clear_cons_iff {b : σ} {s : List σ} (t : List σ) :
    Clear c (b :: s) ↔ ¬ [c, c] <+: b :: (s ++ c :: t) ∧ Clear c s := by
  cases s with
  | nil =>
      have hfront : [c, c] <+: b :: ([] ++ c :: t) ↔ b = c := by
        rw [List.nil_append, List.cons_prefix_cons, List.cons_prefix_cons]
        exact ⟨fun h => h.1.symm, fun h => ⟨h.symm, rfl, List.nil_prefix⟩⟩
      rw [hfront]
      constructor
      · exact fun h => ⟨fun hb => h.last (by rw [hb]; rfl), clear_of_not_mem List.not_mem_nil⟩
      · rintro ⟨hb, -⟩
        exact clear_of_not_mem fun h => hb (List.mem_singleton.mp h).symm
  | cons x rest =>
      have hfront : [c, c] <+: b :: (x :: rest ++ c :: t) ↔ b = c ∧ x = c := by
        rw [List.cons_append, List.cons_prefix_cons, List.cons_prefix_cons]
        exact ⟨fun h => ⟨h.1.symm, h.2.1.symm⟩, fun h => ⟨h.1.symm, h.2.symm, List.nil_prefix⟩⟩
      have hlast : (b :: x :: rest).getLast? = (x :: rest).getLast? := by
        rw [List.getLast?_cons_cons]
      rw [hfront]
      constructor
      · rintro ⟨hapart, hend⟩
        obtain ⟨hbx, hrest⟩ := List.isChain_cons_cons.mp hapart
        exact ⟨hbx, hrest, hlast ▸ hend⟩
      · rintro ⟨hbx, hrest, hend⟩
        exact ⟨List.isChain_cons_cons.mpr ⟨hbx, hrest⟩, hlast ▸ hend⟩

/-- A text with a mark, cut at the first. -/
theorem exists_clear {s : List σ} (h : ¬ Apart c s) :
    ∃ p q, s = p ++ c :: c :: q ∧ Clear c p := by
  induction s with
  | nil => exact absurd List.IsChain.nil h
  | cons b rest ih =>
      by_cases hfront : [c, c] <+: b :: rest
      · obtain ⟨q, hq⟩ := hfront
        exact ⟨[], q, hq.symm, clear_of_not_mem List.not_mem_nil⟩
      · have hrest : ¬ Apart c rest := by
          intro hrest
          refine h (apart_iff.mpr fun hin => ?_)
          rcases List.infix_cons_iff.mp hin with hpre | hin
          · exact hfront hpre
          · exact apart_iff.mp hrest hin
        obtain ⟨p, q, rfl, hp⟩ := ih hrest
        exact ⟨b :: p, q, rfl, (clear_cons_iff (c :: q)).mpr ⟨hfront, hp⟩⟩

/-! ### Trimming -/

/-- Without the elements of a kind at its two ends. -/
def trim (p : σ → Bool) (s : List σ) : List σ := (s.dropWhile p).rdropWhile p

/-- **A text with other elements at its ends is kept**, whatever is cut around it. -/
theorem trim_append {p : σ → Bool} {s : List σ} (front t : List σ)
    (hfront : ∀ b ∈ front, p b = true) (hhead : ∃ b ∈ s.head?, p b = false)
    (hlast : ∃ b ∈ s.getLast?, p b = false) :
    trim p (front ++ (s ++ t)) = s ++ t.rdropWhile p := by
  have hkept : (s ++ t).dropWhile p = s ++ t := by
    obtain ⟨b, hb, hpb⟩ := hhead
    cases s with
    | nil => cases hb
    | cons x rest =>
        obtain rfl : x = b := by simpa using hb
        rw [List.cons_append, List.dropWhile_cons_of_neg (by simp [hpb])]
  have hend : s.reverse.dropWhile p = s.reverse := by
    obtain ⟨b, hb, hpb⟩ := hlast
    rw [← List.head?_reverse] at hb
    cases hrev : s.reverse with
    | nil =>
        rw [hrev] at hb
        cases hb
    | cons x rest =>
        rw [hrev] at hb
        obtain rfl : x = b := by simpa using hb
        rw [List.dropWhile_cons_of_neg (by simp [hpb])]
  unfold trim List.rdropWhile
  rw [List.dropWhile_append_of_pos hfront, hkept, List.reverse_append, List.dropWhile_append]
  split
  · rename_i hnil
    rw [hend, List.isEmpty_iff.mp hnil, List.reverse_reverse, List.reverse_nil, List.append_nil]
  · rw [List.reverse_append, List.reverse_reverse]

/-! ### Finding -/

variable [DecidableEq σ]

/-- The first place where the needle stands. -/
def find (needle : List σ) : List σ → Option Nat
  | [] => if needle = [] then some 0 else none
  | b :: rest => if needle <+: b :: rest then some 0 else (find needle rest).map (· + 1)

/-- The last place of an element. -/
def rfind (c : σ) (s : List σ) : Option Nat :=
  (s.reverse.findIdx? (· = c)).map (s.length - 1 - ·)

/-- **The first mark stands behind the clear text.** -/
theorem find_of_clear {s : List σ} (h : Clear c s) (t : List σ) :
    find [c, c] (s ++ c :: c :: t) = some s.length := by
  induction s with
  | nil => exact if_pos ⟨t, rfl⟩
  | cons b rest ih =>
      obtain ⟨hfront, hrest⟩ := (clear_cons_iff (c :: t)).mp h
      rw [List.cons_append, find, if_neg hfront, ih hrest]
      rfl

theorem find_of_apart {s : List σ} (h : Apart c s) : find [c, c] s = none := by
  induction s with
  | nil => exact if_neg (by simp)
  | cons b rest ih =>
      have hno : ¬ [c, c] <+: b :: rest := fun hpre => apart_iff.mp h hpre.isInfix
      rw [find, if_neg hno, ih (List.IsChain.tail h)]
      rfl

theorem rfind_append_self (s : List σ) (c : σ) : rfind c (s ++ [c]) = some s.length := by
  unfold rfind
  rw [List.reverse_append, List.reverse_singleton, List.singleton_append, List.findIdx?_cons,
    decide_eq_true rfl]
  simp

/-- What is found is the element. -/
theorem getElem?_rfind {s : List σ} {k : Nat} (h : rfind c s = some k) : s[k]? = some c := by
  obtain ⟨i, hi, rfl⟩ := Option.map_eq_some_iff.mp h
  obtain ⟨hlt, hfound, -⟩ := List.findIdx?_eq_some_iff_getElem.mp hi
  rw [List.length_reverse] at hlt
  rw [← List.getElem?_reverse hlt, List.getElem?_eq_getElem (by simpa using hlt),
    of_decide_eq_true hfound]

/-! ### Splitting outside quotes

The state of the split is whether it is inside quotes and what the part begun
holds. A quiet text only adds to the part, so parts can be read off one text at
a time.
-/

/-- Split at the separators that stand outside quotes, from a state and a part begun. -/
def splitOutside (quote sep : σ) : Bool → List σ → List σ → List (List σ)
  | _, part, [] => [part]
  | inQuotes, part, b :: rest =>
    let inQuotes := if b = quote then !inQuotes else inQuotes
    if b = sep ∧ inQuotes = false then part :: splitOutside quote sep inQuotes [] rest
    else splitOutside quote sep inQuotes (part ++ [b]) rest

variable {quote sep : σ}

/-- The split reads the text as a piece of a part, and is outside quotes behind it. -/
def Quiet (quote sep : σ) (s : List σ) : Prop :=
  ∀ part rest, splitOutside quote sep false part (s ++ rest)
    = splitOutside quote sep false (part ++ s) rest

theorem Quiet.append {s t : List σ} (hs : Quiet quote sep s) (ht : Quiet quote sep t) :
    Quiet quote sep (s ++ t) := by
  intro part rest
  rw [List.append_assoc, hs, ht, List.append_assoc]

theorem quiet_plain {s : List σ} (hquote : quote ∉ s) (hsep : sep ∉ s) :
    Quiet quote sep s := by
  intro part rest
  induction s generalizing part with
  | nil => rw [List.append_nil, List.nil_append]
  | cons b s ih =>
      rw [List.mem_cons, not_or] at hquote hsep
      have hb : b ≠ quote := fun h => hquote.1 h.symm
      have hsplit : ¬ (b = sep ∧ false = false) := fun h => hsep.1 h.1.symm
      rw [List.cons_append, splitOutside, if_neg hb, if_neg hsplit, ih hquote.2 hsep.2,
        List.append_assoc]
      rfl

/-- Within quotes everything belongs to the part. -/
theorem splitOutside_quoted {s : List σ} (hquote : quote ∉ s) (part rest : List σ) :
    splitOutside quote sep true part (s ++ rest) = splitOutside quote sep true (part ++ s) rest := by
  induction s generalizing part with
  | nil => rw [List.append_nil, List.nil_append]
  | cons b s ih =>
      rw [List.mem_cons, not_or] at hquote
      have hb : b ≠ quote := fun h => hquote.1 h.symm
      have hsplit : ¬ (b = sep ∧ true = false) := fun h => Bool.noConfusion h.2
      rw [List.cons_append, splitOutside, if_neg hb, if_neg hsplit, ih hquote.2, List.append_assoc]
      rfl

theorem splitOutside_open (h : quote ≠ sep) (part rest : List σ) :
    splitOutside quote sep false part (quote :: rest)
      = splitOutside quote sep true (part ++ [quote]) rest := by
  have hsplit : ¬ (quote = sep ∧ (!false) = false) := fun hc => h hc.1
  rw [splitOutside, if_pos (Eq.refl quote), if_neg hsplit]
  rfl

theorem splitOutside_sep (h : quote ≠ sep) (part rest : List σ) :
    splitOutside quote sep false part (sep :: rest)
      = part :: splitOutside quote sep false [] rest := by
  have hsplit : sep = sep ∧ false = false := ⟨rfl, rfl⟩
  rw [splitOutside, if_neg h.symm, if_pos hsplit]

theorem quiet_quoted (h : quote ≠ sep) {s : List σ} (hquote : quote ∉ s) :
    Quiet quote sep (quote :: (s ++ [quote])) := by
  intro part rest
  have hsplit : ¬ (quote = sep ∧ (!true) = false) := fun hc => h hc.1
  rw [List.cons_append, splitOutside_open h, List.append_assoc, splitOutside_quoted hquote,
    List.singleton_append, splitOutside, if_pos (Eq.refl quote), if_neg hsplit]
  simp

/-- A quote that is not closed keeps the rest in its part. -/
theorem splitOutside_unclosed (h : quote ≠ sep) {s : List σ} (hquote : quote ∉ s)
    (part : List σ) :
    splitOutside quote sep false part (quote :: s) = [part ++ quote :: s] := by
  have hrest : splitOutside quote sep true (part ++ [quote]) (s ++ []) = _ :=
    splitOutside_quoted hquote _ []
  rw [List.append_nil] at hrest
  rw [splitOutside_open h, hrest, splitOutside, List.append_assoc]
  rfl

end Scan
