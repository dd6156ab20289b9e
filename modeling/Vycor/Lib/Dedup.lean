/-
Lists without repetitions, built one element at a time.

Three idioms: push an element unless it is there, insert into a set that is walked in
ascending order, and emit items while remembering a key for each so that a key is
emitted once.  As sets the first two are insertion.  The third keeps the first candidate of
each key (`mem_emitAll_first`), so it depends on their order unless candidates with one
key are the same item; `mem_emitAll` is the case where they are.
-/
import Mathlib.Data.List.Induction
import Mathlib.Data.List.Nodup
import Mathlib.Data.List.Sort

namespace Dedup

variable {α κ β : Type*} [DecidableEq α] [DecidableEq κ]

/-! ### Pushing

A list used as a set: an element goes to the end unless it is there. Several
results of the program are built like this, and what is asked of them is mostly
membership, no repetition, and how many there are.
-/

/-- An element goes in at the end unless the list has it. -/
def pushUnique (l : List α) (x : α) : List α := if x ∈ l then l else l ++ [x]

@[simp] theorem mem_pushUnique {l : List α} {x y : α} : y ∈ pushUnique l x ↔ y ∈ l ∨ y = x := by
  unfold pushUnique
  split
  · rename_i hx
    constructor
    · exact Or.inl
    · rintro (h | rfl)
      · exact h
      · exact hx
  · simp

theorem nodup_pushUnique {l : List α} (h : l.Nodup) (x : α) : (pushUnique l x).Nodup := by
  unfold pushUnique
  split
  · exact h
  · rename_i hx
    refine List.nodup_append.mpr ⟨h, List.nodup_singleton x, ?_⟩
    intro a ha b hb hab
    rw [List.mem_singleton.mp hb] at hab
    exact hx (hab ▸ ha)

theorem mem_foldl_pushUnique (xs : List α) (l : List α) (y : α) :
    y ∈ xs.foldl pushUnique l ↔ y ∈ l ∨ y ∈ xs := by
  induction xs generalizing l with
  | nil => simp
  | cons x rest ih =>
      rw [List.foldl_cons, ih, mem_pushUnique, List.mem_cons]
      tauto

theorem nodup_foldl_pushUnique (xs : List α) {l : List α} (h : l.Nodup) :
    (xs.foldl pushUnique l).Nodup := by
  induction xs generalizing l with
  | nil => exact h
  | cons x rest ih => exact ih (nodup_pushUnique h x)

/-- Pushing what was pushed onto another list is pushing both. -/
theorem foldl_pushUnique_foldl (a b c : List α) :
    (c.foldl pushUnique b).foldl pushUnique a = c.foldl pushUnique (b.foldl pushUnique a) := by
  induction c using List.reverseRecOn with
  | nil => rfl
  | append_singleton c x ih =>
      rw [List.foldl_append, List.foldl_append, ← ih, List.foldl_cons, List.foldl_nil,
        List.foldl_cons, List.foldl_nil]
      by_cases hx : x ∈ c.foldl pushUnique b
      · have hall : x ∈ (c.foldl pushUnique b).foldl pushUnique a :=
          (mem_foldl_pushUnique _ _ _).mpr (Or.inr hx)
        rw [pushUnique, if_pos hx, pushUnique, if_pos hall]
      · rw [pushUnique, if_neg hx, List.foldl_append]
        rfl

theorem foldl_pushUnique_of_subset {xs l : List α} (h : ∀ x ∈ xs, x ∈ l) :
    xs.foldl pushUnique l = l := by
  induction xs with
  | nil => rfl
  | cons x rest ih =>
      rw [List.foldl_cons, pushUnique, if_pos (h x List.mem_cons_self)]
      exact ih fun y hy => h y (List.mem_cons_of_mem _ hy)

/-- Repeated elements bring in nothing new. -/
theorem foldl_pushUnique_flatMap (f : κ → List α) (ks : List κ) :
    (ks.flatMap f).foldl pushUnique [] = ((ks.foldl pushUnique []).flatMap f).foldl pushUnique [] := by
  induction ks using List.reverseRecOn with
  | nil => rfl
  | append_singleton ks k ih =>
      rw [List.flatMap_append, List.foldl_append, ih, List.flatMap_singleton, List.foldl_append,
        List.foldl_cons, List.foldl_nil]
      by_cases hk : k ∈ ks.foldl pushUnique []
      · rw [pushUnique, if_pos hk]
        refine foldl_pushUnique_of_subset fun x hx => ?_
        exact (mem_foldl_pushUnique _ _ _).mpr (Or.inr (List.mem_flatMap.mpr ⟨k, hk, hx⟩))
      · rw [pushUnique, if_neg hk, List.flatMap_append, List.foldl_append, List.flatMap_singleton]

theorem filter_pushUnique (p : α → Bool) (l : List α) (x : α) :
    (pushUnique l x).filter p = if p x then pushUnique (l.filter p) x else l.filter p := by
  unfold pushUnique
  by_cases hp : p x = true <;> by_cases hx : x ∈ l <;> simp [hp, hx, List.filter_append]

theorem foldl_pushUnique_filter (p : α → Bool) (xs l : List α) :
    (xs.foldl pushUnique l).filter p = (xs.filter p).foldl pushUnique (l.filter p) := by
  induction xs generalizing l with
  | nil => rfl
  | cons x rest ih =>
      rw [List.foldl_cons, ih, filter_pushUnique]
      by_cases hp : p x = true <;> simp [hp]

theorem count_foldl_pushUnique (xs l : List α) (y : α) :
    (xs.foldl pushUnique l).count y = if y ∈ l then l.count y else if y ∈ xs then 1 else 0 := by
  induction xs using List.reverseRecOn with
  | nil =>
      by_cases hy : y ∈ l
      · simp [hy]
      · simp [hy, List.count_eq_zero_of_not_mem hy]
  | append_singleton xs x ih =>
      rw [List.foldl_append, List.foldl_cons, List.foldl_nil]
      rw [pushUnique]
      split
      · rename_i hx
        rw [mem_foldl_pushUnique] at hx
        rw [ih]
        by_cases hyx : y = x
        · subst hyx
          by_cases hy : y ∈ l
          · simp [hy]
          · simp [hy, hx.resolve_left hy]
        · simp [hyx]
      · rename_i hx
        rw [mem_foldl_pushUnique, not_or] at hx
        rw [List.count_append, ih]
        by_cases hyx : y = x
        · subst hyx
          simp [hx.1, hx.2]
        · have hxy : ¬ x = y := fun hc => hyx hc.symm
          simp [hyx, hxy]

/-- Which elements are pushed matters, not in what order. -/
theorem perm_foldl_pushUnique {l l' xs xs' : List α} (hl : l.Perm l')
    (hxs : ∀ x, x ∉ l → (x ∈ xs ↔ x ∈ xs')) :
    (xs.foldl pushUnique l).Perm (xs'.foldl pushUnique l') := by
  rw [List.perm_iff_count]
  intro y
  rw [count_foldl_pushUnique, count_foldl_pushUnique]
  by_cases hy : y ∈ l
  · rw [if_pos hy, if_pos (hl.mem_iff.mp hy), hl.count_eq]
  · rw [if_neg hy, if_neg fun hc => hy (hl.mem_iff.mpr hc)]
    simp only [hxs y hy]

omit [DecidableEq α] in
/-- A list without repetitions has two entries when two are different. -/
theorem two_le_length_iff {l : List α} (h : l.Nodup) :
    2 ≤ l.length ↔ ∃ x ∈ l, ∃ y ∈ l, x ≠ y := by
  match l, h with
  | [], _ => simp
  | [x], _ => simp
  | x :: y :: rest, h =>
    have hxy : x ≠ y := fun hc => (List.nodup_cons.mp h).1 (hc ▸ List.mem_cons_self)
    refine ⟨fun _ => ⟨x, by simp, y, by simp, hxy⟩, fun _ => ?_⟩
    simp

/-- What is there stays where it is. -/
theorem sublist_foldl_pushUnique (xs l : List α) : l.Sublist (xs.foldl pushUnique l) := by
  induction xs generalizing l with
  | nil => exact List.Sublist.refl l
  | cons x rest ih =>
      refine List.Sublist.trans ?_ (ih (pushUnique l x))
      unfold pushUnique
      split
      · exact List.Sublist.refl l
      · exact List.sublist_append_left l [x]

/-- Two elements are there, or two different ones are among all. -/
theorem two_le_length_foldl_pushUnique (xs l : List α) :
    2 ≤ (xs.foldl pushUnique l).length ↔
      2 ≤ l.length ∨ ∃ x, (x ∈ l ∨ x ∈ xs) ∧ ∃ y, (y ∈ l ∨ y ∈ xs) ∧ x ≠ y := by
  by_cases hlong : 2 ≤ l.length
  · have hle := (sublist_foldl_pushUnique xs l).length_le
    exact ⟨fun _ => Or.inl hlong, fun _ => hlong.trans hle⟩
  · have hnodup : l.Nodup := by
      match l, hlong with
      | [], _ => exact List.nodup_nil
      | [x], _ => exact List.nodup_singleton x
      | _ :: _ :: rest, hlong => exact absurd (Nat.le_add_left 2 rest.length) hlong
    rw [two_le_length_iff (nodup_foldl_pushUnique xs hnodup)]
    simp only [mem_foldl_pushUnique, hlong, false_or]

/-- Of a list without repetitions, a sublist is what it holds. -/
theorem filter_mem_of_sublist {l L : List α} (h : l.Sublist L) (hL : L.Nodup) :
    L.filter (· ∈ l) = l := by
  induction h with
  | slnil => rfl
  | @cons l L a hsub ih =>
      obtain ⟨ha, hL⟩ := List.nodup_cons.mp hL
      rw [List.filter_cons, if_neg (by simpa using fun hmem => ha (hsub.subset hmem))]
      exact ih hL
  | @cons_cons l L a _ ih =>
      obtain ⟨ha, hL⟩ := List.nodup_cons.mp hL
      rw [List.filter_cons, if_pos (by simp)]
      refine congrArg (a :: ·) ((List.filter_congr fun x hx => ?_).trans (ih hL))
      have hne : x ≠ a := fun heq => ha (heq ▸ hx)
      simp [hne]

/-- Two sublists that hold the same are the same. -/
theorem sublist_ext {l l' L : List α} (h : l.Sublist L) (h' : l'.Sublist L) (hL : L.Nodup)
    (hmem : ∀ x, x ∈ l ↔ x ∈ l') : l = l' := by
  rw [← filter_mem_of_sublist h hL, ← filter_mem_of_sublist h' hL]
  exact List.filter_congr fun x _ => decide_eq_decide.mpr (hmem x)

/-! ### Ascending sets

The same for lists that are kept in ascending order, as std::set walks its
elements.
-/

/-- Insert into an ascending list without repetitions. -/
def setInsert (l : List Nat) (x : Nat) : List Nat :=
  if x ∈ l then l else l.orderedInsert (· ≤ ·) x

@[simp] theorem mem_setInsert {l : List Nat} {x y : Nat} : y ∈ setInsert l x ↔ y ∈ l ∨ y = x := by
  unfold setInsert
  split
  · rename_i hx
    constructor
    · exact Or.inl
    · rintro (h | rfl)
      · exact h
      · exact hx
  · rw [List.mem_orderedInsert]
    exact or_comm

theorem nodup_setInsert {l : List Nat} (h : l.Nodup) (x : Nat) : (setInsert l x).Nodup := by
  unfold setInsert
  split
  · exact h
  · rename_i hx
    exact (List.perm_orderedInsert (· ≤ ·) x l).nodup_iff.mpr (List.nodup_cons.mpr ⟨hx, h⟩)

theorem mem_foldl_setInsert (xs : List Nat) (l : List Nat) (y : Nat) :
    y ∈ xs.foldl setInsert l ↔ y ∈ l ∨ y ∈ xs := by
  induction xs generalizing l with
  | nil => simp
  | cons x rest ih =>
      rw [List.foldl_cons, ih, mem_setInsert, List.mem_cons]
      tauto

/-! ### Emitting

Items are emitted under keys, and a key that was met before is passed over. So
what is shown is the first candidate of each key, and the order of the
candidates matters only where one key stands for different items.
-/

/-- Emit the item of a candidate unless its key was met before. -/
def emit (st : List κ × List β) (c : κ × β) : List κ × List β :=
  if c.1 ∈ st.1 then st else (c.1 :: st.1, st.2 ++ [c.2])

/-- The candidates in turn, each kept once for its key. -/
def emitAll (st : List κ × List β) (cands : List (κ × β)) : List κ × List β :=
  cands.foldl emit st

theorem mem_emitAll_keys (cands : List (κ × β)) (st : List κ × List β) (k : κ) :
    k ∈ (emitAll st cands).1 ↔ k ∈ st.1 ∨ ∃ b, (k, b) ∈ cands := by
  induction cands generalizing st with
  | nil => simp [emitAll]
  | cons c rest ih =>
      obtain ⟨k', b'⟩ := c
      have hrest := ih (emit st (k', b'))
      unfold emitAll at hrest ⊢
      rw [List.foldl_cons, hrest]
      have hone : k ∈ (emit st (k', b')).1 ↔ k ∈ st.1 ∨ k = k' := by
        unfold emit
        split
        · rename_i h
          constructor
          · exact Or.inl
          · rintro (h' | rfl)
            · exact h'
            · exact h
        · rw [List.mem_cons]
          exact or_comm
      simp only [hone, List.mem_cons, Prod.mk.injEq, exists_or, exists_and_left, exists_eq,
        and_true]
      tauto

/-- The first candidate of a key. -/
def firstOf (cands : List (κ × β)) (k : κ) : Option β :=
  (cands.find? fun c => c.1 = k).map (·.2)

theorem firstOf_cons (c : κ × β) (rest : List (κ × β)) (k : κ) :
    firstOf (c :: rest) k = if c.1 = k then some c.2 else firstOf rest k := by
  unfold firstOf
  by_cases h : c.1 = k
  · simp [h]
  · simp [h]

theorem mem_of_firstOf {cands : List (κ × β)} {k : κ} {b : β} (h : firstOf cands k = some b) :
    (k, b) ∈ cands := by
  obtain ⟨c, hc, rfl⟩ := Option.map_eq_some_iff.mp h
  have hk : c.1 = k := by simpa using List.find?_some hc
  rw [← hk]
  exact List.mem_of_find?_eq_some hc

theorem firstOf_eq_none {cands : List (κ × β)} {k : κ} :
    firstOf cands k = none ↔ ∀ b, (k, b) ∉ cands := by
  unfold firstOf
  rw [Option.map_eq_none_iff, List.find?_eq_none]
  constructor
  · intro h b hb
    exact h (k, b) hb (by simp)
  · intro h c hc hk
    have hk : c.1 = k := by simpa using hk
    exact h c.2 (hk ▸ hc)

/-- Where all candidates of a key are one item, the first is. -/
theorem firstOf_eq_ite {cands : List (κ × β)} {k : κ} {x : β} {p : Prop} [Decidable p]
    (h : ∀ b, (k, b) ∈ cands ↔ p ∧ b = x) : firstOf cands k = if p then some x else none := by
  cases hfirst : firstOf cands k with
  | none =>
      have hnone := firstOf_eq_none.mp hfirst
      rw [if_neg fun hp => hnone x ((h x).mpr ⟨hp, rfl⟩)]
  | some b =>
      obtain ⟨hp, rfl⟩ := (h b).mp (mem_of_firstOf hfirst)
      rw [if_pos hp]

theorem firstOf_flatMap {α : Type*} (l : List α) (f : α → List (κ × β)) (k : κ) :
    firstOf (l.flatMap f) k = l.findSome? fun a => firstOf (f a) k := by
  unfold firstOf
  rw [List.find?_flatMap, List.map_findSome?]
  rfl

/-- The first of one candidate for each row. -/
theorem firstOf_map {α : Type*} (rows : List α) (f : α → κ × β) (k : κ) :
    firstOf (rows.map f) k = (rows.find? fun a => (f a).1 = k).map fun a => (f a).2 := by
  unfold firstOf
  rw [List.find?_map, Option.map_map]
  rfl

/-- The first of at most one candidate for each row. -/
theorem findSome?_if {α : Type*} (rows : List α) (p : α → Prop) [DecidablePred p] (f : α → β) :
    (rows.findSome? fun a => if p a then some (f a) else none) = (rows.find? p).map f := by
  induction rows with
  | nil => rfl
  | cons a rest ih =>
      rw [List.findSome?_cons, List.find?_cons, ih]
      by_cases h : p a
      · rw [if_pos h, decide_eq_true h]
        rfl
      · rw [if_neg h, decide_eq_false h]

theorem findSome?_congr {α γ : Type*} {f g : α → Option γ} {rows : List α}
    (h : ∀ a ∈ rows, f a = g a) : rows.findSome? f = rows.findSome? g := by
  induction rows with
  | nil => rfl
  | cons a rest ih =>
      rw [List.findSome?_cons, List.findSome?_cons, h a List.mem_cons_self,
        ih fun b hb => h b (List.mem_cons_of_mem _ hb)]

/-- **What is emitted is the first candidate of each key that was not seen at the start.** -/
theorem mem_emitAll_first (cands : List (κ × β)) (st : List κ × List β) (b : β) :
    b ∈ (emitAll st cands).2 ↔ b ∈ st.2 ∨ ∃ k, k ∉ st.1 ∧ firstOf cands k = some b := by
  induction cands generalizing st with
  | nil => simp [emitAll, firstOf]
  | cons c rest ih =>
      have hrest := ih (emit st c)
      unfold emitAll at hrest ⊢
      rw [List.foldl_cons, hrest]
      simp only [firstOf_cons]
      by_cases hseen : c.1 ∈ st.1
      · rw [show emit st c = st from if_pos hseen]
        refine or_congr_right (exists_congr fun k => and_congr_right fun hk => ?_)
        have hne : c.1 ≠ k := fun hc => hk (hc ▸ hseen)
        rw [if_neg hne]
      · rw [show emit st c = (c.1 :: st.1, st.2 ++ [c.2]) from if_neg hseen]
        simp only [List.mem_append, List.mem_cons, List.not_mem_nil, or_false, not_or]
        constructor
        · rintro ((h | rfl) | ⟨k, ⟨hne, hk⟩, hfirst⟩)
          · exact Or.inl h
          · exact Or.inr ⟨c.1, hseen, if_pos rfl⟩
          · exact Or.inr ⟨k, hk, by rw [if_neg (Ne.symm hne)]; exact hfirst⟩
        · rintro (h | ⟨k, hk, hfirst⟩)
          · exact Or.inl (Or.inl h)
          · by_cases hck : c.1 = k
            · rw [if_pos hck] at hfirst
              exact Or.inl (Or.inr (Option.some.inj hfirst).symm)
            · rw [if_neg hck] at hfirst
              exact Or.inr ⟨k, ⟨Ne.symm hck, hk⟩, hfirst⟩

/-- **When candidates with one unseen key are one item, what is emitted does not depend on
their order**: it is every candidate whose key was not seen at the start. -/
theorem mem_emitAll (cands : List (κ × β)) (st : List κ × List β)
    (hagree : ∀ k, k ∉ st.1 → ∀ a b, (k, a) ∈ cands → (k, b) ∈ cands → a = b) (b : β) :
    b ∈ (emitAll st cands).2 ↔ b ∈ st.2 ∨ ∃ k, (k, b) ∈ cands ∧ k ∉ st.1 := by
  rw [mem_emitAll_first]
  refine or_congr_right (exists_congr fun k => ?_)
  constructor
  · rintro ⟨hk, hfirst⟩
    exact ⟨mem_of_firstOf hfirst, hk⟩
  · rintro ⟨hmem, hk⟩
    refine ⟨hk, ?_⟩
    cases hfirst : firstOf cands k with
    | none => exact absurd hmem (firstOf_eq_none.mp hfirst b)
    | some a => rw [hagree k hk a b (mem_of_firstOf hfirst) hmem]

/-- Items that tell their key are emitted once each. -/
theorem nodup_emitAll {key : β → κ} (st : List κ × List β) (cands : List (κ × β))
    (hkey : ∀ c ∈ cands, key c.2 = c.1) (hst : ∀ b ∈ st.2, key b ∈ st.1) (h : st.2.Nodup) :
    (emitAll st cands).2.Nodup ∧ ∀ b ∈ (emitAll st cands).2, key b ∈ (emitAll st cands).1 := by
  induction cands generalizing st with
  | nil => exact ⟨h, hst⟩
  | cons c rest ih =>
      apply ih _ (fun c' hc' => hkey c' (List.mem_cons_of_mem _ hc'))
      · unfold emit
        split
        · exact hst
        · intro b hb
          rcases List.mem_append.mp hb with hb | hb
          · exact List.mem_cons_of_mem _ (hst b hb)
          · rw [List.mem_singleton.mp hb, hkey c List.mem_cons_self]
            exact List.mem_cons_self
      · unfold emit
        split
        · exact h
        · rename_i hseen
          refine List.nodup_append.mpr ⟨h, List.nodup_singleton _, fun b hb b' hb' heq => hseen ?_⟩
          rw [← hkey c List.mem_cons_self, ← List.mem_singleton.mp hb', ← heq]
          exact hst b hb

/-- Two rounds of candidates after what is shown, in whatever order: a key's first candidate
of the first round, else of the second. -/
theorem mem_emitAll_emitAll_first (seen : List κ) (shown : List β) (first second : List (κ × β))
    (b : β) :
    b ∈ (emitAll (emitAll (seen, shown) first) second).2 ↔
      b ∈ shown ∨ ∃ k, k ∉ seen ∧ (firstOf first k).or (firstOf second k) = some b := by
  rw [mem_emitAll_first, mem_emitAll_first, or_assoc, ← exists_or]
  refine or_congr_right (exists_congr fun k => ?_)
  have hkey : k ∉ (emitAll (seen, shown) first).1 ↔ k ∉ seen ∧ firstOf first k = none := by
    rw [mem_emitAll_keys, firstOf_eq_none, not_or, not_exists]
  rw [hkey]
  cases hfirst : firstOf first k with
  | none => simp
  | some a => simp

/-- Two rounds of candidates after what is shown: a round gives way to what came before it. -/
theorem mem_emitAll_emitAll (seen : List κ) (shown : List β) (first second : List (κ × β))
    (hfirst : ∀ k, k ∉ seen → ∀ a b, (k, a) ∈ first → (k, b) ∈ first → a = b)
    (hsecond : ∀ k, k ∉ seen → (∀ c, (k, c) ∉ first) →
      ∀ a b, (k, a) ∈ second → (k, b) ∈ second → a = b) (b : β) :
    b ∈ (emitAll (emitAll (seen, shown) first) second).2 ↔
      b ∈ shown ∨ (∃ k, (k, b) ∈ first ∧ k ∉ seen) ∨
      ∃ k, (k, b) ∈ second ∧ k ∉ seen ∧ ∀ c, (k, c) ∉ first := by
  have hkeys : ∀ k, k ∉ (emitAll (seen, shown) first).1 ↔ k ∉ seen ∧ ∀ c, (k, c) ∉ first := by
    intro k
    rw [mem_emitAll_keys]
    simp only [not_or, not_exists]
  rw [mem_emitAll second, mem_emitAll first _ hfirst, or_assoc]
  · simp only [hkeys]
  · intro k hk
    exact hsecond k ((hkeys k).mp hk).1 ((hkeys k).mp hk).2

end Dedup
