/-
Lists with one entry for each key.

An entry whose key is there already is merged into the entry that has it, and any other goes
to the end.  Keeping the first entry of a key and dropping the rest is the merge that returns
its left argument, and a list without repetitions is the case where the key is the entry.

`foldl_put_replay` is why such a list can be built apart and put in later: when merging is
associative, putting the entries of a list built from `es` is putting `es`.  Under a key the
list has the merge of its entries in their order (`find_foldl_put`), and their order does not
matter when any two of them merge alike both ways (`merged_perm`).
-/
import Mathlib.Data.List.Induction
import Mathlib.Data.List.Nodup

namespace Keyed

variable {α κ : Type*} [DecidableEq κ] {key : α → κ} {merge : α → α → α}

/-- Merge the entry into the one of its key, or push it. -/
def put (key : α → κ) (merge : α → α → α) : List α → α → List α
  | [], e => [e]
  | x :: rest, e => if key x = key e then merge x e :: rest else x :: put key merge rest e

/-- The entry that came first stays as it is. -/
def first (x _ : α) : α := x

/-- What merging asks for: it keeps the key and is associative. -/
structure Merges (key : α → κ) (merge : α → α → α) : Prop where
  key_merge : ∀ a b, key (merge a b) = key a
  assoc : ∀ a b c, merge (merge a b) c = merge a (merge b c)

omit [DecidableEq κ] in
theorem merges_first (key : α → κ) : Merges key first := ⟨fun _ _ => rfl, fun _ _ _ => rfl⟩

/-! ### One entry

What one `put` does, read through the keys: the keys stay without repetitions,
and under a key the entry is merged with what was there.
-/

theorem put_of_not_mem {l : List α} {e : α} (h : key e ∉ l.map key) :
    put key merge l e = l ++ [e] := by
  induction l with
  | nil => rfl
  | cons x rest ih =>
      simp only [List.map_cons, List.mem_cons, not_or] at h
      rw [put, if_neg (Ne.symm h.1), ih h.2]
      rfl

theorem put_first_of_mem {l : List α} {e : α} (h : key e ∈ l.map key) : put key first l e = l := by
  induction l with
  | nil => simp at h
  | cons x rest ih =>
      by_cases hx : key x = key e
      · rw [put, if_pos hx]
        rfl
      · rw [put, if_neg hx]
        refine congrArg _ (ih ?_)
        rcases List.mem_cons.mp h with hc | hc
        · exact absurd hc.symm hx
        · exact hc

/-- The same through the position of the key. -/
theorem put_eq_modify (l : List α) (e : α) :
    put key merge l e = match l.findIdx? (key · = key e) with
      | none => l ++ [e]
      | some i => l.modify i (merge · e) := by
  induction l with
  | nil => rfl
  | cons x rest ih =>
      by_cases hx : key x = key e
      · simp [put, hx, List.findIdx?_cons]
      · rw [put, if_neg hx, ih, List.findIdx?_cons]
        simp only [hx, decide_false, Bool.false_eq_true, if_false]
        cases rest.findIdx? (key · = key e) <;> rfl

/-- An entry is found under its key, when no two have one. -/
theorem find_of_nodup {l : List α} (h : (l.map key).Nodup) {e : α} (he : e ∈ l) :
    l.find? (key · = key e) = some e := by
  induction l with
  | nil => simp at he
  | cons x rest ih =>
      rw [List.map_cons, List.nodup_cons] at h
      rcases List.mem_cons.mp he with rfl | he
      · simp
      · have hx : ¬ key x = key e := fun hc => h.1 (hc ▸ List.mem_map_of_mem he)
        rw [List.find?_cons_of_neg (by simpa using hx), ih h.2 he]

section Merging

variable (hm : Merges key merge)
include hm

theorem keys_put (l : List α) (e : α) :
    (put key merge l e).map key = if key e ∈ l.map key then l.map key else l.map key ++ [key e] := by
  induction l with
  | nil => rfl
  | cons x rest ih =>
      by_cases hx : key x = key e
      · rw [put, if_pos hx]
        simp [hm.key_merge, hx]
      · have hx' : ¬ key e = key x := fun hc => hx hc.symm
        rw [put, if_neg hx, List.map_cons, ih]
        by_cases hmem : key e ∈ rest.map key
        · have hcons : key e ∈ (x :: rest).map key := List.mem_cons_of_mem _ hmem
          rw [if_pos hmem, if_pos hcons]
          rfl
        · have hcons : key e ∉ (x :: rest).map key := by
            rw [List.map_cons, List.mem_cons, not_or]
            exact ⟨hx', hmem⟩
          rw [if_neg hmem, if_neg hcons]
          rfl

theorem mem_keys_put {l : List α} {e : α} {k : κ} :
    k ∈ (put key merge l e).map key ↔ k ∈ l.map key ∨ k = key e := by
  rw [keys_put hm]
  split
  · rename_i he
    constructor
    · exact Or.inl
    · rintro (h | rfl)
      · exact h
      · exact he
  · simp

theorem nodup_put {l : List α} (h : (l.map key).Nodup) (e : α) :
    ((put key merge l e).map key).Nodup := by
  rw [keys_put hm]
  split
  · exact h
  · rename_i he
    exact List.nodup_append.mpr ⟨h, List.nodup_singleton _, by
      intro a ha b hb hab
      rw [List.mem_singleton.mp hb] at hab
      exact he (hab ▸ ha)⟩

/-- Two entries of one key go in as their merge. -/
theorem put_put_same (l : List α) {a b : α} (hab : key a = key b) :
    put key merge (put key merge l a) b = put key merge l (merge a b) := by
  induction l with
  | nil => simp [put, hab]
  | cons x rest ih =>
      by_cases hx : key x = key a
      · simp [put, hx, hab, hm.key_merge, hm.assoc]
      · have hx' : ¬ key x = key b := hab ▸ hx
        simp only [put, hx, if_false, hm.key_merge, hx', ih]

/-- Entries of different keys go in in either order, when one only changes what is there. -/
theorem put_comm (l : List α) {a b : α} (hab : key a ≠ key b) (hb : key b ∈ l.map key) :
    put key merge (put key merge l a) b = put key merge (put key merge l b) a := by
  induction l with
  | nil => simp at hb
  | cons x rest ih =>
      by_cases hxa : key x = key a
      · simp [put, hxa, hm.key_merge, hab]
      · by_cases hxb : key x = key b
        · have hba : ¬ key b = key a := fun hc => hab hc.symm
          simp [put, hxb, hm.key_merge, hba]
        · have hrest : key b ∈ rest.map key := by
            rcases List.mem_cons.mp hb with hc | hc
            · exact absurd hc.symm hxb
            · exact hc
          simp only [put, hxa, hxb, if_false, ih hrest]

/-! ### Many entries

Entries of different keys pass each other, so a list that was built apart can be
put in entry by entry.
-/

theorem nodup_foldl_put (es : List α) {l : List α} (h : (l.map key).Nodup) :
    ((es.foldl (put key merge) l).map key).Nodup := by
  induction es generalizing l with
  | nil => exact h
  | cons e rest ih => exact ih (nodup_put hm h e)

theorem mem_keys_foldl_put (es : List α) (l : List α) {k : κ} :
    k ∈ (es.foldl (put key merge) l).map key ↔ k ∈ l.map key ∨ k ∈ es.map key := by
  induction es generalizing l with
  | nil => simp
  | cons e rest ih =>
      rw [List.foldl_cons, ih, mem_keys_put hm, List.map_cons, List.mem_cons]
      tauto

/-- An entry of a key that is there passes over entries of other keys. -/
theorem foldl_put_comm (es : List α) {l : List α} {e : α} (hl : key e ∈ l.map key)
    (hes : key e ∉ es.map key) :
    es.foldl (put key merge) (put key merge l e) = put key merge (es.foldl (put key merge) l) e := by
  induction es generalizing l with
  | nil => rfl
  | cons x rest ih =>
      simp only [List.map_cons, List.mem_cons, not_or] at hes
      rw [List.foldl_cons, List.foldl_cons, ← put_comm hm l (Ne.symm hes.1) hl]
      exact ih ((mem_keys_put hm).mpr (Or.inl hl)) hes.2

theorem foldl_put_put {l : List α} (hl : (l.map key).Nodup) (m : List α) (e : α) :
    (put key merge l e).foldl (put key merge) m
      = put key merge (l.foldl (put key merge) m) e := by
  induction l generalizing m with
  | nil => rfl
  | cons x rest ih =>
      rw [List.map_cons, List.nodup_cons] at hl
      by_cases hx : key x = key e
      · rw [put, if_pos hx, List.foldl_cons, List.foldl_cons, ← put_put_same hm m hx]
        exact foldl_put_comm hm rest ((mem_keys_put hm).mpr (Or.inr hx.symm)) (hx ▸ hl.1)
      · rw [put, if_neg hx, List.foldl_cons, List.foldl_cons]
        exact ih hl.2 _

/-- **A list built apart and put in later** is put in entry by entry. -/
theorem foldl_put_replay (es : List α) (m : List α) :
    (es.foldl (put key merge) []).foldl (put key merge) m = es.foldl (put key merge) m := by
  induction es using List.reverseRecOn with
  | nil => rfl
  | append_singleton es e ih =>
      rw [List.foldl_append, List.foldl_append, List.foldl_cons, List.foldl_nil,
        foldl_put_put hm (nodup_foldl_put hm es (l := []) List.nodup_nil), ih]
      rfl

/-- The key of an entry has one. -/
theorem find_put (l : List α) (e : α) (k : κ) :
    (put key merge l e).find? (key · = k)
      = if key e = k then some ((l.find? (key · = k)).elim e (merge · e))
        else l.find? (key · = k) := by
  induction l with
  | nil =>
      by_cases hk : key e = k
      · simp [put, hk]
      · simp [put, hk]
  | cons x rest ih =>
      by_cases hx : key x = key e
      · rw [put, if_pos hx]
        by_cases hk : key e = k
        · simp [hk, hm.key_merge, hx]
        · simp [hk, hm.key_merge, hx]
      · rw [put, if_neg hx]
        by_cases hxk : key x = k
        · have hk : ¬ key e = k := fun hc => hx (hxk.trans hc.symm)
          simp [hxk, hk]
        · rw [List.find?_cons_of_neg (by simpa using hxk), ih,
            List.find?_cons_of_neg (by simpa using hxk)]

end Merging

/-! ### What stands under a key

Under each key a fold of `put` is a fold over the entries of that key alone.
With it the questions about order reduce to the merge of the entries of one key.
-/

/-- The entries merged in their order. -/
def merged (merge : α → α → α) (es : List α) : Option α :=
  es.foldl (fun so_far e => some (so_far.elim e (merge · e))) none

omit [DecidableEq κ] in
theorem merged_cons (e : α) (es : List α) : merged merge (e :: es) = some (es.foldl merge e) := by
  have hrun : ∀ (es : List α) (x : α),
      es.foldl (fun so_far e => some (so_far.elim e (merge · e))) (some x)
        = some (es.foldl merge x) := by
    intro es
    induction es with
    | nil => intro x; rfl
    | cons e rest ih => intro x; exact ih (merge x e)
  exact hrun es e

omit [DecidableEq κ] in
theorem merged_append_singleton (es : List α) (e : α) :
    merged merge (es ++ [e]) = some ((merged merge es).elim e (merge · e)) := by
  unfold merged
  rw [List.foldl_append]
  rfl

/-- Only the first of the entries stays. -/
theorem merged_first (es : List α) : merged first es = es.head? := by
  cases es with
  | nil => rfl
  | cons e rest =>
      have hstay : rest.foldl first e = e := by
        induction rest with
        | nil => rfl
        | cons x rest ih => exact ih
      rw [merged_cons, hstay]
      rfl

/-- **A fold seen under one key** is a fold over the entries of the key, when each step shows
under its own key only. -/
theorem view_foldl {σ π : Type*} {step : σ → α → σ} {view : σ → π} {act : π → α → π} {k : κ}
    (hown : ∀ s e, key e = k → view (step s e) = act (view s) e)
    (hother : ∀ s e, key e ≠ k → view (step s e) = view s) (es : List α) (s : σ) :
    view (es.foldl step s) = (es.filter (key · = k)).foldl act (view s) := by
  induction es generalizing s with
  | nil => rfl
  | cons e es ih =>
      rw [List.foldl_cons, ih]
      by_cases hk : key e = k
      · rw [hown s e hk, List.filter_cons_of_pos (by simpa using hk), List.foldl_cons]
      · rw [hother s e hk, List.filter_cons_of_neg (by simpa using hk)]

/-- **Under a key stands the merge of its entries.** -/
theorem find_foldl_put (hm : Merges key merge) (es : List α) (k : κ) :
    (es.foldl (put key merge) []).find? (key · = k) = merged merge (es.filter (key · = k)) := by
  have hown : ∀ l e, key e = k → (put key merge l e).find? (key · = k)
      = some ((l.find? (key · = k)).elim e (merge · e)) := by
    intro l e hk
    rw [find_put hm, if_pos hk]
  have hother : ∀ l e, key e ≠ k →
      (put key merge l e).find? (key · = k) = l.find? (key · = k) := by
    intro l e hk
    rw [find_put hm, if_neg hk]
  exact view_foldl hown hother es []

/-- An entry that stands there is the merge of the entries of its key. -/
theorem mem_foldl_put (hm : Merges key merge) {es : List α} {x : α}
    (hx : x ∈ es.foldl (put key merge) []) :
    merged merge (es.filter (key · = key x)) = some x := by
  have hnodup := nodup_foldl_put hm es (l := []) List.nodup_nil
  rw [← find_foldl_put hm, find_of_nodup hnodup hx]

theorem mem_of_mem_foldl_first {es : List α} {x : α} (hx : x ∈ es.foldl (put key first) []) :
    x ∈ es := by
  have hhead := mem_foldl_put (merges_first key) hx
  rw [merged_first] at hhead
  exact (List.mem_filter.mp (List.mem_of_mem_head? hhead)).1

/-- The first entries stay in their order. -/
theorem sublist_foldl_first (key : α → κ) (es : List α) :
    (es.foldl (put key first) []).Sublist es := by
  induction es using List.reverseRecOn with
  | nil => exact List.Sublist.refl _
  | append_singleton es e ih =>
      rw [List.foldl_append, List.foldl_cons, List.foldl_nil]
      by_cases h : key e ∈ (es.foldl (put key first) []).map key
      · rw [put_first_of_mem h]
        exact ih.trans (List.sublist_append_left _ _)
      · rw [put_of_not_mem h]
        exact ih.append (List.Sublist.refl _)

/-- The entry that stays stands before the others of its key. -/
theorem before_of_mem_foldl_first {R : α → α → Prop} {es : List α} (hes : es.Pairwise R) {x y : α}
    (hx : x ∈ es.foldl (put key first) []) (hy : y ∈ es) (hkey : key y = key x) : y = x ∨ R x y := by
  have hhead := mem_foldl_put (merges_first key) hx
  rw [merged_first] at hhead
  have hmem : y ∈ es.filter (key · = key x) := List.mem_filter.mpr ⟨hy, decide_eq_true hkey⟩
  obtain ⟨rest, hrest⟩ := List.head?_eq_some_iff.mp hhead
  have hpairs := hes.filter (fun z => decide (key z = key x))
  rw [hrest] at hmem hpairs
  rcases List.mem_cons.mp hmem with rfl | hmem
  · exact Or.inl rfl
  · exact Or.inr ((List.pairwise_cons.mp hpairs).1 y hmem)

/-- Of each key some entry stays. -/
theorem exists_mem_foldl_first (key : α → κ) {es : List α} {e : α} (he : e ∈ es) :
    ∃ x ∈ es.foldl (put key first) [], key x = key e := by
  have hkey := (mem_keys_foldl_put (merges_first key) es []).mpr
    (Or.inr (List.mem_map_of_mem (f := key) he))
  obtain ⟨x, hx, hxe⟩ := List.mem_map.mp hkey
  exact ⟨x, hx, hxe⟩

section Order

variable {α' : Type*} {merge' : α' → α' → α'}

omit [DecidableEq κ] in
/-- What a merge does to a part of the entries. -/
theorem merged_map {f : α → α'} (hf : ∀ a b, f (merge a b) = merge' (f a) (f b)) (es : List α) :
    (merged merge es).map f = merged merge' (es.map f) := by
  induction es using List.reverseRecOn with
  | nil => rfl
  | append_singleton es e ih =>
      rw [merged_append_singleton, List.map_append, List.map_cons, List.map_nil,
        merged_append_singleton, ← ih]
      cases merged merge es with
      | none => rfl
      | some x => exact congrArg some (hf x e)

omit [DecidableEq κ] in
/-- **The order of the entries does not matter** when any two merge alike both ways. -/
theorem merged_perm (hassoc : ∀ a b c, merge (merge a b) c = merge a (merge b c)) {es es' : List α}
    (hcomm : ∀ a ∈ es, ∀ b ∈ es, merge a b = merge b a) (hperm : es.Perm es') :
    merged merge es = merged merge es' := by
  refine hperm.foldl_eq' (fun a ha b hb so_far => ?_) none
  cases so_far with
  | none => exact congrArg some (hcomm a ha b hb)
  | some x =>
      have hswap : merge (merge x a) b = merge (merge x b) a := by
        rw [hassoc, hassoc, hcomm a ha b hb]
      exact congrArg some hswap

end Order

end Keyed
