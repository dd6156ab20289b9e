/-
The string interner.

An id is a position in the table, and a string keeps its first position: `intern`
appends only strings the table does not hold.  `idOf` is the position a string has or,
for a string that was never interned, the length of the table, an id that no container
of the program has seen.  So a container is read at a string by reading it at `idOf`,
whether or not the string is there.
-/
import Vycor.Model.Str
import Mathlib.Data.List.GetD
import Mathlib.Data.List.Nodup
import Mathlib.Tactic.Linarith

namespace Vycor

/-- `StringInterner::Id`. -/
abbrev SId := Nat

/-- The strings, each at its id. -/
structure StringInterner where
  strings : List Str := []
deriving DecidableEq

namespace StringInterner

def size (t : StringInterner) : Nat := t.strings.length

/-- The id of a string, or the size of the table when it has none. -/
def idOf (t : StringInterner) (s : Str) : SId := t.strings.idxOf s

/-- The id of a string, if it has one. -/
def find (t : StringInterner) (s : Str) : Option SId :=
  if s ∈ t.strings then some (t.idOf s) else none

/-- The table with the string in it.  Its id there is `idOf`. -/
def intern (t : StringInterner) (s : Str) : StringInterner :=
  if s ∈ t.strings then t else { strings := t.strings ++ [s] }

/-- The string of an id, the empty one where there is none. -/
def resolve (t : StringInterner) (id : SId) : Str := t.strings.getD id []

/-! ### Lookups -/

theorem idOf_lt {t : StringInterner} {s : Str} : t.idOf s < t.size ↔ s ∈ t.strings :=
  List.idxOf_lt_length_iff

theorem resolve_idOf {t : StringInterner} {s : Str} (h : s ∈ t.strings) :
    t.resolve (t.idOf s) = s := by
  have hlt : t.strings.idxOf s < t.strings.length := List.idxOf_lt_length_iff.mpr h
  rw [resolve, idOf, List.getD_eq_getElem _ _ hlt, List.getElem_idxOf hlt]

theorem idOf_inj {t : StringInterner} {s s' : Str} (h : s ∈ t.strings) :
    t.idOf s' = t.idOf s ↔ s' = s := by
  constructor
  · intro heq
    have hs' : s' ∈ t.strings := idOf_lt.mp (heq ▸ idOf_lt.mpr h)
    rw [← resolve_idOf hs', heq, resolve_idOf h]
  · rintro rfl
    rfl

theorem resolve_mem {t : StringInterner} {id : SId} (h : id < t.size) :
    t.resolve id ∈ t.strings := by
  rw [resolve, List.getD_eq_getElem _ _ h]
  exact List.getElem_mem h

/-- An id that was never handed out stands for the empty string. -/
theorem resolve_mem_strings (t : StringInterner) (id : SId) : t.resolve id ∈ [] :: t.strings := by
  by_cases hid : id < t.size
  · exact List.mem_cons_of_mem _ (resolve_mem hid)
  · have hlong : t.strings.length ≤ id := Nat.not_lt.mp hid
    rw [resolve, List.getD_eq_default _ _ hlong]
    exact List.mem_cons_self

theorem idOf_resolve {t : StringInterner} (hnd : t.strings.Nodup) {id : SId} (h : id < t.size) :
    t.idOf (t.resolve id) = id := by
  rw [resolve, idOf, List.getD_eq_getElem _ _ h]
  exact hnd.idxOf_getElem id h

/-- A list of ids, read as a list of strings. -/
theorem idOf_mem_iff {t : StringInterner} (hnd : t.strings.Nodup) {ids : List SId}
    (h : ∀ i ∈ ids, i < t.size) {s : Str} : t.idOf s ∈ ids ↔ ∃ i ∈ ids, t.resolve i = s := by
  constructor
  · intro hs
    exact ⟨t.idOf s, hs, resolve_idOf (idOf_lt.mp (h _ hs))⟩
  · rintro ⟨i, hi, rfl⟩
    rwa [idOf_resolve hnd (h i hi)]

theorem find_eq_some {t : StringInterner} {s : Str} {id : SId} :
    t.find s = some id ↔ s ∈ t.strings ∧ t.idOf s = id := by
  unfold find
  split <;> simp_all

/-- An id in range stands for a string exactly when the string is found under it. -/
theorem find_eq_some_iff_resolve {t : StringInterner} (hnd : t.strings.Nodup) {id : SId}
    (h : id < t.size) {s : Str} : t.find s = some id ↔ t.resolve id = s := by
  rw [find_eq_some]
  constructor
  · rintro ⟨hmem, rfl⟩
    exact resolve_idOf hmem
  · rintro rfl
    exact ⟨resolve_mem h, idOf_resolve hnd h⟩

/-! ### Growing the table -/

theorem mem_intern (t : StringInterner) (s : Str) : s ∈ (t.intern s).strings := by
  unfold intern
  split
  · assumption
  · simp

theorem intern_of_mem {t : StringInterner} {s : Str} (h : s ∈ t.strings) : t.intern s = t :=
  if_pos h

theorem prefix_intern (t : StringInterner) (s : Str) :
    t.strings <+: (t.intern s).strings := by
  unfold intern
  split
  · exact List.prefix_rfl
  · exact List.prefix_append _ _

theorem nodup_intern {t : StringInterner} (h : t.strings.Nodup) (s : Str) :
    (t.intern s).strings.Nodup := by
  unfold intern
  split
  · exact h
  · rename_i hs
    exact List.nodup_append.mpr ⟨h, List.nodup_singleton s, fun a ha b hb => by
      rw [List.mem_singleton.mp hb]
      rintro rfl
      exact hs ha⟩

variable {t t' : StringInterner}

theorem size_le_of_grown (h : t.strings <+: t'.strings) : t.size ≤ t'.size := h.length_le

theorem idOf_of_grown (h : t.strings <+: t'.strings) {s : Str} (hs : s ∈ t.strings) :
    t'.idOf s = t.idOf s := by
  obtain ⟨more, heq⟩ := h
  rw [idOf, ← heq, List.idxOf_append_of_mem hs]
  rfl

/-- A longer table moves no string, and a string new to it gets an id past the old ones. -/
theorem idOf_grow (h : t.strings <+: t'.strings) (s : Str) :
    t'.idOf s = t.idOf s ∨ (t.size ≤ t'.idOf s ∧ t.size ≤ t.idOf s) := by
  by_cases hs : s ∈ t.strings
  · exact Or.inl (idOf_of_grown h hs)
  · refine Or.inr ⟨?_, Nat.not_lt.mp (mt idOf_lt.mp hs)⟩
    obtain ⟨more, heq⟩ := h
    rw [idOf, ← heq, List.idxOf_append_of_notMem hs]
    exact Nat.le_add_right _ _

theorem resolve_of_grown (h : t.strings <+: t'.strings) {id : SId} (hid : id < t.size) :
    t'.resolve id = t.resolve id := by
  obtain ⟨more, heq⟩ := h
  rw [resolve, resolve, ← heq, List.getD_append _ _ _ _ hid]

end StringInterner

end Vycor
