/-
Lists and edges filed under interned names.

A map of the index files what it holds under the id of a name.  Read by name it does not
notice that the table of names grows, a change under one name changes no other name, and a
walk over it, whatever its order, meets the entries of each name in their order.  Edges are
the same with the values interned too.
-/
import Vycor.Model.GlobalIndex
import Vycor.Proofs.Walks

namespace Vycor

open UMap

namespace GlobalIndex

variable {α : Type} {names names' : StringInterner} {name : α → Str} {m : UMap SId (List α)}

/-! ### Lists under a name -/

/-- What a map files under a name has that name. -/
structure Named (names : StringInterner) (name : α → Str) (m : UMap SId (List α)) : Prop where
  nodup : names.strings.Nodup
  below : ∀ id l, m.lookup id = some l → id < names.size
  nonempty : ∀ id l, m.lookup id = some l → l ≠ []
  name : ∀ id l, m.lookup id = some l → ∀ e ∈ l, name e = names.resolve id

theorem named_empty (name : α → Str) : Named {} name ∅ where
  nodup := List.nodup_nil
  below _ _ h := by simp at h
  nonempty _ _ h := by simp at h
  name _ _ h := by simp at h

theorem getD_past (hbelow : ∀ id l, m.lookup id = some l → id < names.size) {id : SId}
    (hid : names.size ≤ id) : m.getD id [] = [] := by
  unfold UMap.getD
  cases hl : m.lookup id with
  | none => rfl
  | some l => exact absurd (hbelow id l hl) (Nat.not_lt.mpr hid)

/-- A name without an id reads past the ids of the map. -/
theorem findNamed_eq (hbelow : ∀ id l, m.lookup id = some l → id < names.size) (n : Str) :
    findNamed names m n = m.getD (names.idOf n) [] := by
  unfold findNamed StringInterner.find
  split
  · rename_i hnone
    split at hnone
    · simp at hnone
    · rename_i hn
      exact (getD_past hbelow (Nat.not_lt.mp (mt StringInterner.idOf_lt.mp hn))).symm
  · rename_i id hsome
    split at hsome
    · injection hsome with hsome
      rw [hsome]
    · simp at hsome

theorem findNamed_grow (hbelow : ∀ id l, m.lookup id = some l → id < names.size)
    (hgrown : names.strings <+: names'.strings) (n : Str) :
    findNamed names' m n = findNamed names m n := by
  have hbelow' : ∀ id l, m.lookup id = some l → id < names'.size := fun id l hl =>
    Nat.lt_of_lt_of_le (hbelow id l hl) (StringInterner.size_le_of_grown hgrown)
  rw [findNamed_eq hbelow, findNamed_eq hbelow']
  rcases StringInterner.idOf_grow hgrown n with hn | ⟨hn', hn⟩
  · rw [hn]
  · rw [getD_past hbelow hn', getD_past hbelow hn]

theorem Named.grow (h : Named names name m) (hgrown : names.strings <+: names'.strings)
    (hnd : names'.strings.Nodup) : Named names' name m where
  nodup := hnd
  below id l hl :=
    Nat.lt_of_lt_of_le (h.below id l hl) (StringInterner.size_le_of_grown hgrown)
  nonempty := h.nonempty
  name id l hl e he := by
    rw [h.name id l hl e he, StringInterner.resolve_of_grown hgrown (h.below id l hl)]

/-- **A change under one name changes no other name.** -/
theorem findNamed_upsert (hbelow : ∀ id l, m.lookup id = some l → id < names.size)
    (hgrown : names.strings <+: names'.strings) {s : Str} (hs : s ∈ names'.strings)
    (f : List α → List α) (n : Str) :
    findNamed names' (m.upsert (names'.idOf s) [] f) n
      = if n = s then f (findNamed names m s) else findNamed names m n := by
  have hbelow' : ∀ id l, (m.upsert (names'.idOf s) [] f).lookup id = some l → id < names'.size := by
    intro id l hl
    rw [lookup_upsert] at hl
    split at hl
    · rename_i hid
      rw [hid]
      exact StringInterner.idOf_lt.mpr hs
    · exact Nat.lt_of_lt_of_le (hbelow id l hl) (StringInterner.size_le_of_grown hgrown)
  have hold : ∀ n, m.getD (names'.idOf n) [] = findNamed names m n := by
    intro n
    rw [← findNamed_grow hbelow hgrown, findNamed_eq fun id l hl =>
      Nat.lt_of_lt_of_le (hbelow id l hl) (StringInterner.size_le_of_grown hgrown)]
  rw [findNamed_eq hbelow', getD_upsert, hold, hold]
  by_cases hn : n = s
  · rw [if_pos hn, if_pos (congrArg _ hn)]
  · rw [if_neg hn, if_neg (mt (StringInterner.idOf_inj hs).mp hn)]

theorem Named.upsert (h : Named names name m) {s : Str} {f : List α → List α}
    (hne : ∀ l, f l ≠ []) (hf : ∀ l, (∀ e ∈ l, name e = s) → ∀ e ∈ f l, name e = s) :
    Named (names.intern s) name (m.upsert ((names.intern s).idOf s) [] f) := by
  have hgrown := StringInterner.prefix_intern names s
  have hmem := StringInterner.mem_intern names s
  have hgrow := h.grow hgrown (StringInterner.nodup_intern h.nodup s)
  refine ⟨hgrow.nodup, ?_, ?_, ?_⟩
  · intro id l hl
    rw [lookup_upsert] at hl
    split at hl
    · rename_i hid
      rw [hid]
      exact StringInterner.idOf_lt.mpr hmem
    · exact hgrow.below id l hl
  · intro id l hl
    rw [lookup_upsert] at hl
    split at hl
    · injection hl with hl
      exact hl ▸ hne _
    · exact hgrow.nonempty id l hl
  · intro id l hl
    rw [lookup_upsert] at hl
    split at hl
    · rename_i hid
      injection hl with hl
      rw [← hl, hid, StringInterner.resolve_idOf hmem]
      refine hf _ ?_
      intro e he
      unfold UMap.getD at he
      cases hold : m.lookup ((names.intern s).idOf s) with
      | none => simp [hold] at he
      | some l' =>
          rw [hold] at he
          rw [hgrow.name _ l' hold e he, StringInterner.resolve_idOf hmem]
    · exact hgrow.name id l hl

/-- The entries of a walk under one name are those of the name, in their order. -/
theorem Named.filter_walk (h : Named names name m) (w : HashWalk) (n : Str) :
    (forEachNamed w m).filter (name · = n) = findNamed names m n := by
  have hentry : ∀ entry ∈ w.walk m, entry.2.filter (name · = n)
      = if entry.1 = names.idOf n then entry.2 else [] := by
    rintro ⟨id, l⟩ hmem
    have hl : m.lookup id = some l := (mem_entries m id l).mp ((w.perm m).mem_iff.mp hmem)
    have hlt := h.below id l hl
    dsimp only
    split
    · rename_i hid
      refine List.filter_eq_self.mpr ?_
      intro e he
      have hn : n ∈ names.strings := StringInterner.idOf_lt.mp (hid ▸ hlt)
      rw [h.name id l hl e he, hid, StringInterner.resolve_idOf hn]
      simp
    · rename_i hid
      refine List.filter_eq_nil_iff.mpr ?_
      intro e he
      rw [h.name id l hl e he]
      simp only [decide_eq_true_eq]
      rintro rfl
      exact hid (StringInterner.idOf_resolve h.nodup hlt).symm
  unfold forEachNamed
  rw [List.filter_flatMap, findNamed_eq h.below, ← walk_at w]
  exact List.flatMap_congr hentry

/-- A walk lists the names that have entries. -/
theorem Named.mem_names (h : Named names name m) (w : HashWalk) (n : Str) :
    n ∈ (w.walk m).map (fun entry => names.resolve entry.1) ↔ findNamed names m n ≠ [] := by
  rw [findNamed_eq h.below]
  unfold UMap.getD
  constructor
  · intro hmem
    obtain ⟨⟨id, l⟩, hentry, rfl⟩ := List.mem_map.mp hmem
    have hl : m.lookup id = some l := (mem_entries m id l).mp ((w.perm m).mem_iff.mp hentry)
    dsimp only
    rw [StringInterner.idOf_resolve h.nodup (h.below id l hl), hl]
    exact h.nonempty id l hl
  · intro hne
    cases hl : m.lookup (names.idOf n) with
    | none => simp [hl] at hne
    | some l =>
        have hentry := (w.perm m).mem_iff.mpr ((mem_entries m _ l).mpr hl)
        refine List.mem_map.mpr ⟨_, hentry, ?_⟩
        exact StringInterner.resolve_idOf (StringInterner.idOf_lt.mp (h.below _ l hl))

end GlobalIndex

/-! ### Edges between names -/

namespace TypeRelationIndex

variable {names names' : StringInterner} {edges : UMap SId (List SId)}

/-- The targets of a name, by name. -/
def edgesFrom (names : StringInterner) (edges : UMap SId (List SId)) (n : Str) : List Str :=
  (GlobalIndex.findNamed names edges n).map names.resolve

/-- The ids of a table of edges are ids of names. -/
structure Edged (names : StringInterner) (edges : UMap SId (List SId)) : Prop where
  nodup : names.strings.Nodup
  source : ∀ id l, edges.lookup id = some l → id < names.size
  target : ∀ id l, edges.lookup id = some l → ∀ t ∈ l, t < names.size

theorem edged_empty : Edged {} ∅ where
  nodup := List.nodup_nil
  source _ _ h := by simp at h
  target _ _ h := by simp at h

theorem Edged.mem_target (h : Edged names edges) {n : Str} {t : SId}
    (ht : t ∈ GlobalIndex.findNamed names edges n) : t < names.size := by
  rw [GlobalIndex.findNamed_eq h.source] at ht
  unfold UMap.getD at ht
  cases hl : edges.lookup (names.idOf n) with
  | none => simp [hl] at ht
  | some l =>
      rw [hl] at ht
      exact h.target _ l hl t ht

theorem Edged.grow (h : Edged names edges) (hgrown : names.strings <+: names'.strings)
    (hnd : names'.strings.Nodup) : Edged names' edges where
  nodup := hnd
  source id l hl :=
    Nat.lt_of_lt_of_le (h.source id l hl) (StringInterner.size_le_of_grown hgrown)
  target id l hl t ht :=
    Nat.lt_of_lt_of_le (h.target id l hl t ht) (StringInterner.size_le_of_grown hgrown)

theorem Edged.edgesFrom_grow (h : Edged names edges) (hgrown : names.strings <+: names'.strings)
    (n : Str) : edgesFrom names' edges n = edgesFrom names edges n := by
  unfold edgesFrom
  rw [GlobalIndex.findNamed_grow h.source hgrown]
  exact List.map_congr_left fun t ht => StringInterner.resolve_of_grown hgrown (h.mem_target ht)

theorem Edged.pushEdge (h : Edged names edges) {source target : SId} (hs : source < names.size)
    (ht : target < names.size) : Edged names (pushEdge edges source target) := by
  refine ⟨h.nodup, ?_, ?_⟩
  · intro id l hl
    unfold TypeRelationIndex.pushEdge at hl
    rw [lookup_upsert] at hl
    split at hl
    · rename_i hid
      exact hid ▸ hs
    · exact h.source id l hl
  · intro id l hl t htl
    unfold TypeRelationIndex.pushEdge at hl
    rw [lookup_upsert] at hl
    split at hl
    · injection hl with hl
      rw [← hl, Dedup.mem_pushUnique] at htl
      rcases htl with htl | rfl
      · unfold UMap.getD at htl
        cases hold : edges.lookup source with
        | none => simp [hold] at htl
        | some l' =>
            rw [hold] at htl
            exact h.target source l' hold t htl
      · exact ht
    · exact h.target id l hl t htl

/-- Pushing an id unless it is there is pushing its name unless it is there. -/
theorem map_pushUnique (hnd : names.strings.Nodup) {l : List SId} (hl : ∀ t ∈ l, t < names.size)
    {target : Str} (ht : target ∈ names.strings) :
    (Dedup.pushUnique l (names.idOf target)).map names.resolve
      = Dedup.pushUnique (l.map names.resolve) target := by
  have hiff : names.idOf target ∈ l ↔ target ∈ l.map names.resolve := by
    rw [StringInterner.idOf_mem_iff hnd hl, List.mem_map]
  unfold Dedup.pushUnique
  by_cases hmem : names.idOf target ∈ l
  · rw [if_pos hmem, if_pos (hiff.mp hmem)]
  · rw [if_neg hmem, if_neg (mt hiff.mpr hmem), List.map_append, List.map_singleton,
      StringInterner.resolve_idOf ht]

/-- **One more edge.** -/
theorem Edged.edgesFrom_pushEdge (h : Edged names edges)
    (hgrown : names.strings <+: names'.strings) (hnd : names'.strings.Nodup) {source target : Str}
    (hs : source ∈ names'.strings) (ht : target ∈ names'.strings) (n : Str) :
    edgesFrom names' (TypeRelationIndex.pushEdge edges (names'.idOf source) (names'.idOf target)) n
      = if n = source then Dedup.pushUnique (edgesFrom names edges source) target
        else edgesFrom names edges n := by
  have hgrow := h.grow hgrown hnd
  have hold := h.edgesFrom_grow hgrown
  unfold edgesFrom TypeRelationIndex.pushEdge at *
  rw [GlobalIndex.findNamed_upsert hgrow.source List.prefix_rfl hs]
  split
  · rw [map_pushUnique hnd (fun t ht => hgrow.mem_target ht) ht, hold]
  · exact hold n

/-- The edges of a walk from one name are those of the name, in their order. -/
theorem Edged.filter_walk (h : Edged names edges) (w : HashWalk) (n : Str) :
    ((forEachEdge w names edges).filter (·.1 = n)).map (·.2) = edgesFrom names edges n := by
  have hentry : ∀ entry ∈ w.walk edges,
      ((entry.2.map fun target => (names.resolve entry.1, names.resolve target)).filter
          (·.1 = n)).map (·.2)
        = (if entry.1 = names.idOf n then entry.2 else []).map names.resolve := by
    rintro ⟨id, l⟩ hmem
    have hl : edges.lookup id = some l := (mem_entries edges id l).mp ((w.perm edges).mem_iff.mp hmem)
    have hlt := h.source id l hl
    dsimp only
    split
    · rename_i hid
      have hn : n ∈ names.strings := StringInterner.idOf_lt.mp (hid ▸ hlt)
      rw [List.filter_eq_self.mpr, List.map_map]
      · rfl
      · intro e he
        obtain ⟨t, -, rfl⟩ := List.mem_map.mp he
        simp [hid, StringInterner.resolve_idOf hn]
    · rename_i hid
      rw [List.filter_eq_nil_iff.mpr]
      · rfl
      · intro e he
        obtain ⟨t, -, rfl⟩ := List.mem_map.mp he
        simp only [decide_eq_true_eq]
        rintro rfl
        exact hid (StringInterner.idOf_resolve h.nodup hlt).symm
  unfold forEachEdge edgesFrom
  rw [List.filter_flatMap, List.map_flatMap, GlobalIndex.findNamed_eq h.source, ← walk_at w,
    List.map_flatMap]
  exact List.flatMap_congr hentry

end TypeRelationIndex

end Vycor
