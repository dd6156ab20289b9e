/-
Growing the interner keeps the invariant.

The steps in id space are the unit of proof.  Each gets one lemma for `WF` and one for
`spec`, and the mutators are compositions of steps.  The first step is to intern a string:
it moves no id, so everything the maps say stays true, and the new string reads as absent.
-/
import Vycor.Proofs.EdgeTable
import Vycor.Proofs.GraphSpec

namespace Vycor

namespace CallGraph

open Dedup

theorem wf_empty : WF {} := by
  refine ⟨⟨List.nodup_nil, ?_, ?_, ?_, ?_, ?_⟩, ⟨?_, ?_, ?_, rfl⟩, ?_, ?_, ?_, ?_, ?_, ?_⟩
  · intro i n h
    simp at h
  · intro i k h
    simp [LiveAt] at h
  · intro i t h
    simp at h
  · intro t l h
    simp at h
  · intro r i j h
    cases r <;> simp [relation] at h
  · intro k i
    simp [LiveAt]
  · intro c
    simp [LiveAt]
  · intro c
    simp [LiveAt]
  · intro i
    simp
  · intro d
    simp
  · intro i t h
    simp at h
  · intro y
    simp
  · intro y
    simp
  · intro y
    simp

theorem spec_empty : ({} : CallGraph).spec = GraphSpec.empty := by
  refine GraphSpec.ext rfl ?_ rfl rfl rfl ?_
  · funext u
    exact Set.eq_empty_iff_forall_notMem.mpr fun _ h => List.not_mem_nil h
  · funext r x y
    exact eq_false (by cases r <;> exact List.not_mem_nil)

/-! ### Interning more strings

Every step below works in a graph whose strings are already interned.  Growing the table
first changes neither the invariant nor what the graph stands for.
-/

section Grow

variable {g : CallGraph} {t : StringInterner}

theorem size_le (h : g.interner.strings <+: t.strings) : g.interner.size ≤ t.size :=
  StringInterner.size_le_of_grown h

theorem WF.grow (hwf : WF g) (h : g.interner.strings <+: t.strings) (hnd : t.strings.Nodup) :
    WF { g with interner := t } := by
  have hle := size_le h
  have hids := hwf.ids
  refine { hwf with ids := ⟨hnd, ?_, ?_, ?_, ?_, ?_⟩, nodes := ?_ }
  · intro i n hn
    obtain ⟨hlt, hres, hmem⟩ := hids.node i n hn
    exact ⟨Nat.lt_of_lt_of_le hlt hle, (StringInterner.resolve_of_grown h hlt).trans hres,
      h.subset hmem⟩
  · intro i k hk
    obtain ⟨h₁, h₂, h₃⟩ := hids.edge i k hk
    exact ⟨Nat.lt_of_lt_of_le h₁ hle, Nat.lt_of_lt_of_le h₂ hle, Nat.lt_of_lt_of_le h₃ hle⟩
  · intro i t' ht
    obtain ⟨h₁, h₂⟩ := hids.contributor i t' ht
    exact ⟨Nat.lt_of_lt_of_le h₁ hle, Nat.lt_of_lt_of_le h₂ hle⟩
  · intro t' i ht
    exact Nat.lt_of_lt_of_le (hids.tuEdge t' i ht) hle
  · intro r i j hj
    obtain ⟨h₁, h₂⟩ := hids.related r i j hj
    exact ⟨Nat.lt_of_lt_of_le h₁ hle, Nat.lt_of_lt_of_le h₂ hle⟩
  · intro d
    refine ⟨(hwf.nodes d).1, ?_⟩
    intro i
    rw [(hwf.nodes d).2 i]
    constructor
    · rintro ⟨n, hn, hd⟩
      exact ⟨n, hn, (StringInterner.idOf_of_grown h (hids.node i n hn).2.2).trans hd⟩
    · rintro ⟨n, hn, hd⟩
      exact ⟨n, hn, (StringInterner.idOf_of_grown h (hids.node i n hn).2.2).symm.trans hd⟩

/-- A key with a string the old table did not hold is stored neither before nor after. -/
theorem WF.lookup_grow (hwf : WF g) (h : g.interner.strings <+: t.strings) (k : EdgeKey Str) :
    g.edgeIndex.lookup (k.map t.idOf) = g.edgeIndex.lookup (k.map g.interner.idOf) := by
  have hnone : ∀ k' : EdgeKey SId, ¬ KeyBelow g.interner.size k' → g.edgeIndex.lookup k' = none := by
    intro k' hk'
    cases hl : g.edgeIndex.lookup k' with
    | none => rfl
    | some i => exact absurd (hwf.ids.edge i k' ((hwf.edges.indexed k' i).mp hl)) hk'
  have hgrow : ∀ s, t.idOf s = g.interner.idOf s ∨
      (g.interner.size ≤ t.idOf s ∧ g.interner.size ≤ g.interner.idOf s) :=
    StringInterner.idOf_grow h
  rcases hgrow k.caller with h₁ | ⟨h₁, h₁'⟩
  · rcases hgrow k.callee with h₂ | ⟨h₂, h₂'⟩
    · rcases hgrow k.callSite with h₃ | ⟨h₃, h₃'⟩
      · have heq : k.map t.idOf = k.map g.interner.idOf := by
          unfold EdgeKey.map
          rw [h₁, h₂, h₃]
        rw [heq]
      · rw [hnone _ fun hc => Nat.not_lt.mpr h₃ hc.2.2,
          hnone _ fun hc => Nat.not_lt.mpr h₃' hc.2.2]
    · rw [hnone _ fun hc => Nat.not_lt.mpr h₂ hc.2.1, hnone _ fun hc => Nat.not_lt.mpr h₂' hc.2.1]
  · rw [hnone _ fun hc => Nat.not_lt.mpr h₁ hc.1, hnone _ fun hc => Nat.not_lt.mpr h₁' hc.1]

/-- Membership in a map of in-range ids does not notice a longer table. -/
theorem mem_getD_grow {m : UMap SId (List SId)}
    (hm : ∀ i j, j ∈ m.getD i [] → i < g.interner.size ∧ j < g.interner.size)
    (h : g.interner.strings <+: t.strings) (x y : Str) :
    t.idOf y ∈ m.getD (t.idOf x) [] ↔ g.interner.idOf y ∈ m.getD (g.interner.idOf x) [] := by
  rcases StringInterner.idOf_grow h x with hx | ⟨hx, hx'⟩
  · rw [hx]
    rcases StringInterner.idOf_grow h y with hy | ⟨hy, hy'⟩
    · rw [hy]
    · constructor
      · exact fun hc => absurd (hm _ _ hc).2 (Nat.not_lt.mpr hy)
      · exact fun hc => absurd (hm _ _ hc).2 (Nat.not_lt.mpr hy')
  · constructor
    · exact fun hc => absurd (hm _ _ hc).1 (Nat.not_lt.mpr hx)
    · exact fun hc => absurd (hm _ _ hc).1 (Nat.not_lt.mpr hx')

theorem WF.spec_grow (hwf : WF g) (h : g.interner.strings <+: t.strings) :
    ({ g with interner := t } : CallGraph).spec = g.spec := by
  have hkey := hwf.lookup_grow h
  refine GraphSpec.ext ?_ ?_ ?_ ?_ ?_ ?_
  · funext u
    show g.nodes.lookup (t.idOf u) = g.nodes.lookup (g.interner.idOf u)
    rcases StringInterner.idOf_grow h u with hu | ⟨hu, hu'⟩
    · rw [hu]
    · have hnone : ∀ i, g.interner.size ≤ i → g.nodes.lookup i = none := by
        intro i hi
        cases hl : g.nodes.lookup i with
        | none => rfl
        | some n => exact absurd (hwf.ids.node i n hl).1 (Nat.not_lt.mpr hi)
      rw [hnone _ hu, hnone _ hu']
  · funext u
    exact Set.ext fun t' => mem_getD_grow hwf.ids.contributor h u t'
  · funext k
    show atKey _ _ _ = atKey _ _ _
    unfold atKey
    rw [hkey]
  · funext k
    show atKey _ _ _ = atKey _ _ _
    unfold atKey
    rw [hkey]
  · funext t' k
    show atKey _ _ _ = atKey _ _ _
    unfold atKey
    rw [hkey]
    show (Option.map (fun i => (g.tuEdges.getD (t.idOf t') []).count i) _).getD 0 = _
    rcases StringInterner.idOf_grow h t' with ht | ⟨ht, ht'⟩
    · rw [ht]
    · have hnil : ∀ i, g.interner.size ≤ i → g.tuEdges.getD i [] = [] := by
        intro i hi
        unfold UMap.getD
        cases hl : g.tuEdges.lookup i with
        | none => rfl
        | some l => exact absurd (hwf.ids.tuEdge i l hl) (Nat.not_lt.mpr hi)
      rw [hnil _ ht, hnil _ ht']
  · funext r x y
    exact propext (mem_getD_grow (hwf.ids.related r) h x y)

theorem WF.intern (hwf : WF g) (s : Str) : WF (g.intern s) :=
  hwf.grow (StringInterner.prefix_intern _ s) (StringInterner.nodup_intern hwf.ids.nodup s)

theorem WF.spec_intern (hwf : WF g) (s : Str) : (g.intern s).spec = g.spec :=
  hwf.spec_grow (StringInterner.prefix_intern _ s)

end Grow

end CallGraph
end Vycor
