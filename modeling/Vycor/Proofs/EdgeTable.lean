/-
The edge table stays in step with itself.

Storing an edge, releasing registrations and compacting each change what is live in one
way, and each has its lemma here: the invariant is kept, and the registrations of every
key change as the operation says.

Nothing here knows about strings, and nothing mentions the rest of the graph, so that
the maps of nodes and relations do not enter these proofs.
-/
import Mathlib.Data.List.Induction
import Vycor.Model.GraphInvariant

namespace Vycor

namespace CallGraph

/-! ### Live edges -/

theorem LiveAt.key_unique {edges : List StoredEdge} {i : Nat} {k k' : EdgeKey SId}
    (h : LiveAt edges i k) (h' : LiveAt edges i k') : k = k' := by
  obtain ⟨e, he, rfl, -⟩ := h
  obtain ⟨e', he', rfl, -⟩ := h'
  rw [he] at he'
  injection he' with he'
  rw [he']

theorem LiveAt.lt {edges : List StoredEdge} {i : Nat} {k : EdgeKey SId} (h : LiveAt edges i k) :
    i < edges.length := by
  obtain ⟨e, he, -⟩ := h
  exact (List.getElem?_eq_some_iff.mp he).1

theorem refsAt_pos {edges : List StoredEdge} {i : Nat} :
    0 < refsAt edges i ↔ ∃ k, LiveAt edges i k := by
  unfold refsAt LiveAt
  cases h : edges[i]? with
  | none => simp
  | some e => simp

theorem LiveAt.refs_pos {edges : List StoredEdge} {i : Nat} {k : EdgeKey SId}
    (h : LiveAt edges i k) : 0 < refsAt edges i := refsAt_pos.mpr ⟨k, h⟩

/-! ### Storing an edge

Two cases: a stored key counts up in place, a new one goes to the end of the
table and of two adjacency vectors.
-/

theorem getElem?_modify_refs (edges : List StoredEdge) (idx n i : Nat) :
    (edges.modify idx fun e => { e with refs := e.refs + n })[i]?
      = edges[i]?.map fun e => if i = idx then { e with refs := e.refs + n } else e := by
  rw [List.getElem?_modify]
  by_cases h : idx = i
  · simp [h]
  · simp [h, Ne.symm h]

theorem liveAt_modify {edges : List StoredEdge} {idx : Nat} {key : EdgeKey SId}
    (hlive : LiveAt edges idx key) (n i : Nat) (k : EdgeKey SId) :
    LiveAt (edges.modify idx fun e => { e with refs := e.refs + n }) i k ↔ LiveAt edges i k := by
  unfold LiveAt
  rw [getElem?_modify_refs]
  by_cases hi : i = idx
  · subst hi
    obtain ⟨e, he, -, hpos⟩ := hlive
    rw [he]
    simp only [if_true, Option.map_some, Option.some.injEq, exists_eq_left']
    constructor
    · rintro ⟨hk, -⟩
      exact ⟨hk, hpos⟩
    · rintro ⟨hk, -⟩
      exact ⟨hk, by omega⟩
  · simp [hi]

theorem liveAt_append {edges : List StoredEdge} (key : EdgeKey SId) {n : Nat} (hn : 0 < n)
    (i : Nat) (k : EdgeKey SId) :
    LiveAt (edges ++ [{ key with refs := n }]) i k ↔
      LiveAt edges i k ∨ (i = edges.length ∧ k = key) := by
  unfold LiveAt
  rcases Nat.lt_trichotomy i edges.length with hlt | heq | hgt
  · rw [List.getElem?_append_left hlt]
    simp [Nat.ne_of_lt hlt]
  · subst heq
    rw [List.getElem?_append_right (Nat.le_refl _)]
    have hnone : edges[edges.length]? = none := List.getElem?_eq_none (Nat.le_refl _)
    simp [hn, eq_comm]
  · rw [List.getElem?_eq_none (by simp; omega), List.getElem?_eq_none (by omega)]
    simp [Nat.ne_of_gt hgt]

theorem Adjacent.push {side : EdgeKey SId → SId} {edges : List StoredEdge}
    {adj : UMap SId (List Nat)} (h : Adjacent side edges adj) (key : EdgeKey SId) {n : Nat}
    (hn : 0 < n) :
    Adjacent side (edges ++ [{ key with refs := n }])
      (adj.upsert (side key) [] (· ++ [edges.length])) := by
  intro c
  obtain ⟨hnd, hmem⟩ := h c
  have hfresh : edges.length ∉ adj.getD c [] := by
    intro hc
    obtain ⟨k, hlive, -⟩ := (hmem _).mp hc
    exact Nat.lt_irrefl _ hlive.lt
  rw [UMap.getD_upsert]
  by_cases hside : c = side key
  · subst hside
    rw [if_pos rfl]
    refine ⟨List.nodup_append.mpr ⟨hnd, List.nodup_singleton _, ?_⟩, ?_⟩
    · intro a ha b hb hab
      rw [List.mem_singleton.mp hb] at hab
      exact hfresh (hab ▸ ha)
    · intro i
      rw [List.mem_append, hmem i, List.mem_singleton]
      constructor
      · rintro (⟨k, hlive, hk⟩ | rfl)
        · exact ⟨k, (liveAt_append key hn i k).mpr (Or.inl hlive), hk⟩
        · exact ⟨key, (liveAt_append key hn _ key).mpr (Or.inr ⟨rfl, rfl⟩), rfl⟩
      · rintro ⟨k, hlive, hk⟩
        rcases (liveAt_append key hn i k).mp hlive with hlive | ⟨hi, -⟩
        · exact Or.inl ⟨k, hlive, hk⟩
        · exact Or.inr hi
  · rw [if_neg hside]
    refine ⟨hnd, ?_⟩
    intro i
    rw [hmem i]
    constructor
    · rintro ⟨k, hlive, hk⟩
      exact ⟨k, (liveAt_append key hn i k).mpr (Or.inl hlive), hk⟩
    · rintro ⟨k, hlive, hk⟩
      rcases (liveAt_append key hn i k).mp hlive with hlive | ⟨-, rfl⟩
      · exact ⟨k, hlive, hk⟩
      · exact absurd hk.symm hside

theorem Adjacent.congr {side : EdgeKey SId → SId} {edges edges' : List StoredEdge}
    {adj : UMap SId (List Nat)} (h : Adjacent side edges adj)
    (hlive : ∀ i k, LiveAt edges' i k ↔ LiveAt edges i k) : Adjacent side edges' adj := by
  intro c
  refine ⟨(h c).1, ?_⟩
  intro i
  rw [(h c).2 i]
  simp only [hlive]

theorem liveCount_modify {edges : List StoredEdge} {idx : Nat} {key : EdgeKey SId}
    (hlive : LiveAt edges idx key) (n : Nat) :
    liveCount (edges.modify idx fun e => { e with refs := e.refs + n }) = liveCount edges := by
  obtain ⟨e, he, -, hpos⟩ := hlive
  induction edges generalizing idx with
  | nil => simp at he
  | cons x rest ih =>
      cases idx with
      | zero =>
          simp only [List.getElem?_cons_zero, Option.some.injEq] at he
          subst he
          have hpos' : 0 < x.refs + n := by omega
          simp [liveCount, List.modify, hpos, hpos']
      | succ idx =>
          have := ih (by simpa using he)
          simp only [liveCount, List.modify_succ_cons, List.countP_cons] at this ⊢
          rw [this]

/-- An edge whose key is not stored yet goes to the end. -/
theorem EdgesOK.push {edges : List StoredEdge} {index : UMap (EdgeKey SId) Nat}
    {out inn : UMap SId (List Nat)} {live : Nat} (h : EdgesOK edges index out inn live)
    {key : EdgeKey SId} (hfresh : index.lookup key = none) {n : Nat} (hn : 0 < n) :
    EdgesOK (edges ++ [{ key with refs := n }]) (index.insert key edges.length)
      (out.upsert key.caller [] (· ++ [edges.length]))
      (inn.upsert key.callee [] (· ++ [edges.length])) (live + 1) := by
  refine ⟨?_, h.out.push key hn, h.inn.push key hn, ?_⟩
  · intro k i
    rw [UMap.lookup_insert_ite, liveAt_append key hn]
    by_cases hk : k = key
    · subst hk
      have hdead : ¬ LiveAt edges i k := by
        intro hc
        rw [(h.indexed k i).mpr hc] at hfresh
        simp at hfresh
      simp [hdead, eq_comm]
    · simp [hk, h.indexed k i]
  · simp [liveCount, h.count, hn]

/-- **Storing an edge keeps the table in step.** -/
theorem EdgesOK.storeEdge {g : CallGraph}
    (h : EdgesOK g.edges g.edgeIndex g.outEdges g.inEdges g.liveEdgeCount) (key : EdgeKey SId)
    {n : Nat} (hn : 0 < n) :
    EdgesOK (g.storeEdge key n).edges (g.storeEdge key n).edgeIndex (g.storeEdge key n).outEdges
      (g.storeEdge key n).inEdges (g.storeEdge key n).liveEdgeCount := by
  unfold CallGraph.storeEdge
  cases hpos : g.edgeIndex.lookup key with
  | some idx =>
      have hlive := (h.indexed key idx).mp hpos
      have hsame := liveAt_modify hlive n
      exact ⟨fun k i => by rw [hsame]; exact h.indexed k i, h.out.congr hsame, h.inn.congr hsame,
        h.count.trans (liveCount_modify hlive n).symm⟩
  | none => exact h.push hpos hn

/-- Storing gives the key its position and moves no other key. -/
theorem lookup_storeEdge (g : CallGraph) (key : EdgeKey SId) (n : Nat) (k : EdgeKey SId) :
    (g.storeEdge key n).edgeIndex.lookup k
      = if k = key then some (g.edgePos key) else g.edgeIndex.lookup k := by
  unfold CallGraph.storeEdge edgePos
  cases hpos : g.edgeIndex.lookup key with
  | some idx =>
      by_cases hk : k = key
      · subst hk
        simp [hpos]
      · simp [hk]
  | none => exact UMap.lookup_insert_ite _ _ _ _

/-- Storing adds the registrations at that position. -/
theorem refsAt_storeEdge (g : CallGraph) (hindex : Indexed g.edges g.edgeIndex)
    (key : EdgeKey SId) (n i : Nat) :
    refsAt (g.storeEdge key n).edges i
      = refsAt g.edges i + if i = g.edgePos key then n else 0 := by
  unfold CallGraph.storeEdge edgePos
  cases hpos : g.edgeIndex.lookup key with
  | some idx =>
      obtain ⟨e, he, -, -⟩ := (hindex key idx).mp hpos
      show refsAt (g.edges.modify idx _) i = _
      unfold refsAt
      rw [getElem?_modify_refs]
      by_cases hi : i = idx
      · subst hi
        simp [he]
      · cases hei : g.edges[i]? <;> simp [hi]
  | none =>
      show refsAt (g.edges ++ [_]) i = _
      unfold refsAt
      rcases Nat.lt_trichotomy i g.edges.length with hlt | heq | hgt
      · rw [List.getElem?_append_left hlt]
        simp [Nat.ne_of_lt hlt]
      · subst heq
        rw [List.getElem?_append_right (Nat.le_refl _),
          List.getElem?_eq_none (Nat.le_refl g.edges.length)]
        simp
      · rw [List.getElem?_eq_none (by simp; omega), List.getElem?_eq_none (by omega)]
        simp [Nat.ne_of_gt hgt]

/-! ### Releasing registrations

Registrations go down one by one, and a record that runs out becomes a tombstone
at once. The adjacency vectors follow only after the whole release, so in
between they list too much.
-/

/-- How far a release has got since `g`: registrations only went down, keys stayed, the
index follows, and what died is noted with both of its ends. -/
structure Releasing (g : CallGraph) (r : Release) : Prop where
  indexed : Indexed r.g.edges r.g.edgeIndex
  count : r.g.liveEdgeCount = liveCount r.g.edges
  keys : ∀ i : Nat, (r.g.edges[i]?).map StoredEdge.toEdgeKey = (g.edges[i]?).map StoredEdge.toEdgeKey
  less : ∀ i, refsAt r.g.edges i ≤ refsAt g.edges i
  dead : ∀ i, i ∈ r.dead ↔ 0 < refsAt g.edges i ∧ refsAt r.g.edges i = 0
  callers : ∀ i ∈ r.dead, ∀ e, g.edges[i]? = some e → e.caller ∈ r.affectedCallers
  callees : ∀ i ∈ r.dead, ∀ e, g.edges[i]? = some e → e.callee ∈ r.affectedCallees
  rest : { r.g with
    edges := g.edges, edgeIndex := g.edgeIndex, liveEdgeCount := g.liveEdgeCount
    tuEdges := g.tuEdges } = g

theorem refsAt_set {edges : List StoredEdge} {idx : Nat} {e : StoredEdge}
    (he : edges[idx]? = some e) (n i : Nat) :
    refsAt (edges.set idx { e with refs := n }) i = if i = idx then n else refsAt edges i := by
  unfold refsAt
  rw [List.getElem?_set]
  by_cases hi : i = idx
  · subst hi
    simp [(List.getElem?_eq_some_iff.mp he).1]
  · simp [hi, Ne.symm hi]

theorem liveAt_set {edges : List StoredEdge} {idx : Nat} {e : StoredEdge}
    (he : edges[idx]? = some e) (hpos : 0 < e.refs) (n i : Nat) (k : EdgeKey SId) :
    LiveAt (edges.set idx { e with refs := n }) i k ↔ LiveAt edges i k ∧ (i = idx → 0 < n) := by
  unfold LiveAt
  rw [List.getElem?_set]
  by_cases hi : i = idx
  · subst hi
    simp only [if_true, (List.getElem?_eq_some_iff.mp he).1, he, Option.some.injEq, exists_eq_left',
      forall_const]
    constructor
    · rintro ⟨hk, hn⟩
      exact ⟨⟨hk, hpos⟩, hn⟩
    · rintro ⟨⟨hk, -⟩, hn⟩
      exact ⟨hk, hn⟩
  · simp [hi, Ne.symm hi]

theorem liveCount_set {edges : List StoredEdge} {idx : Nat} {e : StoredEdge}
    (he : edges[idx]? = some e) (hpos : 0 < e.refs) (n : Nat) :
    liveCount (edges.set idx { e with refs := n }) = liveCount edges - if 0 < n then 0 else 1 := by
  induction edges generalizing idx with
  | nil => simp at he
  | cons x rest ih =>
      cases idx with
      | zero =>
          simp only [List.getElem?_cons_zero, Option.some.injEq] at he
          subst he
          by_cases hn : 0 < n
          · simp [liveCount, hpos, hn]
          · simp [liveCount, hpos, hn]
      | succ idx =>
          have hrest := ih (by simpa using he)
          have hmem : e ∈ rest := List.mem_of_getElem? (by simpa using he)
          have hone : 0 < liveCount rest :=
            List.countP_pos_iff.mpr ⟨e, hmem, by simpa using hpos⟩
          simp only [liveCount, List.set_cons_succ, List.countP_cons] at hrest hone ⊢
          rw [hrest]
          split <;> omega

theorem Releasing.start {g : CallGraph}
    (h : EdgesOK g.edges g.edgeIndex g.outEdges g.inEdges g.liveEdgeCount) :
    Releasing g { g } := by
  refine ⟨h.indexed, h.count, fun _ => rfl, fun _ => Nat.le_refl _, ?_, by simp, by simp, rfl⟩
  intro i
  constructor
  · intro hc
    simp at hc
  · rintro ⟨hpos, hzero⟩
    have : refsAt g.edges i = 0 := hzero
    omega

theorem releaseEdge_none {r : Release} {idx : Nat} (h : refsAt r.g.edges idx = 0) :
    releaseEdge r idx = r := by
  unfold CallGraph.releaseEdge
  unfold refsAt at h
  cases he : r.g.edges[idx]? with
  | none => rfl
  | some e =>
      rw [he] at h
      exact if_pos h

theorem releaseEdge_some {r : Release} {idx : Nat} {e : StoredEdge}
    (he : r.g.edges[idx]? = some e) (hmore : 1 < e.refs) :
    releaseEdge r idx
      = { r with g := { r.g with edges := r.g.edges.set idx { e with refs := e.refs - 1 } } } := by
  unfold CallGraph.releaseEdge
  simp only [he]
  rw [if_neg (by omega), if_pos (by omega)]

theorem releaseEdge_last {r : Release} {idx : Nat} {e : StoredEdge}
    (he : r.g.edges[idx]? = some e) (hlast : e.refs = 1) :
    releaseEdge r idx
      = { g := { r.g with
            edges := r.g.edges.set idx { e with refs := e.refs - 1 }
            edgeIndex := r.g.edgeIndex.erase e.toEdgeKey
            liveEdgeCount := r.g.liveEdgeCount - 1 }
          dead := idx :: r.dead
          affectedCallers := e.caller :: r.affectedCallers
          affectedCallees := e.callee :: r.affectedCallees
          removed := r.removed + 1 } := by
  unfold CallGraph.releaseEdge
  simp only [he]
  rw [if_neg (by omega), if_neg (by omega)]

theorem keys_set {edges : List StoredEdge} {idx : Nat} {e : StoredEdge}
    (he : edges[idx]? = some e) (n i : Nat) :
    ((edges.set idx { e with refs := n })[i]?).map StoredEdge.toEdgeKey
      = (edges[i]?).map StoredEdge.toEdgeKey := by
  rw [List.getElem?_set]
  by_cases hi : idx = i
  · subst hi
    rw [if_pos rfl, if_pos (List.getElem?_eq_some_iff.mp he).1, he]
    rfl
  · rw [if_neg hi]

theorem refsAt_releaseEdge (r : Release) (idx i : Nat) :
    refsAt (releaseEdge r idx).g.edges i = refsAt r.g.edges i - if i = idx then 1 else 0 := by
  by_cases hz : refsAt r.g.edges idx = 0
  · rw [releaseEdge_none hz]
    split
    · rename_i hi
      rw [hi, hz]
    · rfl
  · obtain ⟨e, he⟩ : ∃ e, r.g.edges[idx]? = some e := by
      unfold refsAt at hz
      cases he : r.g.edges[idx]? with
      | none => simp [he] at hz
      | some e => exact ⟨e, rfl⟩
    have hrefs : refsAt r.g.edges idx = e.refs := by simp [refsAt, he]
    have hset : refsAt (releaseEdge r idx).g.edges i
        = refsAt (r.g.edges.set idx { e with refs := e.refs - 1 }) i := by
      rcases Nat.lt_or_ge 1 e.refs with hmore | hle
      · rw [releaseEdge_some he hmore]
      · rw [releaseEdge_last he (by omega)]
    rw [hset, refsAt_set he]
    split
    · rename_i hi
      rw [hi, hrefs]
    · rfl

theorem tuEdges_releaseEdge (r : Release) (idx : Nat) :
    (releaseEdge r idx).g.tuEdges = r.g.tuEdges := by
  unfold CallGraph.releaseEdge
  split
  · rfl
  · split
    · rfl
    · split <;> rfl

/-- The record stays, with one registration less. -/
private theorem Releasing.one_of_more {g : CallGraph} {r : Release} (h : Releasing g r) {idx : Nat}
    {e : StoredEdge} (he : r.g.edges[idx]? = some e) (hmore : 1 < e.refs) :
    Releasing g (CallGraph.releaseEdge r idx) := by
  have hrefs := refsAt_releaseEdge r idx
  rw [releaseEdge_some he hmore] at hrefs ⊢
  have hone : 0 < e.refs - 1 := by omega
  have hat : refsAt r.g.edges idx = e.refs := by simp [refsAt, he]
  refine ⟨?_, ?_, ?_, ?_, ?_, h.callers, h.callees, h.rest⟩
  · intro k i
    rw [liveAt_set he (by omega)]
    simp only [hone, implies_true, and_true]
    exact h.indexed k i
  · show r.g.liveEdgeCount = _
    rw [liveCount_set he (by omega), if_pos hone, h.count]
    rfl
  · intro i
    rw [← h.keys i]
    exact keys_set he _ i
  · intro i
    have := h.less i
    rw [hrefs i]
    omega
  · intro i
    have := h.less i
    rw [h.dead i, hrefs i]
    split
    · rename_i hi
      subst hi
      omega
    · rfl

/-- The record becomes a tombstone. -/
private theorem Releasing.one_of_last {g : CallGraph} {r : Release} (h : Releasing g r) {idx : Nat}
    {e : StoredEdge} (he : r.g.edges[idx]? = some e) (hlast : e.refs = 1) :
    Releasing g (CallGraph.releaseEdge r idx) := by
  have hrefs := refsAt_releaseEdge r idx
  rw [releaseEdge_last he hlast] at hrefs ⊢
  have hpos : 0 < e.refs := by omega
  have hn : ¬ 0 < e.refs - 1 := by omega
  have hat : LiveAt r.g.edges idx e.toEdgeKey := ⟨e, he, rfl, hpos⟩
  have hkey : ∀ x, g.edges[idx]? = some x → x.toEdgeKey = e.toEdgeKey := by
    intro x hx
    have := h.keys idx
    rw [he, hx] at this
    simpa using this.symm
  refine ⟨?_, ?_, ?_, ?_, ?_, ?_, ?_, h.rest⟩
  · intro k i
    show AList.lookup k (AList.erase e.toEdgeKey r.g.edgeIndex) = some i ↔ _
    rw [UMap.lookup_erase_ite, liveAt_set he hpos]
    by_cases hk : k = e.toEdgeKey
    · subst hk
      simp only [if_true, reduceCtorEq, false_iff, not_and, Classical.not_imp]
      intro hli
      have hsame := (h.indexed _ _).mpr hli
      rw [(h.indexed _ _).mpr hat] at hsame
      injection hsame with hsame
      exact ⟨hsame.symm, hn⟩
    · rw [if_neg hk, h.indexed k i]
      constructor
      · intro hli
        refine ⟨hli, ?_⟩
        rintro rfl
        exact absurd (hli.key_unique hat) hk
      · exact And.left
  · show r.g.liveEdgeCount - 1 = _
    rw [liveCount_set he hpos, if_neg hn, h.count]
  · intro i
    rw [← h.keys i]
    exact keys_set he _ i
  · intro i
    have := h.less i
    rw [hrefs i]
    omega
  · intro i
    have hless := h.less i
    rw [List.mem_cons, h.dead i, hrefs i]
    by_cases hi : i = idx
    · subst hi
      have : refsAt r.g.edges i = e.refs := by simp [refsAt, he]
      simp only [if_true, true_or, true_iff]
      omega
    · simp [hi]
  · intro i hi x hx
    rcases List.mem_cons.mp hi with rfl | hi
    · rw [hkey x hx]
      exact List.mem_cons_self
    · exact List.mem_cons_of_mem _ (h.callers i hi x hx)
  · intro i hi x hx
    rcases List.mem_cons.mp hi with rfl | hi
    · rw [hkey x hx]
      exact List.mem_cons_self
    · exact List.mem_cons_of_mem _ (h.callees i hi x hx)

/-- **Releasing one registration keeps the bookkeeping.** -/
theorem Releasing.releaseEdge {g : CallGraph} {r : Release} (h : Releasing g r) (idx : Nat) :
    Releasing g (releaseEdge r idx) := by
  cases he : r.g.edges[idx]? with
  | none =>
      rw [releaseEdge_none (by simp [refsAt, he])]
      exact h
  | some e =>
      rcases Nat.lt_trichotomy 1 e.refs with hmore | hlast | hzero
      · exact h.one_of_more he hmore
      · exact h.one_of_last he hlast.symm
      · rw [releaseEdge_none (by simp [refsAt, he]; omega)]
        exact h

theorem refsAt_releaseEdges (idxs : List Nat) (r : Release) (i : Nat) :
    refsAt (idxs.foldl releaseEdge r).g.edges i = refsAt r.g.edges i - idxs.count i := by
  induction idxs generalizing r with
  | nil => simp
  | cons idx rest ih =>
      rw [List.foldl_cons, ih, refsAt_releaseEdge, List.count_cons]
      by_cases hi : i = idx
      · subst hi
        simp
        omega
      · simp [hi, Ne.symm hi]

theorem tuEdges_releaseEdges (idxs : List Nat) (r : Release) :
    (idxs.foldl releaseEdge r).g.tuEdges = r.g.tuEdges := by
  induction idxs generalizing r with
  | nil => rfl
  | cons idx rest ih => rw [List.foldl_cons, ih, tuEdges_releaseEdge]

theorem Releasing.releaseEdges {g : CallGraph} (idxs : List Nat) {r : Release}
    (h : Releasing g r) : Releasing g (idxs.foldl CallGraph.releaseEdge r) := by
  induction idxs generalizing r with
  | nil => exact h
  | cons idx rest ih => exact ih (h.releaseEdge idx)

/-- **Releasing a TU takes its registrations and nothing else.** -/
theorem releaseTU_spec {g : CallGraph} {r : Release} (h : Releasing g r) (tuId : SId) :
    Releasing g (releaseTU r tuId) ∧
    (∀ i, refsAt (releaseTU r tuId).g.edges i
      = refsAt r.g.edges i - (r.g.tuEdges.getD tuId []).count i) ∧
    (∀ t, (releaseTU r tuId).g.tuEdges.getD t []
      = if t = tuId then [] else r.g.tuEdges.getD t []) ∧
    (∀ i, UMap.total (List.count i) (releaseTU r tuId).g.tuEdges
      = UMap.total (List.count i) r.g.tuEdges - (r.g.tuEdges.getD tuId []).count i) := by
  unfold releaseTU
  cases hl : r.g.tuEdges.lookup tuId with
  | none =>
      have hnil : r.g.tuEdges.getD tuId [] = [] := by
        rw [UMap.getD, hl]
        rfl
      refine ⟨h, by simp [hnil], ?_, by simp [hnil]⟩
      intro t
      by_cases ht : t = tuId
      · simp [ht, hnil]
      · simp [ht]
  | some idxs =>
      have hget : r.g.tuEdges.getD tuId [] = idxs := by
        rw [UMap.getD, hl]
        rfl
      have hall := h.releaseEdges idxs
      have htu := tuEdges_releaseEdges idxs r
      refine ⟨{ hall with rest := ?_ }, ?_, ?_, ?_⟩
      · exact hall.rest
      · intro i
        rw [hget]
        exact refsAt_releaseEdges idxs r i
      · intro t
        show UMap.getD (AList.erase tuId (idxs.foldl CallGraph.releaseEdge r).g.tuEdges) t [] = _
        rw [UMap.getD_erase, htu]
      · intro i
        show UMap.total _ (AList.erase tuId (idxs.foldl CallGraph.releaseEdge r).g.tuEdges) = _
        rw [htu, UMap.total_erase (List.count i) r.g.tuEdges tuId [] rfl, hget]
        omega

/-! ### Scrubbing the adjacency vectors -/

theorem mem_scrub (affected : List SId) (dead : List Nat) (adj : UMap SId (List Nat)) (c : SId)
    (i : Nat) :
    i ∈ (scrub adj affected dead).getD c []
      ↔ i ∈ adj.getD c [] ∧ (c ∈ affected → i ∉ dead) := by
  induction affected generalizing adj with
  | nil => simp [scrub]
  | cons x rest ih =>
      unfold scrub at ih ⊢
      rw [List.foldl_cons, ih, UMap.getD_upsert]
      by_cases hx : c = x
      · subst hx
        simp only [if_true, List.mem_filter, decide_eq_true_eq, List.mem_cons, true_or]
        tauto
      · simp [hx]

theorem nodup_scrub (affected : List SId) (dead : List Nat) {adj : UMap SId (List Nat)}
    (h : ∀ c, (adj.getD c []).Nodup) (c : SId) :
    ((scrub adj affected dead).getD c []).Nodup := by
  induction affected generalizing adj with
  | nil => exact h c
  | cons x rest ih =>
      unfold scrub at ih ⊢
      rw [List.foldl_cons]
      refine ih ?_
      intro c
      rw [UMap.getD_upsert]
      split
      · exact (h x).filter _
      · exact h c

/-- After the scrub an adjacency map lists the live edges again. -/
theorem Adjacent.scrub {side : EdgeKey SId → SId} {g : CallGraph} {r : Release}
    (hrel : Releasing g r) {adj : UMap SId (List Nat)} (h : Adjacent side g.edges adj)
    {affected : List SId}
    (haff : ∀ i ∈ r.dead, ∀ e, g.edges[i]? = some e → side e.toEdgeKey ∈ affected) :
    Adjacent side r.g.edges (scrub adj affected r.dead) := by
  intro c
  refine ⟨nodup_scrub _ _ (fun c => (h c).1) c, ?_⟩
  intro i
  rw [mem_scrub, (h c).2 i]
  have hkeys := hrel.keys i
  constructor
  · rintro ⟨⟨k, ⟨e, he, rfl, hpos⟩, hc⟩, hnot⟩
    have hlive : 0 < refsAt g.edges i := by simpa [refsAt, he] using hpos
    have hnot' : i ∉ r.dead := by
      intro hd
      exact hnot (hc ▸ haff i hd e he) hd
    have hrefs : 0 < refsAt r.g.edges i := by
      by_contra hz
      exact hnot' ((hrel.dead i).mpr ⟨hlive, by omega⟩)
    obtain ⟨k', e', he', rfl, hpos'⟩ := refsAt_pos.mp hrefs
    rw [he, he'] at hkeys
    simp only [Option.map_some, Option.some.injEq] at hkeys
    exact ⟨e.toEdgeKey, ⟨e', he', hkeys, hpos'⟩, hc⟩
  · rintro ⟨k, ⟨e', he', rfl, hpos'⟩, hc⟩
    have hrefs : refsAt r.g.edges i = e'.refs := by simp [refsAt, he']
    have hless := hrel.less i
    have hlive : 0 < refsAt g.edges i := by omega
    obtain ⟨k, e, he, rfl, hpos⟩ := refsAt_pos.mp hlive
    rw [he, he'] at hkeys
    simp only [Option.map_some, Option.some.injEq] at hkeys
    refine ⟨⟨e.toEdgeKey, ⟨e, he, rfl, hpos⟩, by rw [← hkeys]; exact hc⟩, ?_⟩
    intro _ hd
    have := ((hrel.dead i).mp hd).2
    omega

/-! ### Compacting -/

/-- The tables rebuilt from `pre`: every record of theirs is live, and `remap` matches the
live positions of `pre` with theirs one to one. -/
structure Compacting (pre : List StoredEdge) (c : Compacted) : Prop where
  table : EdgesOK c.edges c.edgeIndex c.outEdges c.inEdges (liveCount pre)
  length : c.remap.length = pre.length
  kept : ∀ i j : Nat, c.remap[i]? = some (some j) →
    ∃ e, pre[i]? = some e ∧ c.edges[j]? = some e ∧ 0 < e.refs
  dropped : ∀ i : Nat, c.remap[i]? = some none → refsAt pre i = 0
  onto : ∀ j : Nat, j < c.edges.length → ∃ i : Nat, c.remap[i]? = some (some j)
  inj : ∀ i i' j : Nat, c.remap[i]? = some (some j) → c.remap[i']? = some (some j) → i = i'

theorem Compacting.start : Compacting [] {} := by
  refine ⟨⟨?_, ?_, ?_, rfl⟩, rfl, ?_, ?_, ?_, ?_⟩
  · intro k i
    simp [LiveAt]
  · intro c
    simp [LiveAt]
  · intro c
    simp [LiveAt]
  · intro i j h
    simp at h
  · intro i h
    simp at h
  · intro j h
    simp at h
  · intro i i' j h
    simp at h

theorem getElem?_concat {α : Type} (l : List α) (a : α) (i : Nat) (x : α) :
    (l ++ [a])[i]? = some x ↔ l[i]? = some x ∨ (i = l.length ∧ x = a) := by
  rcases Nat.lt_trichotomy i l.length with hlt | heq | hgt
  · rw [List.getElem?_append_left hlt]
    simp [Nat.ne_of_lt hlt]
  · subst heq
    rw [List.getElem?_append_right (Nat.le_refl _), List.getElem?_eq_none (Nat.le_refl l.length)]
    simp [eq_comm]
  · rw [List.getElem?_eq_none (by simp; omega), List.getElem?_eq_none (by omega)]
    simp [Nat.ne_of_gt hgt]

private theorem Compacting.tombstone {pre : List StoredEdge} {c : Compacted}
    (h : Compacting pre c) {e : StoredEdge} (hz : e.refs = 0) :
    Compacting (pre ++ [e]) (compactEdge c e) := by
  unfold compactEdge
  rw [if_pos hz]
  have hcount : liveCount (pre ++ [e]) = liveCount pre := by simp [liveCount, hz]
  refine ⟨by rw [hcount]; exact h.table, by simp [h.length], ?_, ?_, ?_, ?_⟩
  · intro i j hi
    rcases (getElem?_concat _ _ _ _).mp hi with hi | ⟨-, hj⟩
    · obtain ⟨x, hx, hxj, hpos⟩ := h.kept i j hi
      exact ⟨x, (getElem?_concat _ _ _ _).mpr (Or.inl hx), hxj, hpos⟩
    · simp at hj
  · intro i hi
    rcases (getElem?_concat _ _ _ _).mp hi with hi | ⟨hlast, -⟩
    · have hlt : i < pre.length := by
        rw [← h.length]
        exact (List.getElem?_eq_some_iff.mp hi).1
      rw [refsAt, List.getElem?_append_left hlt]
      exact h.dropped i hi
    · rw [hlast, h.length, refsAt, (getElem?_concat pre e _ e).mpr (Or.inr ⟨rfl, rfl⟩)]
      exact hz
  · intro j hj
    obtain ⟨i, hi⟩ := h.onto j hj
    exact ⟨i, (getElem?_concat _ _ _ _).mpr (Or.inl hi)⟩
  · intro i i' j hi hi'
    rcases (getElem?_concat _ _ _ _).mp hi with hi | ⟨-, hj⟩
    · rcases (getElem?_concat _ _ _ _).mp hi' with hi' | ⟨-, hj⟩
      · exact h.inj i i' j hi hi'
      · simp at hj
    · simp at hj

private theorem Compacting.edge {pre : List StoredEdge} {c : Compacted}
    (h : Compacting pre c) {e : StoredEdge} (hpos : 0 < e.refs)
    (hfresh : ∀ i, ¬ LiveAt pre i e.toEdgeKey) : Compacting (pre ++ [e]) (compactEdge c e) := by
  have hnone : c.edgeIndex.lookup e.toEdgeKey = none := by
    cases hl : c.edgeIndex.lookup e.toEdgeKey with
    | none => rfl
    | some j =>
        have hlive := (h.table.indexed _ _).mp hl
        obtain ⟨i, hi⟩ := h.onto j hlive.lt
        obtain ⟨x, hx, hxj, hxpos⟩ := h.kept i j hi
        exact absurd ⟨x, hx, hlive.key_unique ⟨x, hxj, rfl, hxpos⟩ |>.symm, hxpos⟩ (hfresh i)
  have hbound : ∀ i j : Nat, c.remap[i]? = some (some j) → j < c.edges.length := by
    intro i j hi
    obtain ⟨x, -, hxj, -⟩ := h.kept i j hi
    exact (List.getElem?_eq_some_iff.mp hxj).1
  have hcount : liveCount (pre ++ [e]) = liveCount pre + 1 := by simp [liveCount, hpos]
  unfold compactEdge
  rw [if_neg (by omega)]
  simp only [UMap.emplace_of_none hnone]
  refine ⟨by rw [hcount]; exact h.table.push hnone hpos, by simp [h.length], ?_, ?_, ?_, ?_⟩
  · intro i j hi
    rcases (getElem?_concat _ _ _ _).mp hi with hi | ⟨hlast, hj⟩
    · obtain ⟨x, hx, hxj, hxpos⟩ := h.kept i j hi
      exact ⟨x, (getElem?_concat _ _ _ _).mpr (Or.inl hx),
        (getElem?_concat _ _ _ _).mpr (Or.inl hxj), hxpos⟩
    · injection hj with hj
      refine ⟨e, (getElem?_concat _ _ _ _).mpr (Or.inr ⟨hlast.trans h.length, rfl⟩),
        (getElem?_concat _ _ _ _).mpr (Or.inr ⟨hj, rfl⟩), hpos⟩
  · intro i hi
    rcases (getElem?_concat _ _ _ _).mp hi with hi | ⟨-, hj⟩
    · have hlt : i < pre.length := by
        rw [← h.length]
        exact (List.getElem?_eq_some_iff.mp hi).1
      rw [refsAt, List.getElem?_append_left hlt]
      exact h.dropped i hi
    · simp at hj
  · intro j hj
    have hj' : j < c.edges.length + 1 := by simpa using hj
    by_cases hlt : j < c.edges.length
    · obtain ⟨i, hi⟩ := h.onto j hlt
      exact ⟨i, (getElem?_concat _ _ _ _).mpr (Or.inl hi)⟩
    · refine ⟨c.remap.length, (getElem?_concat _ _ _ _).mpr (Or.inr ⟨rfl, ?_⟩)⟩
      rw [show j = c.edges.length by omega]
  · intro i i' j hi hi'
    rcases (getElem?_concat _ _ _ _).mp hi with hi | ⟨hl, hj⟩
    · rcases (getElem?_concat _ _ _ _).mp hi' with hi' | ⟨-, hj⟩
      · exact h.inj i i' j hi hi'
      · injection hj with hj
        have := hbound i j hi
        omega
    · rcases (getElem?_concat _ _ _ _).mp hi' with hi' | ⟨hl', -⟩
      · injection hj with hj
        have := hbound i' j hi'
        omega
      · rw [hl, hl']

/-- No two live records share a key. -/
theorem Indexed.position_unique {edges : List StoredEdge} {index : UMap (EdgeKey SId) Nat}
    (h : Indexed edges index) {i i' : Nat} {k : EdgeKey SId} (hi : LiveAt edges i k)
    (hi' : LiveAt edges i' k) : i = i' := by
  have h₁ := (h k i).mpr hi
  rw [(h k i').mpr hi'] at h₁
  injection h₁ with h₁
  exact h₁.symm

/-- **Compacting rebuilds the tables of the live edges.** -/
theorem compacting_edges {edges : List StoredEdge} {index : UMap (EdgeKey SId) Nat}
    (h : Indexed edges index) : Compacting edges (edges.foldl compactEdge {}) := by
  have hprefix : ∀ pre, pre <+: edges → Compacting pre (pre.foldl compactEdge {}) := by
    intro pre
    induction pre using List.reverseRecOn with
    | nil => exact fun _ => Compacting.start
    | append_singleton pre e ih =>
        intro hpre
        have hpre' : pre <+: edges := (List.prefix_append pre [e]).trans hpre
        have hprev := ih hpre'
        rw [List.foldl_append, List.foldl_cons, List.foldl_nil]
        rcases Nat.eq_zero_or_pos e.refs with hz | hpos
        · exact hprev.tombstone hz
        · refine hprev.edge hpos ?_
          rintro i ⟨x, hx, hk, hxpos⟩
          obtain ⟨rest, rfl⟩ := hpre
          have hlt := (List.getElem?_eq_some_iff.mp hx).1
          have hold : LiveAt (pre ++ [e] ++ rest) i e.toEdgeKey := by
            refine ⟨x, ?_, hk, hxpos⟩
            rw [List.getElem?_append_left (by simp; omega), List.getElem?_append_left hlt]
            exact hx
          have hnew : LiveAt (pre ++ [e] ++ rest) pre.length e.toEdgeKey := by
            refine ⟨e, ?_, rfl, hpos⟩
            rw [List.getElem?_append_left (by simp)]
            exact (getElem?_concat _ _ _ _).mpr (Or.inr ⟨rfl, rfl⟩)
          have := h.position_unique hold hnew
          omega
  exact hprefix edges List.prefix_rfl

end CallGraph
end Vycor
