/-
Posting lists over a table with tombstones.

A table is a list of rows that only grows.  A map from keys to ascending positions files the
rows under a key each; a row that is dropped keeps its position and no longer counts.
`positions rows p` is what the entry of a key has to be: the positions of the rows that
satisfy `p`, in order, where `p` says that the row still counts and has the key.  `Files`
says that every entry of a map is that, and the lemmas follow a map through the three things
that happen to it: a row is appended, rows are dropped and their positions are taken out of
the entries of the keys they had, and the rows are rewritten from scratch.

An entry that has run empty may stay or go.  For what is listed it is the same, but a lookup
tells the two apart, so both ways to scrub are followed at `lookup` too.
-/
import Vycor.Lib.UMap
import Mathlib.Data.List.Induction

namespace Postings

open UMap

variable {κ ρ : Type*}

/-! ### Positions

The rows of a table and the positions at which a predicate holds. A position
list is what the maps below store; the predicate is what they are for.
-/

/-- The positions of the rows that satisfy `p`, in order. -/
def positions (rows : List ρ) (p : ρ → Bool) : List Nat :=
  (List.range rows.length).filter fun i => (rows[i]?).any p

/-- The rows at these positions. -/
def rowsAt (rows : List ρ) (idxs : List Nat) : List ρ := idxs.filterMap (rows[·]?)

variable {rows rows' : List ρ} {p q : ρ → Bool}

theorem mem_positions {i : Nat} : i ∈ positions rows p ↔ ∃ row, rows[i]? = some row ∧ p row := by
  unfold positions
  rw [List.mem_filter, List.mem_range, Option.any_eq_true]
  constructor
  · rintro ⟨-, row, hrow, hp⟩
    exact ⟨row, hrow, hp⟩
  · rintro ⟨row, hrow, hp⟩
    exact ⟨(List.getElem?_eq_some_iff.mp hrow).1, row, hrow, hp⟩

theorem positions_nodup (rows : List ρ) (p : ρ → Bool) : (positions rows p).Nodup :=
  List.nodup_range.filter _

theorem positions_snoc (rows : List ρ) (row : ρ) (p : ρ → Bool) :
    positions (rows ++ [row]) p = positions rows p ++ if p row then [rows.length] else [] := by
  unfold positions
  rw [List.length_append, List.length_singleton, List.range_succ, List.filter_append]
  congr 1
  · refine List.filter_congr ?_
    intro i hi
    rw [List.getElem?_append_left (List.mem_range.mp hi)]
  · by_cases hp : p row <;> simp [hp]

/-- Reading the positions gives the rows, in order. -/
theorem rowsAt_positions (rows : List ρ) (p : ρ → Bool) :
    rowsAt rows (positions rows p) = rows.filter p := by
  induction rows using List.reverseRecOn with
  | nil => rfl
  | append_singleton rest row ih =>
      have hold : rowsAt (rest ++ [row]) (positions rest p) = rowsAt rest (positions rest p) := by
        refine List.filterMap_congr ?_
        intro i hi
        obtain ⟨r, hr, -⟩ := mem_positions.mp hi
        exact List.getElem?_append_left (List.getElem?_eq_some_iff.mp hr).1
      rw [positions_snoc, List.filter_append, ← ih, ← hold]
      unfold rowsAt
      rw [List.filterMap_append]
      by_cases hp : p row <;> simp [hp]

theorem length_positions (rows : List ρ) (p : ρ → Bool) :
    (positions rows p).length = (rows.filter p).length := by
  induction rows using List.reverseRecOn with
  | nil => rfl
  | append_singleton rest row ih =>
      rw [positions_snoc, List.filter_append, List.length_append, List.length_append, ih]
      by_cases hp : p row <;> simp [hp]

theorem positions_eq_nil : positions rows p = [] ↔ rows.filter p = [] := by
  rw [← List.length_eq_zero_iff, length_positions, List.length_eq_zero_iff]

/-- Dropping the rows at some positions takes these positions out. -/
theorem positions_drop {dead : List Nat} (hlen : rows'.length = rows.length)
    (h : ∀ i, (rows'[i]?).any p = ((rows[i]?).any p && decide (i ∉ dead))) :
    positions rows' p = (positions rows p).filter (· ∉ dead) := by
  unfold positions
  rw [hlen, List.filter_filter]
  refine List.filter_congr ?_
  intro i _
  rw [h i, Bool.and_comm]

/-- Rows that satisfy the predicate at the same positions. -/
theorem positions_congr (hlen : rows'.length = rows.length)
    (h : ∀ i : Nat, (rows'[i]?).any p = (rows[i]?).any p) :
    positions rows' p = positions rows p := by
  have hnone : ∀ i, (rows'[i]?).any p = ((rows[i]?).any p && decide (i ∉ ([] : List Nat))) := by
    intro i
    rw [h i]
    simp
  simpa using positions_drop hlen hnone

/-- Dropping some of the listed rows leaves as many fewer. -/
theorem length_positions_drop {dead : List Nat} (hlen : rows'.length = rows.length)
    (h : ∀ i, (rows'[i]?).any p = ((rows[i]?).any p && decide (i ∉ dead)))
    (hnd : dead.Nodup) (hsub : ∀ i ∈ dead, i ∈ positions rows p) :
    (positions rows' p).length + dead.length = (positions rows p).length := by
  have hdead : dead.length = ((positions rows p).filter (· ∈ dead)).length := by
    refine List.Perm.length_eq ?_
    refine (List.perm_ext_iff_of_nodup hnd ((positions_nodup rows p).filter _)).mpr ?_
    intro i
    rw [List.mem_filter, decide_eq_true_eq]
    exact ⟨fun hi => ⟨hsub i hi, hi⟩, fun hi => hi.2⟩
  rw [positions_drop hlen h, hdead, Nat.add_comm]
  simpa using (List.length_eq_length_filter_add (l := positions rows p) (· ∈ dead)).symm

/-- A list of positions without repetitions that holds just these has as many of them. -/
theorem length_eq_of_mem {idxs : List Nat} (hnd : idxs.Nodup)
    (h : ∀ i, i ∈ idxs ↔ i ∈ positions rows p) : idxs.length = (rows.filter p).length := by
  rw [← length_positions]
  exact ((List.perm_ext_iff_of_nodup hnd (positions_nodup rows p)).mpr h).length_eq

/-! ### Rewriting the rows that count

The rows that count are copied one behind the other; `rank` is where each goes.
-/

/-- The new position of a row: how many rows before it count. -/
def rank (rows : List ρ) (q : ρ → Bool) (i : Nat) : Option Nat :=
  if (rows[i]?).any q then some ((rows.take i).countP q) else none

theorem rank_snoc_lt {row : ρ} {i : Nat} (hi : i < rows.length) :
    rank (rows ++ [row]) q i = rank rows q i := by
  unfold rank
  rw [List.getElem?_append_left hi, List.take_append_of_le_length (Nat.le_of_lt hi)]

theorem rank_snoc_eq (row : ρ) :
    rank (rows ++ [row]) q rows.length = if q row then some (rows.filter q).length else none := by
  unfold rank
  rw [List.getElem?_concat_length, List.take_left, List.countP_eq_length_filter]
  rfl

/-- The positions of the rows that count, renumbered. -/
theorem filterMap_rank (hp : ∀ row, p row → q row) :
    (positions rows p).filterMap (rank rows q) = positions (rows.filter q) p := by
  induction rows using List.reverseRecOn with
  | nil => rfl
  | append_singleton rest row ih =>
      have hold : (positions rest p).filterMap (rank (rest ++ [row]) q)
          = (positions rest p).filterMap (rank rest q) := by
        refine List.filterMap_congr ?_
        intro i hi
        obtain ⟨r, hr, -⟩ := mem_positions.mp hi
        exact rank_snoc_lt (List.getElem?_eq_some_iff.mp hr).1
      rw [positions_snoc, List.filterMap_append, hold, ih, List.filter_append]
      by_cases hq : q row
      · have hkept : [row].filter q = [row] := by simp [hq]
        rw [hkept, positions_snoc]
        by_cases hprow : p row
        · simp [hprow, rank_snoc_eq, hq]
        · simp [hprow]
      · have hnot : ¬ p row := fun h => hq (hp row h)
        simp [hq, hnot]

/-- A row that counts stands at its rank. -/
theorem rank_eq_some {i j : Nat} : rank rows q i = some j ↔
    ∃ row, rows[i]? = some row ∧ q row ∧ j = (rows.take i).countP q ∧
      (rows.filter q)[j]? = some row := by
  unfold rank
  constructor
  · intro h
    split at h
    · rename_i hany
      obtain ⟨row, hrow, hq⟩ := (Option.any_eq_true _ _).mp hany
      injection h with h
      obtain ⟨hlt, hget⟩ := List.getElem?_eq_some_iff.mp hrow
      refine ⟨row, hrow, hq, h.symm, ?_⟩
      have hsplit : rows = rows.take i ++ row :: rows.drop (i + 1) := by
        rw [← hget, List.getElem_cons_drop, List.take_append_drop]
      have hfilter : rows.filter q
          = (rows.take i).filter q ++ row :: (rows.drop (i + 1)).filter q := by
        conv_lhs => rw [hsplit]
        rw [List.filter_append, List.filter_cons_of_pos hq]
      rw [hfilter, ← h, List.countP_eq_length_filter]
      simp
    · exact absurd h (by simp)
  · rintro ⟨row, hrow, hq, rfl, -⟩
    rw [hrow]
    simp [hq]

/-- Every row of the copy comes from somewhere. -/
theorem exists_rank {j : Nat} {row : ρ} (h : (rows.filter q)[j]? = some row) :
    ∃ i, rank rows q i = some j := by
  induction rows using List.reverseRecOn with
  | nil => simp at h
  | append_singleton rest last ih =>
      rw [List.filter_append] at h
      by_cases hj : j < (rest.filter q).length
      · rw [List.getElem?_append_left hj] at h
        obtain ⟨i, hi⟩ := ih h
        obtain ⟨r, hr, -⟩ := rank_eq_some.mp hi
        exact ⟨i, (rank_snoc_lt (List.getElem?_eq_some_iff.mp hr).1).trans hi⟩
      · refine ⟨rest.length, ?_⟩
        have hlt := (List.getElem?_eq_some_iff.mp h).1
        rw [List.length_append] at hlt
        rw [rank_snoc_eq]
        by_cases hq : q last
        · rw [if_pos hq]
          simp only [hq, List.filter_cons_of_pos, List.filter_nil, List.length_singleton] at hlt
          congr 1
          omega
        · simp only [hq, Bool.false_eq_true, not_false_eq_true, List.filter_cons_of_neg,
            List.filter_nil, List.length_nil] at hlt
          omega

/-! ### Maps

A map of position lists files the rows when the entry under each key lists just
the rows of that key. The maps of an index are specified by this and never
unfolded again.
-/

variable [DecidableEq κ]

/-- The entry of every key lists the rows that satisfy its predicate. -/
def Files (rows : List ρ) (p : κ → ρ → Bool) (m : UMap κ (List Nat)) : Prop :=
  ∀ k, m.getD k [] = positions rows (p k)

/-- No entry is empty. -/
def NoneEmpty (m : UMap κ (List Nat)) : Prop := ∀ k, m.lookup k ≠ some []

variable {m : UMap κ (List Nat)} {file : κ → ρ → Bool}

theorem files_empty (p : κ → ρ → Bool) : Files [] p ∅ := fun _ => rfl

omit [DecidableEq κ] in
theorem noneEmpty_empty [DecidableEq κ] : NoneEmpty (∅ : UMap κ (List Nat)) := by
  intro k h
  simp at h

/-- Append a row's position to the entry of its key. -/
theorem Files.push (h : Files rows file m) {row : ρ} {key : κ}
    (hkey : ∀ k, file k row = decide (k = key)) :
    Files (rows ++ [row]) file (m.upsert key [] (· ++ [rows.length])) := by
  intro k
  rw [getD_upsert, positions_snoc, hkey]
  split
  · rename_i hk
    subst hk
    rw [h]
    simp
  · rename_i hk
    rw [h]
    simp [hk]

/-- A row without a key. -/
theorem Files.skip (h : Files rows file m) {row : ρ} (hkey : ∀ k, file k row = false) :
    Files (rows ++ [row]) file m := by
  intro k
  rw [positions_snoc, hkey, h]
  simp

theorem NoneEmpty.push (h : NoneEmpty m) (key : κ) (i : Nat) :
    NoneEmpty (m.upsert key [] (· ++ [i])) := by
  intro k hk
  rw [lookup_upsert] at hk
  split at hk
  · simp at hk
  · exact h k hk

/-- Where no entry is empty, what is listed says what a lookup finds. -/
theorem Files.lookup_eq (h : Files rows file m) (hne : NoneEmpty m) (k : κ) :
    m.lookup k = if positions rows (file k) = [] then none else some (positions rows (file k)) := by
  have hk := h k
  unfold UMap.getD at hk
  cases hl : m.lookup k with
  | none =>
      rw [hl] at hk
      have hnil : [] = positions rows (file k) := hk
      rw [if_pos hnil.symm]
  | some v =>
      rw [hl] at hk
      have hv : v = positions rows (file k) := hk
      rw [← hv, if_neg fun hnil => hne k (by rw [hl, hnil])]

theorem Files.lookup_eq_none (h : Files rows file m) (hne : NoneEmpty m) (k : κ) :
    m.lookup k = none ↔ positions rows (file k) = [] := by
  rw [h.lookup_eq hne]
  split
  · rename_i hnil
    simp [hnil]
  · rename_i hnil
    simp [hnil]

/-! ### Renumbering

A copy of the rows that count gives each its rank as new position, and a map
follows by renumbering its entries.
-/

/-- The entries under the new positions, without those that run empty. -/
def renumber (newOf : Nat → Option Nat) (m : UMap κ (List Nat)) : UMap κ (List Nat) :=
  filterMapVals
    (fun v =>
      let nv := v.filterMap newOf
      if nv = [] then none else some nv)
    m

theorem getD_renumber (newOf : Nat → Option Nat) (m : UMap κ (List Nat)) (k : κ) :
    (renumber newOf m).getD k [] = (m.getD k []).filterMap newOf := by
  unfold UMap.getD renumber
  rw [lookup_filterMapVals]
  cases m.lookup k with
  | none => rfl
  | some v =>
      simp only [Option.bind_some, Option.getD_some]
      split
      · rename_i hnil
        rw [hnil]
        rfl
      · rfl

theorem count_filterMap_unique {f : Nat → Option Nat} {i j : Nat}
    (h : ∀ x, f x = some i ↔ x = j) (l : List Nat) : (l.filterMap f).count i = l.count j := by
  induction l with
  | nil => rfl
  | cons x rest ih =>
      rw [List.filterMap_cons, List.count_cons, ← ih]
      cases hx : f x with
      | none =>
          have hne : x ≠ j := fun hc => by rw [(h x).mpr hc] at hx; simp at hx
          simp [hne]
      | some y =>
          rw [List.count_cons]
          by_cases hy : y = i
          · have hxj : x = j := (h x).mp (hx.trans (congrArg some hy))
            simp [hy, hxj]
          · have hne : x ≠ j := by
              intro hc
              rw [(h x).mpr hc] at hx
              injection hx with hx
              exact hy hx.symm
            simp [hy, hne]

theorem count_filterMap_none {f : Nat → Option Nat} {i : Nat} (h : ∀ x, f x ≠ some i)
    (l : List Nat) : (l.filterMap f).count i = 0 := by
  refine List.count_eq_zero.mpr fun hc => ?_
  obtain ⟨x, -, hx⟩ := List.mem_filterMap.mp hc
  exact h x hx

/-- A renumbered map lists the rows that were copied. -/
theorem Files.renumber (h : Files rows file m) (hkept : ∀ k row, file k row → q row) :
    Files (rows.filter q) file (Postings.renumber (rank rows q) m) := by
  intro k
  rw [getD_renumber, h, filterMap_rank (hkept k)]

theorem noneEmpty_renumber (newOf : Nat → Option Nat) (m : UMap κ (List Nat)) :
    NoneEmpty (renumber newOf m) := by
  intro k hk
  unfold renumber at hk
  rw [lookup_filterMapVals] at hk
  obtain ⟨v, -, hv⟩ := Option.bind_eq_some_iff.mp hk
  dsimp only at hv
  split at hv
  · simp at hv
  · rename_i hne
    injection hv with hv
    exact hne hv

/-! ### Scrubbing

When rows are dropped in place, only the entries of the keys they were filed
under are visited. That the other entries need no visit is what these lemmas
show.
-/

/-- Take dead positions out of the entries of these keys. -/
def scrub (m : UMap κ (List Nat)) (affected : List κ) (dead : List Nat) : UMap κ (List Nat) :=
  affected.foldl (fun m k => m.upsert k [] (·.filter (· ∉ dead))) m

/-- The same, and an entry that is empty then goes. -/
def scrubErase (m : UMap κ (List Nat)) (affected : List κ) (dead : List Nat) :
    UMap κ (List Nat) :=
  affected.foldl
    (fun m k =>
      match m.lookup k with
      | none => m
      | some v =>
        let v := v.filter (· ∉ dead)
        if v = [] then m.erase k else m.insert k v)
    m

theorem lookup_scrub (affected : List κ) (dead : List Nat) (m : UMap κ (List Nat)) (k : κ) :
    (scrub m affected dead).lookup k
      = if k ∈ affected then some ((m.getD k []).filter (· ∉ dead)) else m.lookup k := by
  unfold scrub
  induction affected generalizing m with
  | nil => simp
  | cons x rest ih =>
      rw [List.foldl_cons, ih, getD_upsert, lookup_upsert]
      by_cases hx : k = x
      · subst hx
        simp [List.filter_filter]
      · simp [hx]

theorem getD_scrub (affected : List κ) (dead : List Nat) (m : UMap κ (List Nat)) (k : κ) :
    (scrub m affected dead).getD k []
      = if k ∈ affected then (m.getD k []).filter (· ∉ dead) else m.getD k [] := by
  unfold UMap.getD
  rw [lookup_scrub]
  split <;> rfl

/-- What scrubbing one entry leaves. -/
def keptOf (dead : List Nat) (v : List Nat) : Option (List Nat) :=
  if v.filter (· ∉ dead) = [] then none else some (v.filter (· ∉ dead))

theorem lookup_scrubErase (affected : List κ) (dead : List Nat) (m : UMap κ (List Nat)) (k : κ) :
    (scrubErase m affected dead).lookup k
      = if k ∈ affected then (m.lookup k).bind (keptOf dead) else m.lookup k := by
  unfold scrubErase
  induction affected generalizing m with
  | nil => simp
  | cons x rest ih =>
      have hstep : ∀ k', AList.lookup k' (match m.lookup x with
          | none => m
          | some v =>
            let v := v.filter (· ∉ dead)
            if v = [] then m.erase x else m.insert x v)
          = if k' = x then (m.lookup x).bind (keptOf dead) else m.lookup k' := by
        intro k'
        cases hl : m.lookup x with
        | none =>
            show AList.lookup k' m = _
            by_cases hk : k' = x
            · rw [if_pos hk, hk, hl]
              rfl
            · rw [if_neg hk]
        | some v =>
            dsimp only [Option.bind_some, keptOf]
            split
            · rw [lookup_erase_ite]
            · rw [lookup_insert_ite]
      have hidem : ∀ v, (keptOf dead v).bind (keptOf dead) = keptOf dead v := by
        intro v
        unfold keptOf
        split
        · rfl
        · rename_i hv
          simp only [Option.bind_some, List.filter_filter, Bool.and_self]
          rw [if_neg hv]
      rw [List.foldl_cons, ih, hstep]
      by_cases hx : k = x
      · subst hx
        simp only [if_true, List.mem_cons, true_or, ite_eq_right_iff, Option.bind_assoc]
        intro _
        exact congrArg _ (funext hidem)
      · simp [hx]

/-- **A scrub follows the rows**: when every dropped row's key is affected, the entries list
the rows that are left. -/
theorem Files.scrub (h : Files rows file m) {affected : List κ} {dead : List Nat}
    (hlen : rows'.length = rows.length)
    (hrows : ∀ k i, (rows'[i]?).any (file k) = ((rows[i]?).any (file k) && decide (i ∉ dead)))
    (hkeys : ∀ k, ∀ i ∈ dead, i ∈ positions rows (file k) → k ∈ affected) :
    Files rows' file (Postings.scrub m affected dead) := by
  intro k
  rw [getD_scrub, h, positions_drop hlen (hrows k)]
  split
  · rfl
  · rename_i hk
    refine (List.filter_eq_self.mpr ?_).symm
    intro i hi
    simpa using fun hd => hk (hkeys k i hd hi)

theorem Files.scrubErase (h : Files rows file m) {affected : List κ} {dead : List Nat}
    (hlen : rows'.length = rows.length)
    (hrows : ∀ k i, (rows'[i]?).any (file k) = ((rows[i]?).any (file k) && decide (i ∉ dead)))
    (hkeys : ∀ k, ∀ i ∈ dead, i ∈ positions rows (file k) → k ∈ affected) :
    Files rows' file (Postings.scrubErase m affected dead) := by
  intro k
  have hget : (Postings.scrubErase m affected dead).getD k []
      = if k ∈ affected then (m.getD k []).filter (· ∉ dead) else m.getD k [] := by
    unfold UMap.getD
    rw [lookup_scrubErase]
    split
    · cases m.lookup k with
      | none => rfl
      | some v =>
          simp only [Option.bind_some, keptOf, Option.getD_some]
          split
          · rename_i hnil
            rw [hnil]
            rfl
          · rfl
    · rfl
  rw [hget, ← getD_scrub]
  exact h.scrub hlen hrows hkeys k

theorem NoneEmpty.scrubErase (h : NoneEmpty m) (affected : List κ) (dead : List Nat) :
    NoneEmpty (Postings.scrubErase m affected dead) := by
  intro k hk
  rw [lookup_scrubErase] at hk
  split at hk
  · obtain ⟨v, -, hv⟩ := Option.bind_eq_some_iff.mp hk
    unfold keptOf at hv
    split at hv
    · exact absurd hv (by simp)
    · rename_i hne
      injection hv with hv
      exact hne hv
  · exact h k hk

end Postings
