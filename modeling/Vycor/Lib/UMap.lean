/-
Finite maps with an unspecified iteration order.

A `UMap` is an association list without repeated keys, so it has the two things a
hash map offers: looking a key up, and walking over its entries once each.  The
order of the walk is whatever order the entries happen to stand in, and nothing
proved from `lookup` alone can depend on it.

`upsert` is the `map[key].change(...)` idiom: look the key up, start from a default
value when it is absent, and store the changed value back.
-/
import Mathlib.Algebra.BigOperators.Group.List.Basic
import Mathlib.Algebra.GroupWithZero.Nat
import Mathlib.Data.List.AList

universe u v

/-- A finite map from `κ` to `β`. -/
abbrev UMap (κ : Type u) (β : Type v) := AList (fun _ : κ => β)

namespace UMap

variable {κ : Type u} {β : Type v} [DecidableEq κ]

/-- Change the value stored at `k`, starting from `d` when there is none. -/
def upsert (m : UMap κ β) (k : κ) (d : β) (f : β → β) : UMap κ β :=
  m.insert k (f ((m.lookup k).getD d))

/-- The value at `k`, or `d`. -/
def getD (m : UMap κ β) (k : κ) (d : β) : β := (m.lookup k).getD d

theorem lookup_insert_ite (m : UMap κ β) (k k' : κ) (v : β) :
    AList.lookup k' (AList.insert k v m) = if k' = k then some v else m.lookup k' := by
  by_cases h : k' = k
  · subst h
    rw [if_pos rfl]
    exact AList.lookup_insert m
  · rw [if_neg h]
    exact AList.lookup_insert_ne h

theorem lookup_erase_ite (m : UMap κ β) (k k' : κ) :
    AList.lookup k' (AList.erase k m) = if k' = k then none else m.lookup k' := by
  by_cases h : k' = k
  · subst h
    rw [if_pos rfl]
    exact AList.lookup_erase _ m
  · rw [if_neg h]
    exact AList.lookup_erase_ne h

theorem lookup_upsert (m : UMap κ β) (k k' : κ) (d : β) (f : β → β) :
    AList.lookup k' (m.upsert k d f)
      = if k' = k then some (f (m.getD k d)) else m.lookup k' :=
  lookup_insert_ite m k k' _

@[simp] theorem getD_empty (k : κ) (d : β) : getD (∅ : UMap κ β) k d = d := rfl

theorem getD_insert (m : UMap κ β) (k k' : κ) (v d : β) :
    getD (AList.insert k v m) k' d = if k' = k then v else m.getD k' d := by
  unfold getD
  rw [lookup_insert_ite]
  split <;> rfl

theorem getD_erase (m : UMap κ β) (k k' : κ) (d : β) :
    getD (AList.erase k m) k' d = if k' = k then d else m.getD k' d := by
  unfold getD
  rw [lookup_erase_ite]
  split <;> rfl

theorem getD_upsert (m : UMap κ β) (k k' : κ) (d : β) (f : β → β) :
    getD (m.upsert k d f) k' d = if k' = k then f (m.getD k d) else m.getD k' d :=
  getD_insert m k k' _ d

/-- Store a value unless there is one. -/
def emplace (m : UMap κ β) (k : κ) (v : β) : UMap κ β :=
  if (m.lookup k).isSome then m else m.insert k v

theorem lookup_emplace (m : UMap κ β) (k k' : κ) (v : β) :
    AList.lookup k' (m.emplace k v)
      = if k' = k then some ((m.lookup k).getD v) else m.lookup k' := by
  unfold emplace
  cases h : m.lookup k with
  | none => simp [lookup_insert_ite]
  | some w =>
      rw [if_pos (by simp)]
      split
      · rename_i hk
        rw [hk, h]
        rfl
      · rfl

theorem emplace_of_none {m : UMap κ β} {k : κ} (h : m.lookup k = none) (v : β) :
    m.emplace k v = m.insert k v := if_neg (by simp [h])

/-- A map of positions keeps below a bound when a position below it is added. -/
theorem lt_of_lookup_emplace {m : UMap κ Nat} {n v : Nat} (h : ∀ k w, m.lookup k = some w → w < n)
    (hv : v < n) (k : κ) {k' : κ} {w : Nat} (hw : AList.lookup k' (m.emplace k v) = some w) :
    w < n := by
  rw [lookup_emplace] at hw
  split at hw
  · injection hw with hw
    rw [← hw]
    cases hl : m.lookup k with
    | none => exact hv
    | some old => exact h k old hl
  · exact h k' w hw

/-- Store every entry of `fresh`, replacing what was there. -/
def insertAll (m fresh : UMap κ β) : UMap κ β :=
  fresh.entries.foldl (fun m kv => m.insert kv.1 kv.2) m

/-- Drop every listed key. -/
def eraseAll (m : UMap κ β) (keys : List κ) : UMap κ β :=
  keys.foldl (fun m k => m.erase k) m

theorem lookup_eraseAll (keys : List κ) (m : UMap κ β) (k : κ) [d : Decidable (k ∈ keys)] :
    AList.lookup k (m.eraseAll keys) = if k ∈ keys then none else m.lookup k := by
  unfold eraseAll
  induction keys generalizing m d with
  | nil => simp
  | cons x rest ih =>
      rw [List.foldl_cons, ih (d := inferInstance), lookup_erase_ite]
      by_cases hx : k = x
      · simp [hx]
      · simp [hx]

private theorem lookup_foldl_insert :
    ∀ (l : List (Sigma fun _ : κ => β)) (m : UMap κ β) (k : κ), l.NodupKeys →
      AList.lookup k (l.foldl (fun m kv => AList.insert kv.1 kv.2 m) m)
        = (List.dlookup k l).or (m.lookup k) := by
  intro l
  induction l with
  | nil => intro m k _; simp
  | cons x rest ih =>
      intro m k hnd
      obtain ⟨a, b⟩ := x
      obtain ⟨hnot, hrest⟩ := List.nodupKeys_cons.mp hnd
      rw [List.foldl_cons, ih _ _ hrest, lookup_insert_ite]
      by_cases hk : k = a
      · subst hk
        rw [List.dlookup_cons_eq, List.dlookup_eq_none.mpr hnot]
        simp
      · rw [List.dlookup_cons_ne _ _ hk]
        simp [hk]

theorem lookup_insertAll (m fresh : UMap κ β) (k : κ) :
    AList.lookup k (m.insertAll fresh) = (fresh.lookup k).or (m.lookup k) :=
  lookup_foldl_insert fresh.entries m k fresh.nodupKeys

/-- Walking the entries meets exactly the pairs `lookup` answers with. -/
theorem mem_entries (m : UMap κ β) (k : κ) (v : β) :
    (⟨k, v⟩ : Sigma fun _ : κ => β) ∈ m.entries ↔ m.lookup k = some v := by
  rw [← AList.mem_lookup_iff]
  rfl

/-! ### Totals

The sum of a measure over the stored values.  Where the default value measures zero, a
key that is absent counts as one that holds the default.
-/

/-- The sum of `f` over the stored values. -/
def total (f : β → Nat) (m : UMap κ β) : Nat := (m.entries.map fun kv => f kv.2).sum

omit [DecidableEq κ] in
@[simp] theorem total_empty (f : β → Nat) : total f (∅ : UMap κ β) = 0 := rfl

private theorem sum_kerase (f : β → Nat) (k : κ) (l : List (Sigma fun _ : κ => β)) :
    (l.map fun kv => f kv.2).sum
      = ((List.dlookup k l).map f).getD 0 + ((List.kerase k l).map fun kv => f kv.2).sum := by
  induction l with
  | nil => rfl
  | cons x rest ih =>
      obtain ⟨a, b⟩ := x
      by_cases hk : k = a
      · subst hk
        have herase : List.kerase k (⟨k, b⟩ :: rest) = rest := List.kerase_cons_eq rfl
        rw [List.dlookup_cons_eq, herase]
        simp
      · rw [List.dlookup_cons_ne _ _ hk, List.kerase_cons_ne hk, List.map_cons, List.map_cons,
          List.sum_cons, List.sum_cons, ih]
        omega

theorem total_erase (f : β → Nat) (m : UMap κ β) (k : κ) (d : β) (hd : f d = 0) :
    total f m = f (m.getD k d) + total f (AList.erase k m) := by
  have h := sum_kerase f k m.entries
  have hget : ((List.dlookup k m.entries).map f).getD 0 = f (m.getD k d) := by
    show _ = f ((List.dlookup k m.entries).getD d)
    cases List.dlookup k m.entries with
    | none => simp [hd]
    | some v => rfl
  rw [hget] at h
  exact h

theorem total_insert (f : β → Nat) (m : UMap κ β) (k : κ) (v : β) :
    total f (AList.insert k v m) = f v + total f (AList.erase k m) := by
  rw [total, AList.entries_insert, List.map_cons, List.sum_cons]
  rfl

/-- Changing one value moves the total by what it changes that value's measure. -/
theorem total_upsert (f : β → Nat) (m : UMap κ β) (k : κ) (d : β) (hd : f d = 0) (g : β → β) :
    total f (m.upsert k d g) + f (m.getD k d) = total f m + f (g (m.getD k d)) := by
  rw [upsert, total_insert, total_erase f m k d hd]
  unfold getD
  omega

theorem le_total (f : β → Nat) (m : UMap κ β) (k : κ) (d : β) (hd : f d = 0) :
    f (m.getD k d) ≤ total f m := by
  rw [total_erase f m k d hd]
  exact Nat.le_add_right _ _

theorem total_eq_zero {f : β → Nat} {m : UMap κ β} (d : β) (hd : f d = 0) :
    total f m = 0 ↔ ∀ k, f (m.getD k d) = 0 := by
  constructor
  · intro h k
    have := le_total f m k d hd
    omega
  · intro h
    refine List.sum_eq_zero ?_
    intro x hx
    obtain ⟨kv, hkv, rfl⟩ := List.mem_map.mp hx
    have hget := h kv.1
    rw [getD, (mem_entries m kv.1 kv.2).mp hkv] at hget
    exact hget

/-- Two maps that measure alike at every key have one total, whatever keys they store. -/
theorem total_congr_getD {f g : β → Nat} (d : β) (hf : f d = 0) (hg : g d = 0) (m : UMap κ β) :
    ∀ m' : UMap κ β, (∀ k, f (m.getD k d) = g (m'.getD k d)) → total f m = total g m' := by
  induction hn : m.keys.length generalizing m with
  | zero =>
      intro m' h
      have hkeys : m.keys = [] := List.length_eq_zero_iff.mp hn
      have hnil : ∀ k, m.getD k d = d := by
        intro k
        have hk : k ∉ m := by
          intro hc
          have hmem := AList.mem_keys.mp hc
          rw [hkeys] at hmem
          exact absurd hmem List.not_mem_nil
        rw [getD, AList.lookup_eq_none.mpr hk]
        rfl
      rw [(total_eq_zero d hf).mpr fun k => by rw [hnil k, hf],
        (total_eq_zero d hg).mpr fun k => by rw [← h k, hnil k, hf]]
  | succ n ih =>
      intro m' h
      obtain ⟨k, hk⟩ : ∃ k, k ∈ m.keys := List.exists_mem_of_length_pos (by omega)
      rw [total_erase f m k d hf, total_erase g m' k d hg, h k]
      congr 1
      refine ih (AList.erase k m) ?_ (AList.erase k m') ?_
      · rw [AList.keys_erase, List.length_erase_of_mem hk, hn]
        rfl
      · intro k'
        rw [getD_erase, getD_erase]
        split
        · rw [hf, hg]
        · exact h k'

/-! ### Mapping the values

`filterMapVals` rebuilds a map from its entries and leaves out those whose value maps to
nothing.
-/

section FilterMapVals

variable {γ : Type*}

/-- The entries whose value `f` keeps, with what it makes of the value. -/
def filterMapVals (f : β → Option γ) (m : UMap κ β) : UMap κ γ :=
  m.entries.foldl (fun acc kv => match f kv.2 with
    | none => acc
    | some v => AList.insert kv.1 v acc) ∅

/-- The fold meets each key once, so what it enters for one key no later turn touches. -/
private theorem lookup_filterMap_fold (f : β → Option γ)
    (l : List (Sigma fun _ : κ => β)) (hnd : (l.map Sigma.fst).Nodup) (k : κ) :
    ∀ acc : UMap κ γ, (∀ kv ∈ l, acc.lookup kv.1 = none) →
      AList.lookup k (l.foldl (fun (acc : UMap κ γ) kv => match f kv.2 with
          | none => acc
          | some v => AList.insert kv.1 v acc) acc)
        = ((List.dlookup k l).bind f).or (acc.lookup k) := by
  induction l with
  | nil => exact fun acc _ => rfl
  | cons x rest ih =>
      intro acc hfresh
      obtain ⟨a, b⟩ := x
      rw [List.map_cons, List.nodup_cons] at hnd
      have hnot : ∀ kv ∈ rest, kv.1 ≠ a := fun kv hkv hc =>
        hnd.1 (List.mem_map.mpr ⟨kv, hkv, hc⟩)
      have hrest : List.dlookup a rest = none := by
        rw [List.dlookup_eq_none]
        exact hnd.1
      rw [List.foldl_cons]
      cases hf : f b with
      | none =>
          have hlook := ih hnd.2 acc fun kv hkv => hfresh kv (List.mem_cons_of_mem _ hkv)
          refine hlook.trans ?_
          by_cases hk : k = a
          · subst hk
            rw [hrest, List.dlookup_cons_eq, Option.bind_some, hf]
            rfl
          · rw [List.dlookup_cons_ne _ _ hk]
      | some v =>
          have hlook := ih hnd.2 (AList.insert a v acc) fun kv hkv => by
            rw [AList.lookup_insert_ne (hnot kv hkv)]
            exact hfresh kv (List.mem_cons_of_mem _ hkv)
          refine hlook.trans ?_
          by_cases hk : k = a
          · subst hk
            rw [hrest, List.dlookup_cons_eq, Option.bind_some, hf, AList.lookup_insert]
            rfl
          · rw [List.dlookup_cons_ne _ _ hk, AList.lookup_insert_ne hk]

theorem lookup_filterMapVals (f : β → Option γ) (m : UMap κ β) (k : κ) :
    (filterMapVals f m).lookup k = (m.lookup k).bind f := by
  have h := lookup_filterMap_fold f m.entries m.nodupKeys k ∅ fun _ _ => rfl
  refine h.trans ?_
  show ((m.lookup k).bind f).or none = _
  rw [Option.or_none]

end FilterMapVals

/-! ### Maps of lists

What the keys and the listed elements of a map all satisfy.
-/

section Lists

variable {α α' : Type*} {K K' : κ → Prop} {V V' : α → Prop} {m : UMap κ (List α)}

/-- Every key satisfies `K`, every listed element `V`. -/
def Lists (K : κ → Prop) (V : α → Prop) (m : UMap κ (List α)) : Prop :=
  ∀ k l, m.lookup k = some l → K k ∧ ∀ x ∈ l, V x

theorem Lists.empty : Lists K V (∅ : UMap κ (List α)) := fun k l h => by simp at h

theorem Lists.mono (h : Lists K V m) (hK : ∀ k, K k → K' k) (hV : ∀ x, V x → V' x) :
    Lists K' V' m := fun k l hl =>
  ⟨hK k (h k l hl).1, fun x hx => hV x ((h k l hl).2 x hx)⟩

theorem Lists.getD (h : Lists K V m) (k : κ) : ∀ x ∈ m.getD k [], V x := by
  unfold UMap.getD
  cases hl : m.lookup k with
  | none => simp
  | some l => exact (h k l hl).2

theorem Lists.insert (h : Lists K V m) {k : κ} {l : List α} (hk : K k) (hl : ∀ x ∈ l, V x) :
    Lists K V (AList.insert k l m) := by
  intro k' l' hl'
  rw [lookup_insert_ite] at hl'
  split at hl'
  · rename_i heq
    injection hl' with hl'
    subst heq hl'
    exact ⟨hk, hl⟩
  · exact h k' l' hl'

theorem Lists.upsert (h : Lists K V m) {k : κ} {f : List α → List α} (hk : K k)
    (hf : ∀ l, (∀ x ∈ l, V x) → ∀ x ∈ f l, V x) : Lists K V (m.upsert k [] f) :=
  h.insert hk (hf _ (h.getD k))

/-- Append one element under a key. -/
theorem Lists.push (h : Lists K V m) {k : κ} {x : α} (hk : K k) (hx : V x) :
    Lists K V (m.upsert k [] (· ++ [x])) := by
  refine h.upsert hk ?_
  intro l hl y hy
  rcases List.mem_append.mp hy with hy | hy
  · exact hl y hy
  · rw [List.mem_singleton.mp hy]
    exact hx

theorem Lists.erase (h : Lists K V m) (k : κ) : Lists K V (AList.erase k m) := by
  intro k' l hl
  rw [lookup_erase_ite] at hl
  split at hl
  · simp at hl
  · exact h k' l hl

theorem Lists.eraseAll (h : Lists K V m) (keys : List κ) : Lists K V (m.eraseAll keys) := by
  unfold UMap.eraseAll
  induction keys generalizing m with
  | nil => exact h
  | cons k rest ih => exact ih (h.erase k)

theorem Lists.filterMapVals {W : α' → Prop} (h : Lists K V m)
    {f : List α → Option (List α')}
    (hf : ∀ l l', (∀ x ∈ l, V x) → f l = some l' → ∀ y ∈ l', W y) :
    Lists K W (UMap.filterMapVals f m) := by
  intro k l' hl'
  rw [lookup_filterMapVals] at hl'
  obtain ⟨l, hl, hfl⟩ := Option.bind_eq_some_iff.mp hl'
  exact ⟨(h k l hl).1, hf l l' (h k l hl).2 hfl⟩

/-- Lists of positions, moved; those that run empty go. -/
theorem Lists.moved {m : UMap κ (List Nat)} {k k' : Nat} (h : Lists K (· < k) m)
    {newOf : Nat → Option Nat} (hnew : ∀ i j, newOf i = some j → j < k') :
    Lists K (· < k') (UMap.filterMapVals (fun l =>
      let moved := l.filterMap newOf
      if moved = [] then none else some moved) m) := by
  refine h.filterMapVals ?_
  intro l l' _ hl'
  dsimp only at hl'
  split at hl'
  · cases hl'
  · injection hl' with hl'
    subst hl'
    intro j hj
    obtain ⟨i, -, hij⟩ := List.mem_filterMap.mp hj
    exact hnew i j hij

end Lists

/-! ### Folds that touch each key once -/

/-- A fold over items with distinct keys, each of which changes what the state says about
its own key only, changes every key at most once. -/
theorem foldl_at {σ α ω : Type*} (P : σ → Prop) (step : σ → α → σ) (key : α → κ)
    (proj : σ → κ → ω) (upd : α → ω → ω) (l : List α) (hnd : (l.map key).Nodup)
    (hstep : ∀ s, P s → ∀ a ∈ l, P (step s a) ∧
      ∀ k, proj (step s a) k = if k = key a then upd a (proj s k) else proj s k) :
    ∀ s, P s → P (l.foldl step s) ∧
      ∀ k, proj (l.foldl step s) k
        = match l.find? (fun a => key a = k) with
          | some a => upd a (proj s k)
          | none => proj s k := by
  induction l with
  | nil => intro s hs; exact ⟨hs, fun k => rfl⟩
  | cons a rest ih =>
      intro s hs
      rw [List.map_cons, List.nodup_cons] at hnd
      obtain ⟨hP, hone⟩ := hstep s hs a List.mem_cons_self
      obtain ⟨hPrest, hrest⟩ := ih hnd.2
        (fun s hs b hb => hstep s hs b (List.mem_cons_of_mem _ hb)) _ hP
      refine ⟨hPrest, ?_⟩
      intro k
      rw [List.foldl_cons, hrest k, hone k, List.find?_cons]
      by_cases hk : key a = k
      · have hnone : rest.find? (fun b => key b = k) = none := by
          rw [List.find?_eq_none]
          intro b hb
          simp only [decide_eq_true_eq]
          intro hbk
          exact hnd.1 (List.mem_map.mpr ⟨b, hb, hbk.trans hk.symm⟩)
        simp [hk, hnone]
      · simp [hk, Ne.symm hk]

/-! ### Grouping -/

/-- Rows grouped under their keys: a key has what its rows made, in their order. -/
theorem lookup_grouped {α : Type*} (rows : List α) (key : α → κ) (d : β) (f : β → α → β) (k : κ) :
    AList.lookup k (rows.foldl (fun (m : UMap κ β) e => m.upsert (key e) d (f · e)) ∅)
      = if k ∈ rows.map key then some ((rows.filter (key · = k)).foldl f d) else none := by
  suffices hrun : ∀ m : UMap κ β,
      AList.lookup k (rows.foldl (fun (m : UMap κ β) e => m.upsert (key e) d (f · e)) m)
        = if k ∈ rows.map key then some ((rows.filter (key · = k)).foldl f (m.getD k d))
          else m.lookup k by
    exact hrun ∅
  induction rows with
  | nil => intro m; rfl
  | cons e rest ih =>
      intro m
      rw [List.foldl_cons, ih, lookup_upsert, getD_upsert, List.map_cons]
      by_cases hk : key e = k
      · subst hk
        rw [if_pos rfl, if_pos rfl, if_pos List.mem_cons_self,
          List.filter_cons_of_pos (by simp), List.foldl_cons]
        split
        · rfl
        · rename_i hnot
          rw [List.filter_eq_nil_iff.mpr]
          · rfl
          · intro x hx hxe
            exact hnot (List.mem_map.mpr ⟨x, hx, by simpa using hxe⟩)
      · have hk' : ¬ k = key e := fun hc => hk hc.symm
        rw [if_neg hk', if_neg hk', List.filter_cons_of_neg (by simpa using hk)]
        simp only [List.mem_cons, hk', false_or]

end UMap
