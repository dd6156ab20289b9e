/-
Breadth-first search by waves, with the way on which each node is first come to.

A way is a node and what lies behind it, nearest first.  The first wave has the starts.  The
next goes over the ways of a wave in order and over the successors of each end in order, and keeps
a longer way where its end is new.  After wave `cap` nothing more is come to.

A wave has the nodes at that many steps from the starts, each once and on a shortest way, so the
first way with some property of its end is a shortest one with it.
-/
import Mathlib.Data.List.Chain
import Mathlib.Data.List.Nodup

namespace Waves

variable {ν : Type}

/-- A node, and what lies behind it, nearest first. -/
abbrev Way (ν : Type) := ν × List ν

/-- A way from a start along successors. -/
inductive IsWay (succ : ν → List ν) (starts : List ν) : Way ν → Prop
  | start {x : ν} : x ∈ starts → IsWay succ starts (x, [])
  | step {w : Way ν} {y : ν} : IsWay succ starts w → y ∈ succ w.1 → IsWay succ starts (y, w.1 :: w.2)

/-- One step on. -/
def ahead (succ : ν → List ν) (w : Way ν) : List (Way ν) :=
  (succ w.1).map fun y => (y, w.1 :: w.2)

/-- A way is a chain of successors that starts at a start. -/
theorem isWay_iff {succ : ν → List ν} {starts : List ν} {w : Way ν} :
    IsWay succ starts w ↔
      ((w.1 :: w.2).IsChain fun y x => y ∈ succ x) ∧
        ∃ s ∈ starts, (w.1 :: w.2).getLast? = some s := by
  constructor
  · intro h
    induction h with
    | start hx => exact ⟨List.isChain_singleton _, _, hx, rfl⟩
    | step hw hy ih =>
        obtain ⟨hchain, s, hs, hlast⟩ := ih
        refine ⟨List.isChain_cons_cons.mpr ⟨hy, hchain⟩, s, hs, ?_⟩
        rw [List.getLast?_cons_cons]
        exact hlast
  · obtain ⟨x, back⟩ := w
    intro h
    induction back generalizing x with
    | nil =>
        obtain ⟨-, s, hs, hlast⟩ := h
        obtain rfl : x = s := Option.some.inj hlast
        exact IsWay.start hs
    | cons y back ih =>
        obtain ⟨hchain, s, hs, hlast⟩ := h
        obtain ⟨hstep, hchain⟩ := List.isChain_cons_cons.mp hchain
        rw [List.getLast?_cons_cons] at hlast
        exact IsWay.step (ih y ⟨hchain, s, hs, hlast⟩) hstep

/-- The same, read from the start. -/
theorem isWay_iff_reverse {succ : ν → List ν} {starts : List ν} {w : Way ν} :
    IsWay succ starts w ↔
      ((w.1 :: w.2).reverse.IsChain fun x y => y ∈ succ x) ∧
        ∃ s ∈ starts, (w.1 :: w.2).reverse.head? = some s := by
  rw [isWay_iff, List.isChain_reverse, List.head?_reverse]

theorem exists_way_eq_reverse {chain : List ν} (h : chain ≠ []) :
    ∃ w : Way ν, chain = (w.1 :: w.2).reverse := by
  cases hreverse : chain.reverse with
  | nil => exact absurd (List.reverse_eq_nil_iff.mp hreverse) h
  | cons x back => exact ⟨(x, back), by rw [← hreverse, List.reverse_reverse]⟩

variable [DecidableEq ν]

/-! ### Waves

A search in waves keeps, for each end, the first way by which it was met. The
waves are defined without a loop: each is made of the ends of the wave before.
-/

/-- The ways whose end is not seen yet, each end once. -/
def firstNew : List ν → List (Way ν) → List (Way ν)
  | _, [] => []
  | seen, w :: rest =>
    if w.1 ∈ seen then firstNew seen rest else w :: firstNew (seen ++ [w.1]) rest

section

variable (succ : ν → List ν) (cap : Nat) (starts : List ν)

/-- The ways of the first `n + 1` waves, and of the last of these. -/
def waves : Nat → List (Way ν) × List (Way ν)
  | 0 =>
    let first := firstNew [] (starts.map fun x => (x, []))
    (first, first)
  | n + 1 =>
    let (known, wave) := waves n
    let next := if n < cap then firstNew (known.map (·.1)) (wave.flatMap (ahead succ)) else []
    (known ++ next, next)

/-- What is known after so many waves. -/
def known (n : Nat) : List (Way ν) := (waves succ cap starts n).1

/-- The ways the wave itself added. -/
def wave (n : Nat) : List (Way ν) := (waves succ cap starts n).2

end

/-! ### New ends -/

theorem firstNew_old {seen : List ν} {w : Way ν} (h : w.1 ∈ seen) (rest : List (Way ν)) :
    firstNew seen (w :: rest) = firstNew seen rest := by
  rw [firstNew, if_pos h]

theorem firstNew_new {seen : List ν} {w : Way ν} (h : w.1 ∉ seen) (rest : List (Way ν)) :
    firstNew seen (w :: rest) = w :: firstNew (seen ++ [w.1]) rest := by
  rw [firstNew, if_neg h]

theorem firstNew_append (seen : List ν) (l m : List (Way ν)) :
    firstNew seen (l ++ m) =
      firstNew seen l ++ firstNew (seen ++ (firstNew seen l).map (·.1)) m := by
  induction l generalizing seen with
  | nil => simp [firstNew]
  | cons w rest ih =>
      rw [List.cons_append]
      by_cases hold : w.1 ∈ seen
      · rw [firstNew_old hold, firstNew_old hold, ih]
      · rw [firstNew_new hold, firstNew_new hold, ih, List.cons_append, List.map_cons,
          List.append_assoc]
        rfl

theorem mem_firstNew {seen : List ν} {l : List (Way ν)} {w : Way ν} (h : w ∈ firstNew seen l) :
    w ∈ l ∧ w.1 ∉ seen := by
  induction l generalizing seen with
  | nil => cases h
  | cons v rest ih =>
      by_cases hold : v.1 ∈ seen
      · rw [firstNew_old hold] at h
        exact (ih h).imp_left (List.mem_cons_of_mem _)
      · rw [firstNew_new hold] at h
        rcases List.mem_cons.mp h with rfl | h
        · exact ⟨List.mem_cons_self, hold⟩
        · obtain ⟨hmem, hout⟩ := ih h
          exact ⟨List.mem_cons_of_mem _ hmem, fun hc => hout (List.mem_append_left _ hc)⟩

/-- Every end is seen afterwards. -/
theorem firstNew_covers (seen : List ν) {l : List (Way ν)} {w : Way ν} (h : w ∈ l) :
    w.1 ∈ seen ++ (firstNew seen l).map (·.1) := by
  induction l generalizing seen with
  | nil => cases h
  | cons v rest ih =>
      by_cases hold : v.1 ∈ seen
      · rw [firstNew_old hold]
        rcases List.mem_cons.mp h with rfl | h
        · exact List.mem_append_left _ hold
        · exact ih seen h
      · rw [firstNew_new hold]
        rcases List.mem_cons.mp h with rfl | h
        · simp
        · have hmem := ih (seen ++ [v.1]) h
          rwa [List.append_assoc] at hmem

/-! ### What a wave has

A way of wave `n` has `n` steps, and an end that any way of `n` steps has is
known by wave `n`. These two facts make the ways that are kept shortest ones.
-/

section

variable {succ : ν → List ν} {cap : Nat} {starts : List ν} {n : Nat} {w : Way ν}

theorem known_succ (n : Nat) :
    known succ cap starts (n + 1) = known succ cap starts n ++ wave succ cap starts (n + 1) := rfl

theorem wave_succ (n : Nat) :
    wave succ cap starts (n + 1) = if n < cap then
      firstNew ((known succ cap starts n).map (·.1)) ((wave succ cap starts n).flatMap (ahead succ))
      else [] := rfl

theorem wave_succ_of_lt (h : n < cap) :
    wave succ cap starts (n + 1) =
      firstNew ((known succ cap starts n).map (·.1))
        ((wave succ cap starts n).flatMap (ahead succ)) := by
  rw [wave_succ, if_pos h]

theorem wave_sub_known (n : Nat) : ∀ w ∈ wave succ cap starts n, w ∈ known succ cap starts n := by
  intro w hw
  cases n with
  | zero => exact hw
  | succ n => exact List.mem_append_right _ hw

/-- A way of a later wave is one of the wave before, and a step. -/
theorem mem_wave_succ (h : w ∈ wave succ cap starts (n + 1)) :
    n < cap ∧ w.1 ∉ (known succ cap starts n).map (·.1) ∧
      ∃ v ∈ wave succ cap starts n, w.1 ∈ succ v.1 ∧ w.2 = v.1 :: v.2 := by
  rw [wave_succ] at h
  by_cases hcap : n < cap
  · rw [if_pos hcap] at h
    obtain ⟨hmem, hnew⟩ := mem_firstNew h
    obtain ⟨v, hv, hahead⟩ := List.mem_flatMap.mp hmem
    obtain ⟨y, hy, rfl⟩ := List.mem_map.mp hahead
    exact ⟨hcap, hnew, v, hv, hy, rfl⟩
  · rw [if_neg hcap] at h
    cases h

theorem mem_wave_zero (h : w ∈ wave succ cap starts 0) : w.1 ∈ starts ∧ w.2 = [] := by
  obtain ⟨x, hx, rfl⟩ := List.mem_map.mp (mem_firstNew h).1
  exact ⟨hx, rfl⟩

/-- The ways of a wave are as long as it is late. -/
theorem isWay_of_mem_wave (h : w ∈ wave succ cap starts n) :
    IsWay succ starts w ∧ w.2.length = n := by
  induction n generalizing w with
  | zero =>
      obtain ⟨x, back⟩ := w
      obtain ⟨hx, rfl⟩ := mem_wave_zero h
      exact ⟨IsWay.start hx, rfl⟩
  | succ n ih =>
      obtain ⟨x, back⟩ := w
      obtain ⟨-, -, v, hv, hx, rfl⟩ := mem_wave_succ h
      obtain ⟨hway, hlength⟩ := ih hv
      exact ⟨hway.step hx, congrArg Nat.succ hlength⟩

theorem mem_known_iff : w ∈ known succ cap starts n ↔ ∃ k ≤ n, w ∈ wave succ cap starts k := by
  induction n with
  | zero => exact ⟨fun h => ⟨0, Nat.le_refl 0, h⟩, fun ⟨k, hk, h⟩ => by rwa [Nat.le_zero.mp hk] at h⟩
  | succ n ih =>
      rw [known_succ, List.mem_append, ih]
      constructor
      · rintro (⟨k, hk, h⟩ | h)
        · exact ⟨k, Nat.le_succ_of_le hk, h⟩
        · exact ⟨n + 1, Nat.le_refl _, h⟩
      · rintro ⟨k, hk, h⟩
        rcases Nat.le_succ_iff.mp hk with hle | rfl
        · exact Or.inl ⟨k, hle, h⟩
        · exact Or.inr h

theorem known_mono {m : Nat} (hmn : m ≤ n) (h : w ∈ known succ cap starts m) :
    w ∈ known succ cap starts n := by
  obtain ⟨k, hk, hwave⟩ := mem_known_iff.mp h
  exact mem_known_iff.mpr ⟨k, hk.trans hmn, hwave⟩

/-- What lies behind a known end is known. -/
theorem behind_known {x y : ν} {back : List ν} (h : (y, x :: back) ∈ known succ cap starts n) :
    (x, back) ∈ known succ cap starts n := by
  obtain ⟨k, hk, hwave⟩ := mem_known_iff.mp h
  cases k with
  | zero => exact absurd (mem_wave_zero hwave).2 (List.cons_ne_nil _ _)
  | succ k =>
      obtain ⟨-, -, v, hv, -, hback⟩ := mem_wave_succ hwave
      obtain ⟨rfl, rfl⟩ := List.cons.inj hback
      exact mem_known_iff.mpr ⟨k, Nat.le_of_succ_le hk, hv⟩

/-- On a way to a known end no node comes twice, and all are known. -/
theorem nodup_of_mem_wave (h : w ∈ wave succ cap starts n) :
    (w.1 :: w.2).Nodup ∧ ∀ x ∈ w.1 :: w.2, x ∈ (known succ cap starts n).map (·.1) := by
  induction n generalizing w with
  | zero =>
      rw [(mem_wave_zero h).2]
      refine ⟨List.nodup_singleton _, fun x hx => ?_⟩
      rw [List.mem_singleton.mp hx]
      exact List.mem_map.mpr ⟨w, h, rfl⟩
  | succ n ih =>
      obtain ⟨-, hnew, v, hv, -, hback⟩ := mem_wave_succ h
      obtain ⟨hnodup, hknown⟩ := ih hv
      rw [← hback] at hnodup hknown
      refine ⟨List.nodup_cons.mpr ⟨fun hmem => hnew (hknown _ hmem), hnodup⟩, fun x hx => ?_⟩
      rw [known_succ, List.map_append, List.mem_append]
      rcases List.mem_cons.mp hx with rfl | hx
      · exact Or.inr (List.mem_map.mpr ⟨w, h, rfl⟩)
      · exact Or.inl (hknown x hx)

/-! ### Shortest ways -/

/-- Whatever a way leads to in `cap` steps is known by the wave of its length. -/
theorem known_of_isWay (h : IsWay succ starts w) (hcap : w.2.length ≤ cap) :
    w.1 ∈ (known succ cap starts w.2.length).map (·.1) := by
  induction h with
  | @start x hx =>
      have hmem : (x, ([] : List ν)) ∈ starts.map fun x => (x, []) :=
        List.mem_map.mpr ⟨x, hx, rfl⟩
      exact firstNew_covers [] hmem
  | step hv hy ih =>
      rename_i v y
      simp only [List.length_cons] at hcap ⊢
      obtain ⟨u, hu, hend⟩ := List.mem_map.mp (ih (by omega))
      obtain ⟨k, hk, hwave⟩ := mem_known_iff.mp hu
      -- `y` is ahead of the way on which `v`'s end was come to first
      have hahead : (y, u.1 :: u.2) ∈ (wave succ cap starts k).flatMap (ahead succ) :=
        List.mem_flatMap.mpr ⟨u, hwave, List.mem_map.mpr ⟨y, hend ▸ hy, rfl⟩⟩
      have hseen := firstNew_covers ((known succ cap starts k).map (·.1)) hahead
      rw [← wave_succ_of_lt (by omega), ← List.map_append, ← known_succ] at hseen
      obtain ⟨t, ht, hty⟩ := List.mem_map.mp hseen
      exact List.mem_map.mpr ⟨t, known_mono (by omega) ht, hty⟩

theorem length_le_of_mem_known (h : w ∈ known succ cap starts n) : w.2.length ≤ n := by
  obtain ⟨k, hk, hwave⟩ := mem_known_iff.mp h
  rw [(isWay_of_mem_wave hwave).2]
  exact hk

theorem sorted_known (n : Nat) :
    (known succ cap starts n).Pairwise fun a b => a.2.length ≤ b.2.length := by
  have hwave : ∀ n, (wave succ cap starts n).Pairwise fun a b => a.2.length ≤ b.2.length := by
    intro n
    refine List.pairwise_of_forall_mem_list fun a ha b hb => ?_
    rw [(isWay_of_mem_wave ha).2, (isWay_of_mem_wave hb).2]
  induction n with
  | zero => exact hwave 0
  | succ n ih =>
      rw [known_succ]
      refine List.pairwise_append.mpr ⟨ih, hwave (n + 1), fun a ha b hb => ?_⟩
      rw [(isWay_of_mem_wave hb).2]
      exact Nat.le_succ_of_le (length_le_of_mem_known ha)

/-- **The first known way whose end has a property is a shortest one to such an end.** -/
theorem find_shortest {p : ν → Bool}
    (h : (known succ cap starts cap).find? (fun w => p w.1) = some w) :
    p w.1 = true ∧ IsWay succ starts w ∧ w.2.length ≤ cap ∧
      ∀ v, IsWay succ starts v → p v.1 = true → w.2.length ≤ v.2.length := by
  obtain ⟨hp, before, after, hsplit, hbefore⟩ := List.find?_eq_some_iff_append.mp h
  have hw : w ∈ known succ cap starts cap := by
    rw [hsplit]
    exact List.mem_append_right _ List.mem_cons_self
  obtain ⟨k, -, hwave⟩ := mem_known_iff.mp hw
  have hlength := length_le_of_mem_known hw
  refine ⟨hp, (isWay_of_mem_wave hwave).1, hlength, fun v hv hpv => ?_⟩
  by_contra hshort
  have hbound : v.2.length ≤ cap := by omega
  obtain ⟨t, ht, htv⟩ := List.mem_map.mp (known_of_isWay hv hbound)
  have htknown : t ∈ known succ cap starts cap := known_mono (by omega) ht
  have htlength := length_le_of_mem_known ht
  rw [hsplit] at htknown
  rcases List.mem_append.mp htknown with hmem | hmem
  · have := hbefore t hmem
    rw [htv, hpv] at this
    exact absurd this (by simp)
  · have hsorted : (known succ cap starts cap).Pairwise fun a b => a.2.length ≤ b.2.length :=
      sorted_known cap
    rw [hsplit] at hsorted
    rcases List.mem_cons.mp hmem with rfl | hmem
    · omega
    · have := (List.pairwise_cons.mp (List.pairwise_append.mp hsorted).2.1).1 t hmem
      omega

theorem find_none {p : ν → Bool}
    (h : (known succ cap starts cap).find? (fun w => p w.1) = none) {v : Way ν}
    (hv : IsWay succ starts v) (hcap : v.2.length ≤ cap) : p v.1 = false := by
  obtain ⟨t, ht, htv⟩ := List.mem_map.mp (known_of_isWay hv hcap)
  have := List.find?_eq_none.mp h t (known_mono hcap ht)
  rw [htv] at this
  simpa using this

/-! ### The waves still to come

What a search that looks for an end still has before it, as one list in the
order in which it looks.
-/

/-- The ways of the waves after wave `n`. -/
def later (succ : ν → List ν) (cap : Nat) (starts : List ν) (n : Nat) : List (Way ν) :=
  (List.range' (n + 1) (cap - n)).flatMap (wave succ cap starts)

theorem later_of_lt (h : n < cap) :
    later succ cap starts n = wave succ cap starts (n + 1) ++ later succ cap starts (n + 1) := by
  unfold later
  rw [show cap - n = cap - (n + 1) + 1 by omega, List.range'_succ, List.flatMap_cons]

/-- A wave without ways is the last. -/
theorem wave_eq_nil {m : Nat} (h : wave succ cap starts m = []) (hmn : m ≤ n) :
    wave succ cap starts n = [] := by
  induction hmn with
  | refl => exact h
  | step _ ih =>
      rw [wave_succ, ih]
      exact ite_self _

theorem later_eq_nil (h : wave succ cap starts (n + 1) = []) : later succ cap starts n = [] := by
  refine List.flatMap_eq_nil_iff.mpr fun k hk => wave_eq_nil h ?_
  obtain ⟨i, -, rfl⟩ := List.mem_range'.mp hk
  omega

theorem known_later (h : n ≤ cap) :
    known succ cap starts n ++ later succ cap starts n = known succ cap starts cap := by
  induction h using Nat.decreasingInduction with
  | self =>
      unfold later
      rw [Nat.sub_self]
      exact List.append_nil _
  | of_succ k hk ih => rw [later_of_lt hk, ← List.append_assoc, ← known_succ, ih]

end

end Waves
