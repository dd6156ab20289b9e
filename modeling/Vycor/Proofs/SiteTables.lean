/-
Tables of what was seen where.

Entries are kept by a dedup key, grouped, and in a group noted under their sites in the order
in which these were first seen.  That order is the order of the entries, so what is said of
the first site, or of a list of sites, depends on it.  What stands at one site does not, as a
set, and neither does the only site at which two different things were seen.

`Settled` is when a group says nothing else: two different things were seen at one site and
at no other, under one name, and no entry was dropped for an entry that is another's.
-/
import Vycor.Model.IndexChecks

namespace Vycor

open Keyed

section Notes

variable {α : Type} [DecidableEq α]

/-- The table of a list of observations. -/
def notes (seen : List (IndexSite × α)) : List (IndexSite × List α) :=
  seen.foldl (fun sites s => noteSite sites s.1 s.2) []

/-- What was seen at a site joins what was seen there. -/
def joinSeen (old new : IndexSite × List α) : IndexSite × List α :=
  (old.1, new.2.foldl Dedup.pushUnique old.2)

theorem merges_joinSeen : Keyed.Merges (·.1) (joinSeen (α := α)) where
  key_merge _ _ := rfl
  assoc a b c := congrArg (a.1, ·) (Dedup.foldl_pushUnique_foldl a.2 b.2 c.2).symm

theorem notes_eq_foldl (seen : List (IndexSite × α)) :
    notes seen = (seen.map fun s => (s.1, [s.2])).foldl (put (·.1) joinSeen) [] := by
  unfold notes
  rw [List.foldl_map]
  rfl

theorem nodup_notes (seen : List (IndexSite × α)) : ((notes seen).map (·.1)).Nodup := by
  rw [notes_eq_foldl]
  exact nodup_foldl_put merges_joinSeen _ List.nodup_nil

/-- One observation each, merged. -/
theorem merged_joinSeen (seen : List (IndexSite × α)) {x : IndexSite × List α}
    (hx : merged joinSeen (seen.map fun s => (s.1, [s.2])) = some x) :
    x.2 = (seen.map (·.2)).foldl Dedup.pushUnique [] := by
  induction seen using List.reverseRecOn generalizing x with
  | nil => simp [merged] at hx
  | append_singleton seen s ih =>
      rw [List.map_append, List.map_cons, List.map_nil, merged_append_singleton] at hx
      rw [List.map_append, List.foldl_append]
      injection hx with hx
      cases hsofar : merged joinSeen (seen.map fun s => (s.1, [s.2])) with
      | none =>
          have hnil : seen = [] := by
            cases seen with
            | nil => rfl
            | cons t rest => simp [merged_cons] at hsofar
          rw [← hx, hsofar, hnil]
          rfl
      | some y =>
          rw [← hx, hsofar, ← ih hsofar]
          rfl

theorem notes_at {seen : List (IndexSite × α)} {x : IndexSite × List α} (hx : x ∈ notes seen) :
    x.2 = ((seen.filter (·.1 = x.1)).map (·.2)).foldl Dedup.pushUnique [] := by
  rw [notes_eq_foldl] at hx
  have hmerged := mem_foldl_put merges_joinSeen hx
  rw [List.filter_map] at hmerged
  exact merged_joinSeen _ hmerged

theorem nodup_at {seen : List (IndexSite × α)} {x : IndexSite × List α} (hx : x ∈ notes seen) :
    x.2.Nodup := by
  rw [notes_at hx]
  exact Dedup.nodup_foldl_pushUnique _ List.nodup_nil

/-- **At a site stands what was seen there.** -/
theorem mem_at {seen : List (IndexSite × α)} {x : IndexSite × List α} (hx : x ∈ notes seen) (a : α) :
    a ∈ x.2 ↔ (x.1, a) ∈ seen := by
  rw [notes_at hx, Dedup.mem_foldl_pushUnique, List.mem_map]
  constructor
  · rintro (h | ⟨s, hs, rfl⟩)
    · exact nomatch h
    · obtain ⟨hs, hsite⟩ := List.mem_filter.mp hs
      rw [← of_decide_eq_true hsite]
      exact hs
  · intro h
    exact Or.inr ⟨_, List.mem_filter.mpr ⟨h, by simp⟩, rfl⟩

theorem exists_at {seen : List (IndexSite × α)} {s : IndexSite × α} (hs : s ∈ seen) :
    ∃ x ∈ notes seen, x.1 = s.1 := by
  have hkey : s.1 ∈ (notes seen).map (·.1) := by
    rw [notes_eq_foldl]
    refine (mem_keys_foldl_put merges_joinSeen _ []).mpr (Or.inr ?_)
    rw [List.map_map]
    exact List.mem_map_of_mem (f := fun s : IndexSite × α => s.1) hs
  obtain ⟨x, hx, hxs⟩ := List.mem_map.mp hkey
  exact ⟨x, hx, hxs⟩

theorem mem_allSeen {seen : List (IndexSite × α)} (a : α) :
    a ∈ allSeen (notes seen) ↔ ∃ site, (site, a) ∈ seen := by
  unfold allSeen
  rw [Dedup.mem_foldl_pushUnique, List.mem_flatMap]
  constructor
  · rintro (h | ⟨x, hx, ha⟩)
    · exact nomatch h
    · exact ⟨x.1, (mem_at hx a).mp ha⟩
  · rintro ⟨site, ha⟩
    obtain ⟨x, hx, hsite⟩ := exists_at ha
    obtain rfl : x.1 = site := hsite
    exact Or.inr ⟨x, hx, (mem_at hx a).mpr ha⟩

theorem two_le_allSeen {seen : List (IndexSite × α)} :
    2 ≤ (allSeen (notes seen)).length ↔ ∃ s ∈ seen, ∃ t ∈ seen, s.2 ≠ t.2 := by
  have hnodup : (allSeen (notes seen)).Nodup := Dedup.nodup_foldl_pushUnique _ List.nodup_nil
  rw [Dedup.two_le_length_iff hnodup]
  constructor
  · rintro ⟨a, ha, b, hb, hab⟩
    obtain ⟨site, ha⟩ := (mem_allSeen a).mp ha
    obtain ⟨site', hb⟩ := (mem_allSeen b).mp hb
    exact ⟨_, ha, _, hb, hab⟩
  · rintro ⟨s, hs, t, ht, hst⟩
    exact ⟨s.2, (mem_allSeen s.2).mpr ⟨s.1, hs⟩, t.2, (mem_allSeen t.2).mpr ⟨t.1, ht⟩, hst⟩

/-- Two different things were seen at the site. -/
def SplitAt (seen : List (IndexSite × α)) (site : IndexSite) : Prop :=
  ∃ a b, (site, a) ∈ seen ∧ (site, b) ∈ seen ∧ a ≠ b

omit [DecidableEq α] in
theorem splitAt_congr {seen seen' : List (IndexSite × α)} (h : ∀ s, s ∈ seen ↔ s ∈ seen')
    (site : IndexSite) :
    SplitAt seen site ↔ SplitAt seen' site := by
  unfold SplitAt
  simp only [h]

theorem two_le_at {seen : List (IndexSite × α)} {x : IndexSite × List α} (hx : x ∈ notes seen) :
    2 ≤ x.2.length ↔ SplitAt seen x.1 := by
  rw [Dedup.two_le_length_iff (nodup_at hx)]
  constructor
  · rintro ⟨a, ha, b, hb, hab⟩
    exact ⟨a, b, (mem_at hx a).mp ha, (mem_at hx b).mp hb, hab⟩
  · rintro ⟨a, b, ha, hb, hab⟩
    exact ⟨a, (mem_at hx a).mpr ha, b, (mem_at hx b).mpr hb, hab⟩

/-- No site is split. -/
theorem find_split_none {seen : List (IndexSite × α)} (h : ∀ site, ¬ SplitAt seen site) :
    (notes seen).find? (2 ≤ ·.2.length) = none := by
  refine List.find?_eq_none.mpr fun x hx htwo => h x.1 ?_
  exact (two_le_at hx).mp (of_decide_eq_true htwo)

/-- **The only split site is found in any order**, with as many things seen there. -/
theorem find_split {seen : List (IndexSite × α)} {site : IndexSite} (hsplit : SplitAt seen site)
    (hone : ∀ s, SplitAt seen s → s = site) :
    ∃ at_site, (notes seen).find? (2 ≤ ·.2.length) = some (site, at_site) ∧ at_site.Nodup ∧
      ∀ a, a ∈ at_site ↔ (site, a) ∈ seen := by
  obtain ⟨a, b, ha, hb, hab⟩ := hsplit
  obtain ⟨x, hx, hxsite⟩ := exists_at ha
  have hsome : ((notes seen).find? (2 ≤ ·.2.length)).isSome := by
    refine List.find?_isSome.mpr ⟨x, hx, decide_eq_true ((two_le_at hx).mpr ?_)⟩
    exact ⟨a, b, hxsite ▸ ha, hxsite ▸ hb, hab⟩
  obtain ⟨y, hy⟩ := Option.isSome_iff_exists.mp hsome
  have hmem := List.mem_of_find?_eq_some hy
  have htwo : 2 ≤ y.2.length := by simpa using List.find?_some hy
  have hysite : y.1 = site := hone y.1 ((two_le_at hmem).mp htwo)
  refine ⟨y.2, ?_, nodup_at hmem, fun c => ?_⟩
  · rw [hy, ← hysite]
  · rw [mem_at hmem, hysite]

end Notes

/-! ### Groups

The three checks over groups differ in the key, in what an entry says and in how
the group is named; the rest is said once, with these as parameters.
-/

/-- How entries of a kind are kept and grouped, and what one says. -/
structure Grouping (α β : Type) where
  key : α → Str
  group : α → Str
  name : α → Str
  site : α → IndexSite
  seen : α → β

namespace Grouping

variable {α β : Type} (G : Grouping α β)

/-- The entries that stay: the first of each key. -/
def kept (es : List α) : List α := es.foldl (put G.key first) []

/-- What the entries of a group say. -/
def observed (k : Str) (es : List α) : List (IndexSite × β) :=
  (es.filter (G.group · = k)).map fun e => (G.site e, G.seen e)

/-- Two entries of the group do not say the same. -/
def Differs (es : List α) (k : Str) : Prop :=
  ∃ s ∈ G.observed k es, ∃ t ∈ G.observed k es, s.2 ≠ t.2

/-- The group has one name and differs at one site, and none of its entries shares its dedup
key with an entry that says something else. -/
structure Settled (es : List α) (k : Str) : Prop where
  site : ∃ site, SplitAt (G.observed k es) site ∧ ∀ s, SplitAt (G.observed k es) s → s = site
  name : ∀ e ∈ es, ∀ e' ∈ es, G.group e = k → G.group e' = k → G.name e = G.name e'
  key : ∀ e ∈ es, ∀ e' ∈ es, G.group e = k → G.key e' = G.key e →
    G.group e' = k ∧ G.site e' = G.site e ∧ G.seen e' = G.seen e

variable {G} {es es' : List α} {k : Str}

theorem mem_observed {s : IndexSite × β} :
    s ∈ G.observed k es ↔ ∃ e ∈ es, G.group e = k ∧ (G.site e, G.seen e) = s := by
  unfold observed
  rw [List.mem_map]
  constructor
  · rintro ⟨e, he, hs⟩
    obtain ⟨he, hk⟩ := List.mem_filter.mp he
    exact ⟨e, he, of_decide_eq_true hk, hs⟩
  · rintro ⟨e, he, hk, hs⟩
    exact ⟨e, List.mem_filter.mpr ⟨he, decide_eq_true hk⟩, hs⟩

theorem observed_congr (h : ∀ e, e ∈ es ↔ e ∈ es') (s : IndexSite × β) :
    s ∈ G.observed k es ↔ s ∈ G.observed k es' := by
  simp only [mem_observed, h]

theorem differs_congr (h : ∀ e, e ∈ es ↔ e ∈ es') : G.Differs es k ↔ G.Differs es' k := by
  unfold Differs
  simp only [observed_congr h]

theorem Settled.congr (hset : G.Settled es k) (h : ∀ e, e ∈ es ↔ e ∈ es') : G.Settled es' k where
  site := by
    obtain ⟨site, hsplit, hone⟩ := hset.site
    have hat := splitAt_congr fun s => observed_congr (G := G) (k := k) h s
    exact ⟨site, (hat site).mp hsplit, fun s hs => hone s ((hat s).mpr hs)⟩
  name e he e' he' := hset.name e ((h e).mpr he) e' ((h e').mpr he')
  key e he e' he' := hset.key e ((h e).mpr he) e' ((h e').mpr he')

theorem mem_of_mem_kept {e : α} (he : e ∈ G.kept es) : e ∈ es := mem_of_mem_foldl_first he

theorem observed_kept {s : IndexSite × β} (hs : s ∈ G.observed k (G.kept es)) : s ∈ G.observed k es := by
  obtain ⟨e, he, hk, hs⟩ := mem_observed.mp hs
  exact mem_observed.mpr ⟨e, mem_of_mem_kept he, hk, hs⟩

/-- **Nothing that a settled group says is lost** when only the first entry of a key stays. -/
theorem Settled.mem_observed_kept (h : G.Settled es k) (s : IndexSite × β) :
    s ∈ G.observed k (G.kept es) ↔ s ∈ G.observed k es := by
  refine ⟨observed_kept, fun hs => ?_⟩
  obtain ⟨e, he, hk, rfl⟩ := mem_observed.mp hs
  obtain ⟨x, hx, hkey⟩ := exists_mem_foldl_first G.key he
  obtain ⟨hgroup, hsite, hseen⟩ := h.key e he x (mem_of_mem_foldl_first hx) hk hkey
  exact mem_observed.mpr ⟨x, hx, hgroup, by rw [hsite, hseen]⟩

variable [DecidableEq β]

/-- Something is found only where an entry stays. -/
theorem kept_ne_nil_of_find {p : IndexSite × List β → Bool} {x : IndexSite × List β}
    (hfind : (notes (G.observed k (G.kept es))).find? p = some x) :
    (G.kept es).filter (G.group · = k) ≠ [] := by
  intro hnil
  have hmem := List.mem_of_find?_eq_some hfind
  unfold observed at hmem
  rw [hnil] at hmem
  exact nomatch hmem

theorem quiet_kept (h : ¬ G.Differs es k) :
    ¬ 2 ≤ (allSeen (notes (G.observed k (G.kept es)))).length ∧
      ∀ site, ¬ SplitAt (G.observed k (G.kept es)) site := by
  constructor
  · intro htwo
    obtain ⟨s, hs, t, ht, hst⟩ := two_le_allSeen.mp htwo
    exact h ⟨s, observed_kept hs, t, observed_kept ht, hst⟩
  · rintro site ⟨a, b, ha, hb, hab⟩
    exact h ⟨_, observed_kept ha, _, observed_kept hb, hab⟩

/-- **In two orders of the entries** a settled group differs at the same site, in as many
ways. -/
theorem Settled.find_kept (h : G.Settled es k) (hsame : ∀ e, e ∈ es ↔ e ∈ es') :
    ∃ site at_site at_site',
      (notes (G.observed k (G.kept es))).find? (2 ≤ ·.2.length) = some (site, at_site) ∧
      (notes (G.observed k (G.kept es'))).find? (2 ≤ ·.2.length) = some (site, at_site') ∧
      at_site.length = at_site'.length := by
  obtain ⟨site, hsplit, hone⟩ := h.site
  have hobs := h.mem_observed_kept
  have hobs' : ∀ s, s ∈ G.observed k (G.kept es') ↔ s ∈ G.observed k es := fun s =>
    ((h.congr hsame).mem_observed_kept s).trans (observed_congr hsame s).symm
  have hat := splitAt_congr hobs
  have hat' := splitAt_congr hobs'
  obtain ⟨at_site, hfind, hnodup, hmem⟩ :=
    find_split ((hat site).mpr hsplit) fun s hs => hone s ((hat s).mp hs)
  obtain ⟨at_site', hfind', hnodup', hmem'⟩ :=
    find_split ((hat' site).mpr hsplit) fun s hs => hone s ((hat' s).mp hs)
  refine ⟨site, at_site, at_site', hfind, hfind', List.Perm.length_eq ?_⟩
  refine (List.perm_ext_iff_of_nodup hnodup hnodup').mpr fun a => ?_
  rw [hmem, hmem', hobs, hobs']

end Grouping

end Vycor
