/-
The channel index as a log.

While sites are registered in place and TUs are released, what the abstract index says can be
read off the registrations that are left: a site is there when one of them is of its key, with
as many references as there are of them, and a TU is counted with its own.
-/
import Vycor.Lib.OwnedLog
import Vycor.Proofs.ChannelSpec

namespace Vycor

namespace ChannelSpec

/-- The abstract index of these registrations, all made under a TU. -/
structure Logged (a : ChannelSpec) (log : List ChannelSite) : Prop where
  tagged : ∀ c ∈ log, c.tuPath ≠ []
  nodup : a.keys.Nodup
  count : ∀ p ∈ a.sites, p.2 = log.countP (·.key = p.1.key)
  keys : ∀ k, k ∈ a.keys ↔ ∃ c ∈ log, c.key = k
  reg : ∀ t k, a.reg t k = log.countP fun c => c.key = k ∧ c.tuPath = t

variable {a : ChannelSpec} {log : List ChannelSite}

/-! ### Registering -/

theorem keys_add (a : ChannelSpec) (site : ChannelSite) :
    (a.add site).keys = if site.key ∈ a.keys then a.keys else a.keys ++ [site.key] := by
  unfold keys add
  by_cases h : site.key ∈ a.sites.map (·.1.key)
  · have hin : site.key ∈ a.keys := h
    rw [if_pos hin, if_pos h, List.map_map]
    refine List.map_congr_left fun p _ => ?_
    dsimp only [Function.comp_apply]
    split <;> rfl
  · have hin : site.key ∉ a.keys := h
    rw [if_neg hin, if_neg h, List.map_append]
    rfl

theorem Logged.count_none (h : a.Logged log) {k : SiteKey} (hk : k ∉ a.keys) :
    log.countP (·.key = k) = 0 := by
  rw [List.countP_eq_zero]
  intro c hc hkey
  exact hk ((h.keys k).mpr ⟨c, hc, of_decide_eq_true hkey⟩)

theorem Logged.add (h : a.Logged log) {site : ChannelSite} (htu : site.tuPath ≠ []) :
    (a.add site).Logged (log ++ [site]) := by
  have hcount : ∀ k, (log ++ [site]).countP (·.key = k)
      = log.countP (·.key = k) + if site.key = k then 1 else 0 := by
    intro k
    rw [List.countP_append, List.countP_singleton]
    simp only [decide_eq_true_eq]
  refine ⟨?_, ?_, ?_, ?_, ?_⟩
  · intro c hc
    rcases List.mem_append.mp hc with hc | hc
    · exact h.tagged c hc
    · exact List.mem_singleton.mp hc ▸ htu
  · rw [keys_add]
    by_cases hin : site.key ∈ a.keys
    · rw [if_pos hin]
      exact h.nodup
    · rw [if_neg hin]
      exact List.nodup_append.mpr ⟨h.nodup, List.nodup_singleton _, by
        intro k hk k' hk'
        rw [List.mem_singleton.mp hk']
        exact fun hc => hin (hc ▸ hk)⟩
  · intro p hp
    rw [hcount]
    unfold ChannelSpec.add at hp
    by_cases hin : site.key ∈ a.keys
    · rw [if_pos hin] at hp
      obtain ⟨q, hq, rfl⟩ := List.mem_map.mp hp
      by_cases hkey : q.1.key = site.key
      · rw [if_pos hkey]
        dsimp only
        rw [h.count q hq, if_pos hkey.symm]
      · rw [if_neg hkey, if_neg (Ne.symm hkey), h.count q hq]
        rfl
    · rw [if_neg hin] at hp
      rcases List.mem_append.mp hp with hp | hp
      · have hne : site.key ≠ p.1.key := fun hc => hin (hc ▸ List.mem_map_of_mem hp)
        rw [if_neg hne, h.count p hp]
        rfl
      · obtain rfl := List.mem_singleton.mp hp
        have hkey : (ChannelIndex.untagged site).key = site.key := rfl
        rw [hkey, if_pos rfl, h.count_none hin]
  · intro k
    rw [keys_add]
    by_cases hin : site.key ∈ a.keys
    · rw [if_pos hin, h.keys]
      constructor
      · rintro ⟨c, hc, hkey⟩
        exact ⟨c, List.mem_append_left _ hc, hkey⟩
      · rintro ⟨c, hc, hkey⟩
        rcases List.mem_append.mp hc with hc | hc
        · exact ⟨c, hc, hkey⟩
        · obtain rfl := List.mem_singleton.mp hc
          exact (h.keys k).mp (hkey ▸ hin)
    · rw [if_neg hin, List.mem_append, h.keys, List.mem_singleton]
      constructor
      · rintro (⟨c, hc, hkey⟩ | rfl)
        · exact ⟨c, List.mem_append_left _ hc, hkey⟩
        · exact ⟨site, List.mem_append_right _ List.mem_cons_self, rfl⟩
      · rintro ⟨c, hc, hkey⟩
        rcases List.mem_append.mp hc with hc | hc
        · exact Or.inl ⟨c, hc, hkey⟩
        · obtain rfl := List.mem_singleton.mp hc
          exact Or.inr hkey.symm
  · intro t k
    show a.reg t k + _ = _
    rw [List.countP_append, List.countP_singleton, h.reg]
    congr 1
    simp only [decide_eq_true_eq]
    by_cases hsame : site.key = k ∧ site.tuPath = t
    · obtain ⟨rfl, rfl⟩ := hsame
      simp [htu]
    · rw [if_neg hsame, if_neg]
      rintro ⟨-, rfl, rfl⟩
      exact hsame ⟨rfl, rfl⟩

theorem Logged.addAll (more : List ChannelSite) :
    ∀ {a : ChannelSpec} {log : List ChannelSite}, a.Logged log →
      (∀ c ∈ more, c.tuPath ≠ []) → (more.foldl ChannelSpec.add a).Logged (log ++ more) := by
  induction more with
  | nil => exact fun h _ => (List.append_nil _).symm ▸ h
  | cons site rest ih =>
      intro a log h htagged
      have hnext := ih (h.add (htagged site List.mem_cons_self))
        fun c hc => htagged c (List.mem_cons_of_mem _ hc)
      rwa [List.append_assoc] at hnext

/-! ### Releasing -/

/-- The registrations of a site that are not the TU's. -/
theorem countP_others (log : List ChannelSite) (k : SiteKey) (t : Str) :
    log.countP (·.key = k) - (log.countP fun c => c.key = k ∧ c.tuPath = t)
      = (log.filter (·.tuPath ≠ t)).countP (·.key = k) := by
  have hsplit : log.countP (·.key = k)
      = (log.countP fun c => c.key = k ∧ c.tuPath = t)
        + (log.filter (·.tuPath ≠ t)).countP (·.key = k) := by
    induction log with
    | nil => rfl
    | cons c rest ih =>
        by_cases hkey : c.key = k <;> by_cases htu : c.tuPath = t <;>
          simp [hkey, htu, ih] <;> omega
  omega

/-- **Releasing a TU takes its registrations out of the log.** -/
theorem Logged.release (h : a.Logged log) (t : Str) :
    (a.release t).Logged (log.filter (·.tuPath ≠ t)) := by
  have hleft : ∀ p ∈ a.sites, p.2 - a.reg t p.1.key
      = (log.filter (·.tuPath ≠ t)).countP (·.key = p.1.key) := by
    intro p hp
    rw [h.count p hp, h.reg, countP_others]
  have hmem : ∀ p, p ∈ a.left t ↔ ∃ q ∈ a.sites, p = (q.1, q.2 - a.reg t q.1.key) ∧ 0 < p.2 := by
    intro p
    unfold left
    rw [List.mem_filter, List.mem_map]
    constructor
    · rintro ⟨⟨q, hq, rfl⟩, hpos⟩
      exact ⟨q, hq, rfl, of_decide_eq_true hpos⟩
    · rintro ⟨q, hq, rfl, hpos⟩
      exact ⟨⟨q, hq, rfl⟩, decide_eq_true hpos⟩
  have hkeys : ∀ k, k ∈ (a.left t).map (·.1.key) ↔
      ∃ c ∈ log.filter (·.tuPath ≠ t), c.key = k := by
    intro k
    rw [List.mem_map]
    constructor
    · rintro ⟨p, hp, rfl⟩
      obtain ⟨q, hq, rfl, hpos⟩ := (hmem p).mp hp
      dsimp only at hpos
      rw [hleft q hq, List.countP_pos_iff] at hpos
      obtain ⟨c, hc, hkey⟩ := hpos
      exact ⟨c, hc, of_decide_eq_true hkey⟩
    · rintro ⟨c, hc, rfl⟩
      obtain ⟨q, hq, hkey⟩ := List.mem_map.mp
        ((h.keys c.key).mpr ⟨c, List.mem_of_mem_filter hc, rfl⟩)
      refine ⟨(q.1, q.2 - a.reg t q.1.key), (hmem _).mpr ⟨q, hq, rfl, ?_⟩, hkey⟩
      dsimp only
      rw [hleft q hq, List.countP_pos_iff]
      exact ⟨c, hc, decide_eq_true hkey.symm⟩
  refine ⟨fun c hc => h.tagged c (List.mem_of_mem_filter hc), ?_, ?_, hkeys, ?_⟩
  · refine h.nodup.sublist ?_
    show ((a.left t).map (·.1.key)).Sublist (a.sites.map (·.1.key))
    have hmap : (a.sites.map fun p => (p.1, p.2 - a.reg t p.1.key)).map (·.1.key)
        = a.sites.map (·.1.key) := by
      rw [List.map_map]
      rfl
    rw [← hmap]
    exact List.filter_sublist.map _
  · intro p hp
    obtain ⟨q, hq, rfl, -⟩ := (hmem p).mp hp
    exact hleft q hq
  · intro t' k
    show (if t' ≠ t ∧ k ∈ (a.left t).map (·.1.key) then a.reg t' k else 0) = _
    rw [List.countP_filter]
    by_cases ht : t' = t
    · rw [if_neg (fun hc => hc.1 ht)]
      refine (List.countP_eq_zero.mpr fun c _ hc => ?_).symm
      simp only [decide_not, Bool.and_eq_true, decide_eq_true_eq, Bool.not_eq_true',
        decide_eq_false_iff_not] at hc
      exact hc.2 (hc.1.2.trans ht)
    · have hsame : (log.countP fun c => decide (c.key = k ∧ c.tuPath = t') && decide (c.tuPath ≠ t))
          = a.reg t' k := by
        rw [h.reg]
        refine List.countP_congr fun c _ => ?_
        simp only [decide_not, Bool.and_eq_true, decide_eq_true_eq, Bool.not_eq_true',
          decide_eq_false_iff_not, and_iff_left_iff_imp]
        rintro ⟨-, rfl⟩
        exact ht
      rw [hsame]
      by_cases hk : k ∈ (a.left t).map (·.1.key)
      · rw [if_pos ⟨ht, hk⟩]
      · rw [if_neg fun hc => hk hc.2, h.reg]
        refine (List.countP_eq_zero.mpr fun c hc hkey => hk ((hkeys k).mpr ?_)).symm
        obtain ⟨rfl, rfl⟩ := of_decide_eq_true hkey
        exact ⟨c, List.mem_filter.mpr ⟨hc, decide_eq_true ht⟩, rfl⟩

end ChannelSpec

end Vycor
