/-
The reloaded channels stand for the saved ones.

A load appends each saved site as one that is new, and lists it under the TUs that the save
found it under.  No two saved sites have one key, so every site is new indeed, and each TU
gets the positions it had, at their new places.
-/
import Vycor.Proofs.ChannelSpec
import Vycor.Proofs.Walks

namespace Vycor

open UMap

namespace SnapshotIO

open ChannelIndex (Tracked Listed specSite pushAt)

variable {w : HashWalk} {ch : ChannelIndex}

/-! ### Saved sites -/

/-- A saved site is live, at its position. -/
theorem mem_savedSites {stored : StoredSite × Nat} :
    stored ∈ savedSites ch ↔ ch.sites[stored.2]? = some stored.1 ∧ stored.1.live = true := by
  unfold savedSites
  rw [List.mem_filter, List.mem_zipIdx_iff_getElem?]

theorem savedSites_fst (ch : ChannelIndex) :
    (savedSites ch).map Prod.fst = ch.sites.filter (·.live) := by
  have h : (ch.sites.zipIdx.map Prod.fst).filter (fun s => s.live) = _ := List.filter_map
  rw [List.zipIdx_map_fst] at h
  exact h.symm

/-- No two saved sites have one key. -/
theorem nodup_savedSites (h : ch.Listed) : ((savedSites ch).map (·.1.site.key)).Nodup := by
  have hzip : (savedSites ch).Nodup := by
    refine List.Nodup.filter _ (List.Nodup.of_map Prod.snd ?_)
    rw [List.zipIdx_map_snd]
    exact List.nodup_range'
  refine hzip.map_on ?_
  rintro ⟨s, i⟩ hs ⟨s', i'⟩ hs' hkey
  obtain ⟨hat, hlive⟩ := mem_savedSites.mp hs
  obtain ⟨hat', hlive'⟩ := mem_savedSites.mp hs'
  have hi := (h.index s.site.key i).mpr ⟨s, hat, hlive, rfl⟩
  have hi' := (h.index s'.site.key i').mpr ⟨s', hat', hlive', rfl⟩
  have hkey : s.site.key = s'.site.key := hkey
  rw [hkey, hi'] at hi
  have heq : i' = i := Option.some.inj hi
  subst heq
  rw [hat] at hat'
  have heq : s = s' := Option.some.inj hat'
  rw [heq]

/-- The live sites, their counts and the TUs of an index fit 32-bit lengths and counts. -/
structure ChannelsShort (ch : ChannelIndex) : Prop where
  count : Short (ch.sites.filter (·.live))
  site : ∀ s ∈ ch.sites, s.live = true → SiteFits s.site
  refs : ∀ s ∈ ch.sites, s.live = true → s.refs < 2 ^ 32
  tuCount : ∀ (i : Nat) (s : StoredSite), ch.sites[i]? = some s → s.live = true →
    total (List.count i) ch.byTu < 2 ^ 32
  tus : ∀ t, ch.byTu.getD t [] ≠ [] → Short t

theorem ChannelsShort.fit (h : ChannelsShort ch) (hlisted : ch.Listed) (w : HashWalk) :
    ChannelsFit w ch where
  liveCount := by rw [hlisted.liveCount, ← savedSites_fst, List.length_map]
  count := by
    have := h.count
    rwa [← savedSites_fst, Short, List.length_map] at this
  site stored hs := by
    obtain ⟨hat, hlive⟩ := mem_savedSites.mp hs
    exact h.site _ (List.mem_of_getElem? hat) hlive
  refs stored hs := by
    obtain ⟨hat, hlive⟩ := mem_savedSites.mp hs
    have hmem := List.mem_of_getElem? hat
    refine ⟨?_, h.refs _ hmem hlive⟩
    exact of_decide_eq_true ((hlisted.live _ hmem).symm.trans hlive)
  tuCount stored hs := by
    obtain ⟨hat, hlive⟩ := mem_savedSites.mp hs
    have := h.tuCount stored.2 stored.1 hat hlive
    rwa [← length_holders w] at this
  tus stored _ tu htu := by
    refine h.tus tu fun hnil => ?_
    have hmem : stored.2 ∈ ch.byTu.getD tu [] := mem_holders.mp htu
    rw [hnil] at hmem
    exact absurd hmem List.not_mem_nil

/-! ### TUs -/

/-- Listing one position under each of some TUs. -/
theorem count_pushAll (tus : List Str) (idx : Nat) (m : UMap Str (List Nat)) (t : Str) (j : Nat) :
    ((tus.foldl (fun m tu => pushAt m tu idx) m).getD t []).count j
      = (m.getD t []).count j + if j = idx then tus.count t else 0 := by
  induction tus generalizing m with
  | nil => simp
  | cons tu rest ih =>
      rw [List.foldl_cons, ih, pushAt, getD_upsert, List.count_cons]
      by_cases ht : t = tu
      · subst ht
        by_cases hj : j = idx
        · subst hj
          simp
          omega
        · simp [hj, Ne.symm hj]
      · simp [ht, Ne.symm ht]

theorem siteTus_eq (w : HashWalk) (ch : ChannelIndex) (i : Nat) :
    siteTus w ch i = holders w ch.byTu i := rfl

/-! ### Sites -/

/-- What a load has after the saved sites of `pre`. -/
structure SitesReloaded (w : HashWalk) (ch : ChannelIndex) (pre : List (StoredSite × Nat))
    (acc : ChannelIndex) : Prop extends Listed acc where
  sites : acc.sites = pre.map (reloadedSite w ch)
  count : ∀ t j, (acc.byTu.getD t []).count j
    = ((pre[j]?).map fun stored => (ch.byTu.getD t []).count stored.2).getD 0

theorem SitesReloaded.site (h : ch.Listed) {pre : List (StoredSite × Nat)} {acc : ChannelIndex}
    (hacc : SitesReloaded w ch pre acc) {stored : StoredSite × Nat} (hstored : stored ∈ savedSites ch)
    (hnew : stored.1.site.key ∉ pre.map (·.1.site.key)) :
    SitesReloaded w ch (pre ++ [stored]) (reinstall w .mutable ch acc stored) := by
  obtain ⟨hat, hlive⟩ := mem_savedSites.mp hstored
  have hpos : 0 < stored.1.refs := by
    have := h.live stored.1 (List.mem_of_getElem? hat)
    rw [hlive] at this
    exact of_decide_eq_true this.symm
  have hsite : (reloadedSite w ch stored).site.key = stored.1.site.key := rfl
  have hfresh : acc.index.lookup (reloadedSite w ch stored).site.key = none := by
    cases hl : acc.index.lookup (reloadedSite w ch stored).site.key with
    | none => rfl
    | some j =>
        obtain ⟨s, hs, -, hkey⟩ := (hacc.index _ j).mp hl
        have hmem := List.mem_of_getElem? hs
        rw [hacc.sites] at hmem
        obtain ⟨old, hold, rfl⟩ := List.mem_map.mp hmem
        exact absurd (List.mem_map.mpr ⟨old, hold, hkey.trans hsite⟩) hnew
  have happend := hacc.toListed.appendSite hfresh hpos
  have hsites : (acc.appendSite (reloadedSite w ch stored).site stored.1.refs).sites
      = (pre ++ [stored]).map (reloadedSite w ch) := by
    show acc.sites ++ [reloadedSite w ch stored] = _
    rw [hacc.sites, List.map_append, List.map_singleton]
  have hlength : acc.sites.length = pre.length := by rw [hacc.sites, List.length_map]
  refine
    { live := happend.live, byChannel := happend.byChannel, byFunctionUsr := happend.byFunctionUsr
      byFunctionDisplay := happend.byFunctionDisplay, channels := happend.channels
      usrs := happend.usrs, displays := happend.displays, index := happend.index
      liveCount := happend.liveCount, sites := hsites, count := ?_ }
  intro t j
  show (((siteTus w ch stored.2).foldl (fun m tu => pushAt m tu acc.sites.length)
    acc.byTu).getD t []).count j = _
  rw [count_pushAll, hacc.count, siteTus_eq, count_holders, hlength]
  rcases Nat.lt_trichotomy j pre.length with hlt | rfl | hgt
  · rw [List.getElem?_append_left hlt, if_neg (Nat.ne_of_lt hlt), Nat.add_zero]
  · simp
  · have hold : pre[j]? = none := List.getElem?_eq_none (Nat.le_of_lt hgt)
    have hnone : (pre ++ [stored])[j]? = none := List.getElem?_eq_none (by simp; omega)
    rw [hold, hnone, if_neg (Nat.ne_of_gt hgt)]
    rfl

theorem sitesReloaded (h : ch.Listed) (w : HashWalk) :
    SitesReloaded w ch (savedSites ch) (reloadChannels w .mutable ch) := by
  have hrun : ∀ rest pre : List (StoredSite × Nat), ∀ acc, pre ++ rest = savedSites ch →
      SitesReloaded w ch pre acc →
        SitesReloaded w ch (savedSites ch) (rest.foldl (reinstall w .mutable ch) acc) := by
    intro rest
    induction rest with
    | nil =>
        intro pre acc heq hacc
        rw [List.append_nil] at heq
        exact heq ▸ hacc
    | cons stored rest ih =>
        intro pre acc heq hacc
        have hmem : stored ∈ savedSites ch := by
          rw [← heq]
          exact List.mem_append_right _ List.mem_cons_self
        have hnd := nodup_savedSites h
        rw [← heq, List.map_append, List.map_cons] at hnd
        refine ih (pre ++ [stored]) _ (by rw [← heq, List.append_assoc, List.singleton_append])
          (hacc.site h hmem ?_)
        exact fun hc => (List.nodup_append.mp hnd).2.2 _ hc _ List.mem_cons_self rfl
  exact hrun (savedSites ch) [] {} rfl
    { ChannelIndex.listed_empty with sites := rfl, count := fun t j => by simp }

/-- **The reloaded channels have the sites and the registrations of the saved ones.** -/
theorem reloadChannels_tracked_spec (h : ch.Listed) (w : HashWalk) :
    (reloadChannels w .mutable ch).Tracked ∧ (reloadChannels w .mutable ch).spec = ch.spec := by
  have hre := sitesReloaded h w
  refine ⟨⟨hre.toListed, ?_⟩, ChannelSpec.ext ?_ ?_⟩
  · intro t j hj
    rw [← List.count_pos_iff, hre.count] at hj
    rw [hre.sites, List.length_map]
    by_contra hnot
    rw [List.getElem?_eq_none_iff.mpr (Nat.not_lt.mp hnot)] at hj
    exact absurd hj (Nat.lt_irrefl 0)
  · show ((reloadChannels w .mutable ch).sites.filter (·.live)).map specSite
      = (ch.sites.filter (·.live)).map specSite
    have hall : ((savedSites ch).map (reloadedSite w ch)).filter (·.live)
        = (savedSites ch).map (reloadedSite w ch) :=
      List.filter_eq_self.mpr fun s hs => by
        obtain ⟨stored, -, rfl⟩ := List.mem_map.mp hs
        rfl
    rw [hre.sites, hall, ← savedSites_fst, List.map_map, List.map_map]
    rfl
  · funext t k
    cases hk : ch.index.lookup k with
    | some i =>
        obtain ⟨s, hs, hlive, hkey⟩ := (h.index k i).mp hk
        have hsaved : (s, i) ∈ savedSites ch := mem_savedSites.mpr ⟨hs, hlive⟩
        obtain ⟨j, hj⟩ := List.mem_iff_getElem?.mp hsaved
        have hat : (reloadChannels w .mutable ch).sites[j]? = some (reloadedSite w ch (s, i)) := by
          rw [hre.sites, List.getElem?_map, hj]
          rfl
        have hfound := (hre.index k j).mpr ⟨_, hat, rfl, hkey⟩
        rw [ChannelIndex.spec_reg_some hfound, ChannelIndex.spec_reg_some hk, hre.count, hj]
        rfl
    | none =>
        rw [ChannelIndex.spec_reg_none hk]
        cases hk' : (reloadChannels w .mutable ch).index.lookup k with
        | none => exact ChannelIndex.spec_reg_none hk' t
        | some j =>
            obtain ⟨s, hs, -, hkey⟩ := (hre.index k j).mp hk'
            have hmem := List.mem_of_getElem? hs
            rw [hre.sites] at hmem
            obtain ⟨stored, hstored, rfl⟩ := List.mem_map.mp hmem
            obtain ⟨hat, hlive⟩ := mem_savedSites.mp hstored
            rw [(h.index k stored.2).mpr ⟨stored.1, hat, hlive, hkey⟩] at hk
            simp at hk

end SnapshotIO

end Vycor
