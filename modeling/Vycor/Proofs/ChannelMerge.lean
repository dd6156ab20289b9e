/-
Merging channel shards into a master.

A shard hands its index to the master as it is, or after a save and a load.  The master
replays the registrations of every live site, all of them under the one TU path that the
stored site carries.  So the master knows, for a site, the TUs that represent it in some
shard and no others, and it keeps the site exactly as long as one of those is left.  That
is right for every later removal exactly when every contributing TU is among them, or one
of them is no TU at all.
-/
import Mathlib.Algebra.Order.BigOperators.Group.List
import Vycor.Proofs.ChannelSites
import Vycor.Proofs.SnapshotChannels
import Vycor.Proofs.Walks

namespace Vycor

open SnapshotIO

namespace ChannelIndex

/-! ### Shards -/

/-- What a shard's index is saved along with, and the order in which the save walks maps. -/
structure Reload where
  walk : HashWalk
  graph : CallGraph := {}
  cfIndex : ControlFlowIndex := {}
  snapMeta : SnapshotMeta := {}

/-- The bytes a shard was saved to before it was read back. -/
def Reload.file (r : Reload) (ch : ChannelIndex) : Bytes :=
  save r.walk r.graph r.cfIndex r.snapMeta ch

/-- The sites a shard registered, and whether its index went through a file. -/
structure Shard where
  calls : List ChannelSite
  reload : Option Reload := none

namespace Shard

/-- The index of the shard's calls alone. -/
def built (s : Shard) : ChannelIndex := s.calls.foldl addSite {}

/-- The index that reaches the master; none when the file is turned down. -/
def handed (s : Shard) : Option ChannelIndex :=
  match s.reload with
  | none => some s.built
  | some r => (load (r.file s.built)).run.join.map (·.channels)

/-- The TU contributes the site. -/
def Contributes (s : Shard) (k : SiteKey) (t : Str) : Prop :=
  ∃ c ∈ s.calls, c.key = k ∧ c.tuPath = t

instance (s : Shard) (k : SiteKey) (t : Str) : Decidable (s.Contributes k t) :=
  inferInstanceAs (Decidable (∃ c ∈ s.calls, c.key = k ∧ c.tuPath = t))

/-- The TU path under which a site of the shard reaches the master: that of its first
registration, and after a load the first contributing TU in the order of the save's walk. -/
def representative (s : Shard) (k : SiteKey) : Option Str :=
  (s.calls.find? (·.key = k)).map fun first =>
    match s.reload with
    | none => first.tuPath
    | some r =>
      (((r.walk.walk s.built.byTu).map (·.1)).find? fun t => s.Contributes k t).getD []

/-- A shard that goes through a file fits the 32-bit lengths of the format. -/
structure Fits (s : Shard) (r : Reload) : Prop where
  count : Short s.calls
  site : ∀ c ∈ s.calls, SiteFits c ∧ Short c.tuPath
  file : (r.file s.built).length < 2 ^ 64

end Shard

/-! ### What a shard hands over

The master replays the registrations of each stored site under the one TU path
the site shows. So of a site that several TUs register it hears one TU, once for
each registration.
-/

/-- The registrations the master makes of an index it absorbs. -/
def replayed (ch : ChannelIndex) : List ChannelSite :=
  (ch.sites.filter (·.live)).flatMap fun stored => List.replicate stored.refs stored.site

theorem absorb_eq (ch shard : ChannelIndex) :
    ch.absorb shard = (replayed shard).foldl addSite ch := by
  unfold absorb replayed
  rw [List.foldl_flatMap]

/-- The index carries the shard's sites, each under its representative TU. -/
structure Carries (s : Shard) (ch : ChannelIndex) : Prop where
  site : ∀ stored ∈ ch.sites, 0 < stored.refs ∧
    ∃ first t, s.calls.find? (·.key = stored.site.key) = some first ∧
      s.representative stored.site.key = some t ∧ stored.site = { first with tuPath := t }
  covers : ∀ c ∈ s.calls, ∃ stored ∈ ch.sites, stored.live = true ∧ stored.site.key = c.key

variable {s : Shard} {ch : ChannelIndex}

theorem built_shard (s : Shard) : Built s.calls s.built := by
  have h := built_empty.addSites s.calls
  rwa [List.nil_append] at h

/-- A stored site of a built index is live. -/
theorem Built.refs_pos {calls : List ChannelSite} (h : Built calls ch) {stored : StoredSite}
    (hs : stored ∈ ch.sites) : 0 < stored.refs ∧ stored.live = true := by
  have hpos : 0 < stored.refs := (h.sites.refs stored hs).symm ▸ h.sites.left_pos hs
  exact ⟨hpos, (h.sites.live stored hs).trans (decide_eq_true hpos)⟩

theorem carries_built (h : s.reload = none) : Carries s s.built := by
  have hbuilt := built_shard s
  refine ⟨?_, ?_⟩
  · intro stored hs
    have hfirst := hbuilt.sites.first stored hs
    refine ⟨(hbuilt.refs_pos hs).1, stored.site, stored.site.tuPath, hfirst, ?_, rfl⟩
    unfold Shard.representative
    rw [hfirst, h]
    rfl
  · intro c hc
    obtain ⟨stored, hs, hkey⟩ := List.mem_map.mp (hbuilt.sites.covers c hc)
    exact ⟨stored, hs, (hbuilt.refs_pos hs).2, hkey⟩

/-! ### After a save and a load

A loaded site shows the first TU that the file lists for it, which depends on
the order in which the save walks its maps. Everything else about the site is as
it was.
-/

section Reloaded

variable {calls : List ChannelSite} {r : Reload}

/-- All sites of a built index are saved, in their order. -/
theorem Built.savedSites_eq (h : Built calls ch) : savedSites ch = ch.sites.zipIdx := by
  unfold savedSites
  refine List.filter_eq_self.mpr fun stored hs => ?_
  exact (h.refs_pos (List.fst_mem_of_mem_zipIdx hs)).2

/-- An entry of the walk: a TU with the positions of its registrations. -/
theorem Built.walk_entry (h : Built calls ch) (w : HashWalk) {entry : Σ _ : Str, List Nat}
    (hentry : entry ∈ w.walk ch.byTu) :
    entry.2 = (calls.filter (·.tuPath = entry.1)).map fun c => (keysOf ch.sites).idxOf c.key := by
  have hlook := (UMap.mem_entries ch.byTu entry.1 entry.2).mp ((w.perm ch.byTu).mem_iff.mp hentry)
  have hnamed : entry.1 ≠ [] := by
    intro hnil
    rw [hnil, h.unnamed] at hlook
    simp at hlook
  have hget := h.byTu entry.1
  unfold UMap.getD at hget
  rw [hlook] at hget
  simpa [hnamed] using hget

/-- How often a site is listed under a TU: once for each of its registrations. -/
theorem Built.count_entry (h : Built calls ch) (w : HashWalk) {entry : Σ _ : Str, List Nat}
    (hentry : entry ∈ w.walk ch.byTu) {stored : StoredSite × Nat}
    (hstored : stored ∈ ch.sites.zipIdx) :
    entry.2.count stored.2
      ≤ (calls.filter (·.tuPath = entry.1)).countP fun c => c.key = stored.1.site.key := by
  have hat := List.mem_zipIdx_iff_getElem?.mp hstored
  rw [h.walk_entry w hentry]
  exact Nat.le_of_eq (h.sites.count_listed hat entry.1)

/-- The site is listed under the TUs that registered it. -/
theorem Built.mem_entry (h : Built calls ch) (w : HashWalk) {entry : Σ _ : Str, List Nat}
    (hentry : entry ∈ w.walk ch.byTu) {stored : StoredSite × Nat}
    (hstored : stored ∈ ch.sites.zipIdx) :
    stored.2 ∈ entry.2 ↔ ∃ c ∈ calls, c.key = stored.1.site.key ∧ c.tuPath = entry.1 := by
  have hat := List.mem_zipIdx_iff_getElem?.mp hstored
  rw [h.walk_entry w hentry, ← List.count_pos_iff, h.sites.count_listed hat entry.1,
    List.countP_pos_iff]
  simp only [List.mem_filter, decide_eq_true_eq]
  constructor
  · rintro ⟨c, ⟨hc, htu⟩, hkey⟩
    exact ⟨c, hc, hkey, htu⟩
  · rintro ⟨c, hc, hkey, htu⟩
    exact ⟨c, ⟨hc, htu⟩, hkey⟩

/-- Registrations counted TU by TU are no more than the registrations. -/
theorem sum_countP_le (p : ChannelSite → Bool) (ts : List Str) (hnd : ts.Nodup) :
    (ts.map fun t => (calls.filter (·.tuPath = t)).countP p).sum ≤ calls.length := by
  have hsum : (ts.map fun t => (calls.filter (·.tuPath = t)).countP p).sum
      = calls.countP fun c => p c && decide (c.tuPath ∈ ts) := by
    induction ts with
    | nil => simp
    | cons t rest ih =>
        obtain ⟨hnot, hrest⟩ := List.nodup_cons.mp hnd
        rw [List.map_cons, List.sum_cons, ih hrest, List.countP_filter]
        clear ih
        induction calls with
        | nil => rfl
        | cons c cs ih =>
            rw [List.countP_cons, List.countP_cons, List.countP_cons, ← ih]
            by_cases htu : c.tuPath = t
            · have hnotin : c.tuPath ∉ rest := htu ▸ hnot
              simp only [htu, List.mem_cons, true_or, decide_true, Bool.and_true]
              rw [htu] at hnotin
              simp only [hnotin, decide_false, Bool.and_false, Bool.false_eq_true, if_false]
              omega
            · simp only [htu, decide_false, Bool.and_false, Bool.false_eq_true, if_false,
                List.mem_cons, false_or]
              omega
  rw [hsum]
  exact List.countP_le_length

theorem Built.length_siteTus (h : Built calls ch) (w : HashWalk) {stored : StoredSite × Nat}
    (hstored : stored ∈ ch.sites.zipIdx) : (siteTus w ch stored.2).length ≤ calls.length := by
  unfold siteTus
  rw [List.length_flatMap]
  refine Nat.le_trans ?_
    (sum_countP_le (fun c => c.key = stored.1.site.key) _ (nodup_walk w ch.byTu))
  rw [List.map_map]
  refine List.sum_le_sum fun entry hentry => ?_
  rw [List.length_map, ← List.countP_eq_length_filter]
  exact h.count_entry w hentry hstored

theorem Built.mem_siteTus (h : Built calls ch) (w : HashWalk) {stored : StoredSite × Nat}
    (hstored : stored ∈ ch.sites.zipIdx) {tu : Str} (htu : tu ∈ siteTus w ch stored.2) :
    ∃ c ∈ calls, c.tuPath = tu := by
  obtain ⟨entry, hentry, htu⟩ := List.mem_flatMap.mp htu
  obtain ⟨i, hi, rfl⟩ := List.mem_map.mp htu
  obtain ⟨hmem, heq⟩ := List.mem_filter.mp hi
  have heq := of_decide_eq_true heq
  subst heq
  obtain ⟨c, hc, -, htu⟩ := (h.mem_entry w hentry hstored).mp hmem
  exact ⟨c, hc, htu⟩

/-- A shard that fits the format has an index that does. -/
theorem Shard.Fits.channels (h : s.Fits r) : ChannelsFit r.walk s.built := by
  have hbuilt := built_shard s
  have hsaved := hbuilt.savedSites_eq
  have hsite {stored : StoredSite × Nat} (hs : stored ∈ savedSites s.built) :
      stored ∈ s.built.sites.zipIdx ∧ stored.1 ∈ s.built.sites := by
    rw [hsaved] at hs
    exact ⟨hs, List.fst_mem_of_mem_zipIdx hs⟩
  have hmem {stored : StoredSite} (hs : stored ∈ s.built.sites) : stored.site ∈ s.calls :=
    List.mem_of_find?_eq_some (hbuilt.sites.first stored hs)
  have hlength : s.built.sites.length ≤ s.calls.length := by
    have hsub : keysOf s.built.sites ⊆ s.calls.map ChannelSite.key := by
      intro k hk
      obtain ⟨stored, hs, rfl⟩ := List.mem_map.mp hk
      exact List.mem_map_of_mem (hmem hs)
    have hle := (hbuilt.sites.nodup.subperm hsub).length_le
    simpa [keysOf] using hle
  refine ⟨?_, ?_, ?_, ?_, ?_, ?_⟩
  · rw [hsaved, List.length_zipIdx]
    exact hbuilt.liveCount
  · show (savedSites s.built).length < 2 ^ 32
    rw [hsaved, List.length_zipIdx]
    exact Nat.lt_of_le_of_lt hlength h.count
  · intro stored hs
    exact (h.site _ (hmem (hsite hs).2)).1
  · intro stored hs
    refine ⟨(hbuilt.refs_pos (hsite hs).2).1, ?_⟩
    rw [hbuilt.sites.refs _ (hsite hs).2]
    exact Nat.lt_of_le_of_lt List.countP_le_length h.count
  · intro stored hs
    exact Nat.lt_of_le_of_lt (hbuilt.length_siteTus r.walk (hsite hs).1) h.count
  · intro stored hs tu htu
    obtain ⟨c, hc, rfl⟩ := hbuilt.mem_siteTus r.walk (hsite hs).1 htu
    exact (h.site c hc).2

/-- The first TU that is listed for a site is the first one on the walk that contributes it. -/
theorem head?_siteTus (r : Reload) {stored : StoredSite × Nat}
    (hstored : stored ∈ s.built.sites.zipIdx) :
    (siteTus r.walk s.built stored.2).head?
      = ((r.walk.walk s.built.byTu).map (·.1)).find?
          fun t => s.Contributes stored.1.site.key t := by
  have hbuilt := built_shard s
  have hentry : ∀ entry ∈ r.walk.walk s.built.byTu,
      ((entry.2.filter (· = stored.2)).map fun _ => entry.1).head?
        = if s.Contributes stored.1.site.key entry.1 then some entry.1 else none := by
    intro entry hentry
    have hmem : stored.2 ∈ entry.2 ↔ s.Contributes stored.1.site.key entry.1 :=
      hbuilt.mem_entry r.walk hentry hstored
    rw [List.head?_map]
    cases hfilter : entry.2.filter (· = stored.2) with
    | nil =>
        rw [if_neg]
        · rfl
        · intro hc
          have := List.filter_eq_nil_iff.mp hfilter stored.2 (hmem.mpr hc)
          simp at this
    | cons i rest =>
        have hi : i ∈ entry.2.filter (· = stored.2) := hfilter ▸ List.mem_cons_self
        obtain ⟨hin, heq⟩ := List.mem_filter.mp hi
        rw [of_decide_eq_true heq] at hin
        rw [if_pos (hmem.mp hin)]
        rfl
  unfold siteTus
  rw [List.head?_flatMap, List.find?_map, Dedup.findSome?_congr hentry]
  exact Dedup.findSome?_if _
    (fun entry : Σ _ : Str, List Nat => s.Contributes stored.1.site.key entry.1) _

/-- **What comes back from a file carries the shard's sites**, under other TUs. -/
theorem carries_reloaded (hreload : s.reload = some r) (hfits : s.Fits r)
    (hhanded : s.handed = some ch) : Carries s ch := by
  have hbuilt := built_shard s
  have hsaved := hbuilt.savedSites_eq
  unfold Shard.handed at hhanded
  rw [hreload] at hhanded
  obtain ⟨data, hdata, rfl⟩ := Option.map_eq_some_iff.mp hhanded
  have hload : (load (r.file s.built)).run = some (some data) := by
    cases hrun : (load (r.file s.built)).run with
    | none => simp [hrun] at hdata
    | some res => simpa [hrun] using hdata
  have hchannels := load_save_channels hfits.channels hfits.file hload
  have hsites : data.channels.sites
      = s.built.sites.zipIdx.map (reloadedSite r.walk s.built) := by
    rw [hchannels, reloadChannels_sites, hsaved]
  refine ⟨?_, ?_⟩
  · intro stored hstored
    rw [hsites] at hstored
    obtain ⟨old, hold, rfl⟩ := List.mem_map.mp hstored
    have hmem := List.fst_mem_of_mem_zipIdx hold
    have hfirst := hbuilt.sites.first old.1 hmem
    refine ⟨(hbuilt.refs_pos hmem).1, old.1.site, (siteTus r.walk s.built old.2).headD [], hfirst,
      ?_, rfl⟩
    unfold Shard.representative
    have hkey : (reloadedSite r.walk s.built old).site.key = old.1.site.key := rfl
    rw [hkey, hfirst, hreload, List.headD_eq_head?_getD, head?_siteTus r hold]
    rfl
  · intro c hc
    obtain ⟨old, hold, hkey⟩ := List.mem_map.mp (hbuilt.sites.covers c hc)
    obtain ⟨i, hi⟩ := List.mem_iff_getElem?.mp hold
    refine ⟨reloadedSite r.walk s.built (old, i), ?_, rfl, hkey⟩
    rw [hsites]
    exact List.mem_map_of_mem (List.mem_zipIdx_iff_getElem?.mpr hi)

end Reloaded

/-! ### Replayed registrations -/

/-- A site without its TU path. -/
def untagged (site : ChannelSite) : ChannelSite := { site with tuPath := [] }

theorem mem_replayed {site : ChannelSite} :
    site ∈ replayed ch ↔ ∃ stored ∈ ch.sites, stored.live = true ∧ stored.refs ≠ 0 ∧
      stored.site = site := by
  unfold replayed
  rw [List.mem_flatMap]
  simp only [List.mem_filter, List.mem_replicate]
  constructor
  · rintro ⟨stored, ⟨hmem, hlive⟩, hrefs, rfl⟩
    exact ⟨stored, hmem, hlive, hrefs, rfl⟩
  · rintro ⟨stored, hmem, hlive, hrefs, rfl⟩
    exact ⟨stored, ⟨hmem, hlive⟩, hrefs, rfl⟩

/-- A replayed registration is the shard's first one of its site, under the representative. -/
theorem Carries.replayed (h : Carries s ch) {e : ChannelSite} (he : e ∈ replayed ch) :
    ∃ first t, s.calls.find? (·.key = e.key) = some first ∧ s.representative e.key = some t ∧
      e = { first with tuPath := t } := by
  obtain ⟨stored, hmem, -, -, rfl⟩ := mem_replayed.mp he
  exact (h.site stored hmem).2

/-- Every registered site is replayed. -/
theorem Carries.covered (h : Carries s ch) {c : ChannelSite} (hc : c ∈ s.calls) :
    ∃ e ∈ ChannelIndex.replayed ch, e.key = c.key := by
  obtain ⟨stored, hmem, hlive, hkey⟩ := h.covers c hc
  have hpos := (h.site stored hmem).1
  exact ⟨stored.site, mem_replayed.mpr ⟨stored, hmem, hlive, Nat.pos_iff_ne_zero.mp hpos, rfl⟩,
    hkey⟩

/-- The TUs under which a site is replayed are its representatives. -/
theorem Carries.represented (h : Carries s ch) (k : SiteKey) (t : Str) :
    (∃ e ∈ ChannelIndex.replayed ch, e.key = k ∧ e.tuPath = t) ↔ s.representative k = some t := by
  constructor
  · rintro ⟨e, he, rfl, rfl⟩
    obtain ⟨first, t, -, hrep, heq⟩ := h.replayed he
    rw [hrep, heq]
  · intro hrep
    obtain ⟨first, hfirst, -⟩ := Option.map_eq_some_iff.mp hrep
    have hkey : first.key = k := key_of_find hfirst
    obtain ⟨e, he, hek⟩ := h.covered (List.mem_of_find?_eq_some hfirst)
    obtain ⟨first', t', -, hrep', heq⟩ := h.replayed he
    rw [hek, hkey, hrep] at hrep'
    injection hrep' with hrep'
    refine ⟨e, he, hek.trans hkey, ?_⟩
    rw [heq, hrep']

/-- Replaying gives each site the fields of its first registration, the TU path aside. -/
theorem Carries.find_replayed (h : Carries s ch) (k : SiteKey) :
    ((ChannelIndex.replayed ch).find? (·.key = k)).map untagged
      = (s.calls.find? (·.key = k)).map untagged := by
  cases hfind : (ChannelIndex.replayed ch).find? (·.key = k) with
  | none =>
      have hnone : s.calls.find? (·.key = k) = none := by
        refine List.find?_eq_none.mpr fun c hc hkey => ?_
        obtain ⟨e, he, hek⟩ := h.covered hc
        have := List.find?_eq_none.mp hfind e he
        simp only [decide_eq_true_eq] at this hkey
        exact this (hek.trans hkey)
      rw [hnone]
  | some e =>
      have hkey : e.key = k := key_of_find hfind
      obtain ⟨first, t, hfirst, -, heq⟩ := h.replayed (List.mem_of_find?_eq_some hfind)
      rw [hkey] at hfirst
      rw [hfirst, heq]
      rfl

/-- A representative contributes the site. -/
theorem Shard.contributes_of_representative {k : SiteKey} {t : Str}
    (h : s.representative k = some t) : s.Contributes k t := by
  obtain ⟨first, hfirst, hrep⟩ := Option.map_eq_some_iff.mp h
  have hmem := List.mem_of_find?_eq_some hfirst
  have hkey : first.key = k := key_of_find hfirst
  cases hreload : s.reload with
  | none =>
      rw [hreload] at hrep
      exact ⟨first, hmem, hkey, hrep⟩
  | some r =>
      rw [hreload] at hrep
      dsimp only at hrep
      cases hfind : ((r.walk.walk s.built.byTu).map (·.1)).find? fun t => s.Contributes k t with
      | some t' =>
          rw [hfind, Option.getD_some] at hrep
          have hcontributes := List.find?_some hfind
          rw [← hrep]
          exact of_decide_eq_true hcontributes
      | none =>
          -- no TU of the walk contributes it, so its first registration has none
          rw [hfind, Option.getD_none] at hrep
          refine ⟨first, hmem, hkey, ?_⟩
          rw [← hrep]
          by_contra hne
          have hlisted := (built_shard s).byTu first.tuPath
          rw [if_neg (by simp [hne])] at hlisted
          have hlook : ∃ l, s.built.byTu.lookup first.tuPath = some l := by
            unfold UMap.getD at hlisted
            cases hl : s.built.byTu.lookup first.tuPath with
            | some l => exact ⟨l, rfl⟩
            | none =>
                rw [hl] at hlisted
                have hin : first ∈ s.calls.filter (·.tuPath = first.tuPath) :=
                  List.mem_filter.mpr ⟨hmem, decide_eq_true rfl⟩
                have hnil := List.map_eq_nil_iff.mp hlisted.symm
                rw [hnil] at hin
                exact absurd hin List.not_mem_nil
          obtain ⟨l, hl⟩ := hlook
          have hwalk := (r.walk.perm s.built.byTu).mem_iff.mpr
            ((UMap.mem_entries _ _ _).mpr hl)
          have hnot := List.find?_eq_none.mp hfind first.tuPath
            (List.mem_map_of_mem (f := (·.1)) hwalk)
          exact hnot (decide_eq_true ⟨first, hmem, hkey, rfl⟩)

/-! ### The merged master

The master is compared with an index that was told everything directly. Both
find the same fields for a site, so all turns on which TUs they know.
-/

/-- The master: its own registrations, then the shards' indexes one after the other. -/
def merged (own : List ChannelSite) (handed : List ChannelIndex) : ChannelIndex :=
  handed.foldl absorb (own.foldl addSite {})

/-- All registrations, the master's own and the shards'. -/
def allCalls (own : List ChannelSite) (shards : List Shard) : List ChannelSite :=
  own ++ shards.flatMap (·.calls)

/-- The index if all registrations had been made on the master directly. -/
def direct (own : List ChannelSite) (shards : List Shard) : ChannelIndex :=
  (allCalls own shards).foldl addSite {}

/-- After any removals the live sites are those that a TU still contributes, and the same as
those of the direct index. -/
def Faithful (own : List ChannelSite) (shards : List Shard) (master : ChannelIndex) : Prop :=
  ∀ removals : List (List Str),
    (∀ k, (∃ site ∈ (master.afterRemovals removals).allSites, site.key = k) ↔
      ∃ c ∈ allCalls own shards, c.key = k ∧ Kept removals.flatten c) ∧
    ∀ site, site ∈ (master.afterRemovals removals).allSites.map untagged ↔
      site ∈ ((direct own shards).afterRemovals removals).allSites.map untagged

/-- The master has heard of the TU as a contributor of the site: by a registration of its own
or as the representative of a shard. -/
def Represented (own : List ChannelSite) (shards : List Shard) (k : SiteKey) (t : Str) : Prop :=
  (∃ c ∈ own, c.key = k ∧ c.tuPath = t) ∨ ∃ s ∈ shards, s.representative k = some t

section Merge

variable {own : List ChannelSite} {shards : List Shard} {handed : List ChannelIndex}

/-- The registrations the master ends up with. -/
def masterCalls (own : List ChannelSite) (handed : List ChannelIndex) : List ChannelSite :=
  own ++ handed.flatMap replayed

theorem built_merged (own : List ChannelSite) (handed : List ChannelIndex) :
    Built (masterCalls own handed) (merged own handed) := by
  have hfold : ∀ (handed : List ChannelIndex) {calls : List ChannelSite} {ch : ChannelIndex},
      Built calls ch → Built (calls ++ handed.flatMap replayed) (handed.foldl absorb ch) := by
    intro handed
    induction handed with
    | nil =>
        intro calls ch h
        rw [List.flatMap_nil, List.append_nil]
        exact h
    | cons shard rest ih =>
        intro calls ch h
        rw [List.flatMap_cons, ← List.append_assoc, List.foldl_cons, absorb_eq]
        exact ih (h.addSites (replayed shard))
  have h := hfold handed (built_empty.addSites own)
  rwa [List.nil_append] at h

theorem built_direct (own : List ChannelSite) (shards : List Shard) :
    Built (allCalls own shards) (direct own shards) := by
  have h := built_empty.addSites (allCalls own shards)
  rwa [List.nil_append] at h

theorem represented_iff (h : List.Forall₂ Carries shards handed) (k : SiteKey) (t : Str) :
    (∃ e ∈ masterCalls own handed, e.key = k ∧ e.tuPath = t) ↔ Represented own shards k t := by
  have hshards : (∃ e ∈ handed.flatMap replayed, e.key = k ∧ e.tuPath = t) ↔
      ∃ s ∈ shards, s.representative k = some t := by
    induction h with
    | nil => simp
    | cons hc _ ih =>
        rw [List.flatMap_cons]
        simp only [List.mem_append, List.mem_cons, or_and_right, exists_or, exists_eq_left]
        rw [ih, hc.represented]
  unfold masterCalls Represented
  simp only [List.mem_append, or_and_right, exists_or]
  rw [hshards]

/-- The master finds the fields of a site where the direct index does. -/
theorem find_masterCalls (h : List.Forall₂ Carries shards handed) (k : SiteKey) :
    ((masterCalls own handed).find? (·.key = k)).map untagged
      = ((allCalls own shards).find? (·.key = k)).map untagged := by
  have hshards : ((handed.flatMap replayed).find? (·.key = k)).map untagged
      = ((shards.flatMap (·.calls)).find? (·.key = k)).map untagged := by
    induction h with
    | nil => rfl
    | cons hc _ ih =>
        rw [List.flatMap_cons, List.flatMap_cons, List.find?_append, List.find?_append,
          Option.map_or, Option.map_or, ih, hc.find_replayed]
  unfold masterCalls allCalls
  rw [List.find?_append, List.find?_append, Option.map_or, Option.map_or, hshards]

/-- The live sites of an index, the TU paths aside. -/
theorem Built.mem_untagged {calls : List ChannelSite} (h : Built calls ch)
    (removals : List (List Str)) (site : ChannelSite) :
    site ∈ (ch.afterRemovals removals).allSites.map untagged ↔
      (calls.find? (·.key = site.key)).map untagged = some site ∧
        ∃ c ∈ calls, c.key = site.key ∧ Kept removals.flatten c := by
  have hholds := (h.toHolds.afterRemovals removals)
  rw [List.nil_append] at hholds
  rw [List.mem_map]
  constructor
  · rintro ⟨live, hlive, rfl⟩
    obtain ⟨hfind, hkept⟩ := (hholds.mem_allSites live).mp hlive
    have hkey : (untagged live).key = live.key := rfl
    rw [hkey, hfind]
    exact ⟨rfl, hkept⟩
  · rintro ⟨hfind, hkept⟩
    obtain ⟨live, hlive, hlive'⟩ := Option.map_eq_some_iff.mp hfind
    have hkey : live.key = site.key := key_of_find hlive
    refine ⟨live, (hholds.mem_allSites live).mpr ?_, hlive'⟩
    rw [hkey]
    exact ⟨hlive, hkept⟩

theorem Built.live_key {calls : List ChannelSite} (h : Built calls ch)
    (removals : List (List Str)) (k : SiteKey) :
    (∃ site ∈ (ch.afterRemovals removals).allSites, site.key = k) ↔
      ∃ c ∈ calls, c.key = k ∧ Kept removals.flatten c := by
  have hholds := (h.toHolds.afterRemovals removals)
  rw [List.nil_append] at hholds
  constructor
  · rintro ⟨site, hsite, rfl⟩
    exact ((hholds.mem_allSites site).mp hsite).2
  · rintro ⟨c, hc, hkey, hkept⟩
    have hsome : (calls.find? (·.key = k)).isSome := by
      rw [List.find?_isSome]
      exact ⟨c, hc, decide_eq_true hkey⟩
    obtain ⟨first, hfirst⟩ := Option.isSome_iff_exists.mp hsome
    have hfk : first.key = k := key_of_find hfirst
    exact ⟨first, (hholds.mem_allSites first).mpr ⟨by rw [hfk]; exact hfirst, c, hc,
      hkey.trans hfk.symm, hkept⟩, hfk⟩

/-- What a shard hands over carries its sites. -/
theorem carries_handed (hfits : ∀ s ∈ shards, ∀ r, s.reload = some r → s.Fits r)
    (h : List.Forall₂ (fun s ch => Shard.handed s = some ch) shards handed) :
    List.Forall₂ Carries shards handed := by
  induction h with
  | nil => exact List.Forall₂.nil
  | @cons s ch shards handed hs _ ih =>
      refine List.Forall₂.cons ?_ (ih fun s hs => hfits s (List.mem_cons_of_mem _ hs))
      cases hreload : s.reload with
      | none =>
          have hbuilt : Shard.handed s = some s.built := by
            unfold Shard.handed
            rw [hreload]
          rw [hbuilt] at hs
          injection hs with hs
          exact hs ▸ carries_built hreload
      | some r => exact carries_reloaded hreload (hfits s List.mem_cons_self r hreload) hs

/-- **The merged master is faithful exactly when, for every registration of a shard, the
master has heard of its TU as a contributor of the site, or of a contributor without a TU.** -/
theorem merged_faithful_iff (hfits : ∀ s ∈ shards, ∀ r, s.reload = some r → s.Fits r)
    (hhanded : List.Forall₂ (fun s ch => Shard.handed s = some ch) shards handed) :
    Faithful own shards (merged own handed) ↔
      ∀ s ∈ shards, ∀ c ∈ s.calls,
        Represented own shards c.key [] ∨ Represented own shards c.key c.tuPath := by
  have hcarries := carries_handed hfits hhanded
  have hmaster := built_merged own handed
  have hdirect := built_direct own shards
  constructor
  · intro hfaithful s hs c hc
    by_contra hnot
    rw [not_or] at hnot
    -- take out every TU the master has heard of: the site goes, but `c` still contributes it
    set gone := ((masterCalls own handed).filter (·.key = c.key)).map (·.tuPath)
    have hmem : c ∈ allCalls own shards :=
      List.mem_append_right _ (List.mem_flatMap.mpr ⟨s, hs, hc⟩)
    have hkept : Kept [gone].flatten c := by
      refine Or.inr ?_
      rw [List.flatten_singleton]
      intro hin
      obtain ⟨e, he, htu⟩ := List.mem_map.mp hin
      obtain ⟨he, hkey⟩ := List.mem_filter.mp he
      exact hnot.2 ((represented_iff hcarries _ _).mp ⟨e, he, of_decide_eq_true hkey, htu⟩)
    obtain ⟨site, hsite, hkey⟩ := ((hfaithful [gone]).1 c.key).mpr ⟨c, hmem, rfl, hkept⟩
    obtain ⟨e, he, hek, hkept⟩ := (hmaster.live_key [gone] c.key).mp ⟨site, hsite, hkey⟩
    rcases hkept with hnil | hkept
    · exact hnot.1 ((represented_iff hcarries _ _).mp ⟨e, he, hek, hnil⟩)
    · rw [List.flatten_singleton] at hkept
      exact hkept (List.mem_map.mpr ⟨e, List.mem_filter.mpr ⟨he, decide_eq_true hek⟩, rfl⟩)
  · intro hheard removals
    have hsame : ∀ k, (∃ e ∈ masterCalls own handed, e.key = k ∧ Kept removals.flatten e) ↔
        ∃ c ∈ allCalls own shards, c.key = k ∧ Kept removals.flatten c := by
      intro k
      constructor
      · rintro ⟨e, he, hkey, hkept⟩
        rcases (represented_iff hcarries k e.tuPath).mp ⟨e, he, hkey, rfl⟩ with
          ⟨c, hc, hck, htu⟩ | ⟨s, hs, hrep⟩
        · refine ⟨c, List.mem_append_left _ hc, hck, ?_⟩
          rwa [Kept, htu]
        · obtain ⟨c, hc, hck, htu⟩ := Shard.contributes_of_representative hrep
          refine ⟨c, List.mem_append_right _ (List.mem_flatMap.mpr ⟨s, hs, hc⟩), hck, ?_⟩
          rwa [Kept, htu]
      · rintro ⟨c, hc, rfl, hkept⟩
        have hknown : Represented own shards c.key [] ∨
            Represented own shards c.key c.tuPath := by
          rcases List.mem_append.mp hc with hc | hc
          · exact Or.inr (Or.inl ⟨c, hc, rfl, rfl⟩)
          · obtain ⟨s, hs, hc⟩ := List.mem_flatMap.mp hc
            exact hheard s hs c hc
        rcases hknown with hrep | hrep
        · obtain ⟨e, he, hkey, htu⟩ := (represented_iff hcarries _ _).mpr hrep
          exact ⟨e, he, hkey, Or.inl htu⟩
        · obtain ⟨e, he, hkey, htu⟩ := (represented_iff hcarries _ _).mpr hrep
          refine ⟨e, he, hkey, ?_⟩
          rwa [Kept, htu]
    refine ⟨fun k => (hmaster.live_key removals k).trans (hsame k), ?_⟩
    intro site
    rw [hmaster.mem_untagged, hdirect.mem_untagged, find_masterCalls hcarries, hsame]

end Merge

/-! ### Two TUs of one shard -/

/-- A send in a header, as a TU that includes it registers it. -/
def headerSend (tuPath : Str) : ChannelSite where
  channelId := str "queue"
  siteFunctionUsr := str "c:@F@send"
  siteFunctionDisplay := str "send"
  callSite := str "send.h:3:5"
  tuPath := tuPath

/-- A shard of two TUs that saw the one send in a header. -/
def headerShard : Shard where
  calls := [headerSend (str "a.cpp"), headerSend (str "b.cpp")]

/-- The master forgets that the second TU contributes the site, and drops it with the first. -/
theorem merged_unfaithful : ¬ Faithful [] [headerShard] (merged [] [headerShard.built]) := by
  intro hfaithful
  have hkept : ∃ c ∈ allCalls [] [headerShard], c.key = (headerSend []).key ∧
      Kept [[str "a.cpp"]].flatten c :=
    ⟨headerSend (str "b.cpp"), by decide, rfl, Or.inr (by decide)⟩
  obtain ⟨site, hsite, -⟩ := ((hfaithful [[str "a.cpp"]]).1 (headerSend []).key).mpr hkept
  have hnone : ((merged [] [headerShard.built]).afterRemovals [[str "a.cpp"]]).allSites = [] := by
    decide +kernel
  rw [hnone] at hsite
  exact List.not_mem_nil hsite

/-- A shard of the second TU, saved and read back. -/
def reloadedShard : Shard where
  calls := [headerSend (str "b.cpp")]
  reload := some { walk := HashWalk.inOrder }

/-- With a reloaded shard that carries the second TU the master knows both. -/
theorem merged_faithful_both : ∃ ch, reloadedShard.handed = some ch ∧
    Faithful [] [headerShard, reloadedShard] (merged [] [headerShard.built, ch]) := by
  have hload : reloadedShard.handed.isSome = true := by decide +kernel
  obtain ⟨ch, hch⟩ := Option.isSome_iff_exists.mp hload
  have hfits : ∀ s ∈ [headerShard, reloadedShard], ∀ r, s.reload = some r → s.Fits r := by
    intro s hs r hr
    rcases List.mem_pair.mp hs with rfl | rfl
    · exact absurd hr.symm (Option.some_ne_none r)
    · injection hr with hr
      subst hr
      refine ⟨?_, ?_, by decide +kernel⟩
      · show List.length _ < _
        decide
      · intro c hc
        rw [List.mem_singleton.mp hc]
        refine ⟨⟨?_, ?_, ?_, ?_, ?_, ?_, ?_, fun _ hg => absurd hg List.not_mem_nil⟩, ?_⟩
        all_goals
          show List.length _ < _
          decide
  refine ⟨ch, hch, (merged_faithful_iff hfits (.cons rfl (.cons hch .nil))).mpr ?_⟩
  intro s hs c hc
  refine Or.inr (Or.inr ?_)
  rcases List.mem_pair.mp hs with rfl | rfl
  · rcases List.mem_pair.mp hc with rfl | rfl
    · exact ⟨headerShard, by simp, by decide⟩
    · exact ⟨reloadedShard, by simp, by decide +kernel⟩
  · rw [List.mem_singleton.mp hc]
    exact ⟨reloadedShard, by simp, by decide +kernel⟩

end ChannelIndex

end Vycor
