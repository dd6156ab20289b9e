/-
The channel index in the abstract.

What later mutators and queries can see of an index is its sequence of live sites, each with
the number of its registrations, and how often every TU registered every site.  Each mutator
is a function of that, and so is each answer up to the TU path that a site is shown with:
the stored one is that of the first registration, also after its TU was removed.
-/
import Vycor.Proofs.ChannelMerge
import Vycor.Proofs.ChannelPositions

namespace Vycor

open UMap Postings

open ChannelIndex (untagged)

/-! ### The abstract index

Sites with their numbers of registrations, in the order of the rows, and for
each TU the multiset of the sites it has registered. Positions and tombstones do
not occur in it.
-/

/-- The live sites with their registrations, and the registrations of each TU. -/
@[ext]
structure ChannelSpec where
  sites : List (ChannelSite × Nat)
  reg : Str → SiteKey → Nat

namespace ChannelSpec

/-- The keys of the sites. -/
def keys (a : ChannelSpec) : List SiteKey := a.sites.map (·.1.key)

/-- One more registration, of a site that is there or of a new one. -/
def add (a : ChannelSpec) (site : ChannelSite) : ChannelSpec where
  sites := if site.key ∈ a.keys then
      a.sites.map fun p => if p.1.key = site.key then (p.1, p.2 + 1) else p
    else a.sites ++ [(untagged site, 1)]
  reg t k := a.reg t k + if site.tuPath ≠ [] ∧ t = site.tuPath ∧ k = site.key then 1 else 0

/-- What the sites are without the registrations of a TU. -/
def left (a : ChannelSpec) (t : Str) : List (ChannelSite × Nat) :=
  (a.sites.map fun p => (p.1, p.2 - a.reg t p.1.key)).filter (0 < ·.2)

/-- A TU lets go of what it registered. -/
def release (a : ChannelSpec) (t : Str) : ChannelSpec where
  sites := a.left t
  reg t' k := if t' ≠ t ∧ k ∈ (a.left t).map (·.1.key) then a.reg t' k else 0

/-- The sites a reader is shown. -/
def shown (a : ChannelSpec) : List ChannelSite := a.sites.map (·.1)

end ChannelSpec

namespace ChannelIndex

variable {ch ch' : ChannelIndex} {sites : List StoredSite}

/-- A stored site as the abstract state has it, without its tag. -/
def specSite (s : StoredSite) : ChannelSite × Nat := (untagged s.site, s.refs)

/-- The abstract state of an index: its live sites, and how often each TU has registered a
key. -/
def spec (ch : ChannelIndex) : ChannelSpec where
  sites := (ch.sites.filter (·.live)).map specSite
  reg t k := ((ch.index.lookup k).map fun i => (ch.byTu.getD t []).count i).getD 0

theorem spec_reg_some {k : SiteKey} {i : Nat} (h : ch.index.lookup k = some i) (t : Str) :
    ch.spec.reg t k = (ch.byTu.getD t []).count i := by
  show ((ch.index.lookup k).map fun i => (ch.byTu.getD t []).count i).getD 0 = _
  rw [h]
  rfl

theorem spec_reg_none {k : SiteKey} (h : ch.index.lookup k = none) (t : Str) :
    ch.spec.reg t k = 0 := by
  show ((ch.index.lookup k).map fun i => (ch.byTu.getD t []).count i).getD 0 = _
  rw [h]
  rfl

/-- The index knows the keys of the abstract sites. -/
theorem Indexed.mem_keys (h : Indexed ch.sites ch.index) (k : SiteKey) :
    k ∈ ch.spec.keys ↔ ∃ i, ch.index.lookup k = some i := by
  unfold ChannelSpec.keys spec
  simp only [List.map_map, List.mem_map, List.mem_filter]
  constructor
  · rintro ⟨s, ⟨hs, hlive⟩, rfl⟩
    obtain ⟨i, hi⟩ := List.mem_iff_getElem?.mp hs
    exact ⟨i, (h _ i).mpr ⟨s, hi, hlive, rfl⟩⟩
  · rintro ⟨i, hi⟩
    obtain ⟨s, hs, hlive, rfl⟩ := (h k i).mp hi
    exact ⟨s, ⟨List.mem_of_getElem? hs, hlive⟩, rfl⟩

/-! ### Registering -/

/-- The maps list the live sites, and no TU is listed with a position past the sites. -/
structure Tracked (ch : ChannelIndex) : Prop extends Listed ch where
  below : ∀ t, ∀ i ∈ ch.byTu.getD t [], i < ch.sites.length

theorem tracked_empty : Tracked {} := ⟨listed_empty, fun t i hi => by simp at hi⟩

/-- The TU map after a registration. -/
theorem count_byTu_addSite (ch : ChannelIndex) (site : ChannelSite) (t : Str) (i : Nat) :
    ((ch.addSite site).byTu.getD t []).count i
      = (ch.byTu.getD t []).count i
        + if site.tuPath ≠ [] ∧ t = site.tuPath ∧ i = ch.sitePos site.key then 1 else 0 := by
  have hstore : (ch.storeSite site).byTu = ch.byTu := by
    unfold storeSite
    split <;> rfl
  unfold addSite
  dsimp only
  by_cases htu : site.tuPath = []
  · rw [if_neg (not_not_intro htu), hstore]
    simp [htu]
  · rw [if_pos htu]
    show ((pushAt (ch.storeSite site).byTu site.tuPath _).getD t []).count i = _
    rw [pushAt, hstore, getD_upsert]
    by_cases ht : t = site.tuPath
    · subst ht
      rw [if_pos rfl, List.count_append]
      congr 1
      by_cases hi : i = ch.sitePos site.key
      · simp [hi, htu]
      · simp [hi, Ne.symm hi]
    · rw [if_neg ht]
      simp [ht]

theorem addSite_sites (ch : ChannelIndex) (site : ChannelSite) :
    (ch.addSite site).sites = (ch.storeSite site).sites
      ∧ (ch.addSite site).index = (ch.storeSite site).index := by
  unfold addSite
  dsimp only
  split <;> exact ⟨rfl, rfl⟩

theorem length_addSite (ch : ChannelIndex) (site : ChannelSite) :
    ch.sites.length ≤ (ch.addSite site).sites.length := by
  rw [(addSite_sites ch site).1]
  unfold storeSite
  split
  · exact Nat.le_of_eq (List.length_modify _ _ _).symm
  · exact Nat.le_of_lt (by simp [appendSite])

theorem Listed.sitePos_lt (h : ch.Listed) (site : ChannelSite) :
    ch.sitePos site.key < (ch.addSite site).sites.length := by
  rw [(addSite_sites ch site).1]
  unfold sitePos storeSite
  cases hl : ch.index.lookup site.key with
  | none =>
      show ch.sites.length < (ch.sites ++ [(⟨site, 1, true⟩ : StoredSite)]).length
      simp
  | some i =>
      obtain ⟨s, hs, -⟩ := (h.index site.key i).mp hl
      have hlt := (List.getElem?_eq_some_iff.mp hs).1
      simpa using hlt

theorem Tracked.addSite (h : ch.Tracked) (site : ChannelSite) : (ch.addSite site).Tracked := by
  refine ⟨h.toListed.addSite site, ?_⟩
  intro t i hi
  rw [← List.count_pos_iff, count_byTu_addSite] at hi
  by_cases hpos : i ∈ ch.byTu.getD t []
  · exact Nat.lt_of_lt_of_le (h.below t i hpos) (length_addSite ch site)
  · rw [List.count_eq_zero.mpr hpos] at hi
    split at hi
    · rename_i hnew
      rw [hnew.2.2]
      exact h.sitePos_lt site
    · exact absurd hi (by simp)

/-- Only the live site of a key is counted up. -/
theorem Indexed.modify_eq {index : UMap SiteKey Nat} (h : Indexed sites index) {k : SiteKey}
    {idx : Nat} (hl : index.lookup k = some idx) (f : StoredSite → StoredSite) :
    sites.modify idx f = sites.map fun s => if s.live = true ∧ s.site.key = k then f s else s := by
  refine List.ext_getElem? fun i => ?_
  rw [List.getElem?_modify, List.getElem?_map]
  cases hi : sites[i]? with
  | none => rfl
  | some s =>
      have hat : idx = i ↔ s.live = true ∧ s.site.key = k := by
        constructor
        · rintro rfl
          obtain ⟨s', hs', hlive, hkey⟩ := (h k idx).mp hl
          rw [hi] at hs'
          injection hs' with hs'
          exact hs' ▸ ⟨hlive, hkey⟩
        · rintro ⟨hlive, hkey⟩
          have hfound := (h k i).mpr ⟨s, hi, hlive, hkey⟩
          rw [hl] at hfound
          exact Option.some.inj hfound
      by_cases hidx : idx = i
      · simp [hidx, hat.mp hidx]
      · simp [hidx, mt hat.mpr hidx]

/-- Mapping the rows without a look at their liveness. -/
theorem map_specSite_map {f : StoredSite → StoredSite} {g : ChannelSite × Nat → ChannelSite × Nat}
    (hlive : ∀ s ∈ sites, (f s).live = s.live)
    (hf : ∀ s ∈ sites, s.live = true → specSite (f s) = g (specSite s)) :
    ((sites.map f).filter (·.live)).map specSite = ((sites.filter (·.live)).map specSite).map g := by
  have hfilter : (sites.map f).filter (·.live) = (sites.filter (·.live)).map f := by
    rw [List.filter_map]
    congr 1
    exact List.filter_congr fun s hs => by simp [hlive s hs]
  rw [hfilter, List.map_map, List.map_map]
  refine List.map_congr_left fun s hs => ?_
  exact hf s (List.mem_of_mem_filter hs) (List.mem_filter.mp hs).2

/-- **A registration adds the site to the abstract index.** -/
theorem Tracked.addSite_spec (h : ch.Tracked) (site : ChannelSite) :
    (ch.addSite site).spec = ch.spec.add site := by
  obtain ⟨hsites, hindex⟩ := addSite_sites ch site
  cases hl : ch.index.lookup site.key with
  | some idx =>
      have hstored : ch.storeSite site
          = { ch with sites := ch.sites.modify idx fun s => { s with refs := s.refs + 1 } } := by
        unfold storeSite
        rw [hl]
      have hpos : ch.sitePos site.key = idx := by
        unfold sitePos
        rw [hl]
        rfl
      rw [hstored] at hsites hindex
      refine ChannelSpec.ext ?_ ?_
      · show ((ch.addSite site).sites.filter (·.live)).map specSite = if _ then _ else _
        rw [if_pos ((h.index.mem_keys site.key).mpr ⟨idx, hl⟩), hsites]
        dsimp only
        rw [h.index.modify_eq hl]
        refine map_specSite_map ?_ ?_
        · intro s _
          split <;> rfl
        · intro s _ hlive
          by_cases hk : s.site.key = site.key
          · rw [if_pos ⟨hlive, hk⟩]
            exact (if_pos hk).symm
          · rw [if_neg fun hc => hk hc.2]
            exact (if_neg hk).symm
      · funext t k
        show _ = ch.spec.reg t k + _
        cases hk : ch.index.lookup k with
        | none =>
            have hne : k ≠ site.key := fun hc => by rw [hc, hl] at hk; simp at hk
            rw [spec_reg_none (by rw [hindex]; exact hk), spec_reg_none hk]
            simp [hne]
        | some i =>
            rw [spec_reg_some (by rw [hindex]; exact hk), spec_reg_some hk, count_byTu_addSite, hpos]
            have hsame : i = idx ↔ k = site.key := by
              constructor
              · rintro rfl
                obtain ⟨s, hs, -, hkey⟩ := (h.index k i).mp hk
                obtain ⟨s', hs', -, hkey'⟩ := (h.index site.key i).mp hl
                rw [hs] at hs'
                injection hs' with hs'
                rw [← hkey, hs', hkey']
              · rintro rfl
                rw [hl] at hk
                exact (Option.some.inj hk).symm
            simp only [hsame]
  | none =>
      have hstored : ch.storeSite site = ch.appendSite site 1 := by
        unfold storeSite
        rw [hl]
      have hpos : ch.sitePos site.key = ch.sites.length := by
        unfold sitePos
        rw [hl]
        rfl
      have hnew : site.key ∉ ch.spec.keys := by
        intro hc
        obtain ⟨i, hi⟩ := (h.index.mem_keys site.key).mp hc
        rw [hl] at hi
        simp at hi
      rw [hstored] at hsites hindex
      refine ChannelSpec.ext ?_ ?_
      · show ((ch.addSite site).sites.filter (·.live)).map specSite = if _ then _ else _
        rw [if_neg hnew, hsites]
        show ((ch.sites ++ [(⟨site, 1, true⟩ : StoredSite)]).filter (·.live)).map specSite = _
        rw [List.filter_append, List.map_append]
        rfl
      · have hlook (k : SiteKey) : (ch.addSite site).index.lookup k
            = if k = site.key then some ch.sites.length else ch.index.lookup k := by
          rw [hindex]
          show AList.lookup k (ch.index.emplace site.key ch.sites.length) = _
          rw [lookup_emplace, hl]
          rfl
        funext t k
        show _ = ch.spec.reg t k + _
        by_cases hk : k = site.key
        · subst hk
          rw [spec_reg_some (by rw [hlook, if_pos rfl]), spec_reg_none hl, count_byTu_addSite, hpos,
            List.count_eq_zero.mpr fun hc => Nat.lt_irrefl _ (h.below t _ hc)]
          simp
        · cases hk' : ch.index.lookup k with
          | none =>
              rw [spec_reg_none (by rw [hlook, if_neg hk, hk']), spec_reg_none hk']
              simp [hk]
          | some i =>
              obtain ⟨s, hs, -⟩ := (h.index k i).mp hk'
              have hlt := (List.getElem?_eq_some_iff.mp hs).1
              rw [spec_reg_some (by rw [hlook, if_neg hk, hk']), spec_reg_some hk',
                count_byTu_addSite, hpos]
              simp [hk, Nat.ne_of_lt hlt]

/-- **A merge registers the live sites of the other index as often as it counts them.** -/
theorem Tracked.absorb_spec (h : ch.Tracked) (shard : ChannelIndex) :
    (ch.absorb shard).Tracked ∧
      (ch.absorb shard).spec = (replayed shard).foldl ChannelSpec.add ch.spec := by
  rw [absorb_eq]
  generalize replayed shard = calls
  induction calls generalizing ch with
  | nil => exact ⟨h, rfl⟩
  | cons site rest ih =>
      obtain ⟨htracked, hspec⟩ := ih (h.addSite site)
      refine ⟨htracked, ?_⟩
      rw [List.foldl_cons, List.foldl_cons, hspec, h.addSite_spec]

/-! ### Releasing -/

/-- What releasing a TU does to the sites and to the TU map. -/
theorem releaseTU_at {r : Release} (h : LiveOK r.ch.sites) (t : Str) :
    (∀ i : Nat, (releaseTU r t).ch.sites[i]?
        = (r.ch.sites[i]?).map (drop ((r.ch.byTu.getD t []).count i))) ∧
      ∀ t', (releaseTU r t).ch.byTu.getD t' [] = if t' = t then [] else r.ch.byTu.getD t' [] := by
  unfold ChannelIndex.releaseTU
  cases hl : r.ch.byTu.lookup t with
  | none =>
      have hnil : r.ch.byTu.getD t [] = [] := by
        unfold UMap.getD
        rw [hl]
        rfl
      refine ⟨?_, ?_⟩
      · intro i
        rw [hnil]
        cases hi : r.ch.sites[i]? with
        | none => rfl
        | some s => simp [drop_zero (h s (List.mem_of_getElem? hi))]
      · intro t'
        by_cases ht : t' = t
        · rw [if_pos ht, ht]
          exact hnil
        · rw [if_neg ht]
  | some idxs =>
      have hget : r.ch.byTu.getD t [] = idxs := by
        unfold UMap.getD
        rw [hl]
        rfl
      obtain ⟨-, hbyTu, hsites⟩ := releaseSites_sites idxs h
      refine ⟨?_, ?_⟩
      · rw [hget]
        exact hsites
      · intro t'
        show UMap.getD ((idxs.foldl releaseSite r).ch.byTu.erase t) t' [] = _
        rw [hbyTu, getD_erase]

/-- A tombstone has nothing left to release. -/
theorem drop_dead {s : StoredSite} (h : s.live = decide (0 < s.refs)) (hdead : s.live = false)
    (n : Nat) : drop n s = s := by
  have hzero : s.refs = 0 := by
    rw [hdead] at h
    have := of_decide_eq_false h.symm
    omega
  unfold drop
  rw [hzero, Nat.zero_sub]
  cases s
  simp_all

theorem map_specSite_drop (hlive : LiveOK sites) (n : SiteKey → Nat) :
    ((sites.map fun s => drop (n s.site.key) s).filter (·.live)).map specSite
      = (((sites.filter (·.live)).map specSite).map fun p => (p.1, p.2 - n p.1.key)).filter
          (0 < ·.2) := by
  induction sites with
  | nil => rfl
  | cons s rest ih =>
      have hs := hlive s List.mem_cons_self
      have hrest := ih fun s' hs' => hlive s' (List.mem_cons_of_mem _ hs')
      rw [List.map_cons]
      cases hl : s.live with
      | false =>
          rw [drop_dead hs hl, List.filter_cons_of_neg (by simp [hl]),
            List.filter_cons_of_neg (by simp [hl]), hrest]
      | true =>
          rw [List.filter_cons_of_pos (a := s) (by simp [hl]), List.map_cons, List.map_cons]
          by_cases hpos : 0 < (specSite s).2 - n (specSite s).1.key
          · have hleft : (drop (n s.site.key) s).live = true := decide_eq_true hpos
            rw [List.filter_cons_of_pos hleft, List.filter_cons_of_pos (by simpa using hpos),
              List.map_cons, hrest]
            rfl
          · have hgone : ¬ (drop (n s.site.key) s).live = true := fun hc => hpos (of_decide_eq_true hc)
            rw [List.filter_cons_of_neg hgone,
              List.filter_cons_of_neg (by simpa using hpos), hrest]

/-- **Releasing a TU takes its registrations off the abstract index.** -/
theorem Releasing.releaseTU_spec {r : Release} (h : Releasing ch r) (t : Str) :
    (ChannelIndex.releaseTU r t).ch.spec = r.ch.spec.release t := by
  obtain ⟨hat, hbyTu⟩ := releaseTU_at h.live t
  have hnext := h.releaseTU t
  have hmap : (ChannelIndex.releaseTU r t).ch.sites
      = r.ch.sites.map fun s => drop (r.ch.spec.reg t s.site.key) s := by
    refine List.ext_getElem? fun i => ?_
    rw [hat, List.getElem?_map]
    cases hi : r.ch.sites[i]? with
    | none => rfl
    | some s =>
        have hs := h.live s (List.mem_of_getElem? hi)
        cases hl : s.live with
        | false => simp [drop_dead hs hl]
        | true => simp [spec_reg_some ((h.index s.site.key i).mpr ⟨s, hi, hl, rfl⟩) t]
  have hsites : (ChannelIndex.releaseTU r t).ch.spec.sites = r.ch.spec.left t := by
    show ((ChannelIndex.releaseTU r t).ch.sites.filter (·.live)).map specSite = _
    rw [hmap, map_specSite_drop h.live]
    rfl
  refine ChannelSpec.ext hsites ?_
  funext t' k
  have hkeys : k ∈ (r.ch.spec.left t).map (·.1.key)
      ↔ ∃ i, (ChannelIndex.releaseTU r t).ch.index.lookup k = some i := by
    rw [← hnext.index.mem_keys k, ← hsites]
    rfl
  show _ = if t' ≠ t ∧ k ∈ (r.ch.spec.left t).map (·.1.key) then r.ch.spec.reg t' k else 0
  cases hk : (ChannelIndex.releaseTU r t).ch.index.lookup k with
  | none =>
      rw [spec_reg_none hk, if_neg]
      rintro ⟨-, hc⟩
      obtain ⟨i, hi⟩ := hkeys.mp hc
      rw [hk] at hi
      simp at hi
  | some i =>
      rw [spec_reg_some hk, hbyTu]
      by_cases ht : t' = t
      · simp [ht]
      · rw [if_neg ht, if_pos ⟨ht, hkeys.mpr ⟨i, hk⟩⟩]
        -- a site that is live still was live before
        obtain ⟨s, hs, hlive, hkey⟩ := (hnext.index k i).mp hk
        rw [hat i] at hs
        obtain ⟨s', hs', rfl⟩ := Option.map_eq_some_iff.mp hs
        have hlive' : s'.live = true := by
          have hleft : 0 < s'.refs - _ := of_decide_eq_true hlive
          rw [h.live s' (List.mem_of_getElem? hs')]
          exact decide_eq_true (by omega)
        exact (spec_reg_some ((h.index k i).mpr ⟨s', hs', hlive', hkey⟩) t').symm

theorem length_releaseTU {r : Release} (h : LiveOK r.ch.sites) (t : Str) :
    (releaseTU r t).ch.sites.length = r.ch.sites.length := by
  obtain ⟨hat, -⟩ := releaseTU_at h t
  have hnone (i : Nat) : (releaseTU r t).ch.sites[i]? = none ↔ r.ch.sites[i]? = none := by
    rw [hat, Option.map_eq_none_iff]
  simp only [List.getElem?_eq_none_iff] at hnone
  exact Nat.le_antisymm ((hnone _).mpr (Nat.le_refl _)) ((hnone _).mp (Nat.le_refl _))

/-- **A removal releases its TUs one after the other**, and says how many sites went. -/
theorem Tracked.removeTUs_spec (h : ch.Tracked) (tus : List Str) :
    (ch.removeTUs tus).1.Tracked ∧
      (ch.removeTUs tus).1.spec = tus.foldl ChannelSpec.release ch.spec ∧
      (ch.removeTUs tus).2 + (ch.removeTUs tus).1.spec.sites.length = ch.spec.sites.length := by
  have hrun : ∀ (tus : List Str) {r : Release}, Releasing ch r →
      (∀ t, ∀ i ∈ r.ch.byTu.getD t [], i < r.ch.sites.length) →
      (tus.foldl ChannelIndex.releaseTU r).ch.spec = tus.foldl ChannelSpec.release r.ch.spec ∧
        ∀ t, ∀ i ∈ (tus.foldl ChannelIndex.releaseTU r).ch.byTu.getD t [],
          i < (tus.foldl ChannelIndex.releaseTU r).ch.sites.length := by
    intro tus
    induction tus with
    | nil => exact fun _ hbelow => ⟨rfl, hbelow⟩
    | cons t rest ih =>
        intro r hr hbelow
        rw [List.foldl_cons, List.foldl_cons, ← hr.releaseTU_spec]
        refine ih (hr.releaseTU t) ?_
        intro t' i hi
        rw [(releaseTU_at hr.live t).2 t'] at hi
        rw [length_releaseTU hr.live]
        split at hi
        · exact absurd hi List.not_mem_nil
        · exact hbelow t' i hi
  obtain ⟨hspec, hbelow⟩ := hrun tus h.toListed.releasing h.below
  obtain ⟨hlisted, hcount⟩ := h.toListed.removeTUs tus
  have hsize {x : ChannelIndex} (hx : x.Listed) : x.spec.sites.length = x.liveCount := by
    rw [hx.liveCount]
    exact List.length_map _
  refine ⟨⟨hlisted, hbelow⟩, hspec, ?_⟩
  rw [hsize hlisted, hsize h.toListed]
  exact hcount

/-! ### Compacting -/

/-- **Compacting keeps the abstract index.** -/
theorem Tracked.compact_spec (h : ch.Tracked) : ch.compact.Tracked ∧ ch.compact.spec = ch.spec := by
  have hnew := oldToNew_getD ch.sites
  have hbyTu (t : Str) : ch.compact.byTu.getD t []
      = (ch.byTu.getD t []).filterMap (rank ch.sites (·.live)) := by
    rw [← hnew]
    exact getD_renumber _ _ t
  refine ⟨⟨h.toListed.compact, ?_⟩, ?_⟩
  · intro t j hj
    rw [hbyTu] at hj
    obtain ⟨i, -, hi⟩ := List.mem_filterMap.mp hj
    obtain ⟨s, -, -, -, hs⟩ := rank_eq_some.mp hi
    exact (List.getElem?_eq_some_iff.mp hs).1
  · refine ChannelSpec.ext ?_ ?_
    · show ((ch.sites.filter (·.live)).filter (·.live)).map specSite = _
      rw [List.filter_filter]
      simp [spec]
    · funext t k
      have hindex : ch.compact.index.lookup k
          = (ch.index.lookup k).bind (rank ch.sites (·.live)) := by
        show (UMap.filterMapVals (fun i => (oldToNew ch.sites).getD i none) ch.index).lookup k = _
        rw [lookup_filterMapVals, hnew]
      cases hk : ch.index.lookup k with
      | none => rw [spec_reg_none hk, spec_reg_none (by rw [hindex, hk]; rfl)]
      | some i =>
          obtain ⟨s, hs, hlive, hkey⟩ := (h.index k i).mp hk
          have hrank : rank ch.sites (·.live) i = some ((ch.sites.take i).countP (·.live)) := by
            unfold rank
            rw [hs]
            exact if_pos hlive
          rw [spec_reg_some hk, spec_reg_some (by rw [hindex, hk]; exact hrank), hbyTu]
          refine count_filterMap_unique ?_ _
          intro x
          constructor
          · intro hx
            -- the rows at both positions are the one that moved, and the index knows one position
            obtain ⟨s', hs', hlive', -, hat⟩ := rank_eq_some.mp hx
            obtain ⟨s'', hs'', -, -, hat'⟩ := rank_eq_some.mp hrank
            rw [hat'] at hat
            injection hat with hat
            rw [hs''] at hs
            injection hs with hs
            have hkey : s'.site.key = k := by rw [← hat, hs, hkey]
            have hfound := (h.index k x).mpr ⟨s', hs', hlive', hkey⟩
            rw [hk] at hfound
            exact (Option.some.inj hfound).symm
          · rintro rfl
            exact hrank

/-! ### Answers

Two indexes of one abstract index answer alike, but for the TU path shown with a
site: which of its TUs that is depends on the history.
-/

/-- No query tells the indexes apart, nor how many sites a removal says went, up to the TU path
a site is shown with; lists of channel ids count as sets. -/
structure SameAnswers (ch ch' : ChannelIndex) : Prop where
  producersOf : ∀ c, (ch.producersOf c).map untagged = (ch'.producersOf c).map untagged
  consumersOf : ∀ c, (ch.consumersOf c).map untagged = (ch'.consumersOf c).map untagged
  sitesForFunction : ∀ f, (ch.sitesForFunction f).map untagged
    = (ch'.sitesForFunction f).map untagged
  allChannelIds : ∀ c, c ∈ ch.allChannelIds ↔ c ∈ ch'.allChannelIds
  allSites : ch.allSites.map untagged = ch'.allSites.map untagged
  size : ch.size = ch'.size
  removeTUs : ∀ tus, (ch.removeTUs tus).2 = (ch'.removeTUs tus).2

/-- The live sites of a key, read off the abstract index. -/
theorem liveAt_spec {p : ChannelSite → Bool} (hp : ∀ s, p (untagged s) = p s) {idxs : List Nat}
    (h : idxs = positions ch.sites (held p)) :
    (ch.liveAt idxs).map untagged = ch.spec.shown.filter p := by
  have hrows : (idxs.filterMap (ch.sites[·]?)).filter (·.live) = ch.sites.filter (held p) := by
    rw [h]
    show (rowsAt ch.sites (positions ch.sites (held p))).filter (·.live) = _
    rw [rowsAt_positions, List.filter_filter]
    exact List.filter_congr fun s _ => by simp [held]
  unfold liveAt ChannelSpec.shown spec
  rw [hrows, List.map_map, List.map_map, List.filter_map, List.filter_filter]
  refine congrArg (List.map _) (List.filter_congr fun s _ => ?_)
  show held p s = (p (untagged s.site) && s.live)
  rw [hp, held, Bool.and_comm]

theorem mem_allChannelIds (h : ch.Listed) (c : Str) :
    c ∈ ch.allChannelIds ↔ ∃ site ∈ ch.spec.shown, site.channelId = c := by
  have hlisted := liveAt_spec (p := fun s => s.channelId = c) (fun _ => rfl) (h.byChannel c)
  have hany : (∃ site ∈ ch.spec.shown, site.channelId = c)
      ↔ ch.liveAt (ch.byChannel.getD c []) ≠ [] := by
    rw [Ne, ← List.map_eq_nil_iff (f := untagged), hlisted, List.filter_eq_nil_iff]
    simp
  rw [hany]
  unfold allChannelIds
  simp only [List.mem_map, List.mem_filter, decide_eq_true_eq]
  constructor
  · rintro ⟨⟨k, l⟩, ⟨hmem, hne⟩, rfl⟩
    rw [UMap.getD, (mem_entries _ _ _).mp hmem]
    exact hne
  · intro hne
    unfold UMap.getD at hne
    cases hl : ch.byChannel.lookup c with
    | none =>
        rw [hl] at hne
        exact absurd rfl hne
    | some l =>
        rw [hl] at hne
        exact ⟨⟨c, l⟩, ⟨(mem_entries _ _ _).mpr hl, hne⟩, rfl⟩

/-- **The abstract index determines every answer.** -/
theorem Tracked.sameAnswers (h : ch.Tracked) (h' : ch'.Tracked) (hspec : ch.spec = ch'.spec) :
    SameAnswers ch ch' := by
  have hfilter (l : List ChannelSite) (op : ChannelOperation) :
      (l.filter (·.op = op)).map untagged = (l.map untagged).filter (·.op = op) := by
    rw [List.filter_map]
    rfl
  have hsize {x : ChannelIndex} (hx : x.Listed) : x.size = x.spec.sites.length := by
    unfold ChannelIndex.size
    rw [hx.liveCount]
    exact (List.length_map _).symm
  have hchannel (c : Str) : (ch.liveAt (ch.byChannel.getD c [])).map untagged
      = (ch'.liveAt (ch'.byChannel.getD c [])).map untagged := by
    rw [liveAt_spec (fun _ => rfl) (h.byChannel c), liveAt_spec (fun _ => rfl) (h'.byChannel c),
      hspec]
  refine ⟨?_, ?_, ?_, ?_, ?_, ?_, ?_⟩
  · intro c
    unfold ChannelIndex.producersOf
    rw [hfilter, hfilter, hchannel]
  · intro c
    unfold ChannelIndex.consumersOf
    rw [hfilter, hfilter, hchannel]
  · intro f
    unfold ChannelIndex.sitesForFunction
    rw [List.map_append, List.map_append, liveAt_spec (fun _ => rfl) (h.byFunctionUsr f),
      liveAt_spec (fun _ => rfl) (h'.byFunctionUsr f),
      liveAt_spec (fun _ => rfl) (h.byFunctionDisplay f),
      liveAt_spec (fun _ => rfl) (h'.byFunctionDisplay f), hspec]
  · intro c
    rw [mem_allChannelIds h.toListed, mem_allChannelIds h'.toListed, hspec]
  · have hall (x : ChannelIndex) : x.allSites.map untagged = x.spec.shown := by
      unfold ChannelIndex.allSites ChannelSpec.shown spec
      rw [List.map_map, List.map_map]
      rfl
    rw [hall, hall, hspec]
  · rw [hsize h.toListed, hsize h'.toListed, hspec]
  · intro tus
    obtain ⟨-, hleft, hcount⟩ := h.removeTUs_spec tus
    obtain ⟨-, hleft', hcount'⟩ := h'.removeTUs_spec tus
    rw [hleft, hspec] at hcount
    rw [hleft'] at hcount'
    omega

/-! ### Runs -/

/-- What changes an index. -/
inductive Mutation
  | add (site : ChannelSite)
  | absorb (shard : ChannelIndex)
  | removeTUs (tuPaths : List Str)
  | compact

namespace Mutation

/-- The change on the index. -/
def apply (ch : ChannelIndex) : Mutation → ChannelIndex
  | add site => ch.addSite site
  | absorb shard => ch.absorb shard
  | removeTUs tuPaths => (ch.removeTUs tuPaths).1
  | compact => ch.compact

/-- The change on the abstract state. -/
def onSpec (a : ChannelSpec) : Mutation → ChannelSpec
  | add site => a.add site
  | absorb shard => (replayed shard).foldl ChannelSpec.add a
  | removeTUs tuPaths => tuPaths.foldl ChannelSpec.release a
  | compact => a

end Mutation

/-- **Each mutator is a function of the abstract index.** -/
theorem Tracked.apply_spec (h : ch.Tracked) (m : Mutation) :
    (m.apply ch).Tracked ∧ (m.apply ch).spec = m.onSpec ch.spec := by
  cases m with
  | add site => exact ⟨h.addSite site, h.addSite_spec site⟩
  | absorb shard => exact h.absorb_spec shard
  | removeTUs tuPaths =>
      obtain ⟨htracked, hspec, -⟩ := h.removeTUs_spec tuPaths
      exact ⟨htracked, hspec⟩
  | compact => exact h.compact_spec

theorem Tracked.run_spec (h : ch.Tracked) (later : List Mutation) :
    (later.foldl Mutation.apply ch).Tracked ∧
      (later.foldl Mutation.apply ch).spec = later.foldl Mutation.onSpec ch.spec := by
  induction later generalizing ch with
  | nil => exact ⟨h, rfl⟩
  | cons m rest ih =>
      obtain ⟨hone, hspec⟩ := h.apply_spec m
      rw [List.foldl_cons, List.foldl_cons, ← hspec]
      exact ih hone

theorem History.tracked : ∀ h : History, h.channels.Tracked
  | .empty => tracked_empty
  | .add h site => h.tracked.addSite site
  | .absorb h shard => (h.tracked.absorb_spec shard.channels).1
  | .removeTUs h tuPaths => (h.tracked.removeTUs_spec tuPaths).1
  | .compact h => h.tracked.compact_spec.1

end ChannelIndex

end Vycor
