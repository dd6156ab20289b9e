/-
What a channel index holds.

`Holds calls removed ch` describes an index by the registrations it was given and the TUs
that were taken out since: every registered site is stored once, under the fields of its
first registration, its count is the number of registrations that are left, and it is live
as long as one is.  Registering and removing keep this, so the live sites of an index can be
read off its calls.
-/
import Vycor.Lib.Dedup
import Vycor.Model.ChannelIndex

namespace Vycor

namespace ChannelIndex

/-! ### The invariant

For an index from which TUs are only ever removed: each row stands for the
registrations that are left of its site, and each TU for its own.
-/

/-- A registration that the removal of these TUs leaves alone. -/
def Kept (removed : List Str) (call : ChannelSite) : Prop :=
  call.tuPath = [] ∨ call.tuPath ∉ removed

instance (removed : List Str) (call : ChannelSite) : Decidable (Kept removed call) :=
  inferInstanceAs (Decidable (_ ∨ _))

/-- The keys of the stored sites. -/
def keysOf (sites : List StoredSite) : List SiteKey := sites.map (·.site.key)

/-- How many registrations of a site are left. -/
def left (calls : List ChannelSite) (removed : List Str) (k : SiteKey) : Nat :=
  calls.countP fun c => c.key = k ∧ Kept removed c

/-- The sites are those of the calls: each key once, with the payload of its first call
and a count of the calls not removed. -/
structure SitesHold (calls : List ChannelSite) (removed : List Str) (sites : List StoredSite) :
    Prop where
  nodup : (keysOf sites).Nodup
  covers : ∀ c ∈ calls, c.key ∈ keysOf sites
  first : ∀ s ∈ sites, calls.find? (·.key = s.site.key) = some s.site
  refs : ∀ s ∈ sites, s.refs = left calls removed s.site.key
  live : ∀ s ∈ sites, s.live = decide (0 < s.refs)

/-- A TU is listed with the position of each of its registrations until it is removed. -/
def TusHold (calls : List ChannelSite) (removed : List Str) (keys : List SiteKey)
    (byTu : UMap Str (List Nat)) : Prop :=
  ∀ t, byTu.getD t [] = if t = [] ∨ t ∈ removed then []
    else (calls.filter (·.tuPath = t)).map fun c => keys.idxOf c.key

/-- The whole index is that of the calls. -/
structure Holds (calls : List ChannelSite) (removed : List Str) (ch : ChannelIndex) : Prop where
  sites : SitesHold calls removed ch.sites
  byTu : TusHold calls removed (keysOf ch.sites) ch.byTu

/-- Every stored key is indexed at its position. -/
def IndexHolds (keys : List SiteKey) (index : UMap SiteKey Nat) : Prop :=
  ∀ k, index.lookup k = if k ∈ keys then some (keys.idxOf k) else none

/-- An index from which nothing was removed. -/
structure Built (calls : List ChannelSite) (ch : ChannelIndex) : Prop extends
    Holds calls [] ch where
  index : IndexHolds (keysOf ch.sites) ch.index
  unnamed : ch.byTu.lookup [] = none
  liveCount : ch.liveCount = ch.sites.length

variable {calls : List ChannelSite} {removed : List Str} {sites : List StoredSite}
  {ch : ChannelIndex}

theorem kept_nil (c : ChannelSite) : Kept [] c := Or.inr List.not_mem_nil

theorem left_nil (calls : List ChannelSite) (k : SiteKey) :
    left calls [] k = calls.countP fun c => c.key = k := by
  unfold left
  refine List.countP_congr fun c _ => ?_
  simp [kept_nil]

theorem key_of_find {k : SiteKey} {c : ChannelSite} (h : calls.find? (·.key = k) = some c) :
    c.key = k := by
  simpa using List.find?_some h

theorem built_empty : Built [] {} where
  sites := ⟨List.nodup_nil, fun _ h => absurd h List.not_mem_nil,
    fun _ h => absurd h List.not_mem_nil, fun _ h => absurd h List.not_mem_nil,
    fun _ h => absurd h List.not_mem_nil⟩
  byTu := fun t => by simp
  index := fun k => by simp [keysOf]
  unnamed := rfl
  liveCount := rfl

/-! ### Registering -/

theorem left_snoc (calls : List ChannelSite) (c : ChannelSite) (k : SiteKey) :
    left (calls ++ [c]) [] k = left calls [] k + if c.key = k then 1 else 0 := by
  rw [left_nil, left_nil, List.countP_append, List.countP_singleton]
  simp

/-- A stored key stands at its position. -/
theorem SitesHold.at_key (h : SitesHold calls removed sites) {i : Nat} {s : StoredSite}
    (hi : sites[i]? = some s) {k : SiteKey} (hk : k ∈ keysOf sites) :
    (keysOf sites).idxOf k = i ↔ s.site.key = k := by
  have hget : (keysOf sites)[i]? = some s.site.key := by
    rw [keysOf, List.getElem?_map, hi]
    rfl
  obtain ⟨hlt, hget⟩ := List.getElem?_eq_some_iff.mp hget
  constructor
  · rintro rfl
    rw [← hget, List.getElem_idxOf]
  · rintro rfl
    rw [← hget]
    exact h.nodup.idxOf_getElem i hlt

/-- A stored site has its first registration still. -/
theorem SitesHold.left_pos (h : SitesHold calls [] sites) {s : StoredSite} (hs : s ∈ sites) :
    0 < left calls [] s.site.key := by
  rw [left_nil]
  refine List.countP_pos_iff.mpr ⟨s.site, List.mem_of_find?_eq_some (h.first s hs), ?_⟩
  exact decide_eq_true rfl

theorem keysOf_modify (sites : List StoredSite) (idx : Nat) (f : StoredSite → StoredSite)
    (hf : ∀ s, (f s).site = s.site) : keysOf (sites.modify idx f) = keysOf sites := by
  unfold keysOf
  refine List.ext_getElem? fun i => ?_
  rw [List.getElem?_map, List.getElem?_map, List.getElem?_modify]
  cases sites[i]? with
  | none => rfl
  | some s =>
      by_cases hi : idx = i
      · simp [hi, hf]
      · simp [hi]

theorem first_snoc (h : SitesHold calls [] sites) (c : ChannelSite) {s : StoredSite}
    (hs : s ∈ sites) : (calls ++ [c]).find? (·.key = s.site.key) = some s.site := by
  rw [List.find?_append, h.first s hs]
  rfl

/-- One more registration of a site that is stored. -/
theorem SitesHold.count (h : SitesHold calls [] sites) {c : ChannelSite}
    (hmem : c.key ∈ keysOf sites) :
    SitesHold (calls ++ [c]) []
      (sites.modify ((keysOf sites).idxOf c.key) fun s => { s with refs := s.refs + 1 }) := by
  have hkeys := keysOf_modify sites ((keysOf sites).idxOf c.key)
    (fun s => { s with refs := s.refs + 1 }) fun _ => rfl
  have hsites : ∀ s ∈ sites.modify ((keysOf sites).idxOf c.key)
      (fun s => { s with refs := s.refs + 1 }), ∃ s' ∈ sites, s.site = s'.site ∧
      s.refs = s'.refs + (if c.key = s'.site.key then 1 else 0) ∧ s.live = s'.live := by
    intro s hs
    obtain ⟨i, hi, rfl⟩ := List.getElem_of_mem hs
    have hi' : i < sites.length := by rwa [List.length_modify] at hi
    refine ⟨sites[i], List.getElem_mem hi', ?_⟩
    rw [List.getElem_modify]
    have hat := h.at_key (List.getElem?_eq_getElem hi') hmem
    by_cases hidx : (keysOf sites).idxOf c.key = i
    · rw [if_pos hidx, if_pos (hat.mp hidx).symm]
      exact ⟨rfl, rfl, rfl⟩
    · rw [if_neg hidx, if_neg fun heq => hidx (hat.mpr heq.symm)]
      exact ⟨rfl, rfl, rfl⟩
  refine ⟨by rw [hkeys]; exact h.nodup, ?_, ?_, ?_, ?_⟩
  · intro x hx
    rw [hkeys]
    rcases List.mem_append.mp hx with hx | hx
    · exact h.covers x hx
    · rw [List.mem_singleton.mp hx]
      exact hmem
  · intro s hs
    obtain ⟨s', hs', hsite, -, -⟩ := hsites s hs
    rw [hsite]
    exact first_snoc h c hs'
  · intro s hs
    obtain ⟨s', hs', hsite, hrefs, -⟩ := hsites s hs
    rw [hrefs, hsite, left_snoc, h.refs s' hs']
  · intro s hs
    obtain ⟨s', hs', -, hrefs, hlive⟩ := hsites s hs
    have hpos : 0 < s'.refs := (h.refs s' hs').symm ▸ h.left_pos hs'
    rw [hlive, h.live s' hs', hrefs, decide_eq_true hpos,
      decide_eq_true (Nat.add_pos_left hpos _)]

/-- The first registration of a site. -/
theorem SitesHold.push (h : SitesHold calls [] sites) {c : ChannelSite}
    (hmem : c.key ∉ keysOf sites) :
    SitesHold (calls ++ [c]) [] (sites ++ [{ site := c, refs := 1, live := true }]) := by
  have hkeys : keysOf (sites ++ [{ site := c, refs := 1, live := true }])
      = keysOf sites ++ [c.key] := by simp [keysOf]
  have hnew : ∀ x ∈ calls, x.key ≠ c.key := fun x hx heq => hmem (heq ▸ h.covers x hx)
  have hne : ∀ s ∈ sites, c.key ≠ s.site.key := fun s hs heq =>
    hmem (heq ▸ List.mem_map_of_mem hs)
  refine ⟨?_, ?_, ?_, ?_, ?_⟩
  · rw [hkeys]
    refine List.nodup_append.mpr ⟨h.nodup, List.nodup_singleton _, ?_⟩
    intro a ha b hb hab
    rw [List.mem_singleton.mp hb] at hab
    exact hmem (hab ▸ ha)
  · intro x hx
    rw [hkeys]
    rcases List.mem_append.mp hx with hx | hx
    · exact List.mem_append_left _ (h.covers x hx)
    · rw [List.mem_singleton.mp hx]
      exact List.mem_append_right _ List.mem_cons_self
  · intro s hs
    rcases List.mem_append.mp hs with hs | hs
    · exact first_snoc h c hs
    · rw [List.mem_singleton.mp hs, List.find?_append,
        List.find?_eq_none.mpr fun x hx => by simpa using hnew x hx]
      simp
  · intro s hs
    rw [left_snoc]
    rcases List.mem_append.mp hs with hs | hs
    · rw [h.refs s hs, if_neg (hne s hs), Nat.add_zero]
    · rw [List.mem_singleton.mp hs, if_pos rfl, left_nil,
        List.countP_eq_zero.mpr fun x hx => by simpa using hnew x hx]
  · intro s hs
    rcases List.mem_append.mp hs with hs | hs
    · exact h.live s hs
    · rw [List.mem_singleton.mp hs]
      rfl

/-- The TU map after a registration at the position its key has now. -/
theorem TusHold.snoc {keys keys' : List SiteKey} {byTu : UMap Str (List Nat)}
    (h : TusHold calls [] keys byTu) (hkeys : ∀ c ∈ calls, keys'.idxOf c.key = keys.idxOf c.key)
    (c : ChannelSite) :
    TusHold (calls ++ [c]) [] keys'
      (if c.tuPath ≠ [] then pushAt byTu c.tuPath (keys'.idxOf c.key) else byTu) := by
  intro t
  have hold : (calls.filter (·.tuPath = t)).map (fun c => keys'.idxOf c.key)
      = (calls.filter (·.tuPath = t)).map fun c => keys.idxOf c.key :=
    List.map_congr_left fun c hc => hkeys c (List.mem_of_mem_filter hc)
  rw [List.filter_append, List.map_append, hold]
  have ht := h t
  by_cases hc : c.tuPath = []
  · rw [if_neg (not_not_intro hc), ht]
    by_cases hnil : t = []
    · simp [hnil]
    · have hne : c.tuPath ≠ t := fun heq => hnil (heq ▸ hc)
      simp [hnil, hne]
  · rw [if_pos hc, pushAt, UMap.getD_upsert]
    by_cases heq : t = c.tuPath
    · subst heq
      rw [if_pos rfl, ht]
      simp [hc]
    · rw [if_neg heq, ht]
      have hne : c.tuPath ≠ t := fun h => heq h.symm
      simp [hne]

/-- A site without a TU path is listed under no TU. -/
theorem lookup_unnamed {byTu : UMap Str (List Nat)} (h : byTu.lookup [] = none) (t : Str)
    (idx : Nat) : (if t ≠ [] then pushAt byTu t idx else byTu).lookup [] = none := by
  split
  · rename_i ht
    rw [pushAt, UMap.lookup_upsert, if_neg (Ne.symm ht)]
    exact h
  · exact h

theorem Built.addSite (h : Built calls ch) (c : ChannelSite) :
    Built (calls ++ [c]) (ch.addSite c) := by
  have hlook := h.index c.key
  by_cases hmem : c.key ∈ keysOf ch.sites
  · rw [if_pos hmem] at hlook
    have hkeys := keysOf_modify ch.sites ((keysOf ch.sites).idxOf c.key)
      (fun s => { s with refs := s.refs + 1 }) fun _ => rfl
    have heq : ch.addSite c = { ch with
        sites := ch.sites.modify ((keysOf ch.sites).idxOf c.key) fun s =>
          { s with refs := s.refs + 1 }
        byTu := if c.tuPath ≠ [] then pushAt ch.byTu c.tuPath ((keysOf ch.sites).idxOf c.key)
          else ch.byTu } := by
      unfold ChannelIndex.addSite sitePos storeSite
      simp only [hlook, Option.getD_some]
      split <;> rfl
    rw [heq]
    refine ⟨⟨h.sites.count hmem, ?_⟩, ?_, lookup_unnamed h.unnamed _ _,
      h.liveCount.trans (List.length_modify _ _ _).symm⟩
    · show TusHold _ _ (keysOf (ch.sites.modify _ _)) _
      rw [hkeys]
      exact h.byTu.snoc (fun _ _ => rfl) c
    · show IndexHolds (keysOf (ch.sites.modify _ _)) _
      rw [hkeys]
      exact h.index
  · rw [if_neg hmem] at hlook
    have hkeys : keysOf (ch.appendSite c 1).sites = keysOf ch.sites ++ [c.key] := by
      simp [keysOf, appendSite]
    have hpos : (keysOf ch.sites ++ [c.key]).idxOf c.key = ch.sites.length := by
      rw [List.idxOf_append_of_notMem hmem]
      simp [keysOf]
    have heq : ch.addSite c = { ch.appendSite c 1 with
        byTu := if c.tuPath ≠ [] then
            pushAt ch.byTu c.tuPath ((keysOf ch.sites ++ [c.key]).idxOf c.key)
          else ch.byTu } := by
      rw [hpos]
      unfold ChannelIndex.addSite sitePos storeSite
      simp only [hlook, Option.getD_none]
      split <;> rfl
    rw [heq]
    refine ⟨⟨h.sites.push hmem, ?_⟩, ?_, lookup_unnamed h.unnamed _ _, ?_⟩
    · show TusHold _ _ (keysOf (ch.appendSite c 1).sites) _
      rw [hkeys]
      refine h.byTu.snoc (fun x hx => ?_) c
      exact List.idxOf_append_of_mem (h.sites.covers x hx)
    · show IndexHolds (keysOf (ch.appendSite c 1).sites) (ch.index.emplace c.key ch.sites.length)
      rw [hkeys]
      intro k
      rw [UMap.lookup_emplace, hlook]
      by_cases hk : k = c.key
      · rw [if_pos hk, hk, if_pos (by simp), hpos]
        rfl
      · rw [if_neg hk, h.index k]
        by_cases hin : k ∈ keysOf ch.sites
        · rw [if_pos hin, if_pos (List.mem_append_left _ hin), List.idxOf_append_of_mem hin]
        · rw [if_neg hin, if_neg (by simp [hin, hk])]
    · show ch.liveCount + 1 = (ch.sites ++ [_]).length
      rw [h.liveCount, List.length_append, List.length_singleton]

/-- **Registering a list of calls.** -/
theorem Built.addSites (h : Built calls ch) (more : List ChannelSite) :
    Built (calls ++ more) (more.foldl ChannelIndex.addSite ch) := by
  induction more generalizing calls ch with
  | nil => simpa using h
  | cons c rest ih =>
      have hrest := ih (h.addSite c)
      rwa [List.append_assoc, List.singleton_append] at hrest

/-! ### Removing -/

/-- A site after `n` of its registrations were released. -/
def drop (n : Nat) (s : StoredSite) : StoredSite :=
  { s with refs := s.refs - n, live := decide (0 < s.refs - n) }

/-- A site is live as long as it has registrations. -/
def LiveOK (sites : List StoredSite) : Prop := ∀ s ∈ sites, s.live = decide (0 < s.refs)

theorem drop_zero {s : StoredSite} (h : s.live = decide (0 < s.refs)) : drop 0 s = s := by
  unfold drop
  rw [Nat.sub_zero, ← h]

theorem modify_eq_set {α : Type*} {l : List α} {i : Nat} {a : α} (h : l[i]? = some a)
    (f : α → α) : l.modify i f = l.set i (f a) := by
  obtain ⟨hlt, rfl⟩ := List.getElem?_eq_some_iff.mp h
  refine List.ext_getElem? fun j => ?_
  rw [List.getElem?_modify, List.getElem?_set]
  by_cases hij : i = j
  · subst hij
    simp [hlt]
  · simp [hij]

/-- Releasing a site by one: its position, and no TU's list, changes. -/
theorem releaseSite_sites {r : Release} (h : LiveOK r.ch.sites) (idx : Nat) :
    (releaseSite r idx).ch.sites = r.ch.sites.modify idx (drop 1) ∧
      (releaseSite r idx).ch.byTu = r.ch.byTu := by
  unfold releaseSite
  cases hidx : r.ch.sites[idx]? with
  | none => exact ⟨(List.modify_eq_self (List.getElem?_eq_none_iff.mp hidx)).symm, rfl⟩
  | some se =>
      have hlive := h se (List.mem_of_getElem? hidx)
      rw [modify_eq_set hidx]
      dsimp only
      split
      · -- a tombstone is left alone, and a further drop would not change it
        rename_i hzero
        have hself : drop 1 se = se := by
          cases se
          simp_all [drop]
        rw [hself]
        obtain ⟨hlt, rfl⟩ := List.getElem?_eq_some_iff.mp hidx
        exact ⟨(List.set_getElem_self hlt).symm, rfl⟩
      · rename_i hne
        split
        · rename_i hpos
          rw [decide_eq_true (Nat.pos_of_ne_zero hne)] at hlive
          refine ⟨?_, rfl⟩
          unfold drop
          rw [decide_eq_true hpos, ← hlive]
        · rename_i hnot
          refine ⟨?_, rfl⟩
          unfold drop
          rw [decide_eq_false hnot]

theorem drop_drop (m n : Nat) (s : StoredSite) : drop m (drop n s) = drop (n + m) s := by
  simp [drop, Nat.sub_sub]

theorem liveOK_modify {sites : List StoredSite} (h : LiveOK sites) (idx n : Nat) :
    LiveOK (sites.modify idx (drop n)) := by
  intro s hs
  obtain ⟨i, hi, rfl⟩ := List.getElem_of_mem hs
  have hi' : i < sites.length := by rwa [List.length_modify] at hi
  rw [List.getElem_modify]
  split
  · rfl
  · exact h _ (List.getElem_mem hi')

/-- Releasing a list of positions drops each site as often as it is listed. -/
theorem releaseSites_sites (idxs : List Nat) :
    ∀ {r : Release}, LiveOK r.ch.sites →
      LiveOK (idxs.foldl releaseSite r).ch.sites ∧
      (idxs.foldl releaseSite r).ch.byTu = r.ch.byTu ∧
      ∀ i, (idxs.foldl releaseSite r).ch.sites[i]?
        = (r.ch.sites[i]?).map (drop (idxs.count i)) := by
  induction idxs with
  | nil =>
      intro r h
      refine ⟨h, rfl, ?_⟩
      intro i
      cases hi : r.ch.sites[i]? with
      | none => simp [hi]
      | some s => simp [hi, drop_zero (h s (List.mem_of_getElem? hi))]
  | cons idx rest ih =>
      intro r h
      obtain ⟨hsites, hbyTu⟩ := releaseSite_sites h idx
      have hlive : LiveOK (releaseSite r idx).ch.sites := hsites ▸ liveOK_modify h idx 1
      obtain ⟨h₁, h₂, h₃⟩ := ih hlive
      refine ⟨h₁, h₂.trans hbyTu, ?_⟩
      intro i
      rw [List.foldl_cons, h₃ i, hsites, List.getElem?_modify, List.count_cons]
      cases hi : r.ch.sites[i]? with
      | none => rfl
      | some s =>
          by_cases hidx : idx = i
          · subst hidx
            simp [drop_drop, Nat.add_comm]
          · simp [hidx]

theorem keysOf_eq {sites sites' : List StoredSite} {f : Nat → StoredSite → StoredSite}
    (h : ∀ i, sites'[i]? = (sites[i]?).map (f i)) (hf : ∀ i s, (f i s).site = s.site) :
    keysOf sites' = keysOf sites := by
  refine List.ext_getElem? fun i => ?_
  rw [keysOf, keysOf, List.getElem?_map, List.getElem?_map, h i]
  cases sites[i]? with
  | none => rfl
  | some s => simp [hf]

/-- What a TU leaves behind of a site's registrations. -/
theorem left_remove {t : Str} (ht : t ≠ []) (hnew : t ∉ removed) (calls : List ChannelSite)
    (k : SiteKey) :
    left calls removed k - ((calls.filter (·.tuPath = t)).countP fun c => c.key = k)
      = left calls (t :: removed) k := by
  have hsplit : left calls removed k = left calls (t :: removed) k
      + (calls.filter (·.tuPath = t)).countP fun c => c.key = k := by
    unfold left
    induction calls with
    | nil => rfl
    | cons c rest ih =>
        rw [List.countP_cons, List.countP_cons, ih, List.filter_cons]
        by_cases htu : c.tuPath = t
        · have hkept : Kept removed c := Or.inr (htu ▸ hnew)
          have hgone : ¬ Kept (t :: removed) c := by
            rintro (h | h)
            · exact ht (htu ▸ h)
            · exact h (htu ▸ List.mem_cons_self)
          simp only [htu, hkept, hgone, decide_true, if_true, List.countP_cons, and_true,
            and_false, decide_false, Bool.false_eq_true, if_false]
          omega
        · have hsame : Kept (t :: removed) c ↔ Kept removed c := by
            unfold Kept
            simp [htu]
          simp only [htu, hsame, decide_false, Bool.false_eq_true, if_false]
          omega
  omega

/-- A TU that is not listed leaves every site as it is. -/
theorem left_gone {t : Str} (h : t = [] ∨ t ∈ removed) (calls : List ChannelSite) (k : SiteKey) :
    left calls (t :: removed) k = left calls removed k := by
  unfold left
  refine List.countP_congr fun c _ => ?_
  have hsame : Kept (t :: removed) c ↔ Kept removed c := by
    unfold Kept
    rw [List.mem_cons, not_or]
    rcases h with rfl | h
    · tauto
    · constructor
      · tauto
      · rintro (hc | hc)
        · exact Or.inl hc
        · exact Or.inr ⟨fun heq => hc (heq ▸ h), hc⟩
  simp [hsame]

/-- How often a position is listed under a TU. -/
theorem SitesHold.count_listed (h : SitesHold calls removed sites) {i : Nat} {s : StoredSite}
    (hi : sites[i]? = some s) (t : Str) :
    ((calls.filter (·.tuPath = t)).map fun c => (keysOf sites).idxOf c.key).count i
      = (calls.filter (·.tuPath = t)).countP fun c => c.key = s.site.key := by
  rw [List.count, List.countP_map]
  refine List.countP_congr fun c hc => ?_
  have hat := h.at_key hi (h.covers c (List.mem_of_mem_filter hc))
  simp only [Function.comp_apply, beq_iff_eq, decide_eq_true_eq]
  rw [hat, eq_comm]

/-- **Releasing a TU takes its registrations and no others.** -/
theorem Holds.releaseTU {r : Release} (h : Holds calls removed r.ch) (t : Str) :
    Holds calls (t :: removed) (releaseTU r t).ch := by
  have hlisted := h.byTu t
  obtain ⟨hlive, hbyTu, hsites⟩ := releaseSites_sites (r.ch.byTu.getD t []) (r := r) h.sites.live
  have hkeys := keysOf_eq hsites fun _ _ => rfl
  -- what is released of a site is what the TU registered
  have hleft : ∀ i s, r.ch.sites[i]? = some s →
      s.refs - (r.ch.byTu.getD t []).count i = left calls (t :: removed) s.site.key := by
    intro i s hi
    rw [h.sites.refs s (List.mem_of_getElem? hi), hlisted]
    by_cases hgone : t = [] ∨ t ∈ removed
    · rw [if_pos hgone, left_gone hgone]
      simp
    · rw [if_neg hgone, h.sites.count_listed hi]
      rw [not_or] at hgone
      exact left_remove hgone.1 hgone.2 calls s.site.key
  have hheld : SitesHold calls (t :: removed)
      ((r.ch.byTu.getD t []).foldl releaseSite r).ch.sites := by
    refine ⟨hkeys ▸ h.sites.nodup, fun c hc => hkeys ▸ h.sites.covers c hc, ?_, ?_, hlive⟩
    · intro s hs
      obtain ⟨i, hi⟩ := List.mem_iff_getElem?.mp hs
      rw [hsites i] at hi
      obtain ⟨s', hs', rfl⟩ := Option.map_eq_some_iff.mp hi
      exact h.sites.first s' (List.mem_of_getElem? hs')
    · intro s hs
      obtain ⟨i, hi⟩ := List.mem_iff_getElem?.mp hs
      rw [hsites i] at hi
      obtain ⟨s', hs', rfl⟩ := Option.map_eq_some_iff.mp hi
      exact hleft i s' hs'
  have herased : TusHold calls (t :: removed) (keysOf r.ch.sites) (r.ch.byTu.erase t) := by
    intro t'
    rw [UMap.getD_erase, h.byTu t']
    by_cases ht' : t' = t
    · rw [if_pos ht', if_pos (Or.inr (by rw [ht']; exact List.mem_cons_self))]
    · rw [if_neg ht']
      simp [ht']
  unfold ChannelIndex.releaseTU
  cases hl : r.ch.byTu.lookup t with
  | none =>
      have hnil : r.ch.byTu.getD t [] = [] := by
        unfold UMap.getD
        rw [hl]
        rfl
      rw [hnil, List.foldl_nil] at hheld
      have hsame : r.ch.byTu.erase t = r.ch.byTu := by
        refine AList.ext ?_
        exact List.kerase_of_notMem_keys (AList.lookup_eq_none.mp hl)
      rw [hsame] at herased
      exact ⟨hheld, herased⟩
  | some idxs =>
      have hget : r.ch.byTu.getD t [] = idxs := by
        unfold UMap.getD
        rw [hl]
        rfl
      rw [hget] at hheld hkeys hbyTu
      refine ⟨hheld, ?_⟩
      show TusHold _ _ (keysOf (idxs.foldl releaseSite r).ch.sites)
        ((idxs.foldl releaseSite r).ch.byTu.erase t)
      rw [hkeys, hbyTu]
      exact herased

theorem Kept.congr {removed removed' : List Str} (h : ∀ t, t ∈ removed ↔ t ∈ removed')
    (c : ChannelSite) : Kept removed c ↔ Kept removed' c := by
  unfold Kept
  rw [h]

theorem Holds.congr {removed' : List Str} (h : Holds calls removed ch)
    (heq : ∀ t, t ∈ removed ↔ t ∈ removed') : Holds calls removed' ch := by
  refine ⟨{ h.sites with refs := ?_ }, ?_⟩
  · intro s hs
    rw [h.sites.refs s hs]
    refine List.countP_congr fun c _ => ?_
    simp [Kept.congr heq c]
  · intro t
    rw [h.byTu t]
    simp only [heq]

theorem Holds.removeTUs (h : Holds calls removed ch) (tus : List Str) :
    Holds calls (removed ++ tus) (ch.removeTUs tus).1 := by
  have hfold : ∀ (tus : List Str) {removed : List Str} {r : Release}, Holds calls removed r.ch →
      Holds calls (removed ++ tus) (tus.foldl ChannelIndex.releaseTU r).ch := by
    intro tus
    induction tus with
    | nil =>
        intro removed r h
        rw [List.append_nil]
        exact h
    | cons t rest ih =>
        intro removed r h
        refine (ih (h.releaseTU t)).congr fun t' => ?_
        simp only [List.mem_append, List.mem_cons]
        tauto
  exact ⟨(hfold tus (r := { ch }) h).sites, (hfold tus (r := { ch }) h).byTu⟩

/-- The index after several removals, one after the other. -/
def afterRemovals (ch : ChannelIndex) (removals : List (List Str)) : ChannelIndex :=
  removals.foldl (fun ch tus => (ch.removeTUs tus).1) ch

theorem Holds.afterRemovals (removals : List (List Str)) :
    ∀ {removed : List Str} {ch : ChannelIndex}, Holds calls removed ch →
      Holds calls (removed ++ removals.flatten) (ch.afterRemovals removals) := by
  unfold ChannelIndex.afterRemovals
  induction removals with
  | nil =>
      intro removed ch h
      rw [List.flatten_nil, List.append_nil]
      exact h
  | cons tus rest ih =>
      intro removed ch h
      have hrest := ih (h.removeTUs tus)
      rwa [List.append_assoc, ← List.flatten_cons] at hrest

/-! ### The live sites -/

/-- **The live sites of an index are the registered ones that a TU still contributes**, each
as it was first registered. -/
theorem Holds.mem_allSites (h : Holds calls removed ch) (s : ChannelSite) :
    s ∈ ch.allSites ↔ calls.find? (·.key = s.key) = some s ∧
      ∃ c ∈ calls, c.key = s.key ∧ Kept removed c := by
  have hleft : ∀ k, 0 < left calls removed k ↔ ∃ c ∈ calls, c.key = k ∧ Kept removed c := by
    intro k
    unfold left
    rw [List.countP_pos_iff]
    simp
  unfold allSites
  rw [List.mem_map]
  constructor
  · rintro ⟨stored, hstored, rfl⟩
    obtain ⟨hmem, hlive⟩ := List.mem_filter.mp hstored
    have hpos := of_decide_eq_true ((h.sites.live stored hmem).symm.trans hlive)
    rw [h.sites.refs stored hmem] at hpos
    exact ⟨h.sites.first stored hmem, (hleft _).mp hpos⟩
  · rintro ⟨hfind, hkept⟩
    obtain ⟨stored, hmem, hkey⟩ := List.mem_map.mp (h.sites.covers s (List.mem_of_find?_eq_some hfind))
    have hfirst := h.sites.first stored hmem
    rw [hkey, hfind] at hfirst
    injection hfirst with hfirst
    refine ⟨stored, List.mem_filter.mpr ⟨hmem, ?_⟩, hfirst.symm⟩
    rw [h.sites.live stored hmem, h.sites.refs stored hmem, hkey]
    exact decide_eq_true ((hleft _).mpr hkept)

end ChannelIndex

end Vycor
