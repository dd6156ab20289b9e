/-
The maps of the channel index list exactly its live sites.

The counterpart of `ContextPositions` for sites that are counted.  A site is live as long as
it has registrations; the three maps of the queries list the live sites of a key in order
and drop an entry that runs empty, and the index knows the live site of every key, of which
there is one.  The TU lists take no part: what a removal releases is whatever they say.
-/
import Vycor.Lib.Postings
import Vycor.Proofs.ChannelSites
import Vycor.Proofs.EdgeTable

namespace Vycor

open UMap Postings

namespace ChannelIndex

variable {ch : ChannelIndex} {sites sites' : List StoredSite}

/-! ### What a map lists

The maps are specified by the predicate of the sites they list, as in
Lib/Postings.
-/

/-- The live sites that satisfy a predicate. -/
def held (p : ChannelSite → Bool) (s : StoredSite) : Bool := s.live && p s.site

/-- Live, and on the channel. -/
def atChannel (k : Str) : StoredSite → Bool := held fun s => s.channelId = k

/-- Live, and in the function of that usr. -/
def atUsr (k : Str) : StoredSite → Bool := held fun s => s.siteFunctionUsr = k

/-- The display map lists the sites whose function's display name is not the usr. -/
def atDisplay (k : Str) : StoredSite → Bool :=
  held fun s => s.siteFunctionDisplay ≠ s.siteFunctionUsr && s.siteFunctionDisplay = k

/-- The index finds the live site of a key and nothing else. -/
def Indexed (sites : List StoredSite) (index : UMap SiteKey Nat) : Prop :=
  ∀ k i, index.lookup k = some i ↔ ∃ s, sites[i]? = some s ∧ s.live = true ∧ s.site.key = k

/-- The lists of positions stand for the stored sites. -/
structure Listed (ch : ChannelIndex) : Prop where
  live : LiveOK ch.sites
  byChannel : Files ch.sites atChannel ch.byChannel
  byFunctionUsr : Files ch.sites atUsr ch.byFunctionUsr
  byFunctionDisplay : Files ch.sites atDisplay ch.byFunctionDisplay
  channels : NoneEmpty ch.byChannel
  usrs : NoneEmpty ch.byFunctionUsr
  displays : NoneEmpty ch.byFunctionDisplay
  index : Indexed ch.sites ch.index
  liveCount : ch.liveCount = (ch.sites.filter (·.live)).length

theorem listed_empty : Listed {} :=
  ⟨fun _ hs => absurd hs List.not_mem_nil, files_empty _, files_empty _, files_empty _,
    noneEmpty_empty, noneEmpty_empty, noneEmpty_empty, fun k i => by simp, rfl⟩

/-! ### Registering -/

theorem Listed.appendSite (h : ch.Listed) {site : ChannelSite}
    (hnew : ch.index.lookup site.key = none) {refs : Nat} (hrefs : 0 < refs) :
    (ch.appendSite site refs).Listed := by
  refine
    { live := ?_
      byChannel := h.byChannel.push fun k => by simp [atChannel, held, eq_comm]
      byFunctionUsr := h.byFunctionUsr.push fun k => by simp [atUsr, held, eq_comm]
      byFunctionDisplay := ?_
      channels := h.channels.push _ _
      usrs := h.usrs.push _ _
      displays := ?_
      index := ?_
      liveCount := ?_ }
  · intro s hs
    rcases List.mem_append.mp hs with hs | hs
    · exact h.live s hs
    · rw [List.mem_singleton.mp hs]
      exact (decide_eq_true hrefs).symm
  · show Files _ _ (if _ then _ else _)
    split
    · rename_i hne
      exact h.byFunctionDisplay.push fun k => by simp [atDisplay, held, hne, eq_comm]
    · rename_i heq
      exact h.byFunctionDisplay.skip fun k => by simp [atDisplay, held] at heq ⊢; simp [heq]
  · show NoneEmpty (if _ then _ else _)
    split
    · exact h.displays.push _ _
    · exact h.displays
  · intro k i
    show AList.lookup k (ch.index.emplace site.key ch.sites.length) = some i ↔ _
    rw [lookup_emplace, hnew]
    have hat : ∀ s, (ch.appendSite site refs).sites[i]? = some s
        ↔ ch.sites[i]? = some s ∨ (i = ch.sites.length ∧ s = ⟨site, refs, true⟩) :=
      fun s => CallGraph.getElem?_concat _ _ _ _
    simp only [hat]
    split
    · rename_i hk
      subst hk
      constructor
      · intro hi
        exact ⟨_, Or.inr ⟨by simpa using hi.symm, rfl⟩, rfl, rfl⟩
      · rintro ⟨s, hs | ⟨hi, rfl⟩, hlive, hkey⟩
        · have hfound := (h.index site.key i).mpr ⟨s, hs, hlive, hkey⟩
          rw [hnew] at hfound
          exact absurd hfound (by simp)
        · simp [hi]
    · rename_i hk
      rw [h.index]
      refine exists_congr fun s => ⟨fun ⟨hs, hrest⟩ => ⟨Or.inl hs, hrest⟩, ?_⟩
      rintro ⟨hs | ⟨-, rfl⟩, hlive, hkey⟩
      · exact ⟨hs, hlive, hkey⟩
      · exact absurd hkey.symm hk
  · show ch.liveCount + 1 = ((ch.sites ++ [_]).filter _).length
    rw [List.filter_append, List.length_append, ← h.liveCount]
    rfl

/-- Sites that differ only in how often they are registered. -/
theorem Listed.recount (h : ch.Listed) (hlive : LiveOK sites)
    (hsame : ∀ i : Nat, (sites[i]?).map (fun s => (s.site, s.live))
      = (ch.sites[i]?).map fun s => (s.site, s.live)) :
    Listed { ch with sites := sites } := by
  have hlen : sites.length = ch.sites.length := by
    have hat : ∀ i : Nat, sites[i]? = none ↔ ch.sites[i]? = none := by
      intro i
      have hi := hsame i
      constructor
      · intro hnone
        rw [hnone] at hi
        exact Option.map_eq_none_iff.mp hi.symm
      · intro hnone
        rw [hnone] at hi
        exact Option.map_eq_none_iff.mp hi
    simp only [List.getElem?_eq_none_iff] at hat
    exact Nat.le_antisymm ((hat _).mpr (Nat.le_refl _)) ((hat _).mp (Nat.le_refl _))
  have hany (p : ChannelSite → Bool) (i : Nat) :
      (sites[i]?).any (held p) = (ch.sites[i]?).any (held p) := by
    have hi := hsame i
    cases h₁ : sites[i]? <;> cases h₂ : ch.sites[i]? <;> simp_all [held]
  have hfiles {file : Str → ChannelSite → Bool} {m : UMap Str (List Nat)}
      (hm : Files ch.sites (fun k => held (file k)) m) :
      Files sites (fun k => held (file k)) m := by
    intro k
    rw [positions_congr hlen (hany (file k))]
    exact hm k
  refine ⟨hlive, hfiles h.byChannel, hfiles h.byFunctionUsr, hfiles h.byFunctionDisplay,
    h.channels, h.usrs, h.displays, ?_, ?_⟩
  · intro k i
    rw [h.index]
    have hi := hsame i
    cases h₁ : sites[i]? <;> cases h₂ : ch.sites[i]? <;> simp_all
  · show ch.liveCount = (sites.filter (·.live)).length
    have hheld : ∀ l : List StoredSite, l.filter (·.live) = l.filter (held fun _ => true) := by
      intro l
      exact List.filter_congr fun s _ => by simp [held]
    rw [h.liveCount, hheld, hheld, ← length_positions, ← length_positions,
      positions_congr hlen (hany fun _ => true)]

theorem Listed.addSite (h : ch.Listed) (site : ChannelSite) : (ch.addSite site).Listed := by
  have hstore : (ch.storeSite site).Listed := by
    unfold ChannelIndex.storeSite
    cases hl : ch.index.lookup site.key with
    | none => exact h.appendSite hl Nat.zero_lt_one
    | some idx =>
        obtain ⟨s, hs, hlive, -⟩ := (h.index site.key idx).mp hl
        refine h.recount ?_ ?_
        · intro x hx
          obtain ⟨i, hi⟩ := List.mem_iff_getElem?.mp hx
          rw [List.getElem?_modify] at hi
          obtain ⟨y, hy, hxy⟩ := Option.map_eq_some_iff.mp hi
          have hyl := h.live y (List.mem_of_getElem? hy)
          by_cases hidx : idx = i
          · subst hidx
            rw [if_pos rfl] at hxy
            rw [hs] at hy
            injection hy with hy
            subst hy
            rw [← hxy]
            simpa using hlive
          · rw [if_neg hidx] at hxy
            rw [← hxy]
            exact hyl
        · intro i
          rw [List.getElem?_modify]
          cases ch.sites[i]? with
          | none => rfl
          | some x => by_cases hidx : idx = i <;> simp [hidx]
  unfold ChannelIndex.addSite
  dsimp only
  split
  · exact ⟨hstore.live, hstore.byChannel, hstore.byFunctionUsr, hstore.byFunctionDisplay,
      hstore.channels, hstore.usrs, hstore.displays, hstore.index, hstore.liveCount⟩
  · exact hstore

theorem Listed.absorb (h : ch.Listed) (shard : ChannelIndex) : (ch.absorb shard).Listed := by
  unfold ChannelIndex.absorb
  refine List.foldlRecOn _ _ h ?_
  intro ch' h' stored _
  exact List.foldlRecOn _ _ h' fun _ h'' site _ => h''.addSite site

/-! ### Releasing

The rows are worked on first and the maps are scrubbed afterwards. In between
the maps still list what has died, which is what the invariant of the first pass
has to allow.
-/

/-- The position holds a live site. -/
def liveAtPos (sites : List StoredSite) (i : Nat) : Bool := (sites[i]?).any (·.live)

/-- The first pass of a removal: what it has buried is noted, and the maps still list it. -/
structure Releasing (ch : ChannelIndex) (r : Release) : Prop where
  live : LiveOK r.ch.sites
  site : ∀ i : Nat, (r.ch.sites[i]?).map (·.site) = (ch.sites[i]?).map (·.site)
  stays : ∀ i, liveAtPos r.ch.sites i = (liveAtPos ch.sites i && decide (i ∉ r.dead))
  wasLive : ∀ i ∈ r.dead, liveAtPos ch.sites i = true
  nodup : r.dead.Nodup
  removed : r.removed = r.dead.length
  index : Indexed r.ch.sites r.ch.index
  liveCount : r.ch.liveCount = ch.liveCount - r.dead.length
  byChannel : r.ch.byChannel = ch.byChannel
  byFunctionUsr : r.ch.byFunctionUsr = ch.byFunctionUsr
  byFunctionDisplay : r.ch.byFunctionDisplay = ch.byFunctionDisplay
  affected : ∀ i ∈ r.dead, ∀ s, ch.sites[i]? = some s →
    s.site.channelId ∈ r.affectedChannels ∧ s.site.siteFunctionUsr ∈ r.affectedFuncUsr ∧
      (s.site.siteFunctionDisplay ≠ s.site.siteFunctionUsr →
        s.site.siteFunctionDisplay ∈ r.affectedFuncDisplay)

theorem Listed.releasing (h : ch.Listed) : Releasing ch { ch } where
  live := h.live
  site _ := rfl
  stays _ := by simp
  wasLive _ hi := absurd hi List.not_mem_nil
  nodup := List.nodup_nil
  removed := rfl
  index := h.index
  liveCount := rfl
  byChannel := rfl
  byFunctionUsr := rfl
  byFunctionDisplay := rfl
  affected _ hi := absurd hi List.not_mem_nil

theorem liveAtPos_set {idx : Nat} (hlt : idx < sites.length) (s' : StoredSite) (i : Nat) :
    liveAtPos (sites.set idx s') i = if idx = i then s'.live else liveAtPos sites i := by
  unfold liveAtPos
  rw [List.getElem?_set]
  by_cases hi : idx = i
  · subst hi
    simp [hlt]
  · simp [hi]

theorem site_set {idx : Nat} {se s' : StoredSite} (hidx : sites[idx]? = some se)
    (hsite : s'.site = se.site) (i : Nat) :
    ((sites.set idx s')[i]?).map (·.site) = (sites[i]?).map (·.site) := by
  obtain ⟨hlt, hget⟩ := List.getElem?_eq_some_iff.mp hidx
  rw [List.getElem?_set]
  by_cases hi : idx = i
  · subst hi
    simp [hlt, hget, hsite]
  · simp [hi]

/-- A site that stays live keeps its entry. -/
theorem Indexed.keep {index : UMap SiteKey Nat} (h : Indexed sites index) {idx : Nat}
    {se s' : StoredSite} (hidx : sites[idx]? = some se) (hsite : s'.site = se.site)
    (hlive : s'.live = se.live) : Indexed (sites.set idx s') index := by
  obtain ⟨hlt, hget⟩ := List.getElem?_eq_some_iff.mp hidx
  intro k i
  rw [h, List.getElem?_set]
  by_cases hi : idx = i
  · subst hi
    simp [hlt, hget, hsite, hlive]
  · simp [hi]

/-- A site that dies takes its entry along. -/
theorem Indexed.bury {index : UMap SiteKey Nat} (h : Indexed sites index) {idx : Nat}
    {se s' : StoredSite} (hidx : sites[idx]? = some se) (hlive : se.live = true)
    (hdead : s'.live = false) : Indexed (sites.set idx s') (index.erase se.site.key) := by
  obtain ⟨hlt, -⟩ := List.getElem?_eq_some_iff.mp hidx
  have hown := (h se.site.key idx).mpr ⟨se, hidx, hlive, rfl⟩
  intro k i
  rw [lookup_erase_ite, List.getElem?_set]
  by_cases hi : idx = i
  · subst hi
    simp only [if_true, hlt, Option.some.injEq, exists_eq_left', hdead, Bool.false_eq_true,
      false_and, iff_false]
    intro hk
    split at hk
    · simp at hk
    · rename_i hne
      obtain ⟨s, hs, -, hkey⟩ := (h k idx).mp hk
      rw [hidx] at hs
      injection hs with hs
      rw [← hs] at hkey
      exact hne hkey.symm
  · rw [if_neg hi]
    split
    · rename_i hk
      -- another live site under this key would be indexed in its place
      simp only [reduceCtorEq, false_iff, not_exists]
      rintro s ⟨hs, hl, hkey⟩
      have hother := (h k i).mpr ⟨s, hs, hl, hkey⟩
      rw [hk, hown] at hother
      exact hi (Option.some.inj hother)
    · exact h k i

/-- Releasing one registration: the site goes with its last. -/
theorem Releasing.releaseSite {r : Release} (h : Releasing ch r) (idx : Nat) :
    Releasing ch (releaseSite r idx) := by
  have hlive : LiveOK (ChannelIndex.releaseSite r idx).ch.sites := by
    rw [(releaseSite_sites h.live idx).1]
    exact liveOK_modify h.live idx 1
  revert hlive
  unfold ChannelIndex.releaseSite
  cases hidx : r.ch.sites[idx]? with
  | none => exact fun _ => h
  | some se =>
      have hse := h.live se (List.mem_of_getElem? hidx)
      obtain ⟨hlt, -⟩ := List.getElem?_eq_some_iff.mp hidx
      dsimp only
      split
      · exact fun _ => h
      · rename_i hne
        have hlivese : se.live = true := by
          rw [hse]
          exact decide_eq_true (Nat.pos_of_ne_zero hne)
        have hsite (s' : StoredSite) (hs' : s'.site = se.site) (i : Nat) :
            ((r.ch.sites.set idx s')[i]?).map (·.site) = (ch.sites[i]?).map (·.site) :=
          (site_set hidx hs' i).trans (h.site i)
        have hat : liveAtPos r.ch.sites idx = true := by
          unfold liveAtPos
          rw [hidx]
          exact hlivese
        split
        · -- other contributors remain
          intro hlive
          refine { h with live := hlive, site := hsite _ rfl, stays := ?_, index := ?_ }
          · intro i
            show liveAtPos (r.ch.sites.set idx _) i = _
            rw [liveAtPos_set hlt, ← h.stays i]
            split
            · rename_i hi
              rw [← hi, hat]
              exact hlivese
            · rfl
          · exact h.index.keep hidx rfl rfl
        · -- the site's last registration
          intro hlive
          have hstood := h.stays idx
          rw [hat] at hstood
          have hnot : idx ∉ r.dead := by
            intro hd
            simp [hd] at hstood
          have hwas : liveAtPos ch.sites idx = true := by simpa [hnot] using hstood.symm
          refine
            { live := hlive
              site := hsite _ rfl
              stays := ?_
              wasLive := List.forall_mem_cons.mpr ⟨hwas, h.wasLive⟩
              nodup := List.nodup_cons.mpr ⟨hnot, h.nodup⟩
              removed := by simp [h.removed]
              index := h.index.bury hidx hlivese rfl
              liveCount := by
                show r.ch.liveCount - 1 = _
                rw [h.liveCount, List.length_cons]
                omega
              byChannel := h.byChannel
              byFunctionUsr := h.byFunctionUsr
              byFunctionDisplay := h.byFunctionDisplay
              affected := ?_ }
          · intro i
            show liveAtPos (r.ch.sites.set idx _) i = _
            rw [liveAtPos_set hlt, h.stays]
            by_cases hi : idx = i
            · subst hi
              simp
            · have hi' : ¬ i = idx := fun hc => hi hc.symm
              simp [hi, hi']
          · intro i hi s hs
            have hsame := h.site i
            rcases List.mem_cons.mp hi with rfl | hi
            · rw [hidx, hs] at hsame
              have hsite' : se.site = s.site := by simpa using hsame
              rw [← hsite']
              refine ⟨List.mem_cons_self, List.mem_cons_self, ?_⟩
              intro hdiff
              dsimp only
              rw [if_pos hdiff]
              exact List.mem_cons_self
            · obtain ⟨hc, hu, hd⟩ := h.affected i hi s hs
              refine ⟨List.mem_cons_of_mem _ hc, List.mem_cons_of_mem _ hu, ?_⟩
              intro hdiff
              dsimp only
              split
              · exact List.mem_cons_of_mem _ (hd hdiff)
              · exact hd hdiff

theorem Releasing.releaseTU {r : Release} (h : Releasing ch r) (t : Str) :
    Releasing ch (releaseTU r t) := by
  unfold ChannelIndex.releaseTU
  split
  · exact h
  · rename_i idxs _
    have hrun : Releasing ch (idxs.foldl ChannelIndex.releaseSite r) :=
      List.foldlRecOn idxs _ h fun _ hr idx _ => hr.releaseSite idx
    exact ⟨hrun.live, hrun.site, hrun.stays, hrun.wasLive, hrun.nodup, hrun.removed, hrun.index,
      hrun.liveCount, hrun.byChannel, hrun.byFunctionUsr, hrun.byFunctionDisplay, hrun.affected⟩

theorem Listed.released (h : ch.Listed) (tus : List Str) :
    Releasing ch (tus.foldl ChannelIndex.releaseTU { ch }) :=
  List.foldlRecOn tus _ h.releasing fun _ hr t _ => hr.releaseTU t

/-- **After a removal the maps list what is left**, and the sites that went are counted. -/
theorem Listed.removeTUs (h : ch.Listed) (tus : List Str) :
    (ch.removeTUs tus).1.Listed ∧
      (ch.removeTUs tus).2 + (ch.removeTUs tus).1.liveCount = ch.liveCount := by
  have hr := h.released tus
  unfold ChannelIndex.removeTUs
  dsimp only
  generalize tus.foldl ChannelIndex.releaseTU { ch } = r at hr ⊢
  have hlen : r.ch.sites.length = ch.sites.length := by
    have hat : ∀ i : Nat, r.ch.sites[i]? = none ↔ ch.sites[i]? = none := by
      intro i
      rw [← Option.map_eq_none_iff (f := (·.site)), hr.site, Option.map_eq_none_iff]
    simp only [List.getElem?_eq_none_iff] at hat
    exact Nat.le_antisymm ((hat _).mpr (Nat.le_refl _)) ((hat _).mp (Nat.le_refl _))
  have hany (p : ChannelSite → Bool) (i : Nat) : (r.ch.sites[i]?).any (held p)
      = ((ch.sites[i]?).any (held p) && decide (i ∉ r.dead)) := by
    have hs := hr.site i
    have hl := hr.stays i
    unfold liveAtPos at hl
    cases h₁ : r.ch.sites[i]? with
    | none =>
        rw [h₁] at hs
        have h₂ : ch.sites[i]? = none := Option.map_eq_none_iff.mp hs.symm
        rw [h₂]
        rfl
    | some s =>
        rw [h₁] at hs hl
        obtain ⟨s', hs', hsite⟩ := Option.map_eq_some_iff.mp hs.symm
        rw [hs'] at hl ⊢
        simp only [Option.any_some] at hl
        simp only [Option.any_some, held, hl, hsite]
        cases s'.live <;> simp [Bool.and_comm]
  have hdead : ∀ i ∈ r.dead, i ∈ positions ch.sites (held fun _ => true) := by
    intro i hi
    have hw := hr.wasLive i hi
    unfold liveAtPos at hw
    obtain ⟨s, hs, hl⟩ := (Option.any_eq_true _ _).mp hw
    exact mem_positions.mpr ⟨s, hs, by simp [held, hl]⟩
  have hheld : ∀ l : List StoredSite, (l.filter (·.live)).length
      = (positions l (held fun _ => true)).length := by
    intro l
    rw [length_positions]
    congr 1
    exact List.filter_congr fun s _ => by simp [held]
  have hcount := length_positions_drop hlen (hany fun _ => true) hr.nodup hdead
  rw [← hheld, ← hheld, ← h.liveCount] at hcount
  refine ⟨?_, ?_⟩
  · exact
      { live := hr.live
        byChannel := by
          show Files r.ch.sites atChannel (Postings.scrubErase r.ch.byChannel _ _)
          rw [hr.byChannel]
          refine h.byChannel.scrubErase hlen (fun k => hany _) ?_
          intro k i hi hpos
          obtain ⟨s, hs, hat⟩ := mem_positions.mp hpos
          simp only [atChannel, held, Bool.and_eq_true, decide_eq_true_eq] at hat
          exact hat.2 ▸ (hr.affected i hi s hs).1
        byFunctionUsr := by
          show Files r.ch.sites atUsr (Postings.scrubErase r.ch.byFunctionUsr _ _)
          rw [hr.byFunctionUsr]
          refine h.byFunctionUsr.scrubErase hlen (fun k => hany _) ?_
          intro k i hi hpos
          obtain ⟨s, hs, hat⟩ := mem_positions.mp hpos
          simp only [atUsr, held, Bool.and_eq_true, decide_eq_true_eq] at hat
          exact hat.2 ▸ (hr.affected i hi s hs).2.1
        byFunctionDisplay := by
          show Files r.ch.sites atDisplay (Postings.scrubErase r.ch.byFunctionDisplay _ _)
          rw [hr.byFunctionDisplay]
          refine h.byFunctionDisplay.scrubErase hlen (fun k => hany _) ?_
          intro k i hi hpos
          obtain ⟨s, hs, hat⟩ := mem_positions.mp hpos
          simp only [atDisplay, held, Bool.and_eq_true, decide_eq_true_eq] at hat
          exact hat.2.2 ▸ (hr.affected i hi s hs).2.2 hat.2.1
        channels := hr.byChannel ▸ h.channels.scrubErase _ _
        usrs := hr.byFunctionUsr ▸ h.usrs.scrubErase _ _
        displays := hr.byFunctionDisplay ▸ h.displays.scrubErase _ _
        index := hr.index
        liveCount := by
          show r.ch.liveCount = (r.ch.sites.filter (·.live)).length
          rw [hr.liveCount]
          omega }
  · show r.removed + r.ch.liveCount = ch.liveCount
    rw [hr.removed, hr.liveCount]
    omega

/-! ### Compacting -/

theorem oldToNew_eq (sites : List StoredSite) :
    oldToNew sites = (List.range sites.length).map (rank sites (·.live)) := by
  have hfold : ∀ pre : List StoredSite,
      pre.foldl (fun st se => if se.live then (st.1 ++ [some st.2], st.2 + 1)
          else (st.1 ++ [none], st.2)) (([] : List (Option Nat)), 0)
        = ((List.range pre.length).map (rank pre (·.live)), (pre.filter (·.live)).length) := by
    intro pre
    induction pre using List.reverseRecOn with
    | nil => rfl
    | append_singleton pre se ih =>
        have hold : (List.range pre.length).map (rank (pre ++ [se]) (·.live))
            = (List.range pre.length).map (rank pre (·.live)) :=
          List.map_congr_left fun i hi => rank_snoc_lt (List.mem_range.mp hi)
        rw [List.foldl_append, List.foldl_cons, List.foldl_nil, ih, List.length_append,
          List.length_singleton, List.range_succ, List.map_append, hold, List.map_singleton,
          rank_snoc_eq, List.filter_append, List.length_append]
        cases hlive : se.live <;> simp [hlive]
  exact congrArg Prod.fst (hfold sites)

theorem oldToNew_getD (sites : List StoredSite) :
    (fun i => (oldToNew sites).getD i none) = rank sites (·.live) := by
  funext i
  rw [oldToNew_eq]
  by_cases hi : i < sites.length
  · rw [List.getD_eq_getElem _ _ (by simpa using hi)]
    simp
  · have hnone : sites[i]? = none := List.getElem?_eq_none_iff.mpr (Nat.not_lt.mp hi)
    rw [List.getD_eq_default _ _ (by simpa using hi)]
    simp [rank, hnone]

theorem Listed.compact (h : ch.Listed) : ch.compact.Listed := by
  have hnew := oldToNew_getD ch.sites
  have hkept {file : Str → ChannelSite → Bool} (k : Str) (s : StoredSite)
      (hs : held (file k) s = true) : s.live = true := by
    simp only [held, Bool.and_eq_true] at hs
    exact hs.1
  have hfiles {file : Str → ChannelSite → Bool} {m : UMap Str (List Nat)}
      (hm : Files ch.sites (fun k => held (file k)) m) :
      Files (ch.sites.filter (·.live)) (fun k => held (file k)) (remapInto (oldToNew ch.sites) m) := by
    have hrenumber := hm.renumber (q := (·.live)) hkept
    rw [← hnew] at hrenumber
    exact hrenumber
  refine ⟨?_, hfiles h.byChannel, hfiles h.byFunctionUsr, hfiles h.byFunctionDisplay,
    noneEmpty_renumber _ _, noneEmpty_renumber _ _, noneEmpty_renumber _ _, ?_, ?_⟩
  · exact fun s hs => h.live s (List.mem_of_mem_filter hs)
  · intro k j
    show (UMap.filterMapVals (fun i => (oldToNew ch.sites).getD i none) ch.index).lookup k = some j
      ↔ ∃ s, (ch.sites.filter (·.live))[j]? = some s ∧ s.live = true ∧ s.site.key = k
    rw [lookup_filterMapVals, hnew, Option.bind_eq_some_iff]
    constructor
    · rintro ⟨i, hi, hrank⟩
      obtain ⟨s, hs, hlive, hkey⟩ := (h.index k i).mp hi
      obtain ⟨s', hs', -, -, hat⟩ := rank_eq_some.mp hrank
      rw [hs] at hs'
      injection hs' with hs'
      exact ⟨s, hs' ▸ hat, hlive, hkey⟩
    · rintro ⟨s, hs, hlive, hkey⟩
      obtain ⟨i, hrank⟩ := exists_rank hs
      obtain ⟨s', hs', -, -, hat⟩ := rank_eq_some.mp hrank
      rw [hs] at hat
      injection hat with hat
      exact ⟨i, (h.index k i).mpr ⟨s, hat ▸ hs', hlive, hkey⟩, hrank⟩
  · show ch.liveCount = ((ch.sites.filter (·.live)).filter (·.live)).length
    rw [List.filter_filter, h.liveCount]
    simp

/-! ### Histories -/

/-- A run of the mutators from the empty index. -/
inductive History
  | empty
  | add (h : History) (site : ChannelSite)
  | absorb (h shard : History)
  | removeTUs (h : History) (tuPaths : List Str)
  | compact (h : History)

/-- The index that the history leaves. -/
def History.channels : History → ChannelIndex
  | .empty => {}
  | .add h site => h.channels.addSite site
  | .absorb h shard => h.channels.absorb shard.channels
  | .removeTUs h tuPaths => (h.channels.removeTUs tuPaths).1
  | .compact h => h.channels.compact

/-- **Every index a history builds lists its live sites.** -/
theorem History.listed : ∀ h : History, h.channels.Listed
  | .empty => listed_empty
  | .add h site => h.listed.addSite site
  | .absorb h shard => h.listed.absorb shard.channels
  | .removeTUs h tuPaths => (h.listed.removeTUs tuPaths).1
  | .compact h => h.listed.compact

end ChannelIndex

end Vycor
