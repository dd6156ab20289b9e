/-
The channel section, read back.

A load gives back the live sites of the saved index, in their order and with their counts.
The one field that is not stored is the TU path of a site: it comes back as the first of
the TUs that are listed for the site, in the order in which the save walked the TU map.
-/
import Vycor.Proofs.SnapshotFile

namespace Vycor

open Sticky

namespace SnapshotIO

/-! ### What fits the format -/

/-- Lengths and counts of the format are 32 bits wide. -/
def Short {α : Type} (l : List α) : Prop := l.length < 2 ^ 32

/-- Every length of the guard fits its 32-bit field. -/
structure GuardFits (g : ConditionalGuard) : Prop where
  conditionText : Short g.conditionText
  location : Short g.location

/-- Every length of the site fits its field. -/
structure SiteFits (site : ChannelSite) : Prop where
  channelId : Short site.channelId
  channelTypeName : Short site.channelTypeName
  category : Short site.category
  siteFunctionUsr : Short site.siteFunctionUsr
  siteFunctionDisplay : Short site.siteFunctionDisplay
  callSite : Short site.callSite
  guardCount : Short site.enclosingGuards
  guards : ∀ g ∈ site.enclosingGuards, GuardFits g

/-- The records of a save: the live sites with their positions. -/
def savedSites (ch : ChannelIndex) : List (StoredSite × Nat) :=
  ch.sites.zipIdx.filter (·.1.live)

/-- The index counts its live sites, each has registrations, and all of it fits. -/
structure ChannelsFit (w : HashWalk) (ch : ChannelIndex) : Prop where
  liveCount : ch.liveCount = (savedSites ch).length
  count : Short (savedSites ch)
  site : ∀ stored ∈ savedSites ch, SiteFits stored.1.site
  refs : ∀ stored ∈ savedSites ch, 0 < stored.1.refs ∧ stored.1.refs < 2 ^ 32
  tuCount : ∀ stored ∈ savedSites ch, Short (siteTus w ch stored.2)
  tus : ∀ stored ∈ savedSites ch, ∀ tu ∈ siteTus w ch stored.2, Short tu

/-! ### Records -/

theorem putLenStr_pos (s : Str) : 0 < (putLenStr s).length := by
  simp [putLenStr]

theorem reads_readGuard {g : ConditionalGuard} (h : GuardFits g) :
    Reads readGuard (emitGuard g) g := by
  refine (Reads.lenStr h.conditionText).bind ((Reads.lenStr h.location).bind
    ((Reads.bool g.inTrueBranch).bind ?_))
  exact (Reads.bool g.isAssertion).last

theorem emitGuard_pos (g : ConditionalGuard) : 0 < (emitGuard g).length := by
  have := putLenStr_pos g.conditionText
  simp only [emitGuard, List.length_append]
  omega

/-- What a record of the saved index installs. -/
def reinstall (w : HashWalk) (mode : LoadMode) (ch ch' : ChannelIndex)
    (stored : StoredSite × Nat) : ChannelIndex :=
  installSite mode ch' { stored.1.site with tuPath := [] } stored.1.refs (siteTus w ch stored.2)

variable {w : HashWalk} {mode : LoadMode} {ch : ChannelIndex} {heap : Nat}

/-- The bytes of a record up to its TUs. -/
def emitSiteHead (stored : StoredSite) : Bytes :=
  let site := stored.site
  putLenStr site.channelId ++ (putLenStr site.channelTypeName ++ (putLenStr site.category ++
    (putU8 site.op.toU8 ++ (putLenStr site.siteFunctionUsr ++
    (putLenStr site.siteFunctionDisplay ++ (putLenStr site.callSite ++
    (putU32 stored.refs ++ putList emitGuard site.enclosingGuards)))))))

theorem reads_readSiteHead {stored : StoredSite} (hsite : SiteFits stored.site)
    (hrefs : stored.refs < 2 ^ 32) :
    Reads readSiteHead (emitSiteHead stored)
      ({ stored.site with tuPath := [] }, UInt32.ofNat stored.refs) := by
  have hguards : Reads (list readGuard) (putList emitGuard stored.site.enclosingGuards)
      stored.site.enclosingGuards :=
    Reads.list hsite.guardCount (fun g _ => emitGuard_pos g)
      fun g hg => reads_readGuard (hsite.guards g hg)
  refine (Reads.lenStr hsite.channelId).bind ((Reads.lenStr hsite.channelTypeName).bind
    ((Reads.lenStr hsite.category).bind ((Reads.u8 _).bind ((Reads.lenStr hsite.siteFunctionUsr).bind
    ((Reads.lenStr hsite.siteFunctionDisplay).bind ((Reads.lenStr hsite.callSite).bind
    ((Reads.u32_ofNat hrefs).bind ?_)))))))
  rw [ChannelOperation.ofU8_toU8]
  exact hguards.last

theorem reads_readSite (h : ChannelsFit w ch) {stored : StoredSite × Nat}
    (hstored : stored ∈ savedSites ch) (ch' : ChannelIndex) :
    Reads (readSite heap mode ch') (emitSite w ch stored) (reinstall w mode ch ch' stored) := by
  obtain ⟨hpos, hrefs⟩ := h.refs stored hstored
  have hne : stored.1.refs ≠ 0 := Nat.pos_iff_ne_zero.mp hpos
  have hback : (UInt32.ofNat stored.1.refs).toNat = stored.1.refs :=
    UInt32.toNat_ofNat_of_lt' hrefs
  have hemit : emitSite w ch stored
      = emitSiteHead stored.1 ++ putList putLenStr (siteTus w ch stored.2) := by
    simp only [emitSite, emitSiteHead, if_pos hne, List.append_assoc]
  rw [hemit]
  refine (reads_readSiteHead (h.site stored hstored) hrefs).bind ?_
  refine Reads.counting (h.tuCount stored hstored) (fun tu _ => putLenStr_pos tu) ?_
  refine Reads.congr ((Reads.many fun tu htu => Reads.lenStr (h.tus stored hstored tu htu)).bind ?_)
    (List.append_nil _).symm
  refine Reads.require ?_ (Reads.ifOk ?_)
  · refine decide_eq_true ?_
    intro hzero
    have hzero : UInt32.ofNat stored.1.refs = 0 := hzero
    rw [hzero] at hback
    exact hne hback.symm
  · have hinstalled : reinstall w mode ch ch' stored
        = installSite mode ch' { stored.1.site with tuPath := [] }
            (UInt32.ofNat stored.1.refs).toNat (siteTus w ch stored.2) := by
      rw [hback, reinstall]
    rw [hinstalled]
    exact Reads.pure _

/-- The index a load makes of a saved one. -/
def reloadChannels (w : HashWalk) (mode : LoadMode) (ch : ChannelIndex) : ChannelIndex :=
  (savedSites ch).foldl (reinstall w mode ch) {}

theorem emitSite_pos (w : HashWalk) (ch : ChannelIndex) (stored : StoredSite × Nat) :
    0 < (emitSite w ch stored).length := by
  have := putLenStr_pos stored.1.site.channelId
  simp only [emitSite, List.length_append]
  omega

/-- **The channel section reads back as the reloaded index.** -/
theorem reads_readChannels (h : ChannelsFit w ch) :
    Reads (readChannels heap mode) (emitChannels w ch) (reloadChannels w mode ch) := by
  have hemit : emitChannels w ch = putList (emitSite w ch) (savedSites ch) := by
    rw [emitChannels, putU32, h.liveCount]
    rfl
  rw [hemit]
  exact (Reads.counted (fun _ => True) h.count (fun stored _ => emitSite_pos w ch stored)
    (fun stored hstored ch' _ => ⟨reads_readSite h hstored ch', trivial⟩) trivial).1

/-! ### The reloaded sites -/

/-- A site as a load gives it back. -/
def reloadedSite (w : HashWalk) (ch : ChannelIndex) (stored : StoredSite × Nat) : StoredSite :=
  { site := { stored.1.site with tuPath := (siteTus w ch stored.2).headD [] }
    refs := stored.1.refs, live := true }

theorem reinstall_sites (ch' : ChannelIndex) (stored : StoredSite × Nat) :
    (reinstall w mode ch ch' stored).sites = ch'.sites ++ [reloadedSite w ch stored] := by
  unfold reinstall installSite
  dsimp only
  split <;> rfl

theorem reloadChannels_sites :
    (reloadChannels w mode ch).sites = (savedSites ch).map (reloadedSite w ch) := by
  have hfold : ∀ (l : List (StoredSite × Nat)) (ch' : ChannelIndex),
      (l.foldl (reinstall w mode ch) ch').sites = ch'.sites ++ l.map (reloadedSite w ch) := by
    intro l
    induction l with
    | nil => exact fun ch' => (List.append_nil _).symm
    | cons stored rest ih =>
        intro ch'
        rw [List.foldl_cons, ih, reinstall_sites, List.append_assoc, List.map_cons]
        rfl
  exact (hfold _ _).trans (List.nil_append _)

/-! ### Loading -/

/-- **A saved index that loads comes back with the reloaded channels.** -/
theorem load_save_channels {graph : CallGraph} {cfIndex : ControlFlowIndex}
    {snapMeta : SnapshotMeta} (h : ChannelsFit w ch)
    (hfile : (save w graph cfIndex snapMeta ch).length < 2 ^ 64) {data : SnapshotData}
    (hload : (load (save w graph cfIndex snapMeta ch) mode).run = some (some data)) :
    data.channels = reloadChannels w mode ch := by
  have hread : Reads (readChannels 0 mode) (emitChannels w ch) _ := reads_readChannels h
  rw [load_save w graph cfIndex snapMeta ch mode kSectionAll hfile, decode_of_reads hread] at hload
  obtain ⟨snapMeta', -, hload⟩ := run_bind_some hload
  obtain ⟨graph', -, hload⟩ := run_bind_some hload
  obtain ⟨cfIndex', -, hload⟩ := run_bind_some hload
  obtain ⟨channels', hchannels, hload⟩ := run_bind_some hload
  have hchannels' : some (some (reloadChannels w mode ch)) = some (some channels') := hchannels
  injection hchannels' with hchannels'
  injection hchannels' with hchannels'
  have hdata : some (some _) = some (some data) := hload
  injection hdata with hdata
  injection hdata with hdata
  rw [← hdata, hchannels']

end SnapshotIO

end Vycor
