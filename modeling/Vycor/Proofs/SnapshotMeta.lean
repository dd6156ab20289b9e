/-
The meta section, read back.

A save writes one dependency list per recorded TU: a TU past the end of `tuDeps` gets an
empty list, and a list past the last TU is not written.  So the section comes back with as
many lists as files, and comes back whole when it had as many before.
-/
import Vycor.Proofs.SnapshotChannels

namespace Vycor

open Sticky

namespace SnapshotIO

/-! ### What fits the format -/

/-- Every length of the specification fits its 32-bit field. -/
structure SpecFits (spec : ChannelTypeSpec) : Prop where
  qualifiedTypeName : Short spec.qualifiedTypeName
  produceCount : Short spec.produceMethods
  produceMethods : ∀ m ∈ spec.produceMethods, Short m
  consumeCount : Short spec.consumeMethods
  consumeMethods : ∀ m ∈ spec.consumeMethods, Short m
  category : Short spec.category

/-- The strings and the lists of the meta section fit, and the ids of its dependency lists
are in range. -/
structure MetaFits (snapMeta : SnapshotMeta) : Prop where
  collapseCount : Short snapMeta.collapsePaths
  collapsePaths : ∀ s ∈ snapMeta.collapsePaths, Short s
  allowCount : Short snapMeta.lockAllowlist
  lockAllowlist : ∀ s ∈ snapMeta.lockAllowlist, Short s
  specCount : Short snapMeta.channelTypes
  channelTypes : ∀ spec ∈ snapMeta.channelTypes, SpecFits spec
  fileCount : Short snapMeta.files
  files : ∀ stamp ∈ snapMeta.files, Short stamp.path
  entryCount : Short snapMeta.entryPoints
  entryPoints : ∀ s ∈ snapMeta.entryPoints, Short s
  depCount : Short snapMeta.deps
  deps : ∀ stamp ∈ snapMeta.deps, Short stamp.path
  tuDeps : ∀ ids ∈ snapMeta.tuDeps, Short ids
  inRange : ∀ ids ∈ snapMeta.tuDeps, ∀ id ∈ ids, id < snapMeta.deps.length

/-! ### Records -/

theorem reads_readChannelTypeSpec {spec : ChannelTypeSpec} (h : SpecFits spec) :
    Reads readChannelTypeSpec (emitChannelTypeSpec spec) spec := by
  refine (Reads.lenStr h.qualifiedTypeName).bind
    ((Reads.list h.produceCount (fun m _ => putLenStr_pos m)
      fun m hm => Reads.lenStr (h.produceMethods m hm)).bind
    ((Reads.list h.consumeCount (fun m _ => putLenStr_pos m)
      fun m hm => Reads.lenStr (h.consumeMethods m hm)).bind ?_))
  exact (Reads.lenStr h.category).last

theorem emitChannelTypeSpec_pos (spec : ChannelTypeSpec) :
    0 < (emitChannelTypeSpec spec).length := by
  have := putLenStr_pos spec.qualifiedTypeName
  simp only [emitChannelTypeSpec, List.length_append]
  omega

theorem reads_readStamp {stamp : FileStamp} (h : Short stamp.path) :
    Reads readStamp (emitStamp stamp) stamp := by
  refine (Reads.lenStr h).bind ((Reads.u64 stamp.mtimeNs).bind ?_)
  exact (Reads.u64 stamp.size).last

theorem emitStamp_pos (stamp : FileStamp) : 0 < (emitStamp stamp).length := by
  have := putLenStr_pos stamp.path
  simp only [emitStamp, List.length_append]
  omega

theorem reads_readDep {deps id : Nat} (hdeps : deps < 2 ^ 32) (hid : id < deps) :
    Reads (readDep deps) (putU32 id) id := by
  have hlt : id < 2 ^ 32 := Nat.lt_trans hid hdeps
  have hback : (UInt32.ofNat id).toNat = id := UInt32.toNat_ofNat_of_lt' hlt
  refine Reads.congr ((Reads.u32_ofNat hlt).bind ?_) (List.append_nil _).symm
  rw [hback]
  exact Reads.require (decide_eq_true hid) (Reads.pure _)

theorem putU32_pos (n : Nat) : 0 < (putU32 n).length := by simp [putU32]

/-! ### The section -/

/-- The dependency lists that a save writes, one per file. -/
def writtenDeps (snapMeta : SnapshotMeta) : List (List Nat) :=
  (List.range snapMeta.files.length).map fun i => snapMeta.tuDeps.getD i []

theorem writtenDeps_eq {snapMeta : SnapshotMeta}
    (h : snapMeta.tuDeps.length = snapMeta.files.length) :
    writtenDeps snapMeta = snapMeta.tuDeps := by
  refine List.ext_getElem (by simp [writtenDeps, h]) ?_
  intro i hi hi'
  simp [writtenDeps, hi']

theorem mem_writtenDeps {snapMeta : SnapshotMeta} {ids : List Nat}
    (h : ids ∈ writtenDeps snapMeta) : ids = [] ∨ ids ∈ snapMeta.tuDeps := by
  obtain ⟨i, -, rfl⟩ := List.mem_map.mp h
  rcases Nat.lt_or_ge i snapMeta.tuDeps.length with hi | hi
  · rw [List.getD_eq_getElem _ _ hi]
    exact Or.inr (List.getElem_mem hi)
  · exact Or.inl (List.getD_eq_default _ _ hi)

/-- **The meta section reads back, with a dependency list for every file.** -/
theorem reads_readMeta {snapMeta : SnapshotMeta} (h : MetaFits snapMeta) :
    Reads readMeta (emitMeta snapMeta) { snapMeta with tuDeps := writtenDeps snapMeta } := by
  have hstrings : ∀ {l : List Str}, Short l → (∀ s ∈ l, Short s) →
      Reads (list lenStr) (putList putLenStr l) l := fun hl hs =>
    Reads.list hl (fun s _ => putLenStr_pos s) fun s hs' => Reads.lenStr (hs s hs')
  have hstamps : ∀ {l : List FileStamp}, Short l → (∀ stamp ∈ l, Short stamp.path) →
      Reads (list readStamp) (putList emitStamp l) l := fun hl hs =>
    Reads.list hl (fun stamp _ => emitStamp_pos stamp) fun stamp hs' =>
      reads_readStamp (hs stamp hs')
  have hids : ∀ ids ∈ writtenDeps snapMeta,
      Reads (list (readDep snapMeta.deps.length)) (putList putU32 ids) ids := by
    intro ids hids
    rcases mem_writtenDeps hids with rfl | hmem
    · exact Reads.list (show 0 < 2 ^ 32 by decide) (fun id _ => putU32_pos id)
        fun id hid => absurd hid List.not_mem_nil
    · exact Reads.list (h.tuDeps ids hmem) (fun id _ => putU32_pos id) fun id hid =>
        reads_readDep h.depCount (h.inRange ids hmem id hid)
  have hdeps : Reads (many (list (readDep snapMeta.deps.length)) snapMeta.files.length)
      ((List.range snapMeta.files.length).flatMap fun i =>
        putList putU32 (snapMeta.tuDeps.getD i [])) (writtenDeps snapMeta) := by
    have hread := Reads.many hids
    rwa [writtenDeps, List.length_map, List.length_range, List.flatMap_map] at hread
  refine (hstrings h.collapseCount h.collapsePaths).bind
    ((hstrings h.allowCount h.lockAllowlist).bind ((Reads.bool snapMeta.lockBuiltins).bind
    ((Reads.list h.specCount (fun spec _ => emitChannelTypeSpec_pos spec)
      fun spec hspec => reads_readChannelTypeSpec (h.channelTypes spec hspec)).bind
    ((hstamps h.fileCount h.files).bind ((hstrings h.entryCount h.entryPoints).bind
    ((hstamps h.depCount h.deps).bind ?_))))))
  exact hdeps.last

end SnapshotIO

end Vycor
