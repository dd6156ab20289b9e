/-
The file around the sections.

A load finds each section of a saved file where the save put it, so it decodes exactly the
bytes the section's emitter wrote.  Nothing here depends on what the sections hold.
-/
import Vycor.Model.Snapshot

namespace Vycor

open Sticky

/-! ### Enumerations -/

theorem EdgeKind.ofU8_toU8 (kind : EdgeKind) : EdgeKind.ofU8 kind.toU8 = kind := by
  cases kind with
  | unnamed code h => simp [toU8, ofU8, h]
  | _ => rfl

theorem Confidence.ofU8_toU8 (confidence : Confidence) :
    Confidence.ofU8 confidence.toU8 = confidence := by
  cases confidence with
  | unnamed code h => simp [toU8, ofU8, h]
  | _ => rfl

theorem ExecutionContext.ofU8_toU8 (ctx : ExecutionContext) :
    ExecutionContext.ofU8 ctx.toU8 = ctx := by
  cases ctx with
  | unnamed code h => simp [toU8, ofU8, h]
  | _ => rfl

theorem RaiiKind.ofU8_toU8 (kind : RaiiKind) : RaiiKind.ofU8 kind.toU8 = kind := by
  cases kind with
  | unnamed code h => simp [toU8, ofU8, h]
  | _ => rfl

theorem NoexceptSpec.ofU8_toU8 (spec : NoexceptSpec) : NoexceptSpec.ofU8 spec.toU8 = spec := by
  cases spec with
  | unnamed code h => simp [toU8, ofU8, h]
  | _ => rfl

theorem ChannelOperation.ofU8_toU8 (op : ChannelOperation) :
    ChannelOperation.ofU8 op.toU8 = op := by
  cases op with
  | unnamed code h => simp [toU8, ofU8, h]
  | _ => rfl

namespace SnapshotIO

/-! ### Loads -/

/-- A load that came back was through with its first part. -/
theorem run_bind_some {α β : Type} {x : Load α} {f : α → Load β} {b : β}
    (h : (x >>= f).run = some (some b)) :
    ∃ a, x.run = some (some a) ∧ (f a).run = some (some b) := by
  rw [OptionT.run_bind] at h
  cases hx : x.run with
  | none =>
      rw [hx] at h
      simp [Option.elimM] at h
  | some r =>
      rw [hx] at h
      cases r with
      | none => simp [Option.elimM] at h
      | some a => exact ⟨a, rfl, h⟩

theorem run_bind_of {α β : Type} {x : Load α} {f : α → Load β} {a : α}
    (h : x.run = some (some a)) : (x >>= f).run = (f a).run := by
  rw [OptionT.run_bind, h]
  rfl

theorem run_pure_inj {α : Type} {a b : α} (h : (pure a : Load α).run = some (some b)) : a = b :=
  Option.some.inj (Option.some.inj h)

/-! ### The section table -/

/-- One entry of the section table. -/
def tableEntry (kind : Nat) (offset length : Nat) : Bytes :=
  putU8 (UInt8.ofNat kind) ++ (putU64 (UInt64.ofNat offset) ++ putU64 (UInt64.ofNat length))

theorem reads_flag : Reads flag [] true := fun _ => rfl

/-- An entry for a kind that has none yet, and that lies within the file. -/
theorem reads_readRange {fileSize kind offset length : Nat} {ranges : List (Option Range)}
    (hkind : kind < kSectionKinds) (hslot : ranges[kind]? = some none)
    (hfits : offset + length ≤ fileSize) (hsize : fileSize < 2 ^ 64) :
    Reads (readRange fileSize ranges) (tableEntry kind offset length)
      (ranges.set kind (some ⟨offset, length⟩)) := by
  have hk : (UInt8.ofNat kind).toNat = kind :=
    UInt8.toNat_ofNat_of_lt' (Nat.lt_trans hkind (by decide))
  have ho : (UInt64.ofNat offset).toNat = offset := UInt64.toNat_ofNat_of_lt' (by
    show offset < 2 ^ 64
    omega)
  have hl : (UInt64.ofNat length).toNat = length := UInt64.toNat_ofNat_of_lt' (by
    show length < 2 ^ 64
    omega)
  refine (Reads.u8 _).bind ((Reads.u64 _).bind ?_)
  refine Reads.congr ((Reads.u64 _).bind ?_) (List.append_nil _).symm
  rw [hk, ho, hl]
  refine Reads.require (decide_eq_true hkind) (Reads.ifOk ?_)
  refine Reads.silent (Reads.entry hslot) (Reads.require ?_ (Reads.pure _).ifOk)
  simp only [Option.isNone_none, Bool.true_and, Bool.and_eq_true, decide_eq_true_eq]
  omega

/-- Where the sections of a saved file lie. -/
def rangesOf (a b c d : Bytes) : List (Option Range) :=
  [some ⟨kHeaderBytes, a.length⟩, some ⟨kHeaderBytes + a.length, b.length⟩,
    some ⟨kHeaderBytes + a.length + b.length, c.length⟩,
    some ⟨kHeaderBytes + a.length + b.length + c.length, d.length⟩]

theorem emitTable_eq (a b c d : Bytes) :
    emitTable [a, b, c, d] = tableEntry 0 kHeaderBytes a.length
      ++ (tableEntry 1 (kHeaderBytes + a.length) b.length
      ++ (tableEntry 2 (kHeaderBytes + a.length + b.length) c.length
      ++ (tableEntry 3 (kHeaderBytes + a.length + b.length + c.length) d.length ++ []))) := by
  simp [emitTable, tableEntry, Nat.add_assoc]

theorem reads_table {a b c d : Bytes} {fileSize : Nat}
    (hsize : fileSize = kHeaderBytes + a.length + b.length + c.length + d.length)
    (hfile : fileSize < 2 ^ 64) :
    Reads (loop 4 (readRange fileSize) (List.replicate kSectionKinds none))
      (emitTable [a, b, c, d]) (rangesOf a b c d) := by
  rw [emitTable_eq]
  refine Reads.turn (reads_readRange (by decide) rfl (by omega) hfile) ?_
  refine Reads.turn (reads_readRange (by decide) rfl (by omega) hfile) ?_
  refine Reads.turn (reads_readRange (by decide) rfl (by omega) hfile) ?_
  exact Reads.turn (reads_readRange (by decide) rfl (by omega) hfile) (Reads.pure _)

/-! ### The header -/

/-- The counts that a save writes. -/
def summaryOf (graph : CallGraph) (cfIndex : ControlFlowIndex) (channels : ChannelIndex) :
    IndexSummary :=
  { nodes := UInt64.ofNat graph.nodeCount, edges := UInt64.ofNat graph.edgeCount
    callSites := UInt64.ofNat cfIndex.size, channelSites := UInt64.ofNat channels.size }

variable {graph : CallGraph} {cfIndex : ControlFlowIndex} {channels : ChannelIndex}

theorem length_tableEntry (kind offset length : Nat) : (tableEntry kind offset length).length = 17 := by
  simp [tableEntry, putU8, putU64]

theorem length_emitHeader (a b c d : Bytes) :
    (emitHeader graph cfIndex channels [a, b, c, d]).length = kHeaderBytes := by
  rw [emitHeader, emitTable_eq]
  simp only [List.length_append, length_tableEntry, putU32, putU64, Wire.leBytes_length,
    List.length_nil]
  rfl

theorem reads_header {a b c d : Bytes} {fileSize : Nat}
    (hsize : fileSize = kHeaderBytes + a.length + b.length + c.length + d.length)
    (hfile : fileSize < 2 ^ 64) :
    Reads (readHeader fileSize) (emitHeader graph cfIndex channels [a, b, c, d])
      (some { summary := summaryOf graph cfIndex channels, ranges := rangesOf a b c d }) := by
  refine (Reads.bytes rfl).bind (Reads.silent reads_flag ?_)
  rw [if_neg (by decide)]
  refine (Reads.u32 kFormatVersion).bind ?_
  rw [if_neg (by decide)]
  refine (Reads.u64 _).bind ((Reads.u64 _).bind ((Reads.u64 _).bind ((Reads.u64 _).bind ?_)))
  refine (Reads.u32 (UInt32.ofNat kSectionKinds)).bind (Reads.silent reads_flag ?_)
  rw [if_neg (by decide)]
  exact (reads_table hsize hfile).last

/-! ### The sections

A section lies where the table says, and the table was written from the lengths
of the sections in front of it.
-/

/-- A section between what stands before and after it. -/
theorem slice_between (pre bytes post : Bytes) :
    slice (pre ++ (bytes ++ post)) (some ⟨pre.length, bytes.length⟩) = some bytes := by
  refine (if_pos (by simp)).trans ?_
  rw [List.drop_left, List.take_left]

theorem decode_of_reads {α : Type} {read : Read α} {bytes : Bytes} {a : α}
    (h : Reads read bytes a) : decode read bytes = pure a := by
  have hrun := h []
  rw [List.append_nil] at hrun
  unfold decode
  rw [hrun]
  rfl

theorem lift_some {α β : Type} (a : α) (f : α → Load β) : OptionT.lift (some a) >>= f = f a := rfl

theorem mk_some {α β : Type} (a : α) (f : α → Load β) :
    (OptionT.mk (some (some a)) : Load α) >>= f = f a := rfl

/-- **A load decodes what the save emitted**, section by section. -/
theorem load_save (w : HashWalk) (graph : CallGraph) (cfIndex : ControlFlowIndex)
    (snapMeta : SnapshotMeta) (channels : ChannelIndex) (mode : LoadMode) (needs : UInt32)
    {heap : Nat} (hfile : (save w graph cfIndex snapMeta channels).length < 2 ^ 64) :
    load (save w graph cfIndex snapMeta channels) mode needs heap = do
      let snapMeta ← decode readMeta (emitMeta snapMeta)
      let graph' ← readNeeded needs kSectionGraph {}
        (decode (readGraph heap mode) (emitGraph w graph))
      let cfIndex' ← readNeeded needs kSectionControlFlow {}
        (decode (readControlFlow heap mode) (emitControlFlow cfIndex))
      let channels' ← readNeeded needs kSectionChannels {}
        (decode (readChannels heap mode) (emitChannels w channels))
      return { graph := graph', cfIndex := cfIndex', channels := channels', snapMeta
               summary := summaryOf graph cfIndex channels, loaded := needs &&& kSectionAll } := by
  unfold save at hfile ⊢
  dsimp only [sectionsOf] at hfile ⊢
  generalize emitMeta snapMeta = a at hfile ⊢
  generalize emitGraph w graph = b at hfile ⊢
  generalize emitControlFlow cfIndex = c at hfile ⊢
  generalize emitChannels w channels = d at hfile ⊢
  have hlen : (emitHeader graph cfIndex channels [a, b, c, d]).length = kHeaderBytes :=
    length_emitHeader a b c d
  set header := emitHeader graph cfIndex channels [a, b, c, d] with hheader
  have hflat : [a, b, c, d].flatten = a ++ (b ++ (c ++ (d ++ []))) := rfl
  rw [hflat] at hfile ⊢
  set file := header ++ (a ++ (b ++ (c ++ (d ++ [])))) with hfileEq
  have hsize : file.length = kHeaderBytes + a.length + b.length + c.length + d.length := by
    rw [hfileEq]
    simp only [List.length_append, List.length_nil, hlen]
    omega
  have hread : Reads (readHeader file.length) header _ := reads_header hsize hfile
  have hread := hread (a ++ (b ++ (c ++ (d ++ []))))
  rw [← hfileEq] at hread
  set found : Header := { summary := summaryOf graph cfIndex channels, ranges := rangesOf a b c d }
    with hfound
  have hconsumed : file.length - (a ++ (b ++ (c ++ (d ++ [])))).length = kHeaderBytes := by
    rw [hfileEq, List.length_append, Nat.add_sub_cancel, hlen]
  have hsection {α : Type} (read : Read α) (kind : Nat) (bytes : Bytes)
      (hslice : slice file (found.ranges.getD kind none) = some bytes) :
      readSection file found kind read = decode read bytes := by
    unfold readSection
    rw [hslice]
    rfl
  have hmeta := fun α (read : Read α) => hsection read kMetaKind a (by
    have h := slice_between header a (b ++ (c ++ (d ++ [])))
    rw [hlen] at h
    exact h)
  have hgraph := fun α (read : Read α) => hsection read kGraphKind b (by
    have h := slice_between (header ++ a) b (c ++ (d ++ []))
    rw [List.length_append, hlen, List.append_assoc] at h
    exact h)
  have hcf := fun α (read : Read α) => hsection read kControlFlowKind c (by
    have h := slice_between (header ++ a ++ b) c (d ++ [])
    rw [List.length_append, List.length_append, hlen, List.append_assoc, List.append_assoc] at h
    exact h)
  have hch := fun α (read : Read α) => hsection read kChannelsKind d (by
    have h := slice_between (header ++ a ++ b ++ c) d []
    rw [List.length_append, List.length_append, List.length_append, hlen, List.append_assoc,
      List.append_assoc, List.append_assoc] at h
    exact h)
  unfold load
  rw [hread, lift_some]
  dsimp only
  rw [mk_some, hconsumed, if_neg (by decide)]
  simp only [hmeta, hgraph, hcf, hch]
  rfl

end SnapshotIO

end Vycor
