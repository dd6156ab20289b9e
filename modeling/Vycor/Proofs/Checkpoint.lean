/-
When a killed run loses nothing.

The loader reads whole records up to the first one that is cut short, and an open
appends after whatever the file ends with.  So a journal that ends in a torn record
hides everything appended after it, and a journal whose appends all start on a record
boundary hides nothing: `journal_durable` is that statement, and
`journal_hides_after_tear` is the smallest history that breaks it.

The proof keeps one description of the file through every run: a header, the completed
records, and a tail that is a proper prefix of some record.  The loader stops at such a
tail because the record's length field is either incomplete or asks for more than is
left; the checksum is never needed.
-/
import Mathlib.Data.List.Induction
import Vycor.Proofs.SealedPayloads

namespace Vycor

open Wire Checkpoint

namespace AnnealCheckpoint

/-! ### What a record means -/

/-- The effect of a record on the journal it is loaded into. -/
def Op.seen (c : AnnealCheckpoint) : Op → AnnealCheckpoint
  | attempt phase tu stamp => c.countAttempt phase tu stamp
  | phase1 tu stamp contribution =>
      let c := c.clearAttempts kPhaseIndex tu
      { c with phase1 := c.phase1.insert tu { stamp, payload := contribution } }
  | phase2 tu stamp indexSetHash diags =>
      let c := c.clearAttempts kPhaseAnalyze tu
      { c with phase2 := c.phase2.insert tu { stamp, indexSetHash, diagnostics := diags } }

/-- The kind byte of the record. -/
def Op.kind : Op → UInt8
  | attempt .. => kKindAttempt
  | phase1 .. => kKindPhase1
  | phase2 .. => kKindPhase2

/-- The payload of the record. -/
def Op.payload : Op → Bytes
  | attempt phase tu stamp => attemptPayload phase tu stamp
  | phase1 tu stamp contribution => phase1Payload tu stamp contribution
  | phase2 tu stamp indexSetHash diags => phase2Payload tu stamp indexSetHash diags

/-- The TU the record is about. -/
def Op.tu : Op → Str
  | attempt _ tu _ | phase1 tu _ _ | phase2 tu _ _ _ => tu

/-- The stamp the record carries. -/
def Op.stamp : Op → FileStamp
  | attempt _ _ stamp | phase1 _ stamp _ | phase2 _ stamp _ _ => stamp

/-- The record is about its TU's own file, and its length field with the checksum's four
bytes does not wrap. -/
structure Op.Fits (op : Op) : Prop where
  own : op.stamp.path = op.tu
  short : op.payload.length + 4 < 2 ^ 32

theorem Op.Fits.length_lt {op : Op} (h : op.Fits) : op.payload.length < 2 ^ 32 :=
  Nat.lt_of_le_of_lt (Nat.le_add_right _ 4) h.short

theorem Op.framed_eq (op : Op) : op.framed = frame op.kind op.payload := by
  cases op <;> rfl

theorem Op.framed_pos (op : Op) : 0 < op.framed.length := by
  simp [op.framed_eq, frame, putU8]

/-- What a kill leaves of an append: part of one record, or nothing. -/
def TornTail (bs : Bytes) : Prop :=
  bs = [] ∨ ∃ op : Op, op.Fits ∧ ∃ n < op.framed.length, bs = op.framed.take n

/-! ### Reading frames -/

/-- A record is a kind and what was sealed behind it. -/
def asFrame (kind : UInt8) : Sealed → Frame
  | .broken => .tail
  | .overrun => .overrun
  | .payload bytes rest => .record kind bytes rest

theorem readFrame_eq (stream : Reader) :
    readFrame stream = asFrame (u8.run stream).1 (readSealed (u8.run stream).2) := by
  unfold readFrame readSealed
  dsimp only
  split_ifs <;> rfl

/-- A record that was written is read back, also where its length wraps. -/
theorem readFrame_frame (kind : UInt8) {payload : Bytes} (hlen : payload.length < 2 ^ 32)
    (rest : Bytes) :
    readFrame ⟨frame kind payload ++ rest, true⟩ = .record kind payload ⟨rest, true⟩ := by
  have hbytes : frame kind payload ++ rest = putU8 kind ++ (sealedBytes payload ++ rest) :=
    List.append_assoc ..
  rw [hbytes, readFrame_eq, reads_u8 kind (by simp [putU8]), readSealed_sealedBytes hlen]
  rfl

/-- **A record cut short reads as the end of the journal**, wherever the cut is. -/
theorem readFrame_take (kind : UInt8) {payload : Bytes} (hlen : payload.length + 4 < 2 ^ 32)
    {n : Nat} (hn : n < (frame kind payload).length) :
    readFrame ⟨(frame kind payload).take n, true⟩ = .tail := by
  rcases n with _ | n
  · -- not even the kind: the first read already fails
    rfl
  · have hframe : frame kind payload = kind :: sealedBytes payload := rfl
    rw [hframe, List.length_cons] at hn
    have hcons : (frame kind payload).take (n + 1)
        = putU8 kind ++ (sealedBytes payload).take n := rfl
    rw [hcons, readFrame_eq, reads_u8 kind (by simp [putU8]),
      readSealed_take hlen (Nat.lt_of_succ_lt_succ hn)]
    rfl

/-! ### Loading

A loader that comes to whole records takes them in one by one. What stops it is
a torn record, and from there on it sees nothing.
-/

/-- A record's payload decodes to the call that wrote it. -/
theorem loadRecord_seen (c : AnnealCheckpoint) {op : Op} (hown : op.stamp.path = op.tu)
    (hlen : op.payload.length < 2 ^ 32) :
    c.loadRecord op.kind op.payload = op.seen c := by
  cases op with
  | attempt phase tu stamp =>
      have hread : Reads readAttempt (attemptPayload phase tu stamp) (phase, tu, stamp) :=
        (reads_u8 _).bind ((reads_str _).bind (reads_stamp hown).last)
      have hrun := hread hlen []
      rw [List.append_nil] at hrun
      simp only [loadRecord, Op.kind, Op.payload, Op.seen, if_true, hrun]
  | phase1 tu stamp contribution =>
      have hread : Reads readPhase1 (phase1Payload tu stamp contribution)
          (tu, { stamp, payload := contribution }) :=
        (reads_str _).bind ((reads_stamp hown).bind (reads_indexPayload _).last)
      have hrun := hread hlen []
      rw [List.append_nil] at hrun
      simp only [loadRecord, Op.kind, Op.payload, Op.seen, if_true, hrun]
      rfl
  | phase2 tu stamp indexSetHash diags =>
      have hread : Reads readPhase2 (phase2Payload tu stamp indexSetHash diags)
          (tu, { stamp, indexSetHash, diagnostics := diags }) :=
        (reads_str _).bind ((reads_stamp hown).bind ((reads_u64 _).bind
          (reads_diagnostics _).last))
      have hrun := hread hlen []
      rw [List.append_nil] at hrun
      simp only [loadRecord, Op.kind, Op.payload, Op.seen, if_true, hrun]
      rfl

/-- The loader goes no further than here. -/
def Stops (bs : Bytes) : Prop := bs = [] ∨ readFrame ⟨bs, true⟩ = .tail

theorem TornTail.stops {torn : Bytes} (h : TornTail torn) : Stops torn := by
  rcases h with rfl | ⟨op, hop, n, hn, rfl⟩
  · exact Or.inl rfl
  · rw [op.framed_eq] at hn ⊢
    exact Or.inr (readFrame_take _ hop.short hn)

theorem loadFrames_stops (fuel : Nat) (c : AnnealCheckpoint) {rest : Bytes} (h : Stops rest) :
    loadFrames fuel c ⟨rest, true⟩ = some c := by
  cases fuel with
  | zero => rfl
  | succ fuel =>
      rw [loadFrames]
      rcases h with rfl | hrest
      · rfl
      · rw [hrest]
        split <;> rfl

/-- Whole records are taken in one after the other, and what the loader stops at is dropped. -/
theorem loadFrames_ops (ops : List Op) (hops : ∀ op ∈ ops, op.Fits) {torn : Bytes}
    (htorn : Stops torn) :
    ∀ (fuel : Nat) (c : AnnealCheckpoint), (ops.flatMap Op.framed).length ≤ fuel →
      loadFrames fuel c ⟨ops.flatMap Op.framed ++ torn, true⟩ = some (ops.foldl Op.seen c) := by
  induction ops with
  | nil => intro fuel c _; exact loadFrames_stops fuel c htorn
  | cons op ops ih =>
      intro fuel c hfuel
      rw [List.flatMap_cons, List.length_append] at hfuel
      have hpos := op.framed_pos
      obtain ⟨fuel, rfl⟩ : ∃ k, fuel = k + 1 := ⟨fuel - 1, by omega⟩
      have hne : op.framed ++ (ops.flatMap Op.framed ++ torn) ≠ [] := by
        intro hc
        rw [List.append_eq_nil_iff] at hc
        simp [hc.1] at hpos
      rw [List.flatMap_cons, List.append_assoc, loadFrames,
        if_pos (by rw [Bool.true_and]; exact decide_eq_true hne), op.framed_eq,
        readFrame_frame _ (hops op List.mem_cons_self).length_lt]
      show loadFrames fuel (c.loadRecord op.kind op.payload) _ = _
      have hop := hops op List.mem_cons_self
      rw [loadRecord_seen c hop.own hop.length_lt]
      exact ih (fun x hx => hops x (List.mem_cons_of_mem _ hx)) fuel _ (by omega)

theorem loadRecords_ops (ops : List Op) (hops : ∀ op ∈ ops, op.Fits) {torn : Bytes}
    (htorn : Stops torn) :
    loadRecords {} (ops.flatMap Op.framed ++ torn) = some (ops.foldl Op.seen {}) :=
  loadFrames_ops ops hops htorn _ {} (by simp)

/-! ### The last record of a TU -/

/-- The phase-1 record a TU ends with. -/
def lastPhase1 (ops : List Op) (tu : Str) : Option Phase1Record :=
  (ops.filterMap fun
    | .phase1 t stamp contribution =>
        if t = tu then some { stamp, payload := contribution } else none
    | _ => none).getLast?

/-- The phase-2 record a TU ends with. -/
def lastPhase2 (ops : List Op) (tu : Str) : Option Phase2Record :=
  (ops.filterMap fun
    | .phase2 t stamp indexSetHash diags =>
        if t = tu then some { stamp, indexSetHash, diagnostics := diags } else none
    | _ => none).getLast?

theorem lookup_phase1_fold (ops : List Op) (c : AnnealCheckpoint) (tu : Str) :
    (ops.foldl Op.seen c).phase1.lookup tu = (lastPhase1 ops tu).or (c.phase1.lookup tu) := by
  induction ops using List.reverseRecOn with
  | nil => rfl
  | append_singleton ops op ih =>
      rw [List.foldl_append, List.foldl_cons, List.foldl_nil]
      unfold lastPhase1 at ih ⊢
      rw [List.filterMap_append]
      cases op with
      | attempt phase t stamp => simpa [Op.seen, countAttempt] using ih
      | phase2 t stamp hash diags => simpa [Op.seen, clearAttempts] using ih
      | phase1 t stamp contribution =>
          show AList.lookup tu (AList.insert t _ (ops.foldl Op.seen c).phase1) = _
          rw [UMap.lookup_insert_ite, ih]
          by_cases ht : t = tu
          · simp [ht]
          · simp [ht, Ne.symm ht]

theorem lookup_phase2_fold (ops : List Op) (c : AnnealCheckpoint) (tu : Str) :
    (ops.foldl Op.seen c).phase2.lookup tu = (lastPhase2 ops tu).or (c.phase2.lookup tu) := by
  induction ops using List.reverseRecOn with
  | nil => rfl
  | append_singleton ops op ih =>
      rw [List.foldl_append, List.foldl_cons, List.foldl_nil]
      unfold lastPhase2 at ih ⊢
      rw [List.filterMap_append]
      cases op with
      | attempt phase t stamp => simpa [Op.seen, countAttempt] using ih
      | phase1 t stamp contribution => simpa [Op.seen, clearAttempts] using ih
      | phase2 t stamp hash diags =>
          show AList.lookup tu (AList.insert t _ (ops.foldl Op.seen c).phase2) = _
          rw [UMap.lookup_insert_ite, ih]
          by_cases ht : t = tu
          · simp [ht]
          · simp [ht, Ne.symm ht]

/-! ### What a kill leaves -/

theorem run_out (ops : List Op) (c : AnnealCheckpoint) :
    (ops.foldl Op.run c).out = c.out ++ ops.flatMap Op.framed := by
  induction ops generalizing c with
  | nil => simp
  | cons op ops ih =>
      rw [List.foldl_cons, ih, List.flatMap_cons, ← List.append_assoc]
      cases op <;> rfl

theorem mem_flushedOps {ops : List Op} {n : Nat} {op : Op} (h : op ∈ flushedOps ops n) :
    op ∈ ops := by
  induction ops generalizing n with
  | nil => simp [flushedOps] at h
  | cons x ops ih =>
      rw [flushedOps] at h
      split at h
      · rcases List.mem_cons.mp h with rfl | h
        · exact List.mem_cons_self
        · exact List.mem_cons_of_mem _ (ih h)
      · simp at h

/-- A prefix of framed records is the completed ones and a torn tail. -/
theorem take_framed (ops : List Op) (hops : ∀ op ∈ ops, op.Fits) (n : Nat) :
    ∃ torn, (ops.flatMap Op.framed).take n = (flushedOps ops n).flatMap Op.framed ++ torn ∧
      TornTail torn := by
  induction ops generalizing n with
  | nil => exact ⟨[], by simp [flushedOps], Or.inl rfl⟩
  | cons op ops ih =>
      rw [flushedOps, List.flatMap_cons, List.take_append]
      by_cases hfit : op.framed.length ≤ n
      · obtain ⟨torn, heq, htorn⟩ := ih (fun x hx => hops x (List.mem_cons_of_mem _ hx))
          (n - op.framed.length)
        refine ⟨torn, ?_, htorn⟩
        rw [if_pos hfit, List.take_of_length_le hfit, heq, List.flatMap_cons, List.append_assoc]
      · have hzero : n - op.framed.length = 0 := by omega
        refine ⟨op.framed.take n, ?_, Or.inr ⟨op, hops op List.mem_cons_self, n, by omega, rfl⟩⟩
        rw [if_neg hfit, hzero]
        simp

/-! ### The header -/

theorem header_length (fp : UInt64) : (header fp).length = kHeaderSize := by
  simp [header, putU32, putU64, kHeaderSize, show kMagic.length = 4 from rfl]

theorem reusable_header (fp : UInt64) (bs : Bytes) : reusable (header fp ++ bs) fp = true := by
  have hlen := header_length fp
  have htake : (header fp ++ bs).take kHeaderSize = header fp := by
    rw [← hlen, List.take_left]
  have hmagic : (header fp ++ bs).take 4 = kMagic := rfl
  have hdrop : (header fp).drop 4 = putU32 kVersion ++ putU64 fp := rfl
  have hversion := reads_u32 kVersion (by simp [putU32]) (putU64 fp)
  have hfp := reads_u64 fp (by simp [putU64]) []
  rw [List.append_nil] at hfp
  have hge : kHeaderSize ≤ (header fp).length + bs.length := by omega
  simp [reusable, htake, hmagic, hdrop, hversion, hfp, hge]

theorem not_reusable_short {fp : UInt64} {bs : Bytes} (h : bs.length < kHeaderSize) :
    reusable bs fp = false := by
  simp [reusable, Nat.not_le.mpr h]

/-! ### The state of the journal file

Between two runs the file is in one of three states: to be discarded, ending on
a record boundary, or with something torn behind its records. The last state is
never left.
-/

/-- An open starts a fresh journal: there is no file, or it is not ours. -/
def Discarded (fp : UInt64) (file : Option Bytes) : Prop :=
  ∀ bytes, file = some bytes → reusable bytes fp = false

/-- A header, the records of `ops`, and nothing after the last of them. -/
def OnBoundary (fp : UInt64) (file : Option Bytes) : Prop :=
  ∃ ops : List Op, (∀ op ∈ ops, op.Fits) ∧ file = some (header fp ++ ops.flatMap Op.framed)

/-- The file holds exactly `ops` as far as a loader can tell. -/
inductive Holds (fp : UInt64) : Option Bytes → List Op → Prop
  | fresh {file : Option Bytes} : Discarded fp file → Holds fp file []
  | journal {ops : List Op} {torn : Bytes} : (∀ op ∈ ops, op.Fits) → TornTail torn →
      Holds fp (some (header fp ++ (ops.flatMap Op.framed ++ torn))) ops

theorem openAt_discarded {fp : UInt64} {file : Option Bytes} (h : Discarded fp file) :
    openAt file fp = some ⟨{ out := header fp }, []⟩ := by
  cases file with
  | none => rfl
  | some bytes => simp [openAt, h bytes rfl]

theorem openAt_journal (fp : UInt64) {ops : List Op} (hops : ∀ op ∈ ops, op.Fits) {torn : Bytes}
    (htorn : Stops torn) :
    openAt (some (header fp ++ (ops.flatMap Op.framed ++ torn))) fp
      = some ⟨ops.foldl Op.seen {}, header fp ++ (ops.flatMap Op.framed ++ torn)⟩ := by
  have hdrop : (header fp ++ (ops.flatMap Op.framed ++ torn)).drop kHeaderSize
      = ops.flatMap Op.framed ++ torn := by
    rw [← header_length fp, List.drop_left]
  rw [openAt, if_pos (reusable_header fp _), hdrop, loadRecords_ops ops hops htorn]
  rfl

theorem seen_out (ops : List Op) (c : AnnealCheckpoint) : (ops.foldl Op.seen c).out = c.out := by
  induction ops generalizing c with
  | nil => rfl
  | cons op ops ih =>
      rw [List.foldl_cons, ih]
      cases op <;> rfl

/-- Nothing torn can stand between the records of a journal that ends on a boundary. -/
theorem torn_nil {ops ops' : List Op} (hops : ∀ op ∈ ops, op.Fits)
    (hops' : ∀ op ∈ ops', op.Fits) {torn : Bytes} (htorn : TornTail torn)
    (h : ops.flatMap Op.framed ++ torn = ops'.flatMap Op.framed) : torn = [] := by
  induction ops generalizing ops' with
  | nil =>
      rcases htorn with rfl | ⟨op, hop, n, hn, rfl⟩
      · rfl
      · cases ops' with
        | nil => simpa using h
        | cons op' ops' =>
            rw [List.flatMap_nil, List.nil_append, List.flatMap_cons] at h
            have htail := readFrame_take op.kind hop.short (op.framed_eq ▸ hn)
            rw [← op.framed_eq, h, op'.framed_eq,
              readFrame_frame _ (hops' op' List.mem_cons_self).length_lt] at htail
            simp at htail
  | cons op ops ih =>
      cases ops' with
      | nil =>
          have hpos := op.framed_pos
          rw [List.flatMap_cons, List.flatMap_nil, List.append_assoc, List.append_eq_nil_iff] at h
          simp [h.1] at hpos
      | cons op' ops' =>
          rw [List.flatMap_cons, List.flatMap_cons, List.append_assoc] at h
          have hread := readFrame_frame op.kind (hops op List.mem_cons_self).length_lt
            (ops.flatMap Op.framed ++ torn)
          rw [← op.framed_eq, h, op'.framed_eq,
            readFrame_frame _ (hops' op' List.mem_cons_self).length_lt] at hread
          injection hread with _ _ hrest
          injection hrest with hrest
          exact ih (fun x hx => hops x (List.mem_cons_of_mem _ hx))
            (fun x hx => hops' x (List.mem_cons_of_mem _ hx)) hrest.symm

/-! ### Runs -/

/-- The run appends nothing, or to a journal that ends on a record boundary, or to a
fresh one. -/
structure Run.Clean (fp : UInt64) (file : Option Bytes) (run : Run) : Prop where
  fits : ∀ op ∈ run.ops, op.Fits
  boundary : run.ops = [] ∨ run.cut = 0 ∨ Discarded fp file ∨ OnBoundary fp file

/-- Every run of the history is clean in the state it finds. -/
def CleanRuns (fp : UInt64) : Option Bytes → List Run → Prop
  | _, [] => True
  | file, run :: runs => run.Clean fp file ∧ CleanRuns fp (run.file fp file) runs

theorem flushedOps_zero (ops : List Op) : flushedOps ops 0 = [] := by
  cases ops with
  | nil => rfl
  | cons op ops =>
      have := op.framed_pos
      rw [flushedOps, if_neg (by omega)]

theorem Holds.run_fresh {fp : UInt64} {file : Option Bytes} (hd : Discarded fp file) {run : Run}
    (hfits : ∀ op ∈ run.ops, op.Fits) : Holds fp (run.file fp file) (run.flushed fp file) := by
  have hopen := openAt_discarded hd
  have hfile : run.file fp file
      = some ((header fp ++ run.ops.flatMap Op.framed).take run.cut) := by
    rw [Run.file, hopen]
    simp only [run_out, List.nil_append]
  have hflushed : run.flushed fp file = flushedOps run.ops (run.cut - kHeaderSize) := by
    rw [Run.flushed, hopen]
    simp only [header_length]
  rw [hfile, hflushed]
  by_cases hcut : run.cut < kHeaderSize
  · -- killed inside the header: the next open discards the file
    have hzero : run.cut - kHeaderSize = 0 := by omega
    rw [hzero, flushedOps_zero]
    refine Holds.fresh ?_
    intro bytes hbytes
    injection hbytes with hbytes
    refine not_reusable_short ?_
    rw [← hbytes, List.length_take]
    omega
  · obtain ⟨torn, heq, htorn⟩ := take_framed run.ops hfits (run.cut - kHeaderSize)
    rw [List.take_append, header_length, heq,
      List.take_of_length_le (by rw [header_length]; omega)]
    exact Holds.journal (fun op hop => hfits op (mem_flushedOps hop)) htorn

theorem Holds.run_journal {fp : UInt64} {ops : List Op} (hops : ∀ op ∈ ops, op.Fits)
    {torn : Bytes} (htorn : TornTail torn) {run : Run}
    (hclean : run.Clean fp (some (header fp ++ (ops.flatMap Op.framed ++ torn)))) :
    Holds fp (run.file fp (some (header fp ++ (ops.flatMap Op.framed ++ torn))))
      (ops ++ run.flushed fp (some (header fp ++ (ops.flatMap Op.framed ++ torn)))) := by
  have hopen := openAt_journal fp hops htorn.stops
  set kept := header fp ++ (ops.flatMap Op.framed ++ torn) with hkept
  have hfile : run.file fp (some kept)
      = some (kept ++ (run.ops.flatMap Op.framed).take run.cut) := by
    rw [Run.file, hopen]
    simp only [run_out, seen_out, List.nil_append]
  have hflushed : run.flushed fp (some kept) = flushedOps run.ops run.cut := by
    rw [Run.flushed, hopen]
    simp only [seen_out, List.length_nil, Nat.sub_zero]
  rw [hfile, hflushed]
  have hsame : ∀ bs : Bytes, bs = [] → Holds fp (some (kept ++ bs)) (ops ++ []) := by
    intro bs hbs
    rw [hbs, List.append_nil, List.append_nil]
    exact Holds.journal hops htorn
  rcases hclean.boundary with hnone | hzero | hdisc | ⟨ops', hops', heq⟩
  · rw [hnone]
    exact hsame _ (by simp)
  · rw [hzero, flushedOps_zero]
    exact hsame _ (by simp)
  · have hreuse := hdisc kept rfl
    rw [hkept, reusable_header] at hreuse
    simp at hreuse
  · injection heq with heq
    have hnil := torn_nil hops hops' htorn (List.append_cancel_left heq)
    obtain ⟨torn', htake, htorn'⟩ := take_framed run.ops hclean.fits run.cut
    have hbytes : kept ++ (run.ops.flatMap Op.framed).take run.cut
        = header fp ++ ((ops ++ flushedOps run.ops run.cut).flatMap Op.framed ++ torn') := by
      rw [hkept, hnil, htake, List.flatMap_append]
      simp only [List.append_nil, List.append_assoc]
    rw [hbytes]
    refine Holds.journal ?_ htorn'
    intro op hop
    rcases List.mem_append.mp hop with hop | hop
    · exact hops op hop
    · exact hclean.fits op (mem_flushedOps hop)

/-- **A clean run keeps the records the file held and adds the ones it completed.** -/
theorem Holds.run {fp : UInt64} {file : Option Bytes} {ops : List Op} (h : Holds fp file ops)
    {run : Run} (hclean : run.Clean fp file) :
    Holds fp (run.file fp file) (ops ++ run.flushed fp file) := by
  cases h with
  | fresh hd => exact Holds.run_fresh hd hclean.fits
  | journal hops htorn => exact Holds.run_journal hops htorn hclean

theorem Holds.runs {fp : UInt64} (runs : List Run) {file : Option Bytes} {ops : List Op}
    (h : Holds fp file ops) (hclean : CleanRuns fp file runs) :
    Holds fp (afterRuns fp file runs) (ops ++ flushedBy fp file runs) := by
  induction runs generalizing file ops with
  | nil =>
      rw [flushedBy, List.append_nil]
      exact h
  | cons run runs ih =>
      have hnext := ih (h.run hclean.1) hclean.2
      rwa [List.append_assoc] at hnext

/-! ### Durability -/

/-- The journal object knows every one of these records, in this order. -/
structure Sees (c : AnnealCheckpoint) (ops : List Op) : Prop where
  loaded : { c with out := [] } = ops.foldl Op.seen {}
  replay1 : ∀ tu stamp contribution, lastPhase1 ops tu = some ⟨stamp, contribution⟩ →
    c.replayPhase1 tu stamp = some contribution
  replay2 : ∀ tu stamp indexSetHash diags, lastPhase2 ops tu = some ⟨stamp, indexSetHash, diags⟩ →
    ∀ out, c.replayPhase2 tu stamp indexSetHash out = some (out ++ diags)

/-- After these runs an open sees every record they completed. -/
def Durable (fp : UInt64) (file : Option Bytes) (runs : List Run) : Prop :=
  ∃ o, openAt (afterRuns fp file runs) fp = some o ∧ Sees o.ckpt (flushedBy fp file runs)

theorem sees_of_loaded {c : AnnealCheckpoint} {ops : List Op}
    (h : { c with out := [] } = ops.foldl Op.seen {}) : Sees c ops := by
  have h1 : c.phase1 = (ops.foldl Op.seen {}).phase1 := by rw [← h]
  have h2 : c.phase2 = (ops.foldl Op.seen {}).phase2 := by rw [← h]
  refine ⟨h, ?_, ?_⟩
  · intro tu stamp contribution hlast
    have hlook := lookup_phase1_fold ops {} tu
    rw [hlast, ← h1] at hlook
    simp [replayPhase1, hlook]
  · intro tu stamp indexSetHash diags hlast out
    have hlook := lookup_phase2_fold ops {} tu
    rw [hlast, ← h2] at hlook
    simp [replayPhase2, hlook]

/-- **Appends that start on a record boundary survive every later kill.**  Each run may
be killed at any byte of what it writes. -/
theorem journal_durable (fp : UInt64) (file : Option Bytes) (runs : List Run)
    (hfile : Discarded fp file) (hclean : CleanRuns fp file runs) : Durable fp file runs := by
  have hholds := (Holds.fresh hfile).runs runs hclean
  rw [List.nil_append] at hholds
  unfold Durable
  generalize flushedBy fp file runs = ops, afterRuns fp file runs = bytes at hholds ⊢
  cases hholds with
  | fresh hd => exact ⟨_, openAt_discarded hd, sees_of_loaded rfl⟩
  | journal hops htorn =>
      refine ⟨_, openAt_journal fp hops htorn.stops, sees_of_loaded ?_⟩
      have hout := seen_out ops {}
      generalize List.foldl Op.seen {} ops = c at hout ⊢
      cases c
      simp at hout
      simp [hout]

/-- A run killed inside its second record, and a run that appends nothing after it. -/
theorem journal_durable_two_runs :
    Durable 7 none
      [⟨[.attempt 2 (str "a.cpp") ⟨str "a.cpp", 3, 4⟩], 100⟩,
        ⟨[.phase2 (str "a.cpp") ⟨str "a.cpp", 3, 4⟩ 9 [], .attempt 1 (str "b") ⟨str "b", 1, 1⟩], 60⟩,
        ⟨[], 0⟩] := by
  refine journal_durable 7 none _ (fun bytes h => by simp at h) ⟨⟨?_, ?_⟩, ⟨?_, ?_⟩, ⟨?_, ?_⟩, trivial⟩
  · intro op hop
    rw [List.mem_singleton.mp hop]
    exact ⟨by decide, by decide⟩
  · exact Or.inr (Or.inr (Or.inl fun bytes h => by simp at h))
  · intro op hop
    rcases List.mem_pair.mp hop with rfl | rfl
    · exact ⟨by decide, by decide⟩
    · exact ⟨by decide, by decide⟩
  · refine Or.inr (Or.inr (Or.inr ⟨[.attempt 2 (str "a.cpp") ⟨str "a.cpp", 3, 4⟩], ?_, rfl⟩))
    intro op hop
    rw [List.mem_singleton.mp hop]
    exact ⟨by decide, by decide⟩
  · simp
  · exact Or.inl rfl

/-- A run killed five bytes into its first record, and then a run that completes one: the
next open sees neither. -/
theorem journal_hides_after_tear :
    ¬ ∀ (fp : UInt64) (file : Option Bytes) (runs : List Run), Discarded fp file →
      (∀ run ∈ runs, ∀ op ∈ run.ops, op.Fits) → Durable fp file runs := by
  intro h
  obtain ⟨o, ho, hsees⟩ := h 7 none
    [⟨[.attempt 2 (str "a") ⟨str "a", 3, 4⟩], 21⟩, ⟨[.phase2 (str "a") ⟨str "a", 3, 4⟩ 9 []], 100⟩]
    (fun bytes h => by simp at h)
    (by
      intro run hrun op hop
      rcases List.mem_pair.mp hrun with rfl | rfl <;> rw [List.mem_singleton.mp hop]
      · exact ⟨by decide, by decide⟩
      · exact ⟨by decide, by decide⟩)
  have hreplay := hsees.replay2 (str "a") ⟨str "a", 3, 4⟩ 9 [] (by decide) []
  have hnone : (openAt (afterRuns 7 none
      [⟨[.attempt 2 (str "a") ⟨str "a", 3, 4⟩], 21⟩,
        ⟨[.phase2 (str "a") ⟨str "a", 3, 4⟩ 9 []], 100⟩]) 7).map
      (fun o => o.ckpt.replayPhase2 (str "a") ⟨str "a", 3, 4⟩ 9 []) = some none := by decide
  rw [ho, Option.map_some, hreplay] at hnone
  simp at hnone

end AnnealCheckpoint
end Vycor
