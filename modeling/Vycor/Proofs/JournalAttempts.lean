/-
The attempt counts of a running process and those of its journal.

Counting is written twice, in the loader and in the calls that append, and the poison
decision uses whichever is at hand.  The two agree as long as the record that a call appends
is loaded as the call it came from, and for that its length has to fit the frame's 32-bit
field: a longer record is written with a length that is too small, so the loader stops there
while the process has counted it.

The stamp handed in is the one of the TU's own file, as every caller passes it; a record
does not store the path again.
-/
import Vycor.Proofs.JournalRecords

namespace Vycor

open Wire Checkpoint

namespace AnnealCheckpoint

/-! ### One call

A call changes the counts of the process as the record it appends changes the
counts of a process that loads it. Only the stamp of an attempt may tell the two
apart.
-/

/-- The call as its record stores it: the stamp is the TU's own. -/
def Op.stored : Op → Op
  | attempt phase tu stamp => attempt phase tu { stamp with path := tu }
  | phase1 tu stamp contribution => phase1 tu { stamp with path := tu } contribution
  | phase2 tu stamp indexSetHash diags => phase2 tu { stamp with path := tu } indexSetHash diags

theorem Op.stored_kind (op : Op) : op.stored.kind = op.kind := by cases op <;> rfl

theorem Op.stored_payload (op : Op) : op.stored.payload = op.payload := by cases op <;> rfl

theorem Op.stored_own (op : Op) : op.stored.stamp.path = op.stored.tu := by cases op <;> rfl

/-- An attempt is counted under the stamp of its own TU. -/
def Op.Own (op : Op) : Prop := op.kind = kKindAttempt → op.stamp.path = op.tu

/-- The length of the record fits its frame. -/
def Op.Short (op : Op) : Prop := op.payload.length < 2 ^ 32

/-- The record that a call appends. -/
def Op.record (op : Op) : Rec := (op.kind, op.payload)

theorem applyRec_record (c : AnnealCheckpoint) {op : Op} (hshort : op.Short) :
    applyRec c op.record = op.stored.seen c := by
  have hload := loadRecord_seen c op.stored_own (by rw [op.stored_payload]; exact hshort)
  rw [op.stored_kind, op.stored_payload] at hload
  exact hload

/-- What a call does to the counts, loaded or live. -/
theorem Op.attempts_seen_run {c d : AnnealCheckpoint} (h : c.attempts = d.attempts) {op : Op}
    (hown : op.Own) : (op.stored.seen c).attempts = (op.run d).attempts := by
  cases op with
  | attempt phase tu stamp =>
      have hpath : stamp.path = tu := hown rfl
      have hstamp : ({ stamp with path := tu } : FileStamp) = stamp := by rw [← hpath]
      show (c.countAttempt phase tu _).attempts
        = ((d.appendRecord _ _).countAttempt phase tu stamp).attempts
      rw [hstamp]
      simp only [countAttempt, appendRecord, h]
  | phase1 tu stamp contribution =>
      show (c.clearAttempts kPhaseIndex tu).attempts
        = ((d.appendRecord _ _).clearAttempts kPhaseIndex tu).attempts
      simp only [clearAttempts, appendRecord, h]
  | phase2 tu stamp indexSetHash diags =>
      show (c.clearAttempts kPhaseAnalyze tu).attempts
        = ((d.appendRecord _ _).clearAttempts kPhaseAnalyze tu).attempts
      simp only [clearAttempts, appendRecord, h]

theorem attempts_mirror (ops : List Op) (hops : ∀ op ∈ ops, op.Own ∧ op.Short)
    {c d : AnnealCheckpoint} (h : c.attempts = d.attempts) :
    ((ops.map Op.record).foldl applyRec c).attempts = (ops.foldl Op.run d).attempts := by
  induction ops generalizing c d with
  | nil => exact h
  | cons op ops ih =>
      obtain ⟨hown, hshort⟩ := hops op List.mem_cons_self
      rw [List.map_cons, List.foldl_cons, List.foldl_cons]
      refine ih (fun x hx => hops x (List.mem_cons_of_mem _ hx)) ?_
      rw [applyRec_record c hshort]
      exact Op.attempts_seen_run h hown

/-! ### Runs -/

/-- Nothing to reopen, or a header and whole records: of any kind, and whether or not they
decode. -/
def Intact (fp : UInt64) (file : Option Bytes) : Prop :=
  Discarded fp file ∨
    ∃ recs, (∀ r ∈ recs, WellFramed r) ∧ file = some (header fp ++ recordBytes recs)

/-- After these calls the process and a reopen of what it wrote count the same attempts. -/
def Mirrors (fp : UInt64) (file : Option Bytes) (ops : List Op) : Prop :=
  ∃ o, openAt file fp = some o ∧
    ∃ o', openAt (some (o.kept ++ (ops.foldl Op.run o.ckpt).out)) fp = some o' ∧
      ∀ phase tu stamp, (ops.foldl Op.run o.ckpt).attemptsOf phase tu stamp
        = o'.ckpt.attemptsOf phase tu stamp

theorem ends_nil : Ends [] := by
  intro r tail _ h
  have hpos := frame_pos r.1 r.2
  have hlen := congrArg List.length h
  rw [List.length_append, List.length_nil] at hlen
  omega

theorem openAt_records (fp : UInt64) {recs : List Rec} (hrecs : ∀ r ∈ recs, WellFramed r) :
    openAt (some (header fp ++ recordBytes recs)) fp
      = some ⟨recs.foldl applyRec {}, header fp ++ recordBytes recs⟩ := by
  have hpre : ValidPrefix (recordBytes recs) recs [] := ⟨by simp, hrecs, ends_nil⟩
  have hsafe : ¬ WrapsPast [] := by
    rintro ⟨kind, len, tail, hbytes, -⟩
    simp [putU8] at hbytes
  have hdrop : (header fp ++ recordBytes recs).drop kHeaderSize = recordBytes recs := by
    rw [← header_length fp, List.drop_left]
  rw [openAt, if_pos (reusable_header fp _), hdrop, (loadRecords_validPrefix hpre {}).1 hsafe]
  rfl

theorem framed_eq_recordBytes (ops : List Op) :
    ops.flatMap Op.framed = recordBytes (ops.map Op.record) := by
  rw [recordBytes, List.flatMap_map]
  exact List.flatMap_congr fun op _ => op.framed_eq

theorem applyRec_out (c : AnnealCheckpoint) (r : Rec) : (applyRec c r).out = c.out := by
  unfold applyRec loadRecord
  dsimp only
  split_ifs <;> rfl

theorem foldl_applyRec_out (recs : List Rec) (c : AnnealCheckpoint) :
    (recs.foldl applyRec c).out = c.out := by
  induction recs generalizing c with
  | nil => rfl
  | cons r recs ih => rw [List.foldl_cons, ih, applyRec_out]

theorem attemptsOf_congr {c d : AnnealCheckpoint} (h : c.attempts = d.attempts) (phase : UInt8)
    (tu : Str) (stamp : FileStamp) : c.attemptsOf phase tu stamp = d.attemptsOf phase tu stamp := by
  unfold attemptsOf
  rw [h]

/-- A reopen after the calls finds the records that were there and those of the calls. -/
theorem mirrors_of_opened {fp : UInt64} {file : Option Bytes} {recs : List Rec}
    {c : AnnealCheckpoint} {kept : Bytes} (hrecs : ∀ r ∈ recs, WellFramed r)
    (hopen : openAt file fp = some ⟨c, kept⟩) (hkept : kept ++ c.out = header fp ++ recordBytes recs)
    (hcounts : c.attempts = (recs.foldl applyRec {}).attempts) (ops : List Op)
    (hops : ∀ op ∈ ops, op.Own ∧ op.Short) : Mirrors fp file ops := by
  have hall : ∀ r ∈ recs ++ ops.map Op.record, WellFramed r := by
    intro r hr
    rcases List.mem_append.mp hr with hr | hr
    · exact hrecs r hr
    · obtain ⟨op, hop, rfl⟩ := List.mem_map.mp hr
      exact (hops op hop).2
  have hbytes : kept ++ (ops.foldl Op.run c).out
      = header fp ++ recordBytes (recs ++ ops.map Op.record) := by
    rw [run_out, ← List.append_assoc, hkept, framed_eq_recordBytes]
    simp only [recordBytes, List.flatMap_append, List.append_assoc]
  refine ⟨⟨c, kept⟩, hopen, _, by rw [hbytes]; exact openAt_records fp hall, ?_⟩
  intro phase tu stamp
  refine attemptsOf_congr ?_ phase tu stamp
  rw [List.foldl_append]
  exact (attempts_mirror ops hops hcounts.symm).symm

/-- **The live counts are those of the journal**, after any calls on any reopened intact
journal, as long as every record's length fits its frame. -/
theorem live_attempts_mirror (fp : UInt64) (file : Option Bytes) (ops : List Op)
    (hfile : Intact fp file) (hown : ∀ op ∈ ops, op.Own) (hshort : ∀ op ∈ ops, op.Short) :
    Mirrors fp file ops := by
  have hops : ∀ op ∈ ops, op.Own ∧ op.Short := fun op hop => ⟨hown op hop, hshort op hop⟩
  rcases hfile with hdiscarded | ⟨recs, hrecs, rfl⟩
  · have hopen := openAt_discarded hdiscarded
    have hnone : ∀ r ∈ ([] : List Rec), WellFramed r := fun r hr => absurd hr List.not_mem_nil
    exact mirrors_of_opened hnone hopen (by simp [recordBytes]) rfl ops hops
  · have hopen := openAt_records fp hrecs
    refine mirrors_of_opened hrecs hopen ?_ rfl ops hops
    rw [foldl_applyRec_out, List.append_nil]

/-- A journal with one start of a TU and a record of unknown kind, and a process that starts
the TU again with another stamp, twice, and another one that it completes. -/
theorem live_attempts_mirror_reopened :
    Mirrors 7 (some (header 7 ++ recordBytes
        [(kKindAttempt, attemptPayload 1 (str "a") ⟨str "a", 3, 4⟩), (9, [1, 2])]))
      [.attempt 1 (str "a") ⟨str "a", 5, 4⟩, .attempt 1 (str "a") ⟨str "a", 5, 4⟩,
        .attempt 2 (str "b") ⟨str "b", 1, 1⟩, .phase2 (str "b") ⟨str "b", 1, 1⟩ 9 []] := by
  refine live_attempts_mirror 7 _ _ (Or.inr ⟨_, ?_, rfl⟩) ?_ ?_
  · simp only [List.forall_mem_cons, WellFramed]
    exact ⟨by decide, by decide, by simp⟩
  · simp only [List.forall_mem_cons, Op.Own]
    exact ⟨fun _ => rfl, fun _ => rfl, fun _ => rfl, fun _ => rfl, by simp⟩
  · simp only [List.forall_mem_cons, Op.Short]
    exact ⟨by decide, by decide, by decide, by decide, by simp⟩

/-! ### A record longer than its length field -/

/-- A contribution of this many base edges between nameless classes, eight bytes each. -/
def manyEdges (n : Nat) : AnnealIndexPayload := { baseEdges := List.replicate n ([], []) }

theorem flatMap_manyEdges (n : Nat) :
    (List.replicate n (([], []) : Str × Str)).flatMap putStringPair = List.replicate (8 * n) 0 := by
  induction n with
  | zero => rfl
  | succ n ih =>
      rw [List.replicate_succ, List.flatMap_cons, ih, show 8 * (n + 1) = 8 + 8 * n by omega,
        List.replicate_add]
      rfl

/-- The payload of such a record is zero but for its front. -/
theorem phase1Payload_manyEdges (tu : Str) (stamp : FileStamp) (n : Nat) :
    phase1Payload tu stamp (manyEdges n)
      = putStr tu ++ (putStamp stamp ++ (List.replicate 12 0 ++
          (putU32 (UInt32.ofNat n) ++ List.replicate (8 * n + 36) 0))) := by
  have hempty : ∀ {α : Type} (put : α → Bytes), putList put [] = List.replicate 4 0 := by
    intro α put
    rw [putList, List.flatMap_nil, List.append_nil, List.length_nil]
    decide
  have hedges : putList putStringPair (List.replicate n (([], []) : Str × Str))
      = putU32 (UInt32.ofNat n) ++ List.replicate (8 * n) 0 := by
    rw [putList, List.length_replicate, flatMap_manyEdges]
  have htail : ∀ m, List.replicate (8 * n + m) (0 : UInt8)
      = List.replicate (8 * n) 0 ++ List.replicate m 0 := fun m => List.replicate_add ..
  simp only [phase1Payload, encodeIndexPayload, manyEdges, hempty, hedges, htail,
    List.append_assoc]
  rfl

theorem readFrame_manyEdges :
    readFrame ⟨frame kKindPhase1 (phase1Payload (str "a") ⟨str "a", 3, 4⟩ (manyEdges (2 ^ 29))),
      true⟩ = .tail := by
  set payload := phase1Payload (str "a") ⟨str "a", 3, 4⟩ (manyEdges (2 ^ 29)) with hpayload
  have hlen : UInt32.ofNat payload.length = 73 := by
    rw [hpayload, phase1Payload_manyEdges]
    simp only [List.length_append, List.length_replicate, putStr, putStamp, putU32, putU64,
      leBytes_length]
    rfl
  -- the 73 bytes that the wrapped length announces, and what the loader takes for a checksum
  obtain ⟨front, more, hfront, hsum, hsplit⟩ : ∃ front more, front.length = 73 ∧
      fnv32 front ≠ 0 ∧ payload = front ++ (putU32 0 ++ more) := by
    refine ⟨putStr (str "a") ++ (putStamp ⟨str "a", 3, 4⟩ ++ (List.replicate 12 0 ++
      (putU32 (UInt32.ofNat (2 ^ 29)) ++ List.replicate 36 0))),
      List.replicate (2 ^ 32 - 4) 0, by decide, by decide +kernel, ?_⟩
    have hzeros : List.replicate (8 * 2 ^ 29 + 36) (0 : UInt8)
        = List.replicate 36 0 ++ (putU32 0 ++ List.replicate (2 ^ 32 - 4) 0) := by
      rw [show putU32 0 = List.replicate 4 0 from rfl, ← List.replicate_add, ← List.replicate_add,
        show 8 * 2 ^ 29 + 36 = 36 + (4 + (2 ^ 32 - 4)) by norm_num]
    rw [hpayload, phase1Payload_manyEdges, hzeros]
    simp only [List.append_assoc]
  have hkind := reads_u8 kKindPhase1 (by simp [putU8])
  have hcount := reads_u32 73 (by simp [putU32])
  have hchecksum := reads_u32 0 (by simp [putU32])
  have hroom : 77 ≤ (front ++ (putU32 0 ++ (more ++ putU32 (fnv32 payload)))).length := by
    rw [List.length_append, hfront, List.length_append]
    simp [putU32]
    omega
  have htake : (front ++ (putU32 0 ++ (more ++ putU32 (fnv32 payload)))).take 73 = front := by
    rw [← hfront, List.take_left]
  have hdrop : (front ++ (putU32 0 ++ (more ++ putU32 (fnv32 payload)))).drop 73
      = putU32 0 ++ (more ++ putU32 (fnv32 payload)) := by
    rw [← hfront, List.drop_left]
  have hbytes : frame kKindPhase1 payload
      = putU8 kKindPhase1 ++ (putU32 73 ++ (front ++ (putU32 0 ++ (more ++ putU32 (fnv32 payload))))) := by
    rw [frame, hlen]
    nth_rewrite 1 [hsplit]
    simp only [List.append_assoc]
  rw [hbytes]
  unfold readFrame
  simp only [hkind, hcount, need_run, show ((73 : UInt32) + 4).toNat = 77 from rfl,
    show (73 : UInt32).toNat = 73 from rfl, decide_eq_true hroom, Nat.not_lt.mpr hroom, take_run,
    htake, hdrop, hchecksum, Bool.not_true, Bool.false_eq_true, if_false]
  exact if_pos (Ne.symm hsum)

/-- A TU is started once and completes with 2^29 base edges, eight bytes each: the process has
cleared its count and a reopen still finds it. -/
theorem oversized_record_diverges :
    ¬ ∀ (fp : UInt64) (file : Option Bytes) (ops : List Op), Intact fp file →
      (∀ op ∈ ops, op.Own) → Mirrors fp file ops := by
  intro h
  -- the contribution is named once, so that nothing below unfolds it
  obtain ⟨edges, hedges⟩ : ∃ edges, edges = manyEdges (2 ^ 29) := ⟨_, rfl⟩
  set started : Op := .attempt 1 (str "a") ⟨str "a", 3, 4⟩ with hstarted
  set done : Op := .phase1 (str "a") ⟨str "a", 3, 4⟩ edges with hdone
  obtain ⟨o, ho, o', ho', hcounts⟩ := h 7 none [started, done] (Or.inl fun bytes hb => by simp at hb)
    (by
      intro op hop _
      rcases List.mem_pair.mp hop with rfl | rfl <;> rfl)
  have ho : o = ⟨{ out := header 7 }, []⟩ := by
    injection ho with ho
    exact ho.symm
  subst ho
  have hfile : [] ++ ([started, done].foldl Op.run { out := header 7 }).out
      = header 7 ++ ([started].flatMap Op.framed ++ done.framed) := by
    rw [run_out]
    simp only [List.nil_append, List.flatMap_cons, List.flatMap_nil, List.append_nil]
  have hstops : Stops done.framed := by
    right
    rw [hdone, hedges]
    exact readFrame_manyEdges
  have hfits : ∀ op ∈ [started], op.Fits := by
    intro op hop
    rw [List.mem_singleton.mp hop]
    exact ⟨rfl, by decide⟩
  rw [hfile, openAt_journal 7 hfits hstops] at ho'
  injection ho' with ho'
  have hlive : ([started, done].foldl Op.run { out := header 7 }).attemptsOf 1 (str "a")
      ⟨str "a", 3, 4⟩ = 0 := rfl
  have hloaded : o'.ckpt.attemptsOf 1 (str "a") ⟨str "a", 3, 4⟩ = 1 := by
    rw [← ho']
    rfl
  have hsame := hcounts 1 (str "a") ⟨str "a", 3, 4⟩
  rw [hlive, hloaded] at hsame
  exact absurd hsame (by decide)

end AnnealCheckpoint

end Vycor
