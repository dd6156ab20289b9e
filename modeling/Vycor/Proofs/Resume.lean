/-
When a resumed run reports what a fresh run would.

Everything a run takes from the journal some earlier run put there, computed from the files
as they were then.  It is still right if the TU's own stamp tells when the result has
changed, which is what `Keeps.edits` asks of the edits between runs: an edit of a header
alone breaks it.  The other conditions rule out accidents: two contributing sets with one
hash, and a torn record that passes its checksum together with what was appended behind it.

The proof keeps the loader's view of the file through every run (`Holding`: the whole
records, and where the first torn one begins) and, for each run of the past, that it merged
exactly the contributions of its TUs (`Sound`).
-/
import Vycor.Model.RunAnalysis
import Vycor.Proofs.Checkpoint

namespace Vycor

open Checkpoint AnnealCheckpoint

/-! ### Conditions on a run -/

/-- A TU parses and is analyzed alike in two states of the files. -/
def SameResults (parser : Parser) (w w' : World) (tu : Str) : Prop :=
  parser.contribution w tu = parser.contribution w' tu ∧
    ∀ merged, parser.diagnose w tu merged = parser.diagnose w' tu merged

/-- What a resumed run needs of the history behind it. -/
structure Keeps (fp : UInt64) (parser : Parser) (s : Session) (p : Pass) : Prop where
  /-- No source is listed twice. -/
  distinct : p.run.sourceFiles.Nodup
  /-- A record's length field with the checksum's four bytes does not wrap. -/
  short : ∀ op ∈ p.ops, op.payload.length + 4 < 2 ^ 32
  /-- A torn record does not read as a record together with what was appended behind it. -/
  torn : ∀ start bytes, s.torn = some start → s.file = some bytes →
    readFrame ⟨bytes.drop start, true⟩ = .tail
  /-- An edit that keeps a TU's own mtime and size keeps what the TU gives. -/
  edits : ∀ q ∈ s.past, ∀ tu ∈ p.run.sourceFiles, tu ∈ q.run.sourceFiles →
    q.run.stamp tu = p.run.stamp tu → SameResults parser q.run.world p.run.world tu
  /-- Contributing sets with one hash are one set. -/
  hashes : ∀ q ∈ s.past, q.run.setHash = p.run.setHash → q.run.contributing.Perm p.run.contributing

/-! ### The file, as the loader reads it -/

/-- The file holds exactly these records before the first torn one. -/
inductive Holding (fp : UInt64) : Option Bytes → Option Nat → List Op → Prop
  | fresh {file : Option Bytes} : Discarded fp file → Holding fp file none []
  | whole (ops : List Op) : Holding fp (some (header fp ++ ops.flatMap Op.framed)) none ops
  | torn (ops : List Op) (rest : Bytes) :
      Holding fp (some (header fp ++ (ops.flatMap Op.framed ++ rest)))
        (some (header fp ++ ops.flatMap Op.framed).length) ops

theorem Holding.load {fp : UInt64} {file : Option Bytes} {torn : Option Nat} {ops : List Op}
    (h : Holding fp file torn ops) (hops : ∀ op ∈ ops, op.Fits)
    (htorn : ∀ start bytes, torn = some start → file = some bytes →
      readFrame ⟨bytes.drop start, true⟩ = .tail)
    {c : AnnealCheckpoint} (hopen : (openAt file fp).map (·.ckpt) = some c) :
    { c with out := [] } = ops.foldl Op.seen {} := by
  have hloaded : ∀ {rest : Bytes}, Stops rest →
      file = some (header fp ++ (ops.flatMap Op.framed ++ rest)) →
      { c with out := [] } = ops.foldl Op.seen {} := by
    intro rest hrest hfile
    rw [hfile, openAt_journal fp hops hrest, Option.map_some] at hopen
    have hout := seen_out ops {}
    rw [← Option.some.inj hopen]
    generalize List.foldl Op.seen {} ops = loaded at hout ⊢
    cases loaded
    simp only at hout
    rw [hout]
  cases h with
  | fresh hd =>
      rw [openAt_discarded hd, Option.map_some] at hopen
      rw [← Option.some.inj hopen]
      rfl
  | whole => exact hloaded (Or.inl rfl) (by rw [List.append_nil])
  | torn _ rest =>
      refine hloaded (Or.inr ?_) rfl
      have hstop := htorn _ _ rfl rfl
      rwa [← List.append_assoc, List.drop_left] at hstop

/-- What a run adds to a journal that begins with `kept`, and where it leaves a torn record. -/
theorem Pass.appends {fp : UInt64} {file : Option Bytes} {p : Pass} {kept : Bytes}
    {c : AnnealCheckpoint} (hopen : openAt file fp = some ⟨c, kept⟩) :
    p.file fp file = some (kept ++ (c.out ++ p.ops.flatMap Op.framed).take p.cut) ∧
    p.tear fp file =
      let whole := c.out.length + ((flushedOps p.ops (p.cut - c.out.length)).flatMap Op.framed).length
      if whole < ((c.out ++ p.ops.flatMap Op.framed).take p.cut).length then some (kept.length + whole)
      else none := by
  unfold Pass.file Run.file Pass.tear Run.flushed
  rw [hopen]
  simp only [run_out]
  exact ⟨trivial, trivial⟩

/-- Records behind a journal that ends after a whole one. -/
theorem Holding.append {fp : UInt64} {file : Option Bytes} {p : Pass} (hfits : ∀ op ∈ p.ops, op.Fits)
    {ops : List Op} {c : AnnealCheckpoint} {kept : Bytes} (hopen : openAt file fp = some ⟨c, kept⟩)
    (hkept : kept ++ c.out = header fp ++ ops.flatMap Op.framed) (hcut : c.out.length ≤ p.cut) :
    Holding fp (p.file fp file) (p.tear fp file) (ops ++ flushedOps p.ops (p.cut - c.out.length)) := by
  obtain ⟨hfile, htear⟩ := Pass.appends (p := p) hopen
  obtain ⟨torn, htake, -⟩ := take_framed p.ops hfits (p.cut - c.out.length)
  generalize flushedOps p.ops (p.cut - c.out.length) = more at htake htear ⊢
  have hwritten : (c.out ++ p.ops.flatMap Op.framed).take p.cut
      = c.out ++ (more.flatMap Op.framed ++ torn) := by
    rw [List.take_append, List.take_of_length_le hcut, htake]
  have hbytes : kept ++ (c.out ++ (more.flatMap Op.framed ++ torn))
      = header fp ++ ((ops ++ more).flatMap Op.framed ++ torn) := by
    rw [← List.append_assoc kept, hkept, List.flatMap_append]
    simp only [List.append_assoc]
  have hlen : kept.length + (c.out.length + (more.flatMap Op.framed).length)
      = (header fp ++ (ops ++ more).flatMap Op.framed).length := by
    have hlen := congrArg List.length hkept
    rw [List.flatMap_append]
    simp only [List.length_append] at hlen ⊢
    omega
  rw [hfile, htear, hwritten, hbytes]
  dsimp only
  rw [hlen]
  by_cases hnil : torn = []
  · rw [hnil, List.append_nil, List.append_nil, if_neg (by rw [List.length_append]; omega)]
    exact Holding.whole _
  · have hpos : 0 < torn.length := List.length_pos_iff.mpr hnil
    rw [if_pos (by simp only [List.length_append]; omega)]
    exact Holding.torn _ _

/-- **A run leaves the loader a longer list of records**, up to the first torn one. -/
theorem Holding.after {fp : UInt64} {file : Option Bytes} {torn : Option Nat} {ops : List Op}
    (h : Holding fp file torn ops) (hops : ∀ op ∈ ops, op.Fits) {p : Pass}
    (htorn : ∀ start bytes, torn = some start → file = some bytes →
      readFrame ⟨bytes.drop start, true⟩ = .tail)
    (hfits : ∀ op ∈ p.ops, op.Fits) :
    ∃ more, (∀ op ∈ more, op ∈ p.ops) ∧
      Holding fp (p.file fp file) (torn.or (p.tear fp file)) (ops ++ more) := by
  cases h with
  | fresh hd =>
      have hopen := openAt_discarded hd
      rw [Option.none_or]
      by_cases hcut : kHeaderSize ≤ p.cut
      · refine ⟨_, fun op hop => mem_flushedOps hop, Holding.append hfits hopen (by simp) ?_⟩
        rw [header_length]
        exact hcut
      · -- killed inside the header: the next open discards the file
        refine ⟨[], by simp, ?_⟩
        obtain ⟨hfile, htear⟩ := Pass.appends (p := p) hopen
        have hshort : ((header fp ++ p.ops.flatMap Op.framed).take p.cut).length < kHeaderSize := by
          rw [List.length_take]
          omega
        rw [hfile, htear]
        dsimp only
        rw [header_length, if_neg (by omega)]
        refine Holding.fresh fun bytes hbytes => ?_
        rw [← Option.some.inj hbytes]
        exact not_reusable_short hshort
  | whole =>
      have hopen := openAt_journal fp hops (Or.inl rfl : Stops [])
      rw [List.append_nil] at hopen
      have hout : (ops.foldl Op.seen {}).out = [] := seen_out ops {}
      generalize ops.foldl Op.seen {} = c at hopen hout
      rw [Option.none_or]
      refine ⟨_, fun op hop => mem_flushedOps hop, Holding.append hfits hopen ?_ ?_⟩
      · rw [hout, List.append_nil]
      · rw [hout]
        exact Nat.zero_le _
  | torn _ rest =>
      have hstop : Stops rest := by
        have hstop := htorn _ _ rfl rfl
        rw [← List.append_assoc, List.drop_left] at hstop
        exact Or.inr hstop
      obtain ⟨hfile, -⟩ := Pass.appends (p := p) (openAt_journal fp hops hstop)
      generalize ((ops.foldl Op.seen {}).out ++ p.ops.flatMap Op.framed).take p.cut = more at hfile
      refine ⟨[], by simp, ?_⟩
      rw [hfile, List.append_nil, List.append_assoc, List.append_assoc, Option.some_or]
      exact Holding.torn _ _

/-! ### What the journal says -/

section Records

variable {ops : List Op} {c : AnnealCheckpoint}

theorem mem_of_lastPhase1 {tu : Str} {rec : Phase1Record} (h : lastPhase1 ops tu = some rec) :
    .phase1 tu rec.stamp rec.payload ∈ ops := by
  obtain ⟨op, hop, heq⟩ := List.mem_filterMap.mp (List.mem_of_getLast? h)
  cases op with
  | phase1 t stamp contribution =>
      dsimp only at heq
      split at heq
      · rename_i ht
        cases heq
        rwa [ht] at hop
      · cases heq
  | _ => cases heq

theorem mem_of_lastPhase2 {tu : Str} {rec : Phase2Record} (h : lastPhase2 ops tu = some rec) :
    .phase2 tu rec.stamp rec.indexSetHash rec.diagnostics ∈ ops := by
  obtain ⟨op, hop, heq⟩ := List.mem_filterMap.mp (List.mem_of_getLast? h)
  cases op with
  | phase2 t stamp hash diags =>
      dsimp only at heq
      split at heq
      · rename_i ht
        cases heq
        rwa [ht] at hop
      · cases heq
  | _ => cases heq

/-- What phase 1 takes from the journal was recorded. -/
theorem recorded_of_replay1 (hload : { c with out := [] } = ops.foldl Op.seen {}) {tu : Str}
    {stamp : FileStamp} {contribution : AnnealIndexPayload}
    (h : c.replayPhase1 tu stamp = some contribution) : .phase1 tu stamp contribution ∈ ops := by
  have hlook : c.phase1.lookup tu = lastPhase1 ops tu := by
    have hfold := lookup_phase1_fold ops {} tu
    rw [← hload] at hfold
    simpa using hfold
  unfold replayPhase1 at h
  rw [hlook] at h
  cases hlast : lastPhase1 ops tu with
  | none => simp [hlast] at h
  | some rec =>
      simp only [hlast, Option.ite_none_right_eq_some, Option.some.injEq] at h
      obtain ⟨rfl, rfl⟩ := h
      exact mem_of_lastPhase1 hlast

theorem recorded_of_replay2 (hload : { c with out := [] } = ops.foldl Op.seen {}) {tu : Str}
    {stamp : FileStamp} {hash : UInt64} {out diags : List Diagnostic}
    (h : c.replayPhase2 tu stamp hash out = some diags) :
    ∃ own, diags = out ++ own ∧ .phase2 tu stamp hash own ∈ ops := by
  have hlook : c.phase2.lookup tu = lastPhase2 ops tu := by
    have hfold := lookup_phase2_fold ops {} tu
    rw [← hload] at hfold
    simpa using hfold
  unfold replayPhase2 at h
  rw [hlook] at h
  cases hlast : lastPhase2 ops tu with
  | none => simp [hlast] at h
  | some rec =>
      simp only [hlast, Option.ite_none_right_eq_some, Option.some.injEq] at h
      obtain ⟨⟨rfl, rfl⟩, rfl⟩ := h
      exact ⟨rec.diagnostics, rfl, mem_of_lastPhase2 hlast⟩

end Records

/-! ### What a run computes -/

section Runs

variable {r q : AnalysisRun}

theorem stamp_path (r : AnalysisRun) (tu : Str) : (r.stamp tu).path = tu := by
  unfold AnalysisRun.stamp World.stamp SnapshotIO.stampFile
  split <;> rfl

theorem mem_sourceFiles_of_indexed {tu : Str} (h : tu ∈ r.indexed) : tu ∈ r.sourceFiles :=
  List.mem_of_mem_filter (List.mem_of_mem_filter h)

theorem mem_sourceFiles_of_analyzed {tu : Str} (h : tu ∈ r.analyzed) : tu ∈ r.sourceFiles :=
  List.mem_of_mem_filter (List.mem_of_mem_filter h)

/-- The TUs behind the merged index. -/
def AnalysisRun.contributors (r : AnalysisRun) : List Str := r.restored ++ r.indexed

theorem mem_sourceFiles_of_contributor {tu : Str} (h : tu ∈ r.contributors) : tu ∈ r.sourceFiles := by
  rcases List.mem_append.mp h with h | h
  · exact List.mem_of_mem_filter h
  · exact mem_sourceFiles_of_indexed h

/-- The run merged what its TUs contribute. -/
def Merges (r : AnalysisRun) : Prop :=
  r.merged = (r.contributors.map (r.parser.contribution r.world) : Multiset AnnealIndexPayload)

theorem merges_of_replays (h : ∀ file ∈ r.sourceFiles, ∀ c, r.replayed1 file = some c →
    c = r.parser.contribution r.world file) : Merges r := by
  have hreplays : ∀ files : List Str, (∀ file ∈ files, file ∈ r.sourceFiles) →
      files.filterMap r.replayed1
        = (files.filter fun file => (r.replayed1 file).isSome).map (r.parser.contribution r.world) := by
    intro files
    induction files with
    | nil => intro _; rfl
    | cons file rest ih =>
        intro hsub
        have hrest := ih fun x hx => hsub x (List.mem_cons_of_mem _ hx)
        cases hreplay : r.replayed1 file with
        | none =>
            rw [List.filterMap_cons_none hreplay, List.filter_cons_of_neg (by simp [hreplay]), hrest]
        | some c =>
            rw [List.filterMap_cons_some hreplay, List.filter_cons_of_pos (by simp [hreplay]),
              List.map_cons, hrest, h file (hsub file List.mem_cons_self) c hreplay]
  unfold Merges AnalysisRun.merged AnalysisRun.contributors
  rw [hreplays r.sourceFiles fun _ hx => hx, List.map_append, ← Multiset.coe_add]
  rfl

/-- Runs with the same contributing stamps merged the same, if equal stamps mean equal
contributions. -/
theorem merged_eq (hq : Merges q) (hr : Merges r) (hparser : q.parser = r.parser)
    (hperm : q.contributing.Perm r.contributing)
    (hsame : ∀ tu ∈ r.sourceFiles, tu ∈ q.sourceFiles → q.stamp tu = r.stamp tu →
      r.parser.contribution q.world tu = r.parser.contribution r.world tu) :
    q.merged = r.merged := by
  -- both are read off the stamps, as this run's contribution of the stamp's path
  have hmine : r.contributors.map (r.parser.contribution r.world)
      = r.contributing.map fun st => r.parser.contribution r.world st.path := by
    unfold AnalysisRun.contributing AnalysisRun.contributors
    rw [List.map_map]
    refine List.map_congr_left fun tu _ => ?_
    rw [Function.comp_apply, stamp_path]
  have hyours : q.contributors.map (q.parser.contribution q.world)
      = q.contributing.map fun st => r.parser.contribution r.world st.path := by
    unfold AnalysisRun.contributing
    rw [List.map_map]
    refine List.map_congr_left fun tu htu => ?_
    rw [Function.comp_apply, stamp_path, hparser]
    have hstamp : q.stamp tu ∈ r.contributing := hperm.subset (List.mem_map_of_mem htu)
    obtain ⟨tu', htu', heq⟩ := List.mem_map.mp hstamp
    have hpath : tu' = tu := by
      rw [← stamp_path r tu', heq, stamp_path]
    subst hpath
    exact hsame tu' (mem_sourceFiles_of_contributor htu') (mem_sourceFiles_of_contributor htu)
      heq.symm
  rw [hq, hr, hmine, hyours]
  exact Multiset.coe_eq_coe.mpr (hperm.map _)

/-- **A complete run whose replays are right reports what a fresh run does.** -/
theorem diagnostics_of_replays (hmerges : Merges r) (hcomplete : r.Complete)
    (hdistinct : r.sourceFiles.Nodup)
    (hreplays : ∀ file ∈ r.sourceFiles, ∀ d, r.replayed2 file [] = some d →
      d = r.parser.diagnose r.world file r.merged) :
    r.diagnostics.Perm (freshDiagnostics r.parser r.world r.sourceFiles) := by
  obtain ⟨hpoisoned, hskipped, hanalyzed⟩ := hcomplete
  obtain ⟨hworn, -⟩ := List.append_eq_nil_iff.mp hpoisoned
  have hindexed : r.indexed = r.sourceFiles.filter fun file => !(r.replayed1 file).isSome := by
    unfold AnalysisRun.indexed AnalysisRun.toIndex
    rw [hpoisoned, List.filter_filter]
    refine List.filter_congr fun file hfile => ?_
    have hnot := List.filter_eq_nil_iff.mp hworn file hfile
    cases hreplay : r.replayed1 file with
    | none => simpa [hreplay] using hnot
    | some c => simp
  have hmerged : r.merged
      = (r.sourceFiles.map (r.parser.contribution r.world) : Multiset AnnealIndexPayload) := by
    rw [hmerges]
    refine Multiset.coe_eq_coe.mpr (List.Perm.map _ ?_)
    unfold AnalysisRun.contributors AnalysisRun.restored
    rw [hindexed]
    exact List.filter_append_perm _ _
  have hslot : ∀ file ∈ r.sourceFiles, r.slot file = r.parser.diagnose r.world file r.merged := by
    intro file hfile
    unfold AnalysisRun.slot
    split
    · rfl
    · rename_i hnot
      rw [hpoisoned, if_neg List.not_mem_nil]
      have hone : r.sourceFiles.filter (· = file) = [file] := by
        rw [List.filter_eq, List.count_eq_one_of_mem hdistinct hfile]
        rfl
      have hsome : (r.replayed2 file []).isSome := by
        by_contra hnone
        rw [Option.not_isSome_iff_eq_none] at hnone
        have hworn2 : ¬ r.worn kPhaseAnalyze file := by
          intro hworn2
          have hmem : file ∈ r.skipped2 := by
            refine List.mem_filter.mpr ⟨hfile, ?_⟩
            simp [hpoisoned, hnone, hworn2]
          rw [hskipped] at hmem
          exact absurd hmem List.not_mem_nil
        have hmem : file ∈ r.toAnalyze := by
          refine List.mem_filter.mpr ⟨hfile, ?_⟩
          simp [hpoisoned, hnone, hworn2]
        exact hnot (List.mem_filter.mpr ⟨hmem, by simpa using hanalyzed file hmem⟩)
      obtain ⟨d, hd⟩ := Option.isSome_iff_exists.mp hsome
      rw [hone, List.foldl_cons, List.foldl_nil, hd, Option.getD_some]
      exact hreplays file hfile d hd
  unfold AnalysisRun.diagnostics freshDiagnostics
  rw [hmerged] at hslot ⊢
  dsimp only
  rw [List.flatMap_congr fun file hfile => hslot file (List.mem_dedup.mp hfile)]

end Runs

/-! ### Along a history

What is kept along a history: every record was journaled by a run that merged
what its TUs contributed then, under the stamps they had then.
-/

/-- Every record was journaled by some run of the past, and every such run merged what its
TUs contribute. -/
structure Session.Right (fp : UInt64) (parser : Parser) (s : Session) : Prop where
  records : ∃ ops, Holding fp s.file s.torn ops ∧
    ∀ op ∈ ops, op.Fits ∧ ∃ q ∈ s.past, q.run.Journals op
  past : ∀ q ∈ s.past, q.run.parser = parser ∧ Merges q.run

namespace Session

variable {fp : UInt64} {parser : Parser} {s : Session} {p : Pass}

theorem fits_of_journals {op : Op} (h : p.run.Journals op) (hshort : op.payload.length + 4 < 2 ^ 32) :
    op.Fits := by
  refine ⟨?_, hshort⟩
  cases op with
  | attempt phase tu stamp =>
      obtain ⟨-, rfl⟩ := h
      exact stamp_path p.run tu
  | phase1 tu stamp contribution =>
      obtain ⟨-, rfl, -⟩ := h
      exact stamp_path p.run tu
  | phase2 tu stamp hash diags =>
      obtain ⟨-, rfl, -⟩ := h
      exact stamp_path p.run tu

/-- What phase 1 replays is what the TU contributes now. -/
theorem Right.replays1 (h : s.Right fp parser) (hallows : s.Allows fp parser p)
    (hkeeps : Keeps fp parser s p) {file : Str} (hfile : file ∈ p.run.sourceFiles)
    {c : AnnealIndexPayload} (hc : p.run.replayed1 file = some c) :
    c = p.run.parser.contribution p.run.world file := by
  obtain ⟨ops, hholding, hops⟩ := h.records
  have hload := hholding.load (fun op hop => (hops op hop).1) hkeeps.torn hallows.opened
  obtain ⟨-, q, hq, hindexed, hstamp, rfl⟩ := hops _ (recorded_of_replay1 hload hc)
  have hsame := hkeeps.edits q hq file hfile (mem_sourceFiles_of_indexed hindexed) hstamp.symm
  rw [(h.past q hq).1, hallows.parser]
  exact hsame.1

theorem Right.merges (h : s.Right fp parser) (hallows : s.Allows fp parser p)
    (hkeeps : Keeps fp parser s p) : Merges p.run :=
  merges_of_replays fun _ hfile _ hc => h.replays1 hallows hkeeps hfile hc

/-- What phase 2 replays is what the TU's analysis gives now. -/
theorem Right.replays2 (h : s.Right fp parser) (hallows : s.Allows fp parser p)
    (hkeeps : Keeps fp parser s p) {file : Str} (hfile : file ∈ p.run.sourceFiles)
    {d : List Diagnostic} (hd : p.run.replayed2 file [] = some d) :
    d = p.run.parser.diagnose p.run.world file p.run.merged := by
  obtain ⟨ops, hholding, hops⟩ := h.records
  have hload := hholding.load (fun op hop => (hops op hop).1) hkeeps.torn hallows.opened
  obtain ⟨own, rfl, hmem⟩ := recorded_of_replay2 hload hd
  obtain ⟨-, q, hq, hanalyzed, hstamp, hhash, rfl⟩ := hops _ hmem
  obtain ⟨hparser, hmerges⟩ := h.past q hq
  have hsource := mem_sourceFiles_of_analyzed hanalyzed
  have hmerged : q.run.merged = p.run.merged := by
    refine merged_eq hmerges (h.merges hallows hkeeps) ?_ (hkeeps.hashes q hq hhash.symm) ?_
    · rw [hparser, hallows.parser]
    · intro tu htu htu' heq
      rw [hallows.parser]
      exact (hkeeps.edits q hq tu htu htu' heq).1
  rw [hparser, hallows.parser, hmerged]
  exact (hkeeps.edits q hq file hfile hsource hstamp.symm).2 _

theorem Right.after (h : s.Right fp parser) (hallows : s.Allows fp parser p)
    (hkeeps : Keeps fp parser s p) : (s.after fp p).Right fp parser := by
  obtain ⟨ops, hholding, hops⟩ := h.records
  have hfits : ∀ op ∈ p.ops, op.Fits := fun op hop =>
    fits_of_journals (hallows.journals op hop) (hkeeps.short op hop)
  obtain ⟨more, hmore, hnext⟩ :=
    hholding.after (fun op hop => (hops op hop).1) hkeeps.torn hfits
  refine ⟨⟨ops ++ more, hnext, ?_⟩, ?_⟩
  · intro op hop
    rcases List.mem_append.mp hop with hop | hop
    · obtain ⟨hfit, q, hq, hjournals⟩ := hops op hop
      exact ⟨hfit, q, List.mem_append_left _ hq, hjournals⟩
    · have hop := hmore op hop
      exact ⟨hfits op hop, p, by simp [Session.after], hallows.journals op hop⟩
  · intro q hq
    rcases List.mem_append.mp hq with hq | hq
    · exact h.past q hq
    · rw [List.mem_singleton.mp hq]
      exact ⟨hallows.parser, h.merges hallows hkeeps⟩

theorem Reached.right (h : Reached fp parser (Keeps fp parser) s) : s.Right fp parser := by
  induction h with
  | start hdiscarded => exact ⟨⟨[], Holding.fresh hdiscarded, by simp⟩, by simp⟩
  | pass _ hallows hkeeps ih => exact ih.after hallows hkeeps

/-- A parser that opens a source and the header `h`, and reports what the header says. -/
def echoHeader : Parser where
  opens _ tu := [tu, str "h"]
  index _ _ := {}
  analyze tu inputs _ :=
    inputs.filterMap fun i =>
      if i.1 = str "h" then
        some { kind := .custom, callLocation := tu, resolvedDecl := [], betterDecl := [],
               missingHeader := [], message := i.2.getD [], checkName := [] }
      else none
  indexChecks _ := []

/-- `a.cpp` as ever, and the header with some text. -/
def withHeader (mtimeNs : UInt64) (text : Str) : World := fun path =>
  if path = str "a.cpp" then some { mtimeNs := 3, size := 4, content := str "#inc" }
  else if path = str "h" then some { mtimeNs, size := 1, content := text }
  else none

/-- A run over `a.cpp` with the header as it first is. -/
def firstRun : AnalysisRun where
  parser := echoHeader
  ckpt := { out := header 7 }
  world := withHeader 1 (str "X")
  sourceFiles := [str "a.cpp"]

/-- The records of the first run, and where it is killed. -/
def firstPass (cut : Nat) : Pass where
  run := firstRun
  ops :=
    [.attempt kPhaseIndex (str "a.cpp") (firstRun.stamp (str "a.cpp")),
      .phase1 (str "a.cpp") (firstRun.stamp (str "a.cpp")) {},
      .attempt kPhaseAnalyze (str "a.cpp") (firstRun.stamp (str "a.cpp")),
      .phase2 (str "a.cpp") (firstRun.stamp (str "a.cpp")) firstRun.setHash
        (echoHeader.diagnose firstRun.world (str "a.cpp") firstRun.merged)]
  cut

/-- The session after it. -/
def afterFirst (cut : Nat) : Session := Session.after 7 { file := none } (firstPass cut)

/-- The next run on the journal, which appends nothing. -/
def nextPass (cut : Nat) (world : World) : Pass where
  run :=
    { parser := echoHeader
      ckpt := ((openAt (afterFirst cut).file 7).map (·.ckpt)).getD {}
      world, sourceFiles := [str "a.cpp"] }
  ops := []
  cut := 0

theorem firstRun_parses : str "a.cpp" ∈ firstRun.indexed ∧ str "a.cpp" ∈ firstRun.analyzed := by
  decide +kernel

theorem firstPass_allowed (cut : Nat) :
    Session.Allows 7 echoHeader { file := none } (firstPass cut) := by
  refine ⟨rfl, rfl, fun op hop => ?_⟩
  simp only [firstPass, List.mem_cons, List.not_mem_nil, or_false] at hop
  rcases hop with rfl | rfl | rfl | rfl
  · exact ⟨List.mem_singleton_self _, rfl⟩
  · exact ⟨firstRun_parses.1, rfl, rfl⟩
  · exact ⟨List.mem_singleton_self _, rfl⟩
  · exact ⟨firstRun_parses.2, rfl, rfl, rfl⟩

theorem nextPass_allowed {cut : Nat} (world : World)
    (hopen : (openAt (afterFirst cut).file 7).isSome) :
    Session.Allows 7 echoHeader (afterFirst cut) (nextPass cut world) := by
  refine ⟨rfl, ?_, by simp [nextPass]⟩
  obtain ⟨o, ho⟩ := Option.isSome_iff_exists.mp hopen
  simp only [nextPass, ho, Option.map_some, Option.getD_some]

end Session

end Vycor
