/-
An index is not widened by accident.

A bare invocation names no sources: it refreshes the TUs the index records.  So over any
number of bare invocations, with whatever databases, files and parses, the recorded TUs are
those that were recorded before, less what the skipped paths of the invocations cover.  That
the index can be read is needed: one that cannot is built again from the database.
-/
import Vycor.Model.IndexInvocations
import Vycor.Proofs.SourceSelection
import Vycor.Proofs.WarmStart

namespace Vycor

open SourceSelection

namespace Invocation

/-- No source is named, and the index can be read. -/
structure Bare (inv : Invocation) : Prop where
  explicitFiles : inv.sel.explicitFiles = []
  listFile : inv.sel.listFile = []
  regex : inv.sel.regex = []
  metaLoads : inv.run.metaLoads = true

/-- What the invariant says of a file: the index records TUs, each once, in spellings some
invocation made canonical. -/
structure Recorded (history : List Invocation) (snap : Snapshot) : Prop where
  nonempty : recordedPaths snap ≠ []
  nodup : (recordedPaths snap).Nodup
  spelled : ∀ p ∈ recordedPaths snap,
    ∃ inv ∈ history, ∃ q, canonical inv.world q = p

/-- A run leaves the file as it was, or one that records its selection. -/
theorem run_disk (r : IndexRun) (codec : Codec) (disk : Option Snapshot) :
    (r.run codec disk).1 = disk ∨
      ∃ snap, (r.run codec disk).1 = some snap ∧ recordedPaths snap = r.files := by
  rcases r.run_cases codec disk with h | h | ⟨snap, -, h⟩
  · exact Or.inl (by rw [h])
  · exact Or.inr ⟨_, by rw [h], saved_paths _⟩
  · exact Or.inr ⟨_, by rw [h], saved_paths _⟩

/-- An invocation leaves the file as it was, or one that records what it selected. -/
theorem exec_cases (inv : Invocation) (codec : Codec) (disk : Option Snapshot) :
    inv.exec codec disk = disk ∨
    ∃ selected stats snap, selectSources inv.world (inv.selection disk) = .ok (selected, stats) ∧
      selected.files ≠ [] ∧ inv.exec codec disk = some snap ∧
      recordedPaths snap = selected.files := by
  unfold exec
  cases hsel : selectSources inv.world (inv.selection disk) with
  | error e => exact Or.inl rfl
  | ok found =>
      obtain ⟨selected, stats⟩ := found
      dsimp only
      split_ifs with hempty
      · exact Or.inl rfl
      · refine (run_disk (inv.onFiles selected) codec disk).imp_right ?_
        rintro ⟨snap, hsnap, hpaths⟩
        exact ⟨selected, stats, snap, rfl, hempty, hsnap, hpaths⟩

theorem execAll_append (codec : Codec) (disk : Option Snapshot) (h h' : List Invocation) :
    execAll codec disk (h ++ h') = execAll codec (execAll codec disk h) h' := List.foldl_append

/-- The invariant holds after every history. -/
theorem recorded_execAll (codec : Codec) (history : List Invocation) {snap : Snapshot}
    (hdisk : execAll codec none history = some snap) : Recorded history snap := by
  induction history using List.reverseRecOn generalizing snap with
  | nil => cases hdisk
  | append_singleton history inv ih =>
      rw [execAll_append] at hdisk
      change inv.exec codec (execAll codec none history) = some snap at hdisk
      rcases inv.exec_cases codec (execAll codec none history) with
        hsame | ⟨selected, stats, snap', hsel, hne, hexec, hpaths⟩
      · have h := ih (hsame.symm.trans hdisk)
        refine ⟨h.nonempty, h.nodup, fun p hp => ?_⟩
        obtain ⟨inv', hinv', q, hq⟩ := h.spelled p hp
        exact ⟨inv', List.mem_append_left _ hinv', q, hq⟩
      · obtain rfl : snap' = snap := Option.some.inj (hexec.symm.trans hdisk)
        refine ⟨hpaths ▸ hne, hpaths ▸ selected.nodup, fun p hp => ?_⟩
        obtain ⟨q, hq⟩ := spelled_selected hsel p (hpaths ▸ hp)
        exact ⟨inv, List.mem_append_right _ (List.mem_singleton_self _), q, hq⟩

/-! ### Bare invocations

Without a source flag the base of the selection is what the index records. A
canonical path stays as it is, so the selection is the recorded list less what
is skipped.
-/

/-- A bare invocation selects what is recorded, less what it skips. -/
theorem selection_bare {inv : Invocation} (hbare : inv.Bare) {snap : Snapshot}
    (hne : recordedPaths snap ≠ []) (hnodup : (recordedPaths snap).Nodup)
    (hfix : ∀ p ∈ recordedPaths snap, canonical inv.world p = p) :
    ∃ out stats, selectSources inv.world (inv.selection (some snap)) = .ok (out, stats) ∧
      out.files = (recordedPaths snap).filter (unskipped inv.sel.skipPaths) := by
  set sel := inv.selection (some snap) with hsel
  have hrecorded : sel.recordedFiles = recordedPaths snap := by
    show ((some snap).filter fun _ => inv.run.metaLoads).elim [] recordedPaths = _
    rw [hbare.metaLoads]
    rfl
  have hre : compileRegex inv.world sel = .ok none := if_pos hbare.regex
  have hnamed : namedFiles inv.world sel = .ok .empty := by
    unfold namedFiles
    rw [show sel.explicitFiles = [] from hbare.explicitFiles,
      show sel.listFile = [] from hbare.listFile]
    rfl
  have hbase : baseFiles inv.world sel none .empty
      = .ok (sel.recordedFiles.foldl (appendUnique inv.world) .empty, str "index", 0) := by
    unfold baseFiles
    rw [show sel.explicitFiles = [] from hbare.explicitFiles,
      show sel.listFile = [] from hbare.listFile]
    simp [hrecorded, hne]
  have hfiles : (sel.recordedFiles.foldl (appendUnique inv.world) .empty).files
      = recordedPaths snap := by
    rw [hrecorded]
    exact foldl_appendUnique_fixed hnodup hfix
  obtain ⟨stats, hout⟩ := selectSources_of hre hnamed hbase
  refine ⟨_, stats, hout, ?_⟩
  show (((sel.recordedFiles.foldl (appendUnique inv.world) .empty).files.filter
    (matching none)).filter (unskipped sel.skipPaths)) = _
  have hall : ∀ l : List Str, l.filter (matching none) = l :=
    fun l => List.filter_eq_self.mpr fun _ _ => rfl
  rw [hfiles, hall]
  rfl

/-- **Bare invocations never widen an index**: after any history, any number of them, over
whatever databases, leaves the TUs recorded before, in order, less those that the skipped paths
of the invocations that took effect cover, and some are left. -/
theorem bare_invocations_narrow (codec : Codec) (before bare : List Invocation)
    (hbare : ∀ inv ∈ bare, inv.Bare)
    (hfix : ∀ a ∈ before, ∀ b ∈ bare, ∀ p,
      canonical b.world (canonical a.world p) = canonical a.world p)
    {snap : Snapshot} (hdisk : execAll codec none before = some snap) :
    ∃ (snap' : Snapshot) (took : List Invocation),
      execAll codec none (before ++ bare) = some snap' ∧ took.Sublist bare ∧
      recordedPaths snap' ≠ [] ∧
      recordedPaths snap'
        = (recordedPaths snap).filter fun p =>
          took.all fun inv => unskipped inv.sel.skipPaths p := by
  have hstart := recorded_execAll codec before hdisk
  rw [execAll_append, hdisk]
  induction bare using List.reverseRecOn with
  | nil => exact ⟨snap, [], rfl, .slnil, hstart.nonempty, by simp⟩
  | append_singleton bare inv ih =>
      obtain ⟨now, took, hnow, htook, hne, hpaths⟩ := ih
        (fun inv hinv => hbare inv (List.mem_append_left _ hinv))
        (fun a ha b hb => hfix a ha b (List.mem_append_left _ hb))
      have hinv : inv ∈ bare ++ [inv] := List.mem_append_right _ (List.mem_singleton_self _)
      have hnodup : (recordedPaths now).Nodup := hpaths ▸ hstart.nodup.filter _
      have hspelled : ∀ p ∈ recordedPaths now, canonical inv.world p = p := by
        intro p hp
        rw [hpaths] at hp
        obtain ⟨a, ha, q, rfl⟩ := hstart.spelled p (List.mem_filter.mp hp).1
        exact hfix a ha inv hinv q
      obtain ⟨out, stats, hout, hfiles⟩ := selection_bare (hbare inv hinv) hne hnodup hspelled
      rw [execAll_append, hnow]
      change ∃ snap' took', inv.exec codec (some now) = some snap' ∧ _
      rcases inv.exec_cases codec (some now) with
        hsame | ⟨selected, stats', next, hsel, hkept, hexec, hnext⟩
      · exact ⟨now, took, hsame, htook.trans (List.sublist_append_left _ _), hne, hpaths⟩
      · obtain ⟨rfl, -⟩ := Prod.mk.inj (Except.ok.inj (hout.symm.trans hsel))
        refine ⟨next, took ++ [inv], hexec, htook.append (List.Sublist.refl _), hnext ▸ hkept, ?_⟩
        rw [hnext, hfiles, hpaths, List.filter_filter]
        refine List.filter_congr fun p _ => ?_
        rw [List.all_append, Bool.and_comm]
        simp

/-- One of the two files, and then a refresh. -/
def selectOne : Invocation where
  world := twoFiles
  sel := { explicitFiles := [str "a.cpp"] }
  run := secondLost

/-- A refresh that names no files. -/
def refreshOnly : Invocation where
  world := twoFiles
  sel := {}
  run := secondLost

theorem bare_invocations_narrow_one :
    ∃ snap, execAll plainCodec none ([selectOne] ++ [refreshOnly, refreshOnly]) = some snap ∧
      recordedPaths snap = [str "/w/a.cpp"] := by
  have hbare : ∀ inv ∈ [refreshOnly, refreshOnly], inv.Bare := by
    intro inv hinv
    obtain rfl : inv = refreshOnly := by simpa using hinv
    exact ⟨rfl, rfl, rfl, rfl⟩
  have hfix : ∀ a ∈ [selectOne], ∀ b ∈ [refreshOnly, refreshOnly], ∀ p,
      canonical b.world (canonical a.world p) = canonical a.world p := by
    intro a ha b hb p
    obtain rfl : a = selectOne := by simpa using ha
    obtain rfl : b = refreshOnly := by simpa using hb
    exact canonical_twoFiles p
  obtain ⟨snap, took, hsnap, htook, -, hpaths⟩ :=
    bare_invocations_narrow plainCodec [selectOne] [refreshOnly, refreshOnly] hbare hfix rfl
  refine ⟨snap, hsnap, hpaths.trans (List.filter_eq_self.mpr fun p _ => ?_)⟩
  refine List.all_eq_true.mpr fun inv hinv => ?_
  obtain rfl : inv = refreshOnly := by simpa using htook.subset hinv
  rfl

end Invocation

end Vycor
