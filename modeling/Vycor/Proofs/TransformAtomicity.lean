/-
What a failed transform leaves on disk.

Nothing is written before every pass is through, so a database, a rule or a run of the tool
that fails leaves the disk alone, as a dry run does.  After that the files go one by one, and
there is no way back: the first file that cannot be read, rewritten or opened ends it, and the
files before it, in the order of their paths, stay rewritten.  No other file is touched, and
none is left half written: a write that breaks off takes the process with it.

The paths are told apart by the map that holds the replacements, so what a file is rewritten
from is what it held at the start; that is the induction over the files.
-/
import Vycor.Model.TransformPipeline
import Vycor.Proofs.IndexOrder

namespace Vycor

namespace TransformPipeline

variable {T : Tooling} {faults : Faults} {disk disk' : Disk}

/-! ### Files before a failure -/

/-- The file cannot be read, rewritten or opened for writing. -/
def Fails (faults : Faults) (disk : Disk) (entry : Str × T.Replacements) : Prop :=
  (∃ message, getFile faults disk entry.1 = .error message) ∨
  (∃ content message, getFile faults disk entry.1 = .ok content ∧
    T.applyAllReplacements content entry.2 = .error message) ∨
  ∃ message, faults.openFile entry.1 = some message

/-- These files hold their rewritten text, and the others what they held. -/
structure Rewritten (disk disk' : Disk) (entries : List (Str × T.Replacements)) : Prop where
  rewritten : ∀ entry ∈ entries, ∃ content result, disk entry.1 = some content ∧
    T.applyAllReplacements content entry.2 = .ok result ∧ disk' entry.1 = some result
  untouched : ∀ path, path ∉ entries.map (·.1) → disk' path = disk path

theorem rewritten_nil (disk : Disk) : Rewritten disk disk ([] : List (Str × T.Replacements)) :=
  ⟨fun _ h => absurd h List.not_mem_nil, fun _ _ => rfl⟩

@[simp] theorem Disk.write_self (disk : Disk) (path content : Str) :
    disk.write path content path = some content := if_pos rfl

theorem Disk.write_of_ne {path p : Str} (h : p ≠ path) (disk : Disk) (content : Str) :
    disk.write path content p = disk p := if_neg h

theorem getFile_ok {path content : Str} (h : getFile faults disk path = .ok content) :
    disk path = some content := by
  unfold getFile at h
  split at h
  · cases h
  · rename_i hdisk
    rw [hdisk, Except.ok.inj h]
  · cases h

/-- Reading a file looks at that file. -/
theorem getFile_congr {path : Str} (h : disk' path = disk path) :
    getFile faults disk' path = getFile faults disk path := by
  unfold getFile
  rw [h]

/-- One more file in front. -/
theorem Rewritten.cons {entry : Str × T.Replacements} {entries : List (Str × T.Replacements)}
    {content result : Str} (hcontent : disk entry.1 = some content)
    (hresult : T.applyAllReplacements content entry.2 = .ok result)
    (hnew : entry.1 ∉ entries.map (·.1))
    (h : Rewritten (disk.write entry.1 result) disk' entries) :
    Rewritten disk disk' (entry :: entries) := by
  refine ⟨?_, ?_⟩
  · intro e he
    rcases List.mem_cons.mp he with rfl | he
    · refine ⟨content, result, hcontent, hresult, ?_⟩
      rw [h.untouched _ hnew, Disk.write_self]
    · obtain ⟨content', result', hcontent', hresult', hdisk'⟩ := h.rewritten e he
      have hne : e.1 ≠ entry.1 := fun heq => hnew (heq ▸ List.mem_map_of_mem he)
      rw [Disk.write_of_ne hne] at hcontent'
      exact ⟨content', result', hcontent', hresult', hdisk'⟩
  · intro path hpath
    rw [List.map_cons, List.mem_cons, not_or] at hpath
    rw [h.untouched path hpath.2, Disk.write_of_ne hpath.1]

/-- **The disk is as it was exactly when every one of these files is rewritten to what it
held.** -/
theorem Rewritten.eq_iff {entries : List (Str × T.Replacements)}
    (h : Rewritten disk disk' entries) :
    disk' = disk ↔ ∀ entry ∈ entries, ∀ content, disk entry.1 = some content →
      T.applyAllReplacements content entry.2 = .ok content := by
  constructor
  · rintro rfl entry hentry content hcontent
    obtain ⟨content', result, hcontent', hresult, hdisk⟩ := h.rewritten entry hentry
    rw [hcontent'] at hcontent hdisk
    rw [← Option.some_inj.mp hcontent, hresult, Option.some_inj.mp hdisk]
  · intro hsame
    funext path
    by_cases hpath : path ∈ entries.map (·.1)
    · obtain ⟨entry, hentry, rfl⟩ := List.mem_map.mp hpath
      obtain ⟨content, result, hcontent, hresult, hdisk⟩ := h.rewritten entry hentry
      have hres := hsame entry hentry content hcontent
      rw [hresult] at hres
      rw [hdisk, hcontent, Except.ok.inj hres]
    · exact h.untouched path hpath

/-! ### The loop over the files -/

/-- How the loop ends. -/
inductive Applied (faults : Faults) (entries : List (Str × T.Replacements)) (disk disk' : Disk) :
    Ending → Prop
  | done (h : Rewritten disk disk' entries) : Applied faults entries disk disk' (.returned 0)
  | failed (before : List (Str × T.Replacements)) (entry : Str × T.Replacements)
      (after : List (Str × T.Replacements)) (hentries : entries = before ++ entry :: after)
      (hfails : Fails faults disk entry) (h : Rewritten disk disk' before) :
      Applied faults entries disk disk' (.returned 1)
  | broken (before : List (Str × T.Replacements)) (entry : Str × T.Replacements)
      (after : List (Str × T.Replacements)) (hentries : entries = before ++ entry :: after)
      (written : Str) (hwritten : faults.write entry.1 = some written) (mid : Disk)
      (h : Rewritten disk mid before) (hdisk : disk' = mid.write entry.1 written) :
      Applied faults entries disk disk' .fatal

theorem Applied.cons {ending : Ending} {entry : Str × T.Replacements}
    {entries : List (Str × T.Replacements)} {content result : Str}
    (hcontent : disk entry.1 = some content)
    (hresult : T.applyAllReplacements content entry.2 = .ok result)
    (hnew : entry.1 ∉ entries.map (·.1))
    (h : Applied faults entries (disk.write entry.1 result) disk' ending) :
    Applied faults (entry :: entries) disk disk' ending := by
  have hprefix : ∀ {before after : List (Str × T.Replacements)} {e : Str × T.Replacements},
      entries = before ++ e :: after → entry.1 ∉ before.map (·.1) ∧ e.1 ≠ entry.1 := by
    rintro before after e rfl
    rw [List.map_append, List.mem_append, not_or, List.map_cons, List.mem_cons, not_or] at hnew
    exact ⟨hnew.1, fun heq => hnew.2.1 heq.symm⟩
  cases h with
  | done h => exact .done (h.cons hcontent hresult hnew)
  | failed before e after hentries hfails h =>
      obtain ⟨hbefore, hne⟩ := hprefix hentries
      refine .failed (entry :: before) e after (by rw [hentries]; rfl) ?_
        (h.cons hcontent hresult hbefore)
      unfold Fails at hfails ⊢
      rwa [getFile_congr (Disk.write_of_ne hne disk result)] at hfails
  | broken before e after hentries written hwritten mid h hdisk =>
      obtain ⟨hbefore, -⟩ := hprefix hentries
      exact .broken (entry :: before) e after (by rw [hentries]; rfl) written hwritten mid
        (h.cons hcontent hresult hbefore) hdisk

/-- **The loop rewrites the files before the first that fails, and touches no other.** -/
theorem applyReplacements_applied (entries : List (Str × T.Replacements))
    (hnodup : (entries.map (·.1)).Nodup) (w : Terminal) :
    Applied faults entries w.disk (applyReplacements faults entries w).2.disk
      (applyReplacements faults entries w).1 := by
  induction entries generalizing w with
  | nil => exact .done (rewritten_nil w.disk)
  | cons entry rest ih =>
      obtain ⟨hnew, hrest⟩ := List.nodup_cons.mp hnodup
      have hfirst : Fails faults w.disk entry →
          Applied faults (entry :: rest) w.disk w.disk (.returned 1) := fun hfails =>
        .failed [] entry rest rfl hfails (rewritten_nil w.disk)
      rw [applyReplacements]
      cases hcontent : getFile faults w.disk entry.1 with
      | error message => exact hfirst (.inl ⟨message, hcontent⟩)
      | ok content =>
          dsimp only
          cases hresult : T.applyAllReplacements content entry.2 with
          | error message => exact hfirst (.inr (.inl ⟨content, message, hcontent, hresult⟩))
          | ok result =>
              dsimp only
              cases hopen : faults.openFile entry.1 with
              | some message => exact hfirst (.inr (.inr ⟨message, hopen⟩))
              | none =>
                  dsimp only
                  cases hwritten : faults.write entry.1 with
                  | some written =>
                      exact .broken [] entry rest rfl written hwritten w.disk
                        (rewritten_nil w.disk) rfl
                  | none =>
                      exact Applied.cons (getFile_ok hcontent) hresult hnew
                        (ih hrest { w with disk := w.disk.write entry.1 result })

/-! ### Before the files are written -/

theorem foldl_keeps {σ α β : Type*} (view : σ → β) {step : σ → α → σ}
    (h : ∀ st a, view (step st a) = view st) (l : List α) (st : σ) :
    view (l.foldl step st) = view st := by
  induction l generalizing st with
  | nil => rfl
  | cons a rest ih => exact (ih _).trans (h st a)

/-- The disk of a walk that collects replacements. -/
def diskOf (st : UMap Str T.Replacements × Terminal) : Disk := st.2.disk

theorem addReplacement_disk (conflict file : Str) (st : UMap Str T.Replacements × Terminal)
    (r : Replacement) : diskOf (addReplacement conflict file st r) = diskOf st := by
  unfold addReplacement
  dsimp only
  split <;> rfl

theorem engine_disk (engine : MatcherEngine T) (dbs : List T.Database) (sourceFiles : List Str)
    (w : Terminal) : (engine.run dbs sourceFiles w).2.2.disk = w.disk := by
  have hmatch : ∀ st found, diskOf (MatcherEngine.onMatch engine.rules st found) = diskOf st := by
    intro st found
    unfold MatcherEngine.onMatch
    split
    · rfl
    · exact foldl_keeps diskOf (fun st r => addReplacement_disk _ _ st r) _ st
  exact foldl_keeps diskOf hmatch _ (engine.replacements, w)

theorem mergeReplacements_disk (engine : MatcherEngine T) (all : UMap Str T.Replacements)
    (w : Terminal) : (mergeReplacements engine all w).2.disk = w.disk :=
  foldl_keeps diskOf
    (fun st _ => foldl_keeps diskOf (fun st r => addReplacement_disk _ _ st r) _ st) _ (all, w)

/-- **The passes write nothing.** -/
theorem runPasses_disk (dbs : List T.Database) (sourceFiles : List Str)
    (passes : List (List (TransformRule T))) (all : UMap Str T.Replacements) (w : Terminal) :
    (runPasses dbs sourceFiles passes all w).2.2.disk = w.disk := by
  induction passes generalizing all w with
  | nil => rfl
  | cons rules rest ih =>
      rw [runPasses]
      split
      · rfl
      · rename_i engine _
        dsimp only
        split
        · exact engine_disk engine dbs sourceFiles w
        · rw [ih, mergeReplacements_disk, engine_disk]

/-- The entries of a map have paths of their own. -/
theorem nodup_ascending {β : Type} (m : UMap Str β) : ((ascending m).map (·.1)).Nodup := by
  have hkeys : (sortStrs (m.entries.map (·.1))).Nodup :=
    (List.mergeSort_perm _ _).nodup_iff.mpr m.nodupKeys
  refine hkeys.sublist ?_
  unfold ascending
  generalize sortStrs (m.entries.map (·.1)) = keys
  induction keys with
  | nil => exact List.Sublist.slnil
  | cons key rest ih =>
      rw [List.filterMap_cons]
      cases m.lookup key with
      | none => exact ih.cons key
      | some value => exact ih.cons_cons key

/-! ### What a failure leaves -/

/-- A failed run changed nothing, or the files before one that failed. -/
structure PartlyApplied (faults : Faults) (p : TransformPipeline T) (disk disk' : Disk)
    (before : List (Str × T.Replacements)) (entry : Str × T.Replacements)
    (after : List (Str × T.Replacements)) : Prop where
  entries : ascending p.allReplacements = before ++ entry :: after
  fails : Fails faults disk entry
  rewritten : Rewritten disk disk' before
  /-- The file that failed is as it was. -/
  kept : disk' entry.1 = disk entry.1
  unchanged : disk' = disk ↔ ∀ e ∈ before, ∀ content, disk e.1 = some content →
    T.applyAllReplacements content e.2 = .ok content

end TransformPipeline

open TransformPipeline

/-- **A failed transform has rewritten the files before the one that failed, and no other.**
A failure before the files are written, and a dry run, leave them all. -/
theorem failed_execute_leaves {T : Tooling} {faults : Faults} {p p' : TransformPipeline T}
    {buildPaths sourceFiles : List Str} {dryRun : Bool} {w w' : Terminal} {code : Int}
    (hrun : p.execute faults buildPaths sourceFiles dryRun w = (.returned code, p', w'))
    (hcode : code ≠ 0) :
    w'.disk = w.disk ∨
      dryRun = false ∧ ∃ before entry after,
        PartlyApplied faults p' w.disk w'.disk before entry after := by
  unfold execute at hrun
  cases hdbs : loadDatabases (T := T) buildPaths with
  | error message =>
      rw [hdbs] at hrun
      obtain ⟨-, -, rfl⟩ := hrun
      exact Or.inl rfl
  | ok dbs =>
      rw [hdbs] at hrun
      dsimp only at hrun
      have hpasses := runPasses_disk dbs sourceFiles p.passes p.allReplacements w
      generalize runPasses dbs sourceFiles p.passes p.allReplacements w = passed at hrun hpasses
      obtain ⟨code₁, all, w₁⟩ := passed
      dsimp only at hrun hpasses
      split at hrun
      · obtain ⟨-, -, rfl⟩ := hrun
        exact Or.inl hpasses
      · split at hrun
        · obtain ⟨hcode', -⟩ := hrun
          exact absurd rfl hcode
        · rename_i hwet
          have hnodup := nodup_ascending all
          have happlied : Applied faults (ascending all) _ _ _ :=
            applyReplacements_applied (ascending all) hnodup w₁
          generalize applyReplacements faults (ascending all) w₁ = applied at hrun happlied
          obtain ⟨ending, w₂⟩ := applied
          dsimp only at happlied
          rw [hpasses] at happlied
          cases happlied with
          | done h =>
              obtain ⟨hcode', -⟩ := hrun
              exact absurd rfl hcode
          | broken before entry after hentries written hwritten mid h hdisk =>
              cases hrun
          | failed before entry after hentries hfails h =>
              obtain ⟨-, rfl, rfl⟩ := hrun
              have hkept : entry.1 ∉ before.map (·.1) := by
                rw [hentries, List.map_append, List.map_cons] at hnodup
                exact fun hmem => (List.nodup_append.mp hnodup).2.2 _ hmem _ List.mem_cons_self rfl
              exact Or.inr ⟨by simpa using hwet, before, entry, after, hentries, hfails, h,
                h.untouched _ hkept, h.eq_iff⟩

/-! ### A tree left half rewritten -/

/-- One replacement, as Clang applies it. -/
def replaceIn (content : Str) (r : Replacement) : Except Str Str :=
  if r.offset + r.length ≤ content.length then
    .ok (content.take r.offset ++ r.replacementText ++ content.drop (r.offset + r.length))
  else .error (str "replacement is out of range")

/-- A tool over sources in which each matcher matches once. -/
abbrev oneMatch : Tooling where
  Database := Unit
  Command := Unit
  Matcher := Str
  Match := Unit
  Replacements := List Replacement
  loadFromDirectory _ := .ok ()
  getCompileCommands _ _ := [()]
  parseMatcherExpression expression := .ok expression
  tryBind matcher _ := some matcher
  run _ _ _ matchers := (0, matchers.zipIdx.map fun m => (m.2, ()))
  noReplacements := []
  add l r := .ok (l ++ [r])
  replacements l := l
  applyAllReplacements content l := l.foldlM replaceIn content

/-- Rename `foo` in two files, where it stands first. -/
def renameFoo : TransformRule oneMatch where
  matcherExpression := str "declRefExpr()"
  bindId := []
  callback _ :=
    [{ filePath := str "a.cpp", offset := 0, length := 3, replacementText := str "bar" },
      { filePath := str "b.cpp", offset := 0, length := 3, replacementText := str "bar" }]

/-- Two files of the text `foo;`. -/
def fooTree : Disk := fun path =>
  if path = str "a.cpp" ∨ path = str "b.cpp" then some (str "foo;") else none

/-- The second file cannot be opened for writing. -/
def readOnlySecond : Faults where
  openFile path := if path = str "b.cpp" then some (str "Permission denied") else none

/-- A run over both that cannot write the second. -/
def renamed : Ending × TransformPipeline oneMatch × Terminal :=
  execute readOnlySecond { passes := [[renameFoo]] } [str "build"] [str "a.cpp", str "b.cpp"] false
    { disk := fooTree }

theorem sortStrs_pair {a b : Str} (h : a < b) : sortStrs [b, a] = [a, b] := by
  have hle : ¬ b ≤ a := fun hle => hle h
  unfold sortStrs
  rw [List.mergeSort]
  simp [List.MergeSort.Internal.splitInTwo, hle]

/-- `bar` for `foo`. -/
def fooReplacement (path : Str) : Replacement where
  filePath := path
  offset := 0
  length := 3
  replacementText := str "bar"

/-- What the pass collects. -/
def fooReplacements : UMap Str (List Replacement) :=
  ((∅ : UMap Str (List Replacement)).insert (str "a.cpp") [fooReplacement (str "a.cpp")]).insert
    (str "b.cpp") [fooReplacement (str "b.cpp")]

theorem ascending_fooReplacements : ascending fooReplacements
    = [(str "a.cpp", [fooReplacement (str "a.cpp")]),
      (str "b.cpp", [fooReplacement (str "b.cpp")])] := by
  have hkeys : fooReplacements.entries.map (·.1) = [str "b.cpp", str "a.cpp"] := rfl
  unfold ascending
  rw [hkeys, sortStrs_pair (by decide)]
  rfl

/-- The engine with the rule's replacements. -/
def fooEngine : MatcherEngine oneMatch where
  rules := [(str "declRefExpr()", renameFoo.callback)]
  replacements := fooReplacements

/-- The run of the tool and the merge of what it found, with the paths in order. -/
theorem runPasses_renameFoo :
    runPasses [()] [str "a.cpp", str "b.cpp"] [[renameFoo]] ∅ { disk := fooTree }
      = (0, fooReplacements, { disk := fooTree }) := by
  have hmerged : mergeReplacements fooEngine ∅ { disk := fooTree }
      = (fooReplacements, { disk := fooTree }) := by
    unfold mergeReplacements
    rw [show fooEngine.replacements = fooReplacements from rfl, ascending_fooReplacements]
    rfl
  have hrun : runPasses [()] [str "a.cpp", str "b.cpp"] [[renameFoo]] ∅ { disk := fooTree }
      = (0, mergeReplacements fooEngine ∅ { disk := fooTree }) := rfl
  rw [hrun, hmerged]

theorem renamed_eq : renamed
    = (.returned 1, { passes := [[renameFoo]], allReplacements := fooReplacements },
      { disk := fooTree.write (str "a.cpp") (str "bar;")
        errs := str "Error writing b.cpp: Permission denied\n" }) := by
  unfold renamed execute
  have hdbs : loadDatabases (T := oneMatch) [str "build"] = .ok [()] := rfl
  rw [hdbs]
  dsimp only
  rw [runPasses_renameFoo]
  dsimp only
  rw [if_neg (by decide), if_neg (by decide), ascending_fooReplacements]
  rfl

theorem half_rewritten_tree : renamed.1 = .returned 1 ∧
    renamed.2.2.disk (str "a.cpp") = some (str "bar;") ∧
    renamed.2.2.disk (str "b.cpp") = some (str "foo;") := by
  rw [renamed_eq]
  decide

theorem failed_execute_leaves_foo :
    let left := fooTree.write (str "a.cpp") (str "bar;")
    left = fooTree ∨
      false = false ∧ ∃ before entry after,
        PartlyApplied readOnlySecond { passes := [[renameFoo]], allReplacements := fooReplacements }
          fooTree left before entry after :=
  failed_execute_leaves renamed_eq (by decide)

end Vycor
