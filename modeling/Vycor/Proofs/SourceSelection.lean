/-
What a selection selects.

A selection is a set of paths in canonical spelling: the candidates of its base, as far as the
regular expression and the skipped paths let them through.  How the paths are spelled, how
often they are named and in which order a database lists them does not matter.

What a list file names depends on how LLVM cuts a text into lines and trims them; of that only
what is documented is used, and it is stated first.
-/
import Mathlib.Data.List.DropRight
import Vycor.Lib.Scan
import Vycor.Model.SourceSelection
import Vycor.Proofs.IndexOrder

namespace Vycor

namespace SourceSelection

/-! ### Reading lines -/

/-- A blank, a tab or a line end of any kind. -/
def isBlank (b : UInt8) : Bool := b ∈ [32, 9, 10, 11, 12, 13]

/-- A carriage return before a line end belongs to the line end. -/
def withoutCR (line : Str) : Str := if line.getLast? = some 13 then line.dropLast else line

/-- The lines of a text without their line ends; what follows the last one is a line too. -/
def textLines (text : Str) : List Str :=
  (text.splitOn 10).dropLast.map withoutCR ++ (text.splitOn 10).getLast?.toList

/-- What a selection relies on of LLVM's text functions. -/
structure ReadsText (w : SelectionWorld) : Prop where
  /-- Blanks are trimmed on both sides. -/
  trim : ∀ line, w.trim line = Scan.trim isBlank line
  /-- Lines end at a zero byte; those that are empty or begin with `#` are skipped. -/
  lines : ∀ text, w.listFileLines text
    = (textLines (text.takeWhile (· ≠ 0))).filter fun line => line ≠ [] ∧ line.head? ≠ some 35

/-! ### Lists -/

theorem foldl_appendUnique_files (w : SelectionWorld) (paths : List Str) (c : Candidates) :
    (paths.foldl (appendUnique w) c).files
      = (paths.map (canonical w)).foldl Dedup.pushUnique c.files := by
  induction paths generalizing c with
  | nil => rfl
  | cons p rest ih => exact ih _

theorem mem_foldl_appendUnique (w : SelectionWorld) (paths : List Str) (c : Candidates) (f : Str) :
    f ∈ (paths.foldl (appendUnique w) c).files
      ↔ f ∈ c.files ∨ ∃ p ∈ paths, canonical w p = f := by
  rw [foldl_appendUnique_files, Dedup.mem_foldl_pushUnique, List.mem_map]

theorem foldl_pushUnique_of_nodup {l : List Str} (h : l.Nodup) :
    l.foldl Dedup.pushUnique [] = l := by
  induction l using List.reverseRecOn with
  | nil => rfl
  | append_singleton front x ih =>
      obtain ⟨hfront, -, hx⟩ := List.nodup_append.mp h
      have hnew : x ∉ front := fun hmem => hx x hmem x (List.mem_singleton_self x) rfl
      rw [List.foldl_append, ih hfront]
      exact if_neg hnew

/-- Paths that are canonical already are listed as they are. -/
theorem foldl_appendUnique_fixed {w : SelectionWorld} {paths : List Str} (hnodup : paths.Nodup)
    (hfix : ∀ p ∈ paths, canonical w p = p) :
    (paths.foldl (appendUnique w) .empty).files = paths := by
  rw [foldl_appendUnique_files, List.map_congr_left hfix, List.map_id']
  exact foldl_pushUnique_of_nodup hnodup

/-- A trimmed line that names a path. -/
def isEntry (s : Str) : Bool := s ≠ [] ∧ ¬ str "#" <+: s

/-- The paths that lines name. -/
def entries (w : SelectionWorld) (lines : List Str) : List Str := (lines.map w.trim).filter isEntry

theorem foldl_appendListLine (w : SelectionWorld) (lines : List Str) (c : Candidates) :
    lines.foldl (appendListLine w) c = (entries w lines).foldl (appendUnique w) c := by
  induction lines generalizing c with
  | nil => rfl
  | cons line rest ih =>
      rw [List.foldl_cons, ih]
      by_cases h : isEntry (w.trim line) = true
      · have hc : w.trim line ≠ [] ∧ ¬ str "#" <+: w.trim line := by simpa [isEntry] using h
        rw [appendListLine, if_pos hc, entries, entries, List.map_cons, List.filter_cons_of_pos h,
          List.foldl_cons]
      · have hc : ¬ (w.trim line ≠ [] ∧ ¬ str "#" <+: w.trim line) := by
          simpa [isEntry] using h
        rw [appendListLine, if_neg hc, entries, entries, List.map_cons, List.filter_cons_of_neg h]

/-- The paths a text lists. -/
def listEntries (w : SelectionWorld) (text : Str) : List Str := entries w (text.splitOn 10)

theorem entries_append (w : SelectionWorld) (l l' : List Str) :
    entries w (l ++ l') = entries w l ++ entries w l' := by
  rw [entries, List.map_append, List.filter_append]
  rfl

section Text

variable {w : SelectionWorld} (htext : ReadsText w)
include htext

theorem ReadsText.entries_getlines (text : Str) :
    entries w (getlines text) = listEntries w text := by
  unfold getlines listEntries
  dsimp only
  split_ifs with h
  · -- the empty piece behind the last line end names nothing
    conv_rhs => rw [← List.dropLast_append_getLast? [] h]
    have hnil : entries w [[]] = [] := by
      rw [entries, List.map_singleton, htext.trim]
      rfl
    rw [entries_append, hnil, List.append_nil]
  · rfl

/-- The carriage return of a line end is trimmed anyway. -/
theorem ReadsText.trim_withoutCR (line : Str) : w.trim (withoutCR line) = w.trim line := by
  rw [htext.trim, htext.trim]
  unfold withoutCR
  split_ifs with h
  · conv_rhs => rw [← List.dropLast_append_getLast? 13 h]
    generalize line.dropLast = front
    unfold Scan.trim
    rw [List.dropWhile_append]
    split_ifs with hfront
    · rw [List.isEmpty_iff.mp hfront]
      rfl
    · rw [List.rdropWhile_concat_pos _ _ _ (by decide)]
  · rfl

/-- A line that is skipped unread names nothing. -/
theorem ReadsText.isEntry_trim_of_skipped {line : Str}
    (h : ¬ (line ≠ [] ∧ line.head? ≠ some 35)) : isEntry (w.trim line) = false := by
  rw [htext.trim]
  cases line with
  | nil => rfl
  | cons b rest =>
      have hb : b = 35 := by
        by_contra hb
        exact h ⟨List.cons_ne_nil _ _, fun hh => hb (Option.some.inj hh)⟩
      subst hb
      have hhead : (35 :: rest : Str).dropWhile isBlank = 35 :: rest :=
        List.dropWhile_cons_of_neg (by decide)
      have hkept : ∃ t, Scan.trim isBlank (35 :: rest) = 35 :: t := by
        unfold Scan.trim
        rw [hhead, show (35 :: rest : Str) = [35] ++ rest from rfl]
        induction rest using List.reverseRecOn with
        | nil => exact ⟨[], rfl⟩
        | append_singleton front c ih =>
            rw [← List.append_assoc]
            by_cases hc : isBlank c = true
            · rw [List.rdropWhile_concat_pos _ _ _ hc]
              exact ih (fun h => h.2 rfl) (List.dropWhile_cons_of_neg (by decide))
            · rw [List.rdropWhile_concat_neg _ _ _ hc]
              exact ⟨front ++ [c], by simp⟩
      obtain ⟨t, ht⟩ := hkept
      have hcomment : str "#" <+: 35 :: t := ⟨t, rfl⟩
      simp [isEntry, ht, hcomment]

theorem ReadsText.entries_filter (lines : List Str) :
    entries w (lines.filter fun line => line ≠ [] ∧ line.head? ≠ some 35) = entries w lines := by
  induction lines with
  | nil => rfl
  | cons line rest ih =>
      by_cases h : line ≠ [] ∧ line.head? ≠ some 35
      · rw [List.filter_cons_of_pos (by simpa using h)]
        rw [entries, entries, List.map_cons, List.map_cons, List.filter_cons, List.filter_cons]
        rw [entries, entries] at ih
        rw [ih]
      · rw [List.filter_cons_of_neg (by simpa using h), ih]
        rw [entries, entries, List.map_cons,
          List.filter_cons_of_neg (by simp [htext.isEntry_trim_of_skipped h])]

/-- A list file says what its text says, up to the first zero byte. -/
theorem ReadsText.entries_listFileLines (text : Str) :
    entries w (w.listFileLines text) = listEntries w (text.takeWhile (· ≠ 0)) := by
  rw [htext.lines, htext.entries_filter, textLines, entries_append, listEntries]
  generalize (text.takeWhile (· ≠ 0)).splitOn 10 = pieces
  have hcr : entries w (pieces.dropLast.map withoutCR) = entries w pieces.dropLast := by
    unfold entries
    rw [List.map_map, show w.trim ∘ withoutCR = w.trim from funext htext.trim_withoutCR]
  rw [hcr, ← entries_append]
  cases pieces using List.reverseRecOn with
  | nil => rfl
  | append_singleton front last => simp

end Text

/-! ### Candidates -/

/-- The text of `--source-list`, as far as it is read. -/
def listText (w : SelectionWorld) (sel : SourceSelection) : Except Str Str :=
  if sel.listFile = str "-" then .ok w.stdin
  else (w.getFile sel.listFile).map (·.takeWhile (· ≠ 0))

/-- A path before filtering, in its canonical spelling. -/
inductive Candidate (w : SelectionWorld) (sel : SourceSelection) : Str → Prop
  | named {p : Str} (hp : p ∈ sel.explicitFiles) : Candidate w sel (canonical w p)
  | listed {text p : Str} (hlist : sel.listFile ≠ []) (htext : listText w sel = .ok text)
      (hp : p ∈ listEntries w text) : Candidate w sel (canonical w p)
  | recorded {p : Str} (hbare : sel.explicitFiles = [] ∧ sel.listFile = [] ∧ sel.regex = [])
      (hp : p ∈ sel.recordedFiles) : Candidate w sel (canonical w p)
  | database {p : Str} (hunnamed : sel.explicitFiles = [] ∧ sel.listFile = [])
      (hfresh : sel.regex ≠ [] ∨ sel.recordedFiles = []) (hp : p ∈ w.getAllFiles)
      (hdisk : isCppSourceOnDisk w p = true) : Candidate w sel (canonical w p)

/-- What the regular expression lets through. -/
def Matches (w : SelectionWorld) (sel : SourceSelection) (f : Str) : Prop :=
  sel.regex = [] ∨ ∃ re, w.regex sel.regex = .ok re ∧ re f = true

variable {w : SelectionWorld} {sel : SourceSelection}

theorem compileRegex_ok {re : Option (Str → Bool)} (h : compileRegex w sel = .ok re) :
    (re.isNone ↔ sel.regex = []) ∧ ∀ f, matching re f = true ↔ Matches w sel f := by
  unfold compileRegex at h
  split_ifs at h with hre
  · obtain rfl := Except.ok.inj h
    exact ⟨by simp [hre], fun f => by simp [matching, Matches, hre]⟩
  · cases hc : w.regex sel.regex with
    | error e =>
        rw [hc] at h
        cases h
    | ok compiled =>
        rw [hc] at h
        obtain rfl := Except.ok.inj h
        exact ⟨by simp [hre], fun f => by simp [matching, Matches, hre, hc]⟩

/-- The files that are named: those of `--source`, then what the list says. -/
theorem namedFiles_ok {named : Candidates} (h : namedFiles w sel = .ok named) :
    ∃ listed, named = listed.foldl (appendUnique w)
        (sel.explicitFiles.foldl (appendUnique w) .empty) ∧
      (sel.listFile = [] ∧ listed = [] ∨
        sel.listFile ≠ [] ∧ sel.listFile = str "-" ∧ listed = entries w (getlines w.stdin) ∨
        sel.listFile ≠ [] ∧ sel.listFile ≠ str "-" ∧
          ∃ text, w.getFile sel.listFile = .ok text ∧
            listed = entries w (w.listFileLines text)) := by
  unfold namedFiles at h
  dsimp only at h
  split_ifs at h with hnone hdash
  · obtain rfl := Except.ok.inj h
    exact ⟨[], rfl, .inl ⟨hnone, rfl⟩⟩
  · obtain rfl := Except.ok.inj h
    exact ⟨_, foldl_appendListLine .., .inr (.inl ⟨hnone, hdash, rfl⟩)⟩
  · cases hfile : w.getFile sel.listFile with
    | error e =>
        rw [hfile] at h
        cases h
    | ok text =>
        rw [hfile] at h
        obtain rfl := Except.ok.inj h
        exact ⟨_, foldl_appendListLine .., .inr (.inr ⟨hnone, hdash, text, rfl, rfl⟩)⟩

theorem mem_namedFiles (htext : ReadsText w) {named : Candidates}
    (h : namedFiles w sel = .ok named) (f : Str) :
    f ∈ named.files ↔ (∃ p ∈ sel.explicitFiles, canonical w p = f) ∨
      (sel.listFile ≠ [] ∧ ∃ text, listText w sel = .ok text ∧
        ∃ p ∈ listEntries w text, canonical w p = f) := by
  obtain ⟨listed, rfl, hlisted⟩ := namedFiles_ok h
  rw [mem_foldl_appendUnique, mem_foldl_appendUnique]
  rcases hlisted with ⟨hnone, rfl⟩ | ⟨hsome, hdash, rfl⟩ | ⟨hsome, hdash, text, hfile, rfl⟩
  · simp [Candidates.empty, hnone]
  · have hstdin : listText w sel = .ok w.stdin := if_pos hdash
    rw [htext.entries_getlines w.stdin, hstdin]
    simp [Candidates.empty, hsome]
  · rw [htext.entries_listFileLines text]
    simp [Candidates.empty, hsome, listText, hdash, hfile, Except.map]

theorem mem_databaseFiles (c : Candidates) (f : Str) :
    f ∈ (databaseFiles w c).1.files ↔
      f ∈ c.files ∨ ∃ p ∈ w.getAllFiles, isCppSourceOnDisk w p = true ∧ canonical w p = f := by
  have hsorted : ∀ l, f ∈ sortStrs l ↔ f ∈ l := fun l => (List.mergeSort_perm l _).mem_iff
  show f ∈ sortStrs ((w.getAllFiles.filter _).foldl (appendUnique w) c).files ↔ _
  rw [hsorted, mem_foldl_appendUnique]
  simp only [List.mem_filter, and_assoc]

theorem mem_baseFiles (htext : ReadsText w) {re : Option (Str → Bool)} {named base : Candidates}
    {origin : Str} {skipped : Nat} (hre : compileRegex w sel = .ok re)
    (hnamed : namedFiles w sel = .ok named)
    (h : baseFiles w sel re named = .ok (base, origin, skipped)) (f : Str) :
    f ∈ base.files ↔ Candidate w sel f := by
  have hnone := (compileRegex_ok hre).1
  have hcandidate : Candidate w sel f ↔ f ∈ named.files ∨
      ((sel.explicitFiles = [] ∧ sel.listFile = [] ∧ sel.regex = []) ∧
        ∃ p ∈ sel.recordedFiles, canonical w p = f) ∨
      ((sel.explicitFiles = [] ∧ sel.listFile = []) ∧
        (sel.regex ≠ [] ∨ sel.recordedFiles = []) ∧
        ∃ p ∈ w.getAllFiles, isCppSourceOnDisk w p = true ∧ canonical w p = f) := by
    rw [mem_namedFiles htext hnamed]
    constructor
    · rintro (hp | ⟨hlist, hread, hp⟩ | ⟨hbare, hp⟩ | ⟨hunnamed, hfresh, hp, hdisk⟩)
      · exact .inl (.inl ⟨_, hp, rfl⟩)
      · exact .inl (.inr ⟨hlist, _, hread, _, hp, rfl⟩)
      · exact .inr (.inl ⟨hbare, _, hp, rfl⟩)
      · exact .inr (.inr ⟨hunnamed, hfresh, _, hp, hdisk, rfl⟩)
    · rintro ((⟨p, hp, rfl⟩ | ⟨hlist, text, hread, p, hp, rfl⟩) | ⟨hbare, p, hp, rfl⟩ |
        ⟨hunnamed, hfresh, p, hp, hdisk, rfl⟩)
      · exact .named hp
      · exact .listed hlist hread hp
      · exact .recorded hbare hp
      · exact .database hunnamed hfresh hp hdisk
  rw [hcandidate]
  unfold baseFiles at h
  split_ifs at h with hboth hexplicit hlist hindex hall
  · obtain rfl := congrArg Prod.fst (Except.ok.inj h)
    simp [hboth.1, hboth.2]
  · obtain rfl := congrArg Prod.fst (Except.ok.inj h)
    simp [hexplicit]
  · obtain rfl := congrArg Prod.fst (Except.ok.inj h)
    simp [hlist]
  · obtain rfl := congrArg Prod.fst (Except.ok.inj h)
    rw [mem_foldl_appendUnique]
    have hre' : sel.regex = [] := hnone.mp hindex.1
    simp [not_not.mp hexplicit, not_not.mp hlist, hre', hindex.2]
  · obtain rfl := congrArg Prod.fst (Except.ok.inj h)
    have hmem := mem_databaseFiles (w := w) named f
    unfold databaseFiles at hmem
    rw [hmem]
    have hfresh : ¬ (sel.regex = [] ∧ sel.recordedFiles ≠ []) := by rwa [← hnone]
    by_cases hre' : sel.regex = []
    · have hrec : sel.recordedFiles = [] := by_contra fun hne => hfresh ⟨hre', hne⟩
      simp [not_not.mp hexplicit, not_not.mp hlist, hrec]
    · simp [not_not.mp hexplicit, not_not.mp hlist, hre']

/-! ### What is selected -/

theorem selectSources_of {re : Option (Str → Bool)} {named base : Candidates} {origin : Str}
    {skipped : Nat} (hre : compileRegex w sel = .ok re) (hnamed : namedFiles w sel = .ok named)
    (hbase : baseFiles w sel re named = .ok (base, origin, skipped)) :
    ∃ stats, selectSources w sel
      = .ok ((base.keep (matching re)).keep (unskipped sel.skipPaths), stats) := by
  unfold selectSources
  rw [hre, hnamed]
  dsimp only [bind, Except.bind]
  rw [hbase]
  exact ⟨_, rfl⟩

theorem selectSources_ok {out : Candidates} {stats : SourceSelectionStats}
    (h : selectSources w sel = .ok (out, stats)) :
    ∃ re named base origin skipped, compileRegex w sel = .ok re ∧ namedFiles w sel = .ok named ∧
      baseFiles w sel re named = .ok (base, origin, skipped) ∧
      out = (base.keep (matching re)).keep (unskipped sel.skipPaths) ∧
      stats =
        { base := base.files.length
          regexDropped := base.files.length - (base.keep (matching re)).files.length
          skipDropped := (base.keep (matching re)).files.length - out.files.length
          dbSkipped := skipped
          baseSource := origin } := by
  unfold selectSources at h
  cases hre : compileRegex w sel with
  | error e =>
      rw [hre] at h
      cases h
  | ok re =>
      cases hnamed : namedFiles w sel with
      | error e =>
          rw [hre, hnamed] at h
          cases h
      | ok named =>
          cases hbase : baseFiles w sel re named with
          | error e =>
              rw [hre, hnamed] at h
              dsimp only [bind, Except.bind] at h
              rw [hbase] at h
              cases h
          | ok found =>
              obtain ⟨base, origin, skipped⟩ := found
              rw [hre, hnamed] at h
              dsimp only [bind, Except.bind] at h
              rw [hbase] at h
              obtain ⟨rfl, rfl⟩ := Prod.mk.inj (Except.ok.inj h)
              exact ⟨re, named, base, origin, skipped, rfl, rfl, hbase, rfl, rfl⟩

/-- Explicit files that are canonical already are the selection. -/
theorem selection_explicit {paths : List Str} (hne : paths ≠ []) (hnodup : paths.Nodup)
    (hfix : ∀ p ∈ paths, canonical w p = p) :
    ∃ out stats, selectSources w { explicitFiles := paths } = .ok (out, stats) ∧
      out.files = paths := by
  have hbase : baseFiles w { explicitFiles := paths } none (paths.foldl (appendUnique w) .empty)
      = .ok (paths.foldl (appendUnique w) .empty, str "source", 0) := by
    unfold baseFiles
    simp [hne]
  have hre : compileRegex w { explicitFiles := paths } = .ok none := rfl
  have hnamed : namedFiles w { explicitFiles := paths }
      = .ok (paths.foldl (appendUnique w) .empty) := rfl
  obtain ⟨stats, hout⟩ := selectSources_of hre hnamed hbase
  refine ⟨_, stats, hout, ?_⟩
  show (((paths.foldl (appendUnique w) .empty).files.filter (matching none)).filter
    (unskipped [])) = paths
  rw [foldl_appendUnique_fixed hnodup hfix, List.filter_filter]
  exact List.filter_eq_self.mpr fun _ _ => rfl

theorem mem_selected (htext : ReadsText w) {out : Candidates} {stats : SourceSelectionStats}
    (h : selectSources w sel = .ok (out, stats)) (f : Str) :
    f ∈ out.files ↔
      Candidate w sel f ∧ Matches w sel f ∧ unskipped sel.skipPaths f = true := by
  obtain ⟨re, named, base, origin, skipped, hre, hnamed, hbase, rfl, rfl⟩ := selectSources_ok h
  rw [← mem_baseFiles htext hre hnamed hbase, ← (compileRegex_ok hre).2]
  simp only [Candidates.keep, List.mem_filter, and_assoc]

/-- Whatever the text functions do, a candidate is the canonical spelling of some path. -/
def Spelled (w : SelectionWorld) (c : Candidates) : Prop := ∀ f ∈ c.files, ∃ q, canonical w q = f

theorem Spelled.foldl {c : Candidates} (h : Spelled w c) (paths : List Str) :
    Spelled w (paths.foldl (appendUnique w) c) := by
  intro f hf
  rcases (mem_foldl_appendUnique w paths c f).mp hf with hc | ⟨p, -, hp⟩
  · exact h f hc
  · exact ⟨p, hp⟩

theorem spelled_namedFiles {named : Candidates} (h : namedFiles w sel = .ok named) :
    Spelled w named := by
  have hempty : Spelled w .empty := fun _ hf => absurd hf List.not_mem_nil
  obtain ⟨listed, rfl, -⟩ := namedFiles_ok h
  exact (hempty.foldl _).foldl _

theorem Spelled.baseFiles {re : Option (Str → Bool)} {named base : Candidates} {origin : Str}
    {skipped : Nat} (hspelled : Spelled w named)
    (h : baseFiles w sel re named = .ok (base, origin, skipped)) : Spelled w base := by
  unfold SourceSelection.baseFiles at h
  split_ifs at h
  · obtain rfl := congrArg Prod.fst (Except.ok.inj h)
    exact hspelled
  · obtain rfl := congrArg Prod.fst (Except.ok.inj h)
    exact hspelled
  · obtain rfl := congrArg Prod.fst (Except.ok.inj h)
    exact hspelled
  · obtain rfl := congrArg Prod.fst (Except.ok.inj h)
    exact hspelled.foldl _
  · obtain rfl := congrArg Prod.fst (Except.ok.inj h)
    intro f hf
    rcases (mem_databaseFiles named f).mp hf with hc | ⟨p, -, -, hp⟩
    · exact hspelled f hc
    · exact ⟨p, hp⟩

theorem spelled_selected {out : Candidates} {stats : SourceSelectionStats}
    (h : selectSources w sel = .ok (out, stats)) : Spelled w out := by
  obtain ⟨re, named, base, origin, skipped, -, hnamed, hbase, rfl, -⟩ := selectSources_ok h
  intro f hf
  exact (spelled_namedFiles hnamed).baseFiles hbase f
    (List.mem_of_mem_filter (List.mem_of_mem_filter hf))

/-- **A selection is the candidates the two filters let through, each once**, and its counts
account for every candidate. -/
theorem selection_exact (htext : ReadsText w) {out : Candidates} {stats : SourceSelectionStats}
    (h : selectSources w sel = .ok (out, stats)) :
    out.files.Nodup ∧
    (∀ f, f ∈ out.files ↔
      Candidate w sel f ∧ Matches w sel f ∧ unskipped sel.skipPaths f = true) ∧
    stats.base = out.files.length + stats.regexDropped + stats.skipDropped := by
  refine ⟨out.nodup, mem_selected htext h, ?_⟩
  obtain ⟨re, named, base, origin, skipped, hre, hnamed, hbase, rfl, rfl⟩ := selectSources_ok h
  have hmatched : (base.keep (matching re)).files.length ≤ base.files.length :=
    List.length_filter_le _ _
  have hkept : ((base.keep (matching re)).keep (unskipped sel.skipPaths)).files.length
      ≤ (base.keep (matching re)).files.length := List.length_filter_le _ _
  dsimp only
  omega

/-- Two files below `/w`, which is where relative paths start. -/
def twoFiles : SelectionWorld where
  makeAbsolute p := if str "/" <+: p then p else str "/w/" ++ p
  removeDots p := p
  extension p := 46 :: p.rtakeWhile (· ≠ 46)
  isRegularFile p := p ∈ [str "/w/a.cpp", str "/w/b.cpp"]
  regex r := .ok fun f => decide (r <:+: f)
  getFile _ := .error (str "No such file or directory")
  listFileLines text :=
    (textLines (text.takeWhile (· ≠ 0))).filter fun line => line ≠ [] ∧ line.head? ≠ some 35
  trim := Scan.trim isBlank
  stdin := str "# sources\n  b.cpp \r\n\n/w/a.cpp\nb.txt"
  getAllFiles := [str "/w/b.cpp", str "/w/a.cpp", str "/w/gone.cpp", str "/w/b.cpp"]

theorem canonical_twoFiles (p : Str) :
    canonical twoFiles (canonical twoFiles p) = canonical twoFiles p := by
  have hslash : str "/" <+: canonical twoFiles p := by
    show str "/" <+: if str "/" <+: p then p else str "/w/" ++ p
    split_ifs with h
    · exact h
    · exact ⟨str "w/" ++ p, rfl⟩
  exact if_pos hslash

/-- The files of `twoFiles` by two spellings each, without the text file. -/
def fromStdin : SourceSelection where
  explicitFiles := [str "a.cpp"]
  listFile := str "-"
  regex := str ".cpp"

theorem selection_exact_stdin :
    ∃ out stats, selectSources twoFiles fromStdin = .ok (out, stats) ∧
      out.files = [str "/w/a.cpp", str "/w/b.cpp"] ∧ stats.base = 3 ∧
      (∀ f, f ∈ out.files ↔ Candidate twoFiles fromStdin f ∧ Matches twoFiles fromStdin f ∧
        unskipped [] f = true) :=
  have h : selectSources twoFiles fromStdin
      = .ok (⟨[str "/w/a.cpp", str "/w/b.cpp"], by decide⟩,
        { base := 3, regexDropped := 1, baseSource := str "source + source-list" }) := by rfl
  ⟨_, _, h, rfl, rfl, (selection_exact ⟨fun _ => rfl, fun _ => rfl⟩ h).2.1⟩

/-! ### The order of the database -/

theorem Candidates.ext {c c' : Candidates} (h : c.files = c'.files) : c = c' := by
  cases c
  cases c'
  congr

theorem databaseFiles_perm (c : Candidates) {l : List Str} (hperm : w.getAllFiles.Perm l) :
    databaseFiles { w with getAllFiles := l } c = databaseFiles w c := by
  have hdisk : (w.getAllFiles.filter (isCppSourceOnDisk w)).Perm
      (l.filter (isCppSourceOnDisk w)) := hperm.filter _
  have hfiles : (((l.filter (isCppSourceOnDisk w)).foldl (appendUnique w) c).files).Perm
      ((w.getAllFiles.filter (isCppSourceOnDisk w)).foldl (appendUnique w) c).files := by
    rw [foldl_appendUnique_files, foldl_appendUnique_files]
    exact Dedup.perm_foldl_pushUnique (List.Perm.refl _)
      fun x _ => (hdisk.symm.map (canonical w)).mem_iff
  have hsorted : sortStrs ((l.filter (isCppSourceOnDisk w)).foldl (appendUnique w) c).files
      = sortStrs ((w.getAllFiles.filter (isCppSourceOnDisk w)).foldl (appendUnique w) c).files :=
    Ordered.sortBy_eq strict_strLess hfiles fun _ _ _ _ htie => htie
  have hskipped : l.length - (l.filter (isCppSourceOnDisk w)).length
      = w.getAllFiles.length - (w.getAllFiles.filter (isCppSourceOnDisk w)).length := by
    rw [hperm.length_eq, hdisk.length_eq]
  exact Prod.ext (Candidates.ext hsorted) hskipped

/-- **The order in which a database lists its files does not matter**: the selection, its
counts and its errors are the same. -/
theorem selection_order (w : SelectionWorld) (sel : SourceSelection) {l : List Str}
    (hperm : w.getAllFiles.Perm l) :
    selectSources { w with getAllFiles := l } sel = selectSources w sel := by
  have hbase : ∀ re files, baseFiles { w with getAllFiles := l } sel re files
      = baseFiles w sel re files := by
    intro re files
    have hempty : l = [] ↔ w.getAllFiles = [] := by
      rw [← List.length_eq_zero_iff, ← List.length_eq_zero_iff, hperm.length_eq]
    unfold baseFiles
    rw [databaseFiles_perm files hperm]
    simp only [hempty]
    rfl
  unfold selectSources
  simp only [hbase]
  rfl

theorem selection_order_two :
    selectSources { twoFiles with
      getAllFiles := [str "/w/a.cpp", str "/w/b.cpp", str "/w/gone.cpp", str "/w/b.cpp"] } {}
      = selectSources twoFiles {} :=
  selection_order twoFiles {} (List.Perm.swap _ _ _)

end SourceSelection

end Vycor
