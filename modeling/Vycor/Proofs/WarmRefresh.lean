/-
A warm refresh settles.

The table the refresh starts from may have collapsed different versions of a header
into one stamp, but none of that survives into the new table: a TU that is kept was
not flagged, so every stamp in its row matches the file as it is, and a TU that was
parsed again reports only stamps that do.  Two stamps of one path that both match the
file are equal, so the table built from these lists hands every list back unchanged,
and nothing in it is stale.
-/
import Vycor.Model.WarmRefresh
import Vycor.Proofs.Dependencies

namespace Vycor.WarmRefresh

open SnapshotIO

/-! ### Expanding the table -/

private theorem getD_dependencies_fold (table : List FileStamp) :
    ∀ (l : List (FileStamp × List Nat)) (m : TuDependencies) (p : Str),
      UMap.getD (l.foldl
        (fun out x => UMap.upsert out x.1.path [] (· ++ x.2.filterMap (table[·]?))) m) p []
      = m.getD p [] ++ (l.filter (·.1.path = p)).flatMap (·.2.filterMap (table[·]?)) := by
  intro l
  induction l with
  | nil => intro m p; simp
  | cons x rest ih =>
      intro m p
      rw [List.foldl_cons, ih, UMap.getD_upsert]
      by_cases hp : x.1.path = p
      · simp [hp]
      · rw [if_neg (fun hc : p = x.1.path => hp hc.symm)]
        simp [hp]

private theorem filter_path_eq {files : List FileStamp} {rows : List (List Nat)}
    (hnd : (files.map (·.path)).Nodup) {i : Nat} {f : FileStamp} (hf : files[i]? = some f) :
    (files.zip rows).filter (·.1.path = f.path)
      = (rows[i]?.map (fun row => (f, row))).toList := by
  induction files generalizing rows i with
  | nil => simp at hf
  | cons g files ih =>
      obtain ⟨hnot, hrest⟩ := List.nodup_cons.mp hnd
      cases rows with
      | nil => simp
      | cons row rows =>
          cases i with
          | zero =>
              obtain rfl : g = f := by simpa using hf
              have hnone : (files.zip rows).filter (·.1.path = g.path) = [] := by
                refine List.filter_eq_nil_iff.mpr ?_
                intro x hx
                have hmem : x.1.path ∈ files.map (·.path) :=
                  List.mem_map_of_mem (List.of_mem_zip hx).1
                intro hc
                have hpath : x.1.path = g.path := by simpa using hc
                rw [hpath] at hmem
                exact hnot hmem
              simp [hnone]
          | succ i =>
              have hf' : files[i]? = some f := by simpa using hf
              have hne : g.path ≠ f.path := by
                intro hc
                refine hnot ?_
                rw [show (fun x : FileStamp => x.path) g = f.path from hc]
                exact List.mem_map_of_mem (List.mem_of_getElem? hf')
              simpa [hne] using ih hrest hf'

/-- A recorded TU's list is its row read through the table. -/
theorem dependenciesOf_getD (snap : SnapshotMeta) (hnd : (snap.files.map (·.path)).Nodup)
    {i : Nat} {f : FileStamp} (hf : snap.files[i]? = some f) :
    (dependenciesOf snap).getD f.path []
      = (snap.tuDeps.getD i []).filterMap (snap.deps[·]?) := by
  unfold dependenciesOf
  have hfold := getD_dependencies_fold snap.deps (snap.files.zip snap.tuDeps) ∅ f.path
  rw [hfold, filter_path_eq hnd hf, List.getD_eq_getElem?_getD]
  cases snap.tuDeps[i]? <;> simp

/-- A TU that is not flagged has only current stamps in its list. -/
theorem not_stale_of_clean {fs : FileSystem} {snap : SnapshotMeta} {f : FileStamp}
    (hnd : (snap.files.map (·.path)).Nodup)
    (hclean : (dirtyFlag snap (recordedIndex snap.files) (depChanged fs snap) f).1 = false) :
    ∀ d ∈ (dependenciesOf snap).getD f.path [], ¬ Stale fs d := by
  have hrec : Recorded snap.files f := by
    by_contra hc
    rw [dirtyFlag_changed fs snap hc] at hclean
    simp at hclean
  obtain ⟨i, hi, hf⟩ := hrec
  intro d hd hstale
  rw [dependenciesOf_getD snap hnd hf] at hd
  obtain ⟨id, hid, hget⟩ := List.mem_filterMap.mp hd
  have hdirty := (dirtyFlag_recorded fs hi hf).mpr ⟨id, hid, d, hget, hstale⟩
  rw [hdirty] at hclean
  simp at hclean

/-! ### Lists of current stamps survive recording

Recording may mix stamps of different parses. Where all of them match the file,
there is only one stamp of each path to choose from.
-/

/-- Two stamps of one path that match the file are the same stamp. -/
theorem eq_of_not_stale {fs : FileSystem} {d e : FileStamp} (hpath : d.path = e.path)
    (hd : ¬ Stale fs d) (he : ¬ Stale fs e) : d = e := by
  obtain ⟨dp, dm, ds⟩ := d
  obtain ⟨ep, em, es⟩ := e
  simp only [Stale, sameParsedVersion, Bool.not_eq_false, Bool.and_eq_true, beq_iff_eq]
    at hpath hd he
  subst hpath
  rw [hd.1, hd.2, he.1, he.2]

theorem oldest_of_not_stale {fs : FileSystem} {ds : List FileStamp}
    (hall : ∀ d ∈ ds, ¬ Stale fs d) {d : FileStamp} (hd : d ∈ ds) :
    oldest ds d.path = some d := by
  obtain ⟨k, hk⟩ := oldest_isSome hd
  obtain ⟨hmem, hpath⟩ := oldest_mem ds hk
  rw [hk, eq_of_not_stale hpath (hall k hmem) (hall d hd)]

theorem list_after_record {fs : FileSystem} {snap : SnapshotMeta} {deps : TuDependencies}
    (hnd : (snap.files.map (·.path)).Nodup)
    (hall : ∀ d ∈ reportedStamps snap.files deps, ¬ Stale fs d)
    {f : FileStamp} (hf : f ∈ snap.files) :
    (dependenciesOf (recordDependencies snap deps)).getD f.path [] = deps.getD f.path [] := by
  obtain ⟨i, hi⟩ := List.getElem?_of_mem hf
  obtain ⟨row, hrow, hread⟩ := recordDependencies_row snap deps hi
  rw [dependenciesOf_getD (recordDependencies snap deps) hnd hi,
    List.getD_eq_getElem?_getD, hrow, Option.getD_some]
  have hown : (deps.getD f.path []).map
      (fun d => oldest (reportedStamps snap.files deps) d.path)
      = (deps.getD f.path []).map some := by
    refine List.map_congr_left fun d hd => ?_
    exact oldest_of_not_stale hall (List.mem_flatMap.mpr ⟨f, hf, hd⟩)
  rw [hown] at hread
  have hcompact := congrArg (List.filterMap id) hread
  simpa [List.filterMap_map, Function.comp_def] using hcompact

/-! ### What the refresh records -/

theorem mem_toBake {fs : FileSystem} {snap : SnapshotMeta} {files : List Str}
    {tu : Str} :
    tu ∈ toBake (stampFiles fs files) (dirtyTUs fs snap (stampFiles fs files)).1 ↔
      tu ∈ files ∧ (dirtyFlag snap (recordedIndex snap.files) (depChanged fs snap)
        (stampFile fs tu)).1 = true := by
  have hpath := stampFile_path fs
  unfold toBake dirtyTUs stampFiles
  simp only [List.map_map, List.zip_map', List.mem_filterMap, List.mem_map]
  constructor
  · rintro ⟨x, ⟨p, hp, rfl⟩, hx⟩
    dsimp only [Function.comp_apply] at hx
    split at hx
    · rename_i hflag
      have htu : p = tu := by simpa [hpath] using hx
      subst htu
      exact ⟨hp, hflag⟩
    · simp at hx
  · rintro ⟨hp, hflag⟩
    refine ⟨_, ⟨tu, hp, rfl⟩, ?_⟩
    simp only [Function.comp_apply]
    rw [if_pos hflag, hpath]

/-- What a re-parsed TU reported replaces its list; a TU neither dropped nor re-parsed
keeps its list. -/
theorem lookup_refreshDependencies (snap : SnapshotMeta) (drop bake : List Str)
    (fresh : TuDependencies) (tu : Str) :
    (refreshDependencies snap drop bake fresh).lookup tu
      = (fresh.lookup tu).or
          (if tu ∈ bake then none
            else if tu ∈ drop then none else (dependenciesOf snap).lookup tu) := by
  unfold refreshDependencies
  rw [UMap.lookup_insertAll, UMap.lookup_eraseAll, UMap.lookup_eraseAll]

section Settles

variable {fs : FileSystem} {cfg : IndexConfig} {snap : SnapshotMeta} {files : List Str}
  {fresh : TuDependencies}

/-- The TUs the refresh parses again. -/
abbrev rebaked (fs : FileSystem) (snap : SnapshotMeta) (files : List Str) : List Str :=
  toBake (stampFiles fs files) (dirtyTUs fs snap (stampFiles fs files)).1

theorem stampFiles_paths (fs : FileSystem) (files : List Str) :
    (stampFiles fs files).map (·.path) = files := by
  unfold stampFiles
  rw [List.map_map]
  conv_rhs => rw [← List.map_id files]
  exact List.map_congr_left fun p _ => stampFile_path fs p

/-- Every list the refresh records holds only current stamps. -/
theorem reported_not_stale (hnd : (snap.files.map (·.path)).Nodup)
    (hfresh : ∀ tu ∈ rebaked fs snap files, ∃ list, fresh.lookup tu = some list)
    (hmatch : ∀ tu list, fresh.lookup tu = some list → ∀ d ∈ list, ¬ Stale fs d) :
    ∀ d ∈ reportedStamps (stampFiles fs files)
      (refreshDependencies snap (toDrop snap files) (rebaked fs snap files) fresh),
      ¬ Stale fs d := by
  intro d hd
  obtain ⟨f, hf, hlist⟩ := List.mem_flatMap.mp hd
  obtain ⟨tu, htu, rfl⟩ := List.mem_map.mp hf
  have hpath : (stampFile fs tu).path = tu := stampFile_path fs tu
  rw [hpath, UMap.getD, lookup_refreshDependencies] at hlist
  cases hl : fresh.lookup tu with
  | some list =>
      rw [hl] at hlist
      exact hmatch tu list hl d (by simpa using hlist)
  | none =>
      have hclean : tu ∉ rebaked fs snap files := by
        intro hc
        obtain ⟨list, hlist'⟩ := hfresh tu hc
        rw [hl] at hlist'
        simp at hlist'
      rw [hl, if_neg hclean, Option.none_or] at hlist
      split at hlist
      · simp at hlist
      · have hflag : (dirtyFlag snap (recordedIndex snap.files) (depChanged fs snap)
            (stampFile fs tu)).1 = false := by
          by_contra hc
          exact hclean (mem_toBake.mpr ⟨htu, by simpa using hc⟩)
        have := not_stale_of_clean hnd hflag
        rw [hpath] at this
        exact this d hlist

/-- **A warm refresh settles.**  When every flagged TU is parsed again and reports only
current stamps, the meta section saved flags nothing in the selection, and every TU that
was neither dropped nor parsed again keeps its list. -/
theorem refresh_settles (hfiles : (snap.files.map (·.path)).Nodup) (hsel : files.Nodup)
    (hfresh : ∀ tu ∈ rebaked fs snap files, ∃ list, fresh.lookup tu = some list)
    (honly : ∀ tu list, fresh.lookup tu = some list → tu ∈ rebaked fs snap files)
    (hmatch : ∀ tu list, fresh.lookup tu = some list →
      ∀ d ∈ list, sameParsedVersion d (stampFile fs d.path) = true) :
    (∀ flag ∈ (dirtyTUs fs (refreshedMeta fs cfg snap files fresh) (stampFiles fs files)).1,
      flag = false) ∧
    ∀ tu ∈ files, tu ∉ rebaked fs snap files →
      (dependenciesOf (refreshedMeta fs cfg snap files fresh)).getD tu []
        = (dependenciesOf snap).getD tu [] := by
  have hmatch' : ∀ tu list, fresh.lookup tu = some list → ∀ d ∈ list, ¬ Stale fs d := by
    intro tu list hl d hd hstale
    rw [Stale, hmatch tu list hl d hd] at hstale
    simp at hstale
  have hcur := reported_not_stale hfiles hfresh hmatch'
  set deps := refreshDependencies snap (toDrop snap files) (rebaked fs snap files) fresh
    with hdeps
  set base : SnapshotMeta :=
    { collapsePaths := cfg.collapsePaths, lockAllowlist := cfg.lockAllowlist,
      lockBuiltins := cfg.lockBuiltins, channelTypes := cfg.channelTypes,
      files := stampFiles fs files, entryPoints := cfg.entryPoints } with hbase
  have hmeta : refreshedMeta fs cfg snap files fresh = recordDependencies base deps := rfl
  have hnd : (base.files.map (·.path)).Nodup := by
    show ((stampFiles fs files).map (·.path)).Nodup
    rw [stampFiles_paths]
    exact hsel
  rw [hmeta]
  refine ⟨?_, ?_⟩
  · intro flag hflag
    obtain ⟨k, hk⟩ := List.getElem?_of_mem hflag
    rw [dirtyTUs_getElem?] at hk
    obtain ⟨f, hf, rfl⟩ := Option.map_eq_some_iff.mp hk
    have hrec : Recorded base.files f := recorded_of_nodup hnd (List.mem_of_getElem? hf)
    by_contra hc
    rw [Bool.not_eq_false, recordDependencies_files, dirtyFlag_after_record fs _ hrec] at hc
    obtain ⟨d, -, kept, hold, hstale⟩ := hc
    exact hcur kept (oldest_mem _ hold).1 hstale
  · intro tu htu hkept
    have hpath : (stampFile fs tu).path = tu := stampFile_path fs tu
    have hmem : stampFile fs tu ∈ base.files := List.mem_map_of_mem htu
    have hlist := list_after_record hnd hcur hmem
    rw [hpath] at hlist
    rw [hlist, UMap.getD, UMap.getD, hdeps, lookup_refreshDependencies, if_neg hkept,
      if_neg (by simp [toDrop, htu])]
    have hnone : fresh.lookup tu = none := by
      cases hl : fresh.lookup tu with
      | none => rfl
      | some list => exact absurd (honly tu list hl) hkept
    rw [hnone, Option.none_or]

end Settles

/-- A header shared by a kept and an edited TU. -/
theorem refresh_settles_shared :
    let fs : FileSystem := fun p =>
      if p = str "h" then some (7000000500, 10) else if p = str "a" then some (5, 1) else some (9, 2)
    let snap : SnapshotMeta :=
      { files := [⟨str "a", 5, 1⟩, ⟨str "b", 1, 1⟩], deps := [⟨str "h", 7000000000, 10⟩],
        tuDeps := [[0], [0]] }
    let fresh : TuDependencies := AList.insert (str "b") [⟨str "h", 7000000000, 10⟩] ∅
    (∀ flag ∈ (dirtyTUs fs (refreshedMeta fs {} snap [str "a", str "b"] fresh)
        (stampFiles fs [str "a", str "b"])).1, flag = false) ∧
      ∀ tu ∈ [str "a", str "b"], tu ∉ rebaked fs snap [str "a", str "b"] →
        (dependenciesOf (refreshedMeta fs {} snap [str "a", str "b"] fresh)).getD tu []
          = (dependenciesOf snap).getD tu [] := by
  intro fs snap fresh
  have hlook : ∀ tu list, fresh.lookup tu = some list →
      tu = str "b" ∧ list = [⟨str "h", 7000000000, 10⟩] := by
    intro tu list h
    rw [UMap.lookup_insert_ite] at h
    split at h
    · rename_i htu
      exact ⟨htu, by simpa using h.symm⟩
    · simp at h
  refine @refresh_settles fs {} snap [str "a", str "b"] fresh (by decide) (by decide) ?_ ?_ ?_
  · intro tu htu
    obtain ⟨hmem, hflag⟩ := mem_toBake.mp htu
    rcases List.mem_pair.mp hmem with rfl | rfl
    · exact absurd hflag (by decide)
    · exact ⟨_, rfl⟩
  · intro tu list h
    obtain ⟨rfl, -⟩ := hlook tu list h
    decide
  · intro tu list h
    obtain ⟨-, rfl⟩ := hlook tu list h
    decide

end Vycor.WarmRefresh
