/-
What the dependency table keeps of the stamps put into it.

Every TU reports its own stamps, but the table has one entry per path, and when two
TUs report one path differently `keepOlder` decides between them.  So the entry of a
path is the stamp of least mtime among all that were entered for it, the first such
one where mtimes tie: `oldest`.  `recordDependencies_row` says a TU's row reads back
exactly these, one for each stamp the TU reported.

Everything `dirtyTUs` can see of a dependency is therefore the oldest stamp of its
path.  `dirtyTUs_complete_iff` draws the line: a TU with a stale stamp is always
flagged exactly when the oldest stamps alone already betray each such TU.
-/
import Mathlib.Data.List.Induction
import Vycor.Model.Dependencies

namespace Vycor.SnapshotIO

@[simp] theorem stampFile_path (fs : FileSystem) (p : Str) : (stampFile fs p).path = p := by
  unfold stampFile
  split <;> rfl

/-! ### The index of recorded TUs -/

private theorem index_fold_some {files : List FileStamp} :
    ∀ (l : List (FileStamp × Nat)) (m : UMap Str Nat),
      (∀ x ∈ l, files[x.2]? = some x.1) →
      (∀ p i, m.lookup p = some i → ∃ f, files[i]? = some f ∧ f.path = p) →
      ∀ p i, (l.foldl (fun m x => AList.insert x.1.path x.2 m) m).lookup p = some i →
        ∃ f, files[i]? = some f ∧ f.path = p := by
  intro l
  induction l with
  | nil => intro m _ hm; exact hm
  | cons x rest ih =>
      intro m hl hm
      refine ih _ (fun y hy => hl y (by simp [hy])) ?_
      intro p i hi
      rw [UMap.lookup_insert_ite] at hi
      by_cases hp : p = x.1.path
      · rw [if_pos hp] at hi
        obtain rfl : x.2 = i := by simpa using hi
        exact ⟨x.1, hl x (by simp), hp.symm⟩
      · rw [if_neg hp] at hi
        exact hm p i hi

private theorem index_fold_none :
    ∀ (l : List (FileStamp × Nat)) (m : UMap Str Nat) (p : Str),
      (l.foldl (fun m x => AList.insert x.1.path x.2 m) m).lookup p = none ↔
        m.lookup p = none ∧ ∀ x ∈ l, x.1.path ≠ p := by
  intro l
  induction l with
  | nil => intro m p; simp
  | cons x rest ih =>
      intro m p
      rw [List.foldl_cons, ih, UMap.lookup_insert_ite]
      by_cases hp : p = x.1.path
      · simp [hp]
      · simp [hp, Ne.symm hp]

/-- The index answers with a position that holds a stamp of the path asked for. -/
theorem recordedIndex_some {files : List FileStamp} {p : Str} {i : Nat}
    (h : (recordedIndex files).lookup p = some i) :
    ∃ f, files[i]? = some f ∧ f.path = p := by
  refine index_fold_some files.zipIdx ∅ ?_ (by simp) p i h
  intro x hx
  exact List.mem_zipIdx_iff_getElem?.mp hx

/-- Every recorded path is found. -/
theorem recordedIndex_isSome {files : List FileStamp} {f : FileStamp} (hf : f ∈ files) :
    ∃ i, (recordedIndex files).lookup f.path = some i := by
  cases h : (recordedIndex files).lookup f.path with
  | some i => exact ⟨i, rfl⟩
  | none =>
      obtain ⟨i, hi⟩ := List.getElem?_of_mem hf
      have hall := ((index_fold_none files.zipIdx ∅ f.path).mp h).2
      exact absurd rfl (hall (f, i) (List.mem_zipIdx_iff_getElem?.mpr hi))

/-- The current stamp of this TU is the one the index finds for its path. -/
def Recorded (files : List FileStamp) (f : FileStamp) : Prop :=
  ∃ i, (recordedIndex files).lookup f.path = some i ∧ files[i]? = some f

theorem recorded_of_nodup {files : List FileStamp} (hnd : (files.map (·.path)).Nodup)
    {f : FileStamp} (hf : f ∈ files) : Recorded files f := by
  obtain ⟨i, hi⟩ := recordedIndex_isSome hf
  obtain ⟨g, hg, hpath⟩ := recordedIndex_some hi
  have hgf : g = f :=
    List.inj_on_of_nodup_map hnd (List.mem_of_getElem? hg) hf hpath
  exact ⟨i, hi, by rw [hg, hgf]⟩

/-! ### The oldest stamp of a path -/

/-- The stamp the table ends up with for `p` when `ds` are entered in order. -/
def oldest (ds : List FileStamp) (p : Str) : Option FileStamp :=
  (ds.filter (·.path = p)).foldl (fun kept d => some (kept.elim d (keepOlder d))) none

theorem oldest_append_one (ds : List FileStamp) (d : FileStamp) (p : Str) :
    oldest (ds ++ [d]) p
      = if d.path = p then some ((oldest ds p).elim d (keepOlder d)) else oldest ds p := by
  unfold oldest
  rw [List.filter_append, List.foldl_append]
  by_cases h : d.path = p
  · simp [h]
  · simp [h]

theorem keepOlder_cases (d kept : FileStamp) : keepOlder d kept = d ∨ keepOlder d kept = kept := by
  unfold keepOlder
  split
  · exact Or.inl rfl
  · exact Or.inr rfl

theorem oldest_mem {p : Str} :
    ∀ (ds : List FileStamp) {k : FileStamp}, oldest ds p = some k → k ∈ ds ∧ k.path = p := by
  intro ds
  induction ds using List.reverseRecOn with
  | nil => intro k h; simp [oldest] at h
  | append_singleton ds d ih =>
      intro k h
      rw [oldest_append_one] at h
      by_cases hp : d.path = p
      · rw [if_pos hp] at h
        cases ho : oldest ds p with
        | none =>
            obtain rfl : d = k := by simpa [ho] using h
            exact ⟨by simp, hp⟩
        | some k₀ =>
            have hk : keepOlder d k₀ = k := by simpa [ho] using h
            rcases keepOlder_cases d k₀ with hd | hk₀
            · exact ⟨by simp [← hk, hd], by rw [← hk, hd, hp]⟩
            · obtain ⟨hmem, hpath⟩ := ih ho
              exact ⟨by simp [← hk, hk₀, hmem], by rw [← hk, hk₀, hpath]⟩
      · rw [if_neg hp] at h
        obtain ⟨hmem, hpath⟩ := ih h
        exact ⟨by simp [hmem], hpath⟩

theorem oldest_isSome {ds : List FileStamp} {d : FileStamp} (h : d ∈ ds) :
    ∃ k, oldest ds d.path = some k := by
  induction ds using List.reverseRecOn with
  | nil => simp at h
  | append_singleton ds x ih =>
      rw [oldest_append_one]
      by_cases hp : x.path = d.path
      · rw [if_pos hp]
        exact ⟨_, rfl⟩
      · rw [if_neg hp]
        refine ih ?_
        rcases List.mem_append.mp h with h | h
        · exact h
        · exact absurd (by simp_all) hp

/-! ### The table holds the oldest stamp of each path

Entering a list keeps, for each path, the oldest stamp that was entered so far.
A row reads its stamps back through the table, so it may get one that another TU
reported.
-/

/-- The table after `seen` has been entered. -/
structure DepTable.Holds (t : DepTable) (seen : List FileStamp) : Prop where
  inRange : ∀ p i, t.ids.lookup p = some i → i < t.deps.length
  entry : ∀ p i, t.ids.lookup p = some i → t.deps[i]? = oldest seen p
  absent : ∀ p, t.ids.lookup p = none → oldest seen p = none

theorem DepTable.holds_empty : DepTable.Holds {} [] :=
  ⟨by simp, by simp, by simp [oldest]⟩

/-- A path already in the table keeps its entry number. -/
def DepTable.Extends (t t' : DepTable) : Prop :=
  ∀ p i, t.ids.lookup p = some i → t'.ids.lookup p = some i

theorem DepTable.enter_holds {t : DepTable} {seen : List FileStamp} (h : t.Holds seen)
    (d : FileStamp) :
    (t.enter d).1.Holds (seen ++ [d]) ∧ t.Extends (t.enter d).1 ∧
      (t.enter d).1.ids.lookup d.path = some (t.enter d).2 := by
  unfold DepTable.enter
  cases hd : t.ids.lookup d.path with
  | none =>
      refine ⟨⟨?_, ?_, ?_⟩, ?_, AList.lookup_insert _⟩
      · intro p i hi
        simp only [UMap.lookup_insert_ite] at hi
        simp only [List.length_append, List.length_singleton]
        split at hi
        · have : t.deps.length = i := by simpa using hi
          omega
        · have := h.inRange p i hi
          omega
      · intro p i hi
        simp only [UMap.lookup_insert_ite] at hi
        rw [oldest_append_one]
        split at hi
        · rename_i hp
          subst hp
          obtain rfl : t.deps.length = i := by simpa using hi
          simp [h.absent _ hd]
        · rename_i hp
          rw [if_neg (fun hc => hp hc.symm)]
          simp only [List.getElem?_append_left (h.inRange p i hi)]
          exact h.entry p i hi
      · intro p hp
        simp only [UMap.lookup_insert_ite] at hp
        split at hp
        · simp at hp
        · rename_i hne
          rw [oldest_append_one, if_neg (fun hc => hne hc.symm)]
          exact h.absent p hp
      · intro p i hi
        simp only [UMap.lookup_insert_ite]
        rw [if_neg]
        · exact hi
        · rintro rfl
          rw [hd] at hi
          simp at hi
  | some pos =>
      refine ⟨⟨?_, ?_, ?_⟩, fun p i hi => hi, hd⟩
      · intro p i hi
        simpa using h.inRange p i hi
      · intro p i hi
        have hentry := h.entry p i hi
        simp only [List.getElem?_modify]
        rw [oldest_append_one]
        by_cases hp : d.path = p
        · subst hp
          obtain rfl : pos = i := by simpa [hd] using hi
          rw [if_pos rfl, ← hentry, List.getElem?_eq_getElem (h.inRange _ _ hd)]
          simp
        · -- Another path's entry is another position: the stored stamps carry their paths.
          have hne : pos ≠ i := by
            rintro rfl
            obtain ⟨k, hk⟩ : ∃ k, t.deps[pos]? = some k :=
              ⟨_, List.getElem?_eq_getElem (h.inRange _ _ hd)⟩
            have h1 := (oldest_mem seen ((h.entry _ _ hd).symm.trans hk)).2
            have h2 := (oldest_mem seen (hentry.symm.trans hk)).2
            exact hp (h1.symm.trans h2)
          rw [if_neg hp, ← hentry]
          simp [hne]
      · intro p hp
        have hne : d.path ≠ p := by
          rintro rfl
          rw [hd] at hp
          simp at hp
        rw [oldest_append_one, if_neg hne]
        exact h.absent p hp

theorem DepTable.enterAll_holds :
    ∀ (ds : List FileStamp) {t : DepTable} {seen : List FileStamp}, t.Holds seen →
      (t.enterAll ds).1.Holds (seen ++ ds) ∧ t.Extends (t.enterAll ds).1 ∧
        (t.enterAll ds).2.map some
          = ds.map (fun d => (t.enterAll ds).1.ids.lookup d.path) := by
  intro ds
  induction ds with
  | nil =>
      intro t seen h
      rw [List.append_nil]
      exact ⟨h, fun _ _ hi => hi, rfl⟩
  | cons d ds ih =>
      intro t seen h
      obtain ⟨hholds, hext, hid⟩ := DepTable.enter_holds h d
      obtain ⟨hholds', hext', hids⟩ := ih hholds
      refine ⟨?_, fun p i hi => hext' p i (hext p i hi), ?_⟩
      · simpa [DepTable.enterAll] using hholds'
      · simp only [DepTable.enterAll, List.map_cons, hids]
        rw [hext' _ _ hid]

theorem DepTable.enterTUs_holds (deps : TuDependencies) :
    ∀ (files : List FileStamp) {t : DepTable} {seen : List FileStamp}, t.Holds seen →
      (t.enterTUs deps files).1.Holds (seen ++ files.flatMap (fun f => deps.getD f.path [])) ∧
        t.Extends (t.enterTUs deps files).1 ∧
        (t.enterTUs deps files).2.map (·.map some)
          = files.map (fun f => (deps.getD f.path []).map
              (fun d => (t.enterTUs deps files).1.ids.lookup d.path)) := by
  intro files
  induction files with
  | nil =>
      intro t seen h
      rw [List.flatMap_nil, List.append_nil]
      exact ⟨h, fun _ _ hi => hi, rfl⟩
  | cons f files ih =>
      intro t seen h
      obtain ⟨hholds, hext, hids⟩ := DepTable.enterAll_holds (deps.getD f.path []) h
      obtain ⟨hholds', hext', hrows⟩ := ih hholds
      refine ⟨?_, fun p i hi => hext' p i (hext p i hi), ?_⟩
      · simpa [DepTable.enterTUs] using hholds'
      · simp only [DepTable.enterTUs, List.map_cons, hrows, hids]
        congr 1
        refine List.map_congr_left fun d hd => ?_
        -- The row was filled before the later TUs: its entry numbers are still good.
        have hsome : (t.enterAll (deps.getD f.path [])).1.ids.lookup d.path ≠ none := by
          intro hc
          have hmem : (t.enterAll (deps.getD f.path [])).1.ids.lookup d.path
              ∈ (t.enterAll (deps.getD f.path [])).2.map some := by
            rw [hids]
            exact List.mem_map_of_mem hd
          rw [hc] at hmem
          simp at hmem
        obtain ⟨i, hi⟩ := Option.ne_none_iff_exists'.mp hsome
        rw [hi, hext' _ _ hi]

/-- Every stamp the recorded TUs reported, in the order it is entered. -/
def reportedStamps (files : List FileStamp) (deps : TuDependencies) : List FileStamp :=
  files.flatMap (fun f => deps.getD f.path [])

@[simp] theorem recordDependencies_files (snap : SnapshotMeta) (deps : TuDependencies) :
    (recordDependencies snap deps).files = snap.files := rfl

/-- **A TU's row reads back the oldest stamp of each path the TU reported.** -/
theorem recordDependencies_row (snap : SnapshotMeta) (deps : TuDependencies) {i : Nat}
    {f : FileStamp} (hf : snap.files[i]? = some f) :
    ∃ row, (recordDependencies snap deps).tuDeps[i]? = some row ∧
      row.map ((recordDependencies snap deps).deps[·]?)
        = (deps.getD f.path []).map (fun d => oldest (reportedStamps snap.files deps) d.path) := by
  obtain ⟨hholds, -, hrows⟩ := DepTable.enterTUs_holds deps snap.files DepTable.holds_empty
  set built := DepTable.enterTUs {} deps snap.files with hbuilt
  have hrow := congrArg (·[i]?) hrows
  simp only [List.getElem?_map, hf, Option.map_some] at hrow
  obtain ⟨row, hr, hids⟩ := Option.map_eq_some_iff.mp hrow
  refine ⟨row, hr, ?_⟩
  show row.map (built.1.deps[·]?) = _
  have hentry : row.map (built.1.deps[·]?)
      = (row.map some).map (fun o => o.bind (built.1.deps[·]?)) := by
    rw [List.map_map]
    exact List.map_congr_left fun _ _ => rfl
  rw [hentry, hids, List.map_map]
  refine List.map_congr_left fun d hd => ?_
  cases hl : built.1.ids.lookup d.path with
  | some j => simpa [hl, reportedStamps] using hholds.entry _ _ hl
  | none => simpa [hl, reportedStamps] using (hholds.absent _ hl).symm

/-! ### What makes a TU dirty -/

/-- The file is no longer the one the stamp was taken from. -/
def Stale (fs : FileSystem) (d : FileStamp) : Prop :=
  sameParsedVersion d (stampFile fs d.path) = false

instance (fs : FileSystem) (d : FileStamp) : Decidable (Stale fs d) :=
  inferInstanceAs (Decidable (_ = _))

theorem depChanged_iff (fs : FileSystem) (snap : SnapshotMeta) (id : Nat) :
    (depChanged fs snap).getD id false = true ↔ ∃ d, snap.deps[id]? = some d ∧ Stale fs d := by
  unfold depChanged stampFiles Stale
  rw [List.getD_eq_getElem?_getD, List.map_map, List.getElem?_zipWith, List.getElem?_map]
  cases snap.deps[id]? with
  | none => simp
  | some d => simp

/-- A TU whose own stamp still matches is dirty through its row alone. -/
theorem dirtyFlag_recorded (fs : FileSystem) {snap : SnapshotMeta} {f : FileStamp} {i : Nat}
    (hi : (recordedIndex snap.files).lookup f.path = some i) (hf : snap.files[i]? = some f) :
    (dirtyFlag snap (recordedIndex snap.files) (depChanged fs snap) f).1 = true ↔
      ∃ id ∈ snap.tuDeps.getD i [], ∃ d, snap.deps[id]? = some d ∧ Stale fs d := by
  unfold dirtyFlag
  simp only [hi, hf, ne_eq, not_true_eq_false, if_false]
  rw [show (∃ id ∈ snap.tuDeps.getD i [], ∃ d, snap.deps[id]? = some d ∧ Stale fs d)
      ↔ (snap.tuDeps.getD i []).any (fun id => (depChanged fs snap).getD id false) = true by
    rw [List.any_eq_true]
    exact exists_congr fun id => and_congr_right fun _ => (depChanged_iff fs snap id).symm]
  split <;> simp_all

/-- A TU whose own stamp is not the recorded one is dirty whatever it included. -/
theorem dirtyFlag_changed (fs : FileSystem) (snap : SnapshotMeta) {f : FileStamp}
    (h : ¬ Recorded snap.files f) :
    (dirtyFlag snap (recordedIndex snap.files) (depChanged fs snap) f).1 = true := by
  unfold dirtyFlag
  cases hi : (recordedIndex snap.files).lookup f.path with
  | none => rfl
  | some i =>
      have hne : snap.files[i]? ≠ some f := fun hc => h ⟨i, hi, hc⟩
      simp [hne]

theorem dirtyTUs_getElem? (fs : FileSystem) (snap : SnapshotMeta) (current : List FileStamp)
    (k : Nat) :
    (dirtyTUs fs snap current).1[k]?
      = current[k]?.map
          (fun f => (dirtyFlag snap (recordedIndex snap.files) (depChanged fs snap) f).1) := by
  simp [dirtyTUs, List.getElem?_map, Function.comp_def]

/-- After `recordDependencies`, a TU with an unchanged stamp is dirty exactly when the
oldest stamp of some path it reported is stale. -/
theorem dirtyFlag_after_record (fs : FileSystem) {snap : SnapshotMeta} (deps : TuDependencies)
    {f : FileStamp} (h : Recorded snap.files f) :
    (dirtyFlag (recordDependencies snap deps) (recordedIndex snap.files)
        (depChanged fs (recordDependencies snap deps)) f).1 = true ↔
      ∃ d ∈ deps.getD f.path [], ∃ kept,
        oldest (reportedStamps snap.files deps) d.path = some kept ∧ Stale fs kept := by
  obtain ⟨i, hi, hf⟩ := h
  obtain ⟨row, hrow, hread⟩ := recordDependencies_row snap deps hf
  have hfiles := recordDependencies_files snap deps
  have hdirty := dirtyFlag_recorded fs (hfiles.symm ▸ hi) (hfiles.symm ▸ hf)
  rw [hfiles] at hdirty
  rw [hdirty, List.getD_eq_getElem?_getD, hrow, Option.getD_some]
  constructor
  · rintro ⟨id, hid, kept, hkept, hstale⟩
    have hmem : some kept ∈ row.map ((recordDependencies snap deps).deps[·]?) :=
      List.mem_map.mpr ⟨id, hid, hkept⟩
    rw [hread] at hmem
    obtain ⟨d, hd, hold⟩ := List.mem_map.mp hmem
    exact ⟨d, hd, kept, hold, hstale⟩
  · rintro ⟨d, hd, kept, hold, hstale⟩
    have hmem : some kept ∈ row.map ((recordDependencies snap deps).deps[·]?) := by
      rw [hread]
      exact List.mem_map.mpr ⟨d, hd, hold⟩
    obtain ⟨id, hid, hkept⟩ := List.mem_map.mp hmem
    exact ⟨id, hid, kept, hkept, hstale⟩

/-! ### When no stale TU is missed -/

/-- Every selected TU with an unchanged stamp and a stale dependency stamp of its own is
flagged. -/
def StalenessComplete (fs : FileSystem) (snap : SnapshotMeta) (deps : TuDependencies)
    (current : List FileStamp) : Prop :=
  ∀ (k : Nat) (f : FileStamp), current[k]? = some f → f ∈ snap.files →
    (∃ d ∈ deps.getD f.path [], Stale fs d) →
    (dirtyTUs fs (recordDependencies snap deps) current).1[k]? = some true

/-- Whenever a TU's own stamp of some path is stale, so is the oldest stamp anyone
reported for some path the TU opened. -/
def OldestBetrays (fs : FileSystem) (files : List FileStamp) (deps : TuDependencies)
    (current : List FileStamp) : Prop :=
  ∀ f ∈ current, Recorded files f → (∃ d ∈ deps.getD f.path [], Stale fs d) →
    ∃ d ∈ deps.getD f.path [], ∃ kept,
      oldest (reportedStamps files deps) d.path = some kept ∧ Stale fs kept

/-- **No stale TU is missed exactly when the oldest stamps betray each of them.** -/
theorem dirtyTUs_complete_iff (fs : FileSystem) (snap : SnapshotMeta) (deps : TuDependencies)
    (current : List FileStamp) :
    StalenessComplete fs snap deps current ↔ OldestBetrays fs snap.files deps current := by
  constructor
  · intro h f hf hrec hstale
    obtain ⟨k, hk⟩ := List.getElem?_of_mem hf
    have hmem : f ∈ snap.files := by
      obtain ⟨i, -, hi⟩ := hrec
      exact List.mem_of_getElem? hi
    have hflag := h k f hk hmem hstale
    rw [dirtyTUs_getElem?, hk, Option.map_some, recordDependencies_files] at hflag
    exact (dirtyFlag_after_record fs deps hrec).mp (by simpa using hflag)
  · intro h k f hk _ hstale
    rw [dirtyTUs_getElem?, hk, Option.map_some, recordDependencies_files]
    by_cases hrec : Recorded snap.files f
    · have := (dirtyFlag_after_record fs deps hrec).mpr
        (h f (List.mem_of_getElem? hk) hrec hstale)
      rw [this]
    · have := dirtyFlag_changed fs (recordDependencies snap deps) hrec
      rw [recordDependencies_files] at this
      rw [this]

/-- Two TUs parsed one header in the same second, before and after an edit.  The file is
now as the first one saw it, and the TU that saw the other version is not flagged. -/
theorem dirtyTUs_misses_same_second :
    ¬ StalenessComplete
      (fun p => if p = str "h" then some (7000000500, 10) else some (1, 1))
      { files := [⟨str "a.cpp", 1, 1⟩, ⟨str "b.cpp", 1, 1⟩] }
      ((AList.insert (str "a.cpp") [⟨str "h", 7000000000, 10⟩]
        (AList.insert (str "b.cpp") [⟨str "h", 7000000000, 20⟩] ∅ : TuDependencies)))
      [⟨str "a.cpp", 1, 1⟩, ⟨str "b.cpp", 1, 1⟩] := by
  intro h
  have hflag := h 1 ⟨str "b.cpp", 1, 1⟩ rfl (by decide)
    ⟨⟨str "h", 7000000000, 20⟩, by decide, by decide⟩
  revert hflag
  decide

end Vycor.SnapshotIO
