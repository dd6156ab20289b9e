/-
A worker sets itself up as its parent did.

A worker is told its batch and its parent's merged lists on its command line, and reads the
same configuration files again.  What the files and the registry add is in the lists already,
so merging once more adds nothing, and the batch, whose paths are canonical, is the selection.
The environment's extra arguments are the exception: the parent hands them on with its own,
and the worker has them from the environment too.
-/
import Vycor.Model.BakeConfig
import Vycor.Proofs.SourceSelection

namespace Vycor

open SourceSelection

namespace BakeConfig

/-! ### Merging -/

theorem addNames_again {α : Type} [DecidableEq α] (l names : List α) :
    addNames (addNames l names) names = addNames l names :=
  Dedup.foldl_pushUnique_of_subset fun x hx => by
    rw [addNames, Dedup.mem_foldl_pushUnique]
    exact Or.inr hx

/-! ### Values -/

@[simp] theorem values_nil (name : Str) : values [] name = [] := rfl

@[simp] theorem values_append (l l' : Occurrences) (name : Str) :
    values (l ++ l') name = values l name ++ values l' name := by
  simp [values]

@[simp] theorem values_cons (o : Str × Str) (l : Occurrences) (name : Str) :
    values (o :: l) name = if o.1 = name then o.2 :: values l name else values l name := by
  unfold values
  split_ifs with h
  · rw [List.filter_cons_of_pos (by simpa using h)]
    rfl
  · rw [List.filter_cons_of_neg (by simpa using h)]

theorem values_map (vals : List Str) (option name : Str) :
    values (vals.map (option, ·)) name = if option = name then vals else [] := by
  induction vals with
  | nil => simp
  | cons v rest ih =>
      rw [List.map_cons, values_cons, ih]
      split_ifs <;> rfl

/-- An option that is handed on unless its value is empty. -/
def optional (option val : Str) : Occurrences := if val = [] then [] else [(option, val)]

theorem values_optional (option val name : Str) :
    values (optional option val) name
      = if option = name ∧ val ≠ [] then [val] else [] := by
  unfold optional
  by_cases hval : val = [] <;> by_cases hname : option = name <;> simp [hval, hname]

/-! ### Reading a worker's arguments

A worker is told everything in two spellings of an option: the name and the value as two
arguments, or as one with `=` between them.  That LLVM's reader understands these two, whatever
a value looks like, is all that is used of it.
-/

/-- An option with a value it takes; `--threads` takes a number. -/
structure Takes (name val : Str) : Prop where
  known : name ∈ listOptions ∨ name ∈ singleOptions
  number : name = str "threads" → ∃ n : Nat, n < 2 ^ 32 ∧ val = decimalInt n

/-- Arguments that spell options with their values. -/
inductive Spells : List Str → Occurrences → Prop
  | nil : Spells [] []
  | flag {argv occs} (rest : Spells argv occs) :
      Spells (str "--bake-worker" :: argv) ((str "bake-worker", []) :: occs)
  | apart {name val argv occs} (takes : Takes name val) (rest : Spells argv occs) :
      Spells ((str "--" ++ name) :: val :: argv) ((name, val) :: occs)
  | joined {name val argv occs} (takes : Takes name val) (rest : Spells argv occs) :
      Spells ((str "--" ++ name ++ str "=" ++ val) :: argv) ((name, val) :: occs)

/-- No flag and no option with one value is given twice. -/
def AtMostOnce (occs : Occurrences) : Prop :=
  ∀ name ∈ str "bake-worker" :: singleOptions, (values occs name).length ≤ 1

/-- An argument that is not replaced by the contents of a response file. -/
def Unexpanded (w : BakeWorld) (arg : Str) : Prop :=
  ∀ name, arg = 64 :: name → w.isResponseFile name = false

/-- What a bake relies on of LLVM's command-line reader. -/
structure ReadsCommandLine (w : BakeWorld) : Prop where
  /-- Options that are spelled out are read in order. -/
  spelled : ∀ {argv occs}, Spells argv occs → AtMostOnce occs →
    (∀ arg ∈ argv, Unexpanded w arg) → w.parseCommandLineOptions argv = some occs

theorem Takes.of_list {name : Str} (h : name ∈ listOptions) (val : Str) : Takes name val :=
  ⟨Or.inl h, by rintro rfl; exact absurd h (by decide)⟩

theorem Takes.of_single {name : Str} (h : name ∈ singleOptions) (hname : name ≠ str "threads")
    (val : Str) : Takes name val :=
  ⟨Or.inr h, fun h' => absurd h' hname⟩

theorem Spells.append {argv argv' : List Str} {occs occs' : Occurrences} (h : Spells argv occs)
    (h' : Spells argv' occs') : Spells (argv ++ argv') (occs ++ occs') := by
  induction h with
  | nil => exact h'
  | flag _ ih => exact .flag ih
  | apart takes _ ih => exact .apart takes ih
  | joined takes _ ih => exact .joined takes ih

theorem spells_repeated {name : Str} (hlist : name ∈ listOptions) (vals : List Str) :
    Spells (repeated (str "--" ++ name) vals) (vals.map (name, ·)) := by
  induction vals with
  | nil => exact .nil
  | cons v vals ih => exact .apart (.of_list hlist v) ih

theorem spells_extraArgs (vals : List Str) :
    Spells (vals.map (str "--extra-arg=" ++ ·)) (vals.map (str "extra-arg", ·)) := by
  induction vals with
  | nil => exact .nil
  | cons a vals ih =>
      have hlist : str "extra-arg" ∈ listOptions := by decide
      exact .joined (.of_list hlist a) ih

theorem spells_unlessEmpty {name : Str} (hsingle : name ∈ singleOptions)
    (hname : name ≠ str "threads") (val : Str) :
    Spells (unlessEmpty (str "--" ++ name) val) (optional name val) := by
  unfold unlessEmpty optional
  split_ifs
  · exact .nil
  · exact .apart (.of_single hsingle hname val) .nil

/-- What a worker reads of its arguments. -/
def workerOptions (cfg : McpBakeConfig) (batch : List Str) (shardPath : Str) : Occurrences :=
  [(str "bake-worker", []), (str "worker-out", shardPath), (str "build-path", cfg.buildPath),
    (str "threads", str "1")]
    ++ cfg.collapsePaths.map (str "collapse-paths", ·)
    ++ cfg.extraArgs.map (str "extra-arg", ·)
    ++ optional (str "sysroot") cfg.sysroot
    ++ cfg.lockTypes.map (str "lock-types", ·)
    ++ optional (str "channel-types-json") cfg.channelTypesJson
    ++ optional (str "org-config") cfg.orgConfig
    ++ batch.map (str "source", ·)

/-- **A parent spells what a worker is to read.** -/
theorem spells_workerArgv (cfg : McpBakeConfig) (batch : List Str) (shardPath : Str) :
    Spells (workerArgv cfg batch shardPath) (workerOptions cfg batch shardPath) := by
  have hthreads : Takes (str "threads") (str "1") :=
    ⟨Or.inr (by decide), fun _ => ⟨1, by decide, by decide⟩⟩
  have hstart : Spells [str "--bake-worker", str "--worker-out", shardPath, str "--build-path",
      cfg.buildPath, str "--threads", str "1"]
      [(str "bake-worker", []), (str "worker-out", shardPath), (str "build-path", cfg.buildPath),
        (str "threads", str "1")] :=
    .flag (.apart (.of_single (by decide) (by decide) shardPath)
      (.apart (.of_single (by decide) (by decide) cfg.buildPath) (.apart hthreads .nil)))
  unfold workerArgv workerOptions
  refine ((((((hstart.append ?_).append (spells_extraArgs cfg.extraArgs)).append ?_).append
    ?_).append ?_).append ?_).append ?_
  · exact spells_repeated (by decide) cfg.collapsePaths
  · exact spells_unlessEmpty (by decide) (by decide) cfg.sysroot
  · exact spells_repeated (by decide) cfg.lockTypes
  · exact spells_unlessEmpty (by decide) (by decide) cfg.channelTypesJson
  · exact spells_unlessEmpty (by decide) (by decide) cfg.orgConfig
  · exact spells_repeated (by decide) batch

theorem atMostOnce_workerOptions (cfg : McpBakeConfig) (batch : List Str) (shardPath : Str) :
    AtMostOnce (workerOptions cfg batch shardPath) := by
  have hone : ∀ val : Str, (if val = [] then [] else [val]).length ≤ 1 := by
    intro val
    split_ifs
    · exact Nat.zero_le 1
    · exact Nat.le_refl 1
  unfold AtMostOnce singleOptions
  simp +decide [workerOptions, values_map, values_optional, hone]

section Options

variable (cfg : McpBakeConfig) (batch : List Str) (shardPath : Str)

theorem values_lists :
    values (workerOptions cfg batch shardPath) (str "source") = batch ∧
    values (workerOptions cfg batch shardPath) (str "skip-paths") = [] ∧
    values (workerOptions cfg batch shardPath) (str "collapse-paths") = cfg.collapsePaths ∧
    values (workerOptions cfg batch shardPath) (str "lock-types") = cfg.lockTypes ∧
    values (workerOptions cfg batch shardPath) (str "extra-arg") = cfg.extraArgs := by
  refine ⟨?_, ?_, ?_, ?_, ?_⟩ <;>
    simp +decide [workerOptions, values_map, values_optional]

theorem value_singles :
    value (workerOptions cfg batch shardPath) (str "source-list") = [] ∧
    value (workerOptions cfg batch shardPath) (str "source-re") = [] ∧
    value (workerOptions cfg batch shardPath) (str "build-path") = cfg.buildPath ∧
    value (workerOptions cfg batch shardPath) (str "worker-out") = shardPath ∧
    value (workerOptions cfg batch shardPath) (str "sysroot") = cfg.sysroot ∧
    value (workerOptions cfg batch shardPath) (str "channel-types-json")
      = cfg.channelTypesJson ∧
    value (workerOptions cfg batch shardPath) (str "org-config") = cfg.orgConfig := by
  have hval : ∀ val : Str, (if val = [] then [] else [val]).head?.getD [] = val := by
    intro val
    split_ifs with h
    · exact h.symm
    · rfl
  refine ⟨?_, ?_, ?_, ?_, ?_, ?_, ?_⟩ <;>
    simp +decide [value, workerOptions, values_map, values_optional, hval]

theorem selectionOf_workerOptions (recorded : List Str) :
    selectionOf (workerOptions cfg batch shardPath) recorded = { explicitFiles := batch } := by
  obtain ⟨hsource, hskip, -⟩ := values_lists cfg batch shardPath
  obtain ⟨hlist, hre, -⟩ := value_singles cfg batch shardPath
  unfold selectionOf
  rw [hsource, hskip, hlist, hre]
  rfl

end Options

/-! ### What arrives -/

/-- An argument that reaches another process as it is. -/
structure Arrives (w : BakeWorld) (arg : Str) : Prop where
  noZero : 0 ∉ arg
  unexpanded : Unexpanded w arg

theorem received_eq {argv : List Str} (h : ∀ arg ∈ argv, 0 ∉ arg) : received argv = argv := by
  have hwhole : ∀ arg ∈ argv, arg.takeWhile (· ≠ 0) = id arg := by
    intro arg harg
    refine List.takeWhile_eq_self_iff.mpr fun b hb => ?_
    have hb0 : b ≠ 0 := fun h0 => h arg harg (h0 ▸ hb)
    simpa using hb0
  rw [received, List.map_congr_left hwhole, List.map_id]

/-! ### The setup

What the parent merged stands in the worker's lists already, so the worker's own
merge of the same configuration adds nothing to them.
-/

variable {w : BakeWorld} {registry : HookRegistry} {args : Occurrences} {recorded : List Str}

/-- What a setup is put together from. -/
structure Parts (w : BakeWorld) (registry : HookRegistry) (args : Occurrences)
    (recorded : List Str) where
  selected : Candidates
  stats : SourceSelectionStats
  channelCfg : ChannelTypeConfig
  orgCfg : OrgConfig
  merged : HookRegistry
  selects : selectSources w.selection (selectionOf args recorded) = .ok (selected, stats)
  nonempty : selected.files ≠ []
  channels : channelTypesIfSet w (value args (str "channel-types-json")) = .ok channelCfg
  org : loadOrgConfigIfSet w registry (value args (str "org-config")) = .ok (orgCfg, merged)

/-- What the parts make of the bake. -/
def Parts.setup (p : Parts w registry args recorded) : BakeSetup :=
  { files := p.selected.files
    lockCfg :=
      { userAllowlist := addNames (values args (str "lock-types")) p.merged.lockTypes }
    channelCfg :=
      { registeredTypes := addNames p.channelCfg.registeredTypes p.merged.channelTypes }
    collapsePaths := addNames (values args (str "collapse-paths")) p.orgCfg.collapsePaths
    registry := p.merged }

theorem bakeSetup_parts (p : Parts w registry args recorded) :
    bakeSetup w registry args recorded = .ok p.setup := by
  unfold bakeSetup
  rw [p.selects]
  dsimp only [Except.mapError, bind, Except.bind]
  rw [if_neg p.nonempty]
  dsimp only [pure, Except.pure]
  rw [p.channels]
  dsimp only
  rw [p.org]
  rfl

theorem parts_of_bakeSetup {setup : BakeSetup}
    (h : bakeSetup w registry args recorded = .ok setup) :
    ∃ p : Parts w registry args recorded, setup = p.setup := by
  unfold bakeSetup at h
  cases hsel : selectSources w.selection (selectionOf args recorded) with
  | error e =>
      rw [hsel] at h
      cases h
  | ok found =>
      obtain ⟨selected, stats⟩ := found
      rw [hsel] at h
      dsimp only [Except.mapError, bind, Except.bind] at h
      split_ifs at h with hne
      dsimp only [pure, Except.pure] at h
      cases hch : channelTypesIfSet w (value args (str "channel-types-json")) with
      | error e =>
          rw [hch] at h
          cases h
      | ok channelCfg =>
          cases horg : loadOrgConfigIfSet w registry (value args (str "org-config")) with
          | error e =>
              rw [hch] at h
              dsimp only at h
              rw [horg] at h
              cases h
          | ok loaded =>
              obtain ⟨orgCfg, merged⟩ := loaded
              rw [hch] at h
              dsimp only at h
              rw [horg] at h
              exact ⟨⟨selected, stats, channelCfg, orgCfg, merged, hsel, hne, hch, horg⟩,
                (Except.ok.inj h).symm⟩

/-- What standard input holds is nothing to the configuration. -/
theorem loadOrgConfigIfSet_stdin (w : BakeWorld) (stdin : Str) (registry : HookRegistry)
    (path : Str) :
    loadOrgConfigIfSet { w with selection := { w.selection with stdin } } registry path
      = loadOrgConfigIfSet w registry path := by
  have hflags : ∀ registry flags,
      addFeatureFlags { w with selection := { w.selection with stdin } } registry flags
        = addFeatureFlags w registry flags := by
    intro registry flags
    induction flags generalizing registry with
    | nil => rfl
    | cons flag rest ih =>
        unfold addFeatureFlags
        rw [ih]
  unfold loadOrgConfigIfSet applyOrgConfig
  simp only [hflags]
  rfl

/-- **A worker bakes its batch the way its parent would**: its arguments, read after they went
through the process boundary, set it up with the parent's locks, channels, collapsed paths and
registry, for the batch and nothing else.  Of the extra arguments it has the environment's
twice. -/
theorem worker_setup (hreads : ReadsCommandLine w) {setup : BakeSetup}
    (hparent : bakeSetup w registry args recorded = .ok setup)
    {batch : List Str} (hne : batch ≠ []) (hnodup : batch.Nodup)
    (hsub : ∀ f ∈ batch, f ∈ setup.files) (shardPath : Str)
    (hidem : ∀ p, canonical w.selection (canonical w.selection p) = canonical w.selection p)
    (harrive : ∀ arg ∈ workerArgv (workerConfig w args setup) batch shardPath, Arrives w arg)
    (stdin : Str) (recorded' : List Str) :
    let worker : BakeWorld := { w with selection := { w.selection with stdin } }
    ∃ wargs,
      worker.parseCommandLineOptions
        (received (workerArgv (workerConfig w args setup) batch shardPath)) = some wargs ∧
      bakeSetup worker registry wargs recorded' = .ok { setup with files := batch } ∧
      value wargs (str "build-path") = value args (str "build-path") ∧
      value wargs (str "sysroot") = value args (str "sysroot") ∧
      value wargs (str "worker-out") = shardPath ∧
      globalExtraArgs worker wargs = envExtraArgs w.extraArgsEnv ++ globalExtraArgs w args := by
  intro worker
  obtain ⟨p, rfl⟩ := parts_of_bakeSetup hparent
  refine ⟨workerOptions (workerConfig w args p.setup) batch shardPath, ?_, ?_⟩
  · rw [received_eq fun arg harg => (harrive arg harg).noZero]
    exact hreads.spelled (spells_workerArgv _ batch shardPath)
      (atMostOnce_workerOptions _ batch shardPath) fun arg harg => (harrive arg harg).unexpanded
  obtain ⟨-, -, hcollapse, hlocks, hextra⟩ :=
    values_lists (workerConfig w args p.setup) batch shardPath
  obtain ⟨-, -, hbuild, hout, hsysroot, hchannels, horg⟩ :=
    value_singles (workerConfig w args p.setup) batch shardPath
  have hspelled : ∀ f ∈ batch, canonical worker.selection f = f := by
    intro f hf
    obtain ⟨q, rfl⟩ := spelled_selected p.selects f (hsub f hf)
    exact hidem q
  obtain ⟨out, stats, hsel, hfiles⟩ := selection_explicit hne hnodup hspelled
  let wp : Parts worker registry (workerOptions (workerConfig w args p.setup) batch shardPath)
      recorded' :=
    { selected := out
      stats := stats
      channelCfg := p.channelCfg
      orgCfg := p.orgCfg
      merged := p.merged
      selects := by rw [selectionOf_workerOptions]; exact hsel
      nonempty := hfiles ▸ hne
      channels := by rw [hchannels]; exact p.channels
      org := by rw [horg]; exact (loadOrgConfigIfSet_stdin w stdin _ _).trans p.org }
  have hsetup : wp.setup = { p.setup with files := batch } := by
    have hlockNames : addNames (values (workerOptions (workerConfig w args p.setup) batch shardPath)
        (str "lock-types")) p.merged.lockTypes = p.setup.lockCfg.userAllowlist := by
      rw [hlocks]
      exact addNames_again _ _
    have hpaths : addNames (values (workerOptions (workerConfig w args p.setup) batch shardPath)
        (str "collapse-paths")) p.orgCfg.collapsePaths = p.setup.collapsePaths := by
      rw [hcollapse]
      exact addNames_again _ _
    unfold Parts.setup at hlockNames hpaths ⊢
    rw [hlockNames, hpaths, hfiles]
  refine ⟨(bakeSetup_parts wp).trans (congrArg Except.ok hsetup), hbuild, hsysroot, hout, ?_⟩
  unfold globalExtraArgs
  rw [hextra]
  rfl

/-- A reader of spelled options. -/
def readOptions : List Str → Option Occurrences
  | [] => some []
  | arg :: rest =>
    if arg = str "--bake-worker" then (readOptions rest).map ((str "bake-worker", []) :: ·)
    else if 61 ∈ arg then (readOptions rest).map (splitEq (arg.drop 2) :: ·)
    else
      match rest with
      | [] => none
      | val :: rest => (readOptions rest).map ((arg.drop 2, val) :: ·)

theorem Takes.noEq {name val : Str} (h : Takes name val) : 61 ∉ name :=
  (by decide : ∀ name ∈ listOptions ++ singleOptions, 61 ∉ name) name (List.mem_append.mpr h.known)

theorem Takes.noFlag {name val : Str} (h : Takes name val) :
    str "--" ++ name ≠ str "--bake-worker" :=
  (by decide : ∀ name ∈ listOptions ++ singleOptions, str "--" ++ name ≠ str "--bake-worker")
    name (List.mem_append.mpr h.known)

theorem readOptions_spelled {argv : List Str} {occs : Occurrences} (h : Spells argv occs) :
    readOptions argv = some occs := by
  induction h with
  | nil => rfl
  | flag _ ih =>
      rw [readOptions.eq_def]
      dsimp only
      rw [if_pos rfl, ih]
      rfl
  | @apart name val _ _ takes _ ih =>
      have hno : 61 ∉ str "--" ++ name := by
        simpa using ⟨by decide, takes.noEq⟩
      rw [readOptions.eq_def]
      dsimp only
      rw [if_neg takes.noFlag, if_neg hno, ih]
      rfl
  | @joined name val _ _ takes _ ih =>
      have heq : 61 ∈ str "--" ++ name ++ str "=" ++ val :=
        List.mem_append_left _ (List.mem_append_right _ (by decide))
      have hflag : str "--" ++ name ++ str "=" ++ val ≠ str "--bake-worker" := by
        intro h
        rw [h] at heq
        exact absurd heq (by decide)
      have hsplit : splitEq (name ++ (61 :: val)) = (name, val) := by
        unfold splitEq
        have hname : ∀ b ∈ name, (decide (b ≠ 61)) = true := fun b hb => by
          simpa using fun h : b = 61 => takes.noEq (h ▸ hb)
        rw [List.takeWhile_append_of_pos hname, List.dropWhile_append_of_pos hname]
        simp
      rw [readOptions.eq_def]
      dsimp only
      rw [if_neg hflag, if_pos heq, ih]
      show some (splitEq (name ++ str "=" ++ val) :: _) = _
      rw [List.append_assoc]
      exact congrArg (fun o => some (o :: _)) hsplit

/-- Two files, and an organization that has a lock and a collapsed path. -/
def oneOrg : BakeWorld where
  selection := { twoFiles with
    getFile := fun _ => .ok (str ("\x7b\"lockTypes\": [\"cli::Lock\", \"org::Lock\"], "
      ++ "\"collapsePaths\": [\"third_party\"]\x7d")) }
  parseJson _ := .ok (.object [(str "lockTypes", .array [.string (str "cli::Lock"),
    .string (str "org::Lock")]), (str "collapsePaths", .array [.string (str "third_party")])])
  isValidRegex _ := true
  parseCommandLineOptions := readOptions
  isResponseFile _ := false
  extraArgsEnv := str "-DENV"

/-- The options of a run with an organization's configuration. -/
def orgArgs : Occurrences :=
  [(str "build-path", str "/w/build"), (str "source", str "a.cpp"), (str "source", str "b.cpp"),
    (str "lock-types", str "cli::Lock"), (str "org-config", str "org.json"),
    (str "extra-arg", str "-DCLI")]

/-- What they come to. -/
def orgSetup : BakeSetup where
  files := [str "/w/a.cpp", str "/w/b.cpp"]
  lockCfg := { userAllowlist := [str "cli::Lock", str "org::Lock"] }
  channelCfg := {}
  collapsePaths := [str "third_party"]
  registry := { lockTypes := [str "cli::Lock", str "org::Lock"] }

theorem worker_setup_org :
    ∃ wargs,
      oneOrg.parseCommandLineOptions
        (received (workerArgv (workerConfig oneOrg orgArgs orgSetup) [str "/w/b.cpp"]
          (str "/tmp/shard-1.snap"))) = some wargs ∧
      bakeSetup oneOrg {} wargs [] = .ok { orgSetup with files := [str "/w/b.cpp"] } ∧
      globalExtraArgs oneOrg wargs = [str "-DENV", str "-DENV", str "-DCLI"] := by
  have hparent : bakeSetup oneOrg {} orgArgs [] = .ok orgSetup := by rfl
  have hidem : ∀ p, canonical oneOrg.selection (canonical oneOrg.selection p)
      = canonical oneOrg.selection p := canonical_twoFiles
  have hzero : ∀ arg ∈ workerArgv (workerConfig oneOrg orgArgs orgSetup) [str "/w/b.cpp"]
      (str "/tmp/shard-1.snap"), 0 ∉ arg := by decide
  obtain ⟨wargs, hread, hsetup, -, -, -, hextra⟩ :=
    worker_setup ⟨fun hspells _ _ => readOptions_spelled hspells⟩ hparent (List.cons_ne_nil _ _)
      (List.nodup_singleton _)
      (fun f hf => List.mem_of_mem_tail hf) (str "/tmp/shard-1.snap") hidem
      (fun arg harg => ⟨hzero arg harg, fun _ _ => rfl⟩) oneOrg.selection.stdin []
  exact ⟨wargs, hread, hsetup, hextra⟩

end BakeConfig

end Vycor
