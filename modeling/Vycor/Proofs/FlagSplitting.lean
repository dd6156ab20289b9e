/-
Flags of a tool among the flags of the verb.

Each member of the arguments of a tool is spelled `--name=value`, an array by one flag for each
element, and the flags of the verb may stand anywhere between (`CliFlag`).  Splitting hands the
former on in order and stores the latter (`splitFlags_run`), whatever the values look like: what
comes before the first `=` decides.

That the two kinds are told apart is a fact about the schemas of the registered tools, checked for
all of them (`names_apart`): no property has the name of a flag of the verb.
-/
import Vycor.Model.MegascopeCli

namespace Vycor

/-! ### Spelling

A flag is known by its name up to hyphens, and its value stands behind the
equals sign.
-/

/-- `--spelling=value`. -/
structure Flag where
  spelling : Str
  value : Str

namespace Flag

/-- The argument as it is typed, `--key=value`. -/
def arg (f : Flag) : Str := str "--" ++ (f.spelling ++ 61 :: f.value)

/-- The name it spells, with hyphens or underscores. -/
def key (f : Flag) : Str := canonicalToolName f.spelling

end Flag

/-- A flag for a member of the arguments, or a flag of the verb. -/
inductive CliFlag
  | member (f : Flag)
  | common (f : Flag)

namespace CliFlag

/-- The argument as it is typed, whoever takes it. -/
def arg : CliFlag → Str
  | member f => f.arg
  | common f => f.arg

/-- The flag of the tool's arguments, if it is one. -/
def member? : CliFlag → Option Flag
  | member f => some f
  | common _ => none

/-- The flag of the verb itself, if it is one. -/
def common? : CliFlag → Option Flag
  | member _ => none
  | common f => some f

end CliFlag

/-- The flags of the verb, with hyphens. -/
def commonKeys : List Str :=
  [str "index", str "build-path", str "args", str "format", str "source-list", str "source-re",
    str "threads", str "org-config", str "entry-point", str "source", str "skip-paths",
    str "collapse-paths"]

/-- The texts that spell a value, one for each flag. -/
def spellings : Json → List Str
  | .bool b => [if b then str "true" else str "false"]
  | .number n => [decimalInt n.num]
  | .string s => [s]
  | .array elems => elems.filterMap Json.asString
  | _ => []

/-- For each name, the flags spell its member in order, and there are none without one. -/
def Spells (flags : List Flag) (obj : JsonObject) : Prop :=
  ∀ name, (flags.filter (·.key = name)).map (·.value) = ((obj.get name).map spellings).getD []

/-- A value of the declared type.  A JSON string is UTF-8. -/
inductive OfType (spec : FlagSpec) : Json → Prop
  | string {s : Str} : spec.type = str "string" → isUTF8 s = true → OfType spec (.string s)
  | integer {n : Int} : spec.type = str "integer" → -2 ^ 63 ≤ n → n < 2 ^ 63 →
      OfType spec (Json.ofInt n)
  | boolean {b : Bool} : spec.type = str "boolean" → OfType spec (.bool b)
  | array {elems : List Str} : spec.type = str "array" → spec.itemType = str "string" →
      elems ≠ [] → (∀ s ∈ elems, isUTF8 s = true) → OfType spec (Json.strings elems)

/-- The arguments that the schema of the tool asks for. -/
structure Arguments (tool : ToolEntry) (obj : JsonObject) : Prop where
  typed : ∀ name value, obj.get name = some value →
    ∃ spec ∈ schemaFlags tool, spec.name = name ∧ OfType spec value
  required : ∀ spec ∈ schemaFlags tool, spec.required = true → (obj.get spec.name).isSome = true

/-! ### Names -/

theorem eq_mem_canonical (s : Str) : 61 ∈ canonicalToolName s ↔ 61 ∈ s := by
  unfold canonicalToolName
  refine ⟨fun h => ?_, fun h => List.mem_map.mpr ⟨61, h, rfl⟩⟩
  obtain ⟨ch, hch, heq⟩ := List.mem_map.mp h
  split at heq
  · exact absurd heq (by decide)
  · exact heq ▸ hch

theorem hyphenated_canonical (s : Str) : hyphenated (canonicalToolName s) = hyphenated s := by
  unfold hyphenated canonicalToolName
  rw [List.map_map]
  refine List.map_congr_left fun ch _ => ?_
  rw [Function.comp_apply]
  by_cases hhyphen : ch = 45
  · rw [if_pos hhyphen, if_pos rfl, hhyphen, if_neg (by decide)]
  · rw [if_neg hhyphen]

theorem eq_not_mem_of_common {s : Str} (h : hyphenated s ∈ commonKeys) : 61 ∉ s := by
  have hkeys : commonKeys.all (fun key => decide (61 ∉ key)) = true := by decide
  intro hmem
  have hkey : 61 ∈ hyphenated s := List.mem_map.mpr ⟨61, hmem, rfl⟩
  exact of_decide_eq_true (List.all_eq_true.mp hkeys _ h) hkey

/-- The names of the registered tools' properties. -/
theorem names_apart : toolSchemas.all (fun row =>
    decide ((propertyFlags row.2).map (·.name)).Nodup &&
      (propertyFlags row.2).all fun spec =>
        decide (61 ∉ spec.name) && (commonTarget (hyphenated spec.name)).isNone) = true := by
  decide +kernel

section Names

variable {tool : ToolEntry} (htool : tool ∈ getRegisteredTools)

include htool

omit htool in
theorem mem_schemaFlags {spec : FlagSpec} :
    spec ∈ schemaFlags tool ↔ spec ∈ propertyFlags tool.inputSchema :=
  (List.mergeSort_perm (propertyFlags tool.inputSchema) _).mem_iff

theorem nodup_schemaFlags : ((schemaFlags tool).map (·.name)).Nodup := by
  have hrow := List.all_eq_true.mp names_apart _ (mem_toolSchemas htool)
  simp only [Bool.and_eq_true, decide_eq_true_eq] at hrow
  exact ((List.mergeSort_perm (propertyFlags tool.inputSchema) _).map _).nodup_iff.mpr hrow.1

theorem name_apart {spec : FlagSpec} (hspec : spec ∈ schemaFlags tool) :
    61 ∉ spec.name ∧ commonTarget (hyphenated spec.name) = none := by
  have hrow := List.all_eq_true.mp names_apart _ (mem_toolSchemas htool)
  simp only [Bool.and_eq_true, decide_eq_true_eq] at hrow
  simpa using List.all_eq_true.mp hrow.2 spec (mem_schemaFlags.mp hspec)

end Names

/-! ### One argument -/

theorem splitEq_append {s : Str} (h : 61 ∉ s) (value : Str) :
    splitEq (s ++ 61 :: value) = (s, value) := by
  have hall : ∀ ch ∈ s, decide (ch ≠ 61) = true := by
    intro ch hch
    exact decide_eq_true fun heq => h (heq ▸ hch)
  unfold splitEq
  rw [List.takeWhile_append_of_pos hall, List.dropWhile_append_of_pos hall]
  simp

/-- The flags of the verb without a value. -/
def bareFlags : List Str :=
  [str "-h", str "--help", str "-v", str "--verbose", str "--pretty", str "--files"]

namespace Flag

variable (f : Flag)

theorem startsWith_arg : startsWith f.arg (str "--") = true :=
  List.isPrefixOf_iff_prefix.mpr (List.prefix_append _ _)

theorem drop_arg : f.arg.drop 2 = f.spelling ++ 61 :: f.value := List.drop_left' (by decide)

theorem arg_ne_bare {s : Str} (hs : s ∈ bareFlags) : f.arg ≠ s := by
  have hall : bareFlags.all (fun s => decide (61 ∉ s)) = true := by decide
  have heq : 61 ∉ s := of_decide_eq_true (List.all_eq_true.mp hall s hs)
  rintro rfl
  exact heq (by simp [arg])

end Flag

/-! ### Splitting -/

/-- The options with these arguments left to the tool. -/
def CommonOpts.withRest (o : CommonOpts) (r : List Str) : CommonOpts := { o with rest := r }

@[simp] theorem CommonOpts.rest_withRest (o : CommonOpts) (r : List Str) : (o.withRest r).rest = r :=
  rfl

@[simp] theorem CommonOpts.withRest_withRest (o : CommonOpts) (r r' : List Str) :
    (o.withRest r).withRest r' = o.withRest r' := rfl

/-- What a flag of the verb stores. -/
def applyCommon (o : CommonOpts) (f : Flag) : CommonOpts :=
  ((commonTarget (hyphenated f.spelling)).getD fun o _ => o) o f.value

theorem splitFlag_arg {f : Flag} (h : 61 ∉ f.spelling) (acceptFiles : Bool) (rest : List Str)
    (o : CommonOpts) :
    splitFlag acceptFiles f.arg rest o
      = match commonTarget (hyphenated f.spelling) with
        | none => .ok (o.withRest (o.rest ++ [f.arg]), 0)
        | some store => .ok (store o f.value, 0) := by
  have hmem : 61 ∈ f.spelling ++ 61 :: f.value := by simp
  have hbare : ∀ s ∈ bareFlags, f.arg ≠ s := fun s hs => f.arg_ne_bare hs
  simp only [bareFlags, List.mem_cons, List.not_mem_nil, or_false, forall_eq_or_imp,
    forall_eq] at hbare
  unfold splitFlag
  simp only [hbare, or_self, if_false, and_false, f.startsWith_arg, if_true, f.drop_arg,
    splitEq_append h, hmem, and_self]
  cases commonTarget (hyphenated f.spelling) with
  | none => rfl
  | some store => rfl

theorem commonTargets_rest : ∀ row ∈ commonTargets, ∀ (o : CommonOpts) (value : Str) (r : List Str),
    row.2 (o.withRest r) value = (row.2 o value).withRest r := by
  simp [commonTargets, CommonOpts.withRest]

/-- Storing a value leaves what goes to the tool. -/
theorem applyCommon_rest (o : CommonOpts) (f : Flag) (r : List Str) :
    applyCommon (o.withRest r) f = (applyCommon o f).withRest r := by
  unfold applyCommon commonTarget
  cases hfind : commonTargets.find? (·.1 = hyphenated f.spelling) with
  | none => rfl
  | some row => exact commonTargets_rest row (List.mem_of_find?_eq_some hfind) o f.value r

theorem rest_applyCommon (o : CommonOpts) (f : Flag) : (applyCommon o f).rest = o.rest := by
  have h : applyCommon o f = (applyCommon o f).withRest o.rest := applyCommon_rest o f o.rest
  rw [h, CommonOpts.rest_withRest]

theorem foldl_applyCommon_rest (fs : List Flag) (o : CommonOpts) (r : List Str) :
    fs.foldl applyCommon (o.withRest r) = (fs.foldl applyCommon o).withRest r := by
  induction fs generalizing o with
  | nil => rfl
  | cons f fs ih => rw [List.foldl_cons, applyCommon_rest, ih, List.foldl_cons]

theorem commonTarget_isSome {key : Str} (h : key ∈ commonKeys) :
    (commonTarget key).isSome = true := by
  have hall : commonKeys.all (fun key => (commonTarget key).isSome) = true := by decide
  exact List.all_eq_true.mp hall key h

/-- The flags of the tool come through in order, the others are stored. -/
theorem splitFlags_run {flags : List CliFlag} (acceptFiles : Bool) (o : CommonOpts)
    (hmember : ∀ f, .member f ∈ flags →
      61 ∉ f.spelling ∧ commonTarget (hyphenated f.spelling) = none)
    (hcommon : ∀ f, .common f ∈ flags → hyphenated f.spelling ∈ commonKeys) :
    splitFlags acceptFiles 0 (flags.map CliFlag.arg) o
      = .ok (((flags.filterMap CliFlag.common?).foldl applyCommon o).withRest
          (o.rest ++ (flags.filterMap CliFlag.member?).map Flag.arg)) := by
  induction flags generalizing o with
  | nil => simp [splitFlags, CommonOpts.withRest]
  | cons flag flags ih =>
      have ih' := fun o => ih o (fun f hf => hmember f (List.mem_cons_of_mem _ hf))
        fun f hf => hcommon f (List.mem_cons_of_mem _ hf)
      cases flag with
      | member f =>
          obtain ⟨heq, htarget⟩ := hmember f List.mem_cons_self
          have hstep := splitFlag_arg heq acceptFiles (flags.map CliFlag.arg) o
          rw [htarget] at hstep
          rw [List.map_cons, CliFlag.arg, splitFlags, hstep]
          refine (ih' _).trans ?_
          have hmem : CliFlag.member? (.member f) = some f := rfl
          have hcom : CliFlag.common? (.member f) = none := rfl
          rw [foldl_applyCommon_rest, List.filterMap_cons_none hcom, List.filterMap_cons_some hmem]
          simp
      | common f =>
          have hkey := hcommon f List.mem_cons_self
          have hstep := splitFlag_arg (eq_not_mem_of_common hkey) acceptFiles
            (flags.map CliFlag.arg) o
          obtain ⟨store, hstore⟩ := Option.isSome_iff_exists.mp (commonTarget_isSome hkey)
          have happly : applyCommon o f = store o f.value := by rw [applyCommon, hstore]; rfl
          rw [hstore] at hstep
          rw [List.map_cons, CliFlag.arg, splitFlags, hstep]
          refine (ih' _).trans ?_
          have hmem : CliFlag.member? (.common f) = none := rfl
          have hcom : CliFlag.common? (.common f) = some f := rfl
          rw [← happly, rest_applyCommon, List.filterMap_cons_none hmem,
            List.filterMap_cons_some hcom, List.foldl_cons]

end Vycor
