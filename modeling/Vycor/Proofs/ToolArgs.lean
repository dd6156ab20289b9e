/-
A call spelled on the command line.

What the parser makes of the flags of a tool is shown key by key: a flag shows under its own name
only (`under_applyFlag_of_ne`), so under a name the parse is a fold over the texts that spell its
member (`under_run`), whatever the order.  The first text of an array puts an array in place of
what the seed has there, and the others append.
-/
import Vycor.Proofs.Digits
import Vycor.Proofs.FlagSplitting

namespace Vycor

/-! ### One value -/

theorem getAsInteger_decimalInt {n : Int} (hlo : -2 ^ 63 ≤ n) (hhi : n < 2 ^ 63) :
    getAsInteger (decimalInt n) = some n := by
  have hdigits : ∀ m : Nat, (Mcp.sizeText m).all Mcp.isDigit = true := fun m =>
    List.all_eq_true.mpr (Mcp.all_isDigit_sizeText m)
  cases n with
  | ofNat m =>
      have hhead : (Mcp.sizeText m).head? ≠ some 45 := by
        intro h
        exact absurd (Mcp.isDigit_sizeText (List.mem_of_mem_head? h)).1 (by decide)
      have htext : decimalInt (Int.ofNat m) = Mcp.sizeText m := decimalInt_ofNat m
      have hvalue : (Mcp.leadingDigits (Mcp.sizeText m) : Int) = Int.ofNat m :=
        congrArg Int.ofNat (Mcp.leadingDigits_sizeText m)
      unfold getAsInteger
      simp only [htext, hhead, if_false, hvalue]
      exact if_pos ⟨Mcp.sizeText_ne_nil m, hdigits m, hlo, hhi⟩
  | negSucc m =>
      have hvalue : -(Mcp.leadingDigits (Mcp.sizeText (m + 1)) : Int) = Int.negSucc m := by
        rw [Mcp.leadingDigits_sizeText]
        rfl
      unfold getAsInteger
      simp only [decimalInt_negSucc, List.head?_cons, if_true, List.drop_one, List.tail_cons,
        hvalue]
      exact if_pos ⟨Mcp.sizeText_ne_nil _, hdigits _, hlo, hhi⟩

section Parsing

variable (fixUTF8 : Str → Str)

/-- What the parser makes of the text behind the `=`. -/
def readItem (spec : FlagSpec) (text : Str) : Option Json :=
  if spec.type = str "boolean" then
    if text = str "true" ∨ text = str "1" then some (.bool true)
    else if text = str "false" ∨ text = str "0" then some (.bool false)
    else none
  else if spec.type = str "integer" ∨ (spec.type = str "array" ∧ spec.itemType = str "integer") then
    (getAsInteger text).map Json.ofInt
  else some (jsonString fixUTF8 text)

/-- An item goes on the list of an array flag, and else in place of what was there. -/
def writeItem (spec : FlagSpec) (key : Str) (item : Json) (st : ToolArgs) : ToolArgs :=
  if spec.type = str "array" then st.pushItem key item else st.set key item

theorem types_ne : str "boolean" ≠ str "integer" ∧ str "boolean" ≠ str "array" ∧
    str "integer" ≠ str "array" ∧ str "string" ≠ str "boolean" ∧ str "string" ≠ str "integer" ∧
    str "string" ≠ str "array" := by
  decide

theorem parseBoolean_of_read {spec : FlagSpec} {text : Str} {item : Json}
    (htype : spec.type = str "boolean") (h : readItem fixUTF8 spec text = some item)
    (tool : ToolEntry) (rawKey : Str) :
    ∃ b, parseBoolean tool rawKey (some text) = .ok b ∧ item = .bool b := by
  unfold readItem at h
  rw [if_pos htype] at h
  simp only [parseBoolean]
  split_ifs at h ⊢
  · exact ⟨true, rfl, (Option.some.inj h).symm⟩
  · exact ⟨false, rfl, (Option.some.inj h).symm⟩

theorem parseInteger_of_read {text : Str} {item : Json}
    (h : (getAsInteger text).map Json.ofInt = some item) (tool : ToolEntry) (rawKey : Str) :
    parseInteger tool rawKey text = .ok item := by
  obtain ⟨n, hn, rfl⟩ := Option.map_eq_some_iff.mp h
  rw [parseInteger, hn]

/-- The step at a flag with its value behind the `=`. -/
theorem parseFlag_arg {tool : ToolEntry} {f : Flag} {spec : FlagSpec} {item : Json}
    (heq : 61 ∉ f.spelling)
    (hspec : (schemaFlags tool).find? (·.name = f.key) = some spec)
    (hitem : readItem fixUTF8 spec f.value = some item) (rest : List Str) (st : ToolArgs) :
    parseFlag fixUTF8 tool f.arg rest st = .ok (writeItem spec f.key item st, 0) := by
  have hmem : 61 ∈ f.spelling ++ 61 :: f.value := by simp
  have hlen : f.arg.length ≠ 2 := by
    have htwo : (str "--").length = 2 := by decide
    rw [Flag.arg, List.length_append, List.length_append, List.length_cons, htwo]
    omega
  have hspec' : (schemaFlags tool).find? (fun g => decide (g.name = canonicalToolName f.spelling))
      = some spec := hspec
  unfold parseFlag
  simp only [f.startsWith_arg, f.drop_arg, splitEq_append heq, hmem, hlen, Bool.not_true,
    decide_false, Bool.or_self, Bool.false_eq_true, if_false, if_true, hspec', takeValue]
  obtain ⟨hboolInt, hboolArr, hintArr, -⟩ := types_ne
  by_cases hbool : spec.type = str "boolean"
  · obtain ⟨b, hparse, rfl⟩ := parseBoolean_of_read fixUTF8 hbool hitem tool f.spelling
    rw [if_pos hbool, hparse, writeItem, if_neg (hbool ▸ hboolArr)]
    rfl
  unfold readItem at hitem
  rw [if_neg hbool] at hitem
  rw [if_neg hbool]
  by_cases hint : spec.type = str "integer"
  · rw [if_pos (Or.inl hint)] at hitem
    have hparse := parseInteger_of_read hitem tool f.spelling
    rw [writeItem, if_neg (hint ▸ hintArr)]
    simp only [bind, Except.bind, if_pos hint, hparse]
    rfl
  by_cases harr : spec.type = str "array"
  · rw [writeItem, if_pos harr]
    by_cases hitems : spec.itemType = str "integer"
    · rw [if_pos (Or.inr ⟨harr, hitems⟩)] at hitem
      have hparse := parseInteger_of_read hitem tool f.spelling
      simp only [bind, Except.bind, if_neg hint, if_pos harr, if_pos hitems, hparse]
      rfl
    · rw [if_neg (by simp [hint, hitems])] at hitem
      simp only [bind, Except.bind, if_neg hint, if_pos harr, if_neg hitems, pure, Except.pure,
        Option.some.inj hitem]
      rfl
  · rw [if_neg (by simp [hint, harr])] at hitem
    rw [writeItem, if_neg harr]
    simp only [bind, Except.bind, if_neg hint, if_neg harr, Option.some.inj hitem]
    rfl

/-- A value of the declared type is spelled by one text that is read as it, or by one for each
element. -/
theorem OfType.read {spec : FlagSpec} {value : Json} (h : OfType spec value) :
    (spec.type ≠ str "array" ∧
      ∃ text, spellings value = [text] ∧ readItem fixUTF8 spec text = some value) ∨
    (spec.type = str "array" ∧ ∃ elems, elems ≠ [] ∧ value = Json.strings elems ∧
      spellings value = elems ∧ ∀ s ∈ elems, readItem fixUTF8 spec s = some (.string s)) := by
  obtain ⟨hboolInt, hboolArr, hintArr, hstrBool, hstrInt, hstrArr⟩ := types_ne
  cases h with
  | @string s htype hutf8 =>
      refine Or.inl ⟨htype ▸ hstrArr, s, rfl, ?_⟩
      unfold readItem jsonString utf8Text
      rw [htype, if_neg hstrBool, if_neg (by simp [hstrInt, hstrArr]), if_pos hutf8]
  | @integer n htype hlo hhi =>
      refine Or.inl ⟨htype ▸ hintArr, decimalInt n, ?_, ?_⟩
      · simp [Json.ofInt, spellings]
      · unfold readItem
        rw [htype, if_neg (Ne.symm hboolInt), if_pos (Or.inl rfl), getAsInteger_decimalInt hlo hhi]
        rfl
  | @boolean b htype =>
      refine Or.inl ⟨htype ▸ hboolArr, if b then str "true" else str "false", rfl, ?_⟩
      unfold readItem
      rw [if_pos htype]
      cases b with
      | true => rfl
      | false => rfl
  | @array elems htype hitems hne hutf8 =>
      refine Or.inr ⟨htype, elems, hne, rfl, ?_, fun s hs => ?_⟩
      · simp [Json.strings, spellings, List.filterMap_map, Json.asString, Function.comp_def]
      · unfold readItem jsonString utf8Text
        rw [htype, hitems, if_neg (Ne.symm hboolArr), if_neg (by simp [hstrInt, Ne.symm hintArr]),
          if_pos (hutf8 s hs)]

/-! ### Flag after flag -/

/-- The arguments after a flag that is read. -/
def applyFlag (tool : ToolEntry) (st : ToolArgs) (f : Flag) : ToolArgs :=
  match (schemaFlags tool).find? (·.name = f.key) with
  | none => st
  | some spec =>
    (readItem fixUTF8 spec f.value).elim st fun item => writeItem spec f.key item st

theorem parseFlags_run {tool : ToolEntry} {fs : List Flag} (st : ToolArgs)
    (h : ∀ f ∈ fs, 61 ∉ f.spelling ∧ ∃ spec item,
      (schemaFlags tool).find? (·.name = f.key) = some spec ∧
        readItem fixUTF8 spec f.value = some item) :
    parseFlags fixUTF8 tool 0 (fs.map Flag.arg) st
      = .ok (fs.foldl (applyFlag fixUTF8 tool) st) := by
  induction fs generalizing st with
  | nil => rfl
  | cons f fs ih =>
      obtain ⟨heq, spec, item, hspec, hitem⟩ := h f List.mem_cons_self
      have happly : applyFlag fixUTF8 tool st f = writeItem spec f.key item st := by
        rw [applyFlag, hspec]
        simp only [hitem, Option.elim_some]
      rw [List.map_cons, parseFlags, parseFlag_arg fixUTF8 heq hspec hitem, List.foldl_cons, happly]
      exact ih _ fun f hf => h f (List.mem_cons_of_mem _ hf)

/-! ### Under one name

Flags of different names do not touch each other's members, so the order in
which they are interleaved makes no difference under any one name.
-/

/-- What stands under a name, and whether the command line has given it as an array. -/
def under (name : Str) (st : ToolArgs) : Option Json × Bool :=
  (st.args.get name, decide (name ∈ st.arraysSeen))

/-- The elements of an array, none of anything else. -/
def elemsOf : Option Json → List Json
  | some (.array elems) => elems
  | _ => []

/-- Writing an item, as it shows under its name. -/
def writeUnder (spec : FlagSpec) (shown : Option Json × Bool) (item : Json) : Option Json × Bool :=
  if spec.type = str "array" then
    (some (.array ((if shown.2 then elemsOf shown.1 else []) ++ [item])), true)
  else (some item, shown.2)

/-- What a flag's name and text make of what is shown for it. -/
def readUnder (tool : ToolEntry) (name : Str) (shown : Option Json × Bool) (text : Str) :
    Option Json × Bool :=
  match (schemaFlags tool).find? (·.name = name) with
  | none => shown
  | some spec => (readItem fixUTF8 spec text).elim shown (writeUnder spec shown)

omit fixUTF8 in
theorem get_set (obj : JsonObject) (key name : Str) (value : Json) :
    (obj.set key value).get name = if key = name then some value else obj.get name := by
  have hm : Keyed.Merges (fun kv : Str × Json => kv.1) fun old new => (old.1, new.2) :=
    { key_merge := fun _ _ => rfl, assoc := fun _ _ _ => rfl }
  unfold JsonObject.get JsonObject.set
  rw [Keyed.find_put hm]
  by_cases hkey : key = name
  · rw [if_pos hkey, if_pos hkey]
    cases obj.find? (·.1 = name) with
    | none => rfl
    | some old => rfl
  · rw [if_neg hkey, if_neg hkey]

omit fixUTF8 in
theorem under_writeItem_self (spec : FlagSpec) (name : Str) (item : Json) (st : ToolArgs) :
    under name (writeItem spec name item st) = writeUnder spec (under name st) item := by
  unfold writeItem writeUnder under
  by_cases harr : spec.type = str "array"
  · have helems : (st.args.getArray name).getD [] = elemsOf (st.args.get name) := by
      unfold JsonObject.getArray elemsOf
      cases st.args.get name with
      | none => rfl
      | some value => cases value <;> rfl
    rw [if_pos harr, if_pos harr]
    simp [ToolArgs.pushItem, get_set, helems]
  · rw [if_neg harr, if_neg harr]
    exact Prod.ext ((get_set _ _ _ _).trans (if_pos rfl)) rfl

omit fixUTF8 in
theorem under_writeItem_of_ne {key name : Str} (h : key ≠ name) (spec : FlagSpec) (item : Json)
    (st : ToolArgs) : under name (writeItem spec key item st) = under name st := by
  unfold writeItem under
  by_cases harr : spec.type = str "array"
  · rw [if_pos harr]
    simp [ToolArgs.pushItem, get_set, h, Ne.symm h]
  · rw [if_neg harr]
    exact Prod.ext ((get_set _ _ _ _).trans (if_neg h)) rfl

theorem under_applyFlag_self (tool : ToolEntry) (st : ToolArgs) (f : Flag) :
    under f.key (applyFlag fixUTF8 tool st f)
      = readUnder fixUTF8 tool f.key (under f.key st) f.value := by
  unfold applyFlag readUnder
  cases (schemaFlags tool).find? (·.name = f.key) with
  | none => rfl
  | some spec =>
      cases hitem : readItem fixUTF8 spec f.value with
      | none => simp only [hitem, Option.elim_none]
      | some item =>
          simp only [hitem, Option.elim_some]
          exact under_writeItem_self spec f.key item st

/-- A flag shows under its own name only. -/
theorem under_applyFlag_of_ne {f : Flag} {name : Str} (h : f.key ≠ name) (tool : ToolEntry)
    (st : ToolArgs) : under name (applyFlag fixUTF8 tool st f) = under name st := by
  unfold applyFlag
  cases (schemaFlags tool).find? (·.name = f.key) with
  | none => rfl
  | some spec =>
      cases hitem : readItem fixUTF8 spec f.value with
      | none => simp only [hitem, Option.elim_none]
      | some item =>
          simp only [hitem, Option.elim_some]
          exact under_writeItem_of_ne h spec item st

/-- Under a name the flags are the texts given under it, whatever stands between. -/
theorem under_run (tool : ToolEntry) (fs : List Flag) (name : Str) (st : ToolArgs) :
    under name (fs.foldl (applyFlag fixUTF8 tool) st)
      = ((fs.filter (·.key = name)).map (·.value)).foldl (readUnder fixUTF8 tool name)
          (under name st) := by
  have hown : ∀ st f, Flag.key f = name → under name (applyFlag fixUTF8 tool st f)
      = readUnder fixUTF8 tool name (under name st) f.value := by
    rintro st f rfl
    exact under_applyFlag_self fixUTF8 tool st f
  rw [List.foldl_map]
  exact Keyed.view_foldl hown (fun st f hne => under_applyFlag_of_ne fixUTF8 hne tool st) fs st

/-- An array that the command line has begun grows by the texts that follow. -/
theorem readUnder_strings {tool : ToolEntry} {name : Str} {spec : FlagSpec}
    (hspec : (schemaFlags tool).find? (·.name = name) = some spec)
    (htype : spec.type = str "array") {elems : List Str}
    (hread : ∀ s ∈ elems, readItem fixUTF8 spec s = some (.string s)) (front : List Str) :
    elems.foldl (readUnder fixUTF8 tool name) (some (Json.strings front), true)
      = (some (Json.strings (front ++ elems)), true) := by
  induction elems generalizing front with
  | nil => rw [List.foldl_nil, List.append_nil]
  | cons s elems ih =>
      have hstep : readUnder fixUTF8 tool name (some (Json.strings front), true) s
          = (some (Json.strings (front ++ [s])), true) := by
        unfold readUnder
        rw [hspec]
        simp only [hread s List.mem_cons_self, Option.elim_some]
        rw [writeUnder, if_pos htype]
        simp [elemsOf, Json.strings]
      rw [List.foldl_cons, hstep, ih fun s hs => hread s (List.mem_cons_of_mem _ hs),
        List.append_assoc, List.singleton_append]

/-- The texts of a value put it in place of what was there. -/
theorem readUnder_spellings {tool : ToolEntry} {name : Str} {spec : FlagSpec} {value : Json}
    (hspec : (schemaFlags tool).find? (·.name = name) = some spec) (h : OfType spec value)
    (before : Option Json) :
    ((spellings value).foldl (readUnder fixUTF8 tool name) (before, false)).1 = some value := by
  rcases h.read fixUTF8 with ⟨htype, text, htext, hread⟩ | ⟨htype, elems, hne, rfl, htext, hread⟩
  · rw [htext, List.foldl_cons, List.foldl_nil]
    unfold readUnder
    rw [hspec]
    simp only [hread, Option.elim_some]
    rw [writeUnder, if_neg htype]
  · obtain ⟨s, rest, rfl⟩ := List.exists_cons_of_ne_nil hne
    have hstep : readUnder fixUTF8 tool name (before, false) s
        = (some (Json.strings [s]), true) := by
      unfold readUnder
      rw [hspec]
      simp only [hread s List.mem_cons_self, Option.elim_some]
      rw [writeUnder, if_pos htype]
      rfl
    rw [htext, List.foldl_cons, hstep,
      readUnder_strings fixUTF8 hspec htype fun s hs => hread s (List.mem_cons_of_mem _ hs)]
    rfl

/-! ### The call -/

/-- Each flag for a member is read. -/
theorem read_of_spells {tool : ToolEntry} (htool : tool ∈ getRegisteredTools) {obj : JsonObject}
    (hobj : Arguments tool obj) {fs : List Flag} (hspells : Spells fs obj) {f : Flag} (hf : f ∈ fs) :
    ∃ spec ∈ schemaFlags tool, spec.name = f.key ∧
      (schemaFlags tool).find? (·.name = f.key) = some spec ∧
      ∃ item, readItem fixUTF8 spec f.value = some item := by
  have htext : f.value ∈ ((obj.get f.key).map spellings).getD [] := by
    rw [← hspells f.key]
    exact List.mem_map_of_mem (List.mem_filter.mpr ⟨hf, decide_eq_true rfl⟩)
  cases hvalue : obj.get f.key with
  | none =>
      rw [hvalue] at htext
      exact absurd htext List.not_mem_nil
  | some value =>
      rw [hvalue, Option.map_some, Option.getD_some] at htext
      obtain ⟨spec, hspec, hname, htype⟩ := hobj.typed f.key value hvalue
      have hfind : (schemaFlags tool).find? (·.name = f.key) = some spec :=
        hname ▸ Keyed.find_of_nodup (nodup_schemaFlags htool) hspec
      refine ⟨spec, hspec, hname, hfind, ?_⟩
      rcases htype.read fixUTF8 with ⟨-, text, heq, hread⟩ | ⟨-, elems, -, -, heq, hread⟩
      · rw [heq, List.mem_singleton] at htext
        exact ⟨value, htext ▸ hread⟩
      · rw [heq] at htext
        exact ⟨_, hread f.value htext⟩

/-- Under each name stands the member, or what was there before. -/
theorem get_of_spells {tool : ToolEntry} (htool : tool ∈ getRegisteredTools) {obj : JsonObject}
    (hobj : Arguments tool obj) {fs : List Flag} (hspells : Spells fs obj) (seed : JsonObject)
    (name : Str) :
    (fs.foldl (applyFlag fixUTF8 tool) { args := seed }).args.get name
      = (obj.get name).or (seed.get name) := by
  have hrun := congrArg Prod.fst (under_run fixUTF8 tool fs name { args := seed })
  rw [hspells name] at hrun
  refine hrun.trans ?_
  cases hvalue : obj.get name with
  | none => rfl
  | some value =>
      obtain ⟨spec, hspec, hname, htype⟩ := hobj.typed name value hvalue
      have hfind : (schemaFlags tool).find? (·.name = name) = some spec :=
        hname ▸ Keyed.find_of_nodup (nodup_schemaFlags htool) hspec
      exact readUnder_spellings fixUTF8 hfind htype (seed.get name)

theorem parseToolArgs_spelled {tool : ToolEntry} (htool : tool ∈ getRegisteredTools)
    {obj : JsonObject} (hobj : Arguments tool obj) {fs : List Flag} (hspells : Spells fs obj)
    (seed : JsonObject) :
    ∃ args, parseToolArgs fixUTF8 tool (fs.map Flag.arg) seed = .ok args ∧
      ∀ name, args.get name = (obj.get name).or (seed.get name) := by
  have hread : ∀ f ∈ fs, 61 ∉ f.spelling ∧ ∃ spec item,
      (schemaFlags tool).find? (·.name = f.key) = some spec ∧
        readItem fixUTF8 spec f.value = some item := by
    intro f hf
    obtain ⟨spec, hspec, hname, hfind, item, hitem⟩ :=
      read_of_spells fixUTF8 htool hobj hspells hf
    have heq : 61 ∉ f.key := hname ▸ (name_apart htool hspec).1
    exact ⟨fun hmem => heq ((eq_mem_canonical f.spelling).mpr hmem), spec, item, hfind, hitem⟩
  have hget := get_of_spells fixUTF8 htool hobj hspells seed
  have hrequired : (schemaFlags tool).find? (fun spec => spec.required &&
      ((fs.foldl (applyFlag fixUTF8 tool) { args := seed }).args.get spec.name).isNone) = none := by
    refine List.find?_eq_none.mpr fun spec hspec => ?_
    rw [hget]
    by_cases hreq : spec.required = true
    · obtain ⟨value, hvalue⟩ := Option.isSome_iff_exists.mp (hobj.required spec hspec hreq)
      simp [hvalue]
    · simp [hreq]
  refine ⟨_, ?_, hget⟩
  rw [parseToolArgs, parseFlags_run fixUTF8 _ hread]
  simp only [bind, Except.bind, hrequired]
  rfl

/-- **Flags and JSON denote the same call**: the arguments of a tool, spelled one flag a member and
one for each element of an array, in any order and with flags of the verb between them, are split
off in order and read as the object they spell, or as it laid over the seed. -/
theorem spelled_call_parsed {tool : ToolEntry} (htool : tool ∈ getRegisteredTools)
    {obj : JsonObject} (hobj : Arguments tool obj) {flags : List CliFlag}
    (hspells : Spells (flags.filterMap CliFlag.member?) obj)
    (hcommon : ∀ f, .common f ∈ flags → hyphenated f.spelling ∈ commonKeys)
    (acceptFiles : Bool) :
    ∃ common, splitCommonFlags (flags.map CliFlag.arg) acceptFiles = .ok common ∧
      common = ((flags.filterMap CliFlag.common?).foldl applyCommon {}).withRest
        ((flags.filterMap CliFlag.member?).map Flag.arg) ∧
      (∃ args, parseToolArgs fixUTF8 tool common.rest [] = .ok args ∧
        ∀ name, args.get name = obj.get name) ∧
      ∀ seed, ∃ args, parseToolArgs fixUTF8 tool common.rest seed = .ok args ∧
        ∀ name, args.get name = (obj.get name).or (seed.get name) := by
  have hmember : ∀ f, .member f ∈ flags →
      61 ∉ f.spelling ∧ commonTarget (hyphenated f.spelling) = none := by
    intro f hf
    have hmem : f ∈ flags.filterMap CliFlag.member? := List.mem_filterMap.mpr ⟨_, hf, rfl⟩
    obtain ⟨spec, hspec, hname, -⟩ := read_of_spells fixUTF8 htool hobj hspells hmem
    obtain ⟨heq, htarget⟩ := name_apart htool hspec
    rw [hname] at heq htarget
    rw [Flag.key, hyphenated_canonical] at htarget
    exact ⟨fun hin => heq ((eq_mem_canonical f.spelling).mpr hin), htarget⟩
  have hparse := parseToolArgs_spelled fixUTF8 htool hobj hspells
  refine ⟨_, splitFlags_run acceptFiles {} hmember hcommon, rfl, ?_, hparse⟩
  obtain ⟨args, hok, hget⟩ := hparse []
  exact ⟨args, hok, fun name => (hget name).trans (Option.or_none)⟩

end Parsing

theorem mem_of_get {obj : JsonObject} {name : Str} {value : Json} (h : obj.get name = some value) :
    (name, value) ∈ obj := by
  obtain ⟨kv, hfind, rfl⟩ := Option.map_eq_some_iff.mp h
  have hname : kv.1 = name := by simpa using List.find?_some hfind
  rw [← hname]
  exact List.mem_of_find?_eq_some hfind

/-! ### An array in two flags -/

/-- The tool that asks for the RAII locals at a call site. -/
def raiiTool : ToolEntry :=
  declareNeeds (uncached "query_raii_scopes_at_callsite" handleQueryRaiiScopesAtCallsite)

/-- Its arguments: a site and two kinds. -/
def raiiArguments : JsonObject :=
  [field "call_site" (.string (str "a.cpp:1:2")),
    field "kinds" (Json.strings [str "lock", str "other"])]

/-- The path of the index looks like a flag of the tool. -/
def raiiFlags : List CliFlag :=
  [.member { spelling := str "kinds", value := str "lock" },
    .common { spelling := str "index", value := str "--kinds=smart_ptr" },
    .member { spelling := str "call-site", value := str "a.cpp:1:2" },
    .member { spelling := str "kinds", value := str "other" }]

theorem raiiArguments_arguments : Arguments raiiTool raiiArguments := by
  have hsite : { name := str "call_site", required := true } ∈ schemaFlags raiiTool :=
    mem_schemaFlags.mpr (by decide +kernel)
  have hkinds : { name := str "kinds", type := str "array", itemType := str "string" }
      ∈ schemaFlags raiiTool :=
    mem_schemaFlags.mpr (by decide +kernel)
  refine ⟨fun name value h => ?_, fun spec hspec hreq => ?_⟩
  · have hmem := mem_of_get h
    simp only [raiiArguments, field, List.mem_cons, List.not_mem_nil, or_false,
      Prod.mk.injEq] at hmem
    rcases hmem with ⟨rfl, rfl⟩ | ⟨rfl, rfl⟩
    · exact ⟨_, hsite, rfl, .string rfl (isUTF8_str _)⟩
    · refine ⟨_, hkinds, rfl, .array rfl rfl (by simp) ?_⟩
      simp [isUTF8_str]
  · have hall : (propertyFlags raiiTool.inputSchema).all (fun spec =>
        !spec.required || (raiiArguments.get spec.name).isSome) = true := by decide +kernel
    have h := List.all_eq_true.mp hall spec (mem_schemaFlags.mp hspec)
    simpa [hreq] using h

theorem spells_raiiFlags : Spells (raiiFlags.filterMap CliFlag.member?) raiiArguments := by
  intro name
  by_cases hsite : str "call_site" = name
  · subst hsite
    decide +kernel
  by_cases hkinds : str "kinds" = name
  · subst hkinds
    decide +kernel
  have hkeys : (raiiFlags.filterMap CliFlag.member?).map Flag.key
      = [str "kinds", str "call_site", str "kinds"] := by decide
  have hflags : (raiiFlags.filterMap CliFlag.member?).filter (·.key = name) = [] := by
    refine List.filter_eq_nil_iff.mpr fun f hf => ?_
    have hkey : f.key ∈ [str "kinds", str "call_site", str "kinds"] :=
      hkeys ▸ List.mem_map_of_mem hf
    simp only [List.mem_cons, List.not_mem_nil, or_false] at hkey
    intro heq
    have hname := of_decide_eq_true heq
    rw [hname] at hkey
    rcases hkey with hkey | hkey | hkey
    · exact hkinds hkey.symm
    · exact hsite hkey.symm
    · exact hkinds hkey.symm
  have hobj : raiiArguments.get name = none := by
    unfold raiiArguments field
    rw [JsonObject.get_cons_of_ne hsite, JsonObject.get_cons_of_ne hkinds]
    rfl
  rw [hflags, hobj]
  rfl

theorem spelled_call_parsed_raii :
    ∃ common, splitCommonFlags (raiiFlags.map CliFlag.arg) false = .ok common ∧
      ∃ args, parseToolArgs id raiiTool common.rest [] = .ok args ∧
        ∀ name, args.get name = raiiArguments.get name := by
  have hregistered : raiiTool ∈ getRegisteredTools :=
    List.mem_append_left _ (List.mem_map_of_mem (by simp [exceptionTools]))
  have hcommon : ∀ f, .common f ∈ raiiFlags → hyphenated f.spelling ∈ commonKeys := by
    intro f hf
    simp only [raiiFlags, List.mem_cons, reduceCtorEq, CliFlag.common.injEq, List.not_mem_nil,
      or_false, false_or] at hf
    subst hf
    decide
  obtain ⟨common, hsplit, -, hargs, -⟩ :=
    spelled_call_parsed id hregistered raiiArguments_arguments spells_raiiFlags hcommon false
  exact ⟨common, hsplit, hargs⟩

end Vycor
