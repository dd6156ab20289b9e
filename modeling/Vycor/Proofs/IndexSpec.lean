/-
What the anneal index is for, without ids and positions.

An `IndexSpec` holds, for each name, the entries filed under it and the types it relates to,
and the plain vectors as lists with one entry per key.  Each `add*` function does one thing
to it, and the lookups of the index are read off it.
-/
import Vycor.Lib.Keyed
import Vycor.Proofs.NamedLists

namespace Vycor

open UMap

/-! ### The abstract index

Lists under names and lists without repeated keys. Both kinds of adding are
`put` of Lib/Keyed or a push, and merging an index is making the calls behind
it.
-/

/-- What an index says: the entries under each name, and those kept as one list. -/
@[ext] structure IndexSpec where
  overloads : Str → List FunctionOverloadEntry
  guides : Str → List DeductionGuideEntry
  coverage : Str → List CoveragePropertyEntry
  specializations : Str → List SpecializationEntry
  odrEntries : List OdrEntry
  defaultArgs : List DefaultArgEntry
  staticInits : List StaticInitEntry
  functionSummaries : List FunctionSummaryEntry
  headerStatics : List HeaderStaticEntry
  exceptionSpecs : List ExceptionSpecEntry
  bases : Str → List Str
  ctorEdges : Str → List Str
  convOpEdges : Str → List Str

/-- One call of a mutator. -/
inductive IndexCall
  | overload (entry : FunctionOverloadEntry)
  | guide (entry : DeductionGuideEntry)
  | coverage (entry : CoveragePropertyEntry)
  | odr (entry : OdrEntry)
  | specialization (entry : SpecializationEntry)
  | defaultArg (entry : DefaultArgEntry)
  | staticInit (entry : StaticInitEntry)
  | functionSummary (entry : FunctionSummaryEntry)
  | headerStatic (entry : HeaderStaticEntry)
  | exceptionSpec (entry : ExceptionSpecEntry)
  | base (derived base : Str)
  | ctorEdge (toType fromType : Str)
  | convOpEdge (fromType toType : Str)

namespace IndexSpec

/-- Change what is under one name. -/
def under {α : Type} (f : Str → List α) (name : Str) (change : List α → List α) (n : Str) : List α :=
  if n = name then change (f name) else f n

/-- Specializations of one template are told apart by the rest of their fields. -/
def specializationId (e : SpecializationEntry) : Str × Str × UInt32 :=
  (e.argsString, e.headerPath, e.line)

/-- Nothing registered. -/
def empty : IndexSpec where
  overloads _ := []
  guides _ := []
  coverage _ := []
  specializations _ := []
  odrEntries := []
  defaultArgs := []
  staticInits := []
  functionSummaries := []
  headerStatics := []
  exceptionSpecs := []
  bases _ := []
  ctorEdges _ := []
  convOpEdges _ := []

open GlobalIndex Keyed in
/-- What a mutator means. -/
def add (s : IndexSpec) : IndexCall → IndexSpec
  | .overload e => { s with overloads := under s.overloads e.qualifiedName (· ++ [e]) }
  | .guide e => { s with guides := under s.guides e.templateName (· ++ [e]) }
  | .coverage e => { s with coverage := under s.coverage e.enclosingClass (· ++ [e]) }
  | .specialization e =>
    { s with
      specializations := under s.specializations e.templateName fun l => put specializationId first l e }
  | .odr e => { s with odrEntries := put odrKey first s.odrEntries e }
  | .defaultArg e => { s with defaultArgs := put defaultArgKey first s.defaultArgs e }
  | .staticInit e => { s with staticInits := put staticInitKey first s.staticInits e }
  | .functionSummary e =>
    { s with
      functionSummaries :=
        put FunctionSummaryEntry.qualifiedName mergeSummary s.functionSummaries e }
  | .headerStatic e =>
    { s with headerStatics := put headerStaticKey mergeHeaderStatic s.headerStatics e }
  | .exceptionSpec e => { s with exceptionSpecs := put exceptionSpecKey first s.exceptionSpecs e }
  | .base derived parent => { s with bases := under s.bases derived (Dedup.pushUnique · parent) }
  | .ctorEdge toType fromType =>
    { s with ctorEdges := under s.ctorEdges toType (Dedup.pushUnique · fromType) }
  | .convOpEdge fromType toType =>
    { s with convOpEdges := under s.convOpEdges fromType (Dedup.pushUnique · toType) }

end IndexSpec

namespace IndexCall

/-- The call on the index. -/
def apply (g : GlobalIndex) : IndexCall → GlobalIndex
  | overload e => g.addFunctionOverload e
  | guide e => g.addDeductionGuide e
  | coverage e => g.addCoverageProperty e
  | odr e => g.addOdrEntry e
  | specialization e => g.addSpecialization e
  | defaultArg e => g.addDefaultArg e
  | staticInit e => g.addStaticInit e
  | functionSummary e => g.addFunctionSummary e
  | headerStatic e => g.addHeaderStatic e
  | exceptionSpec e => g.addExceptionSpec e
  | base derived parent => { g with types := g.types.addBase derived parent }
  | ctorEdge toType fromType => { g with types := g.types.addCtorEdge toType fromType }
  | convOpEdge fromType toType => { g with types := g.types.addConvOpEdge fromType toType }

end IndexCall

namespace GlobalIndex

/-- The index that a list of calls makes of `g`. -/
def run (g : GlobalIndex) (calls : List IndexCall) : GlobalIndex := calls.foldl IndexCall.apply g

/-- What the index says, read through its own lookups. -/
def spec (g : GlobalIndex) : IndexSpec where
  overloads := g.findOverloads
  guides := g.findDeductionGuides
  coverage := g.findClassMethods
  specializations := g.findSpecializations
  odrEntries := g.odrEntries
  defaultArgs := g.defaultArgs
  staticInits := g.staticInits
  functionSummaries := g.functionSummaries
  headerStatics := g.headerStatics
  exceptionSpecs := g.exceptionSpecs
  bases := TypeRelationIndex.edgesFrom g.types.interner g.types.bases
  ctorEdges := TypeRelationIndex.edgesFrom g.types.interner g.types.ctorEdges
  convOpEdges := TypeRelationIndex.edgesFrom g.types.interner g.types.convOpEdges

/-! ### Invariant -/

/-- The set of dedup keys holds the keys of the entries. -/
def Seen {α : Type} (key : α → Str) (entries : List α) (keys : List Str) : Prop :=
  ∀ k, k ∈ keys ↔ k ∈ entries.map key

/-- The map by key has the first position of each key. -/
def AtFirst {α : Type} (key : α → Str) (entries : List α) (index : UMap Str Nat) : Prop :=
  ∀ k, index.lookup k = entries.findIdx? (key · = k)

/-- The maps of the index stand for its lists. -/
structure WF (g : GlobalIndex) : Prop where
  overloads : Named g.interner FunctionOverloadEntry.qualifiedName g.overloads
  guides : Named g.interner DeductionGuideEntry.templateName g.guides
  coverage : Named g.interner CoveragePropertyEntry.enclosingClass g.coverageProps
  specializations : Named g.interner SpecializationEntry.templateName g.specializations
  odrKeys : Seen odrKey g.odrEntries g.odrKeys
  defaultArgKeys : Seen defaultArgKey g.defaultArgs g.defaultArgKeys
  staticInitKeys : Seen staticInitKey g.staticInits g.staticInitKeys
  staticInitByName : AtFirst StaticInitEntry.qualifiedName g.staticInits g.staticInitByName
  functionSummaryByName :
    AtFirst FunctionSummaryEntry.qualifiedName g.functionSummaries g.functionSummaryByName
  headerStaticBySite : AtFirst headerStaticKey g.headerStatics g.headerStaticBySite
  exceptionSpecKeys : Seen exceptionSpecKey g.exceptionSpecs g.exceptionSpecKeys
  bases : TypeRelationIndex.Edged g.types.interner g.types.bases
  ctorEdges : TypeRelationIndex.Edged g.types.interner g.types.ctorEdges
  convOpEdges : TypeRelationIndex.Edged g.types.interner g.types.convOpEdges

theorem wf_empty : WF {} where
  overloads := named_empty _
  guides := named_empty _
  coverage := named_empty _
  specializations := named_empty _
  odrKeys _ := Iff.rfl
  defaultArgKeys _ := Iff.rfl
  staticInitKeys _ := Iff.rfl
  staticInitByName _ := rfl
  functionSummaryByName _ := rfl
  headerStaticBySite _ := rfl
  exceptionSpecKeys _ := Iff.rfl
  bases := TypeRelationIndex.edged_empty
  ctorEdges := TypeRelationIndex.edged_empty
  convOpEdges := TypeRelationIndex.edged_empty

variable {g : GlobalIndex}

/-! ### Entries under a name -/

/-- A longer table of names changes nothing. -/
theorem WF.grow (h : WF g) (s : Str) :
    WF { g with interner := g.interner.intern s } ∧
      ({ g with interner := g.interner.intern s } : GlobalIndex).spec = g.spec := by
  have hgrown := StringInterner.prefix_intern g.interner s
  have hnd := StringInterner.nodup_intern h.overloads.nodup s
  refine ⟨{ h with
    overloads := h.overloads.grow hgrown hnd
    guides := h.guides.grow hgrown hnd
    coverage := h.coverage.grow hgrown hnd
    specializations := h.specializations.grow hgrown hnd }, ?_⟩
  refine IndexSpec.ext ?_ ?_ ?_ ?_ rfl rfl rfl rfl rfl rfl rfl rfl rfl
  · funext n
    exact findNamed_grow h.overloads.below hgrown n
  · funext n
    exact findNamed_grow h.guides.below hgrown n
  · funext n
    exact findNamed_grow h.coverage.below hgrown n
  · funext n
    exact findNamed_grow h.specializations.below hgrown n

theorem named_push {α : Type} {names : StringInterner} {name : α → Str} {m : UMap SId (List α)}
    (h : Named names name m) (e : α) :
    Named (names.intern (name e)) name (pushNamed m ((names.intern (name e)).idOf (name e)) e) := by
  refine h.upsert (fun l => by simp) ?_
  intro l hl x hx
  rcases List.mem_append.mp hx with hx | hx
  · exact hl x hx
  · rw [List.mem_singleton.mp hx]

theorem findNamed_push {α : Type} {names : StringInterner} {name : α → Str}
    {m : UMap SId (List α)} (h : Named names name m) (e : α) (n : Str) :
    findNamed (names.intern (name e)) (pushNamed m ((names.intern (name e)).idOf (name e)) e) n
      = IndexSpec.under (findNamed names m) (name e) (· ++ [e]) n :=
  findNamed_upsert h.below (StringInterner.prefix_intern _ _) (StringInterner.mem_intern _ _) _ n

theorem addFunctionOverload_wf_spec (h : WF g) (e : FunctionOverloadEntry) :
    WF (g.addFunctionOverload e) ∧ (g.addFunctionOverload e).spec = g.spec.add (.overload e) := by
  obtain ⟨hwf, hspec⟩ := h.grow e.qualifiedName
  refine ⟨{ hwf with overloads := named_push h.overloads e }, ?_⟩
  show _ = ({ g.spec with overloads := _ } : IndexSpec)
  rw [← hspec]
  refine IndexSpec.ext ?_ rfl rfl rfl rfl rfl rfl rfl rfl rfl rfl rfl rfl
  funext n
  rw [hspec]
  exact findNamed_push h.overloads e n

theorem addDeductionGuide_wf_spec (h : WF g) (e : DeductionGuideEntry) :
    WF (g.addDeductionGuide e) ∧ (g.addDeductionGuide e).spec = g.spec.add (.guide e) := by
  obtain ⟨hwf, hspec⟩ := h.grow e.templateName
  refine ⟨{ hwf with guides := named_push h.guides e }, ?_⟩
  show _ = ({ g.spec with guides := _ } : IndexSpec)
  rw [← hspec]
  refine IndexSpec.ext rfl ?_ rfl rfl rfl rfl rfl rfl rfl rfl rfl rfl rfl
  funext n
  rw [hspec]
  exact findNamed_push h.guides e n

theorem addCoverageProperty_wf_spec (h : WF g) (e : CoveragePropertyEntry) :
    WF (g.addCoverageProperty e) ∧ (g.addCoverageProperty e).spec = g.spec.add (.coverage e) := by
  obtain ⟨hwf, hspec⟩ := h.grow e.enclosingClass
  refine ⟨{ hwf with coverage := named_push h.coverage e }, ?_⟩
  show _ = ({ g.spec with coverage := _ } : IndexSpec)
  rw [← hspec]
  refine IndexSpec.ext rfl rfl ?_ rfl rfl rfl rfl rfl rfl rfl rfl rfl rfl
  funext n
  rw [hspec]
  exact findNamed_push h.coverage e n

theorem put_specialization (v : List SpecializationEntry) (e : SpecializationEntry) :
    (if v.any (sameSpecialization · e) then v else v ++ [e])
      = Keyed.put IndexSpec.specializationId Keyed.first v e := by
  have hiff : v.any (sameSpecialization · e) = true
      ↔ IndexSpec.specializationId e ∈ v.map IndexSpec.specializationId := by
    simp only [List.any_eq_true, List.mem_map, sameSpecialization, IndexSpec.specializationId,
      Bool.and_eq_true, decide_eq_true_eq, Prod.mk.injEq, and_assoc]
  by_cases hmem : IndexSpec.specializationId e ∈ v.map IndexSpec.specializationId
  · rw [if_pos (hiff.mpr hmem), Keyed.put_first_of_mem hmem]
  · rw [if_neg (mt hiff.mp hmem), Keyed.put_of_not_mem hmem]

theorem addSpecialization_wf_spec (h : WF g) (e : SpecializationEntry) :
    WF (g.addSpecialization e) ∧ (g.addSpecialization e).spec = g.spec.add (.specialization e) := by
  obtain ⟨hwf, hspec⟩ := h.grow e.templateName
  refine ⟨{ hwf with specializations := ?_ }, ?_⟩
  · refine h.specializations.upsert (s := e.templateName)
      (f := fun v => if v.any (sameSpecialization · e) then v else v ++ [e]) ?_ ?_
    · intro l
      split
      · rename_i hany
        rintro rfl
        simp at hany
      · simp
    · intro l hl x hx
      split at hx
      · exact hl x hx
      · rcases List.mem_append.mp hx with hx | hx
        · exact hl x hx
        · rw [List.mem_singleton.mp hx]
  · show _ = ({ g.spec with specializations := _ } : IndexSpec)
    rw [← hspec]
    refine IndexSpec.ext rfl rfl rfl ?_ rfl rfl rfl rfl rfl rfl rfl rfl rfl
    funext n
    rw [hspec]
    refine (findNamed_upsert h.specializations.below (StringInterner.prefix_intern _ _)
      (StringInterner.mem_intern _ _) _ n).trans ?_
    unfold IndexSpec.under
    rw [put_specialization]
    rfl

/-! ### Entries under a key

The set of keys, or the map from keys to positions, makes the adding fast. In
the abstract index the key is looked for among the entries.
-/

theorem Seen.push {α : Type} {key : α → Str} {entries : List α} {keys : List Str}
    (h : Seen key entries keys) (e : α) : Seen key (entries ++ [e]) (keys ++ [key e]) := by
  intro k
  rw [List.map_append, List.mem_append, List.mem_append, h k]
  rfl

/-- An entry whose key was seen is dropped, as `put` says. -/
theorem Seen.put {α : Type} {key : α → Str} {entries : List α} {keys : List Str}
    (h : Seen key entries keys) (e : α) :
    Keyed.put key Keyed.first entries e = if key e ∈ keys then entries else entries ++ [e] := by
  split
  · rename_i hk
    exact Keyed.put_first_of_mem ((h _).mp hk)
  · rename_i hk
    exact Keyed.put_of_not_mem (mt (h _).mpr hk)

theorem addOdrEntry_wf_spec (h : WF g) (e : OdrEntry) :
    WF (g.addOdrEntry e) ∧ (g.addOdrEntry e).spec = g.spec.add (.odr e) := by
  have hput : g.spec.add (.odr e) = { g.spec with
      odrEntries := if odrKey e ∈ g.odrKeys then g.odrEntries else g.odrEntries ++ [e] } :=
    congrArg (fun l => { g.spec with odrEntries := l }) (h.odrKeys.put e)
  rw [hput]
  unfold addOdrEntry
  split
  · exact ⟨h, rfl⟩
  · exact ⟨{ h with odrKeys := h.odrKeys.push e }, rfl⟩

theorem addDefaultArg_wf_spec (h : WF g) (e : DefaultArgEntry) :
    WF (g.addDefaultArg e) ∧ (g.addDefaultArg e).spec = g.spec.add (.defaultArg e) := by
  have hput : g.spec.add (.defaultArg e) = { g.spec with
      defaultArgs :=
        if defaultArgKey e ∈ g.defaultArgKeys then g.defaultArgs else g.defaultArgs ++ [e] } :=
    congrArg (fun l => { g.spec with defaultArgs := l }) (h.defaultArgKeys.put e)
  rw [hput]
  unfold addDefaultArg
  split
  · exact ⟨h, rfl⟩
  · exact ⟨{ h with defaultArgKeys := h.defaultArgKeys.push e }, rfl⟩

theorem addExceptionSpec_wf_spec (h : WF g) (e : ExceptionSpecEntry) :
    WF (g.addExceptionSpec e) ∧ (g.addExceptionSpec e).spec = g.spec.add (.exceptionSpec e) := by
  have hput : g.spec.add (.exceptionSpec e) = { g.spec with
      exceptionSpecs :=
        if exceptionSpecKey e ∈ g.exceptionSpecKeys then g.exceptionSpecs
        else g.exceptionSpecs ++ [e] } :=
    congrArg (fun l => { g.spec with exceptionSpecs := l }) (h.exceptionSpecKeys.put e)
  rw [hput]
  unfold addExceptionSpec
  split
  · exact ⟨h, rfl⟩
  · exact ⟨{ h with exceptionSpecKeys := h.exceptionSpecKeys.push e }, rfl⟩

/-- A key that is new gets the next position. -/
theorem AtFirst.push {α : Type} {key : α → Str} {entries : List α} {index : UMap Str Nat}
    (h : AtFirst key entries index) (e : α) :
    AtFirst key (entries ++ [e]) (index.emplace (key e) entries.length) := by
  intro k
  rw [lookup_emplace, List.findIdx?_append, ← h k]
  by_cases hk : k = key e
  · rw [if_pos hk, ← hk]
    cases index.lookup k with
    | none => simp [hk, List.findIdx?_cons]
    | some i => rfl
  · have hk' : ¬ key e = k := fun hc => hk hc.symm
    rw [if_neg hk]
    simp [hk', List.findIdx?_cons]

theorem addStaticInit_wf_spec (h : WF g) (e : StaticInitEntry) :
    WF (g.addStaticInit e) ∧ (g.addStaticInit e).spec = g.spec.add (.staticInit e) := by
  have hput : g.spec.add (.staticInit e) = { g.spec with
      staticInits :=
        if staticInitKey e ∈ g.staticInitKeys then g.staticInits else g.staticInits ++ [e] } :=
    congrArg (fun l => { g.spec with staticInits := l }) (h.staticInitKeys.put e)
  rw [hput]
  unfold addStaticInit
  split
  · exact ⟨h, rfl⟩
  · exact ⟨{ h with
      staticInitKeys := h.staticInitKeys.push e
      staticInitByName := h.staticInitByName.push e }, rfl⟩

/-- Merging into a position leaves the keys where they are. -/
theorem AtFirst.modify {α : Type} {key : α → Str} {entries : List α} {index : UMap Str Nat}
    (h : AtFirst key entries index) {f : α → α} (hf : ∀ x, key (f x) = key x) (i : Nat) :
    AtFirst key (entries.modify i f) index := by
  intro k
  have hkeys : (entries.modify i f).map key = entries.map key := by
    refine List.ext_getElem? fun j => ?_
    rw [List.getElem?_map, List.getElem?_map, List.getElem?_modify]
    cases entries[j]? with
    | none => rfl
    | some x => by_cases hij : i = j <;> simp [hij, hf]
  have hat : ∀ l : List α, l.findIdx? (key · = k) = (l.map key).findIdx? (· = k) := by
    intro l
    rw [List.findIdx?_map]
    rfl
  rw [h k, hat, hat, hkeys]

/-- A merge through the map by key is what `put` says. -/
theorem AtFirst.put {α : Type} {key : α → Str} {entries : List α} {index : UMap Str Nat}
    (h : AtFirst key entries index) (merge : α → α → α) (e : α) :
    Keyed.put key merge entries e = match index.lookup (key e) with
      | none => entries ++ [e]
      | some i => entries.modify i (merge · e) := by
  have hput : Keyed.put key merge entries e = _ := Keyed.put_eq_modify entries e
  rw [← h (key e)] at hput
  exact hput

theorem addFunctionSummary_wf_spec (h : WF g) (e : FunctionSummaryEntry) :
    WF (g.addFunctionSummary e) ∧
      (g.addFunctionSummary e).spec = g.spec.add (.functionSummary e) := by
  have hput := h.functionSummaryByName.put mergeSummary e
  unfold addFunctionSummary
  cases hl : g.functionSummaryByName.lookup e.qualifiedName with
  | none =>
      rw [hl] at hput
      exact ⟨{ h with functionSummaryByName := h.functionSummaryByName.push e },
        congrArg (fun l => { g.spec with functionSummaries := l }) hput.symm⟩
  | some i =>
      rw [hl] at hput
      exact ⟨{ h with
          functionSummaryByName :=
            h.functionSummaryByName.modify (f := (mergeSummary · e)) (fun _ => rfl) i },
        congrArg (fun l => { g.spec with functionSummaries := l }) hput.symm⟩

theorem addHeaderStatic_wf_spec (h : WF g) (e : HeaderStaticEntry) :
    WF (g.addHeaderStatic e) ∧ (g.addHeaderStatic e).spec = g.spec.add (.headerStatic e) := by
  have hput := h.headerStaticBySite.put mergeHeaderStatic e
  unfold addHeaderStatic
  cases hl : g.headerStaticBySite.lookup (headerStaticKey e) with
  | none =>
      rw [hl] at hput
      exact ⟨{ h with headerStaticBySite := h.headerStaticBySite.push e },
        congrArg (fun l => { g.spec with headerStatics := l }) hput.symm⟩
  | some i =>
      rw [hl] at hput
      exact ⟨{ h with
          headerStaticBySite :=
            h.headerStaticBySite.modify (f := (mergeHeaderStatic · e)) (fun _ => rfl) i },
        congrArg (fun l => { g.spec with headerStatics := l }) hput.symm⟩

/-! ### Type relations -/

theorem WF.types_wf_spec (h : WF g) (call : IndexCall) :
    (∀ derived base, call = .base derived base →
      WF (call.apply g) ∧ (call.apply g).spec = g.spec.add call) ∧
    (∀ toType fromType, call = .ctorEdge toType fromType →
      WF (call.apply g) ∧ (call.apply g).spec = g.spec.add call) ∧
    (∀ fromType toType, call = .convOpEdge fromType toType →
      WF (call.apply g) ∧ (call.apply g).spec = g.spec.add call) := by
  have hgrown : ∀ a b : Str, g.types.interner.strings
      <+: ((g.types.interner.intern a).intern b).strings := fun a b =>
    (StringInterner.prefix_intern _ a).trans (StringInterner.prefix_intern _ b)
  have hnd : ∀ a b : Str, ((g.types.interner.intern a).intern b).strings.Nodup := fun a b =>
    StringInterner.nodup_intern (StringInterner.nodup_intern h.bases.nodup a) b
  have hfst : ∀ a b : Str, a ∈ ((g.types.interner.intern a).intern b).strings := fun a b =>
    (StringInterner.prefix_intern _ b).subset (StringInterner.mem_intern _ a)
  have hsnd : ∀ a b : Str, b ∈ ((g.types.interner.intern a).intern b).strings := fun a b =>
    StringInterner.mem_intern _ b
  have hpush {edges : UMap SId (List SId)} (he : TypeRelationIndex.Edged g.types.interner edges)
      (a b : Str) :=
    (he.grow (hgrown a b) (hnd a b)).pushEdge (StringInterner.idOf_lt.mpr (hfst a b))
      (StringInterner.idOf_lt.mpr (hsnd a b))
  refine ⟨?_, ?_, ?_⟩
  · rintro a b rfl
    refine ⟨{ h with
      bases := hpush h.bases a b
      ctorEdges := h.ctorEdges.grow (hgrown a b) (hnd a b)
      convOpEdges := h.convOpEdges.grow (hgrown a b) (hnd a b) }, ?_⟩
    refine IndexSpec.ext rfl rfl rfl rfl rfl rfl rfl rfl rfl rfl ?_ ?_ ?_
    · funext n
      exact h.bases.edgesFrom_pushEdge (hgrown a b) (hnd a b) (hfst a b) (hsnd a b) n
    · funext n
      exact h.ctorEdges.edgesFrom_grow (hgrown a b) n
    · funext n
      exact h.convOpEdges.edgesFrom_grow (hgrown a b) n
  · rintro a b rfl
    refine ⟨{ h with
      bases := h.bases.grow (hgrown a b) (hnd a b)
      ctorEdges := hpush h.ctorEdges a b
      convOpEdges := h.convOpEdges.grow (hgrown a b) (hnd a b) }, ?_⟩
    refine IndexSpec.ext rfl rfl rfl rfl rfl rfl rfl rfl rfl rfl ?_ ?_ ?_
    · funext n
      exact h.bases.edgesFrom_grow (hgrown a b) n
    · funext n
      exact h.ctorEdges.edgesFrom_pushEdge (hgrown a b) (hnd a b) (hfst a b) (hsnd a b) n
    · funext n
      exact h.convOpEdges.edgesFrom_grow (hgrown a b) n
  · rintro a b rfl
    refine ⟨{ h with
      bases := h.bases.grow (hgrown a b) (hnd a b)
      ctorEdges := h.ctorEdges.grow (hgrown a b) (hnd a b)
      convOpEdges := hpush h.convOpEdges a b }, ?_⟩
    refine IndexSpec.ext rfl rfl rfl rfl rfl rfl rfl rfl rfl rfl ?_ ?_ ?_
    · funext n
      exact h.bases.edgesFrom_grow (hgrown a b) n
    · funext n
      exact h.ctorEdges.edgesFrom_grow (hgrown a b) n
    · funext n
      exact h.convOpEdges.edgesFrom_pushEdge (hgrown a b) (hnd a b) (hfst a b) (hsnd a b) n

/-- **Every mutator does to the abstract index what it means.** -/
theorem apply_wf_spec (h : WF g) (call : IndexCall) :
    WF (call.apply g) ∧ (call.apply g).spec = g.spec.add call := by
  cases call with
  | overload e => exact addFunctionOverload_wf_spec h e
  | guide e => exact addDeductionGuide_wf_spec h e
  | coverage e => exact addCoverageProperty_wf_spec h e
  | odr e => exact addOdrEntry_wf_spec h e
  | specialization e => exact addSpecialization_wf_spec h e
  | defaultArg e => exact addDefaultArg_wf_spec h e
  | staticInit e => exact addStaticInit_wf_spec h e
  | functionSummary e => exact addFunctionSummary_wf_spec h e
  | headerStatic e => exact addHeaderStatic_wf_spec h e
  | exceptionSpec e => exact addExceptionSpec_wf_spec h e
  | base a b => exact (h.types_wf_spec _).1 a b rfl
  | ctorEdge a b => exact (h.types_wf_spec _).2.1 a b rfl
  | convOpEdge a b => exact (h.types_wf_spec _).2.2 a b rfl

theorem run_wf_spec (h : WF g) (calls : List IndexCall) :
    WF (g.run calls) ∧ (g.run calls).spec = calls.foldl IndexSpec.add g.spec := by
  unfold run
  induction calls generalizing g with
  | nil => exact ⟨h, rfl⟩
  | cons call rest ih =>
      obtain ⟨hwf, hspec⟩ := apply_wf_spec h call
      rw [List.foldl_cons, List.foldl_cons, ← hspec]
      exact ih hwf

/-! ### Lookups are read off the abstract index -/

theorem AtFirst.find {α : Type} {key : α → Str} {entries : List α} {index : UMap Str Nat}
    (h : AtFirst key entries index) (k : Str) :
    (index.lookup k).bind (entries[·]?) = entries.find? (key · = k) := by
  rw [h k, List.find?_eq_bind_findIdx?_getElem?]

theorem WF.findStaticInit_eq (h : WF g) (name : Str) :
    g.findStaticInit name = g.spec.staticInits.find? (·.qualifiedName = name) :=
  h.staticInitByName.find name

theorem WF.findFunctionSummary_eq (h : WF g) (name : Str) :
    g.findFunctionSummary name = g.spec.functionSummaries.find? (·.qualifiedName = name) :=
  h.functionSummaryByName.find name

theorem WF.mem_allIndexedClasses (h : WF g) (w : HashWalk) (name : Str) :
    name ∈ g.allIndexedClasses w ↔ g.spec.coverage name ≠ [] :=
  h.coverage.mem_names w name

end GlobalIndex

end Vycor
