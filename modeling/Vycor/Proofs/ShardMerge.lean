/-
Three ways to take in a shard.

Calls can be made on the master index, made on an empty shard that the master absorbs, or
captured from such a shard, encoded, decoded and applied.  Absorbing and applying are the
same calls again: the shard's entries, walked.  Each part of the abstract index takes only
its own calls, and for each of them entries that went through a shard go in as they would
have directly (`Replays`): pushing is associative, and so is merging entries of one key.
-/
import Vycor.Proofs.IndexSpec
import Vycor.Proofs.PayloadWire

namespace Vycor

open GlobalIndex Keyed

/-! ### Replays -/

/-- Entries that built a list apart go in again as they would have gone in directly. -/
def Replays {α : Type} (step : List α → α → List α) : Prop :=
  ∀ es m : List α, (es.foldl step []).foldl step m = es.foldl step m

theorem replays_put {α κ : Type} [DecidableEq κ] {key : α → κ} {merge : α → α → α}
    (h : Keyed.Merges key merge) : Replays (put key merge) := foldl_put_replay h

theorem replays_push {α : Type} : Replays fun (l : List α) e => l ++ [e] := by
  have hpush : ∀ es m : List α, es.foldl (fun l e => l ++ [e]) m = m ++ es := by
    intro es
    induction es with
    | nil => simp
    | cons e rest ih => simp [ih]
  intro es m
  rw [hpush, hpush, hpush, List.nil_append]

theorem replays_pushUnique {α : Type} [DecidableEq α] : Replays (@Dedup.pushUnique α _) :=
  fun es m => Dedup.foldl_pushUnique_foldl m [] es

theorem merges_summary : Keyed.Merges FunctionSummaryEntry.qualifiedName mergeSummary where
  key_merge _ _ := rfl
  assoc a b c := by
    have hnames := fun a b c : List Str => (Dedup.foldl_pushUnique_foldl a b c).symm
    unfold mergeSummary mergeNames
    simp only [hnames, Bool.or_assoc]

theorem merges_headerStatic : Keyed.Merges headerStaticKey mergeHeaderStatic where
  key_merge _ _ := rfl
  assoc a b c := by
    have hnames := (Dedup.foldl_pushUnique_foldl a.tuPaths b.tuPaths c.tuPaths).symm
    exact congrArg (fun l => { a with tuPaths := l }) hnames

/-! ### Parts of the abstract index

The abstract index falls into parts that do not touch each other. Each is built
by the calls that concern it, and a walk over a part is a list of calls that
builds it again.
-/

/-- A part of the abstract index, the calls that concern it, and what they do to it. -/
structure Part (α : Type) where
  read : IndexSpec → List α
  concerns : IndexCall → Option α
  step : List α → α → List α
  add : ∀ s call, read (s.add call) = match concerns call with
    | some e => step (read s) e
    | none => read s
  empty : read .empty = []
  replays : Replays step

namespace Part

variable {α : Type} (P : Part α)

theorem read_run (calls : List IndexCall) (s : IndexSpec) :
    P.read (calls.foldl IndexSpec.add s) = (calls.filterMap P.concerns).foldl P.step (P.read s) := by
  induction calls generalizing s with
  | nil => rfl
  | cons call rest ih =>
      rw [List.foldl_cons, ih, P.add]
      cases hc : P.concerns call with
      | none => rw [List.filterMap_cons_none hc]
      | some e => rw [List.filterMap_cons_some hc, List.foldl_cons]

/-- **Calls that walk a part put in what built it.** -/
theorem read_replay {calls walked : List IndexCall}
    (hwalked : walked.filterMap P.concerns = P.read (calls.foldl IndexSpec.add .empty))
    (s : IndexSpec) :
    P.read (walked.foldl IndexSpec.add s) = P.read (calls.foldl IndexSpec.add s) := by
  rw [P.read_run, P.read_run, hwalked, P.read_run, P.empty]
  exact P.replays _ _

end Part

theorem under_eq {α β : Type} (f : Str → List β) (name : Str) (e : α)
    (step : List β → α → List β) (n : Str) :
    IndexSpec.under f name (step · e) n
      = match (if name = n then some e else none : Option α) with
        | some e => step (f n) e
        | none => f n := by
  unfold IndexSpec.under
  by_cases hn : n = name
  · subst hn
    simp
  · have hn' : ¬ name = n := fun hc => hn hc.symm
    simp [hn, hn']

/-- The overloads under a name, all that came. -/
def overloadsPart (n : Str) : Part FunctionOverloadEntry where
  read s := s.overloads n
  concerns
    | .overload e => if e.qualifiedName = n then some e else none
    | _ => none
  step l e := l ++ [e]
  add s call := by
    cases call with
    | overload e => exact under_eq s.overloads e.qualifiedName e (fun l e => l ++ [e]) n
    | _ => rfl
  empty := rfl
  replays := replays_push

/-- The deduction guides under a name, all that came. -/
def guidesPart (n : Str) : Part DeductionGuideEntry where
  read s := s.guides n
  concerns
    | .guide e => if e.templateName = n then some e else none
    | _ => none
  step l e := l ++ [e]
  add s call := by
    cases call with
    | guide e => exact under_eq s.guides e.templateName e (fun l e => l ++ [e]) n
    | _ => rfl
  empty := rfl
  replays := replays_push

/-- The methods of a class, all that came. -/
def coveragePart (n : Str) : Part CoveragePropertyEntry where
  read s := s.coverage n
  concerns
    | .coverage e => if e.enclosingClass = n then some e else none
    | _ => none
  step l e := l ++ [e]
  add s call := by
    cases call with
    | coverage e => exact under_eq s.coverage e.enclosingClass e (fun l e => l ++ [e]) n
    | _ => rfl
  empty := rfl
  replays := replays_push

/-- The specializations of a template, the first for each identity. -/
def specializationsPart (n : Str) : Part SpecializationEntry where
  read s := s.specializations n
  concerns
    | .specialization e => if e.templateName = n then some e else none
    | _ => none
  step := put IndexSpec.specializationId first
  add s call := by
    cases call with
    | specialization e =>
        exact under_eq s.specializations e.templateName e (put IndexSpec.specializationId first) n
    | _ => rfl
  empty := rfl
  replays := replays_put (merges_first _)

/-- The definitions, the first for each key. -/
def odrPart : Part OdrEntry where
  read s := s.odrEntries
  concerns
    | .odr e => some e
    | _ => none
  step := put odrKey first
  add s call := by cases call <;> rfl
  empty := rfl
  replays := replays_put (merges_first _)

/-- The default arguments, the first for each key. -/
def defaultArgsPart : Part DefaultArgEntry where
  read s := s.defaultArgs
  concerns
    | .defaultArg e => some e
    | _ => none
  step := put defaultArgKey first
  add s call := by cases call <;> rfl
  empty := rfl
  replays := replays_put (merges_first _)

/-- The initializers, the first for each key. -/
def staticInitsPart : Part StaticInitEntry where
  read s := s.staticInits
  concerns
    | .staticInit e => some e
    | _ => none
  step := put staticInitKey first
  add s call := by cases call <;> rfl
  empty := rfl
  replays := replays_put (merges_first _)

/-- The functions, merged under their names. -/
def functionSummariesPart : Part FunctionSummaryEntry where
  read s := s.functionSummaries
  concerns
    | .functionSummary e => some e
    | _ => none
  step := put FunctionSummaryEntry.qualifiedName mergeSummary
  add s call := by cases call <;> rfl
  empty := rfl
  replays := replays_put merges_summary

/-- The statics of headers, merged at their sites. -/
def headerStaticsPart : Part HeaderStaticEntry where
  read s := s.headerStatics
  concerns
    | .headerStatic e => some e
    | _ => none
  step := put headerStaticKey mergeHeaderStatic
  add s call := by cases call <;> rfl
  empty := rfl
  replays := replays_put merges_headerStatic

/-- The exception specifications, the first for each key. -/
def exceptionSpecsPart : Part ExceptionSpecEntry where
  read s := s.exceptionSpecs
  concerns
    | .exceptionSpec e => some e
    | _ => none
  step := put exceptionSpecKey first
  add s call := by cases call <;> rfl
  empty := rfl
  replays := replays_put (merges_first _)

/-- The bases of a class, each once. -/
def basesPart (n : Str) : Part Str where
  read s := s.bases n
  concerns
    | .base derived parent => if derived = n then some parent else none
    | _ => none
  step := Dedup.pushUnique
  add s call := by
    cases call with
    | base derived parent => exact under_eq s.bases derived parent Dedup.pushUnique n
    | _ => rfl
  empty := rfl
  replays := replays_pushUnique

/-- What a type is constructed from, each once. -/
def ctorEdgesPart (n : Str) : Part Str where
  read s := s.ctorEdges n
  concerns
    | .ctorEdge toType fromType => if toType = n then some fromType else none
    | _ => none
  step := Dedup.pushUnique
  add s call := by
    cases call with
    | ctorEdge toType fromType => exact under_eq s.ctorEdges toType fromType Dedup.pushUnique n
    | _ => rfl
  empty := rfl
  replays := replays_pushUnique

/-- What a type converts to, each once. -/
def convOpEdgesPart (n : Str) : Part Str where
  read s := s.convOpEdges n
  concerns
    | .convOpEdge fromType toType => if fromType = n then some toType else none
    | _ => none
  step := Dedup.pushUnique
  add s call := by
    cases call with
    | convOpEdge fromType toType =>
        exact under_eq s.convOpEdges fromType toType Dedup.pushUnique n
    | _ => rfl
  empty := rfl
  replays := replays_pushUnique

/-! ### Absorbing and applying are calls -/

/-- The calls that applying a payload makes. -/
def AnnealIndexPayload.calls (p : AnnealIndexPayload) : List IndexCall :=
  p.overloads.map .overload ++ (p.guides.map .guide ++ (p.coverage.map .coverage ++
    (p.odrEntries.map .odr ++ (p.specializations.map .specialization ++
    (p.defaultArgs.map .defaultArg ++ (p.staticInits.map .staticInit ++
    (p.functionSummaries.map .functionSummary ++ (p.headerStatics.map .headerStatic ++
    (p.exceptionSpecs.map .exceptionSpec ++ (p.baseEdges.map (fun e => .base e.1 e.2) ++
    (p.ctorEdges.map (fun e => .ctorEdge e.1 e.2) ++
    p.convOpEdges.map (fun e => .convOpEdge e.1 e.2))))))))))))

theorem foldl_types (add : TypeRelationIndex → Str × Str → TypeRelationIndex)
    (edges : List (Str × Str)) (g : GlobalIndex) :
    edges.foldl (fun g e => { g with types := add g.types e }) g
      = { g with types := edges.foldl add g.types } := by
  induction edges generalizing g with
  | nil => rfl
  | cons e rest ih =>
      rw [List.foldl_cons, ih, List.foldl_cons]

theorem applyTo_eq_run (p : AnnealIndexPayload) (g : GlobalIndex) : p.applyTo g = g.run p.calls := by
  unfold AnnealIndexPayload.applyTo run AnnealIndexPayload.calls
  simp only [List.foldl_append, List.foldl_map, IndexCall.apply]
  rw [foldl_types (fun types e => types.addBase e.1 e.2),
    foldl_types (fun types e => types.addCtorEdge e.1 e.2),
    foldl_types (fun types e => types.addConvOpEdge e.1 e.2)]

/-- Absorbing a shard is applying what it captures. -/
theorem absorb_eq_applyTo (w : HashWalk) (g shard : GlobalIndex) :
    g.absorb w shard = (AnnealIndexPayload.capture w shard).applyTo g := rfl

theorem filterMap_if {α : Type} (l : List α) (p : α → Prop) [DecidablePred p] :
    l.filterMap (fun e => if p e then some e else none) = l.filter p := by
  induction l with
  | nil => rfl
  | cons e rest ih => by_cases he : p e <;> simp [he, ih]

theorem filterMap_edges (edges : List (Str × Str)) (n : Str) :
    edges.filterMap (fun e => if e.1 = n then some e.2 else none)
      = (edges.filter (·.1 = n)).map (·.2) := by
  induction edges with
  | nil => rfl
  | cons e rest ih => by_cases he : e.1 = n <;> simp [he, ih]

/-- **The calls of a captured shard walk its parts**, in any order of the hash maps. -/
theorem replay_spec {shard : GlobalIndex} (h : WF shard) (w : HashWalk) {calls : List IndexCall}
    (hshard : shard.spec = calls.foldl IndexSpec.add .empty) (s : IndexSpec) :
    (AnnealIndexPayload.capture w shard).calls.foldl IndexSpec.add s
      = calls.foldl IndexSpec.add s := by
  have hnone : ∀ {α β : Type} (l : List α), l.filterMap (fun _ => (none : Option β)) = [] :=
    fun l => List.filterMap_eq_nil_iff.mpr fun _ _ => rfl
  -- the calls of a kind among all calls are those of its list
  refine IndexSpec.ext ?_ ?_ ?_ ?_ ?_ ?_ ?_ ?_ ?_ ?_ ?_ ?_ ?_
  · funext n
    refine (overloadsPart n).read_replay ?_ s
    rw [← hshard]
    refine Eq.trans ?_ (h.overloads.filter_walk w n)
    simp only [AnnealIndexPayload.calls, overloadsPart, List.filterMap_append, List.filterMap_map,
      Function.comp_def, filterMap_if, hnone, List.append_nil]
    rfl
  · funext n
    refine (guidesPart n).read_replay ?_ s
    rw [← hshard]
    refine Eq.trans ?_ (h.guides.filter_walk w n)
    simp only [AnnealIndexPayload.calls, guidesPart, List.filterMap_append, List.filterMap_map,
      Function.comp_def, filterMap_if, hnone, List.append_nil, List.nil_append]
    rfl
  · funext n
    refine (coveragePart n).read_replay ?_ s
    rw [← hshard]
    refine Eq.trans ?_ (h.coverage.filter_walk w n)
    simp only [AnnealIndexPayload.calls, coveragePart, List.filterMap_append, List.filterMap_map,
      Function.comp_def, filterMap_if, hnone, List.append_nil, List.nil_append]
    rfl
  · funext n
    refine (specializationsPart n).read_replay ?_ s
    rw [← hshard]
    refine Eq.trans ?_ (h.specializations.filter_walk w n)
    simp only [AnnealIndexPayload.calls, specializationsPart, List.filterMap_append,
      List.filterMap_map, Function.comp_def, filterMap_if, hnone, List.append_nil, List.nil_append]
    rfl
  · refine odrPart.read_replay ?_ s
    rw [← hshard]
    simp only [AnnealIndexPayload.calls, odrPart, List.filterMap_append, List.filterMap_map,
      Function.comp_def, hnone, List.append_nil, List.nil_append, List.filterMap_some]
    rfl
  · refine defaultArgsPart.read_replay ?_ s
    rw [← hshard]
    simp only [AnnealIndexPayload.calls, defaultArgsPart, List.filterMap_append,
      List.filterMap_map, Function.comp_def, hnone, List.append_nil, List.nil_append,
      List.filterMap_some]
    rfl
  · refine staticInitsPart.read_replay ?_ s
    rw [← hshard]
    simp only [AnnealIndexPayload.calls, staticInitsPart, List.filterMap_append,
      List.filterMap_map, Function.comp_def, hnone, List.append_nil, List.nil_append,
      List.filterMap_some]
    rfl
  · refine functionSummariesPart.read_replay ?_ s
    rw [← hshard]
    simp only [AnnealIndexPayload.calls, functionSummariesPart, List.filterMap_append,
      List.filterMap_map, Function.comp_def, hnone, List.append_nil, List.nil_append,
      List.filterMap_some]
    rfl
  · refine headerStaticsPart.read_replay ?_ s
    rw [← hshard]
    simp only [AnnealIndexPayload.calls, headerStaticsPart, List.filterMap_append,
      List.filterMap_map, Function.comp_def, hnone, List.append_nil, List.nil_append,
      List.filterMap_some]
    rfl
  · refine exceptionSpecsPart.read_replay ?_ s
    rw [← hshard]
    simp only [AnnealIndexPayload.calls, exceptionSpecsPart, List.filterMap_append,
      List.filterMap_map, Function.comp_def, hnone, List.append_nil, List.nil_append,
      List.filterMap_some]
    rfl
  · funext n
    refine (basesPart n).read_replay ?_ s
    rw [← hshard]
    refine Eq.trans ?_ (h.bases.filter_walk w n)
    simp only [AnnealIndexPayload.calls, basesPart, List.filterMap_append, List.filterMap_map,
      Function.comp_def, filterMap_edges, hnone, List.append_nil, List.nil_append]
    rfl
  · funext n
    refine (ctorEdgesPart n).read_replay ?_ s
    rw [← hshard]
    refine Eq.trans ?_ (h.ctorEdges.filter_walk w n)
    simp only [AnnealIndexPayload.calls, ctorEdgesPart, List.filterMap_append, List.filterMap_map,
      Function.comp_def, filterMap_edges, hnone, List.append_nil, List.nil_append]
    rfl
  · funext n
    refine (convOpEdgesPart n).read_replay ?_ s
    rw [← hshard]
    refine Eq.trans ?_ (h.convOpEdges.filter_walk w n)
    simp only [AnnealIndexPayload.calls, convOpEdgesPart, List.filterMap_append,
      List.filterMap_map, Function.comp_def, filterMap_edges, hnone, List.nil_append]
    rfl

/-! ### Indexes that hold the same -/

/-- The same entries with the same fields under every name and in every list, the same
answers of every lookup, and the same type relations. -/
structure GlobalIndex.Same (g g' : GlobalIndex) : Prop where
  spec : g.spec = g'.spec
  findStaticInit : ∀ name, g.findStaticInit name = g'.findStaticInit name
  findFunctionSummary : ∀ name, g.findFunctionSummary name = g'.findFunctionSummary name
  headerStaticBySite : ∀ k, g.headerStaticBySite.lookup k = g'.headerStaticBySite.lookup k
  allIndexedClasses : ∀ (w w' : HashWalk) (name : Str),
    name ∈ g.allIndexedClasses w ↔ name ∈ g'.allIndexedClasses w'
  odrKeys : ∀ k, k ∈ g.odrKeys ↔ k ∈ g'.odrKeys
  defaultArgKeys : ∀ k, k ∈ g.defaultArgKeys ↔ k ∈ g'.defaultArgKeys
  staticInitKeys : ∀ k, k ∈ g.staticInitKeys ↔ k ∈ g'.staticInitKeys
  exceptionSpecKeys : ∀ k, k ∈ g.exceptionSpecKeys ↔ k ∈ g'.exceptionSpecKeys

theorem GlobalIndex.WF.same {g g' : GlobalIndex} (h : WF g) (h' : WF g') (hspec : g.spec = g'.spec) :
    Same g g' where
  spec := hspec
  findStaticInit name := by rw [h.findStaticInit_eq, h'.findStaticInit_eq, hspec]
  findFunctionSummary name := by rw [h.findFunctionSummary_eq, h'.findFunctionSummary_eq, hspec]
  headerStaticBySite k := by
    have hlist : g.headerStatics = g'.headerStatics := congrArg IndexSpec.headerStatics hspec
    rw [h.headerStaticBySite k, h'.headerStaticBySite k, hlist]
  allIndexedClasses w w' name := by
    rw [h.mem_allIndexedClasses, h'.mem_allIndexedClasses, hspec]
  odrKeys k := by
    have hlist : g.odrEntries = g'.odrEntries := congrArg IndexSpec.odrEntries hspec
    rw [h.odrKeys k, h'.odrKeys k, hlist]
  defaultArgKeys k := by
    have hlist : g.defaultArgs = g'.defaultArgs := congrArg IndexSpec.defaultArgs hspec
    rw [h.defaultArgKeys k, h'.defaultArgKeys k, hlist]
  staticInitKeys k := by
    have hlist : g.staticInits = g'.staticInits := congrArg IndexSpec.staticInits hspec
    rw [h.staticInitKeys k, h'.staticInitKeys k, hlist]
  exceptionSpecKeys k := by
    have hlist : g.exceptionSpecs = g'.exceptionSpecs := congrArg IndexSpec.exceptionSpecs hspec
    rw [h.exceptionSpecKeys k, h'.exceptionSpecKeys k, hlist]

/-- How an index comes about. -/
inductive IndexHistory
  | empty
  | call (h : IndexHistory) (call : IndexCall)
  | absorb (h shard : IndexHistory) (w : HashWalk)
  | apply (h : IndexHistory) (p : AnnealIndexPayload)

/-- The index that the history leaves. -/
def IndexHistory.index : IndexHistory → GlobalIndex
  | .empty => {}
  | .call h c => c.apply h.index
  | .absorb h shard w => h.index.absorb w shard.index
  | .apply h p => p.applyTo h.index

theorem IndexHistory.wf : ∀ h : IndexHistory, WF h.index
  | .empty => wf_empty
  | .call h c => (apply_wf_spec h.wf c).1
  | .absorb h shard w => by
      show WF (h.index.absorb w shard.index)
      rw [absorb_eq_applyTo, applyTo_eq_run]
      exact (GlobalIndex.run_wf_spec h.wf _).1
  | .apply h p => by
      show WF (p.applyTo h.index)
      rw [applyTo_eq_run]
      exact (GlobalIndex.run_wf_spec h.wf _).1

/-- **A shard is taken in alike on every way**: through its captured, encoded and decoded
payload, by absorbing it, and by the calls that built it, for every master index and every
order in which hash maps are walked. -/
theorem payload_absorb_calls_same (master : IndexHistory) (calls : List IndexCall)
    (w w' : HashWalk) (rest : Checkpoint.Bytes)
    (hfits : (AnnealIndexPayload.capture w (({} : GlobalIndex).run calls)).Fits) :
    ∃ payload, StateT.run Checkpoint.decodeIndexPayload
        ⟨Checkpoint.encodeIndexPayload
          (AnnealIndexPayload.capture w (({} : GlobalIndex).run calls)) ++ rest, true⟩
          = (payload, ⟨rest, true⟩) ∧
      Same (payload.applyTo master.index)
        (master.index.absorb w' (({} : GlobalIndex).run calls)) ∧
      Same (payload.applyTo master.index) (master.index.run calls) := by
  obtain ⟨hshard, hspec⟩ := GlobalIndex.run_wf_spec wf_empty calls
  have hrun : ∀ w, WF (master.index.absorb w (({} : GlobalIndex).run calls)) ∧
      (master.index.absorb w (({} : GlobalIndex).run calls)).spec = (master.index.run calls).spec := by
    intro w
    rw [absorb_eq_applyTo, applyTo_eq_run]
    obtain ⟨hwf, hone⟩ := GlobalIndex.run_wf_spec master.wf
      (AnnealIndexPayload.capture w (({} : GlobalIndex).run calls)).calls
    refine ⟨hwf, ?_⟩
    rw [hone, replay_spec hshard w hspec, (GlobalIndex.run_wf_spec master.wf calls).2]
  refine ⟨_, Checkpoint.decodes_indexPayload _ hfits rest, ?_, ?_⟩
  · rw [← absorb_eq_applyTo]
    exact (hrun w).1.same (hrun w').1 ((hrun w).2.trans (hrun w').2.symm)
  · rw [← absorb_eq_applyTo]
    exact (hrun w).1.same (GlobalIndex.run_wf_spec master.wf calls).1 (hrun w).2

theorem counted_nil {α : Type} (fits : α → Prop) : Counted fits [] :=
  ⟨by simp, fun _ h => nomatch h⟩

/-- A shard of one class and its base. -/
def classAndBase : List IndexCall :=
  [.odr { qualifiedName := str "A", signature := str "", enclosingClass := str "",
          filePath := str "a.h", odrHash := 1 },
    .base (str "A") (str "B")]

theorem payload_absorb_calls_same_class :
    (AnnealIndexPayload.capture .inOrder (({} : GlobalIndex).run classAndBase)).Fits ∧
    ∃ payload, StateT.run Checkpoint.decodeIndexPayload
        ⟨Checkpoint.encodeIndexPayload
          (AnnealIndexPayload.capture .inOrder (({} : GlobalIndex).run classAndBase)) ++ [], true⟩
          = (payload, ⟨[], true⟩) ∧
      Same (payload.applyTo IndexHistory.empty.index)
        (IndexHistory.empty.index.absorb .inOrder (({} : GlobalIndex).run classAndBase)) ∧
      Same (payload.applyTo IndexHistory.empty.index)
        (IndexHistory.empty.index.run classAndBase) := by
  have hfits : (AnnealIndexPayload.capture .inOrder (({} : GlobalIndex).run classAndBase)).Fits :=
    { overloads := counted_nil _
      guides := counted_nil _
      coverage := counted_nil _
      odrEntries := by
        refine ⟨by decide, fun e he => ?_⟩
        obtain rfl := List.mem_singleton.mp he
        exact ⟨by decide, by decide, by decide, by decide⟩
      specializations := counted_nil _
      defaultArgs := counted_nil _
      staticInits := counted_nil _
      functionSummaries := counted_nil _
      headerStatics := counted_nil _
      exceptionSpecs := counted_nil _
      baseEdges := by
        refine ⟨by decide, fun e he => ?_⟩
        have hpair : e = (str "A", str "B") := List.mem_singleton.mp he
        exact hpair ▸ ⟨by decide, by decide⟩
      ctorEdges := counted_nil _
      convOpEdges := counted_nil _ }
  exact ⟨hfits, payload_absorb_calls_same .empty classAndBase .inOrder .inOrder [] hfits⟩

end Vycor
