/-
What the two searches of static initialization report.

The order check looks for globals of other files that are read while an initializer runs, directly
or behind calls, and reports each target once.  All that it comes across is a list of findings,
the direct ones first and then those of the ways wave by wave; the first of each target's name is
reported, and stands on a shortest chain because the findings are sorted by length.

The hazard check stops at the first name it meets that is a hazard.  What it has met until then are
the first ways of the waves, so it stops at the end of a shortest one.

A search says with the empty name that a name was met from none, and that nothing was hit.  So the
chains are whole when no function is called by the empty name.
-/
import Mathlib.Data.List.TakeWhile
import Vycor.Model.StaticInitHazards
import Vycor.Proofs.CallWaves

namespace Vycor

open Waves CallSearch GlobalIndex Keyed

/-! ### Findings

What the walk comes across, in the order in which it does: the targets of each
function's references, function by function and wave by wave.
-/

/-- A target, and the chain of calls to what reads it. -/
abbrev Finding := StaticInitEntry × List Str

section Definitions

variable (index : GlobalIndex) (entry : StaticInitEntry)

/-- What the function found under the name calls. -/
def calledFrom (name : Str) : List Str :=
  match index.findFunctionSummary name with
  | none => []
  | some s => s.calledFunctions

/-- What the function found under the name refers to. -/
def refsOf (name : Str) : List Str :=
  match index.findFunctionSummary name with
  | none => []
  | some s => s.referencedGlobals

/-- The targets among the references, each with the chain to them. -/
def findingsIn (names refs : List Str) : List Finding :=
  (refs.filterMap (resolveTarget index entry)).map fun target => (target, names)

/-- The functions that the initializer calls, wave by wave. -/
def calledWays : List (Way Str) :=
  known (calledFrom index) (kMaxDepth - 1) entry.calledFunctions (kMaxDepth - 1)

/-- All that is found from an initializer: its own references, then those of each call
below it. -/
def findings : List Finding :=
  findingsIn index entry [] entry.referencedGlobals ++
    (calledWays index entry).flatMap fun w => findingsIn index entry (shown w) (refsOf index w.1)

/-- The first finding of each name. -/
def firsts (fs : List Finding) : List Finding :=
  fs.foldl (put (fun f : Finding => f.1.qualifiedName) first) []

/-- The report of a finding. -/
def orderPrinted (f : Finding) : Diagnostic := orderDiagnostic entry f.1 (printed f.2)

/-- The walk has reported the first findings. -/
structure Told (fs : List Finding) (w : OrderWalk) : Prop where
  targets : w.reportedTargets = (firsts fs).map (·.1.qualifiedName)
  diagnostics : w.diagnostics = (firsts fs).map (orderPrinted entry)

end Definitions

variable {index : GlobalIndex} {entry : StaticInitEntry}

theorem Told.report {fs : List Finding} {w : OrderWalk} (h : Told entry fs w) (f : Finding) :
    Told entry (fs ++ [f]) (w.report entry f.1 (printed f.2)) := by
  have hfirsts : firsts (fs ++ [f]) =
      put (fun f : Finding => f.1.qualifiedName) first (firsts fs) f := by
    unfold firsts
    rw [List.foldl_append]
    rfl
  unfold OrderWalk.report
  by_cases hold : f.1.qualifiedName ∈ w.reportedTargets
  · rw [if_pos hold]
    rw [h.targets] at hold
    rw [put_first_of_mem hold] at hfirsts
    exact ⟨by rw [hfirsts, h.targets], by rw [hfirsts, h.diagnostics]⟩
  · rw [if_neg hold]
    rw [h.targets] at hold
    rw [put_of_not_mem hold] at hfirsts
    refine ⟨?_, ?_⟩
    · rw [hfirsts, h.targets, List.map_append]
      rfl
    · rw [hfirsts, h.diagnostics, List.map_append]
      rfl

theorem Told.reportRefs {fs : List Finding} {w : OrderWalk} (h : Told entry fs w)
    (names refs : List Str) :
    Told entry (fs ++ findingsIn index entry names refs)
      (OrderWalk.reportRefs index entry (printed names) refs w) := by
  unfold OrderWalk.reportRefs findingsIn
  induction refs generalizing fs w with
  | nil =>
      rw [List.filterMap_nil, List.map_nil, List.append_nil]
      exact h
  | cons ref rest ih =>
      rw [List.foldl_cons]
      cases htarget : resolveTarget index entry ref with
      | none =>
          rw [List.filterMap_cons_none htarget]
          exact ih h
      | some target =>
          rw [List.filterMap_cons_some htarget, List.map_cons, List.append_cons]
          exact ih (h.report (target, names))

theorem Told.congr {fs : List Finding} {w w' : OrderWalk} (h : Told entry fs w)
    (htargets : w'.reportedTargets = w.reportedTargets)
    (hdiagnostics : w'.diagnostics = w.diagnostics) :
    Told entry fs w' := ⟨htargets.trans h.targets, hdiagnostics.trans h.diagnostics⟩

/-! ### The walk tells its findings -/

/-- The names that are met from a name at its depth. -/
def metCalled (index : GlobalIndex) (q : Str × Nat) : List Str :=
  if q.2 < kMaxDepth - 1 then calledFrom index q.1 else []

theorem followCalls_nil {w : OrderWalk} (h : w.queue = []) (fuel : Nat) :
    followCalls index entry fuel w = w := by
  cases fuel with
  | zero => rfl
  | succ fuel =>
      unfold followCalls
      rw [h]

/-- A turn of the walk. -/
theorem followCalls_cons (index : GlobalIndex) (entry : StaticInitEntry) {w : OrderWalk}
    {q : Str × Nat} {rest : List (Str × Nat)} (h : w.queue = q :: rest) (fuel : Nat) :
    ∃ w', followCalls index entry (fuel + 1) w = followCalls index entry fuel w' ∧
      w'.toCallSearch = (metCalled index q).foldl (fun s callee => s.meet callee q.1 (q.2 + 1))
        { w.toCallSearch with queue := rest } ∧
      ∀ fs, Told entry fs w →
        Told entry (fs ++ findingsIn index entry (w.names q.1) (refsOf index q.1)) w' := by
  conv in followCalls index entry (fuel + 1) w => unfold followCalls
  unfold metCalled calledFrom refsOf
  rw [h]
  dsimp only
  cases hs : index.findFunctionSummary q.1 with
  | none =>
      refine ⟨{ w with queue := rest }, rfl, ?_, fun fs hfs => ?_⟩
      · dsimp only
        rw [ite_self]
        rfl
      · rw [findingsIn, List.filterMap_nil, List.map_nil, List.append_nil]
        exact hfs.congr rfl rfl
  | some summary =>
      dsimp only
      have hsearch := reportRefs_search (g := index) entry
        (CallSearch.chain { w.toCallSearch with queue := rest } q.1) summary.referencedGlobals
        { w with queue := rest }
      have htold : ∀ fs, Told entry fs w → Told entry
          (fs ++ findingsIn index entry (w.names q.1) summary.referencedGlobals)
          (OrderWalk.reportRefs index entry
            (CallSearch.chain { w.toCallSearch with queue := rest } q.1) summary.referencedGlobals
            { w with queue := rest }) := by
        intro fs hfs
        rw [chain_eq_printed]
        exact Told.reportRefs (w := { w with queue := rest }) (hfs.congr rfl rfl) _ _
      by_cases hdepth : kMaxDepth ≤ q.2 + 1
      · have hlast : ¬ q.2 < kMaxDepth - 1 := by omega
        rw [if_neg hlast]
        refine ⟨_, if_pos hdepth, hsearch, htold⟩
      · have hbefore : q.2 < kMaxDepth - 1 := by omega
        rw [if_pos hbefore]
        refine ⟨_, if_neg hdepth, ?_, fun fs hfs => (htold fs hfs).congr rfl rfl⟩
        rw [hsearch]

theorem metCalled_sub {all : List Str}
    (hall : ∀ name s, index.findFunctionSummary name = some s → ∀ c ∈ s.calledFunctions, c ∈ all)
    (q : Str × Nat) : ∀ c ∈ metCalled index q, c ∈ all := by
  intro c hc
  unfold metCalled calledFrom at hc
  split at hc
  · cases hs : index.findFunctionSummary q.1 with
    | none => simp [hs] at hc
    | some summary =>
        rw [hs] at hc
        exact hall q.1 summary hs c hc
  · cases hc

/-- Any number of turns leaves the search in some wave. -/
theorem followCalls_stands {seeds : List Str} (fuel : Nat) {w : OrderWalk} {n : Nat}
    {done todo : List (Way Str)}
    (h : Stands (calledFrom index) (kMaxDepth - 1) seeds w.toCallSearch n done todo) :
    ∃ n' done' todo', Stands (calledFrom index) (kMaxDepth - 1) seeds
      (followCalls index entry fuel w).toCallSearch n' done' todo' := by
  induction fuel generalizing w n done todo with
  | zero => exact ⟨n, done, todo, h⟩
  | succ fuel ih =>
      cases hqueue : w.queue with
      | nil =>
          rw [followCalls_nil hqueue]
          exact ⟨n, done, todo, h⟩
      | cons q rest =>
          obtain ⟨w', hw', hsearch, -⟩ := followCalls_cons index entry hqueue fuel
          obtain ⟨n', done', v, todo', hstands, rfl, -, -⟩ := h.head hqueue
          have hcallees : metCalled index (v.1, n') =
              if n' < kMaxDepth - 1 then calledFrom index v.1 else [] := rfl
          have hturn := hstands.turn hqueue hcallees
          rw [hw']
          exact ih (hsearch ▸ hturn)

/-- **The walk comes across the findings of the ways that are left.** -/
theorem followCalls_told {all seeds : List Str}
    (hall : ∀ name s, index.findFunctionSummary name = some s → ∀ c ∈ s.calledFunctions, c ∈ all)
    (fuel : Nat) {w : OrderWalk} {fs : List Finding} {n : Nat} {done todo : List (Way Str)}
    (h : Stands (calledFrom index) (kMaxDepth - 1) seeds w.toCallSearch n done todo)
    (hroom : w.toCallSearch.room all ≤ fuel) (hfs : Told entry fs w) :
    Told entry (fs ++ (todo ++ later (calledFrom index) (kMaxDepth - 1) seeds n).flatMap
        fun v => findingsIn index entry (shown v) (refsOf index v.1))
      (followCalls index entry fuel w) ∧ (followCalls index entry fuel w).queue = [] := by
  induction fuel generalizing w fs n done todo with
  | zero =>
      have hqueue : w.queue = [] := by
        refine List.eq_nil_of_length_eq_zero ?_
        unfold room at hroom
        omega
      rw [h.eq_nil hqueue, List.flatMap_nil, List.append_nil]
      exact ⟨hfs, hqueue⟩
  | succ fuel ih =>
      cases hqueue : w.queue with
      | nil =>
          rw [followCalls_nil hqueue, h.eq_nil hqueue, List.flatMap_nil, List.append_nil]
          exact ⟨hfs, hqueue⟩
      | cons q rest =>
          obtain ⟨w', hw', hsearch, htold⟩ :=
            followCalls_cons index entry hqueue fuel
          obtain ⟨n', done', v, todo', hstands, rfl, hways, -⟩ := h.head hqueue
          have hcallees : metCalled index (v.1, n') =
              if n' < kMaxDepth - 1 then calledFrom index v.1 else [] := rfl
          have hturn := hstands.turn hqueue hcallees
          have hpop := room_pop all hqueue
          have hless := room_foldl_meet (metCalled_sub hall (v.1, n'))
            { w.toCallSearch with queue := rest } v.1 (n' + 1)
          have hroom' : w'.toCallSearch.room all ≤ fuel := by
            rw [hsearch]
            exact hless.trans (Nat.succ_le_succ_iff.mp (hpop.symm.trans_le hroom))
          have hrest := ih (hsearch ▸ hturn) hroom' (htold fs hfs)
          rw [hw', hways, List.flatMap_cons, ← List.append_assoc]
          rw [hstands.names_eq] at hrest
          exact hrest

/-- Where the walk of an initializer starts. -/
def orderStart (index : GlobalIndex) (entry : StaticInitEntry) : OrderWalk :=
  { OrderWalk.reportRefs index entry [] entry.referencedGlobals {} with
    toCallSearch := CallSearch.start entry.calledFunctions }

theorem stands_orderStart (index : GlobalIndex) (entry : StaticInitEntry) :
    Stands (calledFrom index) (kMaxDepth - 1) entry.calledFunctions
      (orderStart index entry).toCallSearch 0 []
      (wave (calledFrom index) (kMaxDepth - 1) entry.calledFunctions 0) :=
  stands_start entry.calledFunctions

theorem orderWalk_told (hwf : WF index) (entry : StaticInitEntry) :
    Told entry (findings index entry)
      (followCalls index entry (followFuel index entry) (orderStart index entry)) ∧
      (followCalls index entry (followFuel index entry) (orderStart index entry)).queue = [] := by
  have hnone : Told entry [] {} := ⟨rfl, rfl⟩
  have hdirect : Told entry (findingsIn index entry [] entry.referencedGlobals)
      (OrderWalk.reportRefs index entry [] entry.referencedGlobals {}) :=
    hnone.reportRefs [] entry.referencedGlobals
  have hall : ∀ name s, index.findFunctionSummary name = some s → ∀ c ∈ s.calledFunctions,
      c ∈ entry.calledFunctions ++ index.functionSummaries.flatMap (·.calledFunctions) := by
    intro name s hs c hc
    rw [hwf.findFunctionSummary_eq] at hs
    exact List.mem_append_right _ (List.mem_flatMap.mpr ⟨s, List.mem_of_find?_eq_some hs, hc⟩)
  have hroom : (orderStart index entry).room
      (entry.calledFunctions ++ index.functionSummaries.flatMap (·.calledFunctions)) ≤
      followFuel index entry := by
    refine (room_start fun c hc => List.mem_append_left _ hc).trans ?_
    rw [List.length_append, List.length_flatMap]
    exact Nat.le_succ _
  have htold := followCalls_told hall (followFuel index entry) (stands_orderStart index entry) hroom
    (hdirect.congr rfl rfl)
  have hfindings : findings index entry = findingsIn index entry [] entry.referencedGlobals ++
      (wave (calledFrom index) (kMaxDepth - 1) entry.calledFunctions 0 ++
        later (calledFrom index) (kMaxDepth - 1) entry.calledFunctions 0).flatMap
        fun v => findingsIn index entry (shown v) (refsOf index v.1) := by
    unfold findings calledWays
    rw [← known_later (Nat.zero_le (kMaxDepth - 1))]
    rfl
  rw [hfindings]
  exact htold

theorem orderDependencies_eq (hwf : WF index) (entry : StaticInitEntry) :
    orderDependencies index entry = (firsts (findings index entry)).map (orderPrinted entry) :=
  (orderWalk_told hwf entry).1.diagnostics

/-! ### Targets and chains -/

/-- A reference to a global of another file that is initialized dynamically. -/
def Resolves (index : GlobalIndex) (entry : StaticInitEntry) (ref : Str) (target : StaticInitEntry) :
    Prop :=
  index.findStaticInit ref = some target ∧ IsTarget entry target

/-- The initializer itself refers to the target. -/
def ReadsDirectly (index : GlobalIndex) (entry target : StaticInitEntry) : Prop :=
  ∃ ref ∈ entry.referencedGlobals, Resolves index entry ref target

/-- A chain of calls from the initializer, of fewer than 16 steps, to a function that reads the
target. -/
structure CallChain (index : GlobalIndex) (entry target : StaticInitEntry) (chain : List Str) :
    Prop where
  seed : ∃ f ∈ entry.calledFunctions, chain.head? = some f
  calls : chain.IsChain fun f callee =>
    ∃ s, index.findFunctionSummary f = some s ∧ callee ∈ s.calledFunctions
  short : chain.length ≤ kMaxDepth
  reads : ∃ f s ref, chain.getLast? = some f ∧ index.findFunctionSummary f = some s ∧
    ref ∈ s.referencedGlobals ∧ Resolves index entry ref target

/-- Each target once, the direct ones first and the others on a shortest chain. -/
structure OrderExact (index : GlobalIndex) (entry : StaticInitEntry) (reports : List Finding) :
    Prop where
  once : (reports.map (·.1.qualifiedName)).Nodup
  exact : ∀ target, (∃ names, (target, names) ∈ reports) ↔
    ReadsDirectly index entry target ∨ ∃ chain, CallChain index entry target chain
  direct : ∀ target names, (target, names) ∈ reports → ReadsDirectly index entry target → names = []
  chain : ∀ target names, (target, names) ∈ reports → ¬ ReadsDirectly index entry target →
    CallChain index entry target names ∧
      ∀ chain, CallChain index entry target chain → names.length ≤ chain.length
  sorted : reports.Pairwise fun f f' => f.2.length ≤ f'.2.length

theorem mem_findingsIn {names refs : List Str} {f : Finding} :
    f ∈ findingsIn index entry names refs ↔
      f.2 = names ∧ ∃ ref ∈ refs, Resolves index entry ref f.1 := by
  obtain ⟨target, names'⟩ := f
  unfold findingsIn Resolves
  simp only [List.mem_map, List.mem_filterMap, Prod.mk.injEq, resolveTarget_eq,
    Option.filter_eq_some_iff, decide_eq_true_eq]
  constructor
  · rintro ⟨t, ⟨ref, href, ht, hit⟩, rfl, rfl⟩
    exact ⟨rfl, ref, href, ht, hit⟩
  · rintro ⟨rfl, ref, href, ht, hit⟩
    exact ⟨target, ⟨ref, href, ht, hit⟩, rfl, rfl⟩

theorem mem_calledFrom {x y : Str} :
    y ∈ calledFrom index x ↔ ∃ s, index.findFunctionSummary x = some s ∧ y ∈ s.calledFunctions := by
  unfold calledFrom
  cases index.findFunctionSummary x with
  | none => simp
  | some s => simp

theorem mem_refsOf {x ref : Str} :
    ref ∈ refsOf index x ↔
      ∃ s, index.findFunctionSummary x = some s ∧ ref ∈ s.referencedGlobals := by
  unfold refsOf
  cases index.findFunctionSummary x with
  | none => simp
  | some s => simp

/-- Where no names are empty a way is shown whole. -/
theorem shown_of_isWay {succ : Str → List Str} {starts : List Str} (hsucc : succ [] = [])
    {w : Way Str} (h : IsWay succ starts w) : shown w = (w.1 :: w.2).reverse := by
  have hnamed : ∀ x ∈ w.2, x ≠ [] := by
    induction h with
    | start _ => exact fun x hx => absurd hx List.not_mem_nil
    | step _ hy ih =>
        intro x hx
        rcases List.mem_cons.mp hx with rfl | hx
        · intro hempty
          rw [hempty, hsucc] at hy
          cases hy
        · exact ih x hx
  unfold shown
  rw [List.takeWhile_eq_self_iff.mpr fun x hx => decide_eq_true (hnamed x hx)]

theorem Resolves.unique (hwf : WF index) {ref ref' : Str} {target target' : StaticInitEntry}
    (h : Resolves index entry ref target) (h' : Resolves index entry ref' target')
    (hname : target.qualifiedName = target'.qualifiedName) : target = target' := by
  have hfind : ∀ {ref target}, Resolves index entry ref target → target.qualifiedName = ref := by
    intro ref target h
    have hsome := h.1
    rw [hwf.findStaticInit_eq] at hsome
    simpa using List.find?_some hsome
  have hsame := h.1
  rw [← hfind h, hname, hfind h', h'.1] at hsame
  exact (Option.some.inj hsame).symm

/-- Every finding resolves from some reference. -/
theorem resolves_of_mem {f : Finding} (h : f ∈ findings index entry) :
    ∃ ref, Resolves index entry ref f.1 := by
  rcases List.mem_append.mp h with h | h
  · obtain ⟨-, ref, -, hit⟩ := mem_findingsIn.mp h
    exact ⟨ref, hit⟩
  · obtain ⟨_, -, h⟩ := List.mem_flatMap.mp h
    obtain ⟨-, ref, -, hit⟩ := mem_findingsIn.mp h
    exact ⟨ref, hit⟩

theorem isWay_of_mem_calledWays {w : Way Str} (h : w ∈ calledWays index entry) :
    IsWay (calledFrom index) entry.calledFunctions w ∧ w.2.length ≤ kMaxDepth - 1 := by
  obtain ⟨k, hk, hwave⟩ := mem_known_iff.mp h
  obtain ⟨hway, hlength⟩ := isWay_of_mem_wave hwave
  exact ⟨hway, hlength.trans_le hk⟩

theorem calledFrom_nil (hnamed : index.findFunctionSummary [] = none) : calledFrom index [] = [] := by
  unfold calledFrom
  rw [hnamed]

theorem sorted_findings (hnamed : index.findFunctionSummary [] = none) :
    (findings index entry).Pairwise fun f f' => f.2.length ≤ f'.2.length := by
  have hin : ∀ names refs, (findingsIn index entry names refs).Pairwise
      fun f f' => f.2.length ≤ f'.2.length := by
    intro names refs
    refine List.pairwise_of_forall_mem_list fun f hf f' hf' => ?_
    rw [(mem_findingsIn.mp hf).1, (mem_findingsIn.mp hf').1]
  refine List.pairwise_append.mpr ⟨hin _ _, List.pairwise_flatMap.mpr ⟨fun _ _ => hin _ _, ?_⟩, ?_⟩
  · refine (sorted_known _).imp_of_mem fun {w v} hw hv hle f hf f' hf' => ?_
    rw [(mem_findingsIn.mp hf).1, (mem_findingsIn.mp hf').1,
      shown_of_isWay (calledFrom_nil hnamed) (isWay_of_mem_calledWays hw).1,
      shown_of_isWay (calledFrom_nil hnamed) (isWay_of_mem_calledWays hv).1]
    simpa using hle
  · intro f hf f' _
    rw [(mem_findingsIn.mp hf).1]
    exact Nat.zero_le _

/-- A finding behind calls has a chain of calls. -/
theorem callChain_of_mem (hnamed : index.findFunctionSummary [] = none) {w : Way Str}
    (hw : w ∈ calledWays index entry) {f : Finding}
    (hf : f ∈ findingsIn index entry (shown w) (refsOf index w.1)) :
    CallChain index entry f.1 f.2 := by
  obtain ⟨hway, hshort⟩ := isWay_of_mem_calledWays hw
  obtain ⟨hnames, ref, href, hit⟩ := mem_findingsIn.mp hf
  obtain ⟨s, hs, href⟩ := mem_refsOf.mp href
  rw [hnames, shown_of_isWay (calledFrom_nil hnamed) hway]
  obtain ⟨hchain, g, hg, hhead⟩ := isWay_iff_reverse.mp hway
  refine ⟨⟨g, hg, hhead⟩, hchain.imp fun x y hy => mem_calledFrom.mp hy, ?_,
    w.1, s, ref, ?_, hs, href, hit⟩
  · rw [List.length_reverse, List.length_cons]
    unfold kMaxDepth at hshort ⊢
    omega
  · rw [List.getLast?_reverse]
    rfl

/-- A target behind a chain is found, on no longer a chain. -/
theorem CallChain.found (hnamed : index.findFunctionSummary [] = none) {target : StaticInitEntry}
    {chain : List Str} (h : CallChain index entry target chain) :
    ∃ names, (target, names) ∈ findings index entry ∧ names.length ≤ chain.length := by
  obtain ⟨f, hf, hhead⟩ := h.seed
  obtain ⟨last, s, ref, hlast, hs, href, hit⟩ := h.reads
  have hne : chain ≠ [] := List.ne_nil_of_mem (List.mem_of_mem_head? hhead)
  obtain ⟨w, rfl⟩ := exists_way_eq_reverse hne
  rw [List.getLast?_reverse] at hlast
  obtain rfl : w.1 = last := Option.some.inj hlast
  have hway : IsWay (calledFrom index) entry.calledFunctions w :=
    isWay_iff_reverse.mpr ⟨h.calls.imp fun x y hy => mem_calledFrom.mpr hy, f, hf, hhead⟩
  have hshort := h.short
  rw [List.length_reverse, List.length_cons] at hshort
  have hcap : w.2.length ≤ kMaxDepth - 1 := by omega
  obtain ⟨v, hv, hend⟩ := List.mem_map.mp (known_of_isWay hway hcap)
  have hknown : v ∈ calledWays index entry := known_mono hcap hv
  refine ⟨shown v, List.mem_append_right _ (List.mem_flatMap.mpr ⟨v, hknown, ?_⟩), ?_⟩
  · exact mem_findingsIn.mpr ⟨rfl, ref, mem_refsOf.mpr ⟨s, hend ▸ hs, href⟩, hit⟩
  · rw [shown_of_isWay (calledFrom_nil hnamed) (isWay_of_mem_calledWays hknown).1]
    simpa using length_le_of_mem_known hv

/-- **The first findings are the targets, each once and on a shortest chain.** -/
theorem orderExact_firsts (hwf : WF index) (hnamed : index.findFunctionSummary [] = none) :
    OrderExact index entry (firsts (findings index entry)) := by
  have hsub : ∀ f ∈ firsts (findings index entry), f ∈ findings index entry :=
    fun f hf => mem_of_mem_foldl_first hf
  have hdirect : ∀ {target}, ReadsDirectly index entry target →
      (target, ([] : List Str)) ∈ findings index entry := fun ⟨ref, href, hit⟩ =>
    List.mem_append_left _ (mem_findingsIn.mpr ⟨rfl, ref, href, hit⟩)
  -- the finding that is reported for a target is the first, so a shortest
  have hshortest : ∀ {target names names'}, (target, names) ∈ firsts (findings index entry) →
      (target, names') ∈ findings index entry → names.length ≤ names'.length := by
    intro target names names' hfirst hfound
    rcases before_of_mem_foldl_first (sorted_findings hnamed) hfirst hfound rfl with heq | hle
    · rw [(Prod.mk.inj heq).2]
    · exact hle
  -- and some finding is reported for it
  have hreported : ∀ {target names}, (target, names) ∈ findings index entry →
      ∃ names', (target, names') ∈ firsts (findings index entry) := by
    intro target names hfound
    obtain ⟨⟨target', names'⟩, hfirst, hname⟩ :=
      exists_mem_foldl_first (fun f : Finding => f.1.qualifiedName) hfound
    obtain ⟨ref, hit⟩ := resolves_of_mem hfound
    obtain ⟨ref', hit'⟩ := resolves_of_mem (hsub _ hfirst)
    obtain rfl := hit'.unique hwf hit hname
    exact ⟨names', hfirst⟩
  refine ⟨nodup_foldl_put (merges_first _) _ List.nodup_nil, fun target => ⟨?_, ?_⟩, ?_, ?_,
    (sorted_findings hnamed).sublist (sublist_foldl_first _ _)⟩
  · rintro ⟨names, hfirst⟩
    rcases List.mem_append.mp (hsub _ hfirst) with hfound | hfound
    · exact Or.inl (mem_findingsIn.mp hfound).2
    · obtain ⟨w, hw, hfound⟩ := List.mem_flatMap.mp hfound
      exact Or.inr ⟨names, callChain_of_mem hnamed hw hfound⟩
  · rintro (hreads | ⟨chain, hchain⟩)
    · exact hreported (hdirect hreads)
    · obtain ⟨names, hfound, -⟩ := hchain.found hnamed
      exact hreported hfound
  · intro target names hfirst hreads
    exact List.eq_nil_of_length_eq_zero (Nat.le_zero.mp (hshortest hfirst (hdirect hreads)))
  · intro target names hfirst hnot
    rcases List.mem_append.mp (hsub _ hfirst) with hfound | hfound
    · exact absurd (mem_findingsIn.mp hfound).2 hnot
    · obtain ⟨w, hw, hfound⟩ := List.mem_flatMap.mp hfound
      refine ⟨callChain_of_mem hnamed hw hfound, fun chain hchain => ?_⟩
      obtain ⟨names', hfound', hle⟩ := hchain.found hnamed
      exact (hshortest hfirst hfound').trans hle

/-! ### Meeting names up to a hazard -/

namespace StaticInitHazards

variable {hazards : List Str} {graph : CallGraph} {root : StaticInitEntry}

/-- Without a hazard among the new names they are all met. -/
theorem meetAll_none {s : HazardSearch} {ws : List (Way Str)} (h : s.Met ws) (trail : List Str)
    (depth : Nat) (names : List Str)
    (hnone : (firstNew (ws.map (·.1)) (names.map fun y => (y, trail))).find?
      (fun w => decide (w.1 ∈ hazards)) = none) :
    meetAll hazards (trail.headD []) depth names s =
      { s with
        toCallSearch := names.foldl (fun s c => s.meet c (trail.headD []) depth) s.toCallSearch } := by
  induction names generalizing s ws with
  | nil => rfl
  | cons name rest ih =>
      unfold meetAll
      by_cases hold : name ∈ ws.map (·.1)
      · rw [List.map_cons, firstNew_old hold] at hnone
        rw [if_pos ((h.only name).mpr hold), List.foldl_cons, h.meet_old hold]
        exact ih h hnone
      · rw [List.map_cons, firstNew_new hold] at hnone
        have hsafe := List.find?_eq_none.mp hnone
        have hnotin : ¬ name ∈ hazards := by simpa using hsafe _ List.mem_cons_self
        have hfresh : ¬ (s.parent.lookup name).isSome = true := fun hc => hold ((h.only name).mp hc)
        obtain ⟨hmet, -⟩ := h.meet_new (w := (name, trail)) hold depth
        rw [if_neg hfresh, List.foldl_cons]
        dsimp only
        rw [if_neg hnotin]
        rw [h.meet_fresh hold] at hmet ⊢
        refine ih (s := { s with
          parent := s.parent.insert name (trail.headD [])
          queue := s.queue ++ [(name, depth)] }) hmet (List.find?_eq_none.mpr ?_)
        rw [List.map_append]
        exact fun w hw => hsafe w (List.mem_cons_of_mem _ hw)

/-- The first hazard among the new names is the hit; what comes before it is met too. -/
theorem meetAll_some {s : HazardSearch} {ws : List (Way Str)} (h : s.Met ws) (trail : List Str)
    (depth : Nat) (names : List Str) {w : Way Str}
    (hsome : (firstNew (ws.map (·.1)) (names.map fun y => (y, trail))).find?
      (fun w => decide (w.1 ∈ hazards)) = some w) :
    (meetAll hazards (trail.headD []) depth names s).hit = w.1 ∧
      ∃ before after, firstNew (ws.map (·.1)) (names.map fun y => (y, trail)) =
          before ++ w :: after ∧
        (meetAll hazards (trail.headD []) depth names s).Met (ws ++ (before ++ [w])) := by
  induction names generalizing s ws with
  | nil => cases hsome
  | cons name rest ih =>
      unfold meetAll
      by_cases hold : name ∈ ws.map (·.1)
      · rw [List.map_cons, firstNew_old hold] at hsome ⊢
        rw [if_pos ((h.only name).mpr hold)]
        exact ih h hsome
      · rw [List.map_cons, firstNew_new hold] at hsome ⊢
        have hfresh : ¬ (s.parent.lookup name).isSome = true := fun hc => hold ((h.only name).mp hc)
        obtain ⟨hmet, -⟩ := h.meet_new (w := (name, trail)) hold depth
        rw [h.meet_fresh hold] at hmet
        rw [if_neg hfresh]
        dsimp only
        by_cases hhit : name ∈ hazards
        · rw [List.find?_cons_of_pos (by simpa using hhit)] at hsome
          obtain rfl := Option.some.inj hsome
          rw [if_pos hhit]
          exact ⟨rfl, [], _, rfl, hmet.parent, hmet.only⟩
        · rw [List.find?_cons_of_neg (by simpa using hhit)] at hsome
          rw [if_neg hhit]
          have hsome' : (firstNew ((ws ++ [(name, trail)]).map (·.1))
              (rest.map fun y => (y, trail))).find? (fun w => decide (w.1 ∈ hazards)) = some w := by
            rw [List.map_append]
            exact hsome
          obtain ⟨hw, before, after, hsplit, hmet'⟩ := ih (s := { s with
            parent := s.parent.insert name (trail.headD [])
            queue := s.queue ++ [(name, depth)] }) hmet hsome'
          refine ⟨hw, (name, trail) :: before, after, ?_, ?_⟩
          · rw [List.map_append] at hsplit
            exact congrArg ((name, trail) :: ·) hsplit
          · rw [List.append_assoc] at hmet'
            exact hmet'

/-! ### The search for a hazard

The search stops in the middle of a wave, so its state is described by the ways
that were worked off before.
-/

/-- The display names of what a function calls. -/
def calleeNames (graph : CallGraph) (name : Str) : List Str :=
  (graph.calleesOf name).map (·.calleeName)

/-- The first way to a hazard, wave by wave. -/
def hazardWay (hazards : List Str) (graph : CallGraph) (root : StaticInitEntry) :
    Option (Way Str) :=
  (known (calleeNames graph) kMaxDepth (seeds root) kMaxDepth).find?
    fun w => decide (w.1 ∈ hazards)

/-- The search ends with a hit on the first way to a hazard, or with none. -/
structure EndsWith (found : Option (Way Str)) (s : HazardSearch) : Prop where
  ended : s.hit ≠ [] ∨ s.queue = []
  none : found = none → s.hit = []
  some : ∀ w, found = some w → s.hit = w.1 ∧ s.names w.1 = shown w ∧
    ∃ k, (fun cur => s.parent.getD cur [])^[k] s.hit = []

theorem endsWith_none {s : HazardSearch} (hqueue : s.queue = []) (hhit : s.hit = []) :
    EndsWith none s := ⟨Or.inr hqueue, fun _ => hhit, fun _ h => nomatch h⟩

theorem endsWith_some {s : HazardSearch} {ws : List (Way Str)} (h : s.Met ws) {w : Way Str}
    (hne : s.hit ≠ []) (hhit : s.hit = w.1) (hbehind : ∀ y x back, (y, x :: back) ∈ ws → (x, back) ∈ ws)
    (hw : w ∈ ws) (hnodup : w.2.Nodup) (hknown : ∀ x ∈ w.2, x ∈ ws.map (·.1)) :
    EndsWith (some w) s := by
  refine ⟨Or.inl hne, fun hc => ?_, fun v hv => ?_⟩
  · cases hc
  obtain rfl := Option.some.inj hv
  refine ⟨hhit, h.names_eq hbehind hw hnodup hknown, ?_⟩
  rw [hhit]
  exact h.loop_ends hbehind hw

theorem followCallees_hit {s : HazardSearch} (h : s.hit ≠ []) (fuel : Nat) :
    followCallees hazards graph fuel s = s := by
  cases fuel with
  | zero => rfl
  | succ fuel => rw [followCallees, if_pos h]

theorem followCallees_nil {s : HazardSearch} (h : s.queue = []) (fuel : Nat) :
    followCallees hazards graph fuel s = s := by
  cases fuel with
  | zero => rfl
  | succ fuel =>
      unfold followCallees
      rw [h]
      exact ite_self _

/-- The names that working off a name of wave `n` meets. -/
def turnNames (graph : CallGraph) (n : Nat) (name : Str) : List Str :=
  if n < kMaxDepth then calleeNames graph name else []

theorem followCallees_cons {s : HazardSearch} (hhit : s.hit = []) {q : Str × Nat}
    {rest : List (Str × Nat)} (h : s.queue = q :: rest) (fuel : Nat) :
    followCallees hazards graph (fuel + 1) s = followCallees hazards graph fuel
      (meetAll hazards q.1 (q.2 + 1) (turnNames graph q.2 q.1) { s with queue := rest }) := by
  conv_lhs => unfold followCallees
  rw [if_neg (fun hc => hc hhit), h]
  dsimp only
  unfold turnNames
  by_cases hdepth : kMaxDepth ≤ q.2
  · rw [if_pos hdepth, if_neg (Nat.not_lt.mpr hdepth)]
    rfl
  · rw [if_neg hdepth, if_pos (Nat.not_le.mp hdepth)]
    rfl

/-- The ways met once the ways `done` of wave `n` are worked off. -/
def metWays (graph : CallGraph) (root : StaticInitEntry) (n : Nat) (done : List (Way Str)) :
    List (Way Str) :=
  known (calleeNames graph) kMaxDepth (seeds root) n ++
    aheadOf (calleeNames graph) kMaxDepth (seeds root) n done

/-- The ways that working off another one adds to them. -/
def newWays (graph : CallGraph) (root : StaticInitEntry) (n : Nat) (done : List (Way Str))
    (v : Way Str) : List (Way Str) :=
  firstNew ((metWays graph root n done).map (·.1))
    ((turnNames graph n v.1).map fun y => (y, v.1 :: v.2))

theorem metWays_append (n : Nat) (done : List (Way Str)) (v : Way Str) :
    metWays graph root n (done ++ [v]) = metWays graph root n done ++ newWays graph root n done v := by
  have happend : aheadOf (calleeNames graph) kMaxDepth (seeds root) n (done ++ [v]) =
      aheadOf (calleeNames graph) kMaxDepth (seeds root) n done ++ newWays graph root n done v :=
    aheadOf_append done v
  rw [metWays, happend, ← List.append_assoc]
  rfl

/-- With an empty queue and no hazard met there is no way to one. -/
theorem hazardWay_none {s : CallSearch} {n : Nat} {done todo : List (Way Str)}
    (h : Stands (calleeNames graph) kMaxDepth (seeds root) s n done todo) (hqueue : s.queue = [])
    (hsafe : (metWays graph root n done).find? (fun w => decide (w.1 ∈ hazards)) = none) :
    hazardWay hazards graph root = none := by
  unfold hazardWay
  rw [← known_later h.bound, (List.append_eq_nil_iff.mp (h.eq_nil hqueue)).2, List.append_nil]
  rw [metWays, List.find?_append] at hsafe
  exact (Option.or_eq_none_iff.mp hsafe).1

/-- A hazard is met by a turn that may meet names. -/
theorem lt_of_find_newWays {n : Nat} {done : List (Way Str)} {v w : Way Str}
    (hfind : (newWays graph root n done v).find? (fun w => decide (w.1 ∈ hazards)) = some w) :
    n < kMaxDepth := by
  by_contra hcap
  rw [newWays, turnNames, if_neg hcap] at hfind
  cases hfind

/-- The first hazard among the new ends of a way is the end of the first way to one. -/
theorem hazardWay_some {n : Nat} {done todo : List (Way Str)} {v w : Way Str}
    (hwave : wave (calleeNames graph) kMaxDepth (seeds root) n = done ++ v :: todo)
    (hsafe : (metWays graph root n done).find? (fun w => decide (w.1 ∈ hazards)) = none)
    (hfind : (newWays graph root n done v).find? (fun w => decide (w.1 ∈ hazards)) = some w) :
    hazardWay hazards graph root = some w := by
  have hcap := lt_of_find_newWays hfind
  rw [List.append_cons] at hwave
  obtain ⟨rest, hrest⟩ := aheadOf_first hcap hwave
  have hways : known (calleeNames graph) kMaxDepth (seeds root) (n + 1) =
      metWays graph root n done ++ newWays graph root n done v ++ rest := by
    rw [known_succ, hrest, ← List.append_assoc, ← metWays_append]
    rfl
  unfold hazardWay
  rw [← known_later (Nat.succ_le_of_lt hcap), hways, List.append_assoc, List.append_assoc,
    List.find?_append, List.find?_append, hsafe, hfind]
  rfl

/-- A turn that meets a hazard ends the search with the first way to one. -/
theorem meetAll_ends (hempty : [] ∉ hazards) {s : HazardSearch} {n : Nat}
    {done todo : List (Way Str)} {v w : Way Str} (hmet : s.Met (metWays graph root n done))
    (hwave : wave (calleeNames graph) kMaxDepth (seeds root) n = done ++ v :: todo)
    (hsafe : (metWays graph root n done).find? (fun w => decide (w.1 ∈ hazards)) = none)
    (hfind : (newWays graph root n done v).find? (fun w => decide (w.1 ∈ hazards)) = some w) :
    (meetAll hazards v.1 (n + 1) (turnNames graph n v.1) s).hit ≠ [] ∧
      EndsWith (hazardWay hazards graph root)
        (meetAll hazards v.1 (n + 1) (turnNames graph n v.1) s) := by
  obtain ⟨hw, before, after, hsplit, hmet'⟩ :=
    meetAll_some hmet (v.1 :: v.2) (n + 1) (turnNames graph n v.1) hfind
  rw [List.headD_cons] at hw hmet'
  have hhazard : w.1 ∈ hazards := by simpa using List.find?_some hfind
  have hne : (meetAll hazards v.1 (n + 1) (turnNames graph n v.1) s).hit ≠ [] := by
    rw [hw]
    exact fun hc => hempty (hc ▸ hhazard)
  have hmem : ∀ u ∈ done ++ [v], u ∈ wave (calleeNames graph) kMaxDepth (seeds root) n := by
    intro u hu
    rw [hwave, List.append_cons]
    exact List.mem_append_left _ hu
  -- What is met by the turn is met by working off the whole way.
  have hsub : ∀ u ∈ metWays graph root n done ++ (before ++ [w]),
      u ∈ metWays graph root n (done ++ [v]) := by
    intro u hu
    rw [metWays_append, newWays, hsplit, List.append_cons, ← List.append_assoc]
    exact List.mem_append_left _ hu
  have hlast : w ∈ metWays graph root n done ++ (before ++ [w]) :=
    List.mem_append_right _ (List.mem_append_right _ (List.mem_singleton.mpr rfl))
  have hbehind : ∀ y x back, (y, x :: back) ∈ metWays graph root n done ++ (before ++ [w]) →
      (x, back) ∈ metWays graph root n done ++ (before ++ [w]) := fun y x back hb =>
    List.mem_append_left _ (List.mem_append_left _ (behind_aheadOf hmem (hsub _ hb)))
  have hnew : w ∈ newWays graph root n done v := List.mem_of_find?_eq_some hfind
  have hback : w.2 = v.1 :: v.2 := by
    obtain ⟨y, -, rfl⟩ := List.mem_map.mp (mem_firstNew hnew).1
    rfl
  obtain ⟨hnodup, hknown⟩ := nodup_of_mem_wave (hmem v (List.mem_append_right _ (by simp)))
  refine ⟨hne, ?_⟩
  rw [hazardWay_some hwave hsafe hfind]
  refine endsWith_some hmet' hne hw hbehind hlast (hback ▸ hnodup) (fun x hx => ?_)
  rw [hback] at hx
  rw [List.map_append, metWays, List.map_append]
  exact List.mem_append_left _ (List.mem_append_left _ (hknown x hx))

/-- **The search comes to the first way to a hazard.** -/
theorem followCallees_ends (hempty : [] ∉ hazards) {all : List Str}
    (hall : ∀ name, ∀ c ∈ calleeNames graph name, c ∈ all) (fuel : Nat) {s : HazardSearch} {n : Nat}
    {done todo : List (Way Str)}
    (h : Stands (calleeNames graph) kMaxDepth (seeds root) s.toCallSearch n done todo)
    (hroom : s.toCallSearch.room all ≤ fuel) (hhit : s.hit = [])
    (hsafe : (metWays graph root n done).find? (fun w => decide (w.1 ∈ hazards)) = none) :
    EndsWith (hazardWay hazards graph root) (followCallees hazards graph fuel s) := by
  induction fuel generalizing s n done todo with
  | zero =>
      have hqueue : s.queue = [] := by
        refine List.eq_nil_of_length_eq_zero ?_
        unfold room at hroom
        omega
      rw [followCallees_nil hqueue, hazardWay_none h hqueue hsafe]
      exact endsWith_none hqueue hhit
  | succ fuel ih =>
      cases hqueue : s.queue with
      | nil =>
          rw [followCallees_nil hqueue, hazardWay_none h hqueue hsafe]
          exact endsWith_none hqueue hhit
      | cons q rest =>
          obtain ⟨n', done', v, todo', hstands, rfl, -, hmetways⟩ := h.head hqueue
          change metWays graph root n' done' = metWays graph root n done at hmetways
          rw [← hmetways] at hsafe
          rw [followCallees_cons hhit hqueue]
          have hmet : ({ s with queue := rest } : HazardSearch).Met (metWays graph root n' done') :=
            ⟨hstands.met.parent, hstands.met.only⟩
          cases hfind : (newWays graph root n' done' v).find?
              (fun w => decide (w.1 ∈ hazards)) with
          | none =>
              have hmeet := meetAll_none hmet (v.1 :: v.2) (n' + 1) (turnNames graph n' v.1) hfind
              rw [List.headD_cons] at hmeet
              dsimp only
              rw [hmeet]
              have hturn := hstands.turn hqueue (rfl : turnNames graph n' v.1 = _)
              have hpop := room_pop all hqueue
              have hin : ∀ c ∈ turnNames graph n' v.1, c ∈ all := by
                intro c hc
                unfold turnNames at hc
                split at hc
                · exact hall v.1 c hc
                · cases hc
              have hless := room_foldl_meet hin { s.toCallSearch with queue := rest } v.1 (n' + 1)
              refine ih hturn (hless.trans (Nat.succ_le_succ_iff.mp (hpop.symm.trans_le hroom)))
                hhit ?_
              rw [metWays_append, List.find?_append, hsafe, hfind]
              rfl
          | some w =>
              obtain ⟨hne, hends⟩ := meetAll_ends hempty hmet hstands.wave hsafe hfind
              rw [followCallees_hit hne]
              exact hends

theorem mem_calleeNames {x y : Str} :
    y ∈ calleeNames graph x ↔ ∃ e ∈ graph.calleesOf x, e.calleeName = y := List.mem_map

/-- The names a search may meet. -/
def allNames (graph : CallGraph) (root : StaticInitEntry) : List Str :=
  seeds root ++ ([] :: graph.interner.strings ++ graph.nodes.entries.map (·.2.qualifiedName))

theorem length_allNames (graph : CallGraph) (root : StaticInitEntry) :
    (allNames graph root).length = followFuel graph root := by
  unfold allNames followFuel CallGraph.nodeCount StringInterner.size
  simp only [List.length_append, List.length_cons, List.length_map]
  omega

theorem calleeNames_sub (name : Str) : ∀ c ∈ calleeNames graph name, c ∈ allNames graph root := by
  intro c hc
  obtain ⟨e, he, rfl⟩ := mem_calleeNames.mp hc
  obtain ⟨_, -, hrefs⟩ := List.mem_flatMap.mp he
  obtain ⟨ref, -, rfl⟩ := List.mem_map.mp hrefs
  refine List.mem_append_right _ ?_
  change graph.displayFor ref.callee ∈ _
  unfold CallGraph.displayFor
  cases hnode : graph.nodes.lookup ref.callee with
  | none => exact List.mem_append_left _ (StringInterner.resolve_mem_strings _ ref.callee)
  | some node =>
      refine List.mem_append_right _ (List.mem_map.mpr ⟨⟨ref.callee, node⟩, ?_, rfl⟩)
      exact (UMap.mem_entries _ _ _).mpr hnode

theorem search_ends (hempty : [] ∉ hazards) (graph : CallGraph) (root : StaticInitEntry) :
    EndsWith (hazardWay hazards graph root) (search hazards graph root) := by
  have hmet : CallSearch.Met ({} : HazardSearch).toCallSearch [] :=
    ⟨fun _ hw => absurd hw List.not_mem_nil, fun x => by simp⟩
  unfold search
  cases hfind : (wave (calleeNames graph) kMaxDepth (seeds root) 0).find?
      (fun w => decide (w.1 ∈ hazards)) with
  | none =>
      have hmeet := meetAll_none hmet [] 0 (seeds root) hfind
      rw [List.headD_nil] at hmeet
      rw [hmeet]
      have hroom : (CallSearch.start (seeds root)).room (allNames graph root) ≤
          followFuel graph root :=
        (room_start fun c hc => List.mem_append_left _ hc).trans (length_allNames graph root).le
      refine followCallees_ends hempty calleeNames_sub _ (stands_start (seeds root)) hroom rfl ?_
      rw [metWays, aheadOf_nil, List.append_nil]
      exact hfind
  | some w =>
      obtain ⟨hw, before, after, hsplit, hmet'⟩ := meetAll_some hmet [] 0 (seeds root) hfind
      have hhazard : w.1 ∈ hazards := by simpa using List.find?_some hfind
      have hne : (meetAll hazards [] 0 (seeds root) {}).hit ≠ [] := by
        rw [show (meetAll hazards [] 0 (seeds root) {}).hit = w.1 from hw]
        exact fun hc => hempty (hc ▸ hhazard)
      have hfound : hazardWay hazards graph root = some w := by
        unfold hazardWay
        rw [← known_later (Nat.zero_le kMaxDepth), List.find?_append]
        change Option.or ((wave (calleeNames graph) kMaxDepth (seeds root) 0).find? _) _ = _
        rw [hfind]
        rfl
      have hstart : ∀ u ∈ before ++ [w], u.2 = [] := by
        intro u hu
        have hin : u ∈ wave (calleeNames graph) kMaxDepth (seeds root) 0 := by
          change u ∈ firstNew [] _
          rw [show firstNew [] ((seeds root).map fun y => (y, ([] : List Str))) = _ from hsplit,
            List.append_cons]
          exact List.mem_append_left _ hu
        exact (mem_wave_zero hin).2
      have hlast : w ∈ before ++ [w] := List.mem_append_right _ (List.mem_singleton.mpr rfl)
      rw [followCallees_hit hne, hfound]
      refine endsWith_some hmet' hne hw (fun y x back hb => ?_) hlast ?_ ?_
      · exact absurd (hstart _ hb) (List.cons_ne_nil _ _)
      · rw [hstart w hlast]
        exact List.nodup_nil
      · rw [hstart w hlast]
        exact fun x hx => absurd hx List.not_mem_nil

/-! ### Hazards that are reported -/

theorem hazardsOf_bare (h : seeds root = []) : hazardsOf hazards graph root = [] := by
  have hsearch : search hazards graph root = {} := by
    unfold search
    rw [h]
    exact followCallees_nil rfl _
  unfold hazardsOf
  rw [hsearch]
  rfl

/-- A chain of callees, of at most 25 steps, from a seed to a hazard. -/
structure HazardChain (hazards : List Str) (graph : CallGraph) (root : StaticInitEntry)
    (chain : List Str) : Prop where
  seed : ∃ f ∈ seeds root, chain.head? = some f
  calls : chain.IsChain fun f callee => ∃ e ∈ graph.calleesOf f, e.calleeName = callee
  short : chain.length ≤ kMaxDepth + 1
  hazard : ∃ f ∈ hazards, chain.getLast? = some f

/-- The chain that is reported, read from the seed. -/
def hazardReport (hazards : List Str) (graph : CallGraph) (root : StaticInitEntry) :
    Option (List Str) :=
  (hazardWay hazards graph root).map fun w => (w.1 :: w.2).reverse

/-- The report for a chain to a hazard. -/
def hazardPrinted (root : StaticInitEntry) (names : List Str) : Diagnostic :=
  hazardDiagnostic root (names.getLastD []) (printed names)

/-- Reported when there is a chain, and then with a shortest one. -/
structure HazardExact (hazards : List Str) (graph : CallGraph) (root : StaticInitEntry)
    (report : Option (List Str)) : Prop where
  reported : report.isSome = true ↔ ∃ chain, HazardChain hazards graph root chain
  chain : ∀ names, report = some names → HazardChain hazards graph root names ∧
    ∀ chain, HazardChain hazards graph root chain → names.length ≤ chain.length

theorem hazardsOf_eq (hempty : [] ∉ hazards) (hnamed : graph.calleesOf [] = [])
    (root : StaticInitEntry) :
    hazardsOf hazards graph root =
      (hazardReport hazards graph root).toList.map (hazardPrinted root) := by
  have hends := search_ends hempty graph root
  unfold hazardsOf hazardReport
  generalize search hazards graph root = s at hends
  cases hway : hazardWay hazards graph root with
  | none =>
      rw [hway] at hends
      dsimp only
      rw [if_pos (hends.none rfl)]
      rfl
  | some w =>
      rw [hway] at hends
      obtain ⟨hhit, hnames, -⟩ := hends.some w rfl
      obtain ⟨hhazard, hisway, -, -⟩ :=
        find_shortest (p := fun x => decide (x ∈ hazards)) hway
      have hne : w.1 ≠ [] := fun hc => hempty (hc ▸ of_decide_eq_true hhazard)
      have hsucc : calleeNames graph [] = [] := by
        unfold calleeNames
        rw [hnamed]
        rfl
      rw [shown_of_isWay hsucc hisway] at hnames
      dsimp only
      rw [hhit, if_neg hne, chain_eq_printed, hnames]
      unfold hazardPrinted
      simp

theorem hazardExact_report (root : StaticInitEntry) :
    HazardExact hazards graph root (hazardReport hazards graph root) := by
  -- a chain is a way, read from the front
  have hways : ∀ chain, HazardChain hazards graph root chain ↔ ∃ w : Way Str,
      chain = (w.1 :: w.2).reverse ∧ IsWay (calleeNames graph) (seeds root) w ∧
      w.2.length ≤ kMaxDepth ∧ w.1 ∈ hazards := by
    intro chain
    constructor
    · intro h
      obtain ⟨f, hf, hhead⟩ := h.seed
      obtain ⟨last, hhazard, hlast⟩ := h.hazard
      obtain ⟨w, rfl⟩ := exists_way_eq_reverse (List.ne_nil_of_mem (List.mem_of_mem_head? hhead))
      rw [List.getLast?_reverse] at hlast
      obtain rfl : w.1 = last := Option.some.inj hlast
      have hshort := h.short
      rw [List.length_reverse, List.length_cons] at hshort
      exact ⟨w, rfl, isWay_iff_reverse.mpr
        ⟨h.calls.imp fun x y hy => mem_calleeNames.mpr hy, f, hf, hhead⟩, by omega, hhazard⟩
    · rintro ⟨w, rfl, hway, hshort, hhazard⟩
      obtain ⟨hchain, f, hf, hhead⟩ := isWay_iff_reverse.mp hway
      refine ⟨⟨f, hf, hhead⟩, hchain.imp fun x y hy => mem_calleeNames.mp hy, ?_,
        w.1, hhazard, by rw [List.getLast?_reverse]; rfl⟩
      rw [List.length_reverse, List.length_cons]
      omega
  unfold hazardReport
  cases hway : hazardWay hazards graph root with
  | none =>
      refine ⟨⟨fun h => (nomatch h), ?_⟩, fun _ h => (nomatch h)⟩
      rintro ⟨chain, hchain⟩
      obtain ⟨w, -, hisway, hshort, hhazard⟩ := (hways chain).mp hchain
      have hnone := find_none (p := fun x => decide (x ∈ hazards)) hway hisway hshort
      exact absurd hhazard (by simpa using hnone)
  | some w =>
      obtain ⟨hhazard, hisway, hshort, hshortest⟩ :=
        find_shortest (p := fun x => decide (x ∈ hazards)) hway
      have hchain := (hways _).mpr ⟨w, rfl, hisway, hshort, by simpa using hhazard⟩
      refine ⟨⟨fun _ => ⟨_, hchain⟩, fun _ => rfl⟩, fun names hnames => ?_⟩
      obtain rfl := Option.some.inj hnames
      refine ⟨hchain, fun chain hother => ?_⟩
      obtain ⟨v, rfl, hvway, -, hvhazard⟩ := (hways chain).mp hother
      simpa using hshortest v hvway (by simpa using hvhazard)

end StaticInitHazards

/-! ### The checks as a whole -/

/-- Every dynamic initializer of a variable, with its exact reports. -/
def OrderSearchExact (index : GlobalIndex) : Prop :=
  ∃ (entries : List StaticInitEntry) (reports : StaticInitEntry → List Finding),
    entries.Perm (index.staticInits.filter fun e => e.dynamicInit && !e.isConstructorFn) ∧
    analyzeStaticInitOrder index = entries.flatMap (fun e => (reports e).map (orderPrinted e)) ∧
    ∀ e ∈ entries, OrderExact index e (reports e)

open StaticInitHazards in
/-- Every dynamic initializer and constructor function, with its exact report. -/
def HazardSearchExact (index : GlobalIndex) (graph : CallGraph) (added : List Str) : Prop :=
  ∃ (roots : List StaticInitEntry) (report : StaticInitEntry → Option (List Str)),
    roots.Perm (index.staticInits.filter (·.dynamicInit)) ∧
    analyzeStaticInitHazards index graph added =
      roots.flatMap (fun e => (report e).toList.map (hazardPrinted e)) ∧
    ∀ e ∈ roots, HazardExact (hazards added) graph e (report e)

/-- Looking up the caller again and again comes to the empty name. -/
def LoopEnds (s : CallSearch) (name : Str) : Prop :=
  ∃ k, (fun cur => s.parent.getD cur [])^[k] name = []

/-- The walk runs out of names, and whenever it prints a chain the loop over the callers ends. -/
def OrderSearchEnds (index : GlobalIndex) (entry : StaticInitEntry) : Prop :=
  (followCalls index entry (followFuel index entry) (orderStart index entry)).queue = [] ∧
    ∀ turns q rest, (followCalls index entry turns (orderStart index entry)).queue = q :: rest →
      LoopEnds (followCalls index entry turns (orderStart index entry)).toCallSearch q.1

open StaticInitHazards in
/-- The search from the root ends, by its hit or by its queue. -/
def HazardSearchEnds (graph : CallGraph) (added : List Str) (root : StaticInitEntry) : Prop :=
  ((search (hazards added) graph root).hit ≠ [] ∨ (search (hazards added) graph root).queue = []) ∧
    LoopEnds (search (hazards added) graph root).toCallSearch (search (hazards added) graph root).hit

/-- The entries that the filter keeps come first, and the others report nothing. -/
theorem perm_sortByTie_append {α : Type} (tie : α → Str × UInt32 × Str) {p q : α → Bool}
    (hpq : ∀ a, p a = true → q a = true) (l : List α) :
    (sortByTie tie (l.filter p) ++ (l.filter q).filter fun a => !p a).Perm (l.filter q) := by
  have hkept : l.filter p = (l.filter q).filter p := by
    rw [List.filter_filter]
    refine List.filter_congr fun a _ => ?_
    cases ha : p a with
    | false => rfl
    | true => rw [hpq a ha]; rfl
  rw [hkept]
  exact ((List.mergeSort_perm _ _).append_right _).trans (List.filter_append_perm p (l.filter q))

theorem orderDependencies_bare {e : StaticInitEntry}
    (hdynamic : (e.dynamicInit && !e.isConstructorFn) = true) (hbare : readsAtInit e = false) :
    orderDependencies index e = [] := by
  unfold readsAtInit at hbare
  rw [hdynamic, Bool.true_and, Bool.or_eq_false_iff] at hbare
  have hrefs : e.referencedGlobals = [] := by simpa using hbare.1
  have hcalls : e.calledFunctions = [] := by simpa using hbare.2
  unfold orderDependencies
  rw [hrefs, hcalls]
  rfl

theorem orderSearchExact (hwf : WF index) (hnamed : index.findFunctionSummary [] = none) :
    OrderSearchExact index := by
  have hsub : ∀ e, readsAtInit e = true → (e.dynamicInit && !e.isConstructorFn) = true := by
    intro e he
    unfold readsAtInit at he
    exact (Bool.and_eq_true_iff.mp he).1
  refine ⟨_, fun e => firsts (findings index e), perm_sortByTie_append staticInitTie hsub _, ?_,
    fun e _ => orderExact_firsts hwf hnamed⟩
  have hrest : ((index.staticInits.filter fun e => e.dynamicInit && !e.isConstructorFn).filter
      fun e => !readsAtInit e).flatMap (orderDependencies index) = [] := by
    refine List.flatMap_eq_nil_iff.mpr fun e he => ?_
    obtain ⟨he, hbare⟩ := List.mem_filter.mp he
    exact orderDependencies_bare (List.mem_filter.mp he).2 (by simpa using hbare)
  calc analyzeStaticInitOrder index
      = (sortByTie staticInitTie (index.staticInits.filter readsAtInit)).flatMap
          (orderDependencies index) := rfl
    _ = _ := by
      rw [← List.append_nil (List.flatMap _ _), ← hrest, ← List.flatMap_append]
      exact List.flatMap_congr fun e _ => orderDependencies_eq hwf e

open StaticInitHazards in
theorem hazardSearchExact (index : GlobalIndex) {graph : CallGraph} {added : List Str}
    (hgraph : graph.calleesOf [] = []) (hempty : [] ∉ hazards added) :
    HazardSearchExact index graph added := by
  have hsub : ∀ e : StaticInitEntry, isRoot e = true → e.dynamicInit = true :=
    fun e he => (Bool.and_eq_true_iff.mp he).1
  refine ⟨_, hazardReport (hazards added) graph, perm_sortByTie_append staticInitTie hsub _, ?_,
    fun e _ => hazardExact_report e⟩
  have hrest : ((index.staticInits.filter (·.dynamicInit)).filter fun e => !isRoot e).flatMap
      (hazardsOf (hazards added) graph) = [] := by
    refine List.flatMap_eq_nil_iff.mpr fun e he => ?_
    obtain ⟨he, hbare⟩ := List.mem_filter.mp he
    have hdynamic := (List.mem_filter.mp he).2
    unfold isRoot at hbare
    have hseeds : seeds e = [] := by
      unfold seeds
      cases hctor : e.isConstructorFn with
      | true => simp [hdynamic, hctor] at hbare
      | false => simpa [hdynamic, hctor] using hbare
    exact hazardsOf_bare hseeds
  calc analyzeStaticInitHazards index graph added
      = (sortByTie staticInitTie (index.staticInits.filter isRoot)).flatMap
          (hazardsOf (hazards added) graph) := rfl
    _ = _ := by
      rw [← List.append_nil (List.flatMap _ _), ← hrest, ← List.flatMap_append]
      exact List.flatMap_congr fun e _ => hazardsOf_eq hempty hgraph e

theorem orderSearchEnds (hwf : WF index) (entry : StaticInitEntry) : OrderSearchEnds index entry := by
  refine ⟨(orderWalk_told hwf entry).2, fun turns q rest hqueue => ?_⟩
  obtain ⟨n, done, todo, hstands⟩ :=
    followCalls_stands turns (stands_orderStart index entry)
  exact hstands.loop_ends hqueue

open StaticInitHazards in
theorem hazardSearchEnds {graph : CallGraph} {added : List Str} (hempty : [] ∉ hazards added)
    (root : StaticInitEntry) : HazardSearchEnds graph added root := by
  have hends := search_ends hempty graph root
  refine ⟨hends.ended, ?_⟩
  cases hway : hazardWay (hazards added) graph root with
  | none =>
      rw [hway] at hends
      exact ⟨0, hends.none rfl⟩
  | some w =>
      rw [hway] at hends
      exact (hends.some w rfl).2.2

/-- **Where no function has the empty name both searches are exact and end.** -/
theorem static_init_searches_exact {graph : CallGraph} {added : List Str} (hwf : WF index)
    (hnamed : index.findFunctionSummary [] = none) (hgraph : graph.calleesOf [] = [])
    (hadded : [] ∉ added) :
    OrderSearchExact index ∧ HazardSearchExact index graph added ∧
      (∀ entry, OrderSearchEnds index entry) ∧ ∀ root, HazardSearchEnds graph added root := by
  have hempty : [] ∉ StaticInitHazards.hazards added := by
    unfold StaticInitHazards.hazards
    rw [Dedup.mem_foldl_pushUnique]
    rintro (hbuiltin | hin)
    · exact absurd hbuiltin (by decide)
    · exact hadded hin
  exact ⟨orderSearchExact hwf hnamed, hazardSearchExact index hgraph hempty, orderSearchEnds hwf,
    hazardSearchEnds hempty⟩

/-! ### The empty name -/

/-- A dynamic initializer that refers to nothing itself. -/
def staticOf (name file : String) (calls : List Str) : StaticInitEntry where
  qualifiedName := str name
  filePath := str file
  dynamicInit := true
  referencedGlobals := []
  calledFunctions := calls

/-- A function that refers to some globals. -/
def readerOf (name : String) (calls refs : List Str) : FunctionSummaryEntry where
  qualifiedName := str name
  filePath := str "f.cpp"
  calledFunctions := calls
  unguardedCalls := calls
  referencedGlobals := refs

/-- `a` calls a function by this name, it calls `get`, and `get` reads `b` of another file. -/
def readBehind (name : String) : GlobalIndex :=
  GlobalIndex.run {} [.staticInit (staticOf "a" "a.cpp" [str name]),
    .staticInit (staticOf "b" "b.cpp" []), .functionSummary (readerOf name [str "get"] []),
    .functionSummary (readerOf "get" [] [str "b"])]

/-- A function that calls `dlopen`. -/
def opensFrom (name : String) : CallGraph :=
  CallGraph.addEdge {} { callerName := str name, calleeName := str "dlopen", kind := .directCall,
                         confidence := .Proven, callSite := str "f.cpp:1:1" }

/-- The read behind `init` and the hazard behind it. -/
theorem read_behind_init :
    CallChain (readBehind "init") (staticOf "a" "a.cpp" [str "init"]) (staticOf "b" "b.cpp" [])
      [str "init", str "get"] ∧
    OrderSearchExact (readBehind "init") ∧
    HazardSearchExact (readBehind "init") (opensFrom "init") [] ∧
    (∀ entry, OrderSearchEnds (readBehind "init") entry) ∧
    ∀ root, HazardSearchEnds (opensFrom "init") [] root :=
  ⟨⟨⟨str "init", by decide, rfl⟩,
      List.isChain_pair.mpr ⟨readerOf "init" [str "get"] [], by decide +kernel, by decide⟩, by decide,
      str "get", readerOf "get" [] [str "b"], str "b", rfl, by decide +kernel, by decide,
      by decide +kernel, by decide⟩,
    static_init_searches_exact (GlobalIndex.run_wf_spec wf_empty _).1 (by decide +kernel)
      (by decide +kernel)
      (by decide)⟩

theorem eq_of_head_of_length {names : List Str} {x : Str} (hhead : names.head? = some x)
    (hlength : names.length ≤ 2) : names = [x] ∨ ∃ y, names = [x, y] := by
  match names, hhead, hlength with
  | [_], rfl, _ => exact Or.inl rfl
  | [_, y], rfl, _ => exact Or.inr ⟨y, rfl⟩

theorem emptyName_not_order : ¬ OrderSearchExact (readBehind "") := by
  rintro ⟨entries, reports, hperm, heq, hexact⟩
  -- the search prints `get` alone
  have hinits : (readBehind "").staticInits.filter readsAtInit = [staticOf "a" "a.cpp" [[]]] := by
    decide +kernel
  have hprinted : analyzeStaticInitOrder (readBehind "") =
      [orderDiagnostic (staticOf "a" "a.cpp" [[]]) (staticOf "b" "b.cpp" []) (str "get")] := by
    unfold analyzeStaticInitOrder sortByTie
    rw [hinits, List.mergeSort_singleton, List.flatMap_singleton]
    decide +kernel
  -- and the chain has the empty name before it
  have hentry : staticOf "a" "a.cpp" [[]] ∈ entries := hperm.mem_iff.mpr (by decide +kernel)
  have hempty : (readBehind "").findFunctionSummary [] = some (readerOf "" [str "get"] []) := by
    decide +kernel
  have hget : (readBehind "").findFunctionSummary (str "get") =
      some (readerOf "get" [] [str "b"]) := by decide +kernel
  have hchain : CallChain (readBehind "") (staticOf "a" "a.cpp" [[]]) (staticOf "b" "b.cpp" [])
      [[], str "get"] :=
    ⟨⟨[], by decide, rfl⟩, List.isChain_pair.mpr ⟨_, hempty, by decide⟩, by decide,
      str "get", _, str "b", rfl, hget, by decide, by decide +kernel, by decide⟩
  obtain ⟨names, hnames⟩ := ((hexact _ hentry).exact _).mpr (Or.inr ⟨_, hchain⟩)
  have hindirect : ¬ ReadsDirectly (readBehind "") (staticOf "a" "a.cpp" [[]])
      (staticOf "b" "b.cpp" []) := fun ⟨_, href, _⟩ => absurd href List.not_mem_nil
  obtain ⟨hwalk, hshortest⟩ := (hexact _ hentry).chain _ _ hnames hindirect
  have hlength := hshortest _ hchain
  obtain ⟨f, hf, hhead⟩ := hwalk.seed
  obtain rfl : f = [] := List.mem_singleton.mp hf
  have hdiag : orderPrinted (staticOf "a" "a.cpp" [[]]) (staticOf "b" "b.cpp" [], names) ∈
      analyzeStaticInitOrder (readBehind "") := by
    rw [heq]
    exact List.mem_flatMap.mpr ⟨_, hentry, List.mem_map_of_mem hnames⟩
  rw [hprinted, List.mem_singleton] at hdiag
  obtain ⟨last, s, ref, hlast, hs, href, -⟩ := hwalk.reads
  rcases eq_of_head_of_length hhead hlength with rfl | ⟨y, rfl⟩
  · obtain rfl : [] = last := Option.some.inj hlast
    rw [hempty] at hs
    obtain rfl := Option.some.inj hs
    exact absurd href List.not_mem_nil
  · obtain ⟨s', hs', hy⟩ := List.isChain_pair.mp hwalk.calls
    rw [hempty] at hs'
    obtain rfl := Option.some.inj hs'
    obtain rfl : y = str "get" := List.mem_singleton.mp hy
    exact absurd hdiag (by decide +kernel)

open StaticInitHazards in
theorem emptyName_not_hazard : ¬ HazardSearchExact (readBehind "") (opensFrom "") [] := by
  rintro ⟨roots, report, hperm, heq, hexact⟩
  have hinits : (readBehind "").staticInits.filter isRoot = [staticOf "a" "a.cpp" [[]]] := by
    decide +kernel
  have hprinted : analyzeStaticInitHazards (readBehind "") (opensFrom "") [] =
      [hazardDiagnostic (staticOf "a" "a.cpp" [[]]) (str "dlopen") (str "dlopen")] := by
    unfold analyzeStaticInitHazards sortByTie
    rw [hinits, List.mergeSort_singleton, List.flatMap_singleton]
    decide +kernel
  have hroot : staticOf "a" "a.cpp" [[]] ∈ roots := hperm.mem_iff.mpr (by decide +kernel)
  have hcallees : calleeNames (opensFrom "") [] = [str "dlopen"] := by decide +kernel
  have hchain : HazardChain (hazards []) (opensFrom "") (staticOf "a" "a.cpp" [[]])
      [[], str "dlopen"] :=
    ⟨⟨[], by decide, rfl⟩,
      List.isChain_pair.mpr (mem_calleeNames.mp (hcallees ▸ List.mem_singleton.mpr rfl)), by decide,
      str "dlopen", by decide, rfl⟩
  obtain ⟨names, hnames⟩ := Option.isSome_iff_exists.mp ((hexact _ hroot).reported.mpr ⟨_, hchain⟩)
  obtain ⟨hwalk, hshortest⟩ := (hexact _ hroot).chain _ hnames
  have hlength := hshortest _ hchain
  obtain ⟨f, hf, hhead⟩ := hwalk.seed
  obtain rfl : f = [] := List.mem_singleton.mp hf
  have hdiag : hazardPrinted (staticOf "a" "a.cpp" [[]]) names ∈
      analyzeStaticInitHazards (readBehind "") (opensFrom "") [] := by
    rw [heq]
    refine List.mem_flatMap.mpr ⟨_, hroot, ?_⟩
    rw [hnames]
    exact List.mem_singleton.mpr rfl
  rw [hprinted, List.mem_singleton] at hdiag
  obtain ⟨last, hlast, hend⟩ := hwalk.hazard
  rcases eq_of_head_of_length hhead hlength with rfl | ⟨y, rfl⟩
  · obtain rfl : [] = last := Option.some.inj hend
    exact absurd hlast (by decide)
  · have hy := mem_calleeNames.mpr (List.isChain_pair.mp hwalk.calls)
    rw [hcallees, List.mem_singleton] at hy
    rw [hy] at hdiag
    exact absurd hdiag (by decide +kernel)

open StaticInitHazards in
theorem emptyHazard_not_reported : ¬ HazardSearchExact (readBehind "") {} [[]] := by
  rintro ⟨roots, report, hperm, heq, hexact⟩
  have hinits : (readBehind "").staticInits.filter isRoot = [staticOf "a" "a.cpp" [[]]] := by
    decide +kernel
  have hprinted : analyzeStaticInitHazards (readBehind "") {} [[]] = [] := by
    unfold analyzeStaticInitHazards sortByTie
    rw [hinits, List.mergeSort_singleton, List.flatMap_singleton]
    decide +kernel
  have hroot : staticOf "a" "a.cpp" [[]] ∈ roots := hperm.mem_iff.mpr (by decide +kernel)
  have hchain : HazardChain (hazards [[]]) {} (staticOf "a" "a.cpp" [[]]) [[]] :=
    ⟨⟨[], by decide, rfl⟩, List.isChain_singleton _, by decide, [], by decide, rfl⟩
  obtain ⟨names, hnames⟩ := Option.isSome_iff_exists.mp ((hexact _ hroot).reported.mpr ⟨_, hchain⟩)
  rw [hprinted] at heq
  have hnone := List.flatMap_eq_nil_iff.mp heq.symm _ hroot
  rw [hnames] at hnone
  cases hnone

/-- A caller without a name ends the chain, a callee without one hides what is behind it, and a
hazard without one is not a hit. -/
theorem empty_name_ends_searches :
    ¬ OrderSearchExact (readBehind "") ∧ ¬ HazardSearchExact (readBehind "") (opensFrom "") [] ∧
      ¬ HazardSearchExact (readBehind "") {} [[]] :=
  ⟨emptyName_not_order, emptyName_not_hazard, emptyHazard_not_reported⟩

end Vycor
