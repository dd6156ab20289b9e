/-
Exceptions that escape, and the chains that are reported for them.

A noexcept function is rightly reported when it throws itself, or when a chain of unguarded calls
leads from it to a function that throws, no function of the chain is noexcept, and what is printed
is a shortest such chain (`RightlyReported`).  The search asks of a function whether it throws
before it asks whether it is noexcept.  So it finds the nearest function that throws behind
functions that are not noexcept, the first one in the order of the calls where several are equally
near, and that function may be noexcept itself.  Exactly then, and where an empty name cuts a chain
short or hides what was found, the report is wrong (`NearestClear`).

`escapeFound` is the search with the names of a chain in a list, before they are printed.
-/
import Mathlib.Data.List.TakeWhile
import Vycor.Proofs.CallWaves

namespace Vycor

open Waves CallSearch GlobalIndex

section Definitions

variable (index : GlobalIndex)

/-- The summary found under the name has an uncaught throw. -/
def throwsAt (name : Str) : Bool := (index.findFunctionSummary name).any (·.hasUncaughtThrow)

/-- The summary found under the name is `noexcept`. -/
def noexceptAt (name : Str) : Bool := (index.findFunctionSummary name).any (·.isNoexcept)

/-- A chain of unguarded calls from `root` to a throw, with no noexcept function in it. -/
structure ClearChain (root : FunctionSummaryEntry) (chain : List Str) : Prop where
  seed : ∃ f ∈ root.unguardedCalls, chain.head? = some f
  calls : chain.IsChain fun f callee =>
    ∃ s, index.findFunctionSummary f = some s ∧ callee ∈ s.unguardedCalls
  short : chain.length ≤ kMaxDepth
  clear : ∀ f ∈ chain, noexceptAt index f = false
  throws : ∃ f, chain.getLast? = some f ∧ throwsAt index f = true

/-! ### The search before printing

The reports are texts, so the search is split in two: the names of the chain,
and how they are printed.
-/

/-- `findThrow` with the names of the chain. -/
def findThrowNames : Nat → CallSearch → Option (List Str)
  | 0, _ => none
  | fuel + 1, s =>
    match s.queue with
    | [] => none
    | (name, depth) :: rest =>
      let s := { s with queue := rest }
      match index.findFunctionSummary name with
      | none => findThrowNames fuel s
      | some summary =>
        if summary.hasUncaughtThrow then some (s.names name)
        else if kMaxDepth ≤ depth + 1 then findThrowNames fuel s
        else if summary.isNoexcept then findThrowNames fuel s
        else
          findThrowNames fuel
            (summary.unguardedCalls.foldl (fun s callee => s.meet callee name (depth + 1)) s)

/-- The chain that is reported for a function; its own throw has none. -/
def escapeFound (root : FunctionSummaryEntry) : Option (List Str) :=
  if root.hasUncaughtThrow then if root.qualifiedName = [] then none else some []
  else
    (findThrowNames index (throwFuel index root) (CallSearch.start root.unguardedCalls)).filter
      fun names => names.getLastD [] ≠ []

/-- The report for a chain below the root. -/
def escapePrinted (root : FunctionSummaryEntry) (names : List Str) : Diagnostic :=
  if names = [] then
    escapeDiagnostic root root.qualifiedName
      (root.qualifiedName ++ str " (throw in its own body)")
  else escapeDiagnostic root (names.getLastD []) (printed names)

/-! ### Right reports -/

/-- Reported exactly when it throws or a clear chain leads to a throw, with a shortest one. -/
structure RightlyReported (root : FunctionSummaryEntry) : Prop where
  reported : (escapeFound index root).isSome = true ↔
    root.hasUncaughtThrow = true ∨ ∃ chain, ClearChain index root chain
  chain : ∀ names, escapeFound index root = some names → root.hasUncaughtThrow = false →
    ClearChain index root names ∧ ∀ chain, ClearChain index root chain → names.length ≤ chain.length

/-- The functions an exception comes from when it leaves a function that may let one through. -/
def unguardedFrom (name : Str) : List Str :=
  match index.findFunctionSummary name with
  | none => []
  | some s => if s.isNoexcept then [] else s.unguardedCalls

/-- The nearest throw behind functions that are not noexcept, with the way to it. -/
def nearestThrow (root : FunctionSummaryEntry) : Option (Way Str) :=
  (known (unguardedFrom index) (kMaxDepth - 1) root.unguardedCalls (kMaxDepth - 1)).find?
    fun w => throwsAt index w.1

/-- The function throws itself, or the nearest throw is in no noexcept function.  Nor is an empty
name in the way of the report. -/
def NearestClear (root : FunctionSummaryEntry) : Prop :=
  if root.hasUncaughtThrow then root.qualifiedName ≠ []
  else ∀ w, nearestThrow index root = some w →
    if w.1 = [] then ¬ ∃ chain, ClearChain index root chain
    else [] ∉ w.2 ∧ noexceptAt index w.1 = false

end Definitions

variable {index : GlobalIndex} {root : FunctionSummaryEntry}

/-! ### The search finds the nearest throw -/

theorem namesUp_ends (parent : UMap Str Str) (fuel : Nat) (cur : Str) (names : List Str) :
    ∃ l, namesUp parent fuel cur names = l ++ names := by
  induction fuel generalizing cur names with
  | zero => exact ⟨[], rfl⟩
  | succ fuel ih =>
      unfold namesUp
      split
      · exact ⟨[], rfl⟩
      · obtain ⟨l, hl⟩ := ih (parent.getD cur []) (cur :: names)
        exact ⟨l ++ [cur], by rw [hl, List.append_assoc]; rfl⟩

theorem getLastD_names (s : CallSearch) (name : Str) : (s.names name).getLastD [] = name := by
  obtain ⟨l, hl⟩ := namesUp_ends s.parent s.parent.entries.length (s.parent.getD name []) [name]
  unfold CallSearch.names
  rw [hl]
  simp

theorem names_ne_nil (s : CallSearch) (name : Str) : s.names name ≠ [] := by
  obtain ⟨l, hl⟩ := namesUp_ends s.parent s.parent.entries.length (s.parent.getD name []) [name]
  unfold CallSearch.names
  rw [hl]
  exact List.append_ne_nil_of_right_ne_nil _ (List.cons_ne_nil _ _)

/-- The names that are met from one that does not throw, at its depth. -/
def metFrom (index : GlobalIndex) (q : Str × Nat) : List Str :=
  if q.2 < kMaxDepth - 1 then unguardedFrom index q.1 else []

theorem findThrowNames_nil {s : CallSearch} (h : s.queue = []) (fuel : Nat) :
    findThrowNames index fuel s = none := by
  cases fuel with
  | zero => rfl
  | succ fuel =>
      unfold findThrowNames
      rw [h]

/-- A turn of the search. -/
theorem findThrowNames_cons {s : CallSearch} {q : Str × Nat} {rest : List (Str × Nat)}
    (h : s.queue = q :: rest) (fuel : Nat) :
    findThrowNames index (fuel + 1) s =
      if throwsAt index q.1 then some (s.names q.1)
      else findThrowNames index fuel
        ((metFrom index q).foldl (fun s callee => s.meet callee q.1 (q.2 + 1))
          { s with queue := rest }) := by
  conv_lhs => unfold findThrowNames
  unfold throwsAt metFrom unguardedFrom
  rw [h]
  dsimp only
  cases hs : index.findFunctionSummary q.1 with
  | none => simp
  | some summary =>
      simp only [Option.any_some]
      by_cases hdepth : kMaxDepth ≤ q.2 + 1
      · have hlast : ¬ q.2 < kMaxDepth - 1 := by omega
        rw [if_pos hdepth, if_neg hlast, List.foldl_nil]
        rfl
      · have hbefore : q.2 < kMaxDepth - 1 := by omega
        rw [if_neg hdepth, if_pos hbefore]
        cases summary.isNoexcept <;> rfl

theorem findThrow_eq (fuel : Nat) (s : CallSearch) :
    findThrow index fuel s =
      (findThrowNames index fuel s).map fun names => (names.getLastD [], printed names) := by
  induction fuel generalizing s with
  | zero => rfl
  | succ fuel ih =>
      unfold findThrow findThrowNames
      cases hqueue : s.queue with
      | nil => rfl
      | cons q rest =>
          dsimp only
          cases hs : index.findFunctionSummary q.1 with
          | none => exact ih _
          | some summary =>
              dsimp only
              by_cases hthrow : summary.hasUncaughtThrow = true
              · rw [if_pos hthrow, if_pos hthrow, Option.map_some, getLastD_names,
                  chain_eq_printed]
              · rw [if_neg hthrow, if_neg hthrow, ih, ih]
                split
                · rfl
                · split <;> rfl

theorem findThrowNames_ne_nil (fuel : Nat) {s : CallSearch} {names : List Str}
    (h : findThrowNames index fuel s = some names) : names ≠ [] := by
  induction fuel generalizing s with
  | zero => cases h
  | succ fuel ih =>
      cases hqueue : s.queue with
      | nil => rw [findThrowNames_nil hqueue] at h; cases h
      | cons q rest =>
          rw [findThrowNames_cons hqueue] at h
          split at h
          · rw [← Option.some.inj h]
            exact names_ne_nil _ _
          · exact ih h

/-- The report is the printed form of what is found. -/
theorem escapeOf_eq (index : GlobalIndex) (root : FunctionSummaryEntry) :
    escapeOf index root = (escapeFound index root).toList.map (escapePrinted root) := by
  unfold escapeOf escapeFound
  cases root.hasUncaughtThrow with
  | true =>
      simp only [if_true]
      by_cases hname : root.qualifiedName = []
      · simp [hname]
      · simp [hname, escapePrinted]
  | false =>
      simp only [Bool.false_eq_true, if_false, findThrow_eq]
      cases hfound : findThrowNames index (throwFuel index root)
          (CallSearch.start root.unguardedCalls) with
      | none => rfl
      | some names =>
          have hne := findThrowNames_ne_nil _ hfound
          by_cases hhit : names.getLast?.getD [] = []
          · simp [Option.filter, hhit]
          · simp [Option.filter, hhit, escapePrinted, hne]

/-- **The search finds the first way, wave by wave, to a function that throws.** -/
theorem findThrowNames_eq {all seeds : List Str}
    (hall : ∀ name s, index.findFunctionSummary name = some s → ∀ c ∈ s.unguardedCalls, c ∈ all)
    (fuel : Nat) {s : CallSearch} {n : Nat} {done todo : List (Way Str)}
    (h : Stands (unguardedFrom index) (kMaxDepth - 1) seeds s n done todo)
    (hroom : s.room all ≤ fuel) :
    findThrowNames index fuel s =
      ((todo ++ later (unguardedFrom index) (kMaxDepth - 1) seeds n).find?
        fun w => throwsAt index w.1).map shown := by
  induction fuel generalizing s n done todo with
  | zero =>
      have hqueue : s.queue = [] := by
        refine List.eq_nil_of_length_eq_zero ?_
        unfold room at hroom
        omega
      rw [h.eq_nil hqueue]
      rfl
  | succ fuel ih =>
      cases hqueue : s.queue with
      | nil =>
          rw [findThrowNames_nil hqueue, h.eq_nil hqueue]
          rfl
      | cons q rest =>
          obtain ⟨n', done', w, todo', hstands, rfl, hways, -⟩ := h.head hqueue
          rw [findThrowNames_cons hqueue, hways, List.find?_cons]
          cases hthrow : throwsAt index w.1 with
          | true => simp [hstands.names_eq]
          | false =>
              have hpop := room_pop all hqueue
              have hmet : ∀ c ∈ metFrom index (w.1, n'), c ∈ all := by
                intro c hc
                unfold metFrom unguardedFrom at hc
                cases hs : index.findFunctionSummary w.1 with
                | none => simp [hs] at hc
                | some summary =>
                    have : c ∈ summary.unguardedCalls := by
                      simp only [hs] at hc
                      split at hc
                      · split at hc
                        · cases hc
                        · exact hc
                      · cases hc
                    exact hall w.1 summary hs c this
              have hless := room_foldl_meet hmet { s with queue := rest } w.1 (n' + 1)
              have hcallees : metFrom index (w.1, n') =
                  if n' < kMaxDepth - 1 then unguardedFrom index w.1 else [] := rfl
              have hturn := hstands.turn hqueue hcallees
              exact ih hturn (hless.trans (by omega))

theorem summary_mem (hwf : WF index) {name : Str} {s : FunctionSummaryEntry}
    (hs : index.findFunctionSummary name = some s) : s ∈ index.functionSummaries := by
  rw [hwf.findFunctionSummary_eq] at hs
  exact List.mem_of_find?_eq_some hs

theorem search_eq_nearest (hwf : WF index) (root : FunctionSummaryEntry) :
    findThrowNames index (throwFuel index root) (CallSearch.start root.unguardedCalls) =
      (nearestThrow index root).map shown := by
  have hstart : Stands (unguardedFrom index) (kMaxDepth - 1) root.unguardedCalls
      (CallSearch.start root.unguardedCalls) 0 [] _ := stands_start root.unguardedCalls
  have hall : ∀ name s, index.findFunctionSummary name = some s → ∀ c ∈ s.unguardedCalls,
      c ∈ root.unguardedCalls ++ index.functionSummaries.flatMap (·.unguardedCalls) :=
    fun name s hs c hc =>
      List.mem_append_right _ (List.mem_flatMap.mpr ⟨s, summary_mem hwf hs, hc⟩)
  have hroom : (CallSearch.start root.unguardedCalls).room
      (root.unguardedCalls ++ index.functionSummaries.flatMap (·.unguardedCalls)) ≤
      throwFuel index root := by
    refine (room_start fun c hc => List.mem_append_left _ hc).trans ?_
    rw [List.length_append, List.length_flatMap]
    exact Nat.le_succ _
  rw [findThrowNames_eq hall _ hstart hroom]
  unfold nearestThrow
  rw [← known_later (Nat.zero_le (kMaxDepth - 1))]
  rfl

/-! ### Ways and clear chains -/

theorem mem_unguardedFrom {x y : Str} :
    y ∈ unguardedFrom index x ↔
      noexceptAt index x = false ∧
        ∃ s, index.findFunctionSummary x = some s ∧ y ∈ s.unguardedCalls := by
  unfold unguardedFrom noexceptAt
  cases index.findFunctionSummary x with
  | none => simp
  | some s =>
      cases hnoexcept : s.isNoexcept with
      | true => simp [hnoexcept]
      | false => simp [hnoexcept]

/-- No function that a way goes through is noexcept. -/
theorem clear_behind {seeds : List Str} {w : Way Str} (h : IsWay (unguardedFrom index) seeds w) :
    ∀ f ∈ w.2, noexceptAt index f = false := by
  induction h with
  | start _ => exact fun f hf => absurd hf List.not_mem_nil
  | step _ hy ih =>
      intro f hf
      rcases List.mem_cons.mp hf with rfl | hf
      · exact (mem_unguardedFrom.mp hy).1
      · exact ih f hf

/-- A clear chain is a way to a throw, read from the front. -/
theorem clearChain_reverse {w : Way Str} (hway : IsWay (unguardedFrom index) root.unguardedCalls w)
    (hshort : w.2.length ≤ kMaxDepth - 1) (hthrow : throwsAt index w.1 = true)
    (hclear : noexceptAt index w.1 = false) : ClearChain index root (w.1 :: w.2).reverse := by
  obtain ⟨hchain, f, hf, hhead⟩ := isWay_iff_reverse.mp hway
  refine ⟨⟨f, hf, hhead⟩, ?_, ?_, fun g hg => ?_, w.1, ?_, hthrow⟩
  · exact hchain.imp fun x y hy => (mem_unguardedFrom.mp hy).2
  · rw [List.length_reverse, List.length_cons]
    unfold kMaxDepth at hshort ⊢
    omega
  · rcases List.mem_cons.mp (List.mem_reverse.mp hg) with rfl | hg
    · exact hclear
    · exact clear_behind hway g hg
  · rw [List.getLast?_reverse]
    rfl

theorem ClearChain.exists_way {chain : List Str} (h : ClearChain index root chain) :
    ∃ w : Way Str, chain = (w.1 :: w.2).reverse ∧
      IsWay (unguardedFrom index) root.unguardedCalls w ∧ w.2.length ≤ kMaxDepth - 1 ∧
      throwsAt index w.1 = true ∧ noexceptAt index w.1 = false := by
  obtain ⟨f, hf, hhead⟩ := h.seed
  obtain ⟨last, hlast, hthrow⟩ := h.throws
  have hne : chain ≠ [] := List.ne_nil_of_mem (List.mem_of_mem_head? hhead)
  obtain ⟨w, rfl⟩ := exists_way_eq_reverse hne
  rw [List.getLast?_reverse] at hlast
  obtain rfl : w.1 = last := Option.some.inj hlast
  refine ⟨w, rfl, isWay_iff_reverse.mpr ⟨?_, f, hf, hhead⟩, ?_, hthrow, h.clear w.1 (by simp)⟩
  · refine h.calls.imp_of_mem_imp fun x y hx _ hstep => ?_
    exact mem_unguardedFrom.mpr ⟨h.clear x hx, hstep⟩
  · have hshort := h.short
    rw [List.length_reverse, List.length_cons] at hshort
    unfold kMaxDepth at hshort ⊢
    omega

/-! ### When the report is right -/

theorem getLastD_shown (w : Way Str) : (shown w).getLastD [] = w.1 := by
  simp [shown]

theorem shown_of_named {w : Way Str} (h : [] ∉ w.2) : shown w = (w.1 :: w.2).reverse := by
  unfold shown
  rw [List.takeWhile_eq_self_iff.mpr]
  intro x hx
  exact decide_eq_true fun hempty : x = [] => h (hempty ▸ hx)

theorem escapeFound_eq (hwf : WF index) (hthrow : root.hasUncaughtThrow = false) :
    escapeFound index root =
      ((nearestThrow index root).map shown).filter fun names => names.getLastD [] ≠ [] := by
  unfold escapeFound
  rw [hthrow, if_neg Bool.false_ne_true, search_eq_nearest hwf]

/-- A printed chain is a shortest one only when it is whole. -/
theorem named_of_clear {w : Way Str} (h : nearestThrow index root = some w)
    (hchain : ClearChain index root (shown w)) : [] ∉ w.2 := by
  obtain ⟨-, -, -, hshortest⟩ := find_shortest h
  obtain ⟨v, hv, hway, -, hthrow, -⟩ := hchain.exists_way
  obtain ⟨-, hback⟩ := List.cons.inj (List.reverse_injective hv)
  have hle := hshortest v hway hthrow
  rw [← hback] at hle
  have hwhole : w.2.takeWhile (· ≠ []) = w.2 :=
    (List.takeWhile_prefix _).eq_of_length_le hle
  intro hempty
  have := List.takeWhile_eq_self_iff.mp hwhole [] hempty
  simp at this

/-- Without a report nothing must be there to report. -/
theorem rightlyReported_of_none (hfound : escapeFound index root = none)
    (hthrow : root.hasUncaughtThrow = false) :
    RightlyReported index root ↔ ¬ ∃ chain, ClearChain index root chain := by
  constructor
  · intro h hchain
    have := h.reported.mpr (Or.inr hchain)
    rw [hfound] at this
    cases this
  · intro hnone
    refine ⟨?_, fun names hnames => ?_⟩
    · rw [hfound, hthrow]
      simpa using hnone
    · rw [hfound] at hnames
      cases hnames

theorem rightlyReported_iff (hwf : WF index) (root : FunctionSummaryEntry) :
    RightlyReported index root ↔ NearestClear index root := by
  unfold NearestClear
  cases hthrow : root.hasUncaughtThrow with
  | true =>
      have hfound : escapeFound index root = if root.qualifiedName = [] then none else some [] := by
        unfold escapeFound
        rw [if_pos hthrow]
      rw [if_pos rfl]
      constructor
      · intro h hname
        have := h.reported.mpr (Or.inl hthrow)
        rw [hfound, if_pos hname] at this
        cases this
      · intro hname
        rw [if_neg hname] at hfound
        refine ⟨⟨fun _ => Or.inl hthrow, fun _ => by rw [hfound]; rfl⟩, fun _ _ hno => ?_⟩
        rw [hthrow] at hno
        cases hno
  | false =>
      have hfound := escapeFound_eq hwf hthrow
      rw [if_neg Bool.false_ne_true]
      cases hnearest : nearestThrow index root with
      | none =>
          rw [hnearest] at hfound
          have hnone : ¬ ∃ chain, ClearChain index root chain := by
            rintro ⟨chain, hchain⟩
            obtain ⟨w, -, hway, hshort, hthrows, -⟩ := hchain.exists_way
            rw [find_none hnearest hway hshort] at hthrows
            cases hthrows
          rw [rightlyReported_of_none hfound hthrow]
          refine ⟨fun _ w hw => ?_, fun _ => hnone⟩
          cases hw
      | some w =>
          obtain ⟨hthrows, hway, hshort, hshortest⟩ := find_shortest hnearest
          rw [hnearest, Option.map_some] at hfound
          by_cases hhit : w.1 = []
          · -- the hit is taken for none
            rw [Option.filter_some, getLastD_shown, hhit] at hfound
            rw [rightlyReported_of_none (by simpa using hfound) hthrow]
            refine ⟨fun h v hv => ?_, fun h => ?_⟩
            · obtain rfl := Option.some.inj hv
              rw [if_pos hhit]
              exact h
            · have hnone := h w rfl
              rwa [if_pos hhit] at hnone
          · have hfound : escapeFound index root = some (shown w) := by
              rw [hfound, Option.filter_some, getLastD_shown, if_pos (by simpa using hhit)]
            refine ⟨fun h v hv => ?_, fun h => ?_⟩
            · obtain rfl := Option.some.inj hv
              rw [if_neg hhit]
              obtain ⟨hchain, -⟩ := h.chain _ hfound hthrow
              refine ⟨named_of_clear hnearest hchain, hchain.clear w.1 ?_⟩
              simp [shown]
            · have hclear := h w rfl
              rw [if_neg hhit] at hclear
              have hchain := clearChain_reverse hway hshort hthrows hclear.2
              rw [← shown_of_named hclear.1] at hchain
              refine ⟨⟨fun _ => Or.inr ⟨_, hchain⟩, fun _ => by rw [hfound]; rfl⟩, ?_⟩
              intro names hnames _
              rw [hfound] at hnames
              obtain rfl := Option.some.inj hnames
              refine ⟨hchain, fun chain hother => ?_⟩
              obtain ⟨v, hv, hvway, -, hvthrows, -⟩ := hother.exists_way
              rw [hv, shown_of_named hclear.1]
              simpa using hshortest v hvway hvthrows

/-- **The check reports the noexcept functions one by one, and rightly exactly those whose nearest
throw is in no noexcept function.** -/
theorem exception_escape_exact_iff (hwf : WF index) :
    ∃ roots : List FunctionSummaryEntry,
      roots.Perm (index.functionSummaries.filter (·.isNoexcept)) ∧
      analyzeExceptionEscape index =
        roots.flatMap (fun root => (escapeFound index root).toList.map (escapePrinted root)) ∧
      ∀ root ∈ roots, RightlyReported index root ↔ NearestClear index root := by
  refine ⟨sortByTie summaryTie (index.functionSummaries.filter (·.isNoexcept)),
    List.mergeSort_perm _ _, ?_, fun root _ => rightlyReported_iff hwf root⟩
  exact List.flatMap_congr fun root _ => escapeOf_eq index root

/-! ### A noexcept callee -/

/-- A function of one file. -/
def summaryOf (name : String) (isNoexcept hasUncaughtThrow : Bool) (calls : List Str) :
    FunctionSummaryEntry where
  qualifiedName := str name
  filePath := str "f.cpp"
  isNoexcept := isNoexcept
  hasUncaughtThrow := hasUncaughtThrow
  calledFunctions := calls
  unguardedCalls := calls
  referencedGlobals := []

/-- The index of some functions. -/
def indexOf (summaries : List FunctionSummaryEntry) : GlobalIndex :=
  GlobalIndex.run {} (summaries.map IndexCall.functionSummary)

/-- `root` calls `mid`, which calls `thrower`. -/
def throwBehind : GlobalIndex :=
  indexOf [summaryOf "thrower" false true [], summaryOf "mid" false false [str "thrower"],
    summaryOf "root" true false [str "mid"]]

/-- `root` calls a noexcept function that throws. -/
def throwStopped : GlobalIndex :=
  indexOf [summaryOf "helper" true true [], summaryOf "root" true false [str "helper"]]

/-- The chain through `mid` is printed. -/
theorem throw_behind_reported :
    escapeFound throwBehind (summaryOf "root" true false [str "mid"]) =
      some [str "mid", str "thrower"] ∧
    RightlyReported throwBehind (summaryOf "root" true false [str "mid"]) := by
  obtain ⟨roots, hperm, -, hiff⟩ :=
    @exception_escape_exact_iff throwBehind (GlobalIndex.run_wf_spec wf_empty _).1
  refine ⟨by decide +kernel, (hiff _ (hperm.mem_iff.mpr (by decide +kernel))).mpr ?_⟩
  have hnearest : nearestThrow throwBehind (summaryOf "root" true false [str "mid"]) =
      some (str "thrower", [str "mid"]) := by decide +kernel
  intro w hw
  obtain rfl := Option.some.inj (hnearest.symm.trans hw)
  rw [if_neg (by decide)]
  decide +kernel

/-- The throw of the noexcept function is charged to its caller. -/
theorem noexcept_callee_charged :
    escapeFound throwStopped (summaryOf "root" true false [str "helper"]) = some [str "helper"] ∧
    (¬ ∃ chain, ClearChain throwStopped (summaryOf "root" true false [str "helper"]) chain) ∧
    ¬ RightlyReported throwStopped (summaryOf "root" true false [str "helper"]) := by
  have hfound : escapeFound throwStopped (summaryOf "root" true false [str "helper"]) =
      some [str "helper"] := by decide +kernel
  have hnone : ¬ ∃ chain, ClearChain throwStopped (summaryOf "root" true false [str "helper"])
      chain := by
    rintro ⟨chain, hchain⟩
    obtain ⟨f, hf, hhead⟩ := hchain.seed
    obtain rfl : f = str "helper" := List.mem_singleton.mp hf
    have hclear := hchain.clear _ (List.mem_of_mem_head? hhead)
    exact absurd hclear (by decide +kernel)
  refine ⟨hfound, hnone, fun h => hnone ?_⟩
  exact ⟨_, (h.chain _ hfound rfl).1⟩

end Vycor
