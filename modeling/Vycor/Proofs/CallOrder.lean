/-
The two call searches over summaries that were merged in another order.

A summary merges the entries of its name: the flags and what a list holds do not depend on
the order of these, the order within a list and the site do.  A search looks at a name only
when calls lead to it from the seeds, in fewer than `kMaxDepth` steps (`Steps`).  So if none
of those names has anything to find, nothing is reported in either order, and if the lists of
those names come out the same, the two searches go through the same states.

The measure behind the fuel is the length of the queue and how many of the names that may be
queued have not been met.  Meeting a name moves it from the second to the first, and a turn
takes one off the queue.
-/
import Vycor.Lib.PathSearch
import Vycor.Proofs.IndexOrder

namespace Vycor

open GlobalIndex Keyed PathSearch

/-! ### A merged summary

Which summary an index holds depends on the order in which entries come in only
as far as their lists do. A list is fixed when the entries of its name leave no
choice.
-/

/-- What a summary says of the entries that it merges. -/
structure SummaryOf (rows : List FunctionSummaryEntry) (s : FunctionSummaryEntry) : Prop where
  site : ∃ e ∈ rows, s.qualifiedName = e.qualifiedName ∧ s.filePath = e.filePath ∧ s.line = e.line
  noexcept : s.isNoexcept ↔ ∃ e ∈ rows, e.isNoexcept
  throws : s.hasUncaughtThrow ↔ ∃ e ∈ rows, e.hasUncaughtThrow
  called : ∀ n, n ∈ s.calledFunctions ↔ ∃ e ∈ rows, n ∈ e.calledFunctions
  unguarded : ∀ n, n ∈ s.unguardedCalls ↔ ∃ e ∈ rows, n ∈ e.unguardedCalls
  referenced : ∀ n, n ∈ s.referencedGlobals ↔ ∃ e ∈ rows, n ∈ e.referencedGlobals

theorem summaryOf_singleton (e : FunctionSummaryEntry) : SummaryOf [e] e where
  site := ⟨e, by simp⟩
  noexcept := by simp
  throws := by simp
  called := by simp
  unguarded := by simp
  referenced := by simp

theorem SummaryOf.merge {rows : List FunctionSummaryEntry} {s : FunctionSummaryEntry}
    (h : SummaryOf rows s) (e : FunctionSummaryEntry) : SummaryOf (rows ++ [e]) (mergeSummary s e) := by
  have hnames : ∀ (f : FunctionSummaryEntry → List Str),
      (∀ n, n ∈ f s ↔ ∃ x ∈ rows, n ∈ f x) →
      ∀ n, n ∈ mergeNames (f s) (f e) ↔ ∃ x ∈ rows ++ [e], n ∈ f x := by
    intro f hf n
    unfold mergeNames
    rw [Dedup.mem_foldl_pushUnique, hf]
    simp only [List.mem_append, List.mem_singleton, or_and_right, exists_or, exists_eq_left]
  exact
    { site := by
        obtain ⟨x, hx, hsite⟩ := h.site
        exact ⟨x, List.mem_append_left _ hx, hsite⟩
      noexcept := by
        simp only [mergeSummary, Bool.or_eq_true, h.noexcept, List.mem_append, List.mem_singleton,
          or_and_right, exists_or, exists_eq_left]
      throws := by
        simp only [mergeSummary, Bool.or_eq_true, h.throws, List.mem_append, List.mem_singleton,
          or_and_right, exists_or, exists_eq_left]
      called := hnames (·.calledFunctions) h.called
      unguarded := hnames (·.unguardedCalls) h.unguarded
      referenced := hnames (·.referencedGlobals) h.referenced }

theorem summaryOf_merged {rows : List FunctionSummaryEntry} {s : FunctionSummaryEntry}
    (h : merged mergeSummary rows = some s) : SummaryOf rows s := by
  induction rows using List.reverseRecOn generalizing s with
  | nil => exact nomatch h
  | append_singleton rows e ih =>
      rw [merged_append_singleton] at h
      injection h with h
      cases hsofar : merged mergeSummary rows with
      | none =>
          have hnil : rows = [] := by
            cases rows with
            | nil => rfl
            | cons x rest => simp [merged_cons] at hsofar
          rw [hsofar] at h
          obtain rfl : e = s := h
          rw [hnil]
          exact summaryOf_singleton e
      | some y =>
          rw [hsofar] at h
          obtain rfl : mergeSummary y e = s := h
          exact (ih hsofar).merge e

/-- The entries of a name. -/
def named (ss : List FunctionSummaryEntry) (n : Str) : List FunctionSummaryEntry :=
  ss.filter (·.qualifiedName = n)

theorem mem_named {ss : List FunctionSummaryEntry} {n : Str} {s : FunctionSummaryEntry} :
    s ∈ named ss n ↔ s ∈ ss ∧ s.qualifiedName = n := by
  unfold named
  rw [List.mem_filter, decide_eq_true_eq]

/-- The index holds the summaries and static initializers of these entries. -/
structure Indexed (is : List StaticInitEntry) (ss : List FunctionSummaryEntry) (g : GlobalIndex) :
    Prop where
  wf : WF g
  summaries : g.functionSummaries = ss.foldl (put (·.qualifiedName) mergeSummary) []
  inits : g.staticInits = is.foldl (put staticInitKey first) []

section

variable {is is' : List StaticInitEntry} {ss ss' : List FunctionSummaryEntry} {g g' : GlobalIndex}

theorem Indexed.find (h : Indexed is ss g) (n : Str) :
    g.findFunctionSummary n = merged mergeSummary (named ss n) := by
  unfold named
  rw [h.wf.findFunctionSummary_eq, ← find_foldl_put merges_summary]
  exact congrArg (List.find? _) h.summaries

theorem Indexed.summaryOf (h : Indexed is ss g) {n : Str} {s : FunctionSummaryEntry}
    (hs : g.findFunctionSummary n = some s) : SummaryOf (named ss n) s :=
  summaryOf_merged ((h.find n).symm.trans hs)

/-- A list of the summaries comes out the same in every order of the entries. -/
def FixedList (f : FunctionSummaryEntry → List Str) (ss : List FunctionSummaryEntry) (n : Str) :
    Prop :=
  ∀ s ∈ named ss n, ∀ s' ∈ named ss n, mergeNames (f s) (f s') = mergeNames (f s') (f s)

theorem Indexed.list_eq (h : Indexed is ss g) (h' : Indexed is' ss' g') (hperm : ss.Perm ss')
    {f : FunctionSummaryEntry → List Str}
    (hf : ∀ a b, f (mergeSummary a b) = mergeNames (f a) (f b)) {n : Str} (hfixed : FixedList f ss n) :
    (g.findFunctionSummary n).map f = (g'.findFunctionSummary n).map f := by
  rw [h.find, h'.find, merged_map hf, merged_map hf]
  refine merged_perm (fun a b c => (Dedup.foldl_pushUnique_foldl a b c).symm) ?_
    ((hperm.filter _).map f)
  intro a ha b hb
  obtain ⟨s, hs, rfl⟩ := List.mem_map.mp ha
  obtain ⟨s', hs', rfl⟩ := List.mem_map.mp hb
  exact hfixed s hs s' hs'

theorem Indexed.isSome_eq (h : Indexed is ss g) (h' : Indexed is' ss' g') (hperm : ss.Perm ss')
    (n : Str) : (g.findFunctionSummary n).isSome = (g'.findFunctionSummary n).isSome := by
  have hlen : (named ss n).length = (named ss' n).length := (hperm.filter _).length_eq
  rw [h.find, h'.find]
  match hrows : named ss n, hrows' : named ss' n with
  | [], [] => rfl
  | [], _ :: _ => rw [hrows, hrows'] at hlen; exact absurd hlen (by simp)
  | _ :: _, [] => rw [hrows, hrows'] at hlen; exact absurd hlen (by simp)
  | _ :: _, _ :: _ => rw [merged_cons, merged_cons]; rfl

theorem mem_named_perm (hperm : ss.Perm ss') {n : Str} {s : FunctionSummaryEntry} :
    s ∈ named ss n ↔ s ∈ named ss' n := by
  rw [mem_named, mem_named, hperm.mem_iff]

end

/-! ### Meeting names -/

namespace CallSearch

/-- Every queued name with its depth satisfies the predicate. -/
def Queued (P : Str → Nat → Prop) (s : CallSearch) : Prop := ∀ q ∈ s.queue, P q.1 q.2

theorem Queued.dequeue {P : Str → Nat → Prop} {s : CallSearch} (hq : s.Queued P)
    {q : Str × Nat} {rest : List (Str × Nat)} (h : s.queue = q :: rest) :
    P q.1 q.2 ∧ Queued P { s with queue := rest } :=
  ⟨hq q (h ▸ List.mem_cons_self), fun r hr => hq r (h ▸ List.mem_cons_of_mem _ hr)⟩

theorem queued_meet {P : Str → Nat → Prop} {s : CallSearch} (h : s.Queued P) {callee : Str}
    {depth : Nat} (hP : P callee depth) (caller : Str) : (s.meet callee caller depth).Queued P := by
  unfold meet
  split
  · exact h
  · intro q hq
    rcases List.mem_append.mp hq with hq | hq
    · exact h q hq
    · rw [List.mem_singleton.mp hq]
      exact hP

theorem queued_foldl_meet {P : Str → Nat → Prop} (callees : List Str) {s : CallSearch}
    (h : s.Queued P) {depth : Nat} (hP : ∀ c ∈ callees, P c depth) (caller : Str) :
    (callees.foldl (fun s c => s.meet c caller depth) s).Queued P := by
  induction callees generalizing s with
  | nil => exact h
  | cons c rest ih =>
      exact ih (queued_meet h (hP c List.mem_cons_self) caller)
        fun d hd => hP d (List.mem_cons_of_mem _ hd)

theorem queued_start {P : Str → Nat → Prop} {seeds : List Str} (h : ∀ c ∈ seeds, P c 0) :
    (start seeds).Queued P := queued_foldl_meet seeds (fun _ hq => nomatch hq) h []

/-- The queue, and how many names can still be met. -/
def room (all : List Str) (s : CallSearch) : Nat :=
  s.queue.length + (all.filter fun n => (s.parent.lookup n).isNone).length

theorem room_meet {all : List Str} {callee : Str} (h : callee ∈ all) (s : CallSearch)
    (caller : Str) (depth : Nat) : (s.meet callee caller depth).room all ≤ s.room all := by
  unfold meet
  split
  · exact Nat.le_refl _
  · rename_i hnew
    have hunmet : ∀ n, (AList.lookup n (s.parent.insert callee caller)).isNone
        = (!decide (n = callee) && (s.parent.lookup n).isNone) := by
      intro n
      rw [UMap.lookup_insert_ite]
      by_cases hn : n = callee
      · simp [hn]
      · simp [hn]
    have hfewer : (all.filter fun n => (AList.lookup n (s.parent.insert callee caller)).isNone).length
        < (all.filter fun n => (s.parent.lookup n).isNone).length := by
      simp only [hunmet]
      rw [← List.filter_filter]
      refine List.length_filter_lt_length_iff_exists.mpr ⟨callee, ?_, by simp⟩
      exact List.mem_filter.mpr ⟨h, by simpa using hnew⟩
    unfold room
    dsimp only
    rw [List.length_append, List.length_singleton]
    omega

theorem room_foldl_meet {all callees : List Str} (h : ∀ c ∈ callees, c ∈ all) (s : CallSearch)
    (caller : Str) (depth : Nat) :
    (callees.foldl (fun s c => s.meet c caller depth) s).room all ≤ s.room all := by
  induction callees generalizing s with
  | nil => exact Nat.le_refl _
  | cons c rest ih =>
      exact (ih (fun d hd => h d (List.mem_cons_of_mem _ hd)) _).trans
        (room_meet (h c List.mem_cons_self) s caller depth)

theorem room_start {all seeds : List Str} (h : ∀ c ∈ seeds, c ∈ all) :
    (start seeds).room all ≤ all.length := by
  refine (room_foldl_meet h {} [] 0).trans ?_
  unfold room
  simp

theorem room_pop (all : List Str) {s : CallSearch} {q : Str × Nat} {rest : List (Str × Nat)}
    (h : s.queue = q :: rest) : s.room all = { s with queue := rest }.room all + 1 := by
  unfold room
  dsimp only
  rw [h, List.length_cons]
  omega

end CallSearch

/-- Two walks report alike when they do on the part that a predicate keeps, and the rest reports
nothing. -/
theorem flatMap_eq_of_filter {α β : Type} {p : α → Bool} {l l' : List α} {f f' : α → List β}
    (hfilter : l.filter p = l'.filter p) (hoff : ∀ x ∈ l, ¬ p x → f x = [])
    (hoff' : ∀ x ∈ l', ¬ p x → f' x = []) (hon : ∀ x ∈ l.filter p, f x = f' x) :
    l.flatMap f = l'.flatMap f' := by
  have hkeep : ∀ {l : List α} {f : α → List β}, (∀ x ∈ l, ¬ p x → f x = []) →
      l.flatMap f = (l.filter p).flatMap f := by
    intro l f hoff
    induction l with
    | nil => rfl
    | cons x rest ih =>
        have hrest := ih fun y hy => hoff y (List.mem_cons_of_mem _ hy)
        by_cases hx : p x
        · rw [List.filter_cons_of_pos hx, List.flatMap_cons, List.flatMap_cons, hrest]
        · rw [List.filter_cons_of_neg hx, List.flatMap_cons, hoff x List.mem_cons_self hx, hrest]
          rfl
  rw [hkeep hoff, hkeep hoff', ← hfilter]
  exact List.flatMap_congr hon

/-! ### Escaping exceptions -/

/-- The function neither stops an exception nor throws one. -/
def PassesOn (ss : List FunctionSummaryEntry) (n : Str) : Prop :=
  ∀ s ∈ named ss n, ¬ s.isNoexcept ∧ ¬ s.hasUncaughtThrow

/-- Some summary under the name has an uncaught throw. -/
def Throws (ss : List FunctionSummaryEntry) (n : Str) : Prop := ∃ s ∈ named ss n, s.hasUncaughtThrow

/-- The first passes on what the second, which it calls unguarded, throws. -/
def unguardedStep (ss : List FunctionSummaryEntry) (a b : Str) : Prop :=
  PassesOn ss a ∧ ∃ s ∈ named ss a, b ∈ s.unguardedCalls

/-- Unguarded calls lead from a function to one at a depth. -/
def UnguardedTo (ss : List FunctionSummaryEntry) (root m : Str) (depth : Nat) : Prop :=
  depth < kMaxDepth ∧
    ∃ s ∈ named ss root, ∃ seed ∈ s.unguardedCalls, Steps (unguardedStep ss) seed depth m

/-- A noexcept function from which a throw is reached. -/
def MayEscape (ss : List FunctionSummaryEntry) (n : Str) : Prop :=
  (∃ s ∈ named ss n, s.isNoexcept) ∧ (Throws ss n ∨ ∃ m depth, UnguardedTo ss n m depth ∧ Throws ss m)

/-- A noexcept function from which a throw is reached has one site, and no list of calls on
the way depends on the order of the entries. -/
structure EscapeSettled (ss : List FunctionSummaryEntry) (n : Str) : Prop where
  site : ∀ s ∈ named ss n, ∀ s' ∈ named ss n, s.filePath = s'.filePath ∧ s.line = s'.line
  seeds : ¬ Throws ss n → FixedList (·.unguardedCalls) ss n
  calls : ¬ Throws ss n → ∀ m depth, UnguardedTo ss n m depth → depth + 1 < kMaxDepth →
    PassesOn ss m → FixedList (·.unguardedCalls) ss m

section Escape

variable {is is' : List StaticInitEntry} {ss ss' : List FunctionSummaryEntry} {g g' : GlobalIndex}

theorem Indexed.throws_iff (h : Indexed is ss g) {n : Str} {s : FunctionSummaryEntry}
    (hs : g.findFunctionSummary n = some s) : s.hasUncaughtThrow ↔ Throws ss n :=
  (h.summaryOf hs).throws

theorem UnguardedTo.next (h : Indexed is ss g) {root m : Str} {depth : Nat}
    (hm : UnguardedTo ss root m depth) {s : FunctionSummaryEntry}
    (hs : g.findFunctionSummary m = some s) (hthrow : ¬ s.hasUncaughtThrow)
    (hnoexcept : ¬ s.isNoexcept) (hdepth : depth + 1 < kMaxDepth) :
    ∀ c ∈ s.unguardedCalls, UnguardedTo ss root c (depth + 1) := by
  intro c hc
  have hof := h.summaryOf hs
  obtain ⟨-, root_s, hroot, seed, hseed, hsteps⟩ := hm
  refine ⟨hdepth, root_s, hroot, seed, hseed, hsteps.succ ⟨fun e he => ⟨?_, ?_⟩, ?_⟩⟩
  · exact fun hc => hnoexcept (hof.noexcept.mpr ⟨e, he, hc⟩)
  · exact fun hc => hthrow (hof.throws.mpr ⟨e, he, hc⟩)
  · exact (hof.unguarded c).mp hc

theorem passesOn_of (h : Indexed is ss g) {m : Str} {s : FunctionSummaryEntry}
    (hs : g.findFunctionSummary m = some s) (hthrow : ¬ s.hasUncaughtThrow)
    (hnoexcept : ¬ s.isNoexcept) : PassesOn ss m := fun e he =>
  ⟨fun hc => hnoexcept ((h.summaryOf hs).noexcept.mpr ⟨e, he, hc⟩),
    fun hc => hthrow ((h.summaryOf hs).throws.mpr ⟨e, he, hc⟩)⟩

theorem findThrow_quiet (h : Indexed is ss g) {root : Str}
    (hquiet : ∀ m depth, UnguardedTo ss root m depth → ¬ Throws ss m) (fuel : Nat) {s : CallSearch}
    (hq : s.Queued (UnguardedTo ss root)) : findThrow g fuel s = none := by
  induction fuel generalizing s with
  | zero => rfl
  | succ fuel ih =>
      unfold findThrow
      cases hqueue : s.queue with
      | nil => rfl
      | cons q rest =>
          obtain ⟨hhead, hrest⟩ := hq.dequeue hqueue
          dsimp only
          cases hs : g.findFunctionSummary q.1 with
          | none => exact ih hrest
          | some summary =>
              have hthrow : ¬ summary.hasUncaughtThrow := fun hc =>
                hquiet q.1 q.2 hhead ((h.throws_iff hs).mp hc)
              dsimp only
              rw [if_neg hthrow]
              split
              · exact ih hrest
              · rename_i hdepth
                split
                · exact ih hrest
                · rename_i hnoexcept
                  exact ih (CallSearch.queued_foldl_meet _ hrest
                    (hhead.next h hs hthrow hnoexcept (Nat.not_le.mp hdepth)) q.1)

/-- **Where no list on the way depends on the order** the two searches are one. -/
theorem findThrow_congr (h : Indexed is ss g) (h' : Indexed is' ss' g') (hperm : ss.Perm ss')
    {root : Str} (hfixed : ∀ m depth, UnguardedTo ss root m depth → depth + 1 < kMaxDepth →
      PassesOn ss m → FixedList (·.unguardedCalls) ss m) (fuel : Nat) {s : CallSearch}
    (hq : s.Queued (UnguardedTo ss root)) : findThrow g fuel s = findThrow g' fuel s := by
  induction fuel generalizing s with
  | zero => rfl
  | succ fuel ih =>
      unfold findThrow
      cases hqueue : s.queue with
      | nil => rfl
      | cons q rest =>
          obtain ⟨hhead, hrest⟩ := hq.dequeue hqueue
          have hsome := h.isSome_eq h' hperm q.1
          dsimp only
          cases hs : g.findFunctionSummary q.1 with
          | none =>
              rw [hs] at hsome
              rw [Option.isSome_eq_false_iff.mp hsome.symm |> Option.isNone_iff_eq_none.mp]
              exact ih hrest
          | some summary =>
              rw [hs] at hsome
              obtain ⟨summary', hs'⟩ := Option.isSome_iff_exists.mp hsome.symm
              have hof := h.summaryOf hs
              have hof' := h'.summaryOf hs'
              have hthrow : summary.hasUncaughtThrow = summary'.hasUncaughtThrow := by
                rw [Bool.eq_iff_iff, hof.throws, hof'.throws]
                simp only [mem_named_perm hperm]
              have hnoexcept : summary.isNoexcept = summary'.isNoexcept := by
                rw [Bool.eq_iff_iff, hof.noexcept, hof'.noexcept]
                simp only [mem_named_perm hperm]
              rw [hs']
              dsimp only
              rw [← hthrow, ← hnoexcept]
              split
              · rfl
              · rename_i hnothrow
                split
                · exact ih hrest
                · rename_i hdepth
                  have hdepth := Nat.not_le.mp hdepth
                  split
                  · exact ih hrest
                  · rename_i hmay
                    have hlist := h.list_eq h' hperm (f := (·.unguardedCalls)) (fun _ _ => rfl)
                      (hfixed q.1 q.2 hhead hdepth (passesOn_of h hs hnothrow hmay))
                    rw [hs, hs'] at hlist
                    have hlist : summary.unguardedCalls = summary'.unguardedCalls :=
                      Option.some.inj hlist
                    rw [← hlist]
                    exact ih (CallSearch.queued_foldl_meet _ hrest
                      (hhead.next h hs hnothrow hmay hdepth) q.1)

/-- Enough fuel: more makes no difference. -/
theorem findThrow_more (all : List Str)
    (hall : ∀ n s, g.findFunctionSummary n = some s → ∀ c ∈ s.unguardedCalls, c ∈ all) (fuel more : Nat)
    {s : CallSearch} (hroom : s.room all < fuel) :
    findThrow g (fuel + more) s = findThrow g fuel s := by
  induction fuel generalizing s with
  | zero => exact absurd hroom (Nat.not_lt_zero _)
  | succ fuel ih =>
      rw [Nat.succ_add]
      unfold findThrow
      cases hqueue : s.queue with
      | nil => rfl
      | cons q rest =>
          have hpop := CallSearch.room_pop all hqueue
          have hrest : CallSearch.room all { s with queue := rest } < fuel := by omega
          dsimp only
          cases hs : g.findFunctionSummary q.1 with
          | none => exact ih hrest
          | some summary =>
              have hmeet := CallSearch.room_foldl_meet (hall q.1 summary hs)
                { s with queue := rest } q.1 (q.2 + 1)
              dsimp only
              rw [ih hrest, ih (Nat.lt_of_le_of_lt hmeet hrest)]

theorem Indexed.mem_summaries (h : Indexed is ss g) {r : FunctionSummaryEntry}
    (hr : r ∈ g.functionSummaries) : g.findFunctionSummary r.qualifiedName = some r := by
  rw [h.summaries] at hr
  rw [h.find]
  exact mem_foldl_put merges_summary hr

theorem Indexed.mem_of_find (h : Indexed is ss g) {n : Str} {s : FunctionSummaryEntry}
    (hs : g.findFunctionSummary n = some s) : s ∈ g.functionSummaries ∧ s.qualifiedName = n := by
  rw [h.wf.findFunctionSummary_eq] at hs
  exact ⟨List.mem_of_find?_eq_some hs, by simpa using List.find?_some hs⟩

theorem queued_unguarded {root : Str} (h : Indexed is ss g) {r : FunctionSummaryEntry}
    (hr : g.findFunctionSummary root = some r) :
    (CallSearch.start r.unguardedCalls).Queued (UnguardedTo ss root) := by
  refine CallSearch.queued_start fun c hc => ⟨by decide, ?_⟩
  obtain ⟨s, hs, hcs⟩ := ((h.summaryOf hr).unguarded c).mp hc
  exact ⟨s, hs, c, hcs, .zero⟩

/-- The search for a throw has enough fuel. -/
theorem findThrow_fuel (h : Indexed is ss g) (r : FunctionSummaryEntry) (more : Nat) :
    findThrow g (throwFuel g r + more) (CallSearch.start r.unguardedCalls)
      = findThrow g (throwFuel g r) (CallSearch.start r.unguardedCalls) := by
  refine findThrow_more (r.unguardedCalls ++ g.functionSummaries.flatMap (·.unguardedCalls)) ?_ _
    more ?_
  · intro n s hs c hc
    exact List.mem_append_right _ (List.mem_flatMap.mpr ⟨s, (h.mem_of_find hs).1, hc⟩)
  · refine Nat.lt_of_le_of_lt (CallSearch.room_start fun c hc => List.mem_append_left _ hc) ?_
    rw [List.length_append, List.length_flatMap]
    exact Nat.lt_succ_self _

theorem escapeOf_quiet (h : Indexed is ss g) {n : Str} {r : FunctionSummaryEntry}
    (hr : g.findFunctionSummary n = some r) (hnoexcept : r.isNoexcept) (hmay : ¬ MayEscape ss n) :
    escapeOf g r = [] := by
  have hof := h.summaryOf hr
  have hfree : ¬ (Throws ss n ∨ ∃ m depth, UnguardedTo ss n m depth ∧ Throws ss m) :=
    fun hc => hmay ⟨hof.noexcept.mp hnoexcept, hc⟩
  rw [not_or] at hfree
  unfold escapeOf
  rw [if_neg fun hc => hfree.1 (hof.throws.mp hc),
    findThrow_quiet h (fun m depth hm hthrow => hfree.2 ⟨m, depth, hm, hthrow⟩) _
      (queued_unguarded h hr)]

theorem escapeOf_congr (h : Indexed is ss g) (h' : Indexed is' ss' g') (hperm : ss.Perm ss')
    {n : Str} (hset : EscapeSettled ss n) {r r' : FunctionSummaryEntry}
    (hr : g.findFunctionSummary n = some r) (hr' : g'.findFunctionSummary n = some r') :
    summaryTie r = summaryTie r' ∧ escapeOf g r = escapeOf g' r' := by
  have hof := h.summaryOf hr
  have hof' := h'.summaryOf hr'
  have hname : r.qualifiedName = r'.qualifiedName :=
    (h.mem_of_find hr).2.trans (h'.mem_of_find hr').2.symm
  have hsite : r.filePath = r'.filePath ∧ r.line = r'.line := by
    obtain ⟨e, he, -, hfile, hline⟩ := hof.site
    obtain ⟨e', he', -, hfile', hline'⟩ := hof'.site
    obtain ⟨hf, hl⟩ := hset.site e he e' ((mem_named_perm hperm).mpr he')
    exact ⟨hfile.trans (hf.trans hfile'.symm), hline.trans (hl.trans hline'.symm)⟩
  have hthrow : r.hasUncaughtThrow = r'.hasUncaughtThrow := by
    rw [Bool.eq_iff_iff, hof.throws, hof'.throws]
    simp only [mem_named_perm hperm]
  refine ⟨by unfold summaryTie; rw [hsite.1, hsite.2, hname], ?_⟩
  have hdiag : ∀ hit chain, escapeDiagnostic r hit chain = escapeDiagnostic r' hit chain := by
    intro hit chain
    unfold escapeDiagnostic
    rw [hsite.1, hsite.2, hname]
  have hfound : (if r.hasUncaughtThrow then
        some (r.qualifiedName, r.qualifiedName ++ str " (throw in its own body)")
      else findThrow g (throwFuel g r) (CallSearch.start r.unguardedCalls))
      = if r'.hasUncaughtThrow then
          some (r'.qualifiedName, r'.qualifiedName ++ str " (throw in its own body)")
        else findThrow g' (throwFuel g' r') (CallSearch.start r'.unguardedCalls) := by
    rw [← hthrow, ← hname]
    split
    · rfl
    · rename_i hown
      have hown : ¬ Throws ss n := fun hc => hown (hof.throws.mpr hc)
      have hlist := h.list_eq h' hperm (f := (·.unguardedCalls)) (fun _ _ => rfl) (hset.seeds hown)
      rw [hr, hr'] at hlist
      have hlist : r.unguardedCalls = r'.unguardedCalls := Option.some.inj hlist
      have hfuel := findThrow_fuel h r (throwFuel g' r')
      have hfuel' := findThrow_fuel h' r' (throwFuel g r)
      rw [← hlist, Nat.add_comm] at hfuel'
      rw [← hlist, ← hfuel, ← hfuel']
      exact findThrow_congr h h' hperm (hset.calls hown) _ (queued_unguarded h hr)
  unfold escapeOf
  rw [hfound]
  simp only [hdiag]

/-- The ties of the roots of the analysis. -/
def rootTies (g : GlobalIndex) : List (Str × UInt32 × Str) :=
  (g.functionSummaries.filter (·.isNoexcept)).map summaryTie

/-- The analysis looks each root up again under its name. -/
theorem Indexed.analyzeExceptionEscape_eq (h : Indexed is ss g) :
    analyzeExceptionEscape g = (Ordered.sortBy tieLess id (rootTies g)).flatMap
      fun tie => (g.findFunctionSummary tie.2.2).elim [] (escapeOf g) := by
  have hmap : (sortByTie summaryTie (g.functionSummaries.filter (·.isNoexcept))).map summaryTie
      = Ordered.sortBy tieLess id (rootTies g) :=
    List.map_mergeSort fun _ _ _ _ => rfl
  unfold analyzeExceptionEscape
  rw [← hmap, List.flatMap_map]
  refine List.flatMap_congr fun r hr => ?_
  have hmem := (Ordered.perm_sortBy tieLess summaryTie _).mem_iff.mp hr
  have hfind := h.mem_summaries (List.mem_filter.mp hmem).1
  exact (congrArg (fun found => Option.elim found [] (escapeOf g)) hfind).symm

theorem Indexed.mem_rootTies (h : Indexed is ss g) {tie : Str × UInt32 × Str} :
    tie ∈ rootTies g ↔
      ∃ r, g.findFunctionSummary tie.2.2 = some r ∧ r.isNoexcept ∧ summaryTie r = tie := by
  unfold rootTies
  rw [List.mem_map]
  constructor
  · rintro ⟨r, hr, rfl⟩
    obtain ⟨hr, hno⟩ := List.mem_filter.mp hr
    exact ⟨r, h.mem_summaries hr, hno, rfl⟩
  · rintro ⟨r, hr, hno, htie⟩
    exact ⟨r, List.mem_filter.mpr ⟨(h.mem_of_find hr).1, hno⟩, htie⟩

theorem Indexed.nodup_rootTies (h : Indexed is ss g) : (rootTies g).Nodup := by
  unfold rootTies
  refine List.Nodup.of_map (fun tie : Str × UInt32 × Str => tie.2.2) ?_
  rw [List.map_map]
  have hkeys := nodup_foldl_put merges_summary ss (l := []) List.nodup_nil
  rw [← h.summaries] at hkeys
  exact hkeys.sublist (List.filter_sublist.map _)

theorem mayEscape_perm (hperm : ss.Perm ss') (n : Str) : MayEscape ss n ↔ MayEscape ss' n := by
  have hstep : unguardedStep ss = unguardedStep ss' := by
    funext a b
    unfold unguardedStep PassesOn
    simp only [mem_named_perm hperm]
  have hto : ∀ n m depth, UnguardedTo ss n m depth ↔ UnguardedTo ss' n m depth := by
    intro n m depth
    unfold UnguardedTo
    simp only [mem_named_perm hperm, hstep]
  unfold MayEscape Throws
  simp only [mem_named_perm hperm, hto]

/-- Both indexes have the roots that may report, with the same ties. -/
theorem mem_rootTies_congr (h : Indexed is ss g) (h' : Indexed is' ss' g') (hperm : ss.Perm ss')
    (hset : ∀ n, MayEscape ss n → EscapeSettled ss n) {tie : Str × UInt32 × Str}
    (hm : MayEscape ss tie.2.2) : tie ∈ rootTies g ↔ tie ∈ rootTies g' := by
  rw [h.mem_rootTies, h'.mem_rootTies]
  have hsome := h.isSome_eq h' hperm tie.2.2
  cases hr : g.findFunctionSummary tie.2.2 with
  | none =>
      rw [hr] at hsome
      have hr' : g'.findFunctionSummary tie.2.2 = none := by simpa using hsome.symm
      rw [hr']
  | some r =>
      rw [hr] at hsome
      obtain ⟨r', hr'⟩ := Option.isSome_iff_exists.mp hsome.symm
      have htie := (escapeOf_congr h h' hperm (hset _ hm) hr hr').1
      have hno : r.isNoexcept ↔ r'.isNoexcept := by
        rw [(h.summaryOf hr).noexcept, (h'.summaryOf hr').noexcept]
        simp only [mem_named_perm hperm]
      rw [hr']
      simp only [Option.some.injEq, exists_eq_left', hno, htie]

open Classical in
theorem analyzeExceptionEscape_congr (h : Indexed is ss g) (h' : Indexed is' ss' g')
    (hperm : ss.Perm ss') (hset : ∀ n, MayEscape ss n → EscapeSettled ss n) :
    analyzeExceptionEscape g = analyzeExceptionEscape g' := by
  rw [h.analyzeExceptionEscape_eq, h'.analyzeExceptionEscape_eq]
  -- on the roots that may report, the walks meet the same sites
  refine flatMap_eq_of_filter (p := fun tie => decide (MayEscape ss tie.2.2)) ?_ ?_ ?_ ?_
  · refine Ordered.filter_sortBy_eq strict_tieLess ?_ fun _ _ _ _ htie => htie
    refine (List.perm_ext_iff_of_nodup (h.nodup_rootTies.filter _)
      (h'.nodup_rootTies.filter _)).mpr fun tie => ?_
    simp only [List.mem_filter, decide_eq_true_eq]
    exact and_congr_left fun hm => mem_rootTies_congr h h' hperm hset hm
  · intro tie htie hm
    have hmem := (Ordered.perm_sortBy tieLess id _).mem_iff.mp htie
    obtain ⟨r, hr, hno, -⟩ := h.mem_rootTies.mp hmem
    rw [hr]
    exact escapeOf_quiet h hr hno (by simpa using hm)
  · intro tie htie hm
    have hmem := (Ordered.perm_sortBy tieLess id _).mem_iff.mp htie
    obtain ⟨r, hr, hno, -⟩ := h'.mem_rootTies.mp hmem
    rw [hr]
    exact escapeOf_quiet h' hr hno (by simpa [← mayEscape_perm hperm] using hm)
  · intro tie htie
    obtain ⟨htie, hm⟩ := List.mem_filter.mp htie
    have hm : MayEscape ss tie.2.2 := of_decide_eq_true hm
    have hmem := (Ordered.perm_sortBy tieLess id _).mem_iff.mp htie
    obtain ⟨r, hr, -, -⟩ := h.mem_rootTies.mp hmem
    obtain ⟨r', hr', -, -⟩ :=
      h'.mem_rootTies.mp ((mem_rootTies_congr h h' hperm hset hm).mp hmem)
    rw [hr, hr']
    exact (escapeOf_congr h h' hperm (hset _ hm) hr hr').2

end Escape

/-! ### Static initialization order

The same argument with references in place of throws: each list that a walk
meets is fixed, so both indexes walk alike.
-/

/-- The entry would be initialized from the target in another file. -/
def IsTarget (entry target : StaticInitEntry) : Prop :=
  target.dynamicInit ∧ ¬ target.isConstructorFn ∧ target.filePath ≠ entry.filePath

instance (entry target : StaticInitEntry) : Decidable (IsTarget entry target) := by
  unfold IsTarget
  infer_instance

/-- An initializer under the name that the entry may be reported with. -/
def HasTarget (is : List StaticInitEntry) (entry : StaticInitEntry) (ref : Str) : Prop :=
  ∃ t ∈ is, t.qualifiedName = ref ∧ IsTarget entry t

/-- Whatever stands under the name or its dedup key is the same target. -/
def TargetSettled (is : List StaticInitEntry) (entry : StaticInitEntry) (ref : Str) : Prop :=
  ∀ t ∈ is, t.qualifiedName = ref → IsTarget entry t →
    ∀ t' ∈ is, t'.qualifiedName = ref ∨ staticInitKey t' = staticInitKey t →
      t'.qualifiedName = ref ∧ t'.filePath = t.filePath ∧ t'.line = t.line ∧ IsTarget entry t'

/-- Some summary of one function lists the other among its calls. -/
def calledStep (ss : List FunctionSummaryEntry) (a b : Str) : Prop :=
  ∃ s ∈ named ss a, b ∈ s.calledFunctions

/-- Calls lead from an initializer to a function at a depth. -/
def CalledTo (ss : List FunctionSummaryEntry) (entry : StaticInitEntry) (m : Str) (depth : Nat) :
    Prop :=
  depth < kMaxDepth ∧ ∃ seed ∈ entry.calledFunctions, Steps (calledStep ss) seed depth m

/-- A function that the initializer calls reads the global. -/
def ReadByCalls (ss : List FunctionSummaryEntry) (entry : StaticInitEntry) (ref : Str) : Prop :=
  ∃ m depth, CalledTo ss entry m depth ∧ ∃ s ∈ named ss m, ref ∈ s.referencedGlobals

/-- The initializer reads a target. -/
def MayDepend (is : List StaticInitEntry) (ss : List FunctionSummaryEntry)
    (entry : StaticInitEntry) : Prop :=
  ∃ ref, (ref ∈ entry.referencedGlobals ∨ ReadByCalls ss entry ref) ∧ HasTarget is entry ref

/-- An initializer that reads a target is the only one of its dedup key, its targets are
settled, and if calls lead to one, no list of a function on the way depends on the order. -/
structure DependencySettled (is : List StaticInitEntry) (ss : List FunctionSummaryEntry)
    (entry : StaticInitEntry) : Prop where
  alone : ∀ e ∈ is, staticInitKey e = staticInitKey entry → e = entry
  target : ∀ ref, ref ∈ entry.referencedGlobals ∨ ReadByCalls ss entry ref → TargetSettled is entry ref
  calls : (∃ ref, ReadByCalls ss entry ref ∧ HasTarget is entry ref) →
    ∀ m depth, CalledTo ss entry m depth → FixedList (·.referencedGlobals) ss m ∧
      (depth + 1 < kMaxDepth → FixedList (·.calledFunctions) ss m)

section Init

variable {is is' : List StaticInitEntry} {ss ss' : List FunctionSummaryEntry} {g g' : GlobalIndex}
  {entry : StaticInitEntry}

theorem Indexed.findStaticInit (h : Indexed is ss g) (n : Str) :
    g.findStaticInit n = (is.foldl (put staticInitKey first) []).find? (·.qualifiedName = n) := by
  rw [h.wf.findStaticInit_eq]
  exact congrArg (List.find? _) h.inits

theorem Indexed.mem_of_findStaticInit (h : Indexed is ss g) {n : Str} {t : StaticInitEntry}
    (ht : g.findStaticInit n = some t) : t ∈ is ∧ t.qualifiedName = n := by
  rw [h.findStaticInit] at ht
  exact ⟨mem_of_mem_foldl_first (List.mem_of_find?_eq_some ht), by simpa using List.find?_some ht⟩

theorem resolveTarget_eq (entry : StaticInitEntry) (ref : Str) :
    resolveTarget g entry ref = (g.findStaticInit ref).filter fun t => decide (IsTarget entry t) := by
  unfold resolveTarget
  congr 1
  funext t
  unfold IsTarget
  simp [Bool.and_assoc]

theorem resolveTarget_none (h : Indexed is ss g) {ref : Str} (hnone : ¬ HasTarget is entry ref) :
    resolveTarget g entry ref = none := by
  rw [resolveTarget_eq]
  cases hfind : g.findStaticInit ref with
  | none => rfl
  | some t =>
      obtain ⟨ht, hname⟩ := h.mem_of_findStaticInit hfind
      exact Option.filter_some_neg (by simpa using fun hc => hnone ⟨t, ht, hname, hc⟩)

theorem resolveTarget_some (h : Indexed is ss g) {ref : Str} (hset : TargetSettled is entry ref)
    {t : StaticInitEntry} (ht : t ∈ is) (hname : t.qualifiedName = ref) (htarget : IsTarget entry t) :
    ∃ x, resolveTarget g entry ref = some x ∧ x.qualifiedName = t.qualifiedName ∧
      x.filePath = t.filePath ∧ x.line = t.line := by
  obtain ⟨y, hy, hkey⟩ := exists_mem_foldl_first staticInitKey ht
  have hyname : y.qualifiedName = ref :=
    (hset t ht hname htarget y (mem_of_mem_foldl_first hy) (Or.inr hkey)).1
  have hsome : (g.findStaticInit ref).isSome := by
    rw [h.findStaticInit]
    exact List.find?_isSome.mpr ⟨y, hy, decide_eq_true hyname⟩
  obtain ⟨x, hx⟩ := Option.isSome_iff_exists.mp hsome
  obtain ⟨hmem, hxname⟩ := h.mem_of_findStaticInit hx
  obtain ⟨-, hfile, hline, hxtarget⟩ := hset t ht hname htarget x hmem (Or.inl hxname)
  refine ⟨x, ?_, hxname.trans hname.symm, hfile, hline⟩
  rw [resolveTarget_eq, hx]
  exact Option.filter_some_pos (decide_eq_true hxtarget)

/-- What a reference makes of the walk. -/
def reportRef (index : GlobalIndex) (entry : StaticInitEntry) (chain : Str) (w : OrderWalk)
    (ref : Str) : OrderWalk :=
  match resolveTarget index entry ref with
  | some target => w.report entry target chain
  | none => w

theorem reportRef_congr (h : Indexed is ss g) (h' : Indexed is' ss' g')
    (hsame : ∀ e, e ∈ is ↔ e ∈ is') {ref : Str} (hset : TargetSettled is entry ref) (chain : Str)
    (w : OrderWalk) : reportRef g entry chain w ref = reportRef g' entry chain w ref := by
  unfold reportRef
  by_cases htarget : HasTarget is entry ref
  · obtain ⟨t, ht, hname, hit⟩ := htarget
    have hset' : TargetSettled is' entry ref := fun t ht hname hit t' ht' =>
      hset t ((hsame t).mpr ht) hname hit t' ((hsame t').mpr ht')
    obtain ⟨x, hx, hxname, hxfile, hxline⟩ := resolveTarget_some h hset ht hname hit
    obtain ⟨x', hx', hxname', hxfile', hxline'⟩ :=
      resolveTarget_some h' hset' ((hsame t).mp ht) hname hit
    rw [hx, hx']
    dsimp only
    unfold OrderWalk.report orderDiagnostic
    rw [hxname, hxname', hxfile, hxfile', hxline, hxline']
  · have htarget' : ¬ HasTarget is' entry ref := fun ⟨t, ht, hit⟩ => htarget ⟨t, (hsame t).mpr ht, hit⟩
    rw [resolveTarget_none h htarget, resolveTarget_none h' htarget']

theorem reportRefs_congr (h : Indexed is ss g) (h' : Indexed is' ss' g')
    (hsame : ∀ e, e ∈ is ↔ e ∈ is') {refs : List Str}
    (hset : ∀ ref ∈ refs, TargetSettled is entry ref) (chain : Str) (w : OrderWalk) :
    OrderWalk.reportRefs g entry chain refs w = OrderWalk.reportRefs g' entry chain refs w :=
  List.foldl_ext _ _ w fun w ref href => reportRef_congr h h' hsame (hset ref href) chain w

theorem reportRefs_quiet (h : Indexed is ss g) {refs : List Str}
    (hnone : ∀ ref ∈ refs, ¬ HasTarget is entry ref) (chain : Str) (w : OrderWalk) :
    OrderWalk.reportRefs g entry chain refs w = w := by
  unfold OrderWalk.reportRefs
  induction refs generalizing w with
  | nil => rfl
  | cons ref rest ih =>
      rw [List.foldl_cons, resolveTarget_none h (hnone ref List.mem_cons_self)]
      exact ih (fun r hr => hnone r (List.mem_cons_of_mem _ hr)) w

/-- Reporting leaves the search as it is. -/
theorem reportRefs_search (entry : StaticInitEntry) (chain : Str) (refs : List Str) (w : OrderWalk) :
    (OrderWalk.reportRefs g entry chain refs w).toCallSearch = w.toCallSearch := by
  unfold OrderWalk.reportRefs
  induction refs generalizing w with
  | nil => rfl
  | cons ref rest ih =>
      rw [List.foldl_cons, ih]
      cases resolveTarget g entry ref with
      | none => rfl
      | some t =>
          dsimp only
          unfold OrderWalk.report
          split <;> rfl

theorem CalledTo.next (h : Indexed is ss g) {m : Str} {depth : Nat} (hm : CalledTo ss entry m depth)
    {s : FunctionSummaryEntry} (hs : g.findFunctionSummary m = some s)
    (hdepth : depth + 1 < kMaxDepth) : ∀ c ∈ s.calledFunctions, CalledTo ss entry c (depth + 1) := by
  intro c hc
  obtain ⟨-, seed, hseed, hsteps⟩ := hm
  exact ⟨hdepth, seed, hseed, hsteps.succ (((h.summaryOf hs).called c).mp hc)⟩

theorem CalledTo.reads (h : Indexed is ss g) {m : Str} {depth : Nat} (hm : CalledTo ss entry m depth)
    {s : FunctionSummaryEntry} (hs : g.findFunctionSummary m = some s) :
    ∀ ref ∈ s.referencedGlobals, ReadByCalls ss entry ref := fun ref href =>
  ⟨m, depth, hm, ((h.summaryOf hs).referenced ref).mp href⟩

theorem followCalls_quiet (h : Indexed is ss g)
    (hquiet : ∀ ref, ReadByCalls ss entry ref → ¬ HasTarget is entry ref) (fuel : Nat)
    {w : OrderWalk} (hq : w.Queued (CalledTo ss entry)) :
    (followCalls g entry fuel w).diagnostics = w.diagnostics := by
  induction fuel generalizing w with
  | zero => rfl
  | succ fuel ih =>
      unfold followCalls
      cases hqueue : w.queue with
      | nil => rfl
      | cons q rest =>
          obtain ⟨hhead, hrest⟩ := hq.dequeue hqueue
          dsimp only
          cases hs : g.findFunctionSummary q.1 with
          | none => exact ih (w := { w with queue := rest }) hrest
          | some summary =>
              dsimp only
              rw [reportRefs_quiet h fun ref href => hquiet ref (hhead.reads h hs ref href)]
              split
              · exact ih (w := { w with queue := rest }) hrest
              · rename_i hdepth
                exact ih (w := { w with toCallSearch := _ }) (CallSearch.queued_foldl_meet _ hrest
                  (hhead.next h hs (Nat.not_le.mp hdepth)) q.1)

/-- **Where no list on the way depends on the order** the two walks are one. -/
theorem followCalls_congr (h : Indexed is ss g) (h' : Indexed is' ss' g')
    (hsame : ∀ e, e ∈ is ↔ e ∈ is') (hperm : ss.Perm ss')
    (htarget : ∀ ref, ReadByCalls ss entry ref → TargetSettled is entry ref)
    (hfixed : ∀ m depth, CalledTo ss entry m depth → FixedList (·.referencedGlobals) ss m ∧
      (depth + 1 < kMaxDepth → FixedList (·.calledFunctions) ss m)) (fuel : Nat) {w : OrderWalk}
    (hq : w.Queued (CalledTo ss entry)) : followCalls g entry fuel w = followCalls g' entry fuel w := by
  induction fuel generalizing w with
  | zero => rfl
  | succ fuel ih =>
      unfold followCalls
      cases hqueue : w.queue with
      | nil => rfl
      | cons q rest =>
          obtain ⟨hhead, hrest⟩ := hq.dequeue hqueue
          have hsome := h.isSome_eq h' hperm q.1
          dsimp only
          cases hs : g.findFunctionSummary q.1 with
          | none =>
              rw [hs] at hsome
              have hs' : g'.findFunctionSummary q.1 = none := by simpa using hsome.symm
              rw [hs']
              exact ih (w := { w with queue := rest }) hrest
          | some summary =>
              rw [hs] at hsome
              obtain ⟨summary', hs'⟩ := Option.isSome_iff_exists.mp hsome.symm
              obtain ⟨hrefs, hcalls⟩ := hfixed q.1 q.2 hhead
              have hrefs := h.list_eq h' hperm (f := (·.referencedGlobals)) (fun _ _ => rfl) hrefs
              rw [hs, hs'] at hrefs
              have hrefs : summary.referencedGlobals = summary'.referencedGlobals :=
                Option.some.inj hrefs
              rw [hs']
              dsimp only
              rw [← hrefs, ← reportRefs_congr h h' hsame
                fun ref href => htarget ref (hhead.reads h hs ref href)]
              split
              · exact ih (by rw [reportRefs_search]; exact hrest)
              · rename_i hdepth
                have hdepth := Nat.not_le.mp hdepth
                have hlist := h.list_eq h' hperm (f := (·.calledFunctions)) (fun _ _ => rfl)
                  (hcalls hdepth)
                rw [hs, hs'] at hlist
                have hlist : summary.calledFunctions = summary'.calledFunctions :=
                  Option.some.inj hlist
                rw [← hlist]
                refine ih (CallSearch.queued_foldl_meet _ ?_ (hhead.next h hs hdepth) q.1)
                rw [reportRefs_search]
                exact hrest

/-- Enough fuel: more makes no difference. -/
theorem followCalls_more (all : List Str)
    (hall : ∀ n s, g.findFunctionSummary n = some s → ∀ c ∈ s.calledFunctions, c ∈ all)
    (fuel more : Nat) {w : OrderWalk} (hroom : w.room all < fuel) :
    followCalls g entry (fuel + more) w = followCalls g entry fuel w := by
  induction fuel generalizing w with
  | zero => exact absurd hroom (Nat.not_lt_zero _)
  | succ fuel ih =>
      rw [Nat.succ_add]
      unfold followCalls
      cases hqueue : w.queue with
      | nil => rfl
      | cons q rest =>
          have hpop : w.room all = CallSearch.room all { w.toCallSearch with queue := rest } + 1 :=
            CallSearch.room_pop all hqueue
          have hrest : CallSearch.room all { w.toCallSearch with queue := rest } < fuel := by omega
          dsimp only
          cases hs : g.findFunctionSummary q.1 with
          | none => exact ih (w := { w with queue := rest }) hrest
          | some summary =>
              dsimp only
              split
              · exact ih (by rw [reportRefs_search]; exact hrest)
              · refine ih (Nat.lt_of_le_of_lt (CallSearch.room_foldl_meet (hall q.1 summary hs) _ _ _) ?_)
                rw [reportRefs_search]
                exact hrest

theorem queued_called (ss : List FunctionSummaryEntry) (entry : StaticInitEntry) :
    (CallSearch.start entry.calledFunctions).Queued (CalledTo ss entry) :=
  CallSearch.queued_start fun c hc => ⟨by decide, c, hc, .zero⟩

/-- The walk through the calls has enough fuel. -/
theorem followCalls_fuel (h : Indexed is ss g) (entry : StaticInitEntry) (more : Nat) {w : OrderWalk}
    (hw : w.toCallSearch = CallSearch.start entry.calledFunctions) :
    followCalls g entry (followFuel g entry + more) w = followCalls g entry (followFuel g entry) w := by
  refine followCalls_more
    (entry.calledFunctions ++ g.functionSummaries.flatMap (·.calledFunctions)) ?_ _ more ?_
  · intro n s hs c hc
    exact List.mem_append_right _ (List.mem_flatMap.mpr ⟨s, (h.mem_of_find hs).1, hc⟩)
  · rw [hw]
    refine Nat.lt_of_le_of_lt (CallSearch.room_start fun c hc => List.mem_append_left _ hc) ?_
    rw [List.length_append, List.length_flatMap]
    exact Nat.lt_succ_self _

theorem orderDependencies_quiet (h : Indexed is ss g) (hmay : ¬ MayDepend is ss entry) :
    orderDependencies g entry = [] := by
  unfold orderDependencies
  dsimp only
  rw [reportRefs_quiet h fun ref href hc => hmay ⟨ref, Or.inl href, hc⟩]
  exact followCalls_quiet h (fun ref href hc => hmay ⟨ref, Or.inr href, hc⟩) _
    (queued_called ss entry)

theorem orderDependencies_congr (h : Indexed is ss g) (h' : Indexed is' ss' g')
    (hsame : ∀ e, e ∈ is ↔ e ∈ is') (hperm : ss.Perm ss') (hset : DependencySettled is ss entry) :
    orderDependencies g entry = orderDependencies g' entry := by
  have hdirect := reportRefs_congr h h' hsame (fun ref href => hset.target ref (Or.inl href)) []
    ({} : OrderWalk)
  unfold orderDependencies
  dsimp only
  rw [← hdirect]
  by_cases hcalls : ∃ ref, ReadByCalls ss entry ref ∧ HasTarget is entry ref
  · have hfuel := followCalls_fuel h entry (followFuel g' entry)
      (w := { OrderWalk.reportRefs g entry [] entry.referencedGlobals {} with
        toCallSearch := CallSearch.start entry.calledFunctions }) rfl
    have hfuel' := followCalls_fuel h' entry (followFuel g entry)
      (w := { OrderWalk.reportRefs g entry [] entry.referencedGlobals {} with
        toCallSearch := CallSearch.start entry.calledFunctions }) rfl
    rw [Nat.add_comm] at hfuel'
    rw [← hfuel, ← hfuel']
    exact congrArg _ (followCalls_congr h h' hsame hperm (fun ref href => hset.target ref (Or.inr href))
      (hset.calls hcalls) _ (queued_called ss entry))
  · -- the calls read no target, in either order
    have hread : ∀ ref, ReadByCalls ss' entry ref → ¬ HasTarget is' entry ref := by
      rintro ref ⟨m, depth, ⟨hdepth, seed, hseed, hsteps⟩, s, hs, href⟩ ⟨t, ht, hit⟩
      refine hcalls ⟨ref, ⟨m, depth, ⟨hdepth, seed, hseed, hsteps.mono ?_⟩, s, ?_, href⟩,
        t, (hsame t).mpr ht, hit⟩
      · rintro a b ⟨s, hs, hb⟩
        exact ⟨s, (mem_named_perm hperm).mpr hs, hb⟩
      · exact (mem_named_perm hperm).mpr hs
    have hq := queued_called ss entry
    have hq' := queued_called ss' entry
    exact (followCalls_quiet h (fun ref href hc => hcalls ⟨ref, href, hc⟩) _ hq).trans
      (followCalls_quiet h' hread _ hq').symm

open Classical in
theorem analyzeStaticInitOrder_congr (h : Indexed is ss g) (h' : Indexed is' ss' g')
    (hsame : ∀ e, e ∈ is ↔ e ∈ is') (hperm : ss.Perm ss')
    (hset : ∀ e ∈ is, readsAtInit e → MayDepend is ss e → DependencySettled is ss e) :
    analyzeStaticInitOrder g = analyzeStaticInitOrder g' := by
  have hread : ∀ e ref, ReadByCalls ss e ref ↔ ReadByCalls ss' e ref := by
    intro e ref
    have hstep : calledStep ss = calledStep ss' := by
      funext a b
      unfold calledStep
      simp only [mem_named_perm hperm]
    unfold ReadByCalls CalledTo
    simp only [mem_named_perm hperm, hstep]
  have hmay : ∀ e, MayDepend is ss e ↔ MayDepend is' ss' e := by
    intro e
    unfold MayDepend HasTarget
    simp only [hread, hsame]
  have hnodup : ∀ {is : List StaticInitEntry} {ss : List FunctionSummaryEntry} {g : GlobalIndex},
      Indexed is ss g → (g.staticInits.map staticInitKey).Nodup := by
    intro is ss g h
    rw [h.inits]
    exact nodup_foldl_put (merges_first _) is List.nodup_nil
  -- an initializer that may depend is kept in every order
  have hkept : ∀ {e : StaticInitEntry}, readsAtInit e → MayDepend is ss e →
      (e ∈ g.staticInits ↔ e ∈ g'.staticInits) := by
    intro e hreads hm
    have hstay : ∀ {is'' : List StaticInitEntry}, (∀ x, x ∈ is'' → x ∈ is) → e ∈ is → e ∈ is'' →
        e ∈ is''.foldl (put staticInitKey first) [] := by
      intro is'' hsub he he''
      obtain ⟨x, hx, hkey⟩ := exists_mem_foldl_first staticInitKey he''
      have hxe := (hset e he hreads hm).alone x (hsub x (mem_of_mem_foldl_first hx)) hkey
      exact hxe ▸ hx
    rw [h.inits, h'.inits]
    constructor
    · intro he
      have he := mem_of_mem_foldl_first he
      exact hstay (fun x hx => (hsame x).mpr hx) he ((hsame e).mp he)
    · intro he
      have he := (hsame e).mpr (mem_of_mem_foldl_first he)
      exact hstay (fun x hx => hx) he he
  have hmem : ∀ {g : GlobalIndex} {e : StaticInitEntry},
      e ∈ sortByTie staticInitTie (g.staticInits.filter readsAtInit) →
        e ∈ g.staticInits ∧ readsAtInit e = true := by
    intro g e he
    exact List.mem_filter.mp ((Ordered.perm_sortBy tieLess staticInitTie _).mem_iff.mp he)
  refine flatMap_eq_of_filter (p := fun e => decide (MayDepend is ss e)) ?_ ?_ ?_ ?_
  · refine Ordered.filter_sortBy_eq strict_tieLess ?_ ?_
    · refine (List.perm_ext_iff_of_nodup (((hnodup h).of_map.filter _).filter _)
        (((hnodup h').of_map.filter _).filter _)).mpr fun e => ?_
      simp only [List.mem_filter, decide_eq_true_eq]
      refine and_congr_left fun hm => and_congr_left fun hreads => hkept hreads hm
    · intro a ha b hb htie
      refine List.inj_on_of_nodup_map (hnodup h) ?_ ?_ ?_
      · exact (List.mem_filter.mp (List.mem_filter.mp ha).1).1
      · exact (List.mem_filter.mp (List.mem_filter.mp hb).1).1
      · obtain ⟨hfile, hrest⟩ := Prod.mk.inj htie
        obtain ⟨hline, hname⟩ := Prod.mk.inj hrest
        unfold staticInitKey
        rw [hfile, hline, hname]
  · intro e _ hm
    exact orderDependencies_quiet h (by simpa using hm)
  · intro e _ hm
    exact orderDependencies_quiet h' (by simpa [← hmay] using hm)
  · intro e he
    obtain ⟨he, hm⟩ := List.mem_filter.mp he
    obtain ⟨he, hreads⟩ := hmem he
    rw [h.inits] at he
    exact orderDependencies_congr h h' hsame hperm
      (hset e (mem_of_mem_foldl_first he) hreads (of_decide_eq_true hm))

end Init

end Vycor
