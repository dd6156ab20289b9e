/-
The concurrency boundaries behind a channel site.

The search starts from the usr of a function and goes on with display names, and a display name
stands for every function that bears it.  So it may look at functions that do not reach the
site, and at a function twice, under its usr and under its display name.  What it reports are
the boundary edges into the functions it looks at, each as often as it looks at its callee.
-/
import Vycor.Lib.QueueWalk
import Vycor.Model.ChannelTools
import Vycor.Proofs.EdgeViews
import Vycor.Proofs.IdentityResolution

namespace Vycor

open CallGraph

/-! ### Edges into a function -/

/-- The edges that leave no thread. -/
def synchronous (edges : List CallGraphEdge) : List CallGraphEdge :=
  edges.filter (·.execContext = .synchronous)

/-- The boundary an edge is reported as. -/
def boundaryOf (e : CallGraphEdge) : ConcurrencyBoundary :=
  { spawner := e.callerName, target := e.calleeName
    executionContext := executionContextToString e.execContext, callSite := e.callSite }

/-- The edges that are not synchronous, as they are reported. -/
def boundaries (edges : List CallGraphEdge) : List ConcurrencyBoundary :=
  (edges.filter (·.execContext ≠ .synchronous)).map boundaryOf

/-- `u` is `f`, or reaches it through synchronous calls. -/
def ReachesSync (g : CallGraph) (f u : Str) : Prop :=
  Relation.ReflTransGen
    (fun a b => b ∈ (synchronous (g.callersOfUsr a)).map (·.callerUsr)) f u

theorem boundaries_append (a b : List CallGraphEdge) :
    boundaries (a ++ b) = boundaries a ++ boundaries b := by
  simp [boundaries]

theorem CallGraph.WF.idOf_resolved {g : CallGraph} (hwf : g.WF) {name : Str} {i : SId}
    (h : i ∈ g.resolveUsrIds name) : g.interner.idOf (g.interner.resolve i) = i := by
  have hname : name ∈ g.interner.strings := by
    by_contra hname
    rw [resolveUsrIds_unknown hname] at h
    exact List.not_mem_nil h
  obtain ⟨u, hu, rfl⟩ := (hwf.mem_resolveUsrIds hname i).mp h
  rw [StringInterner.resolve_idOf (hwf.interned_usr hname hu)]

/-- The callers of a name are those of the functions it stands for. -/
theorem CallGraph.WF.callersOf_eq {g : CallGraph} (hwf : g.WF) (name : Str) :
    g.callersOf name = (g.usrsForName name).flatMap g.callersOfUsr := by
  unfold callersOf usrsForName callersOfUsr
  rw [List.flatMap_map]
  exact List.flatMap_congr fun i hi => by rw [hwf.idOf_resolved hi]

/-! ### The walk

The walk goes over display names and usrs mixed, as the queries answer with
both. So what it may look at is described by names first.
-/

/-- The names that a name leads on to. -/
def callerNames (g : CallGraph) (name : Str) : List Str :=
  (synchronous (g.callersOf name)).map (·.callerName)

/-- The walk that starts from `f` may look at `name`. -/
def Met (g : CallGraph) (f name : Str) : Prop :=
  Relation.ReflTransGen (fun a b => b ∈ callerNames g a) f name

theorem foldl_visitBoundary (edges : List CallGraphEdge) (walk : BoundaryWalk) :
    edges.foldl visitBoundary walk
      = { walk with
          queue := ((synchronous edges).map (·.callerName)).foldl Dedup.pushUnique walk.queue
          found := walk.found ++ boundaries edges } := by
  induction edges generalizing walk with
  | nil => simp [synchronous, boundaries]
  | cons e rest ih =>
      rw [List.foldl_cons, ih]
      unfold visitBoundary synchronous boundaries
      by_cases hsync : e.execContext = .synchronous
      · simp [hsync]
      · simp [hsync, boundaryOf]

/-- A walk that has found the boundaries into what it has looked at. -/
def reported (g : CallGraph) (st : QueueWalk.State Str) : BoundaryWalk :=
  { queue := st.queue, next := st.next
    found := st.seen.flatMap fun name => boundaries (g.callersOf name) }

theorem reported_turn (g : CallGraph) {st : QueueWalk.State Str} {cur : Str}
    (hcur : st.queue[st.next]? = some cur) :
    (g.callersOf cur).foldl visitBoundary { reported g st with next := st.next + 1 }
      = reported g (QueueWalk.turn (callerNames g) st cur) := by
  rw [foldl_visitBoundary]
  unfold reported
  rw [QueueWalk.seen_turn hcur, List.flatMap_append]
  simp [QueueWalk.turn, callerNames]

theorem walkBoundaries_succ (g : CallGraph) (fuel : Nat) (st : QueueWalk.State Str) :
    walkBoundaries g (fuel + 1) (reported g st) = match st.queue[st.next]? with
      | none => reported g st
      | some cur =>
        if kMaxBoundaryWalkNodes ≤ st.queue.length then reported g st
        else walkBoundaries g fuel
          ((g.callersOf cur).foldl visitBoundary { reported g st with next := st.next + 1 }) := rfl

/-- **A walk finds the boundaries into what it looks at.** -/
theorem walkBoundaries_reported (g : CallGraph) (fuel : Nat) (st : QueueWalk.State Str) :
    walkBoundaries g fuel (reported g st)
      = reported g (QueueWalk.walk (callerNames g) kMaxBoundaryWalkNodes fuel st) := by
  induction fuel generalizing st with
  | zero => rfl
  | succ fuel ih =>
      rw [walkBoundaries_succ, QueueWalk.walk]
      cases hcur : st.queue[st.next]? with
      | none => rfl
      | some cur =>
          simp only
          split
          · rfl
          · rw [reported_turn g hcur, ih]

theorem findConcurrencyBoundaries_eq (g : CallGraph) (usr : Str) :
    findConcurrencyBoundaries g usr
      = (QueueWalk.walk (callerNames g) kMaxBoundaryWalkNodes kMaxBoundaryWalkNodes
          { queue := [usr] }).seen.flatMap fun name => boundaries (g.callersOf name) :=
  congrArg BoundaryWalk.found
    (walkBoundaries_reported g kMaxBoundaryWalkNodes { queue := [usr] })

/-- **The walk ends on every graph**: more fuel than the cap changes nothing. -/
theorem walkBoundaries_ends (g : CallGraph) (usr : Str) (more : Nat) :
    walkBoundaries g (kMaxBoundaryWalkNodes + more) { queue := [usr] }
      = walkBoundaries g kMaxBoundaryWalkNodes { queue := [usr] } := by
  have hended := (QueueWalk.inv_start (callerNames g) usr).ends kMaxBoundaryWalkNodes
    (Nat.le_add_right kMaxBoundaryWalkNodes 0)
  show walkBoundaries g _ (reported g { queue := [usr] })
    = walkBoundaries g _ (reported g { queue := [usr] })
  rw [walkBoundaries_reported, walkBoundaries_reported, QueueWalk.walk_more _ _ _ _ hended]

/-- **Under the cap, the walk finds the boundaries into the functions that the names it may
look at stand for.** -/
theorem found_perm {g : CallGraph} (hwf : g.WF) {usr : Str} {names : List Str}
    (hnodup : names.Nodup) (hnames : ∀ n, n ∈ names ↔ Met g usr n)
    (hcap : names.length < kMaxBoundaryWalkNodes) :
    (findConcurrencyBoundaries g usr).Perm
      ((names.flatMap g.usrsForName).flatMap fun u => boundaries (g.callersOfUsr u)) := by
  have hmet : ∀ n, Relation.ReflTransGen (fun a b => b ∈ callerNames g a) usr n → n ∈ names :=
    fun n hn => (hnames n).mpr hn
  obtain ⟨honce, hseen⟩ := QueueWalk.walk_spec hmet hcap (Nat.le_refl kMaxBoundaryWalkNodes)
  have hperm := (List.perm_ext_iff_of_nodup honce hnodup).mpr fun n =>
    (hseen n).trans (hnames n).symm
  have hflat : ∀ n, boundaries (g.callersOf n)
      = (g.usrsForName n).flatMap fun u => boundaries (g.callersOfUsr u) := by
    intro n
    rw [hwf.callersOf_eq]
    induction g.usrsForName n with
    | nil => rfl
    | cons u rest ih => rw [List.flatMap_cons, boundaries_append, ih, List.flatMap_cons]
  rw [findConcurrencyBoundaries_eq, List.flatMap_assoc]
  simp only [hflat]
  exact hperm.flatMap_right _

/-! ### Exactly the boundaries behind a function

From names to functions: what is reported is a list with one entry for each
boundary edge, and it is the right list when each function with a boundary is
looked at once.
-/

/-- The functions that reach `f`, each once. -/
structure Reaching (g : CallGraph) (f : Str) (funcs : List Str) : Prop where
  nodup : funcs.Nodup
  mem : ∀ u, u ∈ funcs ↔ ReachesSync g f u

/-- The names that the walk from `f` may look at, each once, and fewer than the cap. -/
structure Meeting (g : CallGraph) (f : Str) (names : List Str) : Prop where
  nodup : names.Nodup
  mem : ∀ n, n ∈ names ↔ Met g f n
  few : names.length < kMaxBoundaryWalkNodes

/-- The search reports the boundary edges into the functions that reach `f`, each once. -/
def FoundExactly (g : CallGraph) (f : Str) : Prop :=
  ∃ funcs, Reaching g f funcs ∧
    (findConcurrencyBoundaries g f).Perm (funcs.flatMap fun u => boundaries (g.callersOfUsr u))

open Classical in
/-- A function with a boundary is looked at once if it reaches `f`, and otherwise not. -/
def LookedAtOnce (g : CallGraph) (f : Str) (names : List Str) : Prop :=
  ∀ u, boundaries (g.callersOfUsr u) ≠ [] →
    (names.flatMap g.usrsForName).count u = if ReachesSync g f u then 1 else 0

/-- No two functions have a boundary that is reported alike. -/
def BoundariesApart (g : CallGraph) : Prop :=
  ∀ u v b, b ∈ boundaries (g.callersOfUsr u) → b ∈ boundaries (g.callersOfUsr v) → u = v

theorem CallGraph.WF.exists_reaching {g : CallGraph} (hwf : g.WF) (f : Str) :
    ∃ funcs, Reaching g f funcs := by
  classical
  have hin : ∀ u, ReachesSync g f u → u ∈ f :: g.interner.strings := by
    intro u hu
    rcases Relation.ReflTransGen.cases_tail hu with rfl | ⟨v, -, hstep⟩
    · exact List.mem_cons_self
    · obtain ⟨e, he, rfl⟩ := List.mem_map.mp hstep
      obtain ⟨r, hr, rfl⟩ := List.mem_map.mp (List.mem_of_mem_filter he)
      exact List.mem_cons_of_mem _ (StringInterner.resolve_mem (hwf.caller_lt hr))
  refine ⟨((f :: g.interner.strings).filter (ReachesSync g f ·)).dedup, List.nodup_dedup _, ?_⟩
  intro u
  simp only [List.mem_dedup, List.mem_filter, decide_eq_true_eq]
  exact ⟨fun h => h.2, fun h => ⟨hin u h, h⟩⟩

open Classical in
theorem Reaching.count {g : CallGraph} {f : Str} {funcs : List Str} (h : Reaching g f funcs)
    (u : Str) : funcs.count u = if ReachesSync g f u then 1 else 0 := by
  split
  · rename_i hu
    exact List.count_eq_one_of_mem h.nodup ((h.mem u).mpr hu)
  · rename_i hu
    exact List.count_eq_zero.mpr (mt (h.mem u).mp hu)

/-- Lists with as many of everything that has an image have the same images. -/
theorem flatMap_perm_of_counts {α β : Type} [DecidableEq α] {f : α → List β} {as bs : List α}
    (h : ∀ a, f a ≠ [] → as.count a = bs.count a) : (as.flatMap f).Perm (bs.flatMap f) := by
  have hdrop : ∀ l : List α, l.flatMap f = (l.filter fun a => !(f a).isEmpty).flatMap f := by
    intro l
    induction l with
    | nil => rfl
    | cons a rest ih =>
        by_cases ha : f a = []
        · simp [ha, ih]
        · simp [ha, ih]
  rw [hdrop as, hdrop bs]
  refine List.Perm.flatMap_right f (List.perm_iff_count.mpr fun a => ?_)
  by_cases ha : f a = []
  · rw [List.count_eq_zero.mpr (by simp [ha]), List.count_eq_zero.mpr (by simp [ha])]
  · rw [List.count_filter (by simp [ha]), List.count_filter (by simp [ha]), h a ha]

/-- Something that only one element has in its image counts as often as that element. -/
theorem count_flatMap_of_apart {α β : Type} [DecidableEq α] [DecidableEq β] {f : α → List β}
    {a : α} {b : β} (hapart : ∀ a', b ∈ f a' → a' = a) (as : List α) :
    (as.flatMap f).count b = as.count a * (f a).count b := by
  induction as with
  | nil => simp
  | cons a' rest ih =>
      rw [List.flatMap_cons, List.count_append, ih, List.count_cons]
      by_cases ha : a' = a
      · subst ha
        simp [Nat.add_mul, Nat.add_comm]
      · have hnot : (f a').count b = 0 := List.count_eq_zero.mpr fun hb => ha (hapart a' hb)
        simp [ha, hnot]

/-- Looking once at each function that matters is enough, and as far as functions can be told
apart by their boundaries, it is necessary. -/
theorem found_exactly_iff {g : CallGraph} (hwf : g.WF) {f : Str} {names : List Str}
    (hmeet : Meeting g f names) :
    (LookedAtOnce g f names → FoundExactly g f) ∧
      (BoundariesApart g → FoundExactly g f → LookedAtOnce g f names) := by
  classical
  have hfound := found_perm hwf hmeet.nodup hmeet.mem hmeet.few
  constructor
  · intro honce
    obtain ⟨funcs, hfuncs⟩ := hwf.exists_reaching f
    refine ⟨funcs, hfuncs, hfound.trans (flatMap_perm_of_counts fun u hu => ?_)⟩
    rw [hfuncs.count u]
    exact honce u hu
  · rintro hapart ⟨funcs, hfuncs, hperm⟩ u hu
    obtain ⟨b, hb⟩ := List.exists_mem_of_ne_nil _ hu
    have hown : ∀ v, b ∈ boundaries (g.callersOfUsr v) → v = u := fun v hv => hapart v u b hv hb
    have hcount := (hfound.symm.trans hperm).count_eq b
    rw [count_flatMap_of_apart hown, count_flatMap_of_apart hown] at hcount
    have hsame := Nat.eq_of_mul_eq_mul_right (List.count_pos_iff.mpr hb) hcount
    rw [← hfuncs.count u, hsame]

/-! ### Names that tell functions apart

A condition on the graph alone under which the walk over names is a walk over
functions.
-/

/-- The usr of `f` stands for `f` alone, and so does on the way every display name for its
function; a call from `f` itself has the usr of `f` as the name of its caller. -/
structure NamesTell (g : CallGraph) (f : Str) : Prop where
  start : g.usrsForName f = [f]
  callers : ∀ u, ReachesSync g f u → ∀ e ∈ synchronous (g.callersOfUsr u),
    g.usrsForName e.callerName = [e.callerUsr]
  itself : ∀ u, ReachesSync g f u → ∀ e ∈ synchronous (g.callersOfUsr u),
    e.callerUsr = f → e.callerName = f

/-- The name under which the walk comes to a function. -/
def metAs (g : CallGraph) (f u : Str) : Str :=
  if u = f then f else g.displayFor (g.interner.idOf u)

section NamesTell

variable {g : CallGraph} {f : Str}

theorem NamesTell.callerName (hwf : g.WF) (h : NamesTell g f) {u : Str} (hu : ReachesSync g f u)
    {e : CallGraphEdge} (he : e ∈ synchronous (g.callersOfUsr u)) :
    e.callerName = metAs g f e.callerUsr := by
  unfold metAs
  split
  · rename_i hself
    exact h.itself u hu e he hself
  · obtain ⟨r, hr, rfl⟩ := List.mem_map.mp (List.mem_of_mem_filter he)
    show g.displayFor r.caller = g.displayFor (g.interner.idOf (g.interner.resolve r.caller))
    rw [StringInterner.idOf_resolve hwf.ids.nodup (hwf.caller_lt hr)]

theorem NamesTell.usrs (hwf : g.WF) (h : NamesTell g f) {u : Str} (hu : ReachesSync g f u) :
    g.usrsForName (metAs g f u) = [u] := by
  rcases Relation.ReflTransGen.cases_tail hu with rfl | ⟨v, hv, hstep⟩
  · rw [metAs, if_pos rfl]
    exact h.start
  · obtain ⟨e, he, rfl⟩ := List.mem_map.mp hstep
    rw [← h.callerName hwf hv he]
    exact h.callers v hv e he

/-- One synchronous call further, by names and by functions. -/
theorem NamesTell.callerNames_eq (hwf : g.WF) (h : NamesTell g f) {u : Str}
    (hu : ReachesSync g f u) :
    callerNames g (metAs g f u)
      = ((synchronous (g.callersOfUsr u)).map (·.callerUsr)).map (metAs g f) := by
  unfold callerNames
  rw [hwf.callersOf_eq, h.usrs hwf hu, List.flatMap_singleton, List.map_map]
  exact List.map_congr_left fun e he => h.callerName hwf hu he

theorem NamesTell.met_iff (hwf : g.WF) (h : NamesTell g f) (n : Str) :
    Met g f n ↔ ∃ u, ReachesSync g f u ∧ metAs g f u = n := by
  constructor
  · intro hn
    induction hn with
    | refl => exact ⟨f, .refl, if_pos rfl⟩
    | tail _ hstep ih =>
        obtain ⟨u, hu, rfl⟩ := ih
        rw [h.callerNames_eq hwf hu] at hstep
        obtain ⟨v, hv, rfl⟩ := List.mem_map.mp hstep
        exact ⟨v, hu.tail hv, rfl⟩
  · rintro ⟨u, hu, rfl⟩
    induction hu with
    | refl =>
        rw [metAs, if_pos rfl]
        exact .refl
    | tail hbefore hstep ih =>
        refine ih.tail ?_
        rw [h.callerNames_eq hwf hbefore]
        exact List.mem_map_of_mem hstep

/-- **Names that tell functions apart lead to exactly the functions that reach `f`.** -/
theorem NamesTell.lookedAt (hwf : g.WF) (h : NamesTell g f) {funcs : List Str}
    (hfuncs : Reaching g f funcs) (hfew : funcs.length < kMaxBoundaryWalkNodes) :
    Meeting g f (funcs.map (metAs g f)) ∧ LookedAtOnce g f (funcs.map (metAs g f)) := by
  have husrs : ∀ u ∈ funcs, g.usrsForName (metAs g f u) = [u] := fun u hu =>
    h.usrs hwf ((hfuncs.mem u).mp hu)
  constructor
  · refine ⟨hfuncs.nodup.map_on fun u hu v hv huv => ?_, fun n => ?_, by simpa using hfew⟩
    · have hsame := husrs v hv
      rw [← huv, husrs u hu] at hsame
      exact List.singleton_inj.mp hsame
    · rw [h.met_iff hwf, List.mem_map]
      simp only [hfuncs.mem]
  · intro u _
    have hlist : (funcs.map (metAs g f)).flatMap g.usrsForName = funcs := by
      rw [List.flatMap_map, List.flatMap_congr husrs]
      simp
    rw [hlist, hfuncs.count u]

end NamesTell

/-- **When the search is exact.**  It always ends.  Where it stays under the cap, looking at each
function with a boundary once if it reaches `f` and otherwise not is enough, and as far as
boundaries tell functions apart it is necessary; names that tell functions apart are one way
to be so. -/
theorem concurrency_boundaries_exact (s : Script) (f : Str) :
    (∀ more, walkBoundaries s.graph (kMaxBoundaryWalkNodes + more) { queue := [f] }
      = walkBoundaries s.graph kMaxBoundaryWalkNodes { queue := [f] }) ∧
    (∀ names, Meeting s.graph f names →
      (LookedAtOnce s.graph f names → FoundExactly s.graph f) ∧
        (BoundariesApart s.graph → FoundExactly s.graph f → LookedAtOnce s.graph f names)) ∧
    (∀ funcs, Reaching s.graph f funcs → funcs.length ≤ 1001 → NamesTell s.graph f →
      FoundExactly s.graph f) := by
  refine ⟨walkBoundaries_ends s.graph f, fun names h => found_exactly_iff s.wf h, ?_⟩
  intro funcs hfuncs hfew htell
  have hcap : funcs.length < kMaxBoundaryWalkNodes := by
    unfold kMaxBoundaryWalkNodes
    omega
  obtain ⟨hmeet, honce⟩ := htell.lookedAt s.wf hfuncs hcap
  exact (found_exactly_iff s.wf hmeet).1 honce

/-! ### Overloads

Where a display name stands for two functions the walk takes the callers of
both.
-/

/-- `f(int)` calls `h`, and `main` starts a thread of the function with this usr and name,
which may be `f(int)` itself. -/
def threadOf (usr name : String) : Script :=
  let node (name usr : String) : GraphOp :=
    .call (.node { qualifiedName := str name, usr := str usr } (str "a.cpp"))
  ((((Script.empty.op (node "h" "h#")).op (node "f" "f#I#")).op (node name usr)).op
    (.call (.edge { callerName := str "f#I#", calleeName := str "h#", kind := .directCall
                    confidence := .Proven, callSite := str "a.cpp:3:5" } (str "a.cpp")))).op
    (.call (.edge { callerName := str "main", calleeName := str usr, kind := .threadEntry
                    confidence := .Proven, callSite := str "a.cpp:9:5"
                    execContext := .threadSpawn } (str "a.cpp")))

/-- A list that synchronous callers do not lead out of has everything that reaches its
members. -/
theorem reachesSync_mem {g : CallGraph} {f : Str} {l : List Str} (hf : f ∈ l)
    (hclosed : ∀ u ∈ l, ∀ v ∈ (synchronous (g.callersOfUsr u)).map (·.callerUsr), v ∈ l) {u : Str}
    (h : ReachesSync g f u) : u ∈ l := by
  induction h with
  | refl => exact hf
  | tail _ hstep ih => exact hclosed _ ih _ hstep

theorem reaching_h (usr name : String)
    (hcallers : (synchronous ((threadOf usr name).graph.callersOfUsr (str "h#"))).map (·.callerUsr)
      = [str "f#I#"])
    (hnone : (synchronous ((threadOf usr name).graph.callersOfUsr (str "f#I#"))).map (·.callerUsr)
      = []) :
    Reaching (threadOf usr name).graph (str "h#") [str "h#", str "f#I#"] := by
  refine ⟨by decide, fun u => ⟨fun hu => ?_, fun hu => reachesSync_mem (by simp) ?_ hu⟩⟩
  · rcases List.mem_cons.mp hu with rfl | hu
    · exact .refl
    · rw [List.mem_singleton.mp hu]
      exact .single (hcallers ▸ List.mem_singleton_self _)
  · intro v hv w hw
    rcases List.mem_cons.mp hv with rfl | hv
    · rw [hcallers] at hw
      exact List.mem_cons_of_mem _ hw
    · rw [List.mem_singleton.mp hv, hnone] at hw
      exact absurd hw List.not_mem_nil

theorem namesTell_threadOf : NamesTell (threadOf "f#I#" "f").graph (str "h#") := by
  have hreach := reaching_h "f#I#" "f" (by decide +kernel) (by decide +kernel)
  have hall : ∀ u ∈ [str "h#", str "f#I#"],
      ∀ e ∈ synchronous ((threadOf "f#I#" "f").graph.callersOfUsr u),
        (threadOf "f#I#" "f").graph.usrsForName e.callerName = [e.callerUsr] ∧
          e.callerUsr ≠ str "h#" := by
    decide +kernel
  refine ⟨by decide +kernel, fun u hu e he => ?_, fun u hu e he hself => ?_⟩
  · exact (hall u ((hreach.mem u).mpr hu) e he).1
  · exact absurd hself (hall u ((hreach.mem u).mpr hu) e he).2

theorem boundariesApart_threadOf : BoundariesApart (threadOf "f#I#" "f").graph := by
  have hone : ∀ i < 9, (boundaries (((threadOf "f#I#" "f").graph.callerRefsOf i).map
      (threadOf "f#I#" "f").graph.materialize)).isEmpty = false → i = 3 := by
    decide +kernel
  have hlast : ∀ u b, b ∈ boundaries ((threadOf "f#I#" "f").graph.callersOfUsr u) →
      u = str "f#I#" := by
    intro u b hb
    have hle : (threadOf "f#I#" "f").graph.interner.idOf u < 9 :=
      Nat.lt_succ_of_le (List.idxOf_le_length.trans (by decide +kernel))
    have hid := hone _ hle (List.isEmpty_eq_false_iff.mpr (List.ne_nil_of_mem hb))
    have hmem : u ∈ (threadOf "f#I#" "f").graph.interner.strings :=
      StringInterner.idOf_lt.mp (by rw [hid]; decide +kernel)
    rw [← StringInterner.resolve_idOf hmem, hid]
    decide +kernel
  intro u v b hu hv
  rw [hlast u b hu, hlast v b hv]

/-- `main` starts a thread of the one `f`. -/
theorem concurrency_boundaries_exact_thread :
    FoundExactly (threadOf "f#I#" "f").graph (str "h#") ∧
      LookedAtOnce (threadOf "f#I#" "f").graph (str "h#")
        ([str "h#", str "f#I#"].map (metAs (threadOf "f#I#" "f").graph (str "h#"))) := by
  have hreach := reaching_h "f#I#" "f" (by decide +kernel) (by decide +kernel)
  obtain ⟨-, hiff, htell⟩ := concurrency_boundaries_exact (threadOf "f#I#" "f") (str "h#")
  have hexact := htell _ hreach (by decide) namesTell_threadOf
  have hmeet := (namesTell_threadOf.lookedAt (threadOf "f#I#" "f").wf hreach (by decide)).1
  exact ⟨hexact, (hiff _ hmeet).2 boundariesApart_threadOf hexact⟩

/-- **An overload that merely shares the name** of a caller of `h`: that `main` starts a thread
of `f(char)` is reported behind `h`. -/
theorem overload_reported : ¬ FoundExactly (threadOf "f#C#" "f").graph (str "h#") := by
  rintro ⟨funcs, hfuncs, hperm⟩
  have hreach := reaching_h "f#C#" "f" (by decide +kernel) (by decide +kernel)
  have hnone : ∀ u ∈ [str "h#", str "f#I#"],
      (boundaries ((threadOf "f#C#" "f").graph.callersOfUsr u)).isEmpty = true := by
    decide +kernel
  have hempty : (funcs.flatMap fun u => boundaries ((threadOf "f#C#" "f").graph.callersOfUsr u))
      = [] := by
    refine List.flatMap_eq_nil_iff.mpr fun u hu => ?_
    exact List.isEmpty_iff.mp (hnone u ((hreach.mem u).mpr ((hfuncs.mem u).mp hu)))
  have hfound : (findConcurrencyBoundaries (threadOf "f#C#" "f").graph (str "h#")).length = 1 := by
    decide +kernel
  rw [hperm.length_eq, hempty] at hfound
  exact absurd hfound (by decide)

end Vycor
