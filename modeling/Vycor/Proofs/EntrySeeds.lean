/-
Which functions an entry-point name seeds.

The dead-code analysis starts from every usr a name stands for.  The path searches look the
name up as it is spelled: `startIds` finds the one id with that string.  For a node whose usr
is its display name there is no difference.  Otherwise the start is an id that no edge leaves,
and no path is found however short.

`chain_finds` and `locks_find` say what the searches are good for: from a start that is in
the list by its usr, a target within the limits is found.
-/
import Vycor.Model.PathTools
import Vycor.Proofs.EdgeViews

namespace Vycor

open PathSearch Dedup

variable {g : CallGraph}

/-! ### What within the limits means

Reachability as the searches count it: allowed edges, no hub on the way, few
enough calls.
-/

/-- Callers and callees both show an allowed call. -/
def AllowedCall (g : CallGraph) (filter : EdgeFilter) (u v : SId) : Prop :=
  (∃ b ∈ g.callerRefsOf v, b.caller = u ∧ filter.allowsRef b) ∧
  ∃ b ∈ g.calleeRefsOf u, b.callee = v ∧ filter.allowsRef b

/-- A call by a function with an identity. -/
def NamedCall (g : CallGraph) (u v : SId) : Prop :=
  g.interner.find indirectName ≠ some u ∧ ∃ b ∈ g.callerRefsOf v, b.caller = u

/-- `u` reaches the target by `n` calls, through no hub. -/
def Reaches (g : CallGraph) (call : SId → SId → Prop) (maxFanIn : Nat) (u target : Str) (n : Nat) :
    Prop :=
  ∃ s t, g.interner.find u = some s ∧ g.interner.find target = some t ∧
    Steps (fun x y => call x y ∧ (y = t ∨ ¬ isHub g maxFanIn y)) s n t

/-- Some usr of a listed name is in the relation to the target. -/
def Seeded (g : CallGraph) (entries : List Str) (P : Str → Prop) : Prop :=
  ∃ entry ∈ entries, ∃ u ∈ g.usrsForName entry, P u

/-- `find_call_chain` without `from` starts from every usr of a listed name. -/
def ChainSeeds (g : CallGraph) (entries : List Str) (maxPaths : Int) : Prop :=
  ∀ target maxDepth maxFanIn filter,
    Seeded g entries (fun u =>
      ∃ n ≤ maxDepth, Reaches g (AllowedCall g filter) maxFanIn u target n) →
    (findCallChain g target entries { maxPaths, maxDepth, maxFanIn } filter).paths ≠ []

/-- A function of `n` calls from an entry is at frame `n + 1`. -/
def LockSeeded (g : CallGraph) (entries : List Str) (maxDepth : Int) (maxFanIn : Nat)
    (target : Str) : Prop :=
  Seeded g entries fun u =>
    ∃ n : Nat, n + 1 ≤ max 1 maxDepth ∧ Reaches g (NamedCall g) maxFanIn u target n

/-- Where some chain runs from an entry, the locks of the target are reported. -/
def LocksSeed (g : CallGraph) (cf : ControlFlowIndex) (entries configured : List Str) : Prop :=
  ∀ target maxDepth maxFanIn,
    LockSeeded g (if entries = [] then configured else entries) maxDepth maxFanIn target →
    (queryLocksHeld g cf target entries configured maxDepth maxFanIn).paths ≠ []

/-- Where some chain runs from an entry, both walks of the same-lock query report it. -/
def SameLockSeeds (g : CallGraph) (cf : ControlFlowIndex) (entries configured : List Str) : Prop :=
  ∀ fnA fnB maxDepth maxFanIn,
    let used := if entries = [] then configured else entries
    let same := querySameLock g cf fnA fnB entries configured maxDepth maxFanIn
    (LockSeeded g used maxDepth maxFanIn fnA → same.walkA.paths ≠ []) ∧
    (LockSeeded g used maxDepth maxFanIn fnB → same.walkB.paths ≠ [])

/-! ### Starts -/

theorem mem_startIds {starts : List Str} {id : SId} :
    id ∈ startIds g starts ↔ ∃ name ∈ starts, g.interner.find name = some id := by
  unfold startIds
  rw [mem_foldl_setInsert]
  simp

/-- An interned string is a start only by being listed. -/
theorem listed_of_start {starts : List Str} {u : Str} {s : SId} (hu : g.interner.find u = some s)
    (h : s ∈ startIds g starts) : u ∈ starts := by
  obtain ⟨name, hname, hfind⟩ := mem_startIds.mp h
  obtain ⟨hmem, hid⟩ := StringInterner.find_eq_some.mp hfind
  obtain ⟨-, hid'⟩ := StringInterner.find_eq_some.mp hu
  rw [(StringInterner.idOf_inj hmem).mp (hid'.trans hid.symm)]
  exact hname

theorem CallGraph.WF.usr_interned (hwf : g.WF) {name u : Str} (h : u ∈ g.usrsForName name) :
    ∃ s, g.interner.find u = some s := by
  obtain ⟨i, hi, rfl⟩ := List.mem_map.mp h
  have hname : name ∈ g.interner.strings := by
    by_contra hname
    rw [CallGraph.resolveUsrIds_unknown hname] at hi
    exact absurd hi List.not_mem_nil
  obtain ⟨w, hw, rfl⟩ := (hwf.mem_resolveUsrIds hname i).mp hi
  have hmem : w ∈ g.interner.strings := by
    rcases hw with ⟨-, rfl⟩ | ⟨-, n, hn, -⟩ | ⟨-, -, rfl⟩
    · exact hname
    · exact StringInterner.idOf_lt.mp (hwf.ids.node _ n hn).1
    · exact hname
  rw [StringInterner.resolve_idOf hmem]
  exact ⟨_, StringInterner.find_eq_some.mpr ⟨hmem, rfl⟩⟩

/-! ### Views -/

theorem CallGraph.WF.callee_of_callerRefs (hwf : g.WF) {v : SId} {b : EdgeRef}
    (h : b ∈ g.callerRefsOf v) : b.callee = v := by
  unfold CallGraph.callerRefsOf at h
  rw [mem_emitAll_emitAll_first] at h
  rcases h with h | ⟨k, -, h⟩
  · simp only [List.mem_map, List.mem_filter] at h
    obtain ⟨e, ⟨he, -⟩, rfl⟩ := h
    exact ((hwf.mem_liveInto v e).mp he).2.2
  · rcases Option.or_eq_some_iff.mp h with h | ⟨-, h⟩
    · obtain ⟨base, -, hmem⟩ := List.mem_flatMap.mp (mem_of_firstOf h)
      obtain ⟨e, -, heq⟩ := List.mem_map.mp hmem
      rw [← (Prod.mk.inj heq).2]
    · obtain ⟨returner, -, hmem⟩ := List.mem_flatMap.mp (mem_of_firstOf h)
      obtain ⟨e, -, heq⟩ := List.mem_map.mp hmem
      rw [← (Prod.mk.inj heq).2]

/-- Where the callers show a call, the callees show one. -/
theorem CallGraph.WF.calleeRefs_of_callerRefs (hwf : g.WF) {v : SId} {b : EdgeRef}
    (h : b ∈ g.callerRefsOf v) : ∃ b' ∈ g.calleeRefsOf b.caller, b'.callee = v := by
  obtain rfl := hwf.callee_of_callerRefs h
  rcases (hwf.mem_callerRefsOf_site b).mp h with hstored | ⟨hnot, hinto⟩
  · exact ⟨b, (hwf.mem_calleeRefsOf_site b).mpr (Or.inl hstored), rfl⟩
  · have hsome : (g.outAt b.caller b.callee b.callSite).isSome := by
      have hdispatch : g.earliestDispatch b.caller b.callee b.callSite = none ↔
          g.nearestDispatch b.caller b.callee b.callSite = none :=
        hwf.earliestDispatch_none.trans hwf.nearestDispatch_none.symm
      have hreturn : g.earliestReturn b.caller b.callee b.callSite = none ↔
          g.nearestReturn b.caller b.callee b.callSite = none :=
        hwf.earliestReturn_none.trans hwf.nearestReturn_none.symm
      unfold CallGraph.intoAt at hinto
      unfold CallGraph.outAt
      cases hd : g.earliestDispatch b.caller b.callee b.callSite with
      | some e => rfl
      | none =>
          rw [hdispatch.mp hd] at hinto
          cases hr : g.earliestReturn b.caller b.callee b.callSite with
          | some e => rfl
          | none =>
              rw [hreturn.mp hr] at hinto
              exact absurd hinto (by simp)
    obtain ⟨b', hb'⟩ := Option.isSome_iff_exists.mp hsome
    obtain ⟨hcaller, hcallee, hsite⟩ := hwf.outAt_ends hb'
    refine ⟨b', ?_, hcallee⟩
    rw [← hcaller, hwf.mem_calleeRefsOf_site, hcaller, hcallee, hsite]
    exact Or.inr ⟨fun hnamed => hnot hnamed.shown, hb'⟩

/-! ### What the searches find

The corridor only keeps out what leads nowhere in time, so a target within the
limits is found from some start.
-/

theorem inCorridor_of_le {dist : UMap SId Nat} {maxDepth spent n : Nat} {node : SId}
    (h : ∃ d ≤ n, dist.lookup node = some d) (hn : n + spent ≤ maxDepth) :
    inCorridor dist maxDepth spent node := by
  obtain ⟨d, hd, hlookup⟩ := h
  unfold inCorridor
  rw [hlookup, decide_eq_true_eq]
  omega

theorem le_of_inCorridor {dist : UMap SId Nat} {maxDepth spent : Nat} {node : SId}
    (h : inCorridor dist maxDepth spent node) : spent ≤ maxDepth := by
  unfold inCorridor at h
  split at h
  · exact absurd h (by simp)
  · rw [decide_eq_true_eq] at h
    omega

theorem inCorridor_anti {dist : UMap SId Nat} {maxDepth spent spent' : Nat} {node : SId}
    (h : inCorridor dist maxDepth spent' node) (hle : spent ≤ spent') :
    inCorridor dist maxDepth spent node := by
  unfold inCorridor at h ⊢
  split at h
  · exact absurd h (by simp)
  · rw [decide_eq_true_eq] at h ⊢
    omega

theorem memo_le {memo : Option Nat} {d : Nat} (h : memo.any (· ≤ d)) : ∃ k ≤ d, memo = some k := by
  cases memo with
  | none => exact absurd h (by simp)
  | some k => exact ⟨k, by simpa using h, rfl⟩

section Chain

variable (startSet : List SId) (minFromStart : UMap SId Nat) (limits : ChainLimits)
  (filter : EdgeFilter)

theorem chainProblem_sound : Sound (chainProblem g startSet minFromStart limits filter)
    (fun d n => d ≤ limits.maxDepth ∧ n ∈ startSet)
    (fun d n => d ≤ limits.maxDepth ∧ (d = 0 ∨ ¬ isHub g limits.maxFanIn n))
    (fun d e => filter.allowsRef e ∧ inCorridor minFromStart limits.maxDepth (d + 1) e.caller)
    limits.maxDepth where
  stop {d n memo} h := by
    simp only [chainProblem] at h
    split at h
    · rename_i hdeep
      exact Or.inr ⟨fun hgoal => absurd hgoal.1 (by omega), fun hopen => absurd hopen.1 (by omega)⟩
    · split at h
      · rename_i hmemo
        exact Or.inl (memo_le hmemo)
      · split at h
        · cases h
        · split at h <;> cases h
  skip {d n memo r} h := by
    simp only [chainProblem] at h
    split at h
    · cases h
    · split at h
      · cases h
      · split at h
        · cases h
        · rename_i hstart
          split at h
          · rename_i hhub
            refine ⟨fun hgoal => hstart hgoal.2, fun hopen => ?_⟩
            rcases hopen.2 with hzero | hnot
            · exact absurd hhub.1 (by omega)
            · exact hnot hhub.2
          · cases h
  expand {d n memo} h := by
    simp only [chainProblem] at h
    split at h
    · cases h
    · split at h
      · cases h
      · split at h
        · cases h
        · rename_i hstart
          exact fun hgoal => hstart hgoal.2
  pass {used d e} h := by
    simp only [chainProblem] at h
    rintro ⟨hallows, hcorridor⟩
    rw [hallows, hcorridor] at h
    split at h <;> simp at h
  blocked {used d e} h := by
    simp only [chainProblem] at h
    split at h
    · rename_i hused
      exact Or.inl hused
    · split at h
      · cases h
      · split at h <;> cases h
  go {used d e} h := by
    simp only [chainProblem] at h
    split at h
    · cases h
    · split at h
      · cases h
      · split at h
        · rename_i hcorridor
          exact le_of_inCorridor hcorridor
        · cases h
  goal_anti hle h := ⟨hle.trans h.1, h.2⟩
  open_anti hle h := ⟨hle.trans h.1, h.2.imp_left fun hzero => by omega⟩
  ok_anti hle h := ⟨h.1, inCorridor_anti h.2 (Nat.succ_le_succ hle)⟩

/-- **A target that a listed usr reaches within the limits is found.** -/
theorem chain_finds {starts : List Str} {u target : Str} (hlisted : u ∈ starts)
    (hmax : 0 < limits.maxPaths) {n : Nat} (hn : n ≤ limits.maxDepth)
    (h : Reaches g (AllowedCall g filter) limits.maxFanIn u target n) :
    (findCallChain g target starts limits filter).paths ≠ [] := by
  obtain ⟨s, t, hu, ht, hsteps⟩ := h
  have hstart : s ∈ startIds g starts := mem_startIds.mpr ⟨u, hlisted, hu⟩
  obtain ⟨m, hm, hshort⟩ := hsteps.shortest
  have hnear : ∀ {k x}, Steps (fun x y => AllowedCall g filter x y ∧
      (y = t ∨ ¬ isHub g limits.maxFanIn y)) s k x → k ≤ limits.maxDepth →
      ∃ d ≤ k, (distances (allowedCallees g filter) limits.maxDepth (startIds g starts)).lookup x
        = some d := by
    intro k x hx hk
    refine distances_le hstart (hx.mono fun x y hstep => ?_) hk
    obtain ⟨⟨-, b, hb, hcallee, hallows⟩, -⟩ := hstep
    exact List.mem_map.mpr ⟨b, List.mem_filter.mpr ⟨hb, hallows⟩, hcallee⟩
  have hfound := dfs_finds_shortest
    (chainProblem_sound (g := g) (startIds g starts)
      (distances (allowedCallees g filter) limits.maxDepth (startIds g starts)) limits filter)
    (show 0 < limits.maxPaths.toNat by omega) (fun e e' heq => heq)
    (fun e (he : e.caller ∈ [t]) => List.mem_singleton.mp he) hshort ⟨by omega, hstart⟩
    (by
      intro d k x y hx hy hstep hd
      obtain ⟨⟨⟨b, hb, hcaller, hallows⟩, -⟩, hhub⟩ := hstep
      refine ⟨⟨by omega, ?_⟩, b, hb, hcaller, hallows, ?_⟩
      · rcases hhub with rfl | hhub
        · have := hx.unique hshort
          exact Or.inl (by omega)
        · exact Or.inr hhub
      · rw [hcaller]
        exact inCorridor_of_le (hnear hy.1 (by omega)) (by omega))
  have hcorridor : inCorridor (distances (allowedCallees g filter) limits.maxDepth
      (startIds g starts)) limits.maxDepth 0 t = true :=
    inCorridor_of_le (hnear hshort.1 (by omega)) (by omega)
  unfold findCallChain
  simp only [ht, hcorridor, if_true]
  exact fun hnil => hfound (List.map_eq_nil_iff.mp hnil)

end Chain

section Locks

variable (entrySet : List SId) (minFromEntry : UMap SId Nat) (maxDepth maxFanIn : Nat)

theorem lockProblem_sound : Sound (lockProblem g entrySet minFromEntry maxDepth maxFanIn)
    (fun _ n => n ∈ entrySet)
    (fun d n => d + 1 < maxDepth ∧ (d = 0 ∨ ¬ isHub g maxFanIn n))
    (fun d e => g.interner.find indirectName ≠ some e.caller ∧
      inCorridor minFromEntry maxDepth (d + 2) e.caller)
    maxDepth where
  stop {d n memo} h := by
    simp only [lockProblem] at h
    split at h
    · cases h
    · rename_i hentry
      split at h
      · exact Or.inr ⟨hentry, fun hopen => absurd hopen.1 (by omega)⟩
      · split at h
        · rename_i hmemo
          exact Or.inl (memo_le hmemo)
        · split at h <;> cases h
  skip {d n memo r} h := by
    simp only [lockProblem] at h
    split at h
    · cases h
    · rename_i hentry
      split at h
      · cases h
      · split at h
        · cases h
        · split at h
          · rename_i hhub
            refine ⟨hentry, fun hopen => ?_⟩
            rcases hopen.2 with hzero | hnot
            · exact absurd hhub.1 (by omega)
            · exact hnot hhub.2
          · cases h
  expand {d n memo} h := by
    simp only [lockProblem] at h
    split at h
    · cases h
    · assumption
  pass {used d e} h := by
    simp only [lockProblem] at h
    rintro ⟨hnamed, hcorridor⟩
    rw [if_neg hnamed, hcorridor] at h
    simp only [Bool.not_true, Bool.false_eq_true, if_false] at h
    split at h <;> cases h
  blocked {used d e} h := by
    simp only [lockProblem] at h
    split at h
    · cases h
    · split at h
      · cases h
      · split at h
        · rename_i hused
          exact Or.inl hused
        · cases h
  go {used d e} h := by
    simp only [lockProblem] at h
    split at h
    · cases h
    · split at h
      · cases h
      · rename_i hcorridor
        rw [Bool.not_eq_true', Bool.not_eq_false] at hcorridor
        exact (Nat.le_succ _).trans (le_of_inCorridor hcorridor)
  goal_anti _ h := h
  open_anti hle h := ⟨by omega, h.2.imp_left fun hzero => by omega⟩
  ok_anti hle h := ⟨h.1, inCorridor_anti h.2 (by omega)⟩

/-- **A target that a listed usr reaches within the limits has a path to collect locks on.** -/
theorem locks_find (hwf : g.WF) (cf : ControlFlowIndex) {starts : List Str} {u target : Str}
    (hlisted : u ∈ starts) {n : Nat} (hn : n + 1 ≤ maxDepth)
    (h : Reaches g (NamedCall g) maxFanIn u target n) :
    (collectLocksHeld g cf target starts maxDepth maxFanIn).paths ≠ [] := by
  obtain ⟨s, t, hu, ht, hsteps⟩ := h
  have hstart : s ∈ startIds g starts := mem_startIds.mpr ⟨u, hlisted, hu⟩
  obtain ⟨m, hm, hshort⟩ := hsteps.shortest
  have hnear : ∀ {k x}, Steps (fun x y => NamedCall g x y ∧ (y = t ∨ ¬ isHub g maxFanIn y)) s k x →
      k ≤ maxDepth - 1 →
      ∃ d ≤ k, (distances (fun node => (g.calleeRefsOf node).map (·.callee)) (maxDepth - 1)
        (startIds g starts)).lookup x = some d := by
    intro k x hx hk
    refine distances_le hstart (hx.mono fun x y hstep => ?_) hk
    obtain ⟨⟨-, b, hb, rfl⟩, -⟩ := hstep
    exact List.mem_map.mpr (hwf.calleeRefs_of_callerRefs hb)
  have hfound := dfs_finds_shortest
    (lockProblem_sound (g := g) (startIds g starts)
      (distances (fun node => (g.calleeRefsOf node).map (·.callee)) (maxDepth - 1)
        (startIds g starts)) maxDepth maxFanIn)
    (show 0 < kMaxPaths by decide) (fun e e' heq => (Prod.mk.inj heq).1)
    (fun e (he : _ ∈ []) => absurd he List.not_mem_nil) hshort hstart
    (by
      intro d k x y hx hy hstep hd
      obtain ⟨⟨hnamed, b, hb, rfl⟩, hhub⟩ := hstep
      refine ⟨⟨by omega, ?_⟩, b, hb, rfl, hnamed, ?_⟩
      · rcases hhub with rfl | hhub
        · have := hx.unique hshort
          exact Or.inl (by omega)
        · exact Or.inr hhub
      · exact inCorridor_of_le (hnear hy.1 (by omega)) (by omega))
  have hcorridor : inCorridor (distances (fun node => (g.calleeRefsOf node).map (·.callee))
      (maxDepth - 1) (startIds g starts)) maxDepth 1 t = true :=
    inCorridor_of_le (hnear hshort.1 (by omega)) (by omega)
  unfold collectLocksHeld
  simp only [ht, hcorridor, if_true]
  exact fun hnil => hfound (List.map_eq_nil_iff.mp hnil)

end Locks

/-! ### What the searches miss

A listed name is a start only under the usr that equals it. The other usrs it
stands for are no starts of their own.
-/

/-- With no depth left, a path is found only at a start. -/
theorem start_of_chain {starts : List Str} {target : Str} {t : SId} {limits : ChainLimits}
    {filter : EdgeFilter} (ht : g.interner.find target = some t) (hdepth : limits.maxDepth = 0)
    (h : (findCallChain g target starts limits filter).paths ≠ []) : t ∈ startIds g starts := by
  unfold findCallChain at h
  simp only [ht, hdepth] at h
  by_cases hcorridor : inCorridor (distances (allowedCallees g filter) 0 (startIds g starts)) 0 0 t
  · unfold inCorridor at hcorridor
    split at hcorridor
    · exact absurd hcorridor (by simp)
    · rename_i d hd
      exact distances_zero hd
  · rw [if_neg hcorridor] at h
    exact absurd rfl h

theorem paths_of_chain {starts : List Str} {target : Str} {limits : ChainLimits}
    {filter : EdgeFilter} (h : (findCallChain g target starts limits filter).paths ≠ []) :
    0 < limits.maxPaths := by
  by_contra hmax
  refine h ?_
  have hzero : limits.maxPaths.toNat = 0 := by omega
  unfold findCallChain
  dsimp only
  rw [List.map_eq_nil_iff]
  split
  · rfl
  · split
    · rw [dfs, if_pos (by simp [chainProblem, hzero])]
    · rfl

theorem start_of_locks {cf : ControlFlowIndex} {starts : List Str} {target : Str} {t : SId}
    {maxFanIn : Nat} (ht : g.interner.find target = some t)
    (h : (collectLocksHeld g cf target starts 1 maxFanIn).paths ≠ []) : t ∈ startIds g starts := by
  unfold collectLocksHeld at h
  simp only [ht] at h
  by_cases hcorridor : inCorridor (distances (fun node => (g.calleeRefsOf node).map (·.callee))
      (1 - 1) (startIds g starts)) 1 1 t
  · unfold inCorridor at hcorridor
    split at hcorridor
    · exact absurd hcorridor (by simp)
    · rename_i d hd
      exact distances_zero hd
  · rw [if_neg hcorridor] at h
    exact absurd rfl h

/-- A function reaches itself. -/
theorem reaches_self {call : SId → SId → Prop} {maxFanIn : Nat} {u : Str} {s : SId}
    (hu : g.interner.find u = some s) : Reaches g call maxFanIn u u 0 :=
  ⟨s, s, hu, hu, Steps.zero⟩

/-! ### Which lists of names seed all they name -/

theorem CallGraph.WF.chainSeeds_iff (hwf : g.WF) (entries : List Str) (maxPaths : Int) :
    ChainSeeds g entries maxPaths ↔
      ∀ entry ∈ entries, ∀ u ∈ g.usrsForName entry, u ∈ entries ∧ 0 < maxPaths := by
  constructor
  · intro h entry hentry u hu
    obtain ⟨s, hs⟩ := hwf.usr_interned hu
    have hpaths := h u 0 0 {} ⟨entry, hentry, u, hu, 0, Nat.le_refl 0, reaches_self hs⟩
    exact ⟨listed_of_start hs (start_of_chain hs rfl hpaths), paths_of_chain hpaths⟩
  · rintro h target maxDepth maxFanIn filter ⟨entry, hentry, u, hu, n, hn, hreach⟩
    obtain ⟨hlisted, hmax⟩ := h entry hentry u hu
    exact chain_finds { maxPaths, maxDepth, maxFanIn } filter hlisted hmax hn hreach

theorem CallGraph.WF.locksSeed_iff (hwf : g.WF) (cf : ControlFlowIndex)
    (entries configured : List Str) :
    LocksSeed g cf entries configured ↔
      ∀ entry ∈ (if entries = [] then configured else entries), ∀ u ∈ g.usrsForName entry,
        u ∈ if entries = [] then configured else entries := by
  constructor
  · intro h entry hentry u hu
    obtain ⟨s, hs⟩ := hwf.usr_interned hu
    have hpaths := h u 0 0 ⟨entry, hentry, u, hu, 0, by omega, reaches_self hs⟩
    exact listed_of_start hs (start_of_locks hs hpaths)
  · rintro h target maxDepth maxFanIn ⟨entry, hentry, u, hu, n, hn, hreach⟩
    exact locks_find _ maxFanIn hwf cf (h entry hentry u hu) (by omega) hreach

/-- `query_same_lock` walks as `query_locks_held` does, once for each function. -/
theorem sameLockSeeds_iff (cf : ControlFlowIndex) (entries configured : List Str) :
    SameLockSeeds g cf entries configured ↔ LocksSeed g cf entries configured := by
  constructor
  · intro h target maxDepth maxFanIn
    exact (h target target maxDepth maxFanIn).1
  · intro h fnA fnB maxDepth maxFanIn
    exact ⟨h fnA maxDepth maxFanIn, h fnB maxDepth maxFanIn⟩

/-- **The path tools start from every usr of the listed names exactly when every such usr is
itself on the list** (and, for call chains, some path is asked for). -/
theorem Script.entry_points_seed_iff (s : Script) (cf : ControlFlowIndex)
    (entries configured : List Str) (maxPaths : Int) :
    (ChainSeeds s.graph configured maxPaths ↔
      ∀ entry ∈ configured, ∀ u ∈ s.graph.usrsForName entry, u ∈ configured ∧ 0 < maxPaths) ∧
    (LocksSeed s.graph cf entries configured ↔
      ∀ entry ∈ (if entries = [] then configured else entries), ∀ u ∈ s.graph.usrsForName entry,
        u ∈ if entries = [] then configured else entries) ∧
    (SameLockSeeds s.graph cf entries configured ↔
      ∀ entry ∈ (if entries = [] then configured else entries), ∀ u ∈ s.graph.usrsForName entry,
        u ∈ if entries = [] then configured else entries) := by
  refine ⟨s.wf.chainSeeds_iff configured maxPaths, s.wf.locksSeed_iff cf entries configured, ?_⟩
  rw [sameLockSeeds_iff]
  exact s.wf.locksSeed_iff cf entries configured

/-- `main`, known by its usr, calls `f`. -/
def mainByUsr : Script :=
  let node (name usr : String) : GraphOp :=
    .call (.node { qualifiedName := str name, usr := str usr } (str "a.cpp"))
  (((Script.empty.op (node "main" "c:@F@main#")).op (node "f" "c:@F@f#"))).op
    (.call (.edge { callerName := str "c:@F@main#", calleeName := str "c:@F@f#", kind := .directCall
                    confidence := .Proven, callSite := str "a.cpp:3:5" } (str "a.cpp")))

/-- The entry point `main` reaches `f` in one call, and no tool finds a path. -/
theorem main_misses_f :
    let g := mainByUsr.graph
    str "c:@F@main#" ∈ g.usrsForName (str "main") ∧
    Reaches g (AllowedCall g {}) 1000 (str "c:@F@main#") (str "c:@F@f#") 1 ∧
    (findCallChain g (str "c:@F@f#") [str "main"]).paths = [] ∧
    Reaches g (NamedCall g) 1000 (str "c:@F@main#") (str "c:@F@f#") 1 ∧
    (queryLocksHeld g {} (str "c:@F@f#") [] [str "main"]).paths = [] ∧
    (querySameLock g {} (str "c:@F@f#") (str "c:@F@f#") [] [str "main"]).walkA.paths = [] := by
  have hinto : mainByUsr.graph.callerRefsOf 3 = [⟨0, 3, 5, .directCall, .Proven, .synchronous, 0⟩] := by
    decide
  have hfrom : mainByUsr.graph.calleeRefsOf 0 = [⟨0, 3, 5, .directCall, .Proven, .synchronous, 0⟩] := by
    decide
  refine ⟨by decide, ⟨0, 3, by decide, by decide, Steps.zero.succ ⟨⟨?_, ?_⟩, Or.inl rfl⟩⟩, by decide,
    ⟨0, 3, by decide, by decide, Steps.zero.succ ⟨⟨by decide, ?_⟩, Or.inl rfl⟩⟩, by decide, by decide⟩
  · exact ⟨_, hinto ▸ List.mem_singleton_self _, rfl, rfl⟩
  · exact ⟨_, hfrom ▸ List.mem_singleton_self _, rfl, rfl⟩
  · exact ⟨_, hinto ▸ List.mem_singleton_self _, rfl⟩

end Vycor
