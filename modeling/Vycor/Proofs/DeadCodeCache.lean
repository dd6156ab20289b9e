/-
The cache of `analyze_dead_code`.

Both layers are tables that keep the answer to the first request of a key.  A request that
finds its full key gets the answer of the first request that had it, and a request that is
answered anew takes the verdicts of the first such request that had its liveness key.  So the
cache is transparent in every graph exactly when requests that share a key ask the same.
-/
import Vycor.Lib.Keyed
import Vycor.Lib.Memo
import Vycor.Proofs.DeadCodeQuestions

namespace Vycor

open DeadCodeAnalyzer Memo

/-- The requests that are answered anew: those whose full key is new. -/
def misses (asked : List DeadCodeArgs) : List DeadCodeArgs :=
  asked.foldl (Keyed.put fullKey Keyed.first) []

theorem mem_map_fullKey_misses (asked : List DeadCodeArgs) (key : Str) :
    key ∈ (misses asked).map fullKey ↔ key ∈ asked.map fullKey := by
  unfold misses
  rw [Keyed.mem_keys_foldl_put (Keyed.merges_first fullKey)]
  simp

theorem misses_snoc (asked : List DeadCodeArgs) (a : DeadCodeArgs) :
    misses (asked ++ [a]) = Keyed.put fullKey Keyed.first (misses asked) a := by
  unfold misses
  rw [List.foldl_append]
  rfl

theorem misses_hit {asked : List DeadCodeArgs} {a : DeadCodeArgs}
    (h : (asked.find? (fullKey · = fullKey a)).isSome) : misses (asked ++ [a]) = misses asked := by
  rw [misses_snoc]
  refine Keyed.put_first_of_mem ((mem_map_fullKey_misses _ _).mpr ?_)
  obtain ⟨b, hb, hkey⟩ := List.find?_isSome.mp h
  exact List.mem_map.mpr ⟨b, hb, by simpa using hkey⟩

theorem misses_miss {asked : List DeadCodeArgs} {a : DeadCodeArgs}
    (h : asked.find? (fullKey · = fullKey a) = none) :
    misses (asked ++ [a]) = misses asked ++ [a] := by
  rw [misses_snoc]
  refine Keyed.put_of_not_mem (mt (mem_map_fullKey_misses _ _).mp fun hmem => ?_)
  obtain ⟨b, hb, hkey⟩ := List.mem_map.mp hmem
  have hno := List.find?_eq_none.mp h b hb
  simp [hkey] at hno

theorem misses_prefix (asked later : List DeadCodeArgs) :
    misses asked <+: misses (asked ++ later) := by
  induction later using List.reverseRecOn with
  | nil => simp
  | append_singleton later a ih =>
      rw [← List.append_assoc]
      cases hfind : (asked ++ later).find? (fullKey · = fullKey a) with
      | none =>
          rw [misses_miss hfind]
          exact ih.trans (List.prefix_append _ _)
      | some b =>
          rw [misses_hit (by rw [hfind]; rfl)]
          exact ih

/-- Leaving out repeated full keys leaves the first request of each. -/
theorem find_misses (asked : List DeadCodeArgs) (key : Str) :
    (misses asked).find? (fullKey · = key) = asked.find? (fullKey · = key) := by
  induction asked using List.reverseRecOn with
  | nil => rfl
  | append_singleton asked a ih =>
      cases hfind : asked.find? (fullKey · = fullKey a) with
      | none => rw [misses_miss hfind, List.find?_append, List.find?_append, ih]
      | some b =>
          rw [misses_hit (by rw [hfind]; rfl), ih, List.find?_append]
          by_cases hkey : fullKey a = key
          · subst hkey
            rw [hfind]
            rfl
          · simp [hkey]

theorem leader_of_miss {asked : List DeadCodeArgs} {a : DeadCodeArgs} (h : a ∈ misses asked) :
    leader fullKey asked a = a ∧ a ∈ asked := by
  have hnodup := Keyed.nodup_foldl_put (Keyed.merges_first fullKey) asked (l := []) List.nodup_nil
  have hfind := Keyed.find_of_nodup hnodup h
  rw [show asked.foldl (Keyed.put fullKey Keyed.first) [] = misses asked from rfl,
    find_misses] at hfind
  exact ⟨leader_of_find List.prefix_rfl hfind, List.mem_of_find?_eq_some hfind⟩

theorem leader_mem_misses {asked : List DeadCodeArgs} {a : DeadCodeArgs} (h : a ∈ asked) :
    leader fullKey asked a ∈ misses asked := by
  unfold leader
  cases hfind : asked.find? (fullKey · = fullKey a) with
  | none =>
      have hno := List.find?_eq_none.mp hfind a h
      simp at hno
  | some b =>
      rw [← find_misses] at hfind
      exact List.mem_of_find?_eq_some hfind

/-! ### What the cache holds

Two layers: the responses under full keys, and the verdicts under liveness keys.
Each holds what the first request of its key computed.
-/

/-- The verdicts that a request asks for. -/
def verdictsOf (g : CallGraph) (a : DeadCodeArgs) : UMap Str Liveness :=
  analyze g a.entryPoints a.includeOptimistic

/-- What a request is answered when it is answered anew. -/
def answer (fixUTF8 : Str → Str) (g : CallGraph) (asked : List DeadCodeArgs) (a : DeadCodeArgs) :
    Json :=
  deadCodeResponse fixUTF8 a g (verdictsOf g (leader livenessKey (misses asked) a))

/-- The cache holds, for what was asked, what a fresh answer is. -/
structure CacheHolds (fixUTF8 : Str → Str) (g : CallGraph) (all asked : List DeadCodeArgs)
    (cache : QueryCache) : Prop where
  byKey : Holds fullKey (answer fixUTF8 g all) asked cache.byKey
  objects : Holds livenessKey (fun a => CachedObject.liveness (verdictsOf g a)) (misses asked)
    cache.objects

theorem cacheHolds_empty (fixUTF8 : Str → Str) (g : CallGraph) (all : List DeadCodeArgs) :
    CacheHolds fixUTF8 g all [] {} :=
  ⟨holds_empty, holds_empty⟩

theorem cachedResult_hit {key : Str} {compute : Query Json} {cache : QueryCache} {out : Json}
    (h : cache.byKey.lookup key = some out) :
    (cachedResult key compute).run (some cache) = (out, some cache) := by
  unfold cachedResult
  simp [h]
  rfl

theorem cachedResult_miss {key : Str} {compute : Query Json} {cache cache' : QueryCache} {out : Json}
    (h : cache.byKey.lookup key = none) (hrun : compute.run (some cache) = (out, some cache')) :
    (cachedResult key compute).run (some cache)
      = (out, some { cache' with byKey := cache'.byKey.insert key out }) := by
  unfold cachedResult
  simp [h, hrun]
  rfl

theorem cachedObject_hit {α : Type} {key : Str} {pick : CachedObject → Option α}
    {wrap : α → CachedObject} {built found : α} {cache : QueryCache} {kept : CachedObject}
    (h : cache.objects.lookup key = some kept) (hpick : pick kept = some found) :
    (cachedObject key pick wrap built).run (some cache) = (found, some cache) := by
  unfold cachedObject
  simp [h, hpick]
  rfl

theorem cachedObject_miss {α : Type} {key : Str} {pick : CachedObject → Option α}
    {wrap : α → CachedObject} {built : α} {cache : QueryCache}
    (h : cache.objects.lookup key = none) :
    (cachedObject key pick wrap built).run (some cache)
      = (built, some { cache with objects := cache.objects.insert key (wrap built) }) := by
  unfold cachedObject
  simp [h]
  rfl

/-- The verdicts of a request that is answered anew, and the layer that holds them. -/
theorem CacheHolds.verdicts {fixUTF8 : Str → Str} {g : CallGraph} {all asked later : List DeadCodeArgs}
    {cache : QueryCache} {a : DeadCodeArgs} (h : CacheHolds fixUTF8 g all asked cache)
    (hall : all = asked ++ a :: later) (hnew : asked.find? (fullKey · = fullKey a) = none) :
    ∃ cache', (cachedObject (livenessKey a)
          (fun | .liveness results => some results | _ => none) .liveness (verdictsOf g a)).run
            (some cache)
        = (verdictsOf g (leader livenessKey (misses all) a), some cache') ∧
      cache'.byKey = cache.byKey ∧
      Holds livenessKey (fun a => CachedObject.liveness (verdictsOf g a)) (misses (asked ++ [a]))
        cache'.objects := by
  have hprefix : misses asked ++ [a] <+: misses all := by
    have hmore := misses_prefix (asked ++ [a]) later
    rwa [misses_miss hnew, List.append_assoc, List.singleton_append, ← hall] at hmore
  have hlookup := h.objects (livenessKey a)
  cases hfind : (misses asked).find? (livenessKey · = livenessKey a) with
  | some c =>
      rw [hfind] at hlookup
      have hleader : leader livenessKey (misses all) a = c :=
        leader_of_find ((List.prefix_append _ _).trans hprefix) hfind
      refine ⟨cache, ?_, rfl, ?_⟩
      · rw [hleader]
        exact cachedObject_hit hlookup rfl
      · rw [misses_miss hnew]
        exact h.objects.hit (by rw [hfind]; rfl)
  | none =>
      rw [hfind] at hlookup
      have hkept := h.objects.miss hfind
      rw [← misses_miss hnew] at hkept
      rw [leader_of_first hprefix hfind]
      exact ⟨_, cachedObject_miss hlookup, rfl, hkept⟩

/-- One request. -/
theorem CacheHolds.step {ctx : ToolContext} {all asked later : List DeadCodeArgs} {cache : QueryCache}
    {args : JsonObject} (h : CacheHolds ctx.fixUTF8 ctx.graph all asked cache)
    (hall : all = asked ++ deadCodeArgs args ctx :: later) :
    ∃ cache', (handleAnalyzeDeadCode args ctx).run (some cache)
        = (answer ctx.fixUTF8 ctx.graph all (leader fullKey all (deadCodeArgs args ctx)),
            some cache') ∧
      CacheHolds ctx.fixUTF8 ctx.graph all (asked ++ [deadCodeArgs args ctx]) cache' := by
  have hprefix : asked ++ [deadCodeArgs args ctx] <+: all := by
    have hmore := List.prefix_append (asked ++ [deadCodeArgs args ctx]) later
    rwa [List.append_assoc, List.singleton_append, ← hall] at hmore
  have hlookup := h.byKey (fullKey (deadCodeArgs args ctx))
  cases hfind : asked.find? (fullKey · = fullKey (deadCodeArgs args ctx)) with
  | some b =>
      rw [hfind] at hlookup
      have hseen : (asked.find? (fullKey · = fullKey (deadCodeArgs args ctx))).isSome := by
        rw [hfind]
        rfl
      refine ⟨cache, ?_, h.byKey.hit hseen, by rw [misses_hit hseen]; exact h.objects⟩
      rw [leader_of_find ((List.prefix_append _ _).trans hprefix) hfind]
      exact cachedResult_hit hlookup
  | none =>
      rw [hfind] at hlookup
      obtain ⟨cache', hrun, hkeep, hobjects⟩ := h.verdicts hall hfind
      have hkept := h.byKey.miss hfind
      rw [← hkeep] at hkept
      rw [leader_of_first hprefix hfind]
      refine ⟨_, cachedResult_miss hlookup ?_, hkept, hobjects⟩
      rw [StateT.run_bind]
      exact congrArg (fun r => (StateT.run (pure (deadCodeResponse ctx.fixUTF8 (deadCodeArgs args ctx)
        ctx.graph r.1)) r.2 : Id _)) hrun

/-- **What a session answers**: each request as the first one of its full key. -/
theorem CacheHolds.session {ctx : ToolContext} {all asked : List DeadCodeArgs}
    {requests : List JsonObject} {cache : QueryCache}
    (h : CacheHolds ctx.fixUTF8 ctx.graph all asked cache)
    (hall : all = asked ++ requests.map (deadCodeArgs · ctx)) :
    (requests.mapM (handleAnalyzeDeadCode · ctx)).run' (some cache)
      = requests.map fun args =>
          answer ctx.fixUTF8 ctx.graph all (leader fullKey all (deadCodeArgs args ctx)) := by
  induction requests generalizing asked cache with
  | nil => rfl
  | cons args rest ih =>
      obtain ⟨cache', hrun, hstep⟩ := h.step hall
      have hrest := ih hstep (by rw [hall, List.append_assoc]; rfl)
      rw [List.mapM_cons, List.map_cons, ← hrest, StateT.run'_eq, StateT.run_bind, hrun]
      rfl

/-! ### Transparency -/

/-- Every request of a session is answered as it is without a cache. -/
def Transparent (ctx : ToolContext) (requests : List JsonObject) : Prop :=
  (requests.mapM (handleAnalyzeDeadCode · ctx)).run' (some {})
    = requests.map fun args => ((handleAnalyzeDeadCode args ctx).run' none : Json)

theorem run_answerAfresh (ctx : ToolContext) (args : JsonObject) :
    (handleAnalyzeDeadCode args ctx).run' none =
      answerAfresh ctx.fixUTF8 (deadCodeArgs args ctx) ctx.graph := rfl

theorem transparent_iff_answers (ctx : ToolContext) (requests : List JsonObject) :
    Transparent ctx requests ↔
      ∀ a ∈ requests.map (deadCodeArgs · ctx),
        answer ctx.fixUTF8 ctx.graph (requests.map (deadCodeArgs · ctx))
            (leader fullKey (requests.map (deadCodeArgs · ctx)) a)
          = answerAfresh ctx.fixUTF8 a ctx.graph := by
  have hsession : (requests.mapM (handleAnalyzeDeadCode · ctx)).run' (some {}) = _ :=
    (cacheHolds_empty ctx.fixUTF8 ctx.graph (requests.map (deadCodeArgs · ctx))).session
      (List.nil_append _).symm
  unfold Transparent
  rw [hsession]
  simp only [run_answerAfresh, List.forall_mem_map]
  exact List.map_inj_left

theorem flagChar_cancel {b b' : Bool} {rest rest' : Str}
    (h : flagChar b ++ rest = flagChar b' ++ rest') : b = b' ∧ rest = rest' := by
  have htrue : flagChar true = [49] := by decide
  have hfalse : flagChar false = [48] := by decide
  cases b <;> cases b' <;> simp [htrue, hfalse] at h <;> exact ⟨rfl, h⟩

/-- The flags stand at fixed places of the keys. -/
theorem flags_of_fullKey {a b : DeadCodeArgs} (h : fullKey a = fullKey b) :
    a.includeOptimistic = b.includeOptimistic ∧ a.includeSystem = b.includeSystem := by
  unfold fullKey at h
  simp only [List.append_assoc, List.append_cancel_left_eq] at h
  obtain ⟨hoptimistic, hrest⟩ := flagChar_cancel h
  exact ⟨hoptimistic, (flagChar_cancel hrest).1⟩

theorem flag_of_livenessKey {a b : DeadCodeArgs} (h : livenessKey a = livenessKey b) :
    a.includeOptimistic = b.includeOptimistic := by
  unfold livenessKey at h
  simp only [List.append_assoc, List.append_cancel_left_eq] at h
  exact (flagChar_cancel h).1

/-- Requests that share a full key ask the same, and requests that are answered anew and share
a liveness key have the same entry points. -/
structure KeysApart (asked : List DeadCodeArgs) : Prop where
  full : ∀ a ∈ asked, ∀ b ∈ asked, fullKey a = fullKey b → SameQuestion a b
  liveness : ∀ a ∈ misses asked, ∀ b ∈ misses asked, livenessKey a = livenessKey b →
    SameSeeds a.includeOptimistic a.entryPoints b.entryPoints

theorem KeysApart.answer (fixUTF8 : Str → Str) {asked : List DeadCodeArgs}
    (h : KeysApart asked) (g : CallGraph)
    {a : DeadCodeArgs} (ha : a ∈ asked) :
    answer fixUTF8 g asked (leader fullKey asked a) = answerAfresh fixUTF8 a g := by
  have hfull := key_leader fullKey asked a
  obtain ⟨hoptimistic, hsystem⟩ := flags_of_fullKey hfull
  have hsame := h.full _ (leader_mem ha) a ha hfull
  have hmiss := leader_mem_misses ha
  have hliveness := key_leader livenessKey (misses asked) (leader fullKey asked a)
  have hseeds := h.liveness _ (leader_mem hmiss) _ hmiss hliveness
  have hverdicts : verdictsOf g (leader livenessKey (misses asked) (leader fullKey asked a))
      = verdictsOf g a := by
    unfold verdictsOf
    rw [hseeds.analyze, flag_of_livenessKey hliveness, hsame.seeds.analyze, hoptimistic]
  unfold Vycor.answer
  rw [hverdicts]
  exact response_congr hsystem hsame.limit hsame.offset hsame.filters g _

/-- Requests answered right everywhere ask what the requests they are answered with ask. -/
theorem leads_of_transparent {fixUTF8 : Str → Str} {asked : List DeadCodeArgs}
    (h : ∀ s : Script, ∀ a ∈ asked, answer fixUTF8 s.graph asked (leader fullKey asked a) =
        answerAfresh fixUTF8 a s.graph)
    {a : DeadCodeArgs} (ha : a ∈ asked) :
    SameSeeds a.includeOptimistic
        (leader livenessKey (misses asked) (leader fullKey asked a)).entryPoints a.entryPoints ∧
      (leader fullKey asked a).limit = a.limit ∧ (leader fullKey asked a).offset = a.offset ∧
      SameFilters (leader fullKey asked a) a := by
  have hflag : (leader livenessKey (misses asked) (leader fullKey asked a)).includeOptimistic
      = a.includeOptimistic :=
    (flag_of_livenessKey (key_leader livenessKey (misses asked) _)).trans
      (flags_of_fullKey (key_leader fullKey asked a)).1
  refine @parts_of_responses fixUTF8 _ _ _ _ _ fun s => ?_
  have hanswer := h s a ha
  unfold answer verdictsOf at hanswer
  rw [hflag] at hanswer
  exact hanswer

theorem keysApart_of_transparent {fixUTF8 : Str → Str} {asked : List DeadCodeArgs}
    (h : ∀ s : Script, ∀ a ∈ asked,
      answer fixUTF8 s.graph asked (leader fullKey asked a) =
        answerAfresh fixUTF8 a s.graph) : KeysApart asked := by
  have hmiss : ∀ a ∈ misses asked, SameSeeds a.includeOptimistic
      (leader livenessKey (misses asked) a).entryPoints a.entryPoints := by
    intro a ha
    obtain ⟨hself, hmem⟩ := leader_of_miss ha
    have hseeds := (leads_of_transparent h hmem).1
    rwa [hself] at hseeds
  refine ⟨fun a ha b hb hkey => ?_, fun a ha b hb hkey => ?_⟩
  · obtain ⟨hseeds, hlimit, hoffset, hfilters⟩ := leads_of_transparent h ha
    obtain ⟨hseeds', hlimit', hoffset', hfilters'⟩ := leads_of_transparent h hb
    have hlead := leader_congr hkey ha
    have hsystem := (flags_of_fullKey (key_leader fullKey asked a)).2
    obtain ⟨hflag, hflag'⟩ := flags_of_fullKey hkey
    rw [← hlead] at hseeds' hlimit' hoffset' hfilters'
    rw [← hflag] at hseeds'
    exact
      { seeds := hseeds.symm.trans hseeds'
        limit := hlimit.symm.trans hlimit'
        offset := hoffset.symm.trans hoffset'
        filters := hfilters.symm.trans hsystem.symm (hsystem.trans hflag') hfilters' }
  · have hseeds := hmiss a ha
    have hseeds' := hmiss b hb
    rw [← leader_congr hkey ha, ← flag_of_livenessKey hkey] at hseeds'
    exact hseeds.symm.trans hseeds'

/-- **When the cache is transparent**: in every graph, however it came about, exactly for the
sessions whose keys stay apart. -/
theorem transparent_iff_keysApart (ctx : ToolContext) (requests : List JsonObject) :
    ((∀ g, Transparent { ctx with graph := g } requests)
      ↔ KeysApart (requests.map (deadCodeArgs · ctx))) ∧
    ((∀ s : Script, Transparent { ctx with graph := s.graph } requests)
      ↔ KeysApart (requests.map (deadCodeArgs · ctx))) := by
  have hsome : (∀ s : Script, Transparent { ctx with graph := s.graph } requests) →
      KeysApart (requests.map (deadCodeArgs · ctx)) := by
    intro h
    refine @keysApart_of_transparent ctx.fixUTF8 _ fun s a ha => ?_
    exact (transparent_iff_answers { ctx with graph := s.graph } requests).mp (h s) a ha
  have hall : KeysApart (requests.map (deadCodeArgs · ctx)) →
      ∀ g, Transparent { ctx with graph := g } requests := by
    intro h g
    exact (transparent_iff_answers { ctx with graph := g } requests).mpr fun a ha =>
      h.answer ctx.fixUTF8 g ha
  exact ⟨⟨fun h => hsome fun s => h s.graph, hall⟩, ⟨hsome, fun h s => hall h s.graph⟩⟩

/-- A request for the dead functions of a name and a file. -/
def filterRequest (nameStart fileStart : String) : JsonObject :=
  [field "name_prefix" (.string (str nameStart)), field "file_prefix" (.string (str fileStart))]

/-- A graph of one function named `operator|`. -/
def operatorContext : ToolContext :=
  { graph := (soleFunction (str "operator|") (str "ops.cpp")).graph, cfIndex := {}, entryPoints := []
    fixUTF8 := id }

/-- The filters of the two requests run together in the key, and the second is answered with a
function that its file filter leaves out. -/
theorem filters_run_together :
    ¬ Transparent operatorContext [filterRequest "operator|" "ops", filterRequest "operator" "|ops"] := by
  intro h
  have hsecond := (transparent_iff_answers _ _).mp h _
    (List.mem_cons_of_mem _ List.mem_cons_self)
  have hlength := (response_shows hsecond).2.2.1
  exact absurd hlength (by decide +kernel)

end Vycor
