/-
The reloaded contexts and the saved ones from then on.

A reloaded index has the strings, the sets and the live contexts of the saved one under the
same ids; its tombstones are gone, and its usr entries are those of its live contexts alone.
Every set is found under its key as before, since no two entries of a table have one key.
`InStep` is what the two indexes have in common, and each mutator keeps it.  Only an empty
usr entry can then tell them apart, and only the saved index can have more of these.
-/
import Vycor.Proofs.SnapshotContexts
import Vycor.Proofs.SnapshotSafety

namespace Vycor

open UMap Postings

/-! ### Set tables -/

namespace SetTable

variable {α β : Type} {key : List α → Str} {t t' : SetTable α}

/-- A key leads to the one entry that has it, and entry 0 is the empty set. -/
structure Exact (key : List α → Str) (t : SetTable α) : Prop where
  seed : ∃ rest, t.sets = [] :: rest
  found : ∀ k i, t.ids.lookup k = some i ↔ 0 < i ∧ ∃ set, t.sets[i]? = some set ∧ key set = k

theorem exact_seeded : Exact key {} := by
  refine ⟨⟨[], rfl⟩, ?_⟩
  intro k i
  refine iff_of_false (by simp) ?_
  rintro ⟨hpos, set, hset, -⟩
  have hlt := (List.getElem?_eq_some_iff.mp hset).1
  have : i < 1 := hlt
  omega

theorem Exact.intern (h : t.Exact key) (set : List α)
    (hroom : (t.intern (key set) set).1.sets.length ≤ 2 ^ 32) :
    (t.intern (key set) set).1.Exact key := by
  unfold SetTable.intern at hroom ⊢
  split at hroom
  · rename_i hnil
    rw [if_pos hnil]
    exact h
  · rename_i hne
    rw [if_neg hne]
    split at hroom
    · exact h
    · rename_i hnone
      dsimp only at hroom ⊢
      rw [List.length_append, List.length_singleton] at hroom
      rw [Nat.mod_eq_of_lt (Nat.lt_of_succ_le hroom)]
      obtain ⟨rest, hsets⟩ := h.seed
      refine ⟨⟨rest ++ [set], by rw [hsets, List.cons_append]⟩, ?_⟩
      intro k i
      show AList.lookup k (AList.insert (key set) t.sets.length t.ids) = some i ↔
        0 < i ∧ ∃ s, (t.sets ++ [set])[i]? = some s ∧ key s = k
      rw [lookup_insert_ite]
      simp only [CallGraph.getElem?_concat]
      by_cases hk : k = key set
      · subst hk
        rw [if_pos rfl]
        constructor
        · intro hi
          injection hi with hi
          subst hi
          exact ⟨by rw [hsets]; exact Nat.zero_lt_succ _, set, Or.inr ⟨rfl, rfl⟩, rfl⟩
        · rintro ⟨hpos, s, hs | ⟨rfl, rfl⟩, hkey⟩
          · rw [(h.found _ i).mpr ⟨hpos, s, hs, hkey⟩] at hnone
            exact absurd hnone (by simp)
          · rfl
      · rw [if_neg hk, h.found]
        refine and_congr_right fun _ => exists_congr fun s => ?_
        constructor
        · exact fun ⟨hs, hkey⟩ => ⟨Or.inl hs, hkey⟩
        · rintro ⟨hs | ⟨-, rfl⟩, hkey⟩
          · exact ⟨hs, hkey⟩
          · exact absurd hkey.symm hk

/-- The numbers of the entries tell them apart while they fit 32 bits. -/
theorem exact_intern (h : t.sets.length ≤ 2 ^ 32 → t.Exact key) (set : List α) :
    (t.intern (key set) set).1.sets.length ≤ 2 ^ 32 → (t.intern (key set) set).1.Exact key :=
  fun hroom => (h ((prefix_intern t _ _).length_le.trans hroom)).intern set hroom

/-- A property that interning a set keeps is kept by interning many. -/
theorem internAll_keeps {P : SetTable α → Prop}
    (hstep : ∀ t, P t → ∀ set, P (t.intern (key set) set).1) (h : P t) (image : List β → List α)
    (sets : List (List β)) : P (t.internAll key image sets).1 :=
  List.foldlRecOn (motive := fun st : SetTable α × List Nat => P st.1) (sets.drop 1) _ h
    fun st hst set _ => hstep st.1 hst (image set)

/-- Two tables that no interning tells apart. -/
structure Alike (t t' : SetTable α) : Prop where
  sets : t'.sets = t.sets
  ids : ∀ k, t'.ids.lookup k = t.ids.lookup k

theorem Alike.intern (h : t.Alike t') (key : Str) (set : List α) :
    (t.intern key set).1.Alike (t'.intern key set).1
      ∧ (t'.intern key set).2 = (t.intern key set).2 := by
  unfold SetTable.intern
  split
  · exact ⟨h, rfl⟩
  · rw [h.ids]
    cases t.ids.lookup key with
    | some i => exact ⟨h, rfl⟩
    | none =>
        dsimp only
        rw [h.sets]
        refine ⟨⟨rfl, ?_⟩, rfl⟩
        intro k
        rw [lookup_insert_ite, lookup_insert_ite, h.ids]

theorem Alike.internAll (h : t.Alike t') (key : List α → Str) (image : List β → List α)
    (sets : List (List β)) :
    (t.internAll key image sets).1.Alike (t'.internAll key image sets).1
      ∧ (t'.internAll key image sets).2 = (t.internAll key image sets).2 := by
  have hrun : ∀ (sets : List (List β)) (t t' : SetTable α) (ids : List Nat), t.Alike t' →
      let step := fun (st : SetTable α × List Nat) set =>
        let r := st.1.intern (key (image set)) (image set)
        (r.1, st.2 ++ [r.2])
      (sets.foldl step (t, ids)).1.Alike (sets.foldl step (t', ids)).1
        ∧ (sets.foldl step (t', ids)).2 = (sets.foldl step (t, ids)).2 := by
    intro sets
    induction sets with
    | nil => exact fun _ _ _ h => ⟨h, rfl⟩
    | cons set rest ih =>
        intro t t' ids h
        obtain ⟨htable, hid⟩ := h.intern (key (image set)) (image set)
        dsimp only
        rw [List.foldl_cons, List.foldl_cons, hid]
        exact ih _ _ _ htable
  exact hrun (sets.drop 1) t t' [0] h

end SetTable

namespace SnapshotIO

open ControlFlowIndex (WF Filed InRange)

/-- **The keys that a load rebuilds are the saved ones.** -/
theorem rebuildTable_alike {α : Type} {key : List α → Str} {t : SetTable α} (h : t.Exact key) :
    t.Alike (rebuildTable .mutable key t.sets) := by
  refine ⟨rfl, ?_⟩
  obtain ⟨rest, hsets⟩ := h.seed
  have hfold : ∀ (l : List (List α × Nat)) (ids : UMap Str Nat) (k : Str),
      (l.foldl (fun ids set => ids.emplace (key set.1) set.2) ids).lookup k
        = (ids.lookup k).or ((l.find? fun set => key set.1 = k).map Prod.snd) := by
    intro l
    induction l with
    | nil => simp
    | cons set rest ih =>
        intro ids k
        rw [List.foldl_cons, ih, lookup_emplace, List.find?_cons]
        by_cases hk : k = key set.1
        · subst hk
          cases ids.lookup (key set.1) <;> simp
        · simp [hk, Ne.symm hk]
  intro k
  refine (hfold _ _ k).trans ?_
  have hmem : ∀ set, set ∈ t.sets.zipIdx.drop 1 ↔ 0 < set.2 ∧ t.sets[set.2]? = some set.1 := by
    intro set
    rw [← List.mem_zipIdx_iff_getElem?, hsets]
    have hdrop : (([] : List α) :: rest).zipIdx = ([], 0) :: rest.zipIdx 1 := rfl
    rw [hdrop, List.drop_succ_cons, List.drop_zero, List.mem_cons]
    constructor
    · intro hin
      exact ⟨by have := List.le_snd_of_mem_zipIdx hin; omega, Or.inr hin⟩
    · rintro ⟨hpos, rfl | hin⟩
      · exact absurd hpos (Nat.lt_irrefl 0)
      · exact hin
  have hnone : (∅ : UMap Str Nat).lookup k = none := AList.lookup_empty k
  rw [hnone, Option.none_or]
  refine Option.ext fun i => ?_
  rw [h.found, Option.map_eq_some_iff]
  constructor
  · rintro ⟨set, hset, rfl⟩
    obtain ⟨hpos, hat⟩ := (hmem set).mp (List.mem_of_find?_eq_some hset)
    exact ⟨hpos, set.1, hat, by simpa using List.find?_some hset⟩
  · rintro ⟨hpos, set, hat, hkey⟩
    have hsome : ((t.sets.zipIdx.drop 1).find? fun set => key set.1 = k).isSome := by
      rw [List.find?_isSome]
      exact ⟨(set, i), (hmem (set, i)).mpr ⟨hpos, hat⟩, decide_eq_true hkey⟩
    obtain ⟨found, hfound⟩ := Option.isSome_iff_exists.mp hsome
    obtain ⟨hpos', hat'⟩ := (hmem found).mp (List.mem_of_find?_eq_some hfound)
    -- both positions have the key
    have h₁ := (h.found k i).mpr ⟨hpos, set, hat, hkey⟩
    have h₂ := (h.found k found.2).mpr ⟨hpos', found.1, hat', by simpa using List.find?_some hfound⟩
    rw [h₁] at h₂
    exact ⟨found, hfound, (Option.some.inj h₂).symm⟩

end SnapshotIO

namespace ControlFlowIndex

variable {cf cf' : ControlFlowIndex}

/-! ### Keys of the tables -/

/-- A key leads to the one set that has it, in a table whose entries 32 bits can number. -/
structure Exact (cf : ControlFlowIndex) : Prop where
  scopeSets : cf.scopeSets.sets.length ≤ 2 ^ 32 → cf.scopeSets.Exact scopeSetKey
  guardSets : cf.guardSets.sets.length ≤ 2 ^ 32 → cf.guardSets.Exact guardSetKey
  raiiSets : cf.raiiSets.sets.length ≤ 2 ^ 32 → cf.raiiSets.Exact raiiSetKey

/-- **In every index a history builds a key leads to the one set that has it.** -/
theorem History.exact : ∀ h : History, h.index.Exact
  | .empty => ⟨fun _ => SetTable.exact_seeded, fun _ => SetTable.exact_seeded,
      fun _ => SetTable.exact_seeded⟩
  | .add h ctx => by
      show (h.index.addCallSiteContext ctx).Exact
      rw [addCallSiteContext_eq]
      exact ⟨SetTable.exact_intern h.exact.scopeSets _, SetTable.exact_intern h.exact.guardSets _,
        SetTable.exact_intern h.exact.raiiSets _⟩
  | .absorb h shard => by
      obtain ⟨-, hscopes, hguards, hraiis⟩ := absorb_interner h.index shard.index
      refine ⟨?_, ?_, ?_⟩
      · show (h.index.absorb shard.index).scopeSets.sets.length ≤ 2 ^ 32 →
          (h.index.absorb shard.index).scopeSets.Exact scopeSetKey
        rw [hscopes]
        exact SetTable.internAll_keeps (P := fun t => t.sets.length ≤ 2 ^ 32 → t.Exact scopeSetKey)
          (fun _ ht set => SetTable.exact_intern ht set) h.exact.scopeSets _ _
      · show (h.index.absorb shard.index).guardSets.sets.length ≤ 2 ^ 32 →
          (h.index.absorb shard.index).guardSets.Exact guardSetKey
        rw [hguards]
        exact SetTable.internAll_keeps (P := fun t => t.sets.length ≤ 2 ^ 32 → t.Exact guardSetKey)
          (fun _ ht set => SetTable.exact_intern ht set) h.exact.guardSets _ _
      · show (h.index.absorb shard.index).raiiSets.sets.length ≤ 2 ^ 32 →
          (h.index.absorb shard.index).raiiSets.Exact raiiSetKey
        rw [hraiis]
        exact SetTable.internAll_keeps (P := fun t => t.sets.length ≤ 2 ^ 32 → t.Exact raiiSetKey)
          (fun _ ht set => SetTable.exact_intern ht set) h.exact.raiiSets _ _
  | .removeTUs h _ => ⟨h.exact.scopeSets, h.exact.guardSets, h.exact.raiiSets⟩
  | .compact h => by
      obtain ⟨-, hscopes, hguards, hraiis⟩ := compact_tables h.index
      refine ⟨?_, ?_, ?_⟩
      · show h.index.compact.scopeSets.sets.length ≤ 2 ^ 32 →
          h.index.compact.scopeSets.Exact scopeSetKey
        exact hscopes ▸ h.exact.scopeSets
      · show h.index.compact.guardSets.sets.length ≤ 2 ^ 32 →
          h.index.compact.guardSets.Exact guardSetKey
        exact hguards ▸ h.exact.guardSets
      · show h.index.compact.raiiSets.sets.length ≤ 2 ^ 32 →
          h.index.compact.raiiSets.Exact raiiSetKey
        exact hraiis ▸ h.exact.raiiSets

/-! ### Indexes that stay alike

A loaded index has the tables and the contexts of the saved one, and no entries
that have run empty. The mutators keep it so.
-/

/-- The tables and the live contexts are the same, and `cf'` has no usr entry that `cf` has
not. -/
structure InStep (cf cf' : ControlFlowIndex) : Prop where
  interner : cf'.interner = cf.interner
  scopeSets : cf.scopeSets.Alike cf'.scopeSets
  guardSets : cf.guardSets.Alike cf'.guardSets
  raiiSets : cf.raiiSets.Alike cf'.raiiSets
  live : cf'.contexts.filter (·.live) = cf.contexts.filter (·.live)
  callees : ∀ id, cf.byCallee.lookup id = none → cf'.byCallee.lookup id = none
  callers : ∀ id, cf.byCaller.lookup id = none → cf'.byCaller.lookup id = none

theorem InStep.insertStored (h : cf.InStep cf') (se : StoredContext) :
    (cf.insertStored se).InStep (cf'.insertStored se) := by
  have hpush {m m' : UMap SId (List Nat)} (hm : ∀ id, m.lookup id = none → m'.lookup id = none)
      (key : SId) (i i' : Nat) (id : SId) (hnone : (pushAt m key i).lookup id = none) :
      (pushAt m' key i').lookup id = none := by
    unfold pushAt at hnone ⊢
    rw [lookup_upsert] at hnone ⊢
    split at hnone
    · exact absurd hnone (by simp)
    · rename_i hne
      rw [if_neg hne]
      exact hm id hnone
  refine ⟨h.interner, h.scopeSets, h.guardSets, h.raiiSets, ?_, hpush h.callees _ _ _,
    hpush h.callers _ _ _⟩
  have hnew : ∀ x : ControlFlowIndex, (x.insertStored se).contexts.filter (·.live)
      = x.contexts.filter (·.live) ++ [{ se with live := true }] := fun _ => List.filter_append ..
  rw [hnew, hnew, h.live]

theorem InStep.insertAll (h : cf.InStep cf') (stored : List StoredContext) :
    (stored.foldl ControlFlowIndex.insertStored cf).InStep
      (stored.foldl ControlFlowIndex.insertStored cf') := by
  induction stored generalizing cf cf' with
  | nil => exact h
  | cons se rest ih => exact ih (h.insertStored se)

theorem InStep.withTables (h : cf.InStep cf') (t : StringInterner)
    {scopeSets scopeSets' : SetTable TryCatchScope} (hscopes : scopeSets.Alike scopeSets')
    {guardSets guardSets' : SetTable ConditionalGuard} (hguards : guardSets.Alike guardSets')
    {raiiSets raiiSets' : SetTable StoredRaiiLocal} (hraiis : raiiSets.Alike raiiSets') :
    (cf.withTables t scopeSets guardSets raiiSets).InStep
      (cf'.withTables t scopeSets' guardSets' raiiSets') :=
  ⟨rfl, hscopes, hguards, hraiis, h.live, h.callees, h.callers⟩

theorem InStep.addCallSiteContext (h : cf.InStep cf') (ctx : CallSiteContext) :
    (cf.addCallSiteContext ctx).InStep (cf'.addCallSiteContext ctx) := by
  have hinterner : (cf'.internFor ctx).interner = (cf.internFor ctx).interner := by
    unfold internFor
    rw [h.interner]
  obtain ⟨hscopes, hscope⟩ := h.scopeSets.intern (scopeSetKey ctx.enclosingTryCatches)
    ctx.enclosingTryCatches
  obtain ⟨hguards, hguard⟩ := h.guardSets.intern (guardSetKey ctx.enclosingGuards)
    ctx.enclosingGuards
  obtain ⟨hraiis, hraii⟩ := h.raiiSets.intern
    (raiiSetKey (storeLocals (cf.internFor ctx).interner ctx.liveRaiiLocals))
    (storeLocals (cf.internFor ctx).interner ctx.liveRaiiLocals)
  have hlocals : (cf'.internFor ctx).locals
      = cf'.raiiSets.intern (raiiSetKey (storeLocals (cf.internFor ctx).interner ctx.liveRaiiLocals))
        (storeLocals (cf.internFor ctx).interner ctx.liveRaiiLocals) := by
    rw [← hinterner]
    rfl
  have hstored : storedOf (cf'.internFor ctx).interner ctx (cf'.internFor ctx).scopes.2
      (cf'.internFor ctx).guards.2 (cf'.internFor ctx).locals.2
      = storedOf (cf.internFor ctx).interner ctx (cf.internFor ctx).scopes.2
        (cf.internFor ctx).guards.2 (cf.internFor ctx).locals.2 := by
    rw [hinterner, hlocals, hraii]
    unfold internFor
    dsimp only
    rw [hscope, hguard]
  rw [addCallSiteContext_eq, addCallSiteContext_eq, hstored, hinterner, hlocals]
  exact (h.withTables _ hscopes hguards hraiis).insertStored _

theorem InStep.absorb (h : cf.InStep cf') (shard : ControlFlowIndex) :
    (cf.absorb shard).InStep (cf'.absorb shard) := by
  have hinterner : (cf'.internShard shard).interner = (cf.internShard shard).interner := by
    unfold internShard
    rw [h.interner]
  obtain ⟨hscopes, hscope⟩ := h.scopeSets.internAll scopeSetKey id shard.scopeSets.sets
  obtain ⟨hguards, hguard⟩ := h.guardSets.internAll guardSetKey id shard.guardSets.sets
  obtain ⟨hraiis, hraii⟩ := h.raiiSets.internAll raiiSetKey
    (List.map (remapLocal fun id =>
      (cf.internShard shard).interner.idOf (shard.interner.resolve id))) shard.raiiSets.sets
  have hlocals : (cf'.internShard shard).locals
      = cf'.raiiSets.internAll raiiSetKey (List.map (remapLocal fun id =>
          (cf.internShard shard).interner.idOf (shard.interner.resolve id)))
        shard.raiiSets.sets := by
    rw [← hinterner]
    rfl
  have hcontext : (cf'.internShard shard).context shard = (cf.internShard shard).context shard := by
    funext se
    unfold Remaps.context Remaps.remap
    rw [hinterner, hlocals, hraii]
    unfold internShard
    dsimp only
    rw [hscope, hguard]
  rw [absorb_eq, absorb_eq, hcontext, hinterner, hlocals]
  exact (h.withTables _ hscopes hguards hraiis).insertAll _

/-- A usr entry that scrubbing leaves alone or fills is one that was there. -/
theorem scrub_none {m m' : UMap SId (List Nat)} {affected affected' : List SId}
    {dead dead' : List Nat} (h : ∀ id, m.lookup id = none → m'.lookup id = none)
    (hkeys : ∀ id ∈ affected', m'.lookup id ≠ none) {id : SId}
    (hnone : (Postings.scrub m affected dead).lookup id = none) :
    (Postings.scrub m' affected' dead').lookup id = none := by
  rw [lookup_scrub] at hnone ⊢
  split at hnone
  · exact absurd hnone (by simp)
  · have hid := h id hnone
    rw [if_neg fun hc => hkeys id hc hid]
    exact hid

/-- The key of a context that is buried has an entry. -/
theorem Burying.lookup_key {tuPaths : List Str} {candidates : List (Nat × Bool)} {r : Removal}
    (hr : Burying cf tuPaths candidates r) {m : UMap SId (List Nat)} {f : StoredContext → SId}
    (hm : Files cf.contexts (fun k => held fun se => f se = k) m) {id : SId}
    (hid : id ∈ r.dead.map f) : m.lookup id ≠ none := by
  obtain ⟨se, hse, rfl⟩ := List.mem_map.mp hid
  obtain ⟨i, hi, hat⟩ := (hr.dead se).mp hse
  obtain ⟨se', hat', hlive, -⟩ := (hr.mem i).mp hi
  rw [hat] at hat'
  injection hat' with hat'
  have hpos : i ∈ positions cf.contexts (held fun x => f x = f se) :=
    mem_positions.mpr ⟨se, hat, by simp [held, hat', hlive]⟩
  intro hnone
  rw [← hm (f se), UMap.getD, hnone] at hpos
  exact absurd hpos List.not_mem_nil

theorem InStep.removeTUs (h : cf.InStep cf') (hwf : cf.WF) (hwf' : cf'.WF) (tuPaths : List Str) :
    (cf.removeTUs tuPaths).1.InStep (cf'.removeTUs tuPaths).1
      ∧ (cf'.removeTUs tuPaths).2 = (cf.removeTUs tuPaths).2 := by
  obtain ⟨-, hcontexts, hcount⟩ := hwf.removeTUs tuPaths
  obtain ⟨-, hcontexts', hcount'⟩ := hwf'.removeTUs tuPaths
  have hleaves : cf'.leaves tuPaths = cf.leaves tuPaths := by
    funext se
    unfold leaves fromRemovedTu
    rw [h.interner]
  have hr : Burying cf' tuPaths (cf'.candidatesOf tuPaths) (cf'.firstPass tuPaths) := Burying.run _
  have hheld (p : StoredContext → Bool) (l : List StoredContext) :
      l.filter (held p) = (l.filter (·.live)).filter p := by
    rw [List.filter_filter]
    exact List.filter_congr fun se _ => by simp [held, Bool.and_comm]
  refine ⟨⟨h.interner, h.scopeSets, h.guardSets, h.raiiSets, ?_, ?_, ?_⟩, ?_⟩
  · have hsplit (p : StoredContext → Bool) (l : List StoredContext) :
        l.filter (fun se => se.live && !p se) = (l.filter (·.live)).filter fun se => !p se := by
      rw [List.filter_filter]
      exact List.filter_congr fun se _ => Bool.and_comm _ _
    rw [hcontexts, hcontexts', filter_buried, filter_buried, hsplit, hsplit, h.live, hleaves]
  · intro id hnone
    exact scrub_none h.callees (fun id hid => hr.lookup_key hwf'.byCallee hid) hnone
  · intro id hnone
    exact scrub_none h.callers (fun id hid => hr.lookup_key hwf'.byCaller hid) hnone
  · rw [hcount, hcount', hheld, hheld, h.live, hleaves]

/-- Two indexes over the same tables and live contexts, the second without empty usr entries. -/
theorem Rebuilt.inStep (h : Rebuilt cf cf') (hq : cf.Queried)
    (hscopes : cf.scopeSets.Alike cf'.scopeSets) (hguards : cf.guardSets.Alike cf'.guardSets)
    (hraiis : cf.raiiSets.Alike cf'.raiiSets) : cf.InStep cf' := by
  have hnone {usr : SId → StoredContext → Bool} {m m' : UMap SId (List Nat)}
      (hm : Files cf.contexts (fun k => held (usr k)) m)
      (hm' : Files cf'.contexts (fun k => held (usr k)) m') (hne : NoneEmpty m') (id : SId)
      (hid : m.lookup id = none) : m'.lookup id = none := by
    rw [hm'.lookup_eq_none hne, positions_eq_nil, h.filter_held, ← positions_eq_nil, ← hm id,
      UMap.getD, hid]
    rfl
  refine ⟨h.interner, hscopes, hguards, hraiis, ?_, hnone hq.byCallee h.byCallee h.callees,
    hnone hq.byCaller h.byCaller h.callers⟩
  rw [h.contexts, List.filter_filter]
  exact List.filter_congr fun se _ => Bool.and_self _

theorem InStep.compact (h : cf.InStep cf') (hwf : cf.WF) (hwf' : cf'.WF) :
    cf.compact.InStep cf'.compact := by
  have hre := hwf.rebuilt_compact
  have hre' := hwf'.rebuilt_compact
  obtain ⟨hinterner, hscopes, hguards, hraiis⟩ := compact_tables cf
  obtain ⟨hinterner', hscopes', hguards', hraiis'⟩ := compact_tables cf'
  have hcontexts : cf'.compact.contexts = cf.compact.contexts := by
    rw [compact_contexts, compact_contexts, h.live]
  have hlive : cf.compact.contexts.filter (·.live) = cf.compact.contexts := by
    rw [compact_contexts, List.filter_filter]
    exact List.filter_congr fun se _ => Bool.and_self _
  have hscopeSets : cf.compact.scopeSets.Alike cf'.compact.scopeSets := by
    rw [hscopes, hscopes']
    exact h.scopeSets
  have hguardSets : cf.compact.guardSets.Alike cf'.compact.guardSets := by
    rw [hguards, hguards']
    exact h.guardSets
  have hraiiSets : cf.compact.raiiSets.Alike cf'.compact.raiiSets := by
    rw [hraiis, hraiis']
    exact h.raiiSets
  refine Rebuilt.inStep
    { hre'.toQueried with
      interner := by rw [hinterner, hinterner', h.interner]
      scopeSets := hscopeSets.sets, guardSets := hguardSets.sets, raiiSets := hraiiSets.sets
      contexts := by rw [hcontexts, hlive], callees := hre'.callees, callers := hre'.callers }
    hre.toQueried hscopeSets hguardSets hraiiSets

/-! ### Answers -/

/-- Queries by site, and how many contexts a removal says went. -/
structure SameSites (cf cf' : ControlFlowIndex) : Prop where
  contextAtSite : ∀ s, cf'.contextAtSite s = cf.contextAtSite s
  contextAtSiteOf : ∀ s caller, cf'.contextAtSiteOf s caller = cf.contextAtSiteOf s caller
  contextsAtSite : ∀ s, cf'.contextsAtSite s = cf.contextsAtSite s
  allContexts : cf'.allContexts = cf.allContexts
  size : cf'.size = cf.size
  removeTUs : ∀ tuPaths, (cf'.removeTUs tuPaths).2 = (cf.removeTUs tuPaths).2

/-- The compacted form of the second index is the first one rebuilt. -/
theorem InStep.rebuilt (h : cf.InStep cf') (hwf' : cf'.WF) : Rebuilt cf cf'.compact := by
  obtain ⟨hinterner, hscopes, hguards, hraiis⟩ := compact_tables cf'
  have hre := hwf'.rebuilt_compact
  exact
    { hre.toQueried with
      interner := by rw [hinterner, h.interner]
      scopeSets := by rw [hscopes, h.scopeSets.sets]
      guardSets := by rw [hguards, h.guardSets.sets]
      raiiSets := by rw [hraiis, h.raiiSets.sets]
      contexts := by rw [compact_contexts, h.live]
      callees := hre.callees
      callers := hre.callers }

/-- **Queries by site do not tell the indexes apart.** -/
theorem InStep.sameSites (h : cf.InStep cf') (hwf : cf.WF) (hwf' : cf'.WF) : SameSites cf cf' := by
  have hsite (s : Str) : cf'.storedAtSite s = cf.storedAtSite s := by
    rw [← (h.rebuilt hwf').storedAtSite hwf.queried, hwf'.rebuilt_compact.storedAtSite hwf'.queried]
  have hmat : cf'.materialize = cf.materialize := by
    unfold ControlFlowIndex.materialize
    rw [h.interner, h.scopeSets.sets, h.guardSets.sets, h.raiiSets.sets]
  obtain ⟨hat, hatOf, hall⟩ := siteQueries_congr h.interner hsite hmat
  refine ⟨hat, hatOf, hall, ?_, ?_, ?_⟩
  · unfold ControlFlowIndex.allContexts
    rw [h.live, hmat]
  · unfold ControlFlowIndex.size
    rw [hwf.liveCount, hwf'.liveCount, h.live]
  · exact fun tuPaths => (h.removeTUs hwf hwf' tuPaths).2

/-- What hides nothing in the first index hides nothing in the second. -/
theorem InStep.noShadow (h : cf.InStep cf') (hwf : cf.WF) (hwf' : cf'.WF) (hshadow : cf.NoShadow) :
    cf'.NoShadow := by
  have hfilter (p : StoredContext → Bool) :
      cf'.contexts.filter (held p) = cf.contexts.filter (held p) := by
    rw [← hwf'.rebuilt_compact.filter_held, (h.rebuilt hwf').filter_held]
  have hone {usr display : SId → StoredContext → Bool}
      {usrMap displayMap usrMap' displayMap' : UMap SId (List Nat)}
      (husr : Files cf.contexts (fun k => held (usr k)) usrMap)
      (hdisplay : Files cf.contexts (fun k => held (display k)) displayMap)
      (husr' : Files cf'.contexts (fun k => held (usr k)) usrMap')
      (hdisplay' : Files cf'.contexts (fun k => held (display k)) displayMap')
      (hnone : ∀ id, usrMap.lookup id = none → usrMap'.lookup id = none) (id : SId)
      (hhides : usrMap.lookup id = some [] → displayMap.getD id [] = [])
      (hempty : usrMap'.lookup id = some []) : displayMap'.getD id [] = [] := by
    have hnil : positions cf.contexts (held (usr id)) = [] := by
      rw [positions_eq_nil, ← hfilter, ← positions_eq_nil, ← husr' id, UMap.getD, hempty]
      rfl
    have hempty' : usrMap.lookup id = some [] := by
      cases hl : usrMap.lookup id with
      | none =>
          rw [hnone id hl] at hempty
          exact absurd hempty (by simp)
      | some v =>
          have hv := husr id
          rw [UMap.getD, hl, hnil] at hv
          exact congrArg some hv
    have hshown := hhides hempty'
    rwa [hdisplay id, positions_eq_nil, ← hfilter, ← positions_eq_nil, ← hdisplay' id] at hshown
  intro id
  exact ⟨hone hwf.byCallee hwf.byCalleeDisplay hwf'.byCallee hwf'.byCalleeDisplay h.callees id
      (hshadow id).1,
    hone hwf.byCaller hwf.byCallerDisplay hwf'.byCaller hwf'.byCallerDisplay h.callers id
      (hshadow id).2⟩

/-- **No query tells the indexes apart where no empty usr entry of the first hides contexts.** -/
theorem InStep.sameAnswers (h : cf.InStep cf') (hwf : cf.WF) (hwf' : cf'.WF) (hshadow : cf.NoShadow) :
    SameAnswers cf cf' := by
  have hfirst := (h.rebuilt hwf').sameAnswers hwf.queried hshadow
  have hsecond := hwf'.rebuilt_compact.sameAnswers hwf'.queried (h.noShadow hwf hwf' hshadow)
  exact
    { contextAtSite := fun s => (hsecond.contextAtSite s).symm.trans (hfirst.contextAtSite s)
      contextAtSiteOf := fun s caller =>
        (hsecond.contextAtSiteOf s caller).symm.trans (hfirst.contextAtSiteOf s caller)
      contextsAtSite := fun s => (hsecond.contextsAtSite s).symm.trans (hfirst.contextsAtSite s)
      contextsForCaller := fun s =>
        (hsecond.contextsForCaller s).symm.trans (hfirst.contextsForCaller s)
      contextsForCallee := fun s =>
        (hsecond.contextsForCallee s).symm.trans (hfirst.contextsForCallee s)
      protectedCallsTo := fun s =>
        (hsecond.protectedCallsTo s).symm.trans (hfirst.protectedCallsTo s)
      unprotectedCallsTo := fun s =>
        (hsecond.unprotectedCallsTo s).symm.trans (hfirst.unprotectedCallsTo s)
      allContexts := hsecond.allContexts.symm.trans hfirst.allContexts }

/-! ### Runs -/

/-- What changes an index. -/
inductive Mutation
  | add (ctx : CallSiteContext)
  | absorb (shard : History)
  | removeTUs (tuPaths : List Str)
  | compact

/-- The change on the index. -/
def Mutation.apply (cf : ControlFlowIndex) : Mutation → ControlFlowIndex
  | add ctx => cf.addCallSiteContext ctx
  | absorb shard => cf.absorb shard.index
  | removeTUs tuPaths => (cf.removeTUs tuPaths).1
  | compact => cf.compact

theorem WF.apply (hwf : cf.WF) (m : Mutation) : (m.apply cf).WF := by
  cases m with
  | add ctx => exact hwf.addCallSiteContext ctx
  | absorb shard => exact hwf.absorb shard.wf
  | removeTUs tuPaths => exact (hwf.removeTUs tuPaths).1
  | compact => exact hwf.compact

theorem InStep.apply (h : cf.InStep cf') (hwf : cf.WF) (hwf' : cf'.WF) (m : Mutation) :
    (m.apply cf).InStep (m.apply cf') := by
  cases m with
  | add ctx => exact h.addCallSiteContext ctx
  | absorb shard => exact h.absorb shard.index
  | removeTUs tuPaths => exact (h.removeTUs hwf hwf' tuPaths).1
  | compact => exact h.compact hwf hwf'

/-- **Indexes that are alike stay alike.** -/
theorem InStep.run (h : cf.InStep cf') (hwf : cf.WF) (hwf' : cf'.WF) (later : List Mutation) :
    (later.foldl Mutation.apply cf).WF ∧ (later.foldl Mutation.apply cf').WF ∧
      (later.foldl Mutation.apply cf).InStep (later.foldl Mutation.apply cf') := by
  induction later generalizing cf cf' with
  | nil => exact ⟨hwf, hwf', h⟩
  | cons m rest ih => exact ih (h.apply hwf hwf' m) (hwf.apply m) (hwf'.apply m)

end ControlFlowIndex

namespace SnapshotIO

open ControlFlowIndex (WF InStep)

/-! ### The reloaded index -/

theorem reloadContexts_wf {cf : ControlFlowIndex} (hwf : cf.WF) :
    (reloadContexts .mutable cf).WF := by
  have hfiled : (reloadContexts .mutable cf).Filed :=
    (ControlFlowIndex.filed_tables _ _ _ _).insertAll (cf.contexts.filter (·.live))
  have hinterner := (rebuilt_reload .mutable cf).interner
  refine { hfiled with nodup := ?_, inRange := ?_ }
  · rw [hinterner]
    exact hwf.nodup
  · have hstart : (reloadTables .mutable cf).InRange :=
      ControlFlowIndex.inRange_tables
        (rebuildTable_inRange _ (seeded_of_inRange hwf.inRange.scopeSets))
        (rebuildTable_inRange _ (seeded_of_inRange hwf.inRange.guardSets))
        (rebuildTable_inRange _ (seeded_of_inRange hwf.inRange.raiiSets)) hwf.inRange.locals
    have hfold := List.foldlRecOn (motive := fun cf' : ControlFlowIndex =>
        cf'.InRange ∧ ControlFlowIndex.TablesGrown cf cf') (cf.contexts.filter (·.live))
      (installContext .mutable) ⟨hstart, rfl, Nat.le_refl _, Nat.le_refl _, Nat.le_refl _⟩ ?_
    · exact hfold.1
    · rintro cf' ⟨hcf', hgrown⟩ se hse
      have hmem := List.mem_of_mem_filter hse
      refine ⟨hcf'.insertStored ?_ ((hwf.inRange.sets se hmem).mono hgrown),
        hgrown.trans ⟨rfl, Nat.le_refl _, Nat.le_refl _, Nat.le_refl _⟩⟩
      rw [hgrown.interner]
      exact hwf.inRange.ids se hmem

/-- **A reloaded index is like the saved one.** -/
theorem reloadContexts_inStep {cf : ControlFlowIndex} (hwf : cf.WF) (hexact : cf.Exact)
    (hfits : ContextsFit cf) : cf.InStep (reloadContexts .mutable cf) := by
  obtain ⟨-, hscopes, hguards, hraiis⟩ := ControlFlowIndex.insertAll_tables
    (cf.contexts.filter (·.live)) (reloadTables .mutable cf) (reloadContexts .mutable cf) rfl
  refine (rebuilt_reload .mutable cf).inStep hwf.queried ?_ ?_ ?_
  · rw [hscopes]
    exact rebuildTable_alike (hexact.scopeSets (Nat.le_of_lt hfits.scopeSetCount))
  · rw [hguards]
    exact rebuildTable_alike (hexact.guardSets (Nat.le_of_lt hfits.guardSetCount))
  · rw [hraiis]
    exact rebuildTable_alike (hexact.raiiSets (Nat.le_of_lt hfits.raiiSetCount))

end SnapshotIO

end Vycor
