/-
The control-flow index implements a list of contexts.

A history is a run of the mutators, with a history of its own for every index it absorbs.
Its list of contexts is what a plain list would hold: an added context at the end, under its
display names where it has no usr, the contexts of a shard behind those of the master, and
after a removal those that do not belong to the TUs.  `allContexts_eq` is the refinement: the
index shows this list, in order and field for field, as long as the set keys tell the sets of
the history apart and the numbers of strings and sets fit 32 bits.  Keys tell sets apart
while strings and handler lists are shorter than 2^32.  `allContexts_confused` is what happens
past that bound.

The tables only ever grow, so a context stored once shows the same for ever; that is why
each step has to look at the new contexts alone.
-/
import Vycor.Proofs.ContextPositions
import Vycor.Proofs.SetKeys
import Mathlib.Data.List.Dedup

namespace Vycor

open UMap Postings
open SnapshotIO (Short GuardFits)

namespace ControlFlowIndex

variable {cf cf' : ControlFlowIndex}

/-! ### Growing tables -/

/-- Every string and every set keeps its place. -/
structure Extends (cf cf' : ControlFlowIndex) : Prop where
  interner : cf.interner.strings <+: cf'.interner.strings
  scopeSets : cf.scopeSets.sets <+: cf'.scopeSets.sets
  guardSets : cf.guardSets.sets <+: cf'.guardSets.sets
  raiiSets : cf.raiiSets.sets <+: cf'.raiiSets.sets

theorem getD_of_grown {α : Type} {l m : List α} (h : l <+: m) {i : Nat} (hi : i < l.length)
    (d : α) : m.getD i d = l.getD i d := by
  obtain ⟨more, rfl⟩ := h
  exact List.getD_append _ _ _ _ hi

/-- **A stored context shows the same in a grown index.** -/
theorem Extends.materialize (hgrown : Extends cf cf') (h : cf.InRange) {se : StoredContext}
    (hse : se ∈ cf.contexts) : cf'.materialize se = cf.materialize se := by
  have hids := h.ids se hse
  have hsets := h.sets se hse
  have hresolve : ∀ id, id < cf.interner.size → cf'.interner.resolve id = cf.interner.resolve id :=
    fun id hid => StringInterner.resolve_of_grown hgrown.interner hid
  have htu : se.tuPath.map cf'.interner.resolve = se.tuPath.map cf.interner.resolve := by
    cases htu : se.tuPath with
    | none => rfl
    | some tu => rw [Option.map_some, Option.map_some, hresolve tu (hids.tuPath tu htu)]
  have hlocals : ∀ l ∈ cf.raiiSets.sets.getD se.raiiSet [], LocalBelow cf.interner.size l := by
    intro l hl
    rw [List.getD_eq_getElem _ _ hsets.raiiSet] at hl
    exact h.locals _ (List.getElem_mem _) l hl
  unfold ControlFlowIndex.materialize
  dsimp only
  rw [hresolve _ hids.caller, hresolve _ hids.callee, hresolve _ hids.callerDisplay,
    hresolve _ hids.calleeDisplay, hresolve _ hids.site, htu,
    getD_of_grown hgrown.scopeSets hsets.scopeSet, getD_of_grown hgrown.guardSets hsets.guardSet,
    getD_of_grown hgrown.raiiSets hsets.raiiSet]
  congr 1
  refine List.map_congr_left ?_
  intro l hl
  obtain ⟨htype, hvar, hloc⟩ := hlocals l hl
  rw [hresolve _ htype, hresolve _ hvar, hresolve _ hloc]

/-- What is shown once new contexts stand behind the old ones. -/
theorem allContexts_append (hgrown : Extends cf cf') (h : cf.InRange)
    {new : List StoredContext}
    (hcontexts : cf'.contexts = cf.contexts ++ new.map fun se => { se with live := true }) :
    cf'.allContexts = cf.allContexts ++ new.map cf'.materialize := by
  unfold ControlFlowIndex.allContexts
  have hnew : (new.map fun se => { se with live := true }).filter (·.live)
      = new.map fun se => { se with live := true } := by
    refine List.filter_eq_self.mpr ?_
    intro se hse
    obtain ⟨se', -, rfl⟩ := List.mem_map.mp hse
    rfl
  rw [hcontexts, List.filter_append, List.map_append, hnew, List.map_map]
  congr 1
  exact List.map_congr_left fun se hse =>
    hgrown.materialize h (List.mem_of_mem_filter hse)

/-! ### The mutators over the tables

Interning changes the tables only, so each mutator is a run of `insertStored` over the index
with its tables replaced.
-/

theorem internAll_eq (cf : ControlFlowIndex) (strings : List Str) :
    cf.internAll strings
      = { cf with interner := strings.foldl StringInterner.intern cf.interner } := by
  unfold ControlFlowIndex.internAll
  induction strings generalizing cf with
  | nil => rfl
  | cons s rest ih => exact ih (cf.intern s)

theorem foldl_intern (strings : List Str) (t : StringInterner) :
    t.strings <+: (strings.foldl StringInterner.intern t).strings ∧
      (∀ s ∈ strings, s ∈ (strings.foldl StringInterner.intern t).strings) ∧
      (t.strings.Nodup → (strings.foldl StringInterner.intern t).strings.Nodup) ∧
      ∀ s ∈ (strings.foldl StringInterner.intern t).strings, s ∈ t.strings ∨ s ∈ strings := by
  induction strings generalizing t with
  | nil => exact ⟨List.prefix_rfl, fun s hs => absurd hs List.not_mem_nil, id, fun s => Or.inl⟩
  | cons x rest ih =>
      obtain ⟨hpre, hmem, hnd, hfrom⟩ := ih (t.intern x)
      refine ⟨(StringInterner.prefix_intern t x).trans hpre, ?_,
        fun h => hnd (StringInterner.nodup_intern h x), ?_⟩
      · intro s hs
        rcases List.mem_cons.mp hs with rfl | hs
        · exact hpre.subset (StringInterner.mem_intern t s)
        · exact hmem s hs
      · intro s hs
        rcases hfrom s hs with hs | hs
        · unfold StringInterner.intern at hs
          split at hs
          · exact Or.inl hs
          · rcases List.mem_append.mp hs with hs | hs
            · exact Or.inl hs
            · exact Or.inr (List.mem_singleton.mp hs ▸ List.mem_cons_self)
        · exact Or.inr (List.mem_cons_of_mem _ hs)

/-- The stored form of a context under the entries of its sets. -/
def storedOf (t : StringInterner) (ctx : CallSiteContext) (scopeSet guardSet raiiSet : Nat) :
    StoredContext where
  caller := if ctx.callerUsr = [] then t.idOf ctx.callerName else t.idOf ctx.callerUsr
  callee := if ctx.calleeUsr = [] then t.idOf ctx.calleeName else t.idOf ctx.calleeUsr
  callerDisplay := t.idOf ctx.callerName
  calleeDisplay := t.idOf ctx.calleeName
  site := t.idOf ctx.callSite
  tuPath := if ctx.tuPath = [] then none else some (t.idOf ctx.tuPath)
  scopeSet := scopeSet
  guardSet := guardSet
  raiiSet := raiiSet
  callerNoexcept := ctx.callerNoexcept
  insideCatchBlock := ctx.insideCatchBlock

/-- The tables after `addCallSiteContext` has interned, and the entries it got. -/
structure Interned where
  interner : StringInterner
  scopes : SetTable TryCatchScope × Nat
  guards : SetTable ConditionalGuard × Nat
  locals : SetTable StoredRaiiLocal × Nat

/-- The tables with what one context needs. -/
def internFor (cf : ControlFlowIndex) (ctx : CallSiteContext) : Interned :=
  let t := (stringsOf ctx).foldl StringInterner.intern cf.interner
  { interner := t
    scopes := cf.scopeSets.intern (scopeSetKey ctx.enclosingTryCatches) ctx.enclosingTryCatches
    guards := cf.guardSets.intern (guardSetKey ctx.enclosingGuards) ctx.enclosingGuards
    locals := cf.raiiSets.intern (raiiSetKey (storeLocals t ctx.liveRaiiLocals))
      (storeLocals t ctx.liveRaiiLocals) }

/-- The index with other tables. -/
def withTables (cf : ControlFlowIndex) (t : StringInterner) (scopeSets : SetTable TryCatchScope)
    (guardSets : SetTable ConditionalGuard) (raiiSets : SetTable StoredRaiiLocal) :
    ControlFlowIndex :=
  { cf with interner := t, scopeSets := scopeSets, guardSets := guardSets, raiiSets := raiiSets }

theorem addCallSiteContext_eq (cf : ControlFlowIndex) (ctx : CallSiteContext) :
    cf.addCallSiteContext ctx
      = (cf.withTables (cf.internFor ctx).interner (cf.internFor ctx).scopes.1
          (cf.internFor ctx).guards.1 (cf.internFor ctx).locals.1).insertStored
        (storedOf (cf.internFor ctx).interner ctx (cf.internFor ctx).scopes.2
          (cf.internFor ctx).guards.2 (cf.internFor ctx).locals.2) := by
  unfold ControlFlowIndex.addCallSiteContext
  rw [internAll_eq]
  rfl

theorem absorbSets_eq {α β : Type} (key : List β → Str) (image : List α → List β)
    (internSet : ControlFlowIndex → List α → ControlFlowIndex × Nat)
    (put : SetTable β → ControlFlowIndex)
    (hintern : ∀ t set, internSet (put t) set
      = (put (t.intern (key (image set)) (image set)).1, (t.intern (key (image set)) (image set)).2))
    (t : SetTable β) (sets : List (List α)) :
    absorbSets internSet (put t) sets
      = (put (t.internAll key image sets).1, (t.internAll key image sets).2) := by
  unfold absorbSets SetTable.internAll
  generalize [0] = ids
  induction sets.drop 1 generalizing t ids with
  | nil => rfl
  | cons set rest ih =>
      rw [List.foldl_cons, List.foldl_cons]
      dsimp only
      rw [hintern]
      exact ih _ _

/-- The tables after `absorb` has interned a shard, and where its entries went. -/
structure Remaps where
  interner : StringInterner
  scopes : SetTable TryCatchScope × List Nat
  guards : SetTable ConditionalGuard × List Nat
  locals : SetTable StoredRaiiLocal × List Nat

/-- A shard's id under the master's strings. -/
def Remaps.remap (m : Remaps) (shard : ControlFlowIndex) (id : SId) : SId :=
  m.interner.idOf (shard.interner.resolve id)

/-- The tables with what a shard brings, and where its sets come to stand in them. -/
def internShard (cf shard : ControlFlowIndex) : Remaps :=
  let t := shard.interner.strings.foldl StringInterner.intern cf.interner
  { interner := t
    scopes := cf.scopeSets.internAll scopeSetKey id shard.scopeSets.sets
    guards := cf.guardSets.internAll guardSetKey id shard.guardSets.sets
    locals := cf.raiiSets.internAll raiiSetKey
      (List.map (remapLocal fun id => t.idOf (shard.interner.resolve id))) shard.raiiSets.sets }

/-- A context of the shard under the ids of the index that takes it in. -/
def Remaps.context (m : Remaps) (shard : ControlFlowIndex) (se : StoredContext) : StoredContext :=
  { se with
    caller := m.remap shard se.caller, callee := m.remap shard se.callee
    callerDisplay := m.remap shard se.callerDisplay
    calleeDisplay := m.remap shard se.calleeDisplay
    site := m.remap shard se.site, tuPath := se.tuPath.map (m.remap shard)
    scopeSet := m.scopes.2.getD se.scopeSet 0, guardSet := m.guards.2.getD se.guardSet 0
    raiiSet := m.locals.2.getD se.raiiSet 0 }

theorem absorb_eq (cf shard : ControlFlowIndex) :
    cf.absorb shard
      = ((shard.contexts.filter (·.live)).map ((cf.internShard shard).context shard)).foldl
          insertStored
          (cf.withTables (cf.internShard shard).interner (cf.internShard shard).scopes.1
            (cf.internShard shard).guards.1 (cf.internShard shard).locals.1) := by
  unfold ControlFlowIndex.absorb
  dsimp only
  rw [internAll_eq]
  generalize ht : shard.interner.strings.foldl StringInterner.intern cf.interner = t
  have hscope := absorbSets_eq scopeSetKey id internScopeSet
    (fun s => { cf with interner := t, scopeSets := s }) (fun _ _ => rfl) cf.scopeSets
    shard.scopeSets.sets
  have hguard := absorbSets_eq guardSetKey id internGuardSet
    (fun g => { cf with
      interner := t, guardSets := g
      scopeSets := (cf.scopeSets.internAll scopeSetKey id shard.scopeSets.sets).1 })
    (fun _ _ => rfl) cf.guardSets shard.guardSets.sets
  have hraii := absorbSets_eq raiiSetKey
    (List.map (remapLocal fun id => t.idOf (shard.interner.resolve id)))
    (fun cf locals => cf.internRaiiSet
      (locals.map (remapLocal fun id => t.idOf (shard.interner.resolve id))))
    (fun r => cf.withTables t
      (cf.scopeSets.internAll scopeSetKey id shard.scopeSets.sets).1
      (cf.guardSets.internAll guardSetKey id shard.guardSets.sets).1 r)
    (fun _ _ => rfl) cf.raiiSets shard.raiiSets.sets
  rw [hscope]
  dsimp only
  rw [hguard]
  dsimp only
  unfold withTables at hraii
  rw [hraii, List.foldl_map]
  unfold internShard
  rw [ht]
  rfl

/-! ### Histories

A history builds the index and, beside it, the list of contexts the index is to
show. The refinement says that it shows just these, in their order.
-/

/-- A run of the mutators from the empty index. -/
inductive History
  | empty
  | add (h : History) (ctx : CallSiteContext)
  | absorb (h shard : History)
  | removeTUs (h : History) (tuPaths : List Str)
  | compact (h : History)

namespace History

/-- The index that the history leaves. -/
def index : History → ControlFlowIndex
  | empty => {}
  | add h ctx => h.index.addCallSiteContext ctx
  | absorb h shard => h.index.absorb shard.index
  | removeTUs h tuPaths => (h.index.removeTUs tuPaths).1
  | compact h => h.index.compact

/-- Every context handed in, here or to an absorbed index. -/
def given : History → List CallSiteContext
  | empty => []
  | add h ctx => h.given ++ [ctx]
  | absorb h shard => h.given ++ shard.given
  | removeTUs h _ => h.given
  | compact h => h.given

end History

/-- A context under its display names where it has no usr. -/
def displayed (ctx : CallSiteContext) : CallSiteContext :=
  { ctx with
    callerUsr := if ctx.callerUsr = [] then ctx.callerName else ctx.callerUsr
    calleeUsr := if ctx.calleeUsr = [] then ctx.calleeName else ctx.calleeUsr }

/-- The context belongs to one of these TUs: by its TU path, or by its site's spelling where
it has none. -/
def belongsTo (tuPaths : List Str) (ctx : CallSiteContext) : Bool :=
  if ctx.tuPath = [] then tuPaths.any fun tuPath => (tuPath ++ str ":").isPrefixOf ctx.callSite
  else decide (ctx.tuPath ∈ tuPaths)

/-- **The list a history stands for**: added or absorbed, and not removed. -/
def History.contexts : History → List CallSiteContext
  | .empty => []
  | .add h ctx => h.contexts ++ [displayed ctx]
  | .absorb h shard => h.contexts ++ shard.contexts
  | .removeTUs h tuPaths => h.contexts.filter fun ctx => !belongsTo tuPaths ctx
  | .compact h => h.contexts

/-! ### The invariant along a history -/

theorem WF.addCallSiteContext (h : cf.WF) (ctx : CallSiteContext) :
    (cf.addCallSiteContext ctx).WF := by
  have hrange := h.inRange.addCallSiteContext ctx
  rw [addCallSiteContext_eq] at hrange ⊢
  exact { (h.toFiled.retable _ _ _ _).insertStored _ with
    nodup := (foldl_intern (stringsOf ctx) cf.interner).2.2.1 h.nodup, inRange := hrange }

theorem absorb_interner (cf shard : ControlFlowIndex) :
    (cf.absorb shard).interner = (cf.internShard shard).interner ∧
      (cf.absorb shard).scopeSets = (cf.internShard shard).scopes.1 ∧
      (cf.absorb shard).guardSets = (cf.internShard shard).guards.1 ∧
      (cf.absorb shard).raiiSets = (cf.internShard shard).locals.1 := by
  rw [absorb_eq]
  exact insertAll_tables _ _ _ rfl

theorem WF.absorb (h : cf.WF) {shard : ControlFlowIndex} (hshard : shard.WF) :
    (cf.absorb shard).WF := by
  have hrange := h.inRange.absorb hshard.inRange
  have hnd : (cf.absorb shard).interner.strings.Nodup := by
    rw [(absorb_interner cf shard).1]
    exact (foldl_intern shard.interner.strings cf.interner).2.2.1 h.nodup
  rw [absorb_eq] at hrange hnd ⊢
  exact { (h.toFiled.retable _ _ _ _).insertAll _ with nodup := hnd, inRange := hrange }

/-- **Every index a history builds lists its live contexts.** -/
theorem History.wf : ∀ h : History, h.index.WF
  | .empty => wf_empty
  | .add h ctx => h.wf.addCallSiteContext ctx
  | .absorb h shard => h.wf.absorb shard.wf
  | .removeTUs h tuPaths => (h.wf.removeTUs tuPaths).1
  | .compact h => h.wf.compact

/-! ### What the tables hold

An entry of a table is found under its key, so the tables show what was put in
as long as different vectors have different keys. The casts to 32 bits put a
bound on this.
-/

/-- The sets of a context are told apart by their keys. -/
structure ContextFits (ctx : CallSiteContext) : Prop where
  scopes : ∀ scope ∈ ctx.enclosingTryCatches, ScopeFits scope
  guards : ∀ g ∈ ctx.enclosingGuards, GuardFits g

/-- Every entry of a table is told apart by its key, and no TU path is empty. -/
structure Told (cf : ControlFlowIndex) : Prop where
  scopeSets : cf.scopeSets.Keyed ScopeFits scopeSetKey
  guardSets : cf.guardSets.Keyed GuardFits guardSetKey
  raiiSets : cf.raiiSets.Keyed (LocalBelow (2 ^ 32)) raiiSetKey
  tuPaths : ∀ se ∈ cf.contexts, ∀ tu, se.tuPath = some tu → cf.interner.resolve tu ≠ []

theorem told_empty : Told {} :=
  ⟨SetTable.keyed_seeded, SetTable.keyed_seeded, SetTable.keyed_seeded,
    fun _ hse => absurd hse List.not_mem_nil⟩

theorem Told.removeTUs (h : Told cf) (hwf : cf.WF) (tuPaths : List Str) :
    Told (cf.removeTUs tuPaths).1 := by
  refine ⟨h.scopeSets, h.guardSets, h.raiiSets, ?_⟩
  intro _ hse
  rw [(hwf.removeTUs tuPaths).2.1] at hse
  obtain ⟨se', hse', rfl⟩ := List.mem_map.mp hse
  exact h.tuPaths se' hse'

theorem Told.compact (h : Told cf) : Told cf.compact := by
  obtain ⟨hinterner, hscope, hguard, hraii⟩ := compact_tables cf
  refine ⟨hscope ▸ h.scopeSets, hguard ▸ h.guardSets, hraii ▸ h.raiiSets, ?_⟩
  rw [compact_contexts, hinterner]
  exact fun se hse => h.tuPaths se (List.mem_of_mem_filter hse)

/-- TU paths stay nonempty when contexts with such paths come in behind the old ones. -/
theorem tuPaths_append (hgrown : Extends cf cf') (h : cf.InRange)
    (hold : ∀ se ∈ cf.contexts, ∀ tu, se.tuPath = some tu → cf.interner.resolve tu ≠ [])
    {new : List StoredContext}
    (hcontexts : cf'.contexts = cf.contexts ++ new.map fun se => { se with live := true })
    (hnew : ∀ se ∈ new, ∀ tu, se.tuPath = some tu → cf'.interner.resolve tu ≠ []) :
    ∀ se ∈ cf'.contexts, ∀ tu, se.tuPath = some tu → cf'.interner.resolve tu ≠ [] := by
  intro se hse tu htu
  rw [hcontexts] at hse
  rcases List.mem_append.mp hse with hse | hse
  · rw [StringInterner.resolve_of_grown hgrown.interner ((h.ids se hse).tuPath tu htu)]
    exact hold se hse tu htu
  · obtain ⟨se', hse', rfl⟩ := List.mem_map.mp hse
    exact hnew se' hse' tu htu

theorem getD_of_getElem? {α : Type} {l : List α} {i : Nat} {a : α} (h : l[i]? = some a) (d : α) :
    l.getD i d = a := by
  rw [List.getD_eq_getElem?_getD, h]
  rfl

/-- A stored context shows the context whose strings and sets are in the tables. -/
theorem materialize_storedOf {ctx : CallSiteContext} {scopeSet guardSet raiiSet : Nat}
    (hmem : ∀ s ∈ stringsOf ctx, s ∈ cf.interner.strings)
    (hscope : cf.scopeSets.sets[scopeSet]? = some ctx.enclosingTryCatches)
    (hguard : cf.guardSets.sets[guardSet]? = some ctx.enclosingGuards)
    (hraii : cf.raiiSets.sets[raiiSet]? = some (storeLocals cf.interner ctx.liveRaiiLocals)) :
    cf.materialize (storedOf cf.interner ctx scopeSet guardSet raiiSet) = displayed ctx := by
  have hresolve : ∀ s ∈ stringsOf ctx, cf.interner.resolve (cf.interner.idOf s) = s :=
    fun s hs => StringInterner.resolve_idOf (hmem s hs)
  have hcallee := hresolve ctx.calleeName (by simp [stringsOf])
  have hcaller := hresolve ctx.callerName (by simp [stringsOf])
  have hcalleeUsr : cf.interner.resolve (if ctx.calleeUsr = [] then cf.interner.idOf ctx.calleeName
      else cf.interner.idOf ctx.calleeUsr) = (displayed ctx).calleeUsr := by
    unfold displayed
    dsimp only
    split
    · exact hcallee
    · rename_i hne
      exact hresolve _ (by simp [stringsOf, hne])
  have hcallerUsr : cf.interner.resolve (if ctx.callerUsr = [] then cf.interner.idOf ctx.callerName
      else cf.interner.idOf ctx.callerUsr) = (displayed ctx).callerUsr := by
    unfold displayed
    dsimp only
    split
    · exact hcaller
    · rename_i hne
      exact hresolve _ (by simp [stringsOf, hne])
  have htu : ((if ctx.tuPath = [] then none else some (cf.interner.idOf ctx.tuPath)).map
      cf.interner.resolve).getD [] = ctx.tuPath := by
    split
    · rename_i hnil
      rw [hnil]
      rfl
    · rename_i hne
      exact hresolve _ (by simp [stringsOf, hne])
  have hlocals : (storeLocals cf.interner ctx.liveRaiiLocals).map (fun l => RaiiLocal.mk
      (cf.interner.resolve l.typeName) (cf.interner.resolve l.varName)
      (cf.interner.resolve l.declLocation) l.kind) = ctx.liveRaiiLocals := by
    unfold storeLocals
    rw [List.map_map]
    refine (List.map_congr_left ?_).trans (List.map_id _)
    intro l hl
    have hin : ∀ s ∈ [l.typeName, l.varName, l.declLocation], s ∈ stringsOf ctx := fun s hs =>
      List.mem_append_right _ (List.mem_flatMap.mpr ⟨l, hl, hs⟩)
    simp only [Function.comp_apply, id]
    rw [hresolve _ (hin _ (by simp)), hresolve _ (hin _ (by simp)), hresolve _ (hin _ (by simp))]
  unfold ControlFlowIndex.materialize storedOf
  dsimp only
  rw [hcallee, hcaller, hcalleeUsr, hcallerUsr, hresolve _ (by simp [stringsOf]), htu,
    getD_of_getElem? hscope, getD_of_getElem? hguard, getD_of_getElem? hraii, hlocals]
  rfl

/-- Every string and every set has a number of 32 bits, and no string has `kNoString`. -/
structure Numbered (cf : ControlFlowIndex) : Prop where
  strings : cf.interner.size < 2 ^ 32
  scopeSets : cf.scopeSets.sets.length ≤ 2 ^ 32
  guardSets : cf.guardSets.sets.length ≤ 2 ^ 32
  raiiSets : cf.raiiSets.sets.length ≤ 2 ^ 32

/-- **An added context is shown as it was given.** -/
theorem Told.addCallSiteContext (h : Told cf) (hwf : cf.WF) {ctx : CallSiteContext}
    (hfits : ContextFits ctx) (hroom : (cf.addCallSiteContext ctx).Numbered) :
    Told (cf.addCallSiteContext ctx) ∧
      (cf.addCallSiteContext ctx).allContexts = cf.allContexts ++ [displayed ctx] := by
  obtain ⟨hsize, hscopeRoom, hguardRoom, hraiiRoom⟩ := hroom
  rw [addCallSiteContext_eq] at hsize hscopeRoom hguardRoom hraiiRoom ⊢
  generalize hm : cf.internFor ctx = m at hsize hscopeRoom hguardRoom hraiiRoom ⊢
  obtain ⟨hpre, hmem, -, -⟩ := foldl_intern (stringsOf ctx) cf.interner
  have ht : m.interner = (stringsOf ctx).foldl StringInterner.intern cf.interner := by
    rw [← hm]
    rfl
  rw [← ht] at hpre hmem
  have hsize' : m.interner.size ≤ 2 ^ 32 := Nat.le_of_lt hsize
  have hid : ∀ s ∈ stringsOf ctx, m.interner.idOf s < 2 ^ 32 := fun s hs =>
    Nat.lt_of_lt_of_le (StringInterner.idOf_lt.mpr (hmem s hs)) hsize'
  have hlocal : ∀ l ∈ ctx.liveRaiiLocals, ∀ s ∈ [l.typeName, l.varName, l.declLocation],
      s ∈ stringsOf ctx := fun l hl s hs =>
    List.mem_append_right _ (List.mem_flatMap.mpr ⟨l, hl, hs⟩)
  have hlocals : ∀ l ∈ storeLocals m.interner ctx.liveRaiiLocals, LocalBelow (2 ^ 32) l := by
    intro l hl
    obtain ⟨l', hl', rfl⟩ := List.mem_map.mp hl
    exact ⟨hid _ (hlocal l' hl' _ (by simp)), hid _ (hlocal l' hl' _ (by simp)),
      hid _ (hlocal l' hl' _ (by simp))⟩
  have hms : m.scopes = cf.scopeSets.intern (scopeSetKey ctx.enclosingTryCatches)
      ctx.enclosingTryCatches := by rw [← hm]; rfl
  have hmg : m.guards = cf.guardSets.intern (guardSetKey ctx.enclosingGuards)
      ctx.enclosingGuards := by rw [← hm]; rfl
  have hml : m.locals = cf.raiiSets.intern (raiiSetKey (storeLocals m.interner ctx.liveRaiiLocals))
      (storeLocals m.interner ctx.liveRaiiLocals) := by rw [ht, ← hm]; rfl
  obtain ⟨hscopes, hscope⟩ := h.scopeSets.intern
    (fun a b ha hb => scopeSetKey_inj ha hb) hfits.scopes (by rw [← hms]; exact hscopeRoom)
  obtain ⟨hguards, hguard⟩ := h.guardSets.intern
    (fun a b ha hb => guardSetKey_inj ha hb) hfits.guards (by rw [← hmg]; exact hguardRoom)
  obtain ⟨hraiis, hraii⟩ := h.raiiSets.intern
    (fun a b ha hb => raiiSetKey_inj ha hb) hlocals (by rw [← hml]; exact hraiiRoom)
  rw [← hms] at hscopes hscope
  rw [← hmg] at hguards hguard
  rw [← hml] at hraiis hraii
  generalize hcf' : (cf.withTables m.interner m.scopes.1 m.guards.1 m.locals.1).insertStored
    (storedOf m.interner ctx m.scopes.2 m.guards.2 m.locals.2) = cf'
  have hgrown : Extends cf cf' := by
    rw [← hcf']
    exact ⟨hpre, hscope.grown, hguard.grown, hraii.grown⟩
  have hcontexts : cf'.contexts = cf.contexts
      ++ [storedOf m.interner ctx m.scopes.2 m.guards.2 m.locals.2].map
        fun se => { se with live := true } := by
    rw [← hcf']
    rfl
  have hinterner : cf'.interner = m.interner := by
    rw [← hcf']
    rfl
  refine ⟨?_, ?_⟩
  · refine ⟨?_, ?_, ?_, tuPaths_append hgrown hwf.inRange h.tuPaths hcontexts ?_⟩
    · rw [← hcf']
      exact hscopes
    · rw [← hcf']
      exact hguards
    · rw [← hcf']
      exact hraiis
    · intro se hse tu htu
      rw [List.mem_singleton.mp hse] at htu
      have htu' : (if ctx.tuPath = [] then none else some (m.interner.idOf ctx.tuPath)) = some tu :=
        htu
      split at htu'
      · simp at htu'
      · rename_i hne
        injection htu' with htu'
        rw [hinterner, ← htu', StringInterner.resolve_idOf (hmem _ (by simp [stringsOf, hne]))]
        exact hne
  · rw [allContexts_append hgrown hwf.inRange hcontexts]
    congr 1
    rw [List.map_singleton, ← hinterner]
    refine congrArg (fun c => [c]) (materialize_storedOf ?_ ?_ ?_ ?_)
    · rw [hinterner]
      exact hmem
    · rw [← hcf']
      exact hscope.entry
    · rw [← hcf']
      exact hguard.entry
    · rw [hinterner, ← hcf']
      exact hraii.entry

/-- The tables hold the strings and the sets of a shard where the shard's ids are remapped. -/
structure Carries (m : Remaps) (shard cf : ControlFlowIndex) : Prop where
  interner : cf.interner = m.interner
  strings : ∀ s ∈ shard.interner.strings, s ∈ m.interner.strings
  scopes : ∀ i set, shard.scopeSets.sets[i]? = some set →
    cf.scopeSets.sets[m.scopes.2.getD i 0]? = some set
  guards : ∀ i set, shard.guardSets.sets[i]? = some set →
    cf.guardSets.sets[m.guards.2.getD i 0]? = some set
  locals : ∀ i set, shard.raiiSets.sets[i]? = some set →
    cf.raiiSets.sets[m.locals.2.getD i 0]? = some (set.map (remapLocal (m.remap shard)))

/-- A remapped context shows what it shows in the shard. -/
theorem Carries.materialize {m : Remaps} {shard : ControlFlowIndex} (h : Carries m shard cf)
    (hshard : shard.InRange) {se : StoredContext} (hse : se ∈ shard.contexts) :
    cf.materialize (m.context shard se) = shard.materialize se := by
  have hids := hshard.ids se hse
  have hsets := hshard.sets se hse
  have hresolve : ∀ id, id < shard.interner.size →
      cf.interner.resolve (m.remap shard id) = shard.interner.resolve id := by
    intro id hid
    rw [h.interner]
    exact StringInterner.resolve_idOf (h.strings _ (StringInterner.resolve_mem hid))
  have htu : (se.tuPath.map (m.remap shard)).map cf.interner.resolve
      = se.tuPath.map shard.interner.resolve := by
    cases htu : se.tuPath with
    | none => rfl
    | some tu =>
        rw [Option.map_some, Option.map_some, Option.map_some, hresolve tu (hids.tuPath tu htu)]
  have hlocals : ∀ l ∈ shard.raiiSets.sets.getD se.raiiSet [],
      LocalBelow shard.interner.size l := by
    intro l hl
    rw [List.getD_eq_getElem _ _ hsets.raiiSet] at hl
    exact hshard.locals _ (List.getElem_mem _) l hl
  have hscope := getD_of_getElem? (h.scopes _ _ (List.getElem?_eq_getElem hsets.scopeSet)) []
  have hguard := getD_of_getElem? (h.guards _ _ (List.getElem?_eq_getElem hsets.guardSet)) []
  have hraii := getD_of_getElem? (h.locals _ _ (List.getElem?_eq_getElem hsets.raiiSet)) []
  rw [← List.getD_eq_getElem _ [] hsets.scopeSet] at hscope
  rw [← List.getD_eq_getElem _ [] hsets.guardSet] at hguard
  rw [← List.getD_eq_getElem _ [] hsets.raiiSet] at hraii
  unfold ControlFlowIndex.materialize Remaps.context
  dsimp only
  rw [hresolve _ hids.caller, hresolve _ hids.callee, hresolve _ hids.callerDisplay,
    hresolve _ hids.calleeDisplay, hresolve _ hids.site, htu, hscope, hguard, hraii, List.map_map]
  congr 1
  refine List.map_congr_left ?_
  intro l hl
  obtain ⟨htype, hvar, hloc⟩ := hlocals l hl
  simp only [Function.comp_apply, remapLocal]
  rw [hresolve _ htype, hresolve _ hvar, hresolve _ hloc]

/-- **An absorbed index is shown behind the master's contexts.** -/
theorem Told.absorb (h : Told cf) (hwf : cf.WF) {shard : ControlFlowIndex} (hshard : Told shard)
    (hwfs : shard.WF) (hroom : (cf.absorb shard).Numbered) :
    Told (cf.absorb shard) ∧
      (cf.absorb shard).allContexts = cf.allContexts ++ shard.allContexts := by
  obtain ⟨hsize, hscopeRoom, hguardRoom, hraiiRoom⟩ := hroom
  obtain ⟨hinterner, hscopeSets, hguardSets, hraiiSets⟩ := absorb_interner cf shard
  have hstored : (cf.absorb shard).contexts = cf.contexts
      ++ ((shard.contexts.filter (·.live)).map ((cf.internShard shard).context shard)).map
        fun se => { se with live := true } := by
    rw [absorb_eq, insertAll_contexts]
    rfl
  obtain ⟨hpre, hmem, -, -⟩ := foldl_intern shard.interner.strings cf.interner
  rw [hinterner] at hsize
  have hremap : ∀ i, i < shard.interner.size → (cf.internShard shard).remap shard i < 2 ^ 32 :=
    fun i hi => Nat.lt_of_lt_of_le
      (StringInterner.idOf_lt.mpr (hmem _ (StringInterner.resolve_mem hi))) (Nat.le_of_lt hsize)
  have hlocals : ∀ set ∈ shard.raiiSets.sets,
      ∀ l ∈ set.map (remapLocal ((cf.internShard shard).remap shard)), LocalBelow (2 ^ 32) l := by
    intro set hset l hl
    obtain ⟨l', hl', rfl⟩ := List.mem_map.mp hl
    obtain ⟨htype, hvar, hloc⟩ := hwfs.inRange.locals set hset l' hl'
    exact ⟨hremap _ htype, hremap _ hvar, hremap _ hloc⟩
  obtain ⟨hscopes, hscopesPre, hscopesAt⟩ := h.scopeSets.internAll
    (fun a b ha hb => scopeSetKey_inj ha hb) id rfl hshard.scopeSets.seed
    hshard.scopeSets.fits (hscopeSets ▸ hscopeRoom)
  obtain ⟨hguards, hguardsPre, hguardsAt⟩ := h.guardSets.internAll
    (fun a b ha hb => guardSetKey_inj ha hb) id rfl hshard.guardSets.seed
    hshard.guardSets.fits (hguardSets ▸ hguardRoom)
  obtain ⟨hraiis, hraiisPre, hraiisAt⟩ := h.raiiSets.internAll
    (fun a b ha hb => raiiSetKey_inj ha hb) _ rfl hshard.raiiSets.seed hlocals
    (hraiiSets ▸ hraiiRoom)
  have hcarries : Carries (cf.internShard shard) shard (cf.absorb shard) :=
    { interner := hinterner
      strings := hmem
      scopes := by rw [hscopeSets]; exact hscopesAt
      guards := by rw [hguardSets]; exact hguardsAt
      locals := by rw [hraiiSets]; exact hraiisAt }
  have hgrown : Extends cf (cf.absorb shard) :=
    ⟨hinterner ▸ hpre, hscopeSets ▸ hscopesPre, hguardSets ▸ hguardsPre, hraiiSets ▸ hraiisPre⟩
  refine ⟨⟨hscopeSets ▸ hscopes, hguardSets ▸ hguards, hraiiSets ▸ hraiis,
    tuPaths_append hgrown hwf.inRange h.tuPaths hstored ?_⟩, ?_⟩
  · intro _ hnew tu htu
    obtain ⟨se, hse, rfl⟩ := List.mem_map.mp hnew
    have hmem' := List.mem_of_mem_filter hse
    obtain ⟨tu', htu', rfl⟩ := Option.map_eq_some_iff.mp htu
    have hback : (cf.absorb shard).interner.resolve ((cf.internShard shard).remap shard tu')
        = shard.interner.resolve tu' := by
      rw [hinterner]
      exact StringInterner.resolve_idOf (hmem _ (StringInterner.resolve_mem
        ((hwfs.inRange.ids se hmem').tuPath tu' htu')))
    rw [hback]
    exact hshard.tuPaths se hmem' tu' htu'
  · rw [allContexts_append hgrown hwf.inRange hstored, List.map_map]
    congr 1
    exact List.map_congr_left fun se hse =>
      hcarries.materialize hwfs.inRange (List.mem_of_mem_filter hse)

/-! ### The refinement -/

/-- A stored context goes with the TUs that the context it shows belongs to. -/
theorem leaves_materialize
    (hpaths : ∀ se ∈ cf.contexts, ∀ tu, se.tuPath = some tu → cf.interner.resolve tu ≠ [])
    (tuPaths : List Str) {se : StoredContext} (hse : se ∈ cf.contexts) :
    cf.leaves tuPaths se = belongsTo tuPaths (cf.materialize se) := by
  unfold leaves belongsTo
  cases htu : se.tuPath with
  | none =>
      have hpath : (cf.materialize se).tuPath = [] := by simp [ControlFlowIndex.materialize, htu]
      rw [if_pos hpath]
      rfl
  | some tu =>
      have hpath : (cf.materialize se).tuPath = cf.interner.resolve tu := by
        simp [ControlFlowIndex.materialize, htu]
      rw [hpath, if_neg (hpaths se hse tu htu)]

theorem Told.allContexts_removeTUs (h : Told cf) (hwf : cf.WF) (tuPaths : List Str) :
    (cf.removeTUs tuPaths).1.allContexts
      = cf.allContexts.filter fun ctx => !belongsTo tuPaths ctx := by
  unfold ControlFlowIndex.allContexts
  rw [(hwf.removeTUs tuPaths).2.1, filter_buried, List.filter_map, List.filter_filter]
  show List.map cf.materialize _ = _
  congr 1
  refine List.filter_congr ?_
  intro se hse
  rw [Function.comp_apply, ← leaves_materialize h.tuPaths tuPaths hse, Bool.and_comm]

theorem allContexts_compact (cf : ControlFlowIndex) : cf.compact.allContexts = cf.allContexts := by
  unfold ControlFlowIndex.allContexts
  obtain ⟨hinterner, hscope, hguard, hraii⟩ := compact_tables cf
  have hsame : cf.compact.materialize = cf.materialize := by
    unfold ControlFlowIndex.materialize
    rw [hinterner, hscope, hguard, hraii]
  rw [compact_contexts, List.filter_filter, hsame]
  simp

/-- The strings that reach the interner. -/
def History.strings (h : History) : List Str := h.given.flatMap stringsOf

/-- The strings of an index are among those of its history. -/
theorem History.interned : ∀ (h : History), ∀ s ∈ h.index.interner.strings, s ∈ h.strings
  | .empty, _, hs => absurd hs List.not_mem_nil
  | .add h ctx, s, hs => by
      have hs' : s ∈ (h.index.addCallSiteContext ctx).interner.strings := hs
      rw [addCallSiteContext_eq] at hs'
      unfold strings given
      rw [List.flatMap_append, List.mem_append]
      rcases (foldl_intern (stringsOf ctx) h.index.interner).2.2.2 s hs' with hs' | hs'
      · exact Or.inl (h.interned s hs')
      · exact Or.inr (by simpa using hs')
  | .absorb h shard, s, hs => by
      have hs' : s ∈ (h.index.absorb shard.index).interner.strings := hs
      rw [(absorb_interner _ _).1] at hs'
      unfold strings given
      rw [List.flatMap_append, List.mem_append]
      rcases (foldl_intern shard.index.interner.strings h.index.interner).2.2.2 s hs'
        with hs' | hs'
      · exact Or.inl (h.interned s hs')
      · exact Or.inr (shard.interned s hs')
  | .removeTUs h _, s, hs => h.interned s hs
  | .compact h, s, hs => by
      have hs' : s ∈ h.index.compact.interner.strings := hs
      rw [(compact_tables _).1] at hs'
      exact h.interned s hs'

/-! ### What a history brings

The tables grow by nothing but what the contexts of the history bring, so their sizes are
bounded by numbers that can be read off these contexts.
-/

/-- A stored set of locals stands for one of these contexts. -/
def StoredLocals (t : StringInterner) (given : List CallSiteContext)
    (set : List StoredRaiiLocal) : Prop :=
  ∃ ctx ∈ given, (∀ s ∈ stringsOf ctx, s ∈ t.strings) ∧ storeLocals t ctx.liveRaiiLocals = set

theorem storeLocals_of_grown {t t' : StringInterner} (h : t.strings <+: t'.strings)
    {ctx : CallSiteContext} (hmem : ∀ s ∈ stringsOf ctx, s ∈ t.strings) :
    storeLocals t' ctx.liveRaiiLocals = storeLocals t ctx.liveRaiiLocals := by
  unfold storeLocals
  refine List.map_congr_left fun l hl => ?_
  have hid : ∀ s ∈ [l.typeName, l.varName, l.declLocation], t'.idOf s = t.idOf s := fun s hs =>
    StringInterner.idOf_of_grown h (hmem s
      (List.mem_append_right _ (List.mem_flatMap.mpr ⟨l, hl, hs⟩)))
  rw [hid _ (by simp), hid _ (by simp), hid _ (by simp)]

theorem StoredLocals.grow {t t' : StringInterner} (ht : t.strings <+: t'.strings)
    {given given' : List CallSiteContext} (hgiven : given ⊆ given') {set : List StoredRaiiLocal}
    (h : StoredLocals t given set) : StoredLocals t' given' set := by
  obtain ⟨ctx, hctx, hmem, rfl⟩ := h
  exact ⟨ctx, hgiven hctx, fun s hs => ht.subset (hmem s hs), storeLocals_of_grown ht hmem⟩

/-- The tables hold sets of these contexts, each once. -/
structure Brought (given : List CallSiteContext) (cf : ControlFlowIndex) : Prop where
  scopeSets : cf.scopeSets.From (fun set => ∃ ctx ∈ given, ctx.enclosingTryCatches = set)
    scopeSetKey
  guardSets : cf.guardSets.From (fun set => ∃ ctx ∈ given, ctx.enclosingGuards = set) guardSetKey
  raiiSets : cf.raiiSets.From (StoredLocals cf.interner given) raiiSetKey

theorem Brought.addCallSiteContext {given : List CallSiteContext} (h : Brought given cf)
    (ctx : CallSiteContext) : Brought (given ++ [ctx]) (cf.addCallSiteContext ctx) := by
  obtain ⟨hpre, hmem, -, -⟩ := foldl_intern (stringsOf ctx) cf.interner
  have hold : given ⊆ given ++ [ctx] := List.subset_append_left _ _
  have hnew : ctx ∈ given ++ [ctx] := List.mem_append_right _ (List.mem_singleton_self ctx)
  rw [addCallSiteContext_eq]
  refine ⟨?_, ?_, ?_⟩
  · exact (h.scopeSets.mono fun set ⟨c, hc, heq⟩ => ⟨c, hold hc, heq⟩).intern
      (Or.inr ⟨ctx, hnew, rfl⟩)
  · exact (h.guardSets.mono fun set ⟨c, hc, heq⟩ => ⟨c, hold hc, heq⟩).intern
      (Or.inr ⟨ctx, hnew, rfl⟩)
  · exact (h.raiiSets.mono fun set hset => hset.grow hpre hold).intern
      (Or.inr ⟨ctx, hnew, hmem, rfl⟩)

/-- A shard's set of locals comes over as the same locals under the master's ids. -/
theorem StoredLocals.remap {t t' : StringInterner} (hsub : ∀ s ∈ t.strings, s ∈ t'.strings)
    {given : List CallSiteContext} {set : List StoredRaiiLocal} (h : StoredLocals t given set) :
    StoredLocals t' given (set.map (remapLocal fun id => t'.idOf (t.resolve id))) := by
  obtain ⟨ctx, hctx, hmem, rfl⟩ := h
  refine ⟨ctx, hctx, fun s hs => hsub s (hmem s hs), ?_⟩
  unfold storeLocals
  rw [List.map_map]
  refine List.map_congr_left fun l hl => ?_
  have hback : ∀ s ∈ [l.typeName, l.varName, l.declLocation], t.resolve (t.idOf s) = s :=
    fun s hs => StringInterner.resolve_idOf (hmem s
      (List.mem_append_right _ (List.mem_flatMap.mpr ⟨l, hl, hs⟩)))
  simp only [Function.comp_apply, remapLocal]
  rw [hback _ (by simp), hback _ (by simp), hback _ (by simp)]

theorem Brought.absorb {given given' : List CallSiteContext} (h : Brought given cf)
    {shard : ControlFlowIndex} (hshard : Brought given' shard) :
    Brought (given ++ given') (cf.absorb shard) := by
  obtain ⟨hinterner, hscopeSets, hguardSets, hraiiSets⟩ := absorb_interner cf shard
  obtain ⟨hpre, hmem, -, -⟩ := foldl_intern shard.interner.strings cf.interner
  have hold : given ⊆ given ++ given' := List.subset_append_left _ _
  have hnew : given' ⊆ given ++ given' := List.subset_append_right _ _
  refine ⟨?_, ?_, ?_⟩
  · rw [hscopeSets]
    refine (h.scopeSets.mono fun set ⟨c, hc, heq⟩ => ⟨c, hold hc, heq⟩).internAll fun set hset => ?_
    exact (hshard.scopeSets.sets set hset).imp_right fun ⟨c, hc, heq⟩ => ⟨c, hnew hc, heq⟩
  · rw [hguardSets]
    refine (h.guardSets.mono fun set ⟨c, hc, heq⟩ => ⟨c, hold hc, heq⟩).internAll fun set hset => ?_
    exact (hshard.guardSets.sets set hset).imp_right fun ⟨c, hc, heq⟩ => ⟨c, hnew hc, heq⟩
  · rw [hraiiSets, hinterner]
    refine (h.raiiSets.mono fun set hset => hset.grow hpre hold).internAll fun set hset => ?_
    refine (hshard.raiiSets.sets set hset).imp (fun hnil => by rw [hnil]; rfl) fun hset => ?_
    exact (hset.remap hmem).grow List.prefix_rfl hnew

theorem History.brought : ∀ h : History, Brought h.given h.index
  | .empty => ⟨SetTable.from_seeded, SetTable.from_seeded, SetTable.from_seeded⟩
  | .add h ctx => h.brought.addCallSiteContext ctx
  | .absorb h shard => h.brought.absorb shard.brought
  | .removeTUs h _ => ⟨h.brought.scopeSets, h.brought.guardSets, h.brought.raiiSets⟩
  | .compact h => by
      obtain ⟨hinterner, hscope, hguard, hraii⟩ := compact_tables h.index
      refine ⟨?_, ?_, ?_⟩
      · exact hscope.symm ▸ h.brought.scopeSets
      · exact hguard.symm ▸ h.brought.guardSets
      · show h.index.compact.raiiSets.From (StoredLocals h.index.compact.interner _) _
        rw [hraii, hinterner]
        exact h.brought.raiiSets

/-- How many different sets some contexts bring, the empty one apart. -/
def distinctSets {α : Type} [DecidableEq α] (part : CallSiteContext → List α)
    (given : List CallSiteContext) : Nat :=
  ((given.map part).filter (· ≠ [])).dedup.length

/-- **The bound under which no two sets of a history are confused.**  The contexts it is handed
have scopes and guards whose strings and handler lists are shorter than 2^32, and they bring
fewer than 2^32 different strings and sets of each kind. -/
structure FitsKeys (given : List CallSiteContext) : Prop where
  contexts : ∀ ctx ∈ given, ContextFits ctx
  strings : (given.flatMap stringsOf).dedup.length < 2 ^ 32
  scopeSets : distinctSets (·.enclosingTryCatches) given < 2 ^ 32
  guardSets : distinctSets (·.enclosingGuards) given < 2 ^ 32
  raiiSets : distinctSets (·.liveRaiiLocals) given < 2 ^ 32

/-- The strings and sets given leave each id its own. -/
def History.Fits (h : History) : Prop := FitsKeys h.given

theorem length_dedup_le {α : Type} [DecidableEq α] {l m : List α} (h : l ⊆ m) :
    l.dedup.length ≤ m.dedup.length := by
  refine (List.Nodup.subperm (List.nodup_dedup l) ?_).length_le
  intro a ha
  exact List.mem_dedup.mpr (h (List.mem_dedup.mp ha))

theorem distinctSets_le {α : Type} [DecidableEq α] (part : CallSiteContext → List α)
    {given given' : List CallSiteContext} (h : given ⊆ given') :
    distinctSets part given ≤ distinctSets part given' :=
  length_dedup_le (List.filter_subset _ (List.map_subset part h))

theorem FitsKeys.mono {given given' : List CallSiteContext} (hfits : FitsKeys given')
    (h : given ⊆ given') : FitsKeys given where
  contexts := fun ctx hctx => hfits.contexts ctx (h hctx)
  strings := by
    refine Nat.lt_of_le_of_lt (length_dedup_le fun s hs => ?_) hfits.strings
    obtain ⟨ctx, hctx, hs⟩ := List.mem_flatMap.mp hs
    exact List.mem_flatMap.mpr ⟨ctx, h hctx, hs⟩
  scopeSets := Nat.lt_of_le_of_lt (distinctSets_le _ h) hfits.scopeSets
  guardSets := Nat.lt_of_le_of_lt (distinctSets_le _ h) hfits.guardSets
  raiiSets := Nat.lt_of_le_of_lt (distinctSets_le _ h) hfits.raiiSets

/-- A table is no larger than the number of sets that were brought to it. -/
theorem SetTable.From.length_le_distinct {α β : Type} [DecidableEq β] {t : SetTable α}
    {key : List α → Str} {S : List α → Prop} (h : t.From S key) {given : List CallSiteContext}
    (part : CallSiteContext → List β) (image : List β → List α)
    (hS : ∀ set, set ≠ [] → S set → ∃ ctx ∈ given, part ctx ≠ [] ∧ image (part ctx) = set) :
    t.sets.length ≤ distinctSets part given + 1 := by
  have hle := h.length_le ((((given.map part).filter (· ≠ [])).dedup).map
    fun set => key (image set)) ?_
  · rwa [List.length_map] at hle
  · intro set hne hset
    obtain ⟨ctx, hctx, hpart, rfl⟩ := hS set hne hset
    refine List.mem_map.mpr ⟨part ctx, List.mem_dedup.mpr (List.mem_filter.mpr ⟨?_, ?_⟩), rfl⟩
    · exact List.mem_map_of_mem hctx
    · exact decide_eq_true hpart

/-- **What fits the keys also fits the numbers.** -/
theorem History.numbered (h : History) (hfits : h.Fits) : h.index.Numbered where
  strings := by
    refine Nat.lt_of_le_of_lt (List.Nodup.subperm h.wf.nodup ?_).length_le hfits.strings
    intro s hs
    exact List.mem_dedup.mpr (h.interned s hs)
  scopeSets := by
    have hle := SetTable.From.length_le_distinct h.brought.scopeSets (·.enclosingTryCatches) id
      fun set hne ⟨ctx, hctx, heq⟩ => ⟨ctx, hctx, heq ▸ hne, heq⟩
    exact hle.trans hfits.scopeSets
  guardSets := by
    have hle := SetTable.From.length_le_distinct h.brought.guardSets (·.enclosingGuards) id
      fun set hne ⟨ctx, hctx, heq⟩ => ⟨ctx, hctx, heq ▸ hne, heq⟩
    exact hle.trans hfits.guardSets
  raiiSets := by
    have hle := SetTable.From.length_le_distinct h.brought.raiiSets (·.liveRaiiLocals)
      (storeLocals h.index.interner) fun set hne ⟨ctx, hctx, _, heq⟩ =>
        ⟨ctx, hctx, fun hnil => hne (by rw [← heq, hnil]; rfl), heq⟩
    exact hle.trans hfits.raiiSets

/-- The refinement, and what it takes from one step to the next. -/
theorem History.refines : ∀ h : History, h.Fits →
    Told h.index ∧ h.index.allContexts = h.contexts := by
  intro h
  induction h with
  | empty => exact fun _ => ⟨told_empty, rfl⟩
  | add h ctx ih =>
      intro hfits
      obtain ⟨htold, hall⟩ := ih (FitsKeys.mono hfits (List.subset_append_left _ _))
      obtain ⟨htold', hall'⟩ := htold.addCallSiteContext h.wf
        (hfits.contexts ctx (List.mem_append_right _ (List.mem_singleton_self ctx)))
        (History.numbered (.add h ctx) hfits)
      exact ⟨htold', hall'.trans (by rw [hall]; rfl)⟩
  | absorb h shard ih ihs =>
      intro hfits
      obtain ⟨htold, hall⟩ := ih (FitsKeys.mono hfits (List.subset_append_left _ _))
      obtain ⟨htolds, halls⟩ := ihs (FitsKeys.mono hfits (List.subset_append_right _ _))
      obtain ⟨htold', hall'⟩ := htold.absorb h.wf htolds shard.wf
        (History.numbered (.absorb h shard) hfits)
      exact ⟨htold', hall'.trans (by rw [hall, halls]; rfl)⟩
  | removeTUs h tuPaths ih =>
      intro hfits
      obtain ⟨htold, hall⟩ := ih hfits
      refine ⟨htold.removeTUs h.wf tuPaths, ?_⟩
      exact (htold.allContexts_removeTUs h.wf tuPaths).trans (by rw [hall]; rfl)
  | compact h ih =>
      intro hfits
      obtain ⟨htold, hall⟩ := ih hfits
      exact ⟨htold.compact, (allContexts_compact _).trans hall⟩

/-- **The control-flow index implements a list of contexts**: along every history whose sets
fit the keys, it shows the contexts added or absorbed and not removed, in order. -/
theorem History.allContexts_eq (h : History) (hfits : h.Fits) :
    h.index.allContexts = h.contexts := (History.refines h hfits).2

/-! ### Both sides of the bound -/

/-- A call under one guard. -/
def guardedCall (site tuPath : Str) (guard : ConditionalGuard) : CallSiteContext where
  callerName := str "run"
  calleeName := str "free"
  calleeUsr := str "c:@F@free"
  callSite := site
  tuPath := tuPath
  enclosingTryCatches :=
    [{ tryLocation := str "a.cpp:1:3", enclosingFunction := str "run"
       handlers := [{ caughtType := str "E" }] }]
  enclosingGuards := [guard]
  liveRaiiLocals := [⟨str "Lock", str "l", str "a.cpp:2:5", .lock⟩]

/-- Two TUs and a context without a TU, merged; then one TU goes. -/
def smallHistory : History :=
  .compact (.removeTUs (.absorb
    (.add (.add .empty
      (guardedCall (str "a.cpp:5:1") (str "a.cpp") ⟨str "p", str "a.cpp:4:3", true, false⟩))
      (guardedCall (str "h.h:9:1") (str "b.cpp") ⟨str "q", str "h.h:8:1", false, true⟩))
    (.add (.add .empty (guardedCall (str "b.cpp:5:1") [] ⟨str "p", str "a.cpp:4:3", true, false⟩))
      (guardedCall (str "a.cpp:7:1") [] ⟨str "q", str "h.h:8:1", false, true⟩)))
    [str "a.cpp"])

theorem smallHistory_eq : smallHistory.index.allContexts = smallHistory.contexts := by
  refine History.allContexts_eq smallHistory ⟨?_, by decide +kernel, by decide +kernel,
    by decide +kernel, by decide +kernel⟩
  intro ctx hctx
  have hgiven : ctx ∈ smallHistory.given := hctx
  simp only [smallHistory, History.given, List.nil_append, List.mem_append, List.mem_singleton]
    at hgiven
  rcases hgiven with (rfl | rfl) | (rfl | rfl) <;>
  · refine ⟨?_, ?_⟩
    · intro scope hscope
      rw [List.mem_singleton.mp hscope]
      refine ⟨by unfold Short; decide, by unfold Short; decide, by unfold Short; decide, ?_⟩
      intro handler hhandler
      rw [List.mem_singleton.mp hhandler]
      exact ⟨by unfold Short; decide, by unfold Short; decide, by unfold Short; decide⟩
    · intro g hg
      rw [List.mem_singleton.mp hg]
      exact ⟨by unfold Short; decide, by unfold Short; decide⟩

/-- A guard's text under another guard, once as its condition and once as its location. -/
def asCondition (text : Str) : ConditionalGuard := ⟨text, [], true, false⟩

/-- The text as the location of a guard without a condition. -/
def asLocation (text : Str) : ConditionalGuard := ⟨[], text, true, false⟩

/-- Two calls whose guards differ only in where the one text stands. -/
def twoGuards (text : Str) : History :=
  .add (.add .empty (guardedCall (str "a.cpp:5:1") (str "a.cpp") (asCondition text)))
    (guardedCall (str "a.cpp:6:1") (str "a.cpp") (asLocation text))

/-- If the two guards have one key, the second context shows the first one's guard. -/
theorem twoGuards_shown {text : Str}
    (hkey : guardSetKey [asCondition text] = guardSetKey [asLocation text]) :
    (twoGuards text).index.allContexts.map (·.enclosingGuards)
      = [[asCondition text], [asCondition text]] := by
  have hfirst : SetTable.intern {} (guardSetKey [asCondition text]) [asCondition text]
      = ({ sets := [[], [asCondition text]]
           ids := AList.insert (guardSetKey [asCondition text]) 1 ∅ }, 1) := by
    simp [SetTable.intern]
  have hsecond : SetTable.intern
      { sets := [[], [asCondition text]]
        ids := AList.insert (guardSetKey [asCondition text]) 1 ∅ }
      (guardSetKey [asLocation text]) [asLocation text]
      = ({ sets := [[], [asCondition text]]
           ids := AList.insert (guardSetKey [asCondition text]) 1 ∅ }, 1) := by
    have hfound : AList.lookup (guardSetKey [asLocation text])
        (AList.insert (guardSetKey [asCondition text]) 1 ∅ : UMap Str Nat) = some 1 := by
      rw [hkey, AList.lookup_insert]
    unfold SetTable.intern
    rw [if_neg (List.cons_ne_nil _ _)]
    dsimp only
    rw [hfound]
  unfold twoGuards
  simp only [History.index, addCallSiteContext_eq, internFor, withTables,
    ControlFlowIndex.insertStored, ControlFlowIndex.allContexts, storedOf, guardedCall, hfirst,
    hsecond]
  rfl

/-- The length field of a string of 2^32 bytes is that of the empty string. -/
theorem guardSetKey_wraps {text : Str} (htext : text = List.replicate (2 ^ 32) 0) :
    guardSetKey [asCondition text] = guardSetKey [asLocation text] := by
  have hlen : text.length = 2 ^ 32 := by rw [htext, List.length_replicate]
  have hzero : keyU32 0 = List.replicate 4 0 := by decide
  have hword : keyStr text = List.replicate 4 0 ++ text := by
    have hwrap : UInt32.ofNat (2 ^ 32) = 0 := by decide
    unfold keyStr
    rw [hlen, hwrap, hzero]
  have hcomm : text ++ List.replicate 4 0 = List.replicate 4 0 ++ text := by
    rw [htext, List.replicate_append_replicate, List.replicate_append_replicate, Nat.add_comm]
  have hempty : keyStr [] = List.replicate 4 0 := by decide
  unfold guardSetKey asCondition asLocation
  simp only [List.flatMap_cons, List.flatMap_nil, hword, hempty, List.append_nil]
  rw [List.append_assoc (List.replicate 4 0) text, hcomm]

/-- **Past the bound a guard is confused with another**: with a text of 2^32 zero bytes. -/
theorem allContexts_confused :
    (twoGuards (List.replicate (2 ^ 32) 0)).index.allContexts
      ≠ (twoGuards (List.replicate (2 ^ 32) 0)).contexts := by
  obtain ⟨text, htext⟩ : ∃ text : Str, text = List.replicate (2 ^ 32) 0 := ⟨_, rfl⟩
  rw [← htext]
  intro heq
  have hguards := twoGuards_shown (guardSetKey_wraps htext)
  rw [heq] at hguards
  have hsecond : asLocation text = asCondition text := by
    have hboth : [[asCondition text], [asLocation text]]
        = [[asCondition text], [asCondition text]] := hguards
    simpa using hboth
  have hnil : text = [] := (congrArg ConditionalGuard.location hsecond)
  have hlen := congrArg List.length hnil
  rw [htext, List.length_replicate] at hlen
  exact absurd hlen (by decide)

end ControlFlowIndex

end Vycor
