/-
What compacting changes in the answers of the control-flow index.

A by-name query reads the usr entry of a name if there is one and the display entry
otherwise.  A removal leaves a usr entry behind that has run empty, and such an entry hides
the display entry of the same name; compacting drops it and the display entry shows.  So an
index answers like its compacted form exactly when no empty usr entry hides contexts
(`NoShadow`).  The same holds of any index with the same live contexts whose usr entries are
all nonempty, which is how a reloaded one comes in.
-/
import Vycor.Proofs.ContextPositions

namespace Vycor

open UMap Postings

namespace ControlFlowIndex

variable {cf cf' : ControlFlowIndex}

/-! ### Answers

A rebuilt index lists the same contexts under each name. It differs from the
index only in entries that have run empty, which a lookup by name takes for an
answer.
-/

/-- Every query answers alike, for every string. -/
structure SameAnswers (cf cf' : ControlFlowIndex) : Prop where
  contextAtSite : ∀ s, cf'.contextAtSite s = cf.contextAtSite s
  contextAtSiteOf : ∀ s caller, cf'.contextAtSiteOf s caller = cf.contextAtSiteOf s caller
  contextsAtSite : ∀ s, cf'.contextsAtSite s = cf.contextsAtSite s
  contextsForCaller : ∀ s, cf'.contextsForCaller s = cf.contextsForCaller s
  contextsForCallee : ∀ s, cf'.contextsForCallee s = cf.contextsForCallee s
  protectedCallsTo : ∀ s, cf'.protectedCallsTo s = cf.protectedCallsTo s
  unprotectedCallsTo : ∀ s, cf'.unprotectedCallsTo s = cf.unprotectedCallsTo s
  allContexts : cf'.allContexts = cf.allContexts

/-- **No usr entry that has run empty hides contexts listed by display name.** -/
def NoShadow (cf : ControlFlowIndex) : Prop :=
  ∀ id, (cf.byCallee.lookup id = some [] → cf.byCalleeDisplay.getD id [] = []) ∧
    (cf.byCaller.lookup id = some [] → cf.byCallerDisplay.getD id [] = [])

/-- The maps the queries read. -/
structure Queried (cf : ControlFlowIndex) : Prop where
  byCallee : Files cf.contexts atCallee cf.byCallee
  byCaller : Files cf.contexts atCaller cf.byCaller
  byCalleeDisplay : Files cf.contexts atCalleeDisplay cf.byCalleeDisplay
  byCallerDisplay : Files cf.contexts atCallerDisplay cf.byCallerDisplay
  bySite : Files cf.contexts atSite cf.bySite

theorem Filed.queried (h : cf.Filed) : cf.Queried :=
  ⟨h.byCallee, h.byCaller, h.byCalleeDisplay, h.byCallerDisplay, h.bySite⟩

theorem liveAt_positions (cf : ControlFlowIndex) (p : StoredContext → Bool) :
    cf.liveAt (positions cf.contexts (held p)) = cf.contexts.filter (held p) := by
  show (rowsAt cf.contexts (positions cf.contexts (held p))).filter (·.live) = _
  rw [rowsAt_positions, List.filter_filter]
  refine List.filter_congr ?_
  intro se _
  simp [held]

/-- The live contexts of a name: those of its usr entry if it has one. -/
def answer (cf : ControlFlowIndex) (usrMap displayMap : UMap SId (List Nat)) (name : Str) :
    List StoredContext :=
  cf.liveAt ((cf.indicesFor usrMap displayMap name).getD [])

variable {usr display : SId → StoredContext → Bool}
  {usrMap displayMap usrMap' displayMap' : UMap SId (List Nat)}

theorem answer_unknown {name : Str} (h : cf.interner.find name = none) :
    cf.answer usrMap displayMap name = [] := by
  unfold answer indicesFor
  rw [h]
  rfl

theorem answer_eq (husr : Files cf.contexts (fun k => held (usr k)) usrMap)
    (hdisplay : Files cf.contexts (fun k => held (display k)) displayMap) {name : Str} {id : SId}
    (h : cf.interner.find name = some id) :
    cf.answer usrMap displayMap name
      = if usrMap.lookup id = none then cf.contexts.filter (held (display id))
        else cf.contexts.filter (held (usr id)) := by
  have hu := husr id
  have hd := hdisplay id
  unfold answer indicesFor
  rw [h, Option.bind_some]
  cases hl : usrMap.lookup id with
  | none =>
      rw [if_pos rfl, Option.none_or, ← liveAt_positions, ← hd]
      rfl
  | some v =>
      have hv : v = positions cf.contexts (held (usr id)) := by
        rw [← hu, UMap.getD, hl]
        rfl
      rw [if_neg (by simp), ← liveAt_positions, ← hv]
      rfl

/-- Where no usr entry is empty, a name falls back exactly when its usr has no contexts. -/
theorem answer_full (husr : Files cf.contexts (fun k => held (usr k)) usrMap)
    (hne : NoneEmpty usrMap)
    (hdisplay : Files cf.contexts (fun k => held (display k)) displayMap) {name : Str} {id : SId}
    (h : cf.interner.find name = some id) :
    cf.answer usrMap displayMap name
      = if cf.contexts.filter (held (usr id)) = [] then cf.contexts.filter (held (display id))
        else cf.contexts.filter (held (usr id)) := by
  have hiff := (husr.lookup_eq_none hne id).trans positions_eq_nil
  rw [answer_eq husr hdisplay h]
  exact if_congr hiff rfl rfl

/-- The live contexts of an index, under the same tables and full usr entries. -/
structure Rebuilt (cf cf' : ControlFlowIndex) : Prop extends Queried cf' where
  interner : cf'.interner = cf.interner
  scopeSets : cf'.scopeSets.sets = cf.scopeSets.sets
  guardSets : cf'.guardSets.sets = cf.guardSets.sets
  raiiSets : cf'.raiiSets.sets = cf.raiiSets.sets
  contexts : cf'.contexts = cf.contexts.filter (·.live)
  callees : NoneEmpty cf'.byCallee
  callers : NoneEmpty cf'.byCaller

theorem Rebuilt.materialize (h : Rebuilt cf cf') : cf'.materialize = cf.materialize := by
  unfold ControlFlowIndex.materialize
  rw [h.interner, h.scopeSets, h.guardSets, h.raiiSets]

theorem Rebuilt.filter_held (h : Rebuilt cf cf') (p : StoredContext → Bool) :
    cf'.contexts.filter (held p) = cf.contexts.filter (held p) := by
  rw [h.contexts, List.filter_filter]
  refine List.filter_congr ?_
  intro se _
  unfold held
  cases se.live <;> simp

theorem Rebuilt.storedAtSite (h : Rebuilt cf cf') (hq : cf.Queried) (s : Str) :
    cf'.storedAtSite s = cf.storedAtSite s := by
  unfold ControlFlowIndex.storedAtSite
  rw [h.interner]
  cases cf.interner.find s with
  | none => rfl
  | some id =>
      dsimp only
      rw [h.bySite id, hq.bySite id]
      unfold atSite
      rw [liveAt_positions, liveAt_positions, h.filter_held]

/-- One by-name lookup of the rebuilt index against the index. -/
theorem Rebuilt.answer_eq_iff (h : Rebuilt cf cf')
    (husr : Files cf.contexts (fun k => held (usr k)) usrMap)
    (hdisplay : Files cf.contexts (fun k => held (display k)) displayMap)
    (husr' : Files cf'.contexts (fun k => held (usr k)) usrMap') (hne : NoneEmpty usrMap')
    (hdisplay' : Files cf'.contexts (fun k => held (display k)) displayMap') {name : Str} {id : SId}
    (hid : cf.interner.find name = some id) :
    cf'.answer usrMap' displayMap' name = cf.answer usrMap displayMap name
      ↔ (usrMap.lookup id = some [] → displayMap.getD id [] = []) := by
  have hid' : cf'.interner.find name = some id := by rw [h.interner, hid]
  have hu : usrMap.getD id [] = [] ↔ cf.contexts.filter (held (usr id)) = [] := by
    rw [husr id, positions_eq_nil]
  have hd : displayMap.getD id [] = []
      ↔ cf.contexts.filter (held (display id)) = [] := by
    rw [hdisplay id, positions_eq_nil]
  rw [answer_full husr' hne hdisplay' hid', answer_eq husr hdisplay hid, h.filter_held, h.filter_held, hd]
  cases hl : usrMap.lookup id with
  | none =>
      have hnil : cf.contexts.filter (held (usr id)) = [] := by
        rw [← hu, UMap.getD, hl]
        rfl
      simp [hnil]
  | some v =>
      have hv : v = [] ↔ cf.contexts.filter (held (usr id)) = [] := by
        rw [← hu, UMap.getD, hl]
        rfl
      by_cases hnil : cf.contexts.filter (held (usr id)) = []
      · simp [hv.mpr hnil, hnil]
      · simp [hnil, hv]

/-- The queries of a site read the contexts stored there and nothing else. -/
theorem siteQueries_congr (hinterner : cf'.interner = cf.interner)
    (hsite : ∀ s, cf'.storedAtSite s = cf.storedAtSite s)
    (hmat : cf'.materialize = cf.materialize) :
    (∀ s, cf'.contextAtSite s = cf.contextAtSite s) ∧
      (∀ s caller, cf'.contextAtSiteOf s caller = cf.contextAtSiteOf s caller) ∧
      ∀ s, cf'.contextsAtSite s = cf.contextsAtSite s := by
  refine ⟨fun s => ?_, fun s caller => ?_, fun s => ?_⟩
  · unfold ControlFlowIndex.contextAtSite
    rw [hsite, hmat]
  · unfold ControlFlowIndex.contextAtSiteOf
    rw [hinterner, hsite, hmat]
  · unfold ControlFlowIndex.contextsAtSite
    rw [hsite, hmat]

/-- Every answer of the rebuilt index is the index's own if nothing is hidden. -/
theorem Rebuilt.sameAnswers (h : Rebuilt cf cf') (hq : cf.Queried) (hshadow : cf.NoShadow) :
    SameAnswers cf cf' := by
  have hmat := h.materialize
  have hcallee : ∀ s, cf'.storedForCallee s = cf.storedForCallee s := by
    intro s
    show cf'.answer cf'.byCallee cf'.byCalleeDisplay s = cf.answer cf.byCallee cf.byCalleeDisplay s
    cases hs : cf.interner.find s with
    | none =>
        rw [answer_unknown hs, answer_unknown (by rw [h.interner, hs])]
    | some id =>
        exact (h.answer_eq_iff hq.byCallee hq.byCalleeDisplay h.byCallee h.callees
          h.byCalleeDisplay hs).mpr (hshadow id).1
  have hcaller : ∀ s, cf'.answer cf'.byCaller cf'.byCallerDisplay s
      = cf.answer cf.byCaller cf.byCallerDisplay s := by
    intro s
    cases hs : cf.interner.find s with
    | none =>
        rw [answer_unknown hs, answer_unknown (by rw [h.interner, hs])]
    | some id =>
        exact (h.answer_eq_iff hq.byCaller hq.byCallerDisplay h.byCaller h.callers
          h.byCallerDisplay hs).mpr (hshadow id).2
  obtain ⟨hat, hatOf, hall⟩ := siteQueries_congr h.interner (h.storedAtSite hq) hmat
  refine ⟨hat, hatOf, hall, ?_, ?_, ?_, ?_, ?_⟩
  · intro s
    show (cf'.answer _ _ s).map _ = (cf.answer _ _ s).map _
    rw [hcaller, hmat]
  · intro s
    unfold ControlFlowIndex.contextsForCallee
    rw [hcallee, hmat]
  · intro s
    unfold ControlFlowIndex.protectedCallsTo
    rw [hcallee, hmat]
  · intro s
    unfold ControlFlowIndex.unprotectedCallsTo
    rw [hcallee, hmat]
  · unfold ControlFlowIndex.allContexts
    rw [h.contexts, List.filter_filter, hmat]
    simp

/-- An entry of a by-name map belongs to a string of the interner. -/
theorem WF.find_resolve (h : cf.WF) {id : SId} (hid : id < cf.interner.size) :
    cf.interner.find (cf.interner.resolve id) = some id :=
  StringInterner.find_eq_some.mpr
    ⟨StringInterner.resolve_mem hid, StringInterner.idOf_resolve h.nodup hid⟩

/-- **A rebuilt index answers like the index exactly when nothing is hidden.** -/
theorem Rebuilt.sameAnswers_iff (h : Rebuilt cf cf') (hwf : cf.WF) :
    SameAnswers cf cf' ↔ cf.NoShadow := by
  have hq := hwf.queried
  refine ⟨?_, h.sameAnswers hq⟩
  intro hsame id
  -- Two by-name answers that show the same are equal where one of them is empty.
  have hback {usr display : SId → StoredContext → Bool}
      {usrMap displayMap usrMap' displayMap' : UMap SId (List Nat)}
      (husr : Files cf.contexts (fun k => held (usr k)) usrMap)
      (hdisplay : Files cf.contexts (fun k => held (display k)) displayMap)
      (husr' : Files cf'.contexts (fun k => held (usr k)) usrMap') (hne : NoneEmpty usrMap')
      (hdisplay' : Files cf'.contexts (fun k => held (display k)) displayMap')
      (hid : id < cf.interner.size)
      (hshown : (cf'.answer usrMap' displayMap' (cf.interner.resolve id)).map cf'.materialize
        = (cf.answer usrMap displayMap (cf.interner.resolve id)).map cf.materialize)
      (hempty : usrMap.lookup id = some []) : displayMap.getD id [] = [] := by
    have hfind := hwf.find_resolve hid
    have hnil : cf.answer usrMap displayMap (cf.interner.resolve id) = [] := by
      rw [answer_eq husr hdisplay hfind, if_neg (by simp [hempty]), ← positions_eq_nil, ← husr id,
        UMap.getD, hempty]
      rfl
    rw [hnil] at hshown
    have hnil' := List.map_eq_nil_iff.mp hshown
    exact (h.answer_eq_iff husr hdisplay husr' hne hdisplay' hfind).mp (by rw [hnil, hnil']) hempty
  constructor
  · intro hempty
    exact hback hq.byCallee hq.byCalleeDisplay h.byCallee h.callees h.byCalleeDisplay
      (hwf.inRange.byCallee id [] hempty).1 (hsame.contextsForCallee _) hempty
  · intro hempty
    exact hback hq.byCaller hq.byCallerDisplay h.byCaller h.callers h.byCallerDisplay
      (hwf.inRange.byCaller id [] hempty).1 (hsame.contextsForCaller _) hempty

/-! ### Compacting -/

/-- Building a usr map by insertion leaves no entry empty. -/
theorem noneEmpty_insertAll (stored : List StoredContext) (cf : ControlFlowIndex)
    (hcallees : NoneEmpty cf.byCallee) (hcallers : NoneEmpty cf.byCaller) :
    NoneEmpty (stored.foldl ControlFlowIndex.insertStored cf).byCallee ∧
      NoneEmpty (stored.foldl ControlFlowIndex.insertStored cf).byCaller := by
  induction stored generalizing cf with
  | nil => exact ⟨hcallees, hcallers⟩
  | cons se rest ih => exact ih (cf.insertStored se) (hcallees.push _ _) (hcallers.push _ _)

theorem WF.rebuilt_compact (h : cf.WF) : Rebuilt cf cf.compact := by
  obtain ⟨hinterner, hscope, hguard, hraii⟩ := compact_tables cf
  have hfull := noneEmpty_insertAll (cf.contexts.filter (·.live)) cf.emptied noneEmpty_empty
    noneEmpty_empty
  exact { h.compact.queried with
    interner := hinterner, scopeSets := by rw [hscope], guardSets := by rw [hguard]
    raiiSets := by rw [hraii], contexts := compact_contexts cf
    callees := hfull.1, callers := hfull.2 }

end ControlFlowIndex

end Vycor
