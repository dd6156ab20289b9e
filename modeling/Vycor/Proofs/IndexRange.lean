/-
Ids and positions of the control-flow index and the channel index stay in range.

The counterpart of `GraphRange` for the two other indexes.  In the control-flow index the
set tables take part: a context's set indices lie below the sizes of the tables, the keys
of a table lead to entries of it, and entry 0 is the empty set.  The channel index holds no
ids, only positions.
-/
import Vycor.Model.ChannelIndex
import Vycor.Proofs.GraphRange

namespace Vycor

open UMap
open CallGraph (PosLists)

/-! ### Set tables -/

namespace SetTable

variable {α : Type} {t : SetTable α}

/-- Entry 0 is the empty set and every key leads to an entry. -/
structure InRange (t : SetTable α) : Prop where
  seed : ∃ rest, t.sets = [] :: rest
  keyed : ∀ key id, t.ids.lookup key = some id → id < t.sets.length

theorem InRange.pos (h : t.InRange) : 0 < t.sets.length := by
  obtain ⟨rest, hsets⟩ := h.seed
  rw [hsets]
  exact Nat.zero_lt_succ _

theorem inRange_seeded : InRange ({} : SetTable α) :=
  ⟨⟨[], rfl⟩, fun key id h => by simp at h⟩

/-- Interning a set grows the table by no other set and gives an entry of it. -/
theorem InRange.intern (h : t.InRange) (key : Str) (set : List α) :
    (t.intern key set).1.InRange ∧ (t.intern key set).2 < (t.intern key set).1.sets.length ∧
      t.sets.length ≤ (t.intern key set).1.sets.length ∧
      ∀ s ∈ (t.intern key set).1.sets, s ∈ t.sets ∨ s = set := by
  unfold SetTable.intern
  split
  · exact ⟨h, h.pos, Nat.le_refl _, fun s hs => Or.inl hs⟩
  · split
    · rename_i id hid
      exact ⟨h, h.keyed key id hid, Nat.le_refl _, fun s hs => Or.inl hs⟩
    · have hle : t.sets.length % 2 ^ 32 ≤ t.sets.length := Nat.mod_le _ _
      refine ⟨⟨?_, ?_⟩, ?_, by simp, ?_⟩
      · obtain ⟨rest, hsets⟩ := h.seed
        exact ⟨rest ++ [set], by rw [hsets, List.cons_append]⟩
      · intro key' id hid
        have hid' : AList.lookup key' (AList.insert key (t.sets.length % 2 ^ 32) t.ids) = some id :=
          hid
        rw [lookup_insert_ite] at hid'
        show id < (t.sets ++ [set]).length
        rw [List.length_append, List.length_singleton]
        split at hid'
        · injection hid' with hid'
          omega
        · exact Nat.lt_succ_of_lt (h.keyed key' id hid')
      · show t.sets.length % 2 ^ 32 < (t.sets ++ [set]).length
        rw [List.length_append, List.length_singleton]
        exact Nat.lt_succ_of_le hle
      · intro s hs
        rcases List.mem_append.mp hs with hs | hs
        · exact Or.inl hs
        · exact Or.inr (List.mem_singleton.mp hs)

end SetTable

/-! ### The control-flow index -/

namespace ControlFlowIndex

variable {cf : ControlFlowIndex}

/-- The ids of a local lie below `n`. -/
def LocalBelow (n : Nat) (l : StoredRaiiLocal) : Prop :=
  l.typeName < n ∧ l.varName < n ∧ l.declLocation < n

/-- The ids of a context lie below `n`. -/
structure IdsBelow (n : Nat) (se : StoredContext) : Prop where
  caller : se.caller < n
  callee : se.callee < n
  callerDisplay : se.callerDisplay < n
  calleeDisplay : se.calleeDisplay < n
  site : se.site < n
  tuPath : ∀ tu, se.tuPath = some tu → tu < n

/-- The set indices of a context are entries of the tables. -/
structure SetsBelow (cf : ControlFlowIndex) (se : StoredContext) : Prop where
  scopeSet : se.scopeSet < cf.scopeSets.sets.length
  guardSet : se.guardSet < cf.guardSets.sets.length
  raiiSet : se.raiiSet < cf.raiiSets.sets.length

/-- Nothing points outside the interner, the set tables or the contexts. -/
structure InRange (cf : ControlFlowIndex) : Prop where
  ids : ∀ se ∈ cf.contexts, IdsBelow cf.interner.size se
  sets : ∀ se ∈ cf.contexts, SetsBelow cf se
  scopeSets : cf.scopeSets.InRange
  guardSets : cf.guardSets.InRange
  raiiSets : cf.raiiSets.InRange
  locals : ∀ set ∈ cf.raiiSets.sets, ∀ l ∈ set, LocalBelow cf.interner.size l
  byCallee : PosLists cf.interner.size cf.contexts.length cf.byCallee
  byCaller : PosLists cf.interner.size cf.contexts.length cf.byCaller
  byCalleeDisplay : PosLists cf.interner.size cf.contexts.length cf.byCalleeDisplay
  byCallerDisplay : PosLists cf.interner.size cf.contexts.length cf.byCallerDisplay
  bySite : PosLists cf.interner.size cf.contexts.length cf.bySite
  byTu : PosLists cf.interner.size cf.contexts.length cf.byTu
  noProvenance : ∀ i ∈ cf.noProvenance, i < cf.contexts.length

/-- An index without contexts is in range when its tables are. -/
theorem inRange_tables {t : StringInterner} {scopeSets : SetTable TryCatchScope}
    {guardSets : SetTable ConditionalGuard} {raiiSets : SetTable StoredRaiiLocal}
    (hscope : scopeSets.InRange) (hguard : guardSets.InRange) (hraii : raiiSets.InRange)
    (hlocals : ∀ set ∈ raiiSets.sets, ∀ l ∈ set, LocalBelow t.size l) :
    InRange { interner := t, scopeSets, guardSets, raiiSets } :=
  ⟨fun _ hse => absurd hse List.not_mem_nil, fun _ hse => absurd hse List.not_mem_nil,
    hscope, hguard, hraii, hlocals, Lists.empty, Lists.empty, Lists.empty, Lists.empty,
    Lists.empty, Lists.empty, fun _ hi => absurd hi List.not_mem_nil⟩

theorem inRange_empty : InRange {} := by
  refine inRange_tables SetTable.inRange_seeded SetTable.inRange_seeded SetTable.inRange_seeded ?_
  intro set hset l hl
  rw [List.mem_singleton.mp hset] at hl
  exact absurd hl List.not_mem_nil

/-! ### Interning -/

theorem LocalBelow.mono {n n' : Nat} (hle : n ≤ n') {l : StoredRaiiLocal} (h : LocalBelow n l) :
    LocalBelow n' l :=
  ⟨Nat.lt_of_lt_of_le h.1 hle, Nat.lt_of_lt_of_le h.2.1 hle, Nat.lt_of_lt_of_le h.2.2 hle⟩

theorem IdsBelow.mono {n n' : Nat} (hle : n ≤ n') {se : StoredContext} (h : IdsBelow n se) :
    IdsBelow n' se :=
  ⟨Nat.lt_of_lt_of_le h.caller hle, Nat.lt_of_lt_of_le h.callee hle,
    Nat.lt_of_lt_of_le h.callerDisplay hle, Nat.lt_of_lt_of_le h.calleeDisplay hle,
    Nat.lt_of_lt_of_le h.site hle, fun tu htu => Nat.lt_of_lt_of_le (h.tuPath tu htu) hle⟩

theorem InRange.grow (h : cf.InRange) {t : StringInterner} (hle : cf.interner.size ≤ t.size) :
    InRange { cf with interner := t } := by
  have hlt : ∀ i, i < cf.interner.size → i < t.size := fun i hi => Nat.lt_of_lt_of_le hi hle
  exact
    { ids := fun se hse => (h.ids se hse).mono hle
      sets := fun se hse =>
        ⟨(h.sets se hse).scopeSet, (h.sets se hse).guardSet, (h.sets se hse).raiiSet⟩
      scopeSets := h.scopeSets
      guardSets := h.guardSets
      raiiSets := h.raiiSets
      locals := fun set hset l hl => (h.locals set hset l hl).mono hle
      byCallee := h.byCallee.mono hlt fun _ hi => hi
      byCaller := h.byCaller.mono hlt fun _ hi => hi
      byCalleeDisplay := h.byCalleeDisplay.mono hlt fun _ hi => hi
      byCallerDisplay := h.byCallerDisplay.mono hlt fun _ hi => hi
      bySite := h.bySite.mono hlt fun _ hi => hi
      byTu := h.byTu.mono hlt fun _ hi => hi
      noProvenance := h.noProvenance }

/-- Interning a list of strings: the table grows and holds them all. -/
theorem internAll_grown (strings : List Str) (cf : ControlFlowIndex) :
    ∃ t : StringInterner, cf.internAll strings = { cf with interner := t } ∧
      cf.interner.strings <+: t.strings ∧ ∀ s ∈ strings, s ∈ t.strings := by
  unfold ControlFlowIndex.internAll
  induction strings generalizing cf with
  | nil => exact ⟨cf.interner, rfl, List.prefix_rfl, fun s hs => absurd hs List.not_mem_nil⟩
  | cons s rest ih =>
      obtain ⟨t, heq, hpre, hmem⟩ := ih (cf.intern s)
      have hgrow := StringInterner.prefix_intern cf.interner s
      refine ⟨t, heq, hgrow.trans hpre, ?_⟩
      intro x hx
      rcases List.mem_cons.mp hx with rfl | hx
      · exact hpre.subset (StringInterner.mem_intern _ _)
      · exact hmem x hx

/-! ### Contexts -/

theorem PosLists.pushAt {n k : Nat} {m : UMap SId (List Nat)} (h : PosLists n k m) {key : SId}
    (hkey : key < n) : PosLists n (k + 1) (ControlFlowIndex.pushAt m key k) :=
  (h.mono (fun _ hk => hk) fun _ hi => Nat.lt_succ_of_lt hi).push hkey (Nat.lt_succ_self k)

theorem insertStored_of_tu {se : StoredContext} {tu : SId} (htu : se.tuPath = some tu) :
    (cf.insertStored se).byTu = ControlFlowIndex.pushAt cf.byTu tu cf.contexts.length ∧
      (cf.insertStored se).noProvenance = cf.noProvenance := by
  simp [ControlFlowIndex.insertStored, htu]

theorem insertStored_of_no_tu {se : StoredContext} (htu : se.tuPath = none) :
    (cf.insertStored se).byTu = cf.byTu ∧
      (cf.insertStored se).noProvenance = cf.noProvenance ++ [cf.contexts.length] := by
  simp [ControlFlowIndex.insertStored, htu]

theorem InRange.insertStored (h : cf.InRange) {se : StoredContext}
    (hids : IdsBelow cf.interner.size se) (hsets : SetsBelow cf se) :
    (cf.insertStored se).InRange := by
  have hlen : (cf.contexts ++ [{ se with live := true }]).length = cf.contexts.length + 1 := by
    simp
  have hstep {m : UMap SId (List Nat)} (hm : PosLists cf.interner.size cf.contexts.length m) :
      PosLists cf.interner.size (cf.contexts.length + 1) m :=
    hm.mono (fun _ hk => hk) fun _ hi => Nat.lt_succ_of_lt hi
  refine
    { ids := ?_
      sets := ?_
      scopeSets := h.scopeSets
      guardSets := h.guardSets
      raiiSets := h.raiiSets
      locals := h.locals
      byCallee := hlen ▸ PosLists.pushAt h.byCallee hids.callee
      byCaller := hlen ▸ PosLists.pushAt h.byCaller hids.caller
      byCalleeDisplay := hlen ▸ ?_
      byCallerDisplay := hlen ▸ ?_
      bySite := hlen ▸ PosLists.pushAt h.bySite hids.site
      byTu := hlen ▸ ?_
      noProvenance := ?_ }
  · intro x hx
    rcases List.mem_append.mp hx with hx | hx
    · exact h.ids x hx
    · rw [List.mem_singleton.mp hx]
      exact ⟨hids.caller, hids.callee, hids.callerDisplay, hids.calleeDisplay, hids.site,
        hids.tuPath⟩
  · intro x hx
    rcases List.mem_append.mp hx with hx | hx
    · exact ⟨(h.sets x hx).scopeSet, (h.sets x hx).guardSet, (h.sets x hx).raiiSet⟩
    · rw [List.mem_singleton.mp hx]
      exact ⟨hsets.scopeSet, hsets.guardSet, hsets.raiiSet⟩
  · show PosLists _ _ (if _ then _ else _)
    split
    · exact PosLists.pushAt h.byCalleeDisplay hids.calleeDisplay
    · exact hstep h.byCalleeDisplay
  · show PosLists _ _ (if _ then _ else _)
    split
    · exact PosLists.pushAt h.byCallerDisplay hids.callerDisplay
    · exact hstep h.byCallerDisplay
  · cases htu : se.tuPath with
    | none =>
        rw [(insertStored_of_no_tu htu).1]
        exact hstep h.byTu
    | some tu =>
        rw [(insertStored_of_tu htu).1]
        exact PosLists.pushAt h.byTu (hids.tuPath tu htu)
  · intro i hi
    show i < (cf.contexts ++ [_]).length
    rw [hlen]
    cases htu : se.tuPath with
    | none =>
        rw [(insertStored_of_no_tu htu).2] at hi
        rcases List.mem_append.mp hi with hi | hi
        · exact Nat.lt_succ_of_lt (h.noProvenance i hi)
        · rw [List.mem_singleton.mp hi]
          exact Nat.lt_succ_self _
    | some tu =>
        rw [(insertStored_of_tu htu).2] at hi
        exact Nat.lt_succ_of_lt (h.noProvenance i hi)

/-- Interning a set: the index stays in range and every table is as long as before. -/
structure TablesGrown (cf cf' : ControlFlowIndex) : Prop where
  interner : cf'.interner = cf.interner
  scopeSets : cf.scopeSets.sets.length ≤ cf'.scopeSets.sets.length
  guardSets : cf.guardSets.sets.length ≤ cf'.guardSets.sets.length
  raiiSets : cf.raiiSets.sets.length ≤ cf'.raiiSets.sets.length

theorem TablesGrown.refl (cf : ControlFlowIndex) : TablesGrown cf cf :=
  ⟨rfl, Nat.le_refl _, Nat.le_refl _, Nat.le_refl _⟩

theorem TablesGrown.trans {cf cf' cf'' : ControlFlowIndex} (h : TablesGrown cf cf')
    (h' : TablesGrown cf' cf'') : TablesGrown cf cf'' :=
  ⟨h'.interner.trans h.interner, Nat.le_trans h.scopeSets h'.scopeSets,
    Nat.le_trans h.guardSets h'.guardSets, Nat.le_trans h.raiiSets h'.raiiSets⟩

theorem SetsBelow.mono {cf' : ControlFlowIndex} (hgrown : TablesGrown cf cf') {se : StoredContext}
    (h : SetsBelow cf se) : SetsBelow cf' se :=
  ⟨Nat.lt_of_lt_of_le h.scopeSet hgrown.scopeSets, Nat.lt_of_lt_of_le h.guardSet hgrown.guardSets,
    Nat.lt_of_lt_of_le h.raiiSet hgrown.raiiSets⟩

theorem InRange.internScopeSet (h : cf.InRange) (scopes : List TryCatchScope) :
    (cf.internScopeSet scopes).1.InRange ∧ TablesGrown cf (cf.internScopeSet scopes).1 ∧
      (cf.internScopeSet scopes).2 < (cf.internScopeSet scopes).1.scopeSets.sets.length := by
  obtain ⟨htable, hid, hle, -⟩ := h.scopeSets.intern (scopeSetKey scopes) scopes
  have hgrown : TablesGrown cf (cf.internScopeSet scopes).1 :=
    ⟨rfl, hle, Nat.le_refl _, Nat.le_refl _⟩
  exact ⟨{ h with scopeSets := htable, sets := fun se hse => (h.sets se hse).mono hgrown },
    hgrown, hid⟩

theorem InRange.internGuardSet (h : cf.InRange) (guards : List ConditionalGuard) :
    (cf.internGuardSet guards).1.InRange ∧ TablesGrown cf (cf.internGuardSet guards).1 ∧
      (cf.internGuardSet guards).2 < (cf.internGuardSet guards).1.guardSets.sets.length := by
  obtain ⟨htable, hid, hle, -⟩ := h.guardSets.intern (guardSetKey guards) guards
  have hgrown : TablesGrown cf (cf.internGuardSet guards).1 :=
    ⟨rfl, Nat.le_refl _, hle, Nat.le_refl _⟩
  exact ⟨{ h with guardSets := htable, sets := fun se hse => (h.sets se hse).mono hgrown },
    hgrown, hid⟩

theorem InRange.internRaiiSet (h : cf.InRange) {locals : List StoredRaiiLocal}
    (hlocals : ∀ l ∈ locals, LocalBelow cf.interner.size l) :
    (cf.internRaiiSet locals).1.InRange ∧ TablesGrown cf (cf.internRaiiSet locals).1 ∧
      (cf.internRaiiSet locals).2 < (cf.internRaiiSet locals).1.raiiSets.sets.length := by
  obtain ⟨htable, hid, hle, hsets⟩ := h.raiiSets.intern (raiiSetKey locals) locals
  have hgrown : TablesGrown cf (cf.internRaiiSet locals).1 :=
    ⟨rfl, Nat.le_refl _, Nat.le_refl _, hle⟩
  refine ⟨{ h with raiiSets := htable, locals := ?_
                   sets := fun se hse => (h.sets se hse).mono hgrown }, hgrown, hid⟩
  intro set hset l hl
  rcases hsets set hset with hset | rfl
  · exact h.locals set hset l hl
  · exact hlocals l hl

theorem InRange.addCallSiteContext (h : cf.InRange) (ctx : CallSiteContext) :
    (cf.addCallSiteContext ctx).InRange := by
  obtain ⟨t, heq, hpre, hmem⟩ := internAll_grown (stringsOf ctx) cf
  have h₁ : (cf.internAll (stringsOf ctx)).InRange := by
    rw [heq]
    exact h.grow (StringInterner.size_le_of_grown hpre)
  have hlt : ∀ s ∈ stringsOf ctx, (cf.internAll (stringsOf ctx)).interner.idOf s
      < (cf.internAll (stringsOf ctx)).interner.size := by
    intro s hs
    rw [heq]
    exact StringInterner.idOf_lt.mpr (hmem s hs)
  unfold ControlFlowIndex.addCallSiteContext
  dsimp only
  generalize cf.internAll (stringsOf ctx) = cf₁ at h₁ hlt ⊢
  have hcallee : cf₁.interner.idOf ctx.calleeName < cf₁.interner.size :=
    hlt _ (by simp [stringsOf])
  have hcaller : cf₁.interner.idOf ctx.callerName < cf₁.interner.size :=
    hlt _ (by simp [stringsOf])
  obtain ⟨h₂, hg₂, hscope⟩ := h₁.internScopeSet ctx.enclosingTryCatches
  obtain ⟨h₃, hg₃, hguard⟩ := h₂.internGuardSet ctx.enclosingGuards
  have hlocals : ∀ l ∈ storeLocals cf₁.interner ctx.liveRaiiLocals,
      LocalBelow cf₁.interner.size l := by
    intro l hl
    obtain ⟨l', hl', rfl⟩ := List.mem_map.mp hl
    have hin : ∀ s ∈ [l'.typeName, l'.varName, l'.declLocation], s ∈ stringsOf ctx := by
      intro s hs
      refine List.mem_append_right _ ?_
      exact List.mem_flatMap.mpr ⟨l', hl', hs⟩
    exact ⟨hlt _ (hin _ (by simp)), hlt _ (hin _ (by simp)), hlt _ (hin _ (by simp))⟩
  rw [← hg₂.interner, ← hg₃.interner] at hlocals
  obtain ⟨h₄, hg₄, hraii⟩ := h₃.internRaiiSet hlocals
  refine h₄.insertStored ?_ ?_
  · rw [hg₄.interner, hg₃.interner, hg₂.interner]
    refine ⟨?_, ?_, hcaller, hcallee, hlt _ (by simp [stringsOf]), ?_⟩
    · show (if ctx.callerUsr = [] then _ else _) < _
      split
      · exact hcaller
      · rename_i husr
        exact hlt _ (by simp [stringsOf, husr])
    · show (if ctx.calleeUsr = [] then _ else _) < _
      split
      · exact hcallee
      · rename_i husr
        exact hlt _ (by simp [stringsOf, husr])
    · intro tu htu
      have htu' : (if ctx.tuPath = [] then none else some (cf₁.interner.idOf ctx.tuPath))
          = some tu := htu
      split at htu'
      · simp at htu'
      · rename_i hpath
        injection htu' with htu'
        rw [← htu']
        exact hlt _ (by simp [stringsOf, hpath])
  · exact ⟨Nat.lt_of_lt_of_le hscope (Nat.le_trans hg₃.scopeSets hg₄.scopeSets),
      Nat.lt_of_lt_of_le hguard hg₄.guardSets, hraii⟩

/-! ### Merging -/

/-- Interning the sets of a shard: every one of them gets an entry of the grown table. -/
theorem InRange.absorbSets {α : Type}
    {internSet : ControlFlowIndex → List α → ControlFlowIndex × Nat}
    (len : ControlFlowIndex → Nat)
    (hlen : ∀ {cf cf' : ControlFlowIndex}, TablesGrown cf cf' → len cf ≤ len cf')
    (hpos : 0 < len cf) (sets : List (List α))
    (hintern : ∀ set ∈ sets, ∀ cf', cf'.InRange → TablesGrown cf cf' →
      (internSet cf' set).1.InRange ∧ TablesGrown cf' (internSet cf' set).1 ∧
        (internSet cf' set).2 < len (internSet cf' set).1)
    (h : cf.InRange) :
    (ControlFlowIndex.absorbSets internSet cf sets).1.InRange ∧
      TablesGrown cf (ControlFlowIndex.absorbSets internSet cf sets).1 ∧
      ∀ i, (ControlFlowIndex.absorbSets internSet cf sets).2.getD i 0
        < len (ControlFlowIndex.absorbSets internSet cf sets).1 := by
  have hfold := List.foldlRecOn (motive := fun st : ControlFlowIndex × List Nat =>
      st.1.InRange ∧ TablesGrown cf st.1 ∧ ∀ id ∈ st.2, id < len st.1) (sets.drop 1)
    (fun st set => let r := internSet st.1 set; (r.1, st.2 ++ [r.2])) (b := (cf, [0]))
    ⟨h, TablesGrown.refl cf, fun id hid => by rw [List.mem_singleton.mp hid]; exact hpos⟩ ?_
  · refine ⟨hfold.1, hfold.2.1, ?_⟩
    intro i
    rw [List.getD_eq_getElem?_getD]
    cases hi : (ControlFlowIndex.absorbSets internSet cf sets).2[i]? with
    | none => exact Nat.lt_of_lt_of_le hpos (hlen hfold.2.1)
    | some id => exact hfold.2.2 id (List.mem_of_getElem? hi)
  · rintro ⟨cf', ids⟩ ⟨hcf', hgrown, hids⟩ set hset
    obtain ⟨h₁, h₂, h₃⟩ := hintern set (List.mem_of_mem_drop hset) cf' hcf' hgrown
    refine ⟨h₁, hgrown.trans h₂, ?_⟩
    intro id hid
    rcases List.mem_append.mp hid with hid | hid
    · exact Nat.lt_of_lt_of_le (hids id hid) (hlen h₂)
    · rw [List.mem_singleton.mp hid]
      exact h₃

/-- **Merging an in-range index keeps the index in range.** -/
theorem InRange.absorb (h : cf.InRange) {shard : ControlFlowIndex} (hshard : shard.InRange) :
    (cf.absorb shard).InRange := by
  obtain ⟨t, heq, hpre, hmem⟩ := internAll_grown shard.interner.strings cf
  have h₀ : (cf.internAll shard.interner.strings).InRange := by
    rw [heq]
    exact h.grow (StringInterner.size_le_of_grown hpre)
  have hremap : ∀ i, i < shard.interner.size →
      (cf.internAll shard.interner.strings).interner.idOf (shard.interner.resolve i)
        < (cf.internAll shard.interner.strings).interner.size := by
    intro i hi
    rw [heq]
    exact StringInterner.idOf_lt.mpr (hmem _ (StringInterner.resolve_mem hi))
  unfold ControlFlowIndex.absorb
  dsimp only
  generalize cf.internAll shard.interner.strings = cf₀ at h₀ hremap ⊢
  generalize hr : (fun id => cf₀.interner.idOf (shard.interner.resolve id)) = remap
  have hremap' : ∀ i, i < shard.interner.size → remap i < cf₀.interner.size := by
    rw [← hr]
    exact hremap
  obtain ⟨h₁, hg₁, hscope⟩ := InRange.absorbSets (fun cf => cf.scopeSets.sets.length)
    TablesGrown.scopeSets h₀.scopeSets.pos shard.scopeSets.sets
    (fun set _ cf' hcf' _ => hcf'.internScopeSet set) h₀
  generalize ControlFlowIndex.absorbSets ControlFlowIndex.internScopeSet cf₀ shard.scopeSets.sets = r₁
    at h₁ hg₁ hscope ⊢
  obtain ⟨h₂, hg₂, hguard⟩ := InRange.absorbSets (fun cf => cf.guardSets.sets.length)
    TablesGrown.guardSets h₁.guardSets.pos shard.guardSets.sets
    (fun set _ cf' hcf' _ => hcf'.internGuardSet set) h₁
  generalize ControlFlowIndex.absorbSets ControlFlowIndex.internGuardSet r₁.1 shard.guardSets.sets = r₂
    at h₂ hg₂ hguard ⊢
  have hlocals : ∀ set ∈ shard.raiiSets.sets, ∀ cf', cf'.InRange → TablesGrown r₂.1 cf' →
      ∀ l ∈ set.map (remapLocal remap), LocalBelow cf'.interner.size l := by
    intro set hset cf' _ hgrown l hl
    obtain ⟨l', hl', rfl⟩ := List.mem_map.mp hl
    obtain ⟨ht, hv, hd⟩ := hshard.locals set hset l' hl'
    rw [hgrown.interner, hg₂.interner, hg₁.interner]
    exact ⟨hremap' _ ht, hremap' _ hv, hremap' _ hd⟩
  obtain ⟨h₃, hg₃, hraii⟩ := InRange.absorbSets (fun cf => cf.raiiSets.sets.length)
    TablesGrown.raiiSets h₂.raiiSets.pos shard.raiiSets.sets
    (fun set hset cf' hcf' hgrown => hcf'.internRaiiSet (hlocals set hset cf' hcf' hgrown)) h₂
  generalize ControlFlowIndex.absorbSets
    (fun cf locals => cf.internRaiiSet (locals.map (remapLocal remap))) r₂.1
    shard.raiiSets.sets = r₃ at h₃ hg₃ hraii ⊢
  have hfold := List.foldlRecOn (motive := fun cf' : ControlFlowIndex =>
      cf'.InRange ∧ TablesGrown r₃.1 cf') (shard.contexts.filter (·.live))
    (fun cf se => cf.insertStored
      { se with
        caller := remap se.caller, callee := remap se.callee
        callerDisplay := remap se.callerDisplay, calleeDisplay := remap se.calleeDisplay
        site := remap se.site, tuPath := se.tuPath.map remap
        scopeSet := r₁.2.getD se.scopeSet 0, guardSet := r₂.2.getD se.guardSet 0
        raiiSet := r₃.2.getD se.raiiSet 0 })
    (b := r₃.1) ⟨h₃, TablesGrown.refl _⟩ ?_
  · subst hr
    exact hfold.1
  · rintro cf' ⟨hcf', hgrown⟩ se hse
    have hids := hshard.ids se (List.mem_of_mem_filter hse)
    have hint : cf'.interner = cf₀.interner :=
      hgrown.interner.trans (hg₃.interner.trans (hg₂.interner.trans hg₁.interner))
    refine ⟨hcf'.insertStored ?_ ?_, hgrown.trans ⟨rfl, Nat.le_refl _, Nat.le_refl _, Nat.le_refl _⟩⟩
    · rw [hint]
      refine ⟨hremap' _ hids.caller, hremap' _ hids.callee, hremap' _ hids.callerDisplay,
        hremap' _ hids.calleeDisplay, hremap' _ hids.site, ?_⟩
      intro tu htu
      obtain ⟨tu', htu', rfl⟩ := Option.map_eq_some_iff.mp htu
      exact hremap' _ (hids.tuPath tu' htu')
    · exact ⟨Nat.lt_of_lt_of_le (hscope _)
          (Nat.le_trans hg₂.scopeSets (Nat.le_trans hg₃.scopeSets hgrown.scopeSets)),
        Nat.lt_of_lt_of_le (hguard _) (Nat.le_trans hg₃.guardSets hgrown.guardSets),
        Nat.lt_of_lt_of_le (hraii _) hgrown.raiiSets⟩

/-! ### Removal and compacting -/

/-- The contexts of a removal are those of the index, live or not, and so are the dead. -/
structure Removal.InRange (cf : ControlFlowIndex) (r : Removal) : Prop where
  length : r.contexts.length = cf.contexts.length
  ids : ∀ se ∈ r.contexts, IdsBelow cf.interner.size se
  sets : ∀ se ∈ r.contexts, SetsBelow cf se
  dead : ∀ se ∈ r.dead, IdsBelow cf.interner.size se

theorem Removal.InRange.removeCandidate {r : Removal} (h : r.InRange cf) (tuPaths : List Str)
    (candidate : Nat × Bool) : (cf.removeCandidate tuPaths r candidate).InRange cf := by
  unfold ControlFlowIndex.removeCandidate
  split
  · exact h
  · rename_i se hse
    have hmem := List.mem_of_getElem? hse
    have hids := h.ids se hmem
    have hsets := h.sets se hmem
    split
    · exact h
    · split
      · exact h
      · refine ⟨List.length_set.trans h.length, ?_, ?_, ?_⟩
        · intro x hx
          rcases List.mem_or_eq_of_mem_set hx with hx | rfl
          · exact h.ids x hx
          · exact ⟨hids.caller, hids.callee, hids.callerDisplay, hids.calleeDisplay, hids.site,
              hids.tuPath⟩
        · intro x hx
          rcases List.mem_or_eq_of_mem_set hx with hx | rfl
          · exact h.sets x hx
          · exact ⟨hsets.scopeSet, hsets.guardSet, hsets.raiiSet⟩
        · intro x hx
          rcases List.mem_append.mp hx with hx | hx
          · exact h.dead x hx
          · rw [List.mem_singleton.mp hx]
            exact hids

theorem PosLists.scrub {n k : Nat} {m : UMap SId (List Nat)} (h : PosLists n k m)
    (dead : List Nat) {affected : List SId} (haffected : ∀ c ∈ affected, c < n) :
    PosLists n k (ControlFlowIndex.scrub m affected dead) := by
  refine List.foldlRecOn affected _ h ?_
  intro m hm c hc
  exact hm.upsert (haffected c hc) fun l hl i hi => hl i (List.mem_of_mem_filter hi)

theorem PosLists.scrubSite {n k : Nat} {m : UMap SId (List Nat)} (h : PosLists n k m)
    (affected : List SId) (dead : List Nat) :
    PosLists n k (ControlFlowIndex.scrubSite m affected dead) := by
  refine List.foldlRecOn affected _ h ?_
  intro m hm c _
  split
  · exact hm
  · rename_i v hl
    obtain ⟨hk, hv⟩ := hm c v hl
    dsimp only
    split
    · exact hm.erase c
    · exact hm.insert hk fun i hi => hv i (List.mem_of_mem_filter hi)

theorem InRange.removeTUs (h : cf.InRange) (tuPaths : List Str) :
    (cf.removeTUs tuPaths).1.InRange := by
  unfold ControlFlowIndex.removeTUs
  dsimp only
  generalize (((tuPaths.filterMap cf.interner.find).flatMap (cf.byTu.getD · [])).map (·, true)
    ++ cf.noProvenance.map (·, false)) = candidates
  have hr : (candidates.foldl (cf.removeCandidate tuPaths) { contexts := cf.contexts }).InRange
      cf :=
    List.foldlRecOn _ _ ⟨rfl, h.ids, h.sets, fun _ hse => absurd hse List.not_mem_nil⟩
      fun r hr c _ => hr.removeCandidate tuPaths c
  generalize candidates.foldl (cf.removeCandidate tuPaths) { contexts := cf.contexts } = r
    at hr ⊢
  have hdead {f : StoredContext → SId} (hf : ∀ se, IdsBelow cf.interner.size se →
      f se < cf.interner.size) : ∀ c ∈ r.dead.map f, c < cf.interner.size := by
    intro c hc
    obtain ⟨se, hse, rfl⟩ := List.mem_map.mp hc
    exact hf se (hr.dead se hse)
  have hdisplay {f : StoredContext → SId} (p : StoredContext → Bool)
      (hf : ∀ se, IdsBelow cf.interner.size se → f se < cf.interner.size) :
      ∀ c ∈ (r.dead.filter p).map f, c < cf.interner.size := by
    intro c hc
    obtain ⟨se, hse, rfl⟩ := List.mem_map.mp hc
    exact hf se (hr.dead se (List.mem_of_mem_filter hse))
  exact
    { ids := hr.ids
      sets := fun se hse =>
        ⟨(hr.sets se hse).scopeSet, (hr.sets se hse).guardSet, (hr.sets se hse).raiiSet⟩
      scopeSets := h.scopeSets
      guardSets := h.guardSets
      raiiSets := h.raiiSets
      locals := h.locals
      byCallee := hr.length ▸ PosLists.scrub h.byCallee _ (hdead fun _ hse => hse.callee)
      byCaller := hr.length ▸ PosLists.scrub h.byCaller _ (hdead fun _ hse => hse.caller)
      byCalleeDisplay := hr.length ▸ PosLists.scrub h.byCalleeDisplay _
        (hdisplay _ fun _ hse => hse.calleeDisplay)
      byCallerDisplay := hr.length ▸ PosLists.scrub h.byCallerDisplay _
        (hdisplay _ fun _ hse => hse.callerDisplay)
      bySite := hr.length ▸ PosLists.scrubSite h.bySite _ _
      byTu := by
        show PosLists _ r.contexts.length (if _ then _ else _)
        rw [hr.length]
        split
        · exact h.byTu
        · exact h.byTu.eraseAll _
      noProvenance := by
        intro i hi
        have hi' : i ∈ if r.deadIdxs = [] then cf.noProvenance
          else cf.noProvenance.filter (· ∉ r.deadIdxs) := hi
        show i < r.contexts.length
        rw [hr.length]
        split at hi'
        · exact h.noProvenance i hi'
        · exact h.noProvenance i (List.mem_of_mem_filter hi') }

theorem InRange.compact (h : cf.InRange) : cf.compact.InRange := by
  have hstart : InRange { interner := cf.interner, scopeSets := cf.scopeSets
                          guardSets := cf.guardSets, raiiSets := cf.raiiSets } :=
    inRange_tables h.scopeSets h.guardSets h.raiiSets h.locals
  have hfold := List.foldlRecOn (motive := fun cf' : ControlFlowIndex =>
      cf'.InRange ∧ TablesGrown cf cf') (cf.contexts.filter (·.live)) ControlFlowIndex.insertStored
    ⟨hstart, rfl, Nat.le_refl _, Nat.le_refl _, Nat.le_refl _⟩ ?_
  · exact { hfold.1 with sets := fun se hse =>
      ⟨(hfold.1.sets se hse).scopeSet, (hfold.1.sets se hse).guardSet,
        (hfold.1.sets se hse).raiiSet⟩ }
  · rintro cf' ⟨hcf', hgrown⟩ se hse
    have hmem := List.mem_of_mem_filter hse
    refine ⟨hcf'.insertStored ?_ ((h.sets se hmem).mono hgrown),
      hgrown.trans ⟨rfl, Nat.le_refl _, Nat.le_refl _, Nat.le_refl _⟩⟩
    rw [hgrown.interner]
    exact h.ids se hmem

/-! ### Runs -/

/-- What the mutators can make of an index.  The indexes it absorbs are in range. -/
inductive Later (cf : ControlFlowIndex) : ControlFlowIndex → Prop
  | start : Later cf cf
  | add {cf' : ControlFlowIndex} (ctx : CallSiteContext) :
      Later cf cf' → Later cf (cf'.addCallSiteContext ctx)
  | absorb {cf' shard : ControlFlowIndex} :
      Later cf cf' → shard.InRange → Later cf (cf'.absorb shard)
  | removeTUs {cf' : ControlFlowIndex} (tuPaths : List Str) :
      Later cf cf' → Later cf (cf'.removeTUs tuPaths).1
  | compact {cf' : ControlFlowIndex} : Later cf cf' → Later cf cf'.compact

/-- **An index that is in range stays in range.** -/
theorem InRange.later (h : cf.InRange) {cf' : ControlFlowIndex} (hcf' : Later cf cf') :
    cf'.InRange := by
  induction hcf' with
  | start => exact h
  | add ctx _ ih => exact ih.addCallSiteContext ctx
  | absorb _ hshard ih => exact ih.absorb hshard
  | removeTUs tuPaths _ ih => exact ih.removeTUs tuPaths
  | compact _ ih => exact ih.compact

end ControlFlowIndex

/-! ### The channel index

The same for the sites, which refer to no table.
-/

namespace ChannelIndex

variable {ch : ChannelIndex}

/-- The listed elements are positions below `k`. -/
abbrev Positions (k : Nat) (m : UMap Str (List Nat)) : Prop := Lists (fun _ => True) (· < k) m

/-- No position points outside the sites. -/
structure InRange (ch : ChannelIndex) : Prop where
  indexed : ∀ k i, ch.index.lookup k = some i → i < ch.sites.length
  byChannel : Positions ch.sites.length ch.byChannel
  byFunctionUsr : Positions ch.sites.length ch.byFunctionUsr
  byFunctionDisplay : Positions ch.sites.length ch.byFunctionDisplay
  byTu : Positions ch.sites.length ch.byTu

theorem inRange_empty : InRange {} :=
  ⟨fun k i h => by simp at h, Lists.empty, Lists.empty, Lists.empty, Lists.empty⟩

theorem Positions.mono {k k' : Nat} (h : k ≤ k') {m : UMap Str (List Nat)} (hm : Positions k m) :
    Positions k' m :=
  Lists.mono hm (fun _ hk => hk) fun _ hi => Nat.lt_of_lt_of_le hi h

theorem Positions.pushAt {k : Nat} {m : UMap Str (List Nat)} (h : Positions k m) (key : Str)
    {i : Nat} (hi : i < k) : Positions k (ChannelIndex.pushAt m key i) :=
  Lists.push h trivial hi

/-- Sites at the same positions. -/
theorem InRange.withSites (h : ch.InRange) {sites : List StoredSite}
    (hlen : sites.length = ch.sites.length) : InRange { ch with sites } :=
  ⟨hlen.symm ▸ h.indexed, hlen.symm ▸ h.byChannel, hlen.symm ▸ h.byFunctionUsr,
    hlen.symm ▸ h.byFunctionDisplay, hlen.symm ▸ h.byTu⟩

theorem length_appendSite (ch : ChannelIndex) (site : ChannelSite) (refs : Nat) :
    (ch.appendSite site refs).sites.length = ch.sites.length + 1 := by
  simp [appendSite]

theorem InRange.appendSite (h : ch.InRange) (site : ChannelSite) (refs : Nat) :
    (ch.appendSite site refs).InRange := by
  have hlen := length_appendSite ch site refs
  have hle : ch.sites.length ≤ ch.sites.length + 1 := Nat.le_succ _
  have hpush {m : UMap Str (List Nat)} (hm : Positions ch.sites.length m) (key : Str) :
      Positions (ch.sites.length + 1) (ChannelIndex.pushAt m key ch.sites.length) :=
    Positions.pushAt (Positions.mono hle hm) key (Nat.lt_succ_self _)
  refine ⟨?_, hlen ▸ hpush h.byChannel _, hlen ▸ hpush h.byFunctionUsr _, hlen ▸ ?_,
    hlen ▸ Positions.mono hle h.byTu⟩
  · intro k i hi
    rw [hlen]
    exact lt_of_lookup_emplace (fun k i hk => Nat.lt_succ_of_lt (h.indexed k i hk))
      (Nat.lt_succ_self _) _ hi
  · show Positions _ (if _ then _ else _)
    split
    · exact hpush h.byFunctionDisplay _
    · exact Positions.mono hle h.byFunctionDisplay

theorem InRange.storeSite (h : ch.InRange) (site : ChannelSite) : (ch.storeSite site).InRange := by
  unfold ChannelIndex.storeSite
  split
  · exact h.withSites (List.length_modify _ _ _)
  · exact h.appendSite site 1

/-- After a store the key's position is one of the sites'. -/
theorem InRange.sitePos_lt (h : ch.InRange) (site : ChannelSite) :
    ch.sitePos site.key < (ch.storeSite site).sites.length := by
  unfold sitePos ChannelIndex.storeSite
  cases hl : ch.index.lookup site.key with
  | none =>
      show ch.sites.length < (ch.appendSite site 1).sites.length
      rw [length_appendSite]
      exact Nat.lt_succ_self _
  | some idx =>
      show idx < (ch.sites.modify idx _).length
      rw [List.length_modify]
      exact h.indexed _ idx hl

theorem InRange.addSite (h : ch.InRange) (site : ChannelSite) : (ch.addSite site).InRange := by
  have hstored := h.storeSite site
  unfold ChannelIndex.addSite
  dsimp only
  split
  · exact { hstored with byTu := Positions.pushAt hstored.byTu _ (h.sitePos_lt site) }
  · exact hstored

/-- Merging adds sites, so nothing is asked of the shard. -/
theorem InRange.absorb (h : ch.InRange) (shard : ChannelIndex) : (ch.absorb shard).InRange := by
  refine List.foldlRecOn _ _ h ?_
  intro ch hch stored _
  exact List.foldlRecOn _ _ hch fun ch hch site _ => hch.addSite site

theorem Release.InRange.releaseSite {r : Release} (h : r.ch.InRange) (idx : Nat) :
    (releaseSite r idx).ch.InRange := by
  unfold ChannelIndex.releaseSite
  split
  · exact h
  · rename_i se _
    split
    · exact h
    · split
      · exact h.withSites List.length_set
      · have hlen : (r.ch.sites.set idx { se with refs := se.refs - 1, live := false }).length
            = r.ch.sites.length := List.length_set
        have hset := h.withSites hlen
        refine { hset with indexed := ?_ }
        intro k i hi
        have hi' : AList.lookup k (AList.erase se.site.key r.ch.index) = some i := hi
        rw [lookup_erase_ite] at hi'
        split at hi'
        · simp at hi'
        · exact hset.indexed k i hi'

theorem Release.InRange.releaseTU {r : Release} (h : r.ch.InRange) (tuPath : Str) :
    (releaseTU r tuPath).ch.InRange := by
  unfold ChannelIndex.releaseTU
  split
  · exact h
  · rename_i idxs _
    have h' : (idxs.foldl ChannelIndex.releaseSite r).ch.InRange :=
      List.foldlRecOn (motive := fun r : Release => r.ch.InRange) idxs _ h
        fun r hr i _ => Release.InRange.releaseSite hr i
    exact { h' with byTu := h'.byTu.erase tuPath }

theorem Positions.scrub {k : Nat} {m : UMap Str (List Nat)} (h : Positions k m)
    (affected : List Str) (dead : List Nat) :
    Positions k (ChannelIndex.scrub m affected dead) := by
  refine List.foldlRecOn affected _ h ?_
  intro m hm c _
  split
  · exact hm
  · rename_i v hl
    dsimp only
    split
    · exact hm.erase c
    · exact hm.insert trivial fun i hi => (hm c v hl).2 i (List.mem_of_mem_filter hi)

theorem InRange.removeTUs (h : ch.InRange) (tuPaths : List Str) :
    (ch.removeTUs tuPaths).1.InRange := by
  have hr : (tuPaths.foldl ChannelIndex.releaseTU { ch }).ch.InRange :=
    List.foldlRecOn (motive := fun r : Release => r.ch.InRange) tuPaths _ h
      fun r hr t _ => Release.InRange.releaseTU hr t
  unfold ChannelIndex.removeTUs
  generalize tuPaths.foldl ChannelIndex.releaseTU { ch } = r at hr
  exact
    { hr with
      byChannel := Positions.scrub hr.byChannel _ _
      byFunctionUsr := Positions.scrub hr.byFunctionUsr _ _
      byFunctionDisplay := Positions.scrub hr.byFunctionDisplay _ _ }

/-- The new positions are positions of the live sites. -/
theorem oldToNew_lt (sites : List StoredSite) (i j : Nat)
    (h : (oldToNew sites).getD i none = some j) : j < (sites.filter (·.live)).length := by
  have hinv : ∀ pre : List StoredSite,
      (pre.foldl (fun st se => if se.live then (st.1 ++ [some st.2], st.2 + 1)
          else (st.1 ++ [none], st.2)) (([] : List (Option Nat)), 0)).2
        = (pre.filter (·.live)).length ∧
      ∀ i j, (oldToNew pre).getD i none = some j → j < (pre.filter (·.live)).length := by
    intro pre
    unfold oldToNew
    induction pre using List.reverseRecOn with
    | nil => exact ⟨rfl, fun i j hij => by simp at hij⟩
    | append_singleton pre se ih =>
        obtain ⟨hcount, hlt⟩ := ih
        rw [List.foldl_append, List.foldl_cons, List.foldl_nil, List.filter_append,
          List.length_append]
        cases hlive : se.live with
        | false =>
            rw [if_neg (by simp), List.filter_cons_of_neg (by simp [hlive])]
            refine ⟨hcount, ?_⟩
            intro i j hij
            rcases (CallGraph.getElem?_concat _ _ _ _).mp (CallGraph.moved_iff.mp hij)
              with hij | ⟨-, hj⟩
            · exact hlt i j (CallGraph.moved_iff.mpr hij)
            · simp at hj
        | true =>
            rw [if_pos rfl, List.filter_cons_of_pos (by simp [hlive])]
            refine ⟨by rw [hcount]; rfl, ?_⟩
            intro i j hij
            show j < (pre.filter (·.live)).length + 1
            rcases (CallGraph.getElem?_concat _ _ _ _).mp (CallGraph.moved_iff.mp hij)
              with hij | ⟨-, hj⟩
            · exact Nat.lt_succ_of_lt (hlt i j (CallGraph.moved_iff.mpr hij))
            · injection hj with hj
              omega
  exact (hinv sites).2 i j h

theorem Positions.remapInto {k k' : Nat} {m : UMap Str (List Nat)} (h : Positions k m)
    {newOf : List (Option Nat)} (hnew : ∀ i j, newOf.getD i none = some j → j < k') :
    Positions k' (ChannelIndex.remapInto newOf m) :=
  Lists.moved h hnew

theorem InRange.compact (h : ch.InRange) : ch.compact.InRange := by
  have hnew := oldToNew_lt ch.sites
  refine ⟨?_, Positions.remapInto h.byChannel hnew, Positions.remapInto h.byFunctionUsr hnew,
    Positions.remapInto h.byFunctionDisplay hnew, Positions.remapInto h.byTu hnew⟩
  intro k j hj
  have hj' : (UMap.filterMapVals (fun idx => (oldToNew ch.sites).getD idx none) ch.index).lookup k
      = some j := hj
  rw [lookup_filterMapVals] at hj'
  obtain ⟨i, -, hij⟩ := Option.bind_eq_some_iff.mp hj'
  exact hnew i j hij

/-- What the mutators can make of an index. -/
inductive Later (ch : ChannelIndex) : ChannelIndex → Prop
  | start : Later ch ch
  | add {ch' : ChannelIndex} (site : ChannelSite) : Later ch ch' → Later ch (ch'.addSite site)
  | absorb {ch' : ChannelIndex} (shard : ChannelIndex) : Later ch ch' → Later ch (ch'.absorb shard)
  | removeTUs {ch' : ChannelIndex} (tuPaths : List Str) :
      Later ch ch' → Later ch (ch'.removeTUs tuPaths).1
  | compact {ch' : ChannelIndex} : Later ch ch' → Later ch ch'.compact

/-- **An index that is in range stays in range.** -/
theorem InRange.later (h : ch.InRange) {ch' : ChannelIndex} (hch' : Later ch ch') :
    ch'.InRange := by
  induction hch' with
  | start => exact h
  | add site _ ih => exact ih.addSite site
  | absorb shard _ ih => exact ih.absorb shard
  | removeTUs tuPaths _ ih => exact ih.removeTUs tuPaths
  | compact _ ih => exact ih.compact

end ChannelIndex

end Vycor
