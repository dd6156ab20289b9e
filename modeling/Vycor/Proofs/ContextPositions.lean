/-
The six maps of the control-flow index list exactly its live contexts.

`Filed` is the invariant: under every key the live contexts with that key, in the order in
which they were inserted, and no entry of the site map or the TU map is empty.  A usr or
display entry may be empty, since a removal scrubs these in place.  Appending a context,
removing TUs and compacting keep it, and from it a removal has a closed form: the contexts
that go are the live ones whose TU is one of those given, or that have none and whose site
is spelled in one of them.
-/
import Vycor.Lib.Postings
import Vycor.Proofs.IndexRange

namespace Vycor

open UMap Postings

namespace ControlFlowIndex

variable {cf : ControlFlowIndex} {tuPaths : List Str}

/-! ### What a map lists -/

/-- The live contexts that satisfy a predicate. -/
def held (p : StoredContext → Bool) (se : StoredContext) : Bool := se.live && p se

/-- Live, with that callee. -/
def atCallee (k : SId) : StoredContext → Bool := held fun se => se.callee = k

/-- Live, with that caller. -/
def atCaller (k : SId) : StoredContext → Bool := held fun se => se.caller = k

/-- Live, at that site. -/
def atSite (k : SId) : StoredContext → Bool := held fun se => se.site = k

/-- Live, and of that TU. -/
def atTu (k : SId) : StoredContext → Bool := held fun se => se.tuPath = some k

/-- The display maps list the contexts whose display name is not the usr. -/
def atCalleeDisplay (k : SId) : StoredContext → Bool :=
  held fun se => se.calleeDisplay ≠ se.callee && se.calleeDisplay = k

/-- Live, with that display name for its caller, where it is not the caller itself. -/
def atCallerDisplay (k : SId) : StoredContext → Bool :=
  held fun se => se.callerDisplay ≠ se.caller && se.callerDisplay = k

theorem displayed_iff {display usr : StoredContext → SId} {k : SId} {se : StoredContext} :
    held (fun se => display se ≠ usr se && display se = k) se = true
      ↔ se.live = true ∧ decide (display se ≠ usr se) = true ∧ display se = k := by
  simp [held]

/-- The lists of positions stand for the stored contexts. -/
structure Filed (cf : ControlFlowIndex) : Prop where
  byCallee : Files cf.contexts atCallee cf.byCallee
  byCaller : Files cf.contexts atCaller cf.byCaller
  byCalleeDisplay : Files cf.contexts atCalleeDisplay cf.byCalleeDisplay
  byCallerDisplay : Files cf.contexts atCallerDisplay cf.byCallerDisplay
  bySite : Files cf.contexts atSite cf.bySite
  byTu : Files cf.contexts atTu cf.byTu
  noProvenance : cf.noProvenance = positions cf.contexts (held fun se => se.tuPath = none)
  sites : NoneEmpty cf.bySite
  tus : NoneEmpty cf.byTu
  liveCount : cf.liveCount = (cf.contexts.filter (·.live)).length

theorem filed_tables (t : StringInterner) (scopeSets : SetTable TryCatchScope)
    (guardSets : SetTable ConditionalGuard) (raiiSets : SetTable StoredRaiiLocal) :
    Filed { interner := t, scopeSets, guardSets, raiiSets } :=
  ⟨files_empty _, files_empty _, files_empty _, files_empty _, files_empty _, files_empty _, rfl,
    noneEmpty_empty, noneEmpty_empty, rfl⟩

/-- The tables do not take part. -/
theorem Filed.retable (h : cf.Filed) (t : StringInterner) (scopeSets : SetTable TryCatchScope)
    (guardSets : SetTable ConditionalGuard) (raiiSets : SetTable StoredRaiiLocal) :
    Filed { cf with interner := t, scopeSets := scopeSets, guardSets := guardSets
                    raiiSets := raiiSets } :=
  ⟨h.byCallee, h.byCaller, h.byCalleeDisplay, h.byCallerDisplay, h.bySite, h.byTu,
    h.noProvenance, h.sites, h.tus, h.liveCount⟩

theorem Filed.insertStored (h : cf.Filed) (se : StoredContext) : (cf.insertStored se).Filed := by
  refine
    { byCallee := h.byCallee.push fun k => by simp [atCallee, held, eq_comm]
      byCaller := h.byCaller.push fun k => by simp [atCaller, held, eq_comm]
      byCalleeDisplay := ?_
      byCallerDisplay := ?_
      bySite := h.bySite.push fun k => by simp [atSite, held, eq_comm]
      byTu := ?_
      noProvenance := ?_
      sites := h.sites.push _ _
      tus := ?_
      liveCount := ?_ }
  · show Files _ _ (if _ then _ else _)
    split
    · rename_i hne
      exact h.byCalleeDisplay.push fun k => by simp [atCalleeDisplay, held, hne, eq_comm]
    · rename_i heq
      exact h.byCalleeDisplay.skip fun k => by simp [atCalleeDisplay, held] at heq ⊢; simp [heq]
  · show Files _ _ (if _ then _ else _)
    split
    · rename_i hne
      exact h.byCallerDisplay.push fun k => by simp [atCallerDisplay, held, hne, eq_comm]
    · rename_i heq
      exact h.byCallerDisplay.skip fun k => by simp [atCallerDisplay, held] at heq ⊢; simp [heq]
  · cases htu : se.tuPath with
    | none =>
        rw [(insertStored_of_no_tu htu).1]
        exact h.byTu.skip fun k => by simp [atTu, held, htu]
    | some tu =>
        rw [(insertStored_of_tu htu).1]
        exact h.byTu.push fun k => by simp [atTu, held, htu, eq_comm]
  · show _ = positions (cf.contexts ++ [_]) _
    rw [positions_snoc, ← h.noProvenance]
    cases htu : se.tuPath with
    | none => simp [(insertStored_of_no_tu htu).2, held]
    | some tu => simp [(insertStored_of_tu htu).2, held]
  · cases htu : se.tuPath with
    | none =>
        rw [(insertStored_of_no_tu htu).1]
        exact h.tus
    | some tu =>
        rw [(insertStored_of_tu htu).1]
        exact h.tus.push _ _
  · show cf.liveCount + 1 = ((cf.contexts ++ [_]).filter _).length
    rw [List.filter_append, List.length_append, ← h.liveCount]
    rfl

theorem Filed.insertAll (h : cf.Filed) (stored : List StoredContext) :
    (stored.foldl ControlFlowIndex.insertStored cf).Filed :=
  List.foldlRecOn stored _ h fun _ hcf se _ => hcf.insertStored se

/-! ### Removal

The candidates are the contexts of the TU's list and those without provenance
whose site is spelled in a removed TU's file. Each is buried in place; the maps
are scrubbed after.
-/

/-- The context goes with these TUs. -/
def leaves (cf : ControlFlowIndex) (tuPaths : List Str) (se : StoredContext) : Bool :=
  match se.tuPath with
  | some tu => decide (cf.interner.resolve tu ∈ tuPaths)
  | none => cf.fromRemovedTu tuPaths se

/-- A context as a removal leaves it. -/
def buried (p : StoredContext → Bool) (se : StoredContext) : StoredContext :=
  { se with live := se.live && !p se }

theorem with_live {se : StoredContext} {b : Bool} (h : b = se.live) :
    { se with live := b } = se := by
  subst h
  rfl

theorem buried_of_stays {p : StoredContext → Bool} {se : StoredContext} (h : p se = false) :
    buried p se = se :=
  with_live (by simp [h])

/-- What the first pass has done after some candidates. -/
structure Burying (cf : ControlFlowIndex) (tuPaths : List Str) (candidates : List (Nat × Bool))
    (r : Removal) : Prop where
  contexts : ∀ i, r.contexts[i]? = (cf.contexts[i]?).map fun se =>
    if i ∈ r.deadIdxs then { se with live := false } else se
  nodup : r.deadIdxs.Nodup
  mem : ∀ i, i ∈ r.deadIdxs ↔ ∃ se, cf.contexts[i]? = some se ∧ se.live = true ∧
    ∃ c ∈ candidates, c.1 = i ∧ (c.2 = true ∨ cf.fromRemovedTu tuPaths se = true)
  dead : ∀ se, se ∈ r.dead ↔ ∃ i ∈ r.deadIdxs, cf.contexts[i]? = some se

theorem burying_start (cf : ControlFlowIndex) (tuPaths : List Str) :
    Burying cf tuPaths [] { contexts := cf.contexts } :=
  ⟨fun i => by simp, List.nodup_nil, fun i => by simp, fun se => by simp⟩

/-- One more candidate is due for its own position only. -/
theorem due_snoc (candidates : List (Nat × Bool)) (n : Nat) (provenanced : Bool) (i : Nat) :
    (∃ se, cf.contexts[i]? = some se ∧ se.live = true ∧
        ∃ c ∈ candidates ++ [(n, provenanced)], c.1 = i ∧
          (c.2 = true ∨ cf.fromRemovedTu tuPaths se = true)) ↔
      (∃ se, cf.contexts[i]? = some se ∧ se.live = true ∧
        ∃ c ∈ candidates, c.1 = i ∧ (c.2 = true ∨ cf.fromRemovedTu tuPaths se = true)) ∨
      (n = i ∧ ∃ se, cf.contexts[n]? = some se ∧ se.live = true ∧
        (provenanced = true ∨ cf.fromRemovedTu tuPaths se = true)) := by
  constructor
  · rintro ⟨se, hse, hlive, c, hc, hci, hcond⟩
    rcases List.mem_append.mp hc with hc | hc
    · exact Or.inl ⟨se, hse, hlive, c, hc, hci, hcond⟩
    · obtain rfl := List.mem_singleton.mp hc
      obtain rfl : n = i := hci
      exact Or.inr ⟨rfl, se, hse, hlive, hcond⟩
  · rintro (⟨se, hse, hlive, c, hc, hrest⟩ | ⟨rfl, se, hse, hlive, hcond⟩)
    · exact ⟨se, hse, hlive, c, List.mem_append_left _ hc, hrest⟩
    · exact ⟨se, hse, hlive, (n, provenanced), by simp, rfl, hcond⟩

/-- A candidate is passed over when it is due only if it was buried before. -/
theorem Burying.passOver {candidates : List (Nat × Bool)} {r : Removal}
    (h : Burying cf tuPaths candidates r) {n : Nat} {provenanced : Bool}
    (hpass : ∀ se, cf.contexts[n]? = some se → se.live = true →
      provenanced = true ∨ cf.fromRemovedTu tuPaths se = true → n ∈ r.deadIdxs) :
    Burying cf tuPaths (candidates ++ [(n, provenanced)]) r := by
  refine ⟨h.contexts, h.nodup, ?_, h.dead⟩
  intro i
  rw [due_snoc, ← h.mem]
  constructor
  · exact Or.inl
  · rintro (hi | ⟨rfl, se, hse, hlive, hcond⟩)
    · exact hi
    · exact hpass se hse hlive hcond

/-- A candidate that is due, and was not before, is buried. -/
theorem Burying.bury {candidates : List (Nat × Bool)} {r : Removal}
    (h : Burying cf tuPaths candidates r) {n : Nat} {provenanced : Bool} {se : StoredContext}
    (hse : cf.contexts[n]? = some se) (hlive : se.live = true) (hnot : n ∉ r.deadIdxs)
    (hcond : provenanced = true ∨ cf.fromRemovedTu tuPaths se = true) :
    Burying cf tuPaths (candidates ++ [(n, provenanced)])
      { contexts := r.contexts.set n { se with live := false }
        dead := r.dead ++ [se], deadIdxs := r.deadIdxs ++ [n] } := by
  refine ⟨?_, ?_, ?_, ?_⟩
  · intro i
    rw [List.getElem?_set]
    by_cases hi : n = i
    · subst hi
      have hsome : r.contexts[n]? = some se := by rw [h.contexts, hse, Option.map_some, if_neg hnot]
      have hlt := (List.getElem?_eq_some_iff.mp hsome).1
      simp [hlt, hse]
    · have hi' : ¬ i = n := fun hc => hi hc.symm
      simp [hi, hi', h.contexts i]
  · exact List.nodup_append.mpr ⟨h.nodup, List.nodup_singleton n, by
      intro a ha b hb
      rw [List.mem_singleton.mp hb]
      rintro rfl
      exact hnot ha⟩
  · intro i
    show i ∈ r.deadIdxs ++ [n] ↔ _
    rw [List.mem_append, List.mem_singleton, due_snoc, ← h.mem]
    refine or_congr_right ⟨?_, fun hdue => hdue.1.symm⟩
    exact fun hi => ⟨hi.symm, se, hse, hlive, hcond⟩
  · intro x
    show x ∈ r.dead ++ [se] ↔ ∃ i ∈ r.deadIdxs ++ [n], _
    rw [List.mem_append, List.mem_singleton, h.dead]
    constructor
    · rintro (⟨i, hi, hx⟩ | rfl)
      · exact ⟨i, List.mem_append_left _ hi, hx⟩
      · exact ⟨n, by simp, hse⟩
    · rintro ⟨i, hi, hx⟩
      rcases List.mem_append.mp hi with hi | hi
      · exact Or.inl ⟨i, hi, hx⟩
      · rw [List.mem_singleton.mp hi, hse] at hx
        exact Or.inr (Option.some.inj hx).symm

/-- One candidate: it is buried if it is live and, without provenance, spelled in a TU. -/
theorem Burying.removeCandidate {candidates : List (Nat × Bool)} {r : Removal}
    (h : Burying cf tuPaths candidates r) (c : Nat × Bool) :
    Burying cf tuPaths (candidates ++ [c]) (cf.removeCandidate tuPaths r c) := by
  obtain ⟨n, provenanced⟩ := c
  have hat := h.contexts n
  unfold ControlFlowIndex.removeCandidate
  dsimp only
  cases hse : cf.contexts[n]? with
  | none =>
      rw [hse, Option.map_none] at hat
      rw [hat]
      refine h.passOver fun se hsome => ?_
      rw [hse] at hsome
      exact nomatch hsome
  | some se =>
      rw [hse, Option.map_some] at hat
      have honly : ∀ x, cf.contexts[n]? = some x → x = se := fun x hx =>
        Option.some.inj (hx.symm.trans hse)
      rw [hat]
      dsimp only
      by_cases hdead : n ∈ r.deadIdxs
      · rw [if_pos hdead]
        exact h.passOver fun _ _ _ _ => hdead
      rw [if_neg hdead]
      split
      · rename_i hgone
        refine h.passOver fun x hx hlive _ => ?_
        rw [honly x hx] at hlive
        simp [hlive] at hgone
      · rename_i hlive
        split
        · rename_i hother
          simp only [Bool.and_eq_true, Bool.not_eq_true'] at hother
          refine h.passOver fun x hx _ hcond => ?_
          rw [honly x hx, hother.1, hother.2] at hcond
          simp at hcond
        · rename_i hcond
          refine h.bury hse (by simpa using hlive) hdead ?_
          cases provenanced with
          | true => exact Or.inl rfl
          | false => exact Or.inr (by simpa using hcond)

theorem Burying.run (candidates : List (Nat × Bool)) :
    Burying cf tuPaths candidates
      (candidates.foldl (cf.removeCandidate tuPaths) { contexts := cf.contexts }) := by
  induction candidates using List.reverseRecOn with
  | nil => exact burying_start cf tuPaths
  | append_singleton rest c ih =>
      rw [List.foldl_append]
      exact ih.removeCandidate c

/-- What the first pass looks at. -/
def candidatesOf (cf : ControlFlowIndex) (tuPaths : List Str) : List (Nat × Bool) :=
  ((tuPaths.filterMap cf.interner.find).flatMap (cf.byTu.getD · [])).map (·, true)
    ++ cf.noProvenance.map (·, false)

theorem Filed.mem_candidates (h : cf.Filed) {i : Nat} {provenanced : Bool} :
    (i, provenanced) ∈ cf.candidatesOf tuPaths ↔ ∃ se, cf.contexts[i]? = some se ∧
      se.live = true ∧ ((provenanced = true ∧ ∃ tu ∈ tuPaths, ∃ id,
        cf.interner.find tu = some id ∧ se.tuPath = some id) ∨
        (provenanced = false ∧ se.tuPath = none)) := by
  unfold candidatesOf
  rw [List.mem_append, List.mem_map, List.mem_map]
  constructor
  · rintro (⟨j, hj, hpair⟩ | ⟨j, hj, hpair⟩)
    · obtain ⟨rfl, rfl⟩ := Prod.mk.inj hpair
      obtain ⟨id, hid, hj⟩ := List.mem_flatMap.mp hj
      obtain ⟨tu, htu, hfind⟩ := List.mem_filterMap.mp hid
      rw [h.byTu] at hj
      obtain ⟨se, hse, hat⟩ := mem_positions.mp hj
      simp only [atTu, held, Bool.and_eq_true, decide_eq_true_eq] at hat
      exact ⟨se, hse, hat.1, Or.inl ⟨rfl, tu, htu, id, hfind, hat.2⟩⟩
    · obtain ⟨rfl, rfl⟩ := Prod.mk.inj hpair
      rw [h.noProvenance] at hj
      obtain ⟨se, hse, hat⟩ := mem_positions.mp hj
      simp only [held, Bool.and_eq_true, decide_eq_true_eq] at hat
      exact ⟨se, hse, hat.1, Or.inr ⟨rfl, hat.2⟩⟩
  · rintro ⟨se, hse, hlive, ⟨rfl, tu, htu, id, hfind, hpath⟩ | ⟨rfl, hpath⟩⟩
    · refine Or.inl ⟨i, ?_, rfl⟩
      refine List.mem_flatMap.mpr ⟨id, List.mem_filterMap.mpr ⟨tu, htu, hfind⟩, ?_⟩
      rw [h.byTu]
      exact mem_positions.mpr ⟨se, hse, by simp [atTu, held, hlive, hpath]⟩
    · refine Or.inr ⟨i, ?_, rfl⟩
      rw [h.noProvenance]
      exact mem_positions.mpr ⟨se, hse, by simp [held, hlive, hpath]⟩

/-- The index as far as the answers go: its strings are told apart and its ids are in range. -/
structure WF (cf : ControlFlowIndex) : Prop extends Filed cf where
  nodup : cf.interner.strings.Nodup
  inRange : cf.InRange

theorem wf_empty : WF {} :=
  { filed_tables {} {} {} {} with nodup := List.nodup_nil, inRange := inRange_empty }

/-- The id of a TU is found among the given ones when its path is. -/
theorem WF.find_iff (h : cf.WF) {se : StoredContext} (hse : se ∈ cf.contexts) {tu : SId}
    (htu : se.tuPath = some tu) :
    (∃ path ∈ tuPaths, cf.interner.find path = some tu)
      ↔ cf.interner.resolve tu ∈ tuPaths := by
  have hlt := (h.inRange.ids se hse).tuPath tu htu
  constructor
  · rintro ⟨path, hpath, hfind⟩
    obtain ⟨hmem, rfl⟩ := StringInterner.find_eq_some.mp hfind
    rwa [StringInterner.resolve_idOf hmem]
  · intro hmem
    exact ⟨_, hmem, StringInterner.find_eq_some.mpr
      ⟨StringInterner.resolve_mem hlt, StringInterner.idOf_resolve h.nodup hlt⟩⟩

/-- The first pass buries exactly the live contexts that go with the TUs. -/
theorem WF.mem_deadIdxs (h : cf.WF) {r : Removal}
    (hr : Burying cf tuPaths (cf.candidatesOf tuPaths) r) (i : Nat) :
    i ∈ r.deadIdxs ↔ i ∈ positions cf.contexts (held (cf.leaves tuPaths)) := by
  rw [hr.mem, mem_positions]
  refine exists_congr fun se => and_congr_right fun hse => ?_
  have hmem := List.mem_of_getElem? hse
  unfold held
  rw [Bool.and_eq_true]
  refine and_congr_right fun hlive => ?_
  unfold leaves
  constructor
  · rintro ⟨⟨j, provenanced⟩, hc, rfl, hcond⟩
    obtain ⟨se', hse', -, ⟨rfl, tu, htu, id, hfind, hpath⟩ | ⟨rfl, hpath⟩⟩ := h.mem_candidates.mp hc
    · rw [hse] at hse'
      injection hse' with hse'
      subst hse'
      rw [hpath]
      simpa using (h.find_iff hmem hpath).mp ⟨tu, htu, hfind⟩
    · rw [hse] at hse'
      injection hse' with hse'
      subst hse'
      rw [hpath]
      simpa using hcond
  · intro hleaves
    cases hpath : se.tuPath with
    | none =>
        rw [hpath] at hleaves
        exact ⟨(i, false), h.mem_candidates.mpr ⟨se, hse, hlive, Or.inr ⟨rfl, hpath⟩⟩, rfl,
          Or.inr hleaves⟩
    | some tu =>
        rw [hpath] at hleaves
        obtain ⟨path, hin, hfind⟩ := (h.find_iff hmem hpath).mpr (by simpa using hleaves)
        exact ⟨(i, true),
          h.mem_candidates.mpr ⟨se, hse, hlive, Or.inl ⟨rfl, path, hin, tu, hfind, hpath⟩⟩, rfl,
          Or.inl rfl⟩

theorem WF.contexts_buried (h : cf.WF) {r : Removal}
    (hr : Burying cf tuPaths (cf.candidatesOf tuPaths) r) :
    r.contexts = cf.contexts.map (buried (cf.leaves tuPaths)) := by
  refine List.ext_getElem? ?_
  intro i
  rw [hr.contexts, List.getElem?_map]
  cases hi : cf.contexts[i]? with
  | none => rfl
  | some se =>
      have hdead := h.mem_deadIdxs hr i
      rw [mem_positions, hi] at hdead
      simp only [Option.some.injEq, exists_eq_left', held, Bool.and_eq_true] at hdead
      rw [Option.map_some, Option.map_some]
      congr 1
      split
      · rename_i hmem
        simp [buried, (hdead.mp hmem).2]
      · rename_i hmem
        refine (with_live ?_).symm
        cases hlive : se.live with
        | false => rfl
        | true =>
            have hstays : cf.leaves tuPaths se = false := by
              simpa using fun hl => hmem (hdead.mpr ⟨hlive, hl⟩)
            rw [hstays]
            rfl

/-- What the scrubs need to know of the first pass. -/
theorem Burying.any_held {r : Removal} {candidates : List (Nat × Bool)}
    (hr : Burying cf tuPaths candidates r) (p : StoredContext → Bool) (i : Nat) :
    (r.contexts[i]?).any (held p)
      = ((cf.contexts[i]?).any (held p) && decide (i ∉ r.deadIdxs)) := by
  rw [hr.contexts]
  cases cf.contexts[i]? with
  | none => rfl
  | some se => by_cases hi : i ∈ r.deadIdxs <;> simp [hi, held]

theorem Burying.key_mem {r : Removal} {candidates : List (Nat × Bool)}
    (hr : Burying cf tuPaths candidates r) {f : StoredContext → SId}
    {p q : StoredContext → Bool} {k : SId} (hq : ∀ se, p se → q se ∧ f se = k) {i : Nat}
    (hi : i ∈ r.deadIdxs) (hpos : i ∈ positions cf.contexts p) :
    k ∈ (r.dead.filter q).map f := by
  obtain ⟨se, hse, hp⟩ := mem_positions.mp hpos
  exact List.mem_map.mpr ⟨se, List.mem_filter.mpr ⟨(hr.dead se).mpr ⟨i, hi, hse⟩, (hq se hp).1⟩,
    (hq se hp).2⟩

theorem Burying.length {r : Removal} {candidates : List (Nat × Bool)}
    (hr : Burying cf tuPaths candidates r) : r.contexts.length = cf.contexts.length := by
  have hat : ∀ i : Nat, r.contexts[i]? = none ↔ cf.contexts[i]? = none := by
    intro i
    rw [hr.contexts, Option.map_eq_none_iff]
  simp only [List.getElem?_eq_none_iff] at hat
  exact Nat.le_antisymm ((hat _).mpr (Nat.le_refl _)) ((hat _).mp (Nat.le_refl _))

theorem filter_buried (p : StoredContext → Bool) (contexts : List StoredContext) :
    (contexts.map (buried p)).filter (·.live)
      = contexts.filter fun se => se.live && !p se := by
  rw [List.filter_map]
  have hsame : ∀ se ∈ contexts.filter fun se => se.live && !p se, buried p se = se := by
    intro se hse
    have hkept := (List.mem_filter.mp hse).2
    simp only [Bool.and_eq_true, Bool.not_eq_true'] at hkept
    exact buried_of_stays hkept.2
  exact (List.map_congr_left hsame).trans (List.map_id _)

theorem length_split (contexts : List StoredContext) (p : StoredContext → Bool) :
    (contexts.filter (·.live)).length
      = (contexts.filter fun se => se.live && !p se).length + (contexts.filter (held p)).length := by
  induction contexts with
  | nil => rfl
  | cons se rest ih =>
      unfold held at ih ⊢
      cases hlive : se.live <;> cases hp : p se <;> simp [hlive, hp, ih] <;> omega

/-- The pass over the candidates of the TUs. -/
def firstPass (cf : ControlFlowIndex) (tuPaths : List Str) : Removal :=
  (cf.candidatesOf tuPaths).foldl (cf.removeCandidate tuPaths) { contexts := cf.contexts }

/-- The keys of the dead whose display name is not the usr. -/
def displaysOf (display usr : StoredContext → SId) (r : Removal) : List SId :=
  (r.dead.filter fun se => display se ≠ usr se).map display

/-- The second pass scrubs the maps. -/
def secondPass (cf : ControlFlowIndex) (tuPaths : List Str) (r : Removal) : ControlFlowIndex :=
  { cf with
    contexts := r.contexts
    byCallee := Postings.scrub cf.byCallee (r.dead.map (·.callee)) r.deadIdxs
    byCaller := Postings.scrub cf.byCaller (r.dead.map (·.caller)) r.deadIdxs
    byCalleeDisplay := Postings.scrub cf.byCalleeDisplay
      (displaysOf (·.calleeDisplay) (·.callee) r) r.deadIdxs
    byCallerDisplay := Postings.scrub cf.byCallerDisplay
      (displaysOf (·.callerDisplay) (·.caller) r) r.deadIdxs
    bySite := Postings.scrubErase cf.bySite (r.dead.map (·.site)) r.deadIdxs
    byTu := if r.deadIdxs = [] then cf.byTu
      else cf.byTu.eraseAll (tuPaths.filterMap cf.interner.find)
    noProvenance := if r.deadIdxs = [] then cf.noProvenance
      else cf.noProvenance.filter (· ∉ r.deadIdxs)
    liveCount := cf.liveCount - r.deadIdxs.length }

theorem Filed.secondPass (h : cf.WF) {r : Removal}
    (hr : Burying cf tuPaths (cf.candidatesOf tuPaths) r) :
    (cf.secondPass tuPaths r).Filed := by
  have hlen := hr.length
  -- The context at a dead position has its own key among those scrubbed.
  have hall {f : StoredContext → SId} {p : SId → StoredContext → Bool}
      (hp : ∀ k se, p k se → f se = k) (k : SId) (i : Nat) (hi : i ∈ r.deadIdxs)
      (hpos : i ∈ positions cf.contexts (p k)) : k ∈ r.dead.map f := by
    have := hr.key_mem (f := f) (q := fun _ => true) (fun se hse => ⟨rfl, hp k se hse⟩) hi hpos
    rwa [List.filter_true] at this
  have hpositions (p : StoredContext → Bool) : positions r.contexts (held p)
      = (positions cf.contexts (held p)).filter (· ∉ r.deadIdxs) :=
    positions_drop hlen (hr.any_held p)
  refine
    { byCallee := h.byCallee.scrub hlen (fun k => hr.any_held _)
        (hall fun k se hse => by simp_all [atCallee, held])
      byCaller := h.byCaller.scrub hlen (fun k => hr.any_held _)
        (hall fun k se hse => by simp_all [atCaller, held])
      byCalleeDisplay := h.byCalleeDisplay.scrub hlen (fun k => hr.any_held _)
        fun k i hi hpos => hr.key_mem (fun se hse => (displayed_iff.mp hse).2) hi hpos
      byCallerDisplay := h.byCallerDisplay.scrub hlen (fun k => hr.any_held _)
        fun k i hi hpos => hr.key_mem (fun se hse => (displayed_iff.mp hse).2) hi hpos
      bySite := h.bySite.scrubErase hlen (fun k => hr.any_held _)
        (hall fun k se hse => by simp_all [atSite, held])
      byTu := ?_
      noProvenance := ?_
      sites := h.sites.scrubErase _ _
      tus := ?_
      liveCount := ?_ }
  · intro k
    show UMap.getD (if _ then _ else _) k [] = positions r.contexts (atTu k)
    rw [atTu, hpositions]
    split
    · rename_i hnil
      rw [hnil, h.byTu k]
      simp [atTu]
    · unfold UMap.getD
      rw [lookup_eraseAll]
      split
      · rename_i hk
        -- Every context of a TU that is given is dead.
        refine (List.filter_eq_nil_iff.mpr ?_).symm
        intro i hi
        obtain ⟨path, hpath, hfind⟩ := List.mem_filterMap.mp hk
        obtain ⟨se, hse, hat⟩ := mem_positions.mp hi
        simp only [held, Bool.and_eq_true, decide_eq_true_eq] at hat
        have hleaves : cf.leaves tuPaths se = true := by
          have := (h.find_iff (List.mem_of_getElem? hse) hat.2).mp ⟨path, hpath, hfind⟩
          simpa [leaves, hat.2] using this
        have hdead := (h.mem_deadIdxs hr i).mpr
          (mem_positions.mpr ⟨se, hse, by simp [held, hat.1, hleaves]⟩)
        simpa using hdead
      · rename_i hk
        -- A context of another TU stays.
        rw [← UMap.getD, h.byTu k]
        refine (List.filter_eq_self.mpr ?_).symm
        intro i hi
        obtain ⟨se, hse, hat⟩ := mem_positions.mp hi
        simp only [held, atTu, Bool.and_eq_true, decide_eq_true_eq] at hat
        have hnot : i ∉ r.deadIdxs := by
          intro hd
          obtain ⟨se', hse', hgo⟩ := mem_positions.mp ((h.mem_deadIdxs hr i).mp hd)
          rw [hse] at hse'
          injection hse' with hse'
          subst hse'
          simp only [held, leaves, hat.2, Bool.and_eq_true, decide_eq_true_eq] at hgo
          obtain ⟨path, hpath, hfind⟩ :=
            (h.find_iff (List.mem_of_getElem? hse) hat.2).mpr hgo.2
          exact hk (List.mem_filterMap.mpr ⟨path, hpath, hfind⟩)
        simpa using hnot
  · show (if _ then _ else _) = positions r.contexts _
    rw [hpositions, ← h.noProvenance]
    split
    · rename_i hnil
      simp [hnil]
    · rfl
  · show NoneEmpty (if _ then _ else _)
    split
    · exact h.tus
    · intro k hk
      rw [lookup_eraseAll] at hk
      split at hk
      · simp at hk
      · exact h.tus k hk
  · show cf.liveCount - r.deadIdxs.length = (r.contexts.filter _).length
    rw [length_eq_of_mem hr.nodup (h.mem_deadIdxs hr), h.contexts_buried hr, filter_buried,
      h.liveCount, length_split _ (cf.leaves tuPaths)]
    omega

/-- **A removal in closed form**, and the maps list what is left of the index. -/
theorem WF.removeTUs (h : cf.WF) (tuPaths : List Str) :
    (cf.removeTUs tuPaths).1.WF ∧
      (cf.removeTUs tuPaths).1.contexts = cf.contexts.map (buried (cf.leaves tuPaths)) ∧
      (cf.removeTUs tuPaths).2 = (cf.contexts.filter (held (cf.leaves tuPaths))).length := by
  have hr : Burying cf tuPaths (cf.candidatesOf tuPaths) (cf.firstPass tuPaths) := Burying.run _
  refine ⟨?_, ?_, ?_⟩
  · exact { Filed.secondPass h hr with nodup := h.nodup, inRange := h.inRange.removeTUs tuPaths }
  · exact h.contexts_buried hr
  · exact length_eq_of_mem hr.nodup (h.mem_deadIdxs hr)

/-! ### Compacting and the other operations

Compacting is building the index again from its live contexts, under the same
tables.
-/

theorem insertAll_contexts (stored : List StoredContext) (cf : ControlFlowIndex) :
    (stored.foldl ControlFlowIndex.insertStored cf).contexts
      = cf.contexts ++ stored.map fun se => { se with live := true } := by
  induction stored generalizing cf with
  | nil => simp
  | cons se rest ih =>
      rw [List.foldl_cons, ih]
      simp [ControlFlowIndex.insertStored]

theorem insertAll_tables (stored : List StoredContext) (cf : ControlFlowIndex) :
    ∀ cf', cf' = stored.foldl ControlFlowIndex.insertStored cf → cf'.interner = cf.interner ∧
      cf'.scopeSets = cf.scopeSets ∧ cf'.guardSets = cf.guardSets ∧ cf'.raiiSets = cf.raiiSets := by
  induction stored generalizing cf with
  | nil =>
      rintro _ rfl
      exact ⟨rfl, rfl, rfl, rfl⟩
  | cons se rest ih =>
      intro cf' hcf'
      exact ih (cf.insertStored se) cf' hcf'

theorem live_map_live (contexts : List StoredContext) :
    (contexts.filter (·.live)).map (fun se => { se with live := true })
      = contexts.filter (·.live) := by
  have hsame : ∀ se ∈ contexts.filter (·.live), ({ se with live := true } : StoredContext) = se :=
    fun se hse => with_live (List.mem_filter.mp hse).2.symm
  exact (List.map_congr_left hsame).trans (List.map_id _)

/-- The index without contexts, under the same tables. -/
def emptied (cf : ControlFlowIndex) : ControlFlowIndex :=
  { interner := cf.interner, scopeSets := cf.scopeSets, guardSets := cf.guardSets
    raiiSets := cf.raiiSets }

theorem compact_eq (cf : ControlFlowIndex) :
    cf.compact = { (cf.contexts.filter (·.live)).foldl ControlFlowIndex.insertStored cf.emptied with
      liveCount := cf.liveCount } := rfl

theorem compact_contexts (cf : ControlFlowIndex) :
    cf.compact.contexts = cf.contexts.filter (·.live) := by
  rw [compact_eq]
  exact (insertAll_contexts _ _).trans (live_map_live _)

theorem compact_tables (cf : ControlFlowIndex) :
    cf.compact.interner = cf.interner ∧ cf.compact.scopeSets = cf.scopeSets ∧
      cf.compact.guardSets = cf.guardSets ∧ cf.compact.raiiSets = cf.raiiSets := by
  have htables := insertAll_tables (cf.contexts.filter (·.live)) cf.emptied _ rfl
  exact htables

theorem WF.compact (h : cf.WF) : cf.compact.WF := by
  have hfiled : Filed ((cf.contexts.filter (·.live)).foldl ControlFlowIndex.insertStored cf.emptied) :=
    (filed_tables cf.interner cf.scopeSets cf.guardSets cf.raiiSets).insertAll
      (cf.contexts.filter (·.live))
  have hcount : cf.liveCount = (cf.compact.contexts.filter (·.live)).length := by
    rw [compact_contexts, List.filter_filter, h.liveCount]
    simp
  exact
    { byCallee := hfiled.byCallee, byCaller := hfiled.byCaller
      byCalleeDisplay := hfiled.byCalleeDisplay, byCallerDisplay := hfiled.byCallerDisplay
      bySite := hfiled.bySite, byTu := hfiled.byTu, noProvenance := hfiled.noProvenance
      sites := hfiled.sites, tus := hfiled.tus, liveCount := hcount
      nodup := by
        rw [(compact_tables cf).1]
        exact h.nodup
      inRange := h.inRange.compact }

end ControlFlowIndex

end Vycor
