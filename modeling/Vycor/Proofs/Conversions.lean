/-
What converts to what.

An index is asked whether an argument could be passed where a parameter of another type stands.
It says so for the same type, for two arithmetic types, for a class and one of its bases, for
pointers to them, and for one step of a converting constructor or a conversion operator; steps
are not chained.  Which edges there are is read off the calls that the index came from.
-/
import Vycor.Model.VisibilityChecks
import Vycor.Proofs.BaseReach

namespace Vycor

/-! ### Edges and calls -/

/-- What is pushed once each is what some call gave. -/
theorem IndexHistory.mem_pushed (P : Part Str) (hstep : P.step = Dedup.pushUnique)
    (h : IndexHistory) (y : Str) :
    y ∈ P.read h.index.spec ↔ ∃ c ∈ h.calls, P.concerns c = some y := by
  rw [part_eq, hstep, Dedup.mem_foldl_pushUnique, List.mem_filterMap]
  exact or_iff_right List.not_mem_nil

theorem IndexHistory.mem_ctorEdges (h : IndexHistory) (x y : Str) :
    y ∈ h.index.spec.ctorEdges x ↔ IndexCall.ctorEdge x y ∈ h.calls := by
  refine (h.mem_pushed (ctorEdgesPart x) rfl y).trans ?_
  constructor
  · rintro ⟨c, hc, hgiven⟩
    cases c with
    | ctorEdge toType fromType =>
        obtain ⟨rfl, hy⟩ := Option.ite_none_right_eq_some.mp hgiven
        obtain rfl := Option.some.inj hy
        exact hc
    | _ => exact nomatch hgiven
  · exact fun hc => ⟨_, hc, if_pos rfl⟩

theorem IndexHistory.mem_convOpEdges (h : IndexHistory) (x y : Str) :
    y ∈ h.index.spec.convOpEdges x ↔ IndexCall.convOpEdge x y ∈ h.calls := by
  refine (h.mem_pushed (convOpEdgesPart x) rfl y).trans ?_
  constructor
  · rintro ⟨c, hc, hgiven⟩
    cases c with
    | convOpEdge fromType toType =>
        obtain ⟨rfl, hy⟩ := Option.ite_none_right_eq_some.mp hgiven
        obtain rfl := Option.some.inj hy
        exact hc
    | _ => exact nomatch hgiven
  · exact fun hc => ⟨_, hc, if_pos rfl⟩

namespace TypeRelationIndex

variable {types : TypeRelationIndex}

theorem hasEdge_iff {edges : UMap SId (List SId)} (h : Edged types.interner edges)
    (source target : Str) :
    types.hasEdge edges source target = true ↔ target ∈ edgesFrom types.interner edges source := by
  have hmem : target ∈ edgesFrom types.interner edges source ↔
      ∃ id, types.interner.find source = some id ∧
        ∃ t ∈ edges.getD id [], types.interner.resolve t = target := by
    unfold edgesFrom GlobalIndex.findNamed
    cases types.interner.find source with
    | none => simp
    | some id => simp
  rw [hmem]
  unfold hasEdge
  cases hsource : types.interner.find source with
  | none => simp
  | some sourceId =>
      dsimp only
      cases hlookup : edges.lookup sourceId with
      | none => simp [UMap.getD, hlookup]
      | some targets =>
          dsimp only
          have hbound := h.target sourceId targets hlookup
          cases htarget : types.interner.find target with
          | none =>
              refine iff_of_false Bool.false_ne_true ?_
              rintro ⟨id, hid, t, ht, rfl⟩
              obtain rfl := Option.some.inj hid
              rw [UMap.getD, hlookup] at ht
              have hfound := StringInterner.find_eq_some.mpr
                ⟨StringInterner.resolve_mem (hbound t ht), rfl⟩
              rw [htarget] at hfound
              exact absurd hfound.symm (Option.some_ne_none _)
          | some targetId =>
              obtain ⟨hin, rfl⟩ := StringInterner.find_eq_some.mp htarget
              simp only [decide_eq_true_eq]
              constructor
              · intro ht
                refine ⟨sourceId, rfl, types.interner.idOf target, ?_,
                  StringInterner.resolve_idOf hin⟩
                rw [UMap.getD, hlookup]
                exact ht
              · rintro ⟨id, hid, t, ht, rfl⟩
                obtain rfl := Option.some.inj hid
                rw [UMap.getD, hlookup] at ht
                rw [StringInterner.idOf_resolve h.nodup (hbound t ht)]
                exact ht

end TypeRelationIndex

/-! ### The relation

What converts is said of the calls that built the index: the test on interned
ids answers just that.
-/

/-- A type of pointers, as far as its spelling goes. -/
def IsPointer (type : Str) : Prop := type.getLast? = some 42

/-- One class is above another one. -/
def Beyond (calls : List IndexCall) : Str → Str → Prop :=
  Relation.TransGen fun derived base => IndexCall.base derived base ∈ calls

/-- What the calls say converts. -/
inductive Converts (calls : List IndexCall) : Str → Str → Prop
  | same (type : Str) : Converts calls type type
  | arithmetic {source target : Str} : source ∈ arithmeticTypeNames →
      target ∈ arithmeticTypeNames → Converts calls source target
  | derived {source target : Str} : ¬ IsPointer source → ¬ IsPointer target →
      Beyond calls source target → Converts calls source target
  | pointee {source target : Str} : Beyond calls source target →
      Converts calls (source ++ str "*") (target ++ str "*")
  | constructor {source target : Str} : IndexCall.ctorEdge target source ∈ calls →
      Converts calls source target
  | operator {source target : Str} : IndexCall.convOpEdge source target ∈ calls →
      Converts calls source target

theorem stripPointer_of_pointer {type : Str} (h : IsPointer type) :
    type = stripPointer type ++ str "*" := by
  have hlast : type.getLast? = some 42 := h
  unfold stripPointer
  rw [if_pos hlast]
  exact (List.dropLast_append_getLast? 42 hlast).symm

theorem stripPointer_append (type : Str) : stripPointer (type ++ str "*") = type := by
  have hlast : (type ++ str "*").getLast? = some 42 := List.getLast?_append_of_ne_nil _ (by decide)
  unfold stripPointer
  rw [if_pos hlast]
  exact List.dropLast_concat

theorem stripPointer_ne_iff (type : Str) : stripPointer type ≠ type ↔ IsPointer type := by
  constructor
  · intro hne
    by_contra hlast
    exact hne (if_neg hlast)
  · intro h heq
    have hlength := congrArg List.length (stripPointer_of_pointer h)
    rw [heq, List.length_append] at hlength
    exact absurd hlength (by simp [show (str "*").length = 1 from rfl])

namespace IndexHistory

variable (h : IndexHistory)

theorem baseOrSelf_iff (derived maybeBase : Str) :
    h.index.types.baseOrSelf derived maybeBase = true ↔
      derived = maybeBase ∨ Beyond h.calls derived maybeBase := by
  obtain ⟨answer, hanswer, hiff⟩ :=
    TypeRelationIndex.isBaseOrSelf_spec h.wf.bases le_rfl derived maybeBase
  have hrel : (fun d b => b ∈ h.index.spec.bases d) = fun d b => IndexCall.base d b ∈ h.calls := by
    funext d b
    exact propext (h.mem_bases d b)
  have hiff' : answer = true ↔ derived = maybeBase ∨ Beyond h.calls derived maybeBase := by
    unfold Beyond
    rw [← hrel]
    exact hiff
  unfold TypeRelationIndex.baseOrSelf
  rw [hanswer]
  exact hiff'

theorem toBase_iff {source target : Str} (hne : source ≠ target) :
    h.index.types.toBase source target = true ↔
      (¬ IsPointer source ∧ ¬ IsPointer target ∧ Beyond h.calls source target) ∨
      (IsPointer source ∧ IsPointer target ∧
        Beyond h.calls (stripPointer source) (stripPointer target)) := by
  unfold TypeRelationIndex.toBase
  dsimp only
  by_cases hsource : IsPointer source
  · have hs := (stripPointer_ne_iff source).mpr hsource
    rw [if_pos (Or.inl hs)]
    by_cases htarget : IsPointer target
    · have ht := (stripPointer_ne_iff target).mpr htarget
      have hclasses : stripPointer source ≠ stripPointer target := by
        intro heq
        apply hne
        rw [stripPointer_of_pointer hsource, stripPointer_of_pointer htarget, heq]
      simp [hs, ht, hsource, htarget, h.baseOrSelf_iff, hclasses]
    · have ht := not_imp_comm.mp (stripPointer_ne_iff target).mp htarget
      simp [ht, hsource, htarget]
  · have hs := not_imp_comm.mp (stripPointer_ne_iff source).mp hsource
    by_cases htarget : IsPointer target
    · have ht := (stripPointer_ne_iff target).mpr htarget
      rw [if_pos (Or.inr ht)]
      simp [hs, hsource, htarget]
    · have ht := not_imp_comm.mp (stripPointer_ne_iff target).mp htarget
      rw [hs, ht, if_neg (by simp)]
      simp [hne, hsource, htarget, h.baseOrSelf_iff]

/-- **What an index says converts is what the calls say**, however shards were merged. -/
theorem isConvertible_iff (source target : Str) :
    h.index.types.isConvertible source target = true ↔ Converts h.calls source target := by
  have hctor := (TypeRelationIndex.hasEdge_iff h.wf.ctorEdges target source).trans
    (h.mem_ctorEdges target source)
  have hconv := (TypeRelationIndex.hasEdge_iff h.wf.convOpEdges source target).trans
    (h.mem_convOpEdges source target)
  unfold TypeRelationIndex.isConvertible
  by_cases hsame : source = target
  · subst hsame
    rw [if_pos rfl]
    exact iff_of_true rfl (.same source)
  rw [if_neg hsame]
  by_cases harith : (isArithmeticTypeName source && isArithmeticTypeName target) = true
  · rw [if_pos harith]
    simp only [isArithmeticTypeName, Bool.and_eq_true, decide_eq_true_eq] at harith
    exact iff_of_true rfl (.arithmetic harith.1 harith.2)
  rw [if_neg harith]
  by_cases hbase : h.index.types.toBase source target = true
  · rw [if_pos hbase]
    refine iff_of_true rfl ?_
    rcases (h.toBase_iff hsame).mp hbase with ⟨hs, ht, hbeyond⟩ | ⟨hs, ht, hbeyond⟩
    · exact .derived hs ht hbeyond
    · rw [stripPointer_of_pointer hs, stripPointer_of_pointer ht]
      exact .pointee hbeyond
  rw [if_neg hbase]
  by_cases hedge : h.index.types.hasEdge h.index.types.ctorEdges target source = true
  · rw [if_pos hedge]
    exact iff_of_true rfl (.constructor (hctor.mp hedge))
  rw [if_neg hedge]
  rw [hconv]
  constructor
  · exact .operator
  · intro hconverts
    have hnotBase := fun hside => hbase ((h.toBase_iff hsame).mpr hside)
    cases hconverts with
    | same => exact absurd rfl hsame
    | arithmetic hs ht =>
        exact absurd (by simp [isArithmeticTypeName, hs, ht]) harith
    | derived hs ht hbeyond => exact absurd (Or.inl ⟨hs, ht, hbeyond⟩) hnotBase
    | pointee hbeyond =>
        refine absurd (Or.inr ⟨?_, ?_, ?_⟩) hnotBase
        · exact List.getLast?_append_of_ne_nil _ (by decide)
        · exact List.getLast?_append_of_ne_nil _ (by decide)
        · rwa [stripPointer_append, stripPointer_append]
    | constructor hcall => exact absurd (hctor.mpr hcall) hedge
    | operator hcall => exact hcall

end IndexHistory

end Vycor
