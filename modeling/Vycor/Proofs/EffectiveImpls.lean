/-
Effective implementations and final overriders.

C++ says which method a virtual call on an object of a class runs: for every virtual method of
every base subobject, the overrider that no class on the way to the subobject overrides again.
The walk over the bases goes by unqualified names instead, and takes one method of each.

`ByName` is when the two agree: the final overriders that have a body are written out, no two
share a name, and none is hidden behind a method that is overridden.  Overloads break the
second, a base with a virtual destructor breaks the others, since destructors override each
other under different names.  What the walk takes apart from destructors is right in any
concrete class without virtual bases (`recorded_implements`); it is what it leaves out that is
wrong.
-/
import Vycor.Lib.Dedup
import Vycor.Model.ClassHierarchy
import Vycor.Proofs.Rebuild

namespace Vycor

/-- What an overrider has in common with what it overrides. -/
def CXXMethodDecl.signature (method : CXXMethodDecl) : Option Str × Str :=
  if method.isDestructor then (none, []) else (some method.name, method.params)

/-- One virtual method stands for another of the same signature. -/
def CXXMethodDecl.Overrides (method' method : CXXMethodDecl) : Prop :=
  method'.isVirtual = true ∧ method.isVirtual = true ∧ method'.signature = method.signature

/-- Virtual, written out and not pure. -/
def CXXMethodDecl.isImpl (method : CXXMethodDecl) : Bool :=
  method.isVirtual && !method.isImplicit && !method.isPureVirtual

namespace CXXRecordDecl

/-! ### Base subobjects

What C++ says of the methods of an object: subobjects are told apart by the path
to them, virtual bases shared, and an overrider is final when nothing further
down overrides it.
-/

/-- The base specifiers from a class to a base of it, one after the other. -/
def IsPath : CXXRecordDecl → List CXXBaseSpecifier → Prop
  | _, [] => True
  | cls, step :: rest => step ∈ cls.bases ∧ step.type.IsPath rest

/-- The class that a way through the bases leads to. -/
def classAt : CXXRecordDecl → List CXXBaseSpecifier → CXXRecordDecl
  | cls, [] => cls
  | _, step :: rest => step.type.classAt rest

/-- The subobject that a path leads to: a virtual base is the same one on every way to it. -/
def subobject : List CXXBaseSpecifier → List CXXBaseSpecifier
  | [] => []
  | step :: rest => if rest.any (·.isVirtual) then subobject rest else step :: rest

/-- A class on a way to the subobject overrides the method. -/
def OverriddenAt (cls : CXXRecordDecl) (path : List CXXBaseSpecifier) (method : CXXMethodDecl) :
    Prop :=
  ∃ way, cls.IsPath way ∧ subobject way = subobject path ∧
    ∃ nearer, nearer <+: way ∧ nearer ≠ way ∧
      ∃ method' ∈ (cls.classAt nearer).methods, method'.Overrides method

/-- A virtual method of some subobject that is not overridden there. -/
def FinalOverrider (cls : CXXRecordDecl) (method : CXXMethodDecl) : Prop :=
  ∃ path, cls.IsPath path ∧ method ∈ (cls.classAt path).methods ∧ method.isVirtual = true ∧
    ¬ cls.OverriddenAt path method

/-- What a virtual call on an object of the class can run. -/
def Implements (cls : CXXRecordDecl) (method : CXXMethodDecl) : Prop :=
  cls.FinalOverrider method ∧ method.isPureVirtual = false

theorem subobject_eq_nil {path : List CXXBaseSpecifier} : subobject path = [] ↔ path = [] := by
  induction path with
  | nil => exact Iff.rfl
  | cons step rest ih =>
      refine iff_of_false ?_ (List.cons_ne_nil _ _)
      unfold subobject
      split
      · rename_i hvirtual
        rintro hnil
        rw [ih.mp hnil] at hvirtual
        cases hvirtual
      · exact List.cons_ne_nil _ _

/-- Nothing overrides the methods of the class itself. -/
theorem own_final (cls : CXXRecordDecl) (m : CXXMethodDecl) (hmem : m ∈ cls.methods)
    (hvirtual : m.isVirtual = true) : cls.FinalOverrider m := by
  refine ⟨[], trivial, hmem, hvirtual, ?_⟩
  rintro ⟨way, -, hsame, nearer, hnearer, hne, -⟩
  obtain rfl := subobject_eq_nil.mp hsame
  exact hne (List.prefix_nil.mp hnearer)

/-! ### The hierarchy -/

/-- The class and its bases, breadth first. -/
def hierarchy (cls : CXXRecordDecl) : List CXXRecordDecl := LevelOrder.order baseDecls cls.size [cls]

/-- The methods that the classes of the hierarchy implement, breadth first. -/
def declaredImpls (cls : CXXRecordDecl) : List CXXMethodDecl :=
  cls.hierarchy.flatMap fun current => current.methods.filter (·.isImpl)

/-- Going by unqualified names is right for the class. -/
structure ByName (cls : CXXRecordDecl) : Prop where
  one : ∀ m m', cls.Implements m → cls.Implements m' → m.name = m'.name → m = m'
  declared : ∀ m, cls.Implements m → m.isImplicit = false
  nearest : ∀ before m after, cls.declaredImpls = before ++ m :: after → ¬ cls.FinalOverrider m →
    ∃ m' ∈ before, m'.name = m.name

theorem weight_bases (bases : CXXBaseSpecifiers) :
    LevelOrder.weight size (bases.toList.map (·.type)) = bases.size := by
  match bases with
  | .nil => rfl
  | .cons isVirtual base rest =>
      have hrest := weight_bases rest
      unfold LevelOrder.weight at hrest ⊢
      rw [CXXBaseSpecifiers.toList, List.map_cons, List.map_cons, List.sum_cons, hrest,
        CXXBaseSpecifiers.size]

theorem weight_baseDecls (cls : CXXRecordDecl) :
    LevelOrder.weight size cls.baseDecls < cls.size := by
  cases cls with
  | mk qualifiedName methods bases =>
      rw [size, Nat.lt_succ_iff]
      exact Nat.le_of_eq (weight_bases bases)

theorem weight_self (cls : CXXRecordDecl) : LevelOrder.weight size [cls] ≤ cls.size := by
  simp [LevelOrder.weight]

theorem mem_level {cls current : CXXRecordDecl} {n : Nat} :
    current ∈ LevelOrder.level baseDecls n [cls] ↔
      ∃ path, cls.IsPath path ∧ path.length = n ∧ cls.classAt path = current := by
  induction n generalizing cls with
  | zero =>
      rw [LevelOrder.level, List.mem_singleton]
      constructor
      · rintro rfl
        exact ⟨[], trivial, rfl, rfl⟩
      · rintro ⟨path, -, hlen, hcls⟩
        obtain rfl := List.eq_nil_of_length_eq_zero hlen
        exact hcls.symm
  | succ n ih =>
      rw [LevelOrder.level_succ_singleton, LevelOrder.mem_level]
      constructor
      · rintro ⟨base, hbase, hcurrent⟩
        obtain ⟨step, hstep, rfl⟩ := List.mem_map.mp hbase
        obtain ⟨path, hpath, hlen, hcls⟩ := ih.mp hcurrent
        exact ⟨step :: path, ⟨hstep, hpath⟩, congrArg (· + 1) hlen, hcls⟩
      · rintro ⟨path, hpath, hlen, hcls⟩
        cases path with
        | nil => exact absurd hlen (Nat.succ_ne_zero n).symm
        | cons step rest =>
            exact ⟨step.type, List.mem_map_of_mem hpath.1,
              ih.mpr ⟨rest, hpath.2, Nat.succ.inj hlen, hcls⟩⟩

theorem mem_declaredImpls {cls : CXXRecordDecl} {m : CXXMethodDecl} :
    m ∈ cls.declaredImpls ↔
      m.isImpl = true ∧ ∃ path, cls.IsPath path ∧ m ∈ (cls.classAt path).methods := by
  unfold declaredImpls hierarchy
  simp only [List.mem_flatMap, List.mem_filter, mem_level,
    LevelOrder.mem_order weight_baseDecls cls.weight_self]
  constructor
  · rintro ⟨_, ⟨-, path, hpath, -, rfl⟩, hmem, himpl⟩
    exact ⟨himpl, path, hpath, hmem⟩
  · rintro ⟨himpl, path, hpath, hmem⟩
    exact ⟨_, ⟨_, path, hpath, rfl, rfl⟩, hmem, himpl⟩

/-- The first of its name. -/
def Taken (cls : CXXRecordDecl) (m : CXXMethodDecl) : Prop :=
  cls.declaredImpls.find? (fun m' => decide (m'.name = m.name)) = some m

theorem Taken.mem {cls : CXXRecordDecl} {m : CXXMethodDecl} (h : cls.Taken m) :
    m ∈ cls.declaredImpls := List.mem_of_find?_eq_some h

theorem Taken.eq {cls : CXXRecordDecl} {m m' : CXXMethodDecl} (h : cls.Taken m) (h' : cls.Taken m')
    (hname : m.name = m'.name) : m = m' := by
  unfold Taken at h h'
  rw [hname, h'] at h
  exact (Option.some.inj h).symm

theorem exists_taken {cls : CXXRecordDecl} {m : CXXMethodDecl} (h : m ∈ cls.declaredImpls) :
    ∃ m', cls.Taken m' ∧ m'.name = m.name := by
  have hsome : (cls.declaredImpls.find? fun m' => decide (m'.name = m.name)).isSome = true :=
    List.find?_isSome.mpr ⟨m, h, decide_eq_true rfl⟩
  obtain ⟨m', hm'⟩ := Option.isSome_iff_exists.mp hsome
  have hname : m'.name = m.name := by simpa using List.find?_some hm'
  refine ⟨m', ?_, hname⟩
  unfold Taken
  rw [hname]
  exact hm'

theorem taken_iff {cls : CXXRecordDecl} {m : CXXMethodDecl} :
    cls.Taken m ↔ ∃ before after, cls.declaredImpls = before ++ m :: after ∧
      ∀ m' ∈ before, m'.name ≠ m.name := by
  unfold Taken
  rw [List.find?_eq_some_iff_append]
  simp

end CXXRecordDecl

/-! ### What the walk takes

The walk takes the first method of each name, in the order in which it meets the
classes.
-/

namespace MethodWalk

variable {ρ : Type} {record : CXXMethodDecl → ρ} {leave : CXXRecordDecl → List Str → List ρ}

/-- The walk has taken these methods under these names. -/
def Tracks (record : CXXMethodDecl → ρ) (leave : CXXRecordDecl → List Str → List ρ)
    (w : MethodWalk ρ) (st : List Str × List CXXMethodDecl) : Prop :=
  w.handledMethodNames = st.1 ∧
    ∀ r, (∀ current names, r ∉ leave current names) → (r ∈ w.records ↔ ∃ m ∈ st.2, record m = r)

/-- A method under its name. -/
def named (m : CXXMethodDecl) : Str × CXXMethodDecl := (m.name, m)

theorem Tracks.visitMethod {w : MethodWalk ρ} {st : List Str × List CXXMethodDecl}
    (h : Tracks record leave w st) (m : CXXMethodDecl) :
    Tracks record leave (visitMethod record w m)
      (if m.isImpl then Dedup.emit st (named m) else st) := by
  obtain ⟨hnames, hrecords⟩ := h
  unfold MethodWalk.visitMethod CXXMethodDecl.isImpl
  by_cases hvirtual : (!m.isVirtual || m.isImplicit) = true
  · have hno : (m.isVirtual && !m.isImplicit && !m.isPureVirtual) = false := by
      revert hvirtual
      cases m.isVirtual <;> cases m.isImplicit <;> simp
    rw [if_pos hvirtual, hno]
    exact ⟨hnames, hrecords⟩
  · have hyes : (m.isVirtual && !m.isImplicit && !m.isPureVirtual) = !m.isPureVirtual := by
      revert hvirtual
      cases m.isVirtual <;> cases m.isImplicit <;> simp
    rw [if_neg hvirtual, hyes]
    by_cases hseen : m.name ∈ w.handledMethodNames
    · have hemit : Dedup.emit st (named m) = st := if_pos (hnames ▸ hseen)
      rw [if_pos hseen, hemit, ite_self]
      exact ⟨hnames, hrecords⟩
    · rw [if_neg hseen]
      by_cases hpure : (!m.isPureVirtual) = true
      · have hemit : Dedup.emit st (named m) = (m.name :: st.1, st.2 ++ [m]) := by
          unfold Dedup.emit
          rw [if_neg (show (named m).1 ∉ st.1 from hnames ▸ hseen)]
          rfl
        rw [if_pos hpure, if_pos hpure, hemit]
        refine ⟨congrArg (m.name :: ·) hnames, fun r hr => ?_⟩
        simp only [List.mem_append, List.mem_singleton, hrecords r hr, or_and_right, exists_or,
          exists_eq_left]
        exact or_congr_right eq_comm
      · rw [if_neg hpure, if_neg hpure]
        exact ⟨hnames, hrecords⟩

theorem Tracks.methods {w : MethodWalk ρ} {st : List Str × List CXXMethodDecl}
    (h : Tracks record leave w st) (methods : List CXXMethodDecl) :
    Tracks record leave (methods.foldl (MethodWalk.visitMethod record) w)
      (Dedup.emitAll st ((methods.filter (·.isImpl)).map named)) := by
  induction methods generalizing w st with
  | nil => exact h
  | cons m rest ih =>
      have hrest := ih (h.visitMethod m)
      rw [List.foldl_cons, List.filter_cons]
      by_cases himpl : m.isImpl = true
      · rw [if_pos himpl] at hrest ⊢
        exact hrest
      · rw [if_neg himpl] at hrest ⊢
        exact hrest

theorem Tracks.visitClass {w : MethodWalk ρ} {st : List Str × List CXXMethodDecl}
    (h : Tracks record leave w st) (current : CXXRecordDecl) :
    Tracks record leave (visitClass record leave w current)
      (Dedup.emitAll st ((current.methods.filter (·.isImpl)).map named)) := by
  obtain ⟨hnames, hrecords⟩ := h.methods current.methods
  refine ⟨hnames, fun r hr => ?_⟩
  rw [← hrecords r hr]
  unfold MethodWalk.visitClass
  rw [List.mem_append]
  exact or_iff_left (hr current _)

theorem Tracks.classes {w : MethodWalk ρ} {st : List Str × List CXXMethodDecl}
    (h : Tracks record leave w st) (classes : List CXXRecordDecl) :
    Tracks record leave (classes.foldl (MethodWalk.visitClass record leave) w)
      (Dedup.emitAll st
        ((classes.flatMap fun current => current.methods.filter (·.isImpl)).map named)) := by
  induction classes generalizing w st with
  | nil => exact h
  | cons current rest ih =>
      have hrest := ih (h.visitClass current)
      rw [List.foldl_cons, List.flatMap_cons, List.map_append]
      unfold Dedup.emitAll at hrest ⊢
      rw [List.foldl_append]
      exact hrest

/-- A walk writes down the first method of each name. -/
theorem mem_ofClass {cls : CXXRecordDecl} {r : ρ} (hr : ∀ current names, r ∉ leave current names) :
    r ∈ (ofClass record leave cls).records ↔ ∃ m, cls.Taken m ∧ record m = r := by
  have hstart : Tracks record leave {} ([], []) := ⟨rfl, fun r hr => by simp⟩
  obtain ⟨-, hrecords⟩ := hstart.classes cls.hierarchy
  unfold ofClass
  rw [LevelOrder.walk_eq_foldl]
  refine (hrecords r hr).trans (exists_congr fun m => and_congr_left fun _ => ?_)
  rw [Dedup.mem_emitAll_first]
  simp only [List.not_mem_nil, not_false_eq_true, true_and, false_or, Dedup.firstOf_map, named,
    Option.map_id']
  constructor
  · rintro ⟨name, hfirst⟩
    have hname : m.name = name := by
      have := List.find?_some hfirst
      exact of_decide_eq_true this
    rw [← hname] at hfirst
    exact hfirst
  · exact fun htaken => ⟨m.name, htaken⟩

end MethodWalk

theorem mem_computeEffectiveImpls {cls : CXXRecordDecl} {r : ImplRecord} :
    r ∈ computeEffectiveImpls cls ↔ ∃ m, cls.Taken m ∧ implRecord cls m = r :=
  MethodWalk.mem_ofClass fun _ _ => List.not_mem_nil

theorem mem_addConcreteTypeEdges {callerUsr site : Str} {cls : CXXRecordDecl} {r : ConcreteTypeRecord}
    (hkind : r.edge.kind = .virtualDispatch) :
    r ∈ addConcreteTypeEdges callerUsr site cls ↔
      ∃ m, cls.Taken m ∧ dispatchRecord callerUsr site m = r := by
  refine MethodWalk.mem_ofClass fun current names hr => ?_
  unfold destructorRecords at hr
  split at hr
  · cases hr
  · split at hr
    · cases hr
    · obtain rfl := List.mem_singleton.mp hr
      cases hkind

/-- The graph is told of the methods taken, and of nothing else. -/
theorem CallGraph.WF.addEffectiveImpls {g : CallGraph} (hwf : g.WF) (tuPath : Str)
    (cls : CXXRecordDecl) :
    (addEffectiveImpls g tuPath (computeEffectiveImpls cls)).WF ∧
      ∀ r x y, (addEffectiveImpls g tuPath (computeEffectiveImpls cls)).spec.related r x y ↔
        g.spec.related r x y ∨ (r = .effectiveImpl ∧ y = cls.qualifiedName ∧
          ∃ m, cls.Taken m ∧ m.decl.ident.usr = x) := by
  let calls := (computeEffectiveImpls cls).map fun impl =>
    Call.effectiveImpl impl.concreteClass impl.implMethod tuPath
  have heq : Vycor.addEffectiveImpls g tuPath (computeEffectiveImpls cls) = g.register calls := by
    unfold Vycor.addEffectiveImpls CallGraph.register
    rw [List.foldl_map]
    rfl
  obtain ⟨hwf', hspec⟩ := CallGraph.register_wf_spec calls hwf
  refine ⟨heq ▸ hwf', fun r x y => ?_⟩
  rw [heq, hspec, GraphSpec.register_related]
  refine or_congr_right ?_
  constructor
  · rintro ⟨call, hcall, hrelates⟩
    obtain ⟨impl, himpl, rfl⟩ := List.mem_map.mp hcall
    obtain ⟨m, htaken, rfl⟩ := mem_computeEffectiveImpls.mp himpl
    obtain ⟨rfl, rfl, rfl⟩ :
        Relation.effectiveImpl = r ∧ m.decl.ident.usr = x ∧ cls.qualifiedName = y := by
      simpa [Call.relates, implRecord] using hrelates
    exact ⟨rfl, rfl, m, htaken, rfl⟩
  · rintro ⟨rfl, rfl, m, htaken, rfl⟩
    exact ⟨_, List.mem_map_of_mem (mem_computeEffectiveImpls.mpr ⟨m, htaken, rfl⟩), rfl⟩

namespace CXXRecordDecl

/-! ### When names are enough -/

/-- The first method of each name is what the hierarchy implements just when names are enough. -/
theorem taken_iff_implements (cls : CXXRecordDecl) :
    (∀ m, cls.Taken m ↔ cls.Implements m) ↔ cls.ByName := by
  constructor
  · intro h
    refine ⟨fun m m' hm hm' hname => ?_, fun m hm => ?_, fun before m after hsplit hnot => ?_⟩
    · exact ((h m).mpr hm).eq ((h m').mpr hm') hname
    · have himpl := (mem_declaredImpls.mp ((h m).mpr hm).mem).1
      simp only [CXXMethodDecl.isImpl, Bool.and_eq_true, Bool.not_eq_true'] at himpl
      exact himpl.1.2
    · by_contra hnone
      have htaken : cls.Taken m := by
        refine taken_iff.mpr ⟨before, after, hsplit, fun m' hm' hname => ?_⟩
        exact hnone ⟨m', hm', hname⟩
      exact hnot ((h m).mp htaken).1
  · intro h m
    have hof : ∀ m, cls.Taken m → cls.Implements m := by
      intro m htaken
      obtain ⟨before, after, hsplit, hfirst⟩ := taken_iff.mp htaken
      have himpl := (mem_declaredImpls.mp htaken.mem).1
      simp only [CXXMethodDecl.isImpl, Bool.and_eq_true, Bool.not_eq_true'] at himpl
      refine ⟨by_contra fun hnot => ?_, himpl.2⟩
      obtain ⟨m', hm', hname⟩ := h.nearest before m after hsplit hnot
      exact hfirst m' hm' hname
    refine ⟨hof m, fun hm => ?_⟩
    obtain ⟨path, hpath, hmem, hvirtual, -⟩ := hm.1
    have hdeclared : m ∈ cls.declaredImpls := by
      refine mem_declaredImpls.mpr ⟨?_, path, hpath, hmem⟩
      simp [CXXMethodDecl.isImpl, hvirtual, h.declared m hm, hm.2]
    obtain ⟨m', htaken, hname⟩ := exists_taken hdeclared
    rw [h.one m m' hm (hof m' htaken) hname.symm]
    exact htaken

end CXXRecordDecl

/-- **The effective implementations of a class and the proven dispatches of its locals are its
final overriders just when going by unqualified names is right for it.** -/
theorem effective_impls_iff (callerUsr site : Str) (cls : CXXRecordDecl) :
    ((∀ r, r ∈ computeEffectiveImpls cls ↔ ∃ m, cls.Implements m ∧ implRecord cls m = r) ∧
      ∀ r, (r ∈ addConcreteTypeEdges callerUsr site cls ∧ r.edge.kind = .virtualDispatch) ↔
        ∃ m, cls.Implements m ∧ dispatchRecord callerUsr site m = r) ↔
    cls.ByName := by
  rw [← cls.taken_iff_implements]
  constructor
  · rintro ⟨himpls, -⟩ m
    have hm := himpls (implRecord cls m)
    rw [mem_computeEffectiveImpls] at hm
    constructor
    · intro htaken
      obtain ⟨m', hm', hrecord⟩ := hm.mp ⟨m, htaken, rfl⟩
      obtain rfl : m' = m := congrArg ImplRecord.method hrecord
      exact hm'
    · intro himplements
      obtain ⟨m', hm', hrecord⟩ := hm.mpr ⟨m, himplements, rfl⟩
      obtain rfl : m' = m := congrArg ImplRecord.method hrecord
      exact hm'
  · intro h
    refine ⟨fun r => ?_, fun r => ⟨?_, ?_⟩⟩
    · rw [mem_computeEffectiveImpls]
      exact exists_congr fun m => and_congr_left fun _ => h m
    · rintro ⟨hr, hkind⟩
      obtain ⟨m, htaken, hrecord⟩ := (mem_addConcreteTypeEdges hkind).mp hr
      exact ⟨m, (h m).mp htaken, hrecord⟩
    · rintro ⟨m, himplements, rfl⟩
      exact ⟨(mem_addConcreteTypeEdges rfl).mpr ⟨m, (h m).mpr himplements, rfl⟩, rfl⟩

/-- `struct Sink { virtual void put(int); virtual void put(double); };` -/
def sinkPut (params : String) : CXXMethodDecl where
  decl := { ident := { usr := str ("c:@S@Sink@F@put#" ++ params), display := str "Sink::put" } }
  name := str "put"
  params := str params
  isVirtual := true

/-- A class with two overloads of `put`. -/
def sink : CXXRecordDecl := .mk (str "Sink") [sinkPut "int", sinkPut "double"] .nil

/-- Of two overloads only the first is recorded, and both are final overriders. -/
theorem overloads_one_recorded :
    implRecord sink (sinkPut "double") ∉ computeEffectiveImpls sink ∧
    ¬ ((∀ r, r ∈ computeEffectiveImpls sink ↔
        ∃ m, sink.Implements m ∧ implRecord sink m = r) ∧
      ∀ r, (r ∈ addConcreteTypeEdges (str "c:@F@main#") (str "a.cpp:9:8") sink ∧
          r.edge.kind = .virtualDispatch) ↔
        ∃ m, sink.Implements m ∧ dispatchRecord (str "c:@F@main#") (str "a.cpp:9:8") m = r) := by
  have hmissing : implRecord sink (sinkPut "double") ∉ computeEffectiveImpls sink := by decide
  refine ⟨hmissing, fun h => hmissing ((h.1 _).mpr ⟨_, ⟨sink.own_final _ (by decide) rfl, rfl⟩, rfl⟩)⟩

/-! ### What is recorded -/

namespace CXXRecordDecl

/-- A concrete class without virtual bases, where nothing is implicitly virtual but destructors. -/
structure Plain (cls : CXXRecordDecl) : Prop where
  concrete : ∀ m, cls.FinalOverrider m → m.isPureVirtual = false
  bases : ∀ path, cls.IsPath path → ∀ step ∈ path, step.isVirtual = false
  written : ∀ path, cls.IsPath path → ∀ m ∈ (cls.classAt path).methods,
    m.isVirtual = true → m.isImplicit = true → m.isDestructor = true

theorem IsPath.of_prefix {cls : CXXRecordDecl} {nearer path : List CXXBaseSpecifier}
    (h : cls.IsPath path) (hnearer : nearer <+: path) : cls.IsPath nearer := by
  induction nearer generalizing cls path with
  | nil => trivial
  | cons step rest ih =>
      obtain ⟨tail, rfl⟩ := hnearer
      exact ⟨h.1, ih h.2 (List.prefix_append rest tail)⟩

theorem subobject_of_plain {path : List CXXBaseSpecifier}
    (h : ∀ step ∈ path, step.isVirtual = false) : subobject path = path := by
  cases path with
  | nil => rfl
  | cons step rest =>
      refine if_neg fun hany => ?_
      obtain ⟨s, hs, hvirtual⟩ := List.any_eq_true.mp hany
      rw [h s (List.mem_cons_of_mem _ hs)] at hvirtual
      cases hvirtual

/-- In a plain hierarchy what is overridden is overridden by a final overrider on the way. -/
theorem Plain.exists_final {cls : CXXRecordDecl} (h : cls.Plain) {path : List CXXBaseSpecifier}
    (hpath : cls.IsPath path) {m : CXXMethodDecl} (hover : cls.OverriddenAt path m) :
    ∃ nearer m', nearer <+: path ∧ nearer.length < path.length ∧
      m' ∈ (cls.classAt nearer).methods ∧ m'.Overrides m ∧ cls.FinalOverrider m' := by
  have hsub : ∀ {way}, cls.IsPath way → subobject way = way :=
    fun hway => subobject_of_plain (h.bases _ hway)
  -- the overrider nearest to the class is not overridden again
  let Over (k : Nat) : Prop := ∃ nearer, nearer <+: path ∧ nearer.length = k ∧
    nearer.length < path.length ∧ ∃ m' ∈ (cls.classAt nearer).methods, m'.Overrides m
  have hsome : ∃ k, Over k := by
    obtain ⟨way, hway, hsame, nearer, hnearer, hne, hm'⟩ := hover
    rw [hsub hway, hsub hpath] at hsame
    subst hsame
    refine ⟨_, nearer, hnearer, rfl, ?_, hm'⟩
    exact Nat.lt_of_le_of_ne hnearer.length_le fun hlen => hne (hnearer.eq_of_length hlen)
  classical
  obtain ⟨nearer, hnearer, hlen, hlt, m', hm', hoverrides⟩ := Nat.find_spec hsome
  refine ⟨nearer, m', hnearer, hlt, hm', hoverrides,
    nearer, hpath.of_prefix hnearer, hm', hoverrides.1, ?_⟩
  rintro ⟨way, hway, hsame, closer, hcloser, hne, m'', hm'', hagain⟩
  rw [hsub hway, hsub (hpath.of_prefix hnearer)] at hsame
  subst hsame
  have hcloserlt : closer.length < way.length :=
    Nat.lt_of_le_of_ne hcloser.length_le fun heq => hne (hcloser.eq_of_length heq)
  refine Nat.find_min hsome (m := closer.length) (hlen ▸ hcloserlt) ⟨closer, hcloser.trans hnearer, rfl,
    hcloserlt.trans hlt, m'', hm'', hagain.1, hoverrides.2.1, hagain.2.2.trans hoverrides.2.2⟩

/-- What stands nearer is met first. -/
theorem Taken.nearest {cls : CXXRecordDecl} {m m' : CXXMethodDecl} (h : cls.Taken m)
    (himpl : m'.isImpl = true) (hname : m'.name = m.name) {path : List CXXBaseSpecifier}
    (hpath : cls.IsPath path) (hmem : m' ∈ (cls.classAt path).methods) :
    ∃ way, cls.IsPath way ∧ m ∈ (cls.classAt way).methods ∧ way.length ≤ path.length := by
  obtain ⟨deeper, hsplit⟩ := LevelOrder.order_split weight_baseDecls (path.length + 1) cls.weight_self
  unfold Taken declaredImpls hierarchy at h
  rw [hsplit, List.flatMap_append, List.find?_append, List.flatMap_assoc] at h
  cases hfirst : ((List.range (path.length + 1)).flatMap fun i =>
      (LevelOrder.level baseDecls i [cls]).flatMap fun current =>
        current.methods.filter (·.isImpl)).find? fun m' => decide (m'.name = m.name) with
  | none =>
      have hnot := List.find?_eq_none.mp hfirst m' ?_
      · exact absurd (decide_eq_true hname) hnot
      · refine List.mem_flatMap.mpr ⟨_, List.mem_range.mpr (Nat.lt_succ_self _), ?_⟩
        exact List.mem_flatMap.mpr ⟨_, mem_level.mpr ⟨path, hpath, rfl, rfl⟩,
          List.mem_filter.mpr ⟨hmem, himpl⟩⟩
  | some m₀ =>
      rw [hfirst, Option.some_or] at h
      obtain rfl := Option.some.inj h
      obtain ⟨i, hi, hlevel⟩ := List.mem_flatMap.mp (List.mem_of_find?_eq_some hfirst)
      obtain ⟨current, hcurrent, hm⟩ := List.mem_flatMap.mp hlevel
      obtain ⟨way, hway, rfl, rfl⟩ := mem_level.mp hcurrent
      exact ⟨way, hway, (List.mem_filter.mp hm).1, Nat.lt_succ_iff.mp (List.mem_range.mp hi)⟩

end CXXRecordDecl

/-- **What is recorded for a plain class, destructors apart, is a final overrider of it.** -/
theorem recorded_implements {cls : CXXRecordDecl} (h : cls.Plain) {m : CXXMethodDecl}
    (hrecord : implRecord cls m ∈ computeEffectiveImpls cls) (hdtor : m.isDestructor = false) :
    cls.Implements m := by
  obtain ⟨m', htaken, heq⟩ := mem_computeEffectiveImpls.mp hrecord
  obtain rfl : m' = m := congrArg ImplRecord.method heq
  obtain ⟨himpl, hstands⟩ := CXXRecordDecl.mem_declaredImpls.mp htaken.mem
  simp only [CXXMethodDecl.isImpl, Bool.and_eq_true, Bool.not_eq_true'] at himpl
  refine ⟨?_, himpl.2⟩
  -- of the places where the method stands, one nearest to the class
  have hsome : ∃ n, ∃ path, cls.IsPath path ∧ m' ∈ (cls.classAt path).methods ∧ path.length = n := by
    obtain ⟨path, hpath, hmem⟩ := hstands
    exact ⟨_, path, hpath, hmem, rfl⟩
  classical
  obtain ⟨path, hpath, hmem, hlen⟩ := Nat.find_spec hsome
  refine ⟨path, hpath, hmem, himpl.1.1, fun hover => ?_⟩
  obtain ⟨nearer, m₀, hnearer, hlt, hm₀, hoverrides, hfinal⟩ := h.exists_final hpath hover
  obtain ⟨hvirtual, -, hsignature⟩ := hoverrides
  have hsame : m₀.isDestructor = false ∧ m₀.name = m'.name := by
    unfold CXXMethodDecl.signature at hsignature
    rw [hdtor] at hsignature
    cases hdtor₀ : m₀.isDestructor with
    | true => simp [hdtor₀] at hsignature
    | false =>
        simp only [hdtor₀, Bool.false_eq_true, if_false, Prod.mk.injEq, Option.some.injEq] at hsignature
        exact ⟨rfl, hsignature.1⟩
  have hwritten : m₀.isImplicit = false := by
    by_contra himplicit
    have := h.written nearer (hpath.of_prefix hnearer) m₀ hm₀ hvirtual (by simpa using himplicit)
    rw [hsame.1] at this
    cases this
  have himpl₀ : m₀.isImpl = true := by
    simp [CXXMethodDecl.isImpl, hvirtual, hwritten, h.concrete m₀ hfinal]
  obtain ⟨way, hway, hmem', hle⟩ := htaken.nearest himpl₀ hsame.2 (hpath.of_prefix hnearer) hm₀
  exact Nat.find_min hsome (hlen ▸ Nat.lt_of_le_of_lt hle hlt) ⟨way, hway, hmem', rfl⟩

end Vycor
