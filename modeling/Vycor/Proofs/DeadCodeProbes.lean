/-
Two small graphs that tell dead-code requests apart.

A graph of one function shows whether an entry point names it and whether a filter lets it
pass.  A graph of three functions shows which of two entry points comes first: the first
constructs a class, the second dispatches to a method of it with a confidence that the walk
does not put off, and the method is found only when the class was constructed before.
-/
import Vycor.Model.DeadCodeTools
import Vycor.Proofs.DeadCodeWalk
import Vycor.Proofs.Provenance

namespace Vycor

open DeadCodeAnalyzer

/-- A graph that knows only names of functions starts with the entry points among them. -/
theorem starts_of_known {g : CallGraph} {known : List Str}
    (h : ∀ name, g.usrsForName name = if name ∈ known then [name] else []) (entryPoints : List Str) :
    (startUsrs g entryPoints).foldl Dedup.pushUnique []
      = (firsts entryPoints).filter (· ∈ known) := by
  have hfilter : startUsrs g entryPoints = entryPoints.filter (· ∈ known) := by
    unfold startUsrs
    induction entryPoints with
    | nil => rfl
    | cons name rest ih =>
        rw [List.flatMap_cons, ih, h]
        by_cases hname : name ∈ known <;> simp [hname]
  rw [hfilter]
  exact (Dedup.foldl_pushUnique_filter _ entryPoints []).symm

/-! ### One function -/

/-- A script that registers one function. -/
def soleFunction (name file : Str) : Script :=
  Script.empty.op (.call (.node { qualifiedName := name, file } []))

theorem soleFunction_graph (name file : Str) :
    (soleFunction name file).graph
      = { interner := ⟨[name]⟩
          nodes := (∅ : UMap SId CallGraphNode).insert 0 { qualifiedName := name, file, usr := name }
          byName := (∅ : UMap SId (List SId)).insert 0 [0] } := by
  simp [soleFunction, Script.graph, GraphOp.apply, Call.apply, CallGraph.addNode,
    CallGraphNode.withUsr, CallGraph.intern, StringInterner.intern, StringInterner.idOf,
    CallGraph.putNode, CallGraph.insertNode, UMap.upsert, Dedup.pushUnique]

theorem soleFunction_resolve (name file entry : Str) :
    (soleFunction name file).graph.resolveUsrIds entry = if entry = name then [0] else [] := by
  rw [soleFunction_graph]
  unfold CallGraph.resolveUsrIds StringInterner.find StringInterner.idOf
  by_cases h : entry = name
  · subst h
    simp only [List.mem_singleton, if_true, List.idxOf_cons_self]
    rfl
  · simp [h]

theorem soleFunction_findNode (name file : Str) :
    (soleFunction name file).graph.findNode name
      = some { qualifiedName := name, file, usr := name } := by
  unfold CallGraph.findNode
  rw [soleFunction_resolve, if_pos rfl, soleFunction_graph]
  rfl

theorem soleFunction_usrs (name file entry : Str) :
    (soleFunction name file).graph.usrsForName entry = if entry ∈ [name] then [entry] else [] := by
  unfold CallGraph.usrsForName
  rw [soleFunction_resolve, soleFunction_graph]
  by_cases h : entry = name
  · subst h
    simp [StringInterner.resolve]
  · simp [h]

theorem soleFunction_callees (name file : Str) :
    (soleFunction name file).graph.calleesOf name = [] := by
  unfold CallGraph.calleesOf
  rw [soleFunction_resolve, if_pos rfl, soleFunction_graph]
  rfl

theorem filter_one {names : List Str} (h : names.Nodup) (name : Str) :
    names.filter (· ∈ [name]) = [] ∨ names.filter (· ∈ [name]) = [name] := by
  by_cases hmem : name ∈ names
  · refine Or.inr ?_
    have hcount := List.filter_eq (l := names) name
    rw [List.count_eq_one_of_mem h hmem] at hcount
    simpa using hcount
  · refine Or.inl (List.filter_eq_nil_iff.mpr fun x hx => ?_)
    simp only [List.mem_singleton, decide_eq_true_eq]
    rintro rfl
    exact hmem hx

/-- The only function is reached when it is an entry point. -/
theorem soleFunction_bfs (name file : Str) (entryPoints : List Str) (optimistic : Bool) :
    bfs (soleFunction name file).graph entryPoints optimistic
      = (firsts entryPoints).filter (· ∈ [name]) := by
  have hstarts := starts_of_known (soleFunction_usrs name file) entryPoints
  have hcallees := soleFunction_callees name file
  unfold bfs
  rw [seeded, hstarts]
  rcases filter_one (nodup_firsts entryPoints) name with hnone | hone
  · rw [hnone]
    simp [rounds, drain]
  · rw [hone]
    simp [rounds, drain, hcallees]

theorem soleFunction_analyze (name file : Str) (entryPoints : List Str) (optimistic : Bool) :
    analyze (soleFunction name file).graph entryPoints optimistic
      = (∅ : UMap Str Liveness).insert name (if name ∈ entryPoints then .alive else .dead) := by
  have hin : ∀ opt, name ∈ bfs (soleFunction name file).graph entryPoints opt ↔ name ∈ entryPoints := by
    intro opt
    rw [soleFunction_bfs]
    simp [mem_firsts]
  have hnodes : (soleFunction name file).graph.allNodes
      = [{ qualifiedName := name, file, usr := name }] := by
    rw [soleFunction_graph]
    rfl
  unfold analyze getResults
  rw [hnodes]
  show (∅ : UMap Str Liveness).insert name _ = _
  unfold livenessOf
  by_cases h : name ∈ entryPoints <;> cases optimistic <;> simp [hin, h]

/-! ### Three functions

Two small graphs that tell requests apart: in the one a function is alive or
dead by the entry points alone, in the other by the order in which they are
looked at.
-/

/-- A function that constructs an object of its own class. -/
def constructing (name : Str) : CallGraphNode := { qualifiedName := name, enclosingClass := str "C" }

/-- A call of the function by itself. -/
def selfConstruction (name : Str) : CallGraphEdge :=
  { callerName := name, calleeName := name, kind := .constructorCall, confidence := .Proven
    callSite := name }

/-- A dispatch that the walk follows at once or never. -/
def looseDispatch (caller method : Str) : CallGraphEdge :=
  { callerName := caller, calleeName := method, kind := .virtualDispatch, confidence := .Unknown
    callSite := caller }

/-- The maker constructs the class whose method the user dispatches to. -/
def makerAndUser (maker user method : Str) : Script :=
  ((((Script.empty.op (.call (.node (constructing maker) []))).op
    (.call (.node { qualifiedName := user } []))).op
    (.call (.node (constructing method) []))).op
    (.call (.edge (selfConstruction maker) []))).op (.call (.edge (looseDispatch user method) []))

theorem addNode_new {g : CallGraph} {node : CallGraphNode} (husr : node.usr = [])
    (hnew : node.qualifiedName ∉ g.interner.strings) :
    g.addNode node
      = { g with interner := ⟨g.interner.strings ++ [node.qualifiedName]⟩ }.putNode g.interner.size
          g.interner.size { node with usr := node.qualifiedName } := by
  have hnode : node.withUsr = { node with usr := node.qualifiedName } := if_pos husr
  have hone : g.interner.intern node.qualifiedName
      = ⟨g.interner.strings ++ [node.qualifiedName]⟩ := if_neg hnew
  have hid : StringInterner.idOf ⟨g.interner.strings ++ [node.qualifiedName]⟩ node.qualifiedName
      = g.interner.size := by
    unfold StringInterner.idOf
    rw [List.idxOf_append_of_notMem hnew]
    simp [StringInterner.size]
  unfold CallGraph.addNode
  rw [hnode]
  simp only [CallGraph.intern, hone, StringInterner.intern_of_mem (t := ⟨_ ++ [_]⟩)
    (List.mem_append_right _ List.mem_cons_self), hid, ne_eq, not_true_eq_false, if_false]

theorem addEdge_known {g : CallGraph} {edge : CallGraphEdge}
    (hcaller : edge.callerName ∈ g.interner.strings) (hcallee : edge.calleeName ∈ g.interner.strings)
    (hsite : edge.callSite ∈ g.interner.strings) :
    g.addEdge edge
      = g.storeEdge
          { caller := g.interner.idOf edge.callerName, callee := g.interner.idOf edge.calleeName
            callSite := g.interner.idOf edge.callSite, kind := edge.kind
            confidence := edge.confidence, execContext := edge.execContext
            indirectionDepth := edge.indirectionDepth } 1 := by
  unfold CallGraph.addEdge
  simp only [CallGraph.intern, StringInterner.intern_of_mem hcaller,
    StringInterner.intern_of_mem hcallee, StringInterner.intern_of_mem hsite, ne_eq,
    not_true_eq_false, if_false]

/-- The functions without their calls, by ids. -/
def functionsOnly (maker user method : Str) : CallGraph :=
  (({ interner := ⟨[maker, user, method]⟩ : CallGraph }.insertNode 0 0
    { constructing maker with usr := maker }).insertNode 1 1
    { qualifiedName := user, usr := user }).insertNode 2 2
    { constructing method with usr := method }

/-- A function's own constructor call of itself. -/
def selfConstructionKey : EdgeKey SId := ⟨0, 0, 0, .constructorCall, .Proven, .synchronous, 0⟩

/-- A dispatch of unknown confidence. -/
def looseDispatchKey : EdgeKey SId := ⟨1, 2, 1, .virtualDispatch, .Unknown, .synchronous, 0⟩

section MakerAndUser

variable {maker user method : Str} (hmu : user ≠ maker) (hmm : method ≠ maker) (hum : method ≠ user)
include hmu hmm hum

/-- The graph by ids: the maker is 0, the user 1 and the method 2. -/
theorem makerAndUser_graph :
    (makerAndUser maker user method).graph
      = ((functionsOnly maker user method).storeEdge selfConstructionKey 1).storeEdge
          looseDispatchKey 1 := by
  have hmaker : ({} : CallGraph).addNode (constructing maker)
      = { interner := ⟨[maker]⟩ : CallGraph }.insertNode 0 0
          { constructing maker with usr := maker } :=
    addNode_new rfl List.not_mem_nil
  have huser : ({ interner := ⟨[maker]⟩ : CallGraph }.insertNode 0 0
        { constructing maker with usr := maker }).addNode { qualifiedName := user }
      = ({ interner := ⟨[maker, user]⟩ : CallGraph }.insertNode 0 0
          { constructing maker with usr := maker }).insertNode 1 1
          { qualifiedName := user, usr := user } :=
    addNode_new rfl (mt List.mem_singleton.mp hmu)
  have hmethod : (({ interner := ⟨[maker, user]⟩ : CallGraph }.insertNode 0 0
          { constructing maker with usr := maker }).insertNode 1 1
          { qualifiedName := user, usr := user }).addNode (constructing method)
      = functionsOnly maker user method := by
    refine addNode_new rfl ?_
    show method ∉ [maker, user]
    simp [hmm, hum]
  have hself : (functionsOnly maker user method).addEdge (selfConstruction maker)
      = (functionsOnly maker user method).storeEdge selfConstructionKey 1 := by
    have hid : (functionsOnly maker user method).interner.idOf maker = 0 := by
      show [maker, user, method].idxOf maker = 0
      simp
    have hknown : maker ∈ (functionsOnly maker user method).interner.strings := List.mem_cons_self
    refine (addEdge_known hknown hknown hknown).trans ?_
    unfold selfConstruction
    simp only [hid]
    rfl
  have hloose : ((functionsOnly maker user method).storeEdge selfConstructionKey 1).addEdge
        (looseDispatch user method)
      = ((functionsOnly maker user method).storeEdge selfConstructionKey 1).storeEdge
          looseDispatchKey 1 := by
    have hid : (functionsOnly maker user method).interner.idOf user = 1 := by
      show [maker, user, method].idxOf user = 1
      simp [Ne.symm hmu]
    have hid' : (functionsOnly maker user method).interner.idOf method = 2 := by
      show [maker, user, method].idxOf method = 2
      simp [Ne.symm hmm, Ne.symm hum]
    have hknown : user ∈ [maker, user, method] := by simp
    have hknown' : method ∈ [maker, user, method] := by simp
    refine (addEdge_known hknown hknown' hknown).trans ?_
    unfold looseDispatch
    show ((functionsOnly maker user method).storeEdge selfConstructionKey 1).storeEdge
      { caller := (functionsOnly maker user method).interner.idOf user
        callee := (functionsOnly maker user method).interner.idOf method
        callSite := (functionsOnly maker user method).interner.idOf user
        kind := .virtualDispatch, confidence := .Unknown, execContext := .synchronous
        indirectionDepth := 0 } 1 = _
    rw [hid, hid']
    rfl
  show ((((({} : CallGraph).addNode (constructing maker)).addNode { qualifiedName := user }).addNode
    (constructing method)).addEdge (selfConstruction maker)).addEdge (looseDispatch user method) = _
  rw [hmaker, huser, hmethod, hself, hloose]

theorem makerAndUser_resolve (name : Str) :
    (makerAndUser maker user method).graph.resolveUsrIds name
      = if name = maker then [0] else if name = user then [1] else if name = method then [2]
        else [] := by
  have hfind : (makerAndUser maker user method).graph.interner.find name
      = if name = maker then some 0 else if name = user then some 1
        else if name = method then some 2 else none := by
    rw [makerAndUser_graph hmu hmm hum]
    show (if name ∈ [maker, user, method] then some ([maker, user, method].idxOf name) else none) = _
    by_cases hmaker : name = maker
    · subst hmaker
      simp
    · by_cases huser : name = user
      · subst huser
        simp [hmaker, Ne.symm hmaker]
      · by_cases hmethod : name = method
        · subst hmethod
          simp [hmaker, huser, Ne.symm hmaker, Ne.symm huser]
        · simp [hmaker, huser, hmethod]
  unfold CallGraph.resolveUsrIds
  rw [hfind, makerAndUser_graph hmu hmm hum]
  by_cases hmaker : name = maker
  · simp only [hmaker, if_true]
    rfl
  · by_cases huser : name = user
    · simp only [huser, hmu, if_true, if_false]
      rfl
    · by_cases hmethod : name = method
      · simp only [hmethod, hmm, hum, if_true, if_false]
        rfl
      · simp only [hmaker, huser, hmethod, if_false]

theorem makerAndUser_usrs (name : Str) :
    (makerAndUser maker user method).graph.usrsForName name
      = if name ∈ [maker, user, method] then [name] else [] := by
  unfold CallGraph.usrsForName
  rw [makerAndUser_resolve hmu hmm hum, makerAndUser_graph hmu hmm hum]
  by_cases hmaker : name = maker
  · subst hmaker
    simp
    rfl
  · by_cases huser : name = user
    · subst huser
      simp [hmaker]
      rfl
    · by_cases hmethod : name = method
      · subst hmethod
        simp [hmaker, huser]
        rfl
      · simp [hmaker, huser, hmethod]

theorem makerAndUser_callees_maker :
    (makerAndUser maker user method).graph.calleesOf maker
      = [{ selfConstruction maker with callerUsr := maker, calleeUsr := maker }] := by
  unfold CallGraph.calleesOf
  rw [makerAndUser_resolve hmu hmm hum, if_pos rfl, makerAndUser_graph hmu hmm hum]
  rfl

theorem makerAndUser_callees_user :
    (makerAndUser maker user method).graph.calleesOf user
      = [{ looseDispatch user method with callerUsr := user, calleeUsr := method }] := by
  unfold CallGraph.calleesOf
  rw [makerAndUser_resolve hmu hmm hum, if_neg hmu, if_pos rfl, makerAndUser_graph hmu hmm hum]
  rfl

theorem makerAndUser_callees_method :
    (makerAndUser maker user method).graph.calleesOf method = [] := by
  unfold CallGraph.calleesOf
  rw [makerAndUser_resolve hmu hmm hum, if_neg hmm, if_neg hum, if_pos rfl,
    makerAndUser_graph hmu hmm hum]
  rfl

theorem makerAndUser_findNode_maker :
    (makerAndUser maker user method).graph.findNode maker
      = some { constructing maker with usr := maker } := by
  unfold CallGraph.findNode
  rw [makerAndUser_resolve hmu hmm hum, if_pos rfl, makerAndUser_graph hmu hmm hum]
  rfl

theorem makerAndUser_findNode_method :
    (makerAndUser maker user method).graph.findNode method
      = some { constructing method with usr := method } := by
  unfold CallGraph.findNode
  rw [makerAndUser_resolve hmu hmm hum, if_neg hmm, if_neg hum, if_pos rfl,
    makerAndUser_graph hmu hmm hum]
  rfl

theorem makerAndUser_classes :
    (makerAndUser maker user method).graph.getClassesForImpl method = [] := by
  unfold CallGraph.getClassesForImpl CallGraph.relatedTo
  rw [makerAndUser_resolve hmu hmm hum, if_neg hmm, if_neg hum, if_pos rfl,
    makerAndUser_graph hmu hmm hum]
  rfl

theorem makerAndUser_size : (makerAndUser maker user method).graph.interner.size = 3 := by
  rw [makerAndUser_graph hmu hmm hum]
  rfl

theorem makerAndUser_visit_maker (optimistic : Bool) (w : Walk) :
    [{ selfConstruction maker with callerUsr := maker, calleeUsr := maker }].foldl
        (visitEdge (makerAndUser maker user method).graph optimistic) w
      = enqueue (if str "C" ∈ w.constructedClasses then w
          else { w with constructedClasses := w.constructedClasses ++ [str "C"], changed := true })
          maker := by
  have hclass : str "C" ≠ [] := by decide
  have hfind := makerAndUser_findNode_maker hmu hmm hum
  simp only [List.foldl_cons, List.foldl_nil, visitEdge, noteConstructed, shouldFollowEdge,
    selfConstruction, hfind, constructing, if_true, hclass, ne_eq, not_false_eq_true, true_and,
    ite_not]

theorem makerAndUser_visit_user (w : Walk) :
    [{ looseDispatch user method with callerUsr := user, calleeUsr := method }].foldl
        (visitEdge (makerAndUser maker user method).graph true) w
      = if str "C" ∈ w.constructedClasses then enqueue w method else w := by
  have hclass : str "C" ≠ [] := by decide
  have hfind := makerAndUser_findNode_method hmu hmm hum
  have hclasses := makerAndUser_classes hmu hmm hum
  simp [visitEdge, noteConstructed, shouldFollowEdge, isConstructed, looseDispatch, hfind, hclasses,
    constructing, hclass]

/-- The maker comes first, and the method is found. -/
theorem makerAndUser_found {entryPoints : List Str}
    (h : (firsts entryPoints).filter (· ∈ [maker, user, method]) = [maker, user]) :
    bfs (makerAndUser maker user method).graph entryPoints true = [maker, user, method] := by
  have hmaker := makerAndUser_visit_maker hmu hmm hum
  have huser := makerAndUser_visit_user hmu hmm hum
  unfold bfs
  rw [seeded, starts_of_known (makerAndUser_usrs hmu hmm hum), h]
  simp [rounds, drain, makerAndUser_size hmu hmm hum, makerAndUser_callees_maker hmu hmm hum,
    makerAndUser_callees_user hmu hmm hum, makerAndUser_callees_method hmu hmm hum, hmaker, huser,
    enqueue, hmm, hum]

/-- The user comes first, and the method is not found. -/
theorem makerAndUser_missed {entryPoints : List Str}
    (h : (firsts entryPoints).filter (· ∈ [maker, user, method]) = [user, maker]) :
    bfs (makerAndUser maker user method).graph entryPoints true = [user, maker] := by
  have hmaker := makerAndUser_visit_maker hmu hmm hum
  have huser := makerAndUser_visit_user hmu hmm hum
  unfold bfs
  rw [seeded, starts_of_known (makerAndUser_usrs hmu hmm hum), h]
  simp [rounds, drain, makerAndUser_size hmu hmm hum, makerAndUser_callees_maker hmu hmm hum,
    makerAndUser_callees_user hmu hmm hum, hmaker, huser, enqueue]

theorem makerAndUser_start {entryPoints : List Str} {name : Str} :
    name ∈ startUsrs (makerAndUser maker user method).graph entryPoints
      ↔ name ∈ entryPoints ∧ name ∈ [maker, user, method] := by
  unfold startUsrs
  simp only [List.mem_flatMap, makerAndUser_usrs hmu hmm hum]
  constructor
  · rintro ⟨entry, hentry, hname⟩
    split at hname
    · rename_i hknown
      rw [List.mem_singleton.mp hname]
      exact ⟨hentry, hknown⟩
    · exact absurd hname List.not_mem_nil
  · rintro ⟨hentry, hknown⟩
    exact ⟨name, hentry, by simp only [if_pos hknown, List.mem_singleton]⟩

/-- Only the call of the maker by itself is Proven. -/
theorem makerAndUser_proven {usr callee : Str}
    (h : callee ∈ provenCallees (makerAndUser maker user method).graph usr) : callee = maker := by
  by_cases hmaker : usr = maker
  · subst hmaker
    rw [provenCallees, makerAndUser_callees_maker hmu hmm hum] at h
    simpa [selfConstruction] using h
  · by_cases huser : usr = user
    · subst huser
      rw [provenCallees, makerAndUser_callees_user hmu hmm hum] at h
      simp [looseDispatch] at h
    · by_cases hmethod : usr = method
      · subst hmethod
        rw [provenCallees, makerAndUser_callees_method hmu hmm hum] at h
        simp at h
      · have hresolve := makerAndUser_resolve hmu hmm hum usr
        rw [if_neg hmaker, if_neg huser, if_neg hmethod] at hresolve
        rw [provenCallees, CallGraph.calleesOf, hresolve] at h
        simp at h

theorem makerAndUser_unproven {entryPoints : List Str} (h : method ∉ entryPoints) :
    method ∉ bfs (makerAndUser maker user method).graph entryPoints false := by
  rw [mem_bfs]
  rintro ⟨start, hstart, hpath⟩
  cases hpath with
  | refl => exact h ((makerAndUser_start hmu hmm hum).mp hstart).1
  | tail _ hstep => exact hmm (makerAndUser_proven hmu hmm hum hstep)

theorem makerAndUser_seeded {entryPoints : List Str} {name : Str} (h : name ∈ entryPoints)
    (hknown : name ∈ [maker, user, method]) :
    name ∈ bfs (makerAndUser maker user method).graph entryPoints false :=
  (mem_bfs _ _ _).mpr ⟨name, (makerAndUser_start hmu hmm hum).mpr ⟨h, hknown⟩, .refl⟩

omit hmu hmm hum in
theorem record_new {results : UMap Str Liveness} {name : Str}
    (h : name ∉ results.entries.map (·.1)) (verdict : Liveness) :
    (record results name verdict).entries = ⟨name, verdict⟩ :: results.entries := by
  have hmem : name ∉ results := h
  unfold record
  rw [AList.lookup_eq_none.mpr hmem]
  exact AList.entries_insert_of_notMem hmem

/-- The verdict on the method tells whether the walk found it. -/
theorem makerAndUser_analyze {entryPoints : List Str} (hmaker : maker ∈ entryPoints)
    (huser : user ∈ entryPoints) (hmethod : method ∉ entryPoints) :
    (analyze (makerAndUser maker user method).graph entryPoints true).entries.map (·.2)
      = [.alive, .alive,
          if method ∈ bfs (makerAndUser maker user method).graph entryPoints true then
            .optimisticallyAlive else .dead] := by
  have hnodes : (makerAndUser maker user method).graph.allNodes
      = [{ constructing method with usr := method }, { qualifiedName := user, usr := user },
          { constructing maker with usr := maker }] := by
    rw [makerAndUser_graph hmu hmm hum]
    rfl
  have hm := makerAndUser_seeded hmu hmm hum hmaker (by simp)
  have hu := makerAndUser_seeded hmu hmm hum huser (by simp)
  have hx := makerAndUser_unproven hmu hmm hum hmethod
  unfold analyze getResults
  rw [hnodes]
  simp only [List.foldl_cons, List.foldl_nil, constructing]
  rw [record_new, record_new, record_new]
  · simp [livenessOf, hm, hu, hx]
  · exact List.not_mem_nil
  · rw [record_new List.not_mem_nil]
    simpa using Ne.symm hum
  · rw [record_new, record_new List.not_mem_nil]
    · simpa using ⟨Ne.symm hmu, Ne.symm hmm⟩
    · rw [record_new List.not_mem_nil]
      simpa using Ne.symm hum

end MakerAndUser

end Vycor
