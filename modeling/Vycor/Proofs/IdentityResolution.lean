/-
What an identity parameter resolves to.

`remaining` says which functions a request can mean, by the nodes of the graph and the live
contexts of its call site: the usr it gives; else the callees at the site it gives that agree
with its name; else the functions its name stands for, those the filter matches where there is
a choice and the filter matches any.  `Contract` is the promise over such a set: an identity is
the only member, and two members are never merged but listed, in the order of their usrs and as
JSON has them: a usr that is not UTF-8 is listed as `fixUTF8` repairs it, which may be as another
one is.

Every branch of `resolveIdentity` ends in a list that stands for its set, so the contract is
proved once for each length a list can have.
-/
import Vycor.Proofs.IndexOrder
import Vycor.Proofs.LiveFixpoint
import Vycor.Proofs.SiteAmbiguity

namespace Vycor

open ControlFlowIndex (History)

/-! ### What a request can mean

A set of functions, said without the code: the usr given, the functions called
at the site or those the name resolves to, narrowed by the name or the filter.
-/

namespace Identity

/-- The filter is in the usr, or in the name or the file of its node. -/
def Matches (G : GraphSpec) (filter usr : Str) : Prop :=
  filter <:+: usr ∨ ∃ n, G.node usr = some n ∧ (filter <:+: n.qualifiedName ∨ filter <:+: n.file)

/-- Some live context of the site calls the function; one without a usr goes by its name. -/
def CalledAt (cf : ControlFlowIndex) (site usr : Str) : Prop :=
  ∃ c ∈ cf.liveAtSite site, (if c.calleeUsr = [] then c.calleeName else c.calleeUsr) = usr

/-- The filter is asked when there are several, and counts when it matches one of them. -/
def narrowed (G : GraphSpec) (C : Set Str) (filter : Option Str) : Set Str :=
  {u ∈ C | ∀ f, filter = some f → C.Nontrivial → (∃ v ∈ C, Matches G f v) → Matches G f u}

/-- **The functions a request can mean.** -/
def remaining (G : GraphSpec) (cf : ControlFlowIndex) (args : JsonObject)
    (nameParam usrParam : Str) : Set Str :=
  match args.getString usrParam with
  | some usr => {usr}
  | none =>
    match args.getString (companionParam usrParam (str "site")) with
    | some site =>
      {u | CalledAt cf site u ∧
        ∀ name, args.getString nameParam = some name → u = name ∨ G.Resolves name u}
    | none =>
      match args.getString nameParam with
      | some name =>
        narrowed G {u | G.Resolves name u} (args.getString (companionParam usrParam (str "filter")))
      | none => ∅

/-- An identity is the only candidate; several candidates are listed, in order, up to the
cap, in their UTF-8 spellings. -/
structure Contract (fixUTF8 : Str → Str) (C : Set Str) (out : Resolved) : Prop where
  single : ∀ u, out = .identity u ↔ C = {u}
  several : C.Nontrivial → ∃ (response : Json) (order : List Str),
    out = .response response ∧ IsAmbiguity response ∧
    order.Pairwise (· < ·) ∧ (∀ u, u ∈ order ↔ u ∈ C) ∧
    listed (str "usr") response = (order.take kMaxAmbiguousCandidates).map (utf8Text fixUTF8)

/-! ### Lists that stand for a set -/

/-- The list has the members of the set, each once. -/
def Lists (l : List Str) (C : Set Str) : Prop := l.Nodup ∧ ∀ u, u ∈ l ↔ u ∈ C

theorem mem_sortStrs {l : List Str} {u : Str} : u ∈ sortStrs l ↔ u ∈ l :=
  (List.mergeSort_perm l _).mem_iff

theorem pairwise_sortStrs {l : List Str} (h : l.Nodup) : (sortStrs l).Pairwise (· < ·) := by
  have hle : (sortStrs l).Pairwise fun a b => ¬ b < a :=
    (Ordered.pairwise_sortBy strict_strLess id l).imp fun hab => by simpa [strLess] using hab
  have hne : (sortStrs l).Nodup := (List.mergeSort_perm l _).nodup_iff.mpr h
  refine (List.pairwise_and_iff.mpr ⟨hle, hne⟩).imp ?_
  rintro a b ⟨hba, hab⟩
  exact by_contra fun hlt => hab (List.le_antisymm hba hlt)

theorem lists_strSet (l : List Str) : Lists (strSet l) {u | u ∈ l} := by
  refine ⟨(List.mergeSort_perm _ _).nodup_iff.mpr
    (Dedup.nodup_foldl_pushUnique l List.nodup_nil), ?_⟩
  intro u
  unfold strSet
  rw [mem_sortStrs, Dedup.mem_foldl_pushUnique]
  simp

theorem Lists.filter {l : List Str} {C : Set Str} (h : Lists l C) {p : Str → Bool}
    {P : Str → Prop} (hp : ∀ u ∈ C, p u = true ↔ P u) : Lists (l.filter p) {u ∈ C | P u} := by
  refine ⟨h.1.filter p, ?_⟩
  intro u
  rw [List.mem_filter, h.2]
  exact and_congr_right fun hu => hp u hu

theorem Lists.nontrivial {l : List Str} {C : Set Str} (h : Lists l C) (hlen : 2 ≤ l.length) :
    C.Nontrivial := by
  match l with
  | [] => cases hlen
  | [only] => simp at hlen
  | a :: b :: rest =>
      refine ⟨a, (h.2 a).mp List.mem_cons_self, b,
        (h.2 b).mp (List.mem_cons_of_mem _ List.mem_cons_self), ?_⟩
      rintro rfl
      exact (List.nodup_cons.mp h.1).1 List.mem_cons_self

theorem two_le_length {l : List Str} (hnil : l = [] → False) (hone : ∀ u, l = [u] → False) :
    2 ≤ l.length := by
  match l with
  | [] => exact (hnil rfl).elim
  | [only] => exact (hone only rfl).elim
  | _ :: _ :: rest => exact Nat.le_add_left 2 rest.length

theorem Lists.singleton {u : Str} {C : Set Str} (h : Lists [u] C) : C = {u} := by
  ext v
  rw [← h.2, List.mem_singleton]
  rfl

theorem Lists.empty {C : Set Str} (h : Lists [] C) : C = ∅ := by
  ext v
  rw [← h.2]
  simp

/-! ### The contract, by the length of the list -/

variable {fixUTF8 : Str → Str}

theorem contract_none {C : Set Str} {out : Resolved} (h : Lists [] C)
    (hout : ∀ u, out ≠ .identity u) : Contract fixUTF8 C out := by
  rw [h.empty]
  refine ⟨?_, fun hmany => absurd hmany (by simp)⟩
  intro u
  exact iff_of_false (hout u) (Set.singleton_ne_empty u).symm

theorem contract_one {C : Set Str} {u : Str} (h : Lists [u] C) :
    Contract fixUTF8 C (.identity u) := by
  rw [h.singleton]
  refine ⟨?_, fun hmany => absurd hmany Set.not_nontrivial_singleton⟩
  intro v
  rw [Resolved.identity.injEq, Set.singleton_eq_singleton_iff]

theorem isAmbiguity_name (g : CallGraph) (paramName name : Str) (usrs : List Str) (note : Str) :
    IsAmbiguity (makeAmbiguousNameResult fixUTF8 g paramName name usrs note) :=
  ⟨_, rfl, by
    rw [List.cons_append, List.cons_append, List.cons_append, field, JsonObject.getBoolean,
      JsonObject.get_cons_self]⟩

/-- The response lists the first candidates in the order of their usrs. -/
theorem listed_name (g : CallGraph) (paramName name : Str) (usrs : List Str) (note : Str) :
    listed (str "usr") (makeAmbiguousNameResult fixUTF8 g paramName name usrs note)
      = ((sortStrs usrs).take kMaxAmbiguousCandidates).map (utf8Text fixUTF8) := by
  have husr : ∀ usr, stringOf (str "usr") (candidateToJson fixUTF8 g name usr)
      = some (utf8Text fixUTF8 usr) := by
    intro usr
    unfold candidateToJson stringOf jsonString
    dsimp only
    rw [field, JsonObject.getString, JsonObject.get_cons_self]
  unfold makeAmbiguousNameResult listed
  simp (disch := decide) only [List.cons_append, JsonObject.getArray, field,
    JsonObject.get_cons_of_ne, JsonObject.get_cons_self, Option.getD_some, List.filterMap_map]
  have hall : stringOf (str "usr") ∘ candidateToJson fixUTF8 g name
      = some ∘ utf8Text fixUTF8 := funext husr
  rw [hall, List.filterMap_eq_map]

/-- **Several candidates are listed.** -/
theorem contract_several {l : List Str} {C : Set Str} (h : Lists l C) (hlen : 2 ≤ l.length)
    (g : CallGraph) (paramName name note : Str) :
    Contract fixUTF8 C (.response (makeAmbiguousNameResult fixUTF8 g paramName name l note)) := by
  refine ⟨?_, fun _ => ?_⟩
  · intro u
    refine iff_of_false (by simp) ?_
    rintro rfl
    exact Set.not_nontrivial_singleton (h.nontrivial hlen)
  · refine ⟨_, sortStrs l, rfl, isAmbiguity_name _ _ _ _ _, pairwise_sortStrs h.1, ?_,
      listed_name _ _ _ _ _⟩
    intro u
    rw [mem_sortStrs, h.2]

/-! ### Call sites -/

variable {g : CallGraph} {cf : ControlFlowIndex}

theorem lists_calleesAtSite (hcf : cf.WF) (site : Str) :
    Lists (calleesAtSite cf site) {u | CalledAt cf site u} := by
  unfold calleesAtSite
  rw [hcf.contextsAtSite_eq]
  exact ⟨(lists_strSet _).1, fun u => ((lists_strSet _).2 u).trans List.mem_map⟩

end Identity

namespace CallGraph

variable {g : CallGraph}

theorem WF.interned_usr (hwf : g.WF) {name u : Str} (hname : name ∈ g.interner.strings)
    (h : g.spec.Resolves name u) : u ∈ g.interner.strings := by
  rcases h with ⟨-, rfl⟩ | ⟨-, n, hn, -⟩ | ⟨-, -, rfl⟩
  · exact hname
  · exact (hwf.node_usr hn).2.1
  · exact hname

/-- The usrs of a name that the graph has met. -/
theorem WF.mem_usrsForName (hwf : g.WF) {name : Str} (hname : name ∈ g.interner.strings)
    (u : Str) : u ∈ g.usrsForName name ↔ g.spec.Resolves name u := by
  unfold usrsForName
  simp only [List.mem_map, hwf.mem_resolveUsrIds hname]
  constructor
  · rintro ⟨_, ⟨v, hv, rfl⟩, rfl⟩
    rwa [StringInterner.resolve_idOf (hwf.interned_usr hname hv)]
  · intro hu
    exact ⟨_, ⟨u, hu, rfl⟩, StringInterner.resolve_idOf (hwf.interned_usr hname hu)⟩

/-- A name that the graph has not met stands for itself. -/
theorem WF.resolves_unknown (hwf : g.WF) {name : Str} (hname : name ∉ g.interner.strings)
    (u : Str) : g.spec.Resolves name u ↔ u = name := by
  have hown : g.spec.Own name := by
    refine Or.inr ?_
    rintro v n hn rfl
    exact hname (hwf.node_usr hn).2.2
  exact hown.resolves_iff

theorem WF.nodup_usrsForName (hwf : g.WF) (name : Str) : (g.usrsForName name).Nodup := by
  by_cases hname : name ∈ g.interner.strings
  · have hids : (g.resolveUsrIds name).Nodup := by
      unfold resolveUsrIds
      cases g.interner.find name with
      | none => exact List.nodup_nil
      | some id =>
          dsimp only
          split
          · exact List.nodup_singleton id
          · cases hby : g.byName.lookup id with
            | none => exact List.nodup_singleton id
            | some candidates =>
                have hnodup := (hwf.nodes id).1
                rw [UMap.getD, hby] at hnodup
                dsimp only
                split
                · exact List.nodup_singleton id
                · exact hnodup
    refine hids.map_on ?_
    intro i hi j hj hij
    obtain ⟨u, hu, rfl⟩ := (hwf.mem_resolveUsrIds hname i).mp hi
    obtain ⟨v, hv, rfl⟩ := (hwf.mem_resolveUsrIds hname j).mp hj
    rw [StringInterner.resolve_idOf (hwf.interned_usr hname hu),
      StringInterner.resolve_idOf (hwf.interned_usr hname hv)] at hij
    rw [hij]
  · unfold usrsForName
    rw [resolveUsrIds_unknown hname]
    exact List.nodup_nil

end CallGraph

namespace Identity

variable {g : CallGraph} {ctx : ToolContext} {args : JsonObject}

/-! ### The branches

Each branch of the resolution has a list for its set, and the contract follows
from the length of the list.
-/

theorem matchesFilter_iff (hwf : g.WF) {filter usr : Str} (hown : g.spec.Own usr) :
    matchesFilter g filter usr = true ↔ Matches g.spec filter usr := by
  unfold matchesFilter Matches
  rw [DeadCodeAnalyzer.findNode_own hwf hown]
  cases g.spec.node usr with
  | none => simp [strContains]
  | some n => simp [strContains]

theorem exists_resolves (G : GraphSpec) (name : Str) : ∃ u, G.Resolves name u := by
  by_cases hnode : (G.node name).isSome = true
  · exact ⟨name, Or.inl ⟨hnode, rfl⟩⟩
  · have hnone := Option.not_isSome_iff_eq_none.mp hnode
    by_cases hshown : ∃ u n, G.node u = some n ∧ n.qualifiedName = name
    · obtain ⟨u, n, hn, hname⟩ := hshown
      exact ⟨u, Or.inr (Or.inl ⟨hnone, n, hn, hname⟩)⟩
    · refine ⟨name, Or.inr (Or.inr ⟨hnone, ?_, rfl⟩)⟩
      intro u n hn hname
      exact hshown ⟨u, n, hn, hname⟩

/-- The candidates of a name; one that was never met stands for itself. -/
theorem lists_usrsForName (hwf : g.WF) (name : Str) :
    Lists (if g.usrsForName name = [] then [name] else g.usrsForName name)
      {u | g.spec.Resolves name u} := by
  by_cases hname : name ∈ g.interner.strings
  · have hmem := hwf.mem_usrsForName hname
    obtain ⟨u, hu⟩ := exists_resolves g.spec name
    rw [if_neg (List.ne_nil_of_mem ((hmem u).mpr hu))]
    exact ⟨hwf.nodup_usrsForName name, hmem⟩
  · have hnil : g.usrsForName name = [] := by
      unfold CallGraph.usrsForName
      rw [CallGraph.resolveUsrIds_unknown hname]
      rfl
    rw [if_pos hnil]
    refine ⟨List.nodup_singleton name, fun u => ?_⟩
    exact List.mem_singleton.trans (hwf.resolves_unknown hname u).symm

/-- A name agrees with its candidates and with itself. -/
theorem mem_agreeing (hwf : g.WF) (name u : Str) :
    u ∈ name :: g.usrsForName name ↔ u = name ∨ g.spec.Resolves name u := by
  have hlists := (lists_usrsForName hwf name).2 u
  by_cases hnil : g.usrsForName name = []
  · rw [if_pos hnil, List.mem_singleton] at hlists
    rw [hnil, List.mem_singleton]
    exact ⟨Or.inl, fun h => h.elim id hlists.mpr⟩
  · rw [if_neg hnil] at hlists
    rw [List.mem_cons, hlists]
    rfl

/-- What the name leaves of the callees at a site. -/
theorem lists_agreeing (hwf : ctx.graph.WF) (hcf : ctx.cfIndex.WF) (name : Option Str)
    (site : Str) :
    Lists (match name with
      | none => calleesAtSite ctx.cfIndex site
      | some n => (calleesAtSite ctx.cfIndex site).filter (· ∈ n :: ctx.graph.usrsForName n))
      {u | CalledAt ctx.cfIndex site u ∧
        ∀ n, name = some n → u = n ∨ ctx.graph.spec.Resolves n u} := by
  have hcallees := lists_calleesAtSite hcf site
  cases name with
  | none =>
      refine ⟨hcallees.1, fun u => (hcallees.2 u).trans ?_⟩
      exact ⟨fun hu => ⟨hu, by simp⟩, And.left⟩
  | some n =>
      refine hcallees.filter fun u _ => ?_
      rw [decide_eq_true_iff, mem_agreeing hwf]
      simp

theorem resolveSite_contract (hwf : ctx.graph.WF) (hcf : ctx.cfIndex.WF) (usrParam : Str)
    (name : Option Str) (site : Str) :
    Contract ctx.fixUTF8 {u | CalledAt ctx.cfIndex site u ∧
      ∀ n, name = some n → u = n ∨ ctx.graph.spec.Resolves n u}
      (resolveSite ctx usrParam name site) := by
  have hagreeing := lists_agreeing hwf hcf name site
  unfold resolveSite
  cases hlist : calleesAtSite ctx.cfIndex site with
  | nil =>
      refine contract_none ?_ fun u => Resolved.noConfusion
      rw [hlist] at hagreeing
      cases name with
      | none => exact hagreeing
      | some n => exact hagreeing
  | cons first others =>
      rw [hlist] at hagreeing
      dsimp only
      split
      · rename_i hnil
        exact contract_none (hnil ▸ hagreeing) fun u => Resolved.noConfusion
      · rename_i only hone
        exact contract_one (hone ▸ hagreeing)
      · rename_i hnil hone
        exact contract_several hagreeing (two_le_length hnil hone) _ _ _ _

theorem narrowed_subsingleton {G : GraphSpec} {C : Set Str} (h : C.Subsingleton)
    (filter : Option Str) : narrowed G C filter = C := by
  refine Set.Subset.antisymm (Set.sep_subset _ _) ?_
  intro u hu
  exact ⟨hu, fun f _ hmany => absurd h (Set.not_subsingleton_iff.mpr hmany)⟩

/-- Where there is a choice, the filter decides when it matches. -/
theorem narrowed_some {G : GraphSpec} {C : Set Str} (hC : C.Nontrivial) {f v : Str} (hv : v ∈ C)
    (hmatch : Matches G f v) : narrowed G C (some f) = {u ∈ C | Matches G f u} := by
  ext u
  refine and_congr_right fun _ => ?_
  constructor
  · exact fun h => h f rfl hC ⟨v, hv, hmatch⟩
  · rintro h f' hf - -
    exact Option.some_inj.mp hf ▸ h

theorem narrowed_unmatched {G : GraphSpec} {C : Set Str} {f : Str}
    (h : ∀ v ∈ C, ¬ Matches G f v) : narrowed G C (some f) = C := by
  refine Set.Subset.antisymm (Set.sep_subset _ _) ?_
  intro u hu
  refine ⟨hu, fun f' hf _ => ?_⟩
  rintro ⟨v, hv, hmatch⟩
  exact absurd (Option.some_inj.mp hf ▸ hmatch) (h v hv)

theorem resolveName_contract (fixUTF8 : Str → Str) (hwf : g.WF) (nameParam name : Str)
    (filter : Option Str) :
    Contract fixUTF8 (narrowed g.spec {u | g.spec.Resolves name u} filter)
      (resolveName fixUTF8 g nameParam name filter) := by
  have hlists := lists_usrsForName hwf name
  unfold resolveName
  match husrs : g.usrsForName name with
  | [] =>
      rw [husrs, if_pos rfl] at hlists
      rw [hlists.singleton, narrowed_subsingleton Set.subsingleton_singleton, ← hlists.singleton]
      exact contract_one hlists
  | [usr] =>
      rw [husrs, if_neg (by simp)] at hlists
      rw [hlists.singleton, narrowed_subsingleton Set.subsingleton_singleton, ← hlists.singleton]
      exact contract_one hlists
  | a :: b :: rest =>
      rw [husrs, if_neg (by simp)] at hlists
      have htwo : 2 ≤ (a :: b :: rest).length := Nat.le_add_left 2 rest.length
      have hmany := hlists.nontrivial htwo
      cases filter with
      | none =>
          have hall : narrowed g.spec {u | g.spec.Resolves name u} none
              = {u | g.spec.Resolves name u} := by
            ext u
            simp [narrowed]
          rw [hall]
          exact contract_several hlists htwo _ _ _ _
      | some f =>
          have hkept : Lists ((a :: b :: rest).filter (matchesFilter g f))
              {u ∈ {u | g.spec.Resolves name u} | Matches g.spec f u} :=
            hlists.filter fun u hu => matchesFilter_iff hwf (GraphSpec.Resolves.own hu)
          -- The set is narrowed exactly when the filter keeps some candidate.
          have hsome : ∀ v ∈ (a :: b :: rest).filter (matchesFilter g f),
              narrowed g.spec {u | g.spec.Resolves name u} (some f)
                = {u ∈ {u | g.spec.Resolves name u} | Matches g.spec f u} := by
            intro v hv
            obtain ⟨hmem, hmatch⟩ := (hkept.2 v).mp hv
            exact narrowed_some hmany hmem hmatch
          dsimp only
          split
          · rename_i usr hone
            rw [hsome usr (by simp [hone])]
            exact contract_one (hone ▸ hkept)
          · rename_i hnil
            rw [hnil] at hkept
            rw [narrowed_unmatched fun v hv hmatch =>
              absurd ((hkept.2 v).mpr ⟨hv, hmatch⟩) List.not_mem_nil]
            exact contract_several hlists htwo _ _ _ _
          · rename_i hone hnil
            have hlen := two_le_length hnil hone
            rw [hsome _ (List.getElem_mem (by omega : 0 < _))]
            exact contract_several hkept hlen _ _ _ _

/-- The request again, with a usr. -/
def withUsr (args : JsonObject) (usrParam usr : Str) : JsonObject :=
  (usrParam, .string usr) :: args

theorem resolveIdentity_withUsr (args : JsonObject) (ctx : ToolContext)
    (nameParam usrParam usr : Str) :
    resolveIdentity (withUsr args usrParam usr) ctx nameParam usrParam = .identity usr := by
  unfold resolveIdentity
  rw [withUsr, JsonObject.getString, JsonObject.get_cons_self]

theorem resolveIdentity_contract (ctx : ToolContext) (hwf : ctx.graph.WF) (hcf : ctx.cfIndex.WF)
    (args : JsonObject) (nameParam usrParam : Str) :
    Contract ctx.fixUTF8 (remaining ctx.graph.spec ctx.cfIndex args nameParam usrParam)
      (resolveIdentity args ctx nameParam usrParam) := by
  unfold remaining resolveIdentity
  cases args.getString usrParam with
  | some usr => exact contract_one ⟨List.nodup_singleton usr, fun u => List.mem_singleton⟩
  | none =>
      cases args.getString (companionParam usrParam (str "site")) with
      | some site => exact resolveSite_contract hwf hcf usrParam _ site
      | none =>
          cases args.getString nameParam with
          | some name => exact resolveName_contract _ hwf nameParam name _
          | none =>
              refine contract_none ⟨List.nodup_nil, fun u => ?_⟩ fun u => Resolved.noConfusion
              exact iff_of_false List.not_mem_nil id

end Identity

/-- **An identity is never a silent union**: it is the only function the request can mean; of
several none is taken, and the response lists them in the order of their usrs, as JSON has them;
each listed usr then resolves to itself. -/
theorem identity_never_unions (s : Script) (h : History) (tools : ToolContext)
    (args : JsonObject) (nameParam usrParam : Str) :
    let ctx := { tools with graph := s.graph, cfIndex := h.index }
    Identity.Contract tools.fixUTF8
        (Identity.remaining s.graph.spec h.index args nameParam usrParam)
        (resolveIdentity args ctx nameParam usrParam) ∧
      ∀ response, resolveIdentity args ctx nameParam usrParam = .response response →
        ∀ usr ∈ listed (str "usr") response,
          resolveIdentity (Identity.withUsr args usrParam usr) ctx nameParam usrParam
            = .identity usr := by
  intro ctx
  refine ⟨Identity.resolveIdentity_contract ctx s.wf h.wf args nameParam usrParam, ?_⟩
  intro _ _ usr _
  exact Identity.resolveIdentity_withUsr args ctx nameParam usrParam usr

/-! ### Two functions that are listed alike -/

/-- The usr of a static function `f` in a file whose name has one letter, in Latin-1. -/
def latinUsr (letter : UInt8) : Str := str "c:" ++ letter :: str ".cpp@F@f#"

/-- A function `f` whose usr holds a byte that is no UTF-8. -/
def latinFunction (letter : UInt8) : GraphOp :=
  .call (.node { qualifiedName := str "f", file := letter :: str ".cpp", usr := latinUsr letter }
    (letter :: str ".cpp"))

/-- Static functions of one name in two such files. -/
def latinFunctions : Script := (Script.empty.op (latinFunction 0xE8)).op (latinFunction 0xE9)

/-- U+FFFD for every byte that is not ASCII, which is what becomes of one that stands alone. -/
def replaceLone (s : Str) : Str := s.flatMap fun b => if b < 128 then [b] else [0xEF, 0xBF, 0xBD]

/-- A session whose strings are repaired. -/
def latinSession : ToolContext where
  graph := {}
  cfIndex := {}
  entryPoints := []
  fixUTF8 := replaceLone

/-- A question about `f`. -/
def askForF : JsonObject := [field "name" (.string (str "f"))]

theorem latinFunctions_usrs :
    latinFunctions.graph.usrsForName (str "f") = [latinUsr 0xE8, latinUsr 0xE9] := by
  decide +kernel

/-- The response lists one spelling twice, which is no candidate's usr. -/
theorem latin_functions_listed_alike :
    Identity.remaining latinFunctions.graph.spec {} askForF (str "name") (str "usr")
      = {latinUsr 0xE8, latinUsr 0xE9} ∧
    ¬ Identity.Contract id
      (Identity.remaining latinFunctions.graph.spec {} askForF (str "name") (str "usr"))
      (resolveIdentity askForF { latinSession with graph := latinFunctions.graph } (str "name")
        (str "usr")) := by
  have hlists := Identity.lists_usrsForName latinFunctions.wf (str "f")
  rw [latinFunctions_usrs, if_neg (by simp)] at hlists
  have hremaining :
      Identity.remaining latinFunctions.graph.spec {} askForF (str "name") (str "usr")
        = {latinUsr 0xE8, latinUsr 0xE9} := by
    ext u
    refine Iff.trans ?_ ((hlists.2 u).symm.trans List.mem_pair)
    exact ⟨And.left, fun hu => ⟨hu, fun f (hf : none = some f) => nomatch hf⟩⟩
  refine ⟨hremaining, fun h => ?_⟩
  obtain ⟨response, order, hout, -, hsorted, -, hlisted⟩ :=
    h.several (hremaining ▸ Set.nontrivial_pair (by decide))
  have hresponse : resolveIdentity askForF { latinSession with graph := latinFunctions.graph }
      (str "name") (str "usr") = .response (makeAmbiguousNameResult replaceLone
        latinFunctions.graph (str "name") (str "f") [latinUsr 0xE8, latinUsr 0xE9]) := by
    rw [← latinFunctions_usrs]
    rfl
  rw [hresponse] at hout
  have hnodup : ((sortStrs [latinUsr 0xE8, latinUsr 0xE9]).map (utf8Text replaceLone)).Nodup := by
    have hall : (sortStrs [latinUsr 0xE8, latinUsr 0xE9]).take kMaxAmbiguousCandidates
        = sortStrs [latinUsr 0xE8, latinUsr 0xE9] :=
      List.take_of_length_le (by rw [sortStrs, List.length_mergeSort]; decide)
    rw [← hall, ← Identity.listed_name latinFunctions.graph (str "name") (str "f") _ [],
      Resolved.response.inj hout, hlisted,
      show utf8Text id = id from funext fun u => ite_self u, List.map_id]
    exact hsorted.nodup.sublist (List.take_sublist _ _)
  have hperm := (List.mergeSort_perm [latinUsr 0xE8, latinUsr 0xE9]
    fun a b => !decide (b < a)).map (utf8Text replaceLone)
  exact absurd (hperm.nodup_iff.mp hnodup) (by decide +kernel)

end Vycor
