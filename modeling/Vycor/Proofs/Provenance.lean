/-
Edge provenance, and shards merged in place.

A `Script` is a way a graph can come about: registrations, removals and compactions, and
merges of graphs that came about so themselves.  Every script keeps the invariant and does
to the abstract graph what its operations say, so a fact about all reachable graphs is a
fact about well-formed ones.

The provenance theorem spells the invariant out in terms of the stored maps, and adds what
only a script can say: how many registrations an edge got under no TU.  The merge theorem
compares two graphs by what their maps say of strings; the numbering they use is their own.
-/
import Vycor.Proofs.Compact

namespace Vycor

/-! ### Scripts

A script is how a graph came about: its own operations, and merges of graphs
that have scripts of their own. By induction over it what each operation keeps
holds of every graph the program can build.
-/

/-- One operation on a graph, merging aside. -/
inductive GraphOp
  | call (call : Call)
  | removeTUs (tuPaths : List Str)
  | compact
deriving DecidableEq

namespace GraphOp

/-- The operation on the graph. -/
def apply (g : CallGraph) : GraphOp → CallGraph
  | call c => c.apply g
  | removeTUs tus => (g.removeTUs tus).1
  | compact => g.compact

/-- The operation on the abstract state. -/
noncomputable def spec (s : GraphSpec) : GraphOp → GraphSpec
  | call c => c.spec s
  | removeTUs tus => s.removeTUs tus
  | compact => s

theorem apply_wf_spec {g : CallGraph} (hwf : g.WF) (op : GraphOp) :
    (op.apply g).WF ∧ (op.apply g).spec = op.spec g.spec := by
  cases op with
  | call c => exact c.apply_wf_spec hwf
  | removeTUs tus => exact CallGraph.removeTUs_wf_spec hwf tus
  | compact => exact CallGraph.compact_wf_spec hwf

theorem run_wf_spec (ops : List GraphOp) {g : CallGraph} (hwf : g.WF) :
    (ops.foldl apply g).WF ∧ (ops.foldl apply g).spec = ops.foldl spec g.spec := by
  induction ops generalizing g with
  | nil => exact ⟨hwf, rfl⟩
  | cons op rest ih =>
      obtain ⟨hwf', hspec'⟩ := op.apply_wf_spec hwf
      rw [List.foldl_cons, List.foldl_cons, ← hspec']
      exact ih hwf'

end GraphOp

/-- How a graph came about. -/
inductive Script
  | empty
  | op (s : Script) (op : GraphOp)
  | absorb (s shard : Script)

namespace Script

/-- The graph that the script leaves. -/
def graph : Script → CallGraph
  | empty => {}
  | op s o => o.apply s.graph
  | absorb s shard => s.graph.absorb shard.graph

/-- All edge registrations, those of merged graphs included. -/
def registrations : Script → Nat
  | empty => 0
  | op s (.call (.edge _ _)) => s.registrations + 1
  | op s _ => s.registrations
  | absorb s shard => s.registrations + shard.registrations

/-- The registrations of an edge under no TU. -/
def untagged (k : EdgeKey Str) : Script → Nat
  | empty => 0
  | op s (.call (.edge e tu)) => s.untagged k + if k = e.key ∧ tu = [] then 1 else 0
  | op s _ => s.untagged k
  | absorb s shard => s.untagged k + shard.untagged k

theorem wf (s : Script) : s.graph.WF := by
  induction s with
  | empty => exact CallGraph.wf_empty
  | op s o ih => exact (o.apply_wf_spec ih).1
  | absorb s shard ih ihshard => exact (CallGraph.absorb_wf_spec ih ihshard).1

theorem spec_op (s : Script) (o : GraphOp) : (s.op o).graph.spec = o.spec s.graph.spec :=
  (o.apply_wf_spec s.wf).2

theorem spec_absorb (s shard : Script) :
    (s.absorb shard).graph.spec = s.graph.spec.merge shard.graph.spec :=
  (CallGraph.absorb_wf_spec s.wf shard.wf).2

end Script

/-! ### Counting registrations -/

namespace GraphSpec

theorem removeTUs_untagged (s : GraphSpec) (tus : List Str) :
    (s.removeTUs tus).untagged = s.untagged := by
  unfold removeTUs
  induction tus generalizing s with
  | nil => rfl
  | cons tu rest ih => exact ih (s.removeTU tu)

theorem removeTUs_refs_le (s : GraphSpec) (tus : List Str) (k : EdgeKey Str) :
    (s.removeTUs tus).refs k ≤ s.refs k := by
  unfold removeTUs
  induction tus generalizing s with
  | nil => exact Nat.le_refl _
  | cons tu rest ih => exact Nat.le_trans (ih (s.removeTU tu)) (Nat.sub_le _ _)

end GraphSpec

namespace Script

/-- Removal never takes an untagged registration, so the graph counts them all. -/
theorem spec_untagged (s : Script) (k : EdgeKey Str) : s.graph.spec.untagged k = s.untagged k := by
  induction s with
  | empty => rfl
  | op s o ih =>
      rw [spec_op]
      cases o with
      | call c =>
          cases c with
          | edge e tu => exact congrArg (· + _) ih
          | node n tu => exact ih
          | derivedClass a b tu => exact ih
          | methodOverride a b tu => exact ih
          | effectiveImpl a b tu => exact ih
          | functionReturn a b tu => exact ih
      | removeTUs tus =>
          refine Eq.trans ?_ ih
          exact congrFun (GraphSpec.removeTUs_untagged _ tus) k
      | compact => exact ih
  | absorb s shard ih ihshard =>
      rw [spec_absorb]
      show _ + _ = _ + _
      rw [ih, ihshard]

theorem spec_refs_le (s : Script) (k : EdgeKey Str) : s.graph.spec.refs k ≤ s.registrations := by
  induction s with
  | empty => exact Nat.le_refl 0
  | op s o ih =>
      rw [spec_op]
      cases o with
      | call c =>
          cases c with
          | edge e tu =>
              show s.graph.spec.refs k + (if k = e.key then 1 else 0) ≤ s.registrations + 1
              split <;> omega
          | node n tu => exact ih
          | derivedClass a b tu => exact ih
          | methodOverride a b tu => exact ih
          | effectiveImpl a b tu => exact ih
          | functionReturn a b tu => exact ih
      | removeTUs tus => exact Nat.le_trans (GraphSpec.removeTUs_refs_le _ tus k) ih
      | compact => exact ih
  | absorb s shard ih ihshard =>
      rw [spec_absorb]
      show _ + _ ≤ s.registrations + shard.registrations
      omega

end Script

/-! ### Edge provenance -/

namespace CallGraph

/-- The maps of a graph in step, where `untagged` says how often each edge was registered
under no TU. -/
structure Provenance (g : CallGraph) (untagged : EdgeKey Str → Nat) : Prop where
  live_iff : ∀ (i : Nat) (e : StoredEdge), g.edges[i]? = some e →
    (g.edgeIndex.lookup e.toEdgeKey = some i ↔ 0 < e.refs)
  index : ∀ (k : EdgeKey SId) (i : Nat), g.edgeIndex.lookup k = some i →
    ∃ e, g.edges[i]? = some e ∧ e.toEdgeKey = k ∧ 0 < e.refs
  keys : ∀ (i j : Nat) (e e' : StoredEdge), g.edges[i]? = some e → g.edges[j]? = some e' →
    0 < e.refs → 0 < e'.refs → e.toEdgeKey = e'.toEdgeKey → i = j
  refs : ∀ (i : Nat) (e : StoredEdge), g.edges[i]? = some e → 0 < e.refs →
    e.refs = (g.tuEdges.entries.map fun entry => entry.2.count i).sum
      + untagged (e.toEdgeKey.map g.interner.resolve)
  refs_fit : ∀ e ∈ g.edges, e.refs < 2 ^ 32
  out : ∀ c, (g.outEdges.getD c []).Nodup ∧ ∀ i, i ∈ g.outEdges.getD c [] ↔
    ∃ e, g.edges[i]? = some e ∧ 0 < e.refs ∧ e.caller = c
  inn : ∀ c, (g.inEdges.getD c []).Nodup ∧ ∀ i, i ∈ g.inEdges.getD c [] ↔
    ∃ e, g.edges[i]? = some e ∧ 0 < e.refs ∧ e.callee = c
  count : g.liveEdgeCount = (g.edges.filter fun e => 0 < e.refs).length
  contributors : ∀ tu i, i ∈ g.tuNodes.getD tu [] ↔ tu ∈ g.nodeContributors.getD i []
  byName : ∀ d, (g.byName.getD d []).Nodup ∧ ∀ i, i ∈ g.byName.getD d [] ↔
    ∃ n, g.nodes.lookup i = some n ∧ g.interner.find n.qualifiedName = some d

theorem adjacent_iff {side : EdgeKey SId → SId} {edges : List StoredEdge} {i : Nat} {c : SId} :
    (∃ k, LiveAt edges i k ∧ side k = c) ↔
      ∃ e, edges[i]? = some e ∧ 0 < e.refs ∧ side e.toEdgeKey = c := by
  constructor
  · rintro ⟨k, ⟨e, he, rfl, hpos⟩, hc⟩
    exact ⟨e, he, hpos, hc⟩
  · rintro ⟨e, he, hpos, hc⟩
    exact ⟨e.toEdgeKey, ⟨e, he, rfl, hpos⟩, hc⟩

/-- What a well-formed graph reads at the key of a live edge is what its position has. -/
theorem WF.atKey_live {g : CallGraph} (hwf : WF g) {i : Nat} {e : StoredEdge}
    (he : g.edges[i]? = some e) (hpos : 0 < e.refs) (f : Nat → Nat) :
    atKey g.edgeIndex ((e.toEdgeKey.map g.interner.resolve).map g.interner.idOf) f = f i := by
  have hlive : LiveAt g.edges i e.toEdgeKey := ⟨e, he, rfl, hpos⟩
  rw [resolve_key hwf.ids.nodup (hwf.ids.edge i _ hlive)]
  unfold atKey
  rw [(hwf.edges.indexed _ _).mpr hlive]
  rfl

theorem WF.Provenance {g : CallGraph} (hwf : WF g) {untagged : EdgeKey Str → Nat}
    (huntagged : ∀ k, g.spec.untagged k = untagged k) (hfit : ∀ k, g.spec.refs k < 2 ^ 32) :
    Provenance g untagged where
  live_iff i e he := by
    rw [hwf.edges.indexed]
    constructor
    · rintro ⟨x, hx, -, hpos⟩
      rw [he] at hx
      injection hx with hx
      exact hx ▸ hpos
    · exact fun hpos => ⟨e, he, rfl, hpos⟩
  index k i hl := by
    obtain ⟨e, he, hk, hpos⟩ := (hwf.edges.indexed k i).mp hl
    exact ⟨e, he, hk, hpos⟩
  keys i j e e' he he' hpos hpos' hk :=
    hwf.edges.indexed.position_unique ⟨e, he, rfl, hpos⟩ ⟨e', he', hk.symm, hpos'⟩
  refs i e he hpos := by
    have hprov := hwf.prov i
    have hloose : g.spec.untagged (e.toEdgeKey.map g.interner.resolve)
        = looseAt g.edges g.tuEdges i := hwf.atKey_live he hpos _
    have hrefs : refsAt g.edges i = e.refs := by simp [refsAt, he]
    have htotal : UMap.total (List.count i) g.tuEdges
        = (g.tuEdges.entries.map fun entry => entry.2.count i).sum := rfl
    rw [← huntagged, hloose, ← htotal]
    unfold looseAt
    omega
  refs_fit e he := by
    obtain ⟨i, hi⟩ := List.getElem?_of_mem he
    rcases Nat.eq_zero_or_pos e.refs with hz | hpos
    · rw [hz]
      exact Nat.two_pow_pos 32
    · have hat : g.spec.refs (e.toEdgeKey.map g.interner.resolve) = refsAt g.edges i :=
        hwf.atKey_live hi hpos _
      have hrefs : refsAt g.edges i = e.refs := by simp [refsAt, hi]
      rw [← hrefs, ← hat]
      exact hfit _
  out c := by
    obtain ⟨hnd, hmem⟩ := hwf.edges.out c
    exact ⟨hnd, fun i => (hmem i).trans adjacent_iff⟩
  inn c := by
    obtain ⟨hnd, hmem⟩ := hwf.edges.inn c
    exact ⟨hnd, fun i => (hmem i).trans adjacent_iff⟩
  count := hwf.edges.count.trans List.countP_eq_length_filter
  contributors tu i := (hwf.tuNodes tu).2 i
  byName d := by
    obtain ⟨hnd, hmem⟩ := hwf.nodes d
    refine ⟨hnd, ?_⟩
    intro i
    rw [hmem]
    refine exists_congr fun n => and_congr_right fun hn => ?_
    rw [StringInterner.find_eq_some]
    exact (and_iff_right (hwf.ids.node i n hn).2.2).symm

end CallGraph

/-- **Edge provenance**: every graph a script builds keeps its maps in step. -/
theorem Script.edge_provenance (s : Script) (h : s.registrations < 2 ^ 32) :
    s.graph.Provenance fun k => s.untagged k :=
  s.wf.Provenance s.spec_untagged fun k => Nat.lt_of_le_of_lt (s.spec_refs_le k) h

/-- One edge under no TU, under a TU, and twice through a shard of another TU; then the
first TU goes and the tables are compacted. -/
def sharedEdge : Script :=
  let edge : CallGraphEdge := { callerName := [102], calleeName := [103], kind := .directCall
                                confidence := .Proven, callSite := [49] }
  let add (s : Script) (tu : Str) : Script := s.op (.call (.edge edge tu))
  let shard := add (add .empty [98]) [98]
  (((add (add .empty []) [97]).absorb shard).op (.removeTUs [[97]])).op .compact

theorem Script.edge_provenance_shared_edge :
    sharedEdge.registrations < 2 ^ 32 ∧
    sharedEdge.graph.Provenance fun k => sharedEdge.untagged k :=
  ⟨by decide, Script.edge_provenance sharedEdge (by decide)⟩

/-! ### Shards merged in place -/

namespace CallGraph

/-- The strings a map of ids relates to a string. -/
def relatedNames (g : CallGraph) (m : UMap SId (List SId)) (s : Str) : Set Str :=
  {x | g.interner.idOf x ∈ m.getD (g.interner.idOf s) []}

/-- Two graphs that say the same of every string: nodes, contributors, live edges with
their registrations and the four relations (`spec`), display candidates, and the two
reverse relations. -/
structure Agree (g g' : CallGraph) : Prop where
  spec : g.spec = g'.spec
  candidates : ∀ d, g.relatedNames g.byName d = g'.relatedNames g'.byName d
  overrideBases : ∀ m, g.relatedNames g.overrideBases m = g'.relatedNames g'.overrideBases m
  returnedBy : ∀ f, g.relatedNames g.returnedBy f = g'.relatedNames g'.returnedBy f

theorem WF.relatedNames_byName {g : CallGraph} (hwf : WF g) (d : Str) :
    g.relatedNames g.byName d = {u | ∃ n, g.spec.node u = some n ∧ n.qualifiedName = d} := by
  refine Set.ext fun u => ?_
  show g.interner.idOf u ∈ g.byName.getD (g.interner.idOf d) [] ↔
    ∃ n, g.nodes.lookup (g.interner.idOf u) = some n ∧ n.qualifiedName = d
  rw [(hwf.nodes _).2]
  refine exists_congr fun n => and_congr_right fun hn => ?_
  rw [eq_comm, StringInterner.idOf_inj (hwf.ids.node _ n hn).2.2]
  exact eq_comm

theorem relatedNames_reverse {g : CallGraph} {r : Relation} {rev : UMap SId (List SId)}
    (hrev : ReverseOf (g.relation r) rev) (y : Str) :
    g.relatedNames rev y = {x | g.spec.related r x y} :=
  Set.ext fun _ => (hrev _).2 _

/-- Well-formed graphs with one abstract graph agree: the candidates and the reverse
relations are read off it. -/
theorem WF.agree {g g' : CallGraph} (hwf : WF g) (hwf' : WF g') (hspec : g.spec = g'.spec) :
    Agree g g' := by
  refine ⟨hspec, ?_, ?_, ?_⟩
  · intro d
    rw [hwf.relatedNames_byName, hwf'.relatedNames_byName, hspec]
  · intro m
    rw [relatedNames_reverse (r := .methodOverride) hwf.overrideBases,
      relatedNames_reverse (r := .methodOverride) hwf'.overrideBases, hspec]
  · intro f
    rw [relatedNames_reverse (r := .functionReturn) hwf.returnedBy,
      relatedNames_reverse (r := .functionReturn) hwf'.returnedBy, hspec]

/-- Absorbing what registrations build does to the abstract graph what the registrations
do in place. -/
theorem absorb_register_wf_spec {g : CallGraph} (hwf : WF g) (calls : List Call) :
    WF (g.absorb (({} : CallGraph).register calls)) ∧
    (g.absorb (({} : CallGraph).register calls)).spec = (g.register calls).spec := by
  obtain ⟨hshard, hshardSpec⟩ := register_wf_spec calls wf_empty
  obtain ⟨habsorb, habsorbSpec⟩ := absorb_wf_spec hwf hshard
  refine ⟨habsorb, ?_⟩
  rw [habsorbSpec, hshardSpec, spec_empty, GraphSpec.merge_register, (register_wf_spec calls hwf).2]

end CallGraph

/-- **Absorbing a shard is registering in place**, and no later operation tells the two
apart. -/
theorem Script.absorb_agrees (master : Script) (calls : List Call) (later : List GraphOp) :
    CallGraph.Agree
      (later.foldl GraphOp.apply (master.graph.absorb (({} : CallGraph).register calls)))
      (later.foldl GraphOp.apply (master.graph.register calls)) := by
  obtain ⟨habsorb, hspec⟩ := CallGraph.absorb_register_wf_spec master.wf calls
  obtain ⟨hdirect, -⟩ := CallGraph.register_wf_spec calls master.wf
  obtain ⟨hwf, hrun⟩ := GraphOp.run_wf_spec later habsorb
  obtain ⟨hwf', hrun'⟩ := GraphOp.run_wf_spec later hdirect
  refine hwf.agree hwf' ?_
  rw [hrun, hrun', hspec]

end Vycor
