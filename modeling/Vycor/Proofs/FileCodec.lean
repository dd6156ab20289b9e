/-
What loading a saved graph yields, from the file.

A history of runs takes as given that a saved graph loads as one that says the same.  Here that
is the file's own doing: a graph that the mutators built is written by `emitGraph`, and the
bytes decode to the reloaded graph, which stands for what the saved one stands for.

Besides the invariant this takes one thing more, that no relation lists a pair twice.  Every
bake makes graphs of that kind, merging, removing and reloading keep it, and so has it whatever
graph a run leaves.
-/
import Vycor.Proofs.ReloadedGraph
import Vycor.Proofs.WarmStart

namespace Vycor

open CallGraph (PairsOnce)
open SnapshotIO

open Classical in
/-- Saving a graph and loading it.  No run saves a graph with a pair twice. -/
noncomputable def fileCodec (w : HashWalk) : Codec where
  readBack g := if g.WF ∧ g.PairsOnce then reloadGraph w g else g
  faithful := by
    intro g hwf
    split_ifs with h
    · exact reloadGraph_wf_spec hwf h.2 w
    · exact ⟨hwf, rfl⟩

variable {w : HashWalk} {g : CallGraph}

/-- **What is read back is what the bytes decode to**, where the counts have room. -/
theorem decode_emitGraph {heap : Nat} (hwf : g.WF) (honce : g.PairsOnce) (hfits : GraphFits g) :
    decode (readGraph heap .mutable) (emitGraph w g) = pure ((fileCodec w).readBack g) := by
  have hread : (fileCodec w).readBack g = reloadGraph w g := if_pos ⟨hwf, honce⟩
  rw [hread]
  exact decode_of_reads (reads_readGraph hwf hfits)

/-! ### Every graph of a history lists its pairs once -/

theorem readBack_once (honce : g.PairsOnce) : ((fileCodec w).readBack g).PairsOnce := by
  unfold fileCodec
  dsimp only
  split_ifs with h
  · exact (related_reloadGraph h.1 honce w).once
  · exact honce

theorem pairsOnce_register (calls : List Call) : (({} : CallGraph).register calls).PairsOnce :=
  List.foldlRecOn calls _ (motive := PairsOnce) CallGraph.pairsOnce_empty fun _ h c _ => h.call c

variable {frontend : Frontend} {files : List Str}

theorem bake_once (fs : FileSystem) (b : Bake frontend files) :
    (b.indexes (fileCodec w) fs).graph.PairsOnce := by
  cases b with
  | inProcess p => exact pairsOnce_register p.log
  | isolated d =>
      refine List.foldlRecOn d.shards _ (motive := fun out : BakedIndexes => out.graph.PairsOnce)
        CallGraph.pairsOnce_empty fun out hout shard _ => ?_
      exact hout.absorb _
  | aborted => exact CallGraph.pairsOnce_empty

theorem refresh_once (r : IndexRun) {snap : Snapshot} (h : snap.graph.PairsOnce)
    (toDrop toBake : List Str) :
    (r.refresh (fileCodec w) snap toDrop toBake).graph.PairsOnce := by
  have hkept : ∀ tus, (((fileCodec w).readBack snap.graph).removeTUs tus).1.PairsOnce :=
    (readBack_once h).removeTUs
  unfold IndexRun.refresh
  dsimp only
  split
  · exact hkept _
  · exact (hkept _).absorb _

/-- **Whatever graph a history leaves on disk is what its file decodes to**, where the counts
have room. -/
theorem trace_decodes (w : HashWalk) (history : List IndexRun) {snap : Snapshot} {heap : Nat}
    (hdisk : (trace (fileCodec w) history).disk = some snap) (hfits : GraphFits snap.graph) :
    decode (readGraph heap .mutable) (emitGraph w snap.graph)
      = pure ((fileCodec w).readBack snap.graph) := by
  obtain ⟨log, hledger⟩ := trace_ledger (fileCodec w) history hdisk
  refine decode_emitGraph hledger.carries.wf ?_ hfits
  have hstep : ∀ (t : Trace) (r : IndexRun), (∀ s ∈ t.disk, s.graph.PairsOnce) →
      ∀ s ∈ (t.next (fileCodec w) r).disk, s.graph.PairsOnce := by
    intro t r h s hs
    have hs : s ∈ (r.run (fileCodec w) t.disk).1 := hs
    rcases r.run_cases (fileCodec w) t.disk with hrun | hrun | ⟨found, hfound, hrun⟩
    · rw [hrun] at hs
      exact h s hs
    · rw [hrun] at hs
      obtain rfl := Option.some.inj hs
      exact bake_once r.fs _
    · rw [hrun] at hs
      obtain rfl := Option.some.inj hs
      exact refresh_once r (h found hfound) _ _
  have hrun : ∀ s ∈ (trace (fileCodec w) history).disk, s.graph.PairsOnce :=
    List.foldlRecOn history _ (motive := fun t : Trace => ∀ s ∈ t.disk, s.graph.PairsOnce)
      (fun s hs => absurd hs (by simp)) fun t h r _ => hstep t r h
  exact hrun snap hdisk

/-- The same of the shard of a worker. -/
theorem shard_decodes (shard : Shard frontend) {heap : Nat}
    (hfits : GraphFits (bakeIndexes shard.2).graph) :
    decode (readGraph heap .mutable) (emitGraph w (bakeIndexes shard.2).graph)
      = pure ((fileCodec w).readBack (bakeIndexes shard.2).graph) :=
  decode_emitGraph (Carries.register shard.2.tagged).wf (pairsOnce_register shard.2.log) hfits

end Vycor
