import DagRider.Search.Ending

set_option relaxedAutoImplicit false
set_option autoImplicit false

/-!
# Passes end

Everything that the end of a pass does is made of searches, one after another, along lists that are
finite. So where the DAG has no cycles the pass ends, and the node goes on to the next one.

## Main results

* `DagRider.Consensus.advance_ends` — the end of a pass, on a DAG without cycles.
* `DagRider.Node.pass_ends` — in every run that closes no cycle, each pass can be ended.
-/

namespace DagRider

open Fuel (Ends)

/-! ## The searches -/

namespace Dag

variable {g : Dag}

/-- A search ends. -/
lemma Acyclic.isLinked_ends (hacyclic : g.Acyclic) (hg : g.WellSlotted)
    (newest oldest : Vertex) : Ends fun fuel => g.isLinked fuel newest oldest := by
  obtain ⟨answer, hcomputes, -⟩ := hacyclic.isLinked_computes hg newest oldest
  exact hcomputes.ends

/-- The supporters of a vertex are counted to the end. -/
lemma Acyclic.isLinkedWithOthersInRound_ends (hacyclic : g.Acyclic) (hg : g.WellSlotted)
    (vertex : Vertex) (round : ℕ) :
    Ends fun fuel => g.isLinkedWithOthersInRound fuel vertex round := by
  unfold isLinkedWithOthersInRound
  cases g.graph.find? round with
  | none => exact Ends.pure _
  | some m =>
    refine Ends.bind (Ends.foldlM (fun weight v _ => ?_) 0) fun _ weight _ => Ends.pure _
    exact (hacyclic.isLinked_ends hg v vertex).bind fun _ linked _ => Ends.pure _

end Dag

/-! ## The end of a pass -/

namespace Consensus

variable {P : Platform} {c : Consensus} {g : Dag}

/-- One round of weak edges. -/
lemma setWeakEdgesInRound_ends (hacyclic : g.Acyclic) (hg : g.WellSlotted) (r : ℕ) (v : Vertex) :
    Ends fun fuel => setWeakEdgesInRound fuel g r v := by
  unfold setWeakEdgesInRound
  cases g.graph.find? r with
  | none => exact Ends.pure _
  | some m =>
    refine Ends.foldlM (fun w u _ => ?_) v
    exact (hacyclic.isLinked_ends hg w u).bind fun _ linked _ => Ends.pure _

/-- The loop of `setWeakEdges`, by induction on the round that it is at. -/
lemma setWeakEdgesFrom_ends (hacyclic : g.Acyclic) (hg : g.WellSlotted) (r : ℕ) (v : Vertex) :
    Ends fun fuel => setWeakEdgesFrom fuel g r v := by
  induction r generalizing v with
  | zero => exact Ends.pure v
  | succ r ih =>
    exact (setWeakEdgesInRound_ends hacyclic hg (r + 1) v).bind fun _ w _ => ih w

/-- A new vertex is made. -/
lemma createNewVertex_ends (hacyclic : c.state.dag.Acyclic) (hg : c.state.dag.WellSlotted)
    (round : ℕ) : Ends fun fuel => createNewVertex P fuel c round := by
  unfold createNewVertex
  cases c.blocksToPropose.getLast? with
  | none => exact Ends.pure c
  | some block =>
    refine Ends.map ?_ _
    split_ifs
    · exact setWeakEdgesFrom_ends hacyclic hg _ _
    · exact Ends.pure _

/-- The walk over the leaders, by induction on the wave that it is at. -/
lemma leaderWalk_ends (hacyclic : c.state.dag.Acyclic) (hg : c.state.dag.WellSlotted) (wave : ℕ)
    (leader : Vertex) (toCommit : List Vertex) :
    Ends fun fuel => c.leaderWalk fuel wave leader toCommit := by
  induction wave generalizing leader toCommit with
  | zero => exact Ends.pure toCommit
  | succ wave ih =>
    simp only [leaderWalk]
    cases c.getWaveVertexLeader (wave + 1) with
    | none => exact ih leader toCommit
    | some prevLeader =>
      refine (hacyclic.isLinked_ends hg leader prevLeader).bind fun _ linked _ => ?_
      cases linked with
      | false => exact ih leader toCommit
      | true => exact ih prevLeader (toCommit ++ [prevLeader])

/-- The leaders to commit are found. -/
lemma getLeadersToCommit_ends (hacyclic : c.state.dag.Acyclic) (hg : c.state.dag.WellSlotted)
    (fromWave : ℕ) (leader : Vertex) :
    Ends fun fuel => c.getLeadersToCommit fuel fromWave leader :=
  leaderWalk_ends hacyclic hg fromWave leader [leader]

/-- The vertices are ordered. -/
lemma orderVertices_ends (hacyclic : g.Acyclic) (hg : g.WellSlotted) (leaders : List Vertex) :
    Ends fun fuel => orderVertices fuel g leaders := by
  unfold orderVertices
  refine Ends.bind (Ends.foldlM (fun o leader _ => ?_) _) fun _ o _ => Ends.pure _
  unfold orderLeader
  refine Ends.foldlM (fun o e _ => ?_) o
  by_cases hpos : e.1 > 0
  · simp only [if_pos hpos]
    refine Ends.foldlM (fun o v _ => ?_) o
    unfold orderVertex
    by_cases hmem : v.hash ∈ o.deliveredVertices
    · simp only [if_pos hmem]
      exact Ends.pure o
    · simp only [if_neg hmem]
      exact (hacyclic.isLinked_ends hg v leader).bind fun _ linked _ => Ends.pure _
  · simp only [if_neg hpos]
    exact Ends.pure o

/-- A wave is ordered, or not. -/
lemma getOrderedVertices_ends (hacyclic : c.state.dag.Acyclic) (hg : c.state.dag.WellSlotted)
    (wave : ℕ) : Ends fun fuel => c.getOrderedVertices fuel wave := by
  unfold getOrderedVertices
  generalize (wave + 2 ^ 32 - 1) % 2 ^ 32 = fromWave
  cases c.getWaveVertexLeader wave with
  | none => exact Ends.pure _
  | some leader =>
    refine (hacyclic.isLinkedWithOthersInRound_ends hg leader _).bind fun _ linked _ => ?_
    cases linked with
    | false => exact Ends.pure _
    | true =>
      refine (getLeadersToCommit_ends hacyclic hg fromWave leader).bind fun _ leaders _ => ?_
      exact (orderVertices_ends hacyclic hg leaders).bind fun _ ordered _ => Ends.pure _

/-- **The end of a pass comes to its end**, on a DAG without cycles.

**Proof sketch.** The commit step and the new vertex are made of searches; the commit step leaves
the DAG alone (`Commit.frame`). -/
theorem advance_ends (hacyclic : c.state.dag.Acyclic) (hg : c.state.dag.WellSlotted) :
    Ends fun fuel => c.advance P fuel := by
  have hcommit : Ends fun fuel => c.commitWave fuel := by
    unfold commitWave
    split_ifs
    · exact (getOrderedVertices_ends hacyclic hg _).bind fun _ ordered _ => Ends.pure _
    · exact Ends.pure c
  unfold advance
  split_ifs
  · refine hcommit.bind fun fuel d hd => ?_
    obtain ⟨hstate, -⟩ := (commitWave_cases hd).frame
    have hdag : d.state.dag = c.state.dag := congrArg State.dag hstate
    exact createNewVertex_ends (by rw [hdag]; exact hacyclic) (by rw [hdag]; exact hg) _
  · exact Ends.pure c

end Consensus

namespace Node

variable {P : Platform} {nodeId : NodePublicKey} {committee : Committee}
  {es : List NodeEvent} {nd : Node}

/-- A node at the end of a pass takes the step that ends it, if there are no cycles. -/
lemma exists_finish (hacyclic : nd.dag.Acyclic) (hslot : nd.dag.WellSlotted)
    (hdone : nd.ScanDone) : ∃ fuel nd', nd.step P (.finish fuel) = some nd' := by
  obtain ⟨fuel, c, hc⟩ := (Consensus.advance_ends (P := P) hacyclic hslot).exists_eq
  refine ⟨fuel, ⟨c, [], .drain⟩, ?_⟩
  simp only [step, hdone.1, hdone.2, hc, Option.map_some]

/-- **Every pass can be ended, where no cycle is closed**: with a bound for the searches that is
large enough the step that ends it is taken. -/
theorem pass_ends (h : run P nodeId committee es = some nd)
    (hno : Run.Along (step P) (fun nd e => ¬ ClosesCycle P nd e) (init P nodeId committee) es)
    (hdone : nd.ScanDone) : ∃ fuel nd', nd.step P (.finish fuel) = some nd' :=
  exists_finish (acyclic h hno) (basic h).wellSlotted hdone

end Node

end DagRider
