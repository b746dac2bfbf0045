import DagRider.Node.Steps
import Mathlib.Data.List.Perm.Basic

set_option relaxedAutoImplicit false
set_option autoImplicit false

/-!
# What a node proposes

The invariants of one node that hold whatever it receives: its identity, its committee and
its quorum never change, its DAG stays well slotted, and it broadcasts one vertex for each
round, in order.

## Main definitions

* `DagRider.Node.Basic` — the invariants of every run.
* `DagRider.Node.Proposed` — what was sent, taken and called so far.

## Main results

* `DagRider.Node.basic` — `Basic` holds after every run.
* `DagRider.Node.notWrapped_of_along` — when the round counter does not wrap.
* `DagRider.Node.proposed` — `Proposed` holds as long as the round counter has not wrapped.
* `DagRider.Node.one_vertex_per_round` — a node never equivocates, and never loses or
  repeats a block.
-/

namespace DagRider

namespace Node

variable {P : Platform} {nodeId : NodePublicKey} {committee : Committee}
  {es : List NodeEvent} {nd nd' : Node}

/-! ## What never changes -/

/-- The invariants of a node that hold in every run. -/
structure Basic (nodeId : NodePublicKey) (committee : Committee) (nd : Node) : Prop where
  nodeId_eq : nd.consensus.nodeId = nodeId
  committee_eq : nd.consensus.committee = committee
  minQuorum_eq : nd.dag.minQuorum = committee.quorumThreshold
  wellSlotted : nd.dag.WellSlotted
  round_lt : nd.currentRound < 2 ^ 32

/-- The quorum that `State` computes from the genesis vertices is the committee's threshold:
with 32-bit ids it fits in a `uint32_t`. -/
lemma minQuorum_spawn (c : Committee) :
    (2 * (Vertex.genesis P c.getNodesKeys).length / 3 + 1) % 2 ^ 32 = c.quorumThreshold := by
  have hsize := c.size_le
  rw [Vertex.length_genesis, Committee.length_getNodesKeys]
  unfold Committee.quorumThreshold
  unfold Committee.size at hsize ⊢
  rw [Nat.mul_comm 2]
  omega

/-- The invariants hold at the start. -/
lemma basic_init : Basic nodeId committee (init P nodeId committee) where
  nodeId_eq := rfl
  committee_eq := rfl
  minQuorum_eq := minQuorum_spawn committee
  wellSlotted := Dag.wellSlotted_new fun _ hv => (Vertex.of_mem_genesis hv).1
  round_lt := Nat.one_lt_two_pow (by decide)

/-- **The invariants hold after every run.** -/
theorem basic (h : run P nodeId committee es = some nd) : Basic nodeId committee nd := by
  refine Run.invariant (fun nd e nd' hb hstep => ?_) basic_init h
  rcases step_cases hstep with ⟨vs, bs, -, -, rfl⟩ | ⟨v, buffer, -, -, -, rfl⟩ |
    ⟨fuel, c, -, -, hc, rfl⟩
  · exact ⟨hb.nodeId_eq, hb.committee_eq, hb.minQuorum_eq, hb.wellSlotted, hb.round_lt⟩
  · rcases Consensus.scanVertex_cases P nd.consensus v with ⟨-, ha⟩ | ⟨-, ha⟩ <;> rw [ha]
    · exact ⟨hb.nodeId_eq, hb.committee_eq, hb.minQuorum_eq, hb.wellSlotted.insertVertex,
        hb.round_lt⟩
    · exact ⟨hb.nodeId_eq, hb.committee_eq, hb.minQuorum_eq, hb.wellSlotted, hb.round_lt⟩
  · obtain ⟨hnode, hcommittee, hdag⟩ := Consensus.advance_frame hc
    refine ⟨hnode.trans hb.nodeId_eq, hcommittee.trans hb.committee_eq, ?_, ?_, ?_⟩
    · exact (congrArg Dag.minQuorum hdag).trans hb.minQuorum_eq
    · show c.state.dag.WellSlotted
      exact hdag ▸ hb.wellSlotted
    · rcases Consensus.advance_cases hc with ⟨-, rfl⟩ | ⟨-, d, block, v, -, -, -, rfl⟩
      · exact hb.round_lt
      · exact Nat.mod_lt _ (Nat.two_pow_pos 32)

/-! ## One vertex for each round -/

/-- What a node has sent, the blocks it has taken and the waves it has called, after the
events `es`. -/
structure Proposed (nodeId : NodePublicKey) (es : List NodeEvent) (nd : Node) : Prop where
  rounds : nd.consensus.vertexToBroadcast.map Vertex.round =
    List.range' 2 (nd.currentRound - 1)
  owners : ∀ v ∈ nd.consensus.vertexToBroadcast, v.owner = nodeId
  blocks : (nd.consensus.vertexToBroadcast.map Vertex.block ++
    nd.consensus.blocksToPropose).Perm (es.flatMap NodeEvent.blocks)
  waves : nd.consensus.orderedWaves = List.range' 1 ((nd.currentRound - 1) / MAX_WAVE)

/-- Away from a wrap-around the next round is one more. -/
lemma nextRound_eq {c : Consensus} (hlt : c.state.currentRound < 2 ^ 32)
    (hne : c.nextRound ≠ 0) : c.nextRound = c.state.currentRound + 1 := by
  unfold Consensus.nextRound at hne ⊢
  omega

/-- The waves called after the commit step: one more at the end of a wave. -/
lemma orderedWaves_commit {fuel : ℕ} {c d : Consensus} (h : Consensus.Commit fuel c d)
    (hpos : c.state.currentRound ≠ 0)
    (hw : c.orderedWaves = List.range' 1 ((c.state.currentRound - 1) / MAX_WAVE)) :
    d.orderedWaves = List.range' 1 (c.state.currentRound / MAX_WAVE) := by
  have hlast : Consensus.isLastRoundInWave c.state.currentRound = true →
      List.range' 1 ((c.state.currentRound - 1) / MAX_WAVE) ++ [c.state.currentRound / MAX_WAVE] =
        List.range' 1 (c.state.currentRound / MAX_WAVE) := by
    intro h
    have hr := Consensus.isLastRoundInWave_iff.mp h
    have hdiv : c.state.currentRound / MAX_WAVE = (c.state.currentRound - 1) / MAX_WAVE + 1 := by
      unfold MAX_WAVE
      omega
    rw [hdiv, List.range'_1_concat, Nat.add_comm]
  cases h with
  | none h =>
    have hr : ¬ c.state.currentRound % 4 = 0 := fun hr =>
      absurd (Consensus.isLastRoundInWave_iff.mpr hr) (by simp [h])
    rw [hw]
    congr 1
    unfold MAX_WAVE
    omega
  | skip h => rw [← hlast h, ← hw]
  | commit h => rw [← hlast h, ← hw]

/-- Nothing is proposed at the start. -/
lemma proposed_init : Proposed nodeId [] (init P nodeId committee) where
  rounds := rfl
  owners := by simp [init, Consensus.spawn]
  blocks := List.Perm.refl _
  waves := by simp [init, Consensus.spawn, State.new]

/-- **A step keeps `Proposed`** if the counter does not wrap.

**Proof sketch.** A drain adds the blocks it hands over to those waiting; an admission touches
only the DAG; the end of a pass that advances moves one block from those waiting into one
vertex of the next round (`Consensus.advance_cases`), and calls the wave that the round ends. -/
lemma Proposed.step {p : List NodeEvent} {e : NodeEvent} (hI : Proposed nodeId p nd)
    (hbasic : Basic nodeId committee nd) (hpos : NotWrapped nd) (hpos' : NotWrapped nd')
    (h : nd.step P e = some nd') : Proposed nodeId (p ++ [e]) nd' := by
  rcases step_cases h with ⟨vs, bs, rfl, -, rfl⟩ | ⟨v, buffer, rfl, -, -, rfl⟩ |
    ⟨fuel, c, rfl, -, hc, rfl⟩
  · refine ⟨hI.rounds, hI.owners, ?_, hI.waves⟩
    simpa [NodeEvent.blocks] using hI.blocks.append_right bs
  · rcases Consensus.scanVertex_cases P nd.consensus v with ⟨-, ha⟩ | ⟨-, ha⟩ <;> rw [ha] <;>
      exact ⟨hI.rounds, hI.owners, by simpa [NodeEvent.blocks] using hI.blocks, hI.waves⟩
  rcases Consensus.advance_cases hc with ⟨-, rfl⟩ | ⟨-, d, block, v, hd, hblock, hv, rfl⟩
  · exact ⟨hI.rounds, hI.owners, by simpa [NodeEvent.blocks] using hI.blocks, hI.waves⟩
  have hnext : nd.consensus.nextRound = nd.currentRound + 1 := nextRound_eq hbasic.round_lt hpos'
  refine ⟨?_, ?_, ?_, ?_⟩
  · show (nd.consensus.vertexToBroadcast ++ [v]).map Vertex.round =
      List.range' 2 (nd.consensus.nextRound - 1)
    obtain ⟨k, hk⟩ : ∃ k, nd.currentRound = k + 1 := Nat.exists_eq_succ_of_ne_zero hpos
    rw [List.map_append, hI.rounds, hnext, hk, Nat.add_sub_cancel, Nat.add_sub_cancel,
      List.range'_1_concat, List.map_singleton, hv.round_eq, hnext, hk, Nat.add_comm 2 k]
  · intro u hu
    rcases List.mem_append.mp hu with hu | hu
    · exact hI.owners u hu
    · rw [List.mem_singleton.mp hu, hv.owner, hbasic.nodeId_eq]
  · show ((nd.consensus.vertexToBroadcast ++ [v]).map Vertex.block ++
      nd.consensus.blocksToPropose.dropLast).Perm _
    have hperm := hI.blocks
    rw [hblock] at hperm
    simp only [List.map_append, List.map_singleton, hv.block_eq, List.flatMap_append,
      List.flatMap_singleton, NodeEvent.blocks, List.append_nil, List.append_assoc,
      List.singleton_append]
    refine (List.Perm.append_left _ ?_).trans hperm
    exact (List.perm_append_singleton block _).symm
  · show d.orderedWaves = List.range' 1 ((nd.consensus.nextRound - 1) / MAX_WAVE)
    rw [hnext, Nat.add_sub_cancel]
    exact orderedWaves_commit hd hpos hI.waves

/-- **`Proposed` holds as long as the counter has not wrapped.** -/
theorem proposed (h : run P nodeId committee es = some nd)
    (hround : Run.Throughout (step P) NotWrapped (init P nodeId committee) es) :
    Proposed nodeId es nd := by
  refine hround.induction (J := fun es nd => Proposed nodeId es nd) proposed_init ?_ h
  intro p nd e nd' hp hI hpos hpos' hstep
  exact hI.step (basic hp) hpos hpos' hstep

/-- A step from another round than the last one does not wrap the counter. -/
lemma notWrapped_step {e : NodeEvent} (hlt : nd.currentRound < 2 ^ 32) (hne : NotWrapped nd)
    (hlast : ¬ (nd.Advances e ∧ nd.currentRound = 2 ^ 32 - 1)) (h : nd.step P e = some nd') :
    NotWrapped nd' := by
  unfold NotWrapped
  by_cases hadv : nd.Advances e
  · have hround : nd.currentRound ≠ 2 ^ 32 - 1 := fun hr => hlast ⟨hadv, hr⟩
    rw [(next_of_advances hadv h).1]
    show (nd.currentRound + 1) % 2 ^ 32 ≠ 0
    omega
  · rw [round_of_not_advances hadv h]
    exact hne

/-- **The counter does not wrap** in a run that never advances from the last round. -/
lemma notWrapped_of_along (hrun : Run.Along (step P)
      (fun nd e => ¬ (nd.Advances e ∧ nd.currentRound = 2 ^ 32 - 1)) (init P nodeId committee) es) :
    Run.Throughout (step P) NotWrapped (init P nodeId committee) es := by
  refine Run.throughout_iff_visits.mpr fun nd hnd => ?_
  obtain ⟨p, hp, hnd⟩ := hnd
  have hinit : NotWrapped (init P nodeId committee) := Nat.one_ne_zero
  refine (hrun.mono hp).induction (J := fun _ nd => NotWrapped nd) hinit ?_ hnd
  intro q nd e nd' hq hne hlast hstep
  exact notWrapped_step (basic hq).round_lt hne hlast hstep

/-- A run on which the round stays below `2^32 - 1` does not wrap. -/
lemma notWrapped_of_lt (hround : Run.Throughout (step P)
      (fun nd => nd.currentRound < 2 ^ 32 - 1) (init P nodeId committee) es) :
    Run.Throughout (step P) NotWrapped (init P nodeId committee) es := by
  refine notWrapped_of_along (hround.along fun _ e s _ _ hlt hlast => ?_)
  rw [hlast.2] at hlt
  exact lt_irrefl _ hlt

/-- **A node never equivocates and never loses or repeats a block.** In every run on which
the round has not reached `2^32 - 1`, whatever is received: the vertices broadcast have rounds
`2, 3, …, currentRound`, one each and in this order, all owned by the node; the blocks they
carry and those still waiting are the blocks received; and `getOrderedVertices` was called
once for each wave `1, …, ⌊(currentRound - 1) / 4⌋`, in order. -/
theorem one_vertex_per_round (h : run P nodeId committee es = some nd)
    (hround : Run.Throughout (step P) (fun nd => nd.currentRound < 2 ^ 32 - 1)
      (init P nodeId committee) es) :
    nd.consensus.vertexToBroadcast.map Vertex.round = List.range' 2 (nd.currentRound - 1) ∧
    (∀ v ∈ nd.consensus.vertexToBroadcast, v.owner = nodeId) ∧
    (nd.consensus.vertexToBroadcast.map Vertex.block ++ nd.consensus.blocksToPropose).Perm
      (es.flatMap NodeEvent.blocks) ∧
    nd.consensus.orderedWaves = List.range' 1 ((nd.currentRound - 1) / 4) := by
  have hp := proposed h (notWrapped_of_lt hround)
  exact ⟨hp.rounds, hp.owners, hp.blocks, hp.waves⟩

/-- The node of a committee of one, up to round `6`. -/
theorem one_vertex_per_round_single :
    ∃ nd, run Sample.platform 1 Sample.single (Sample.upTo 6) = some nd ∧ nd.currentRound = 6 ∧
      nd.consensus.vertexToBroadcast.map Vertex.round = List.range' 2 (nd.currentRound - 1) ∧
      (∀ v ∈ nd.consensus.vertexToBroadcast, v.owner = 1) ∧
      (nd.consensus.vertexToBroadcast.map Vertex.block ++ nd.consensus.blocksToPropose).Perm
        ((Sample.upTo 6).flatMap NodeEvent.blocks) ∧
      nd.consensus.orderedWaves = List.range' 1 ((nd.currentRound - 1) / 4) := by
  obtain ⟨nd, hnd, hr⟩ : ∃ nd, run Sample.platform 1 Sample.single (Sample.upTo 6) = some nd ∧
      decide (nd.currentRound = 6) = true := Run.exists_exec_of_any (by decide +kernel)
  have hround : Run.Throughout (step Sample.platform) (fun nd => nd.currentRound < 2 ^ 32 - 1)
      (init Sample.platform 1 Sample.single) (Sample.upTo 6) := by decide +kernel
  exact ⟨nd, hnd, of_decide_eq_true hr, one_vertex_per_round hnd hround⟩

end Node

end DagRider
