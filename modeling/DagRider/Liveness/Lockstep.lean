import DagRider.Liveness.Rounds
import DagRider.Node.Rounds

set_option relaxedAutoImplicit false
set_option autoImplicit false

/-!
# Lockstep

No node runs ahead of the others: one that has left a round has seen a vertex of it by a quorum of
the committee, and each of those was sent by a node that had come to that round. The others may
lag behind as far as they like.

## Main results

* `DagRider.Network.Reached.exists_sender` — behind a vertex is a node that came to its round.
* `DagRider.Network.lockstep` — behind a node that left a round is a quorum that came to it.
-/

namespace DagRider

namespace Network

variable {P : Platform} {committee : Committee} {es : List NetworkEvent} {N : Network}

/-- Behind every vertex is a node of its owner that has come to its round. -/
lemma Reached.exists_sender (h : Reached P committee es N) {v : Vertex}
    (hv : v ∈ N.vertices P committee) :
    ∃ nd ∈ N.nodes, nd.consensus.nodeId = v.owner ∧ v.round ≤ nd.currentRound := by
  rcases List.mem_append.mp hv with hv | hv
  · obtain ⟨hround, howner, -⟩ := Vertex.of_mem_genesis hv
    obtain ⟨i, hi⟩ := List.mem_iff_getElem?.mp howner
    have hlen : i < N.nodes.length := by
      have hkeys := (List.getElem?_eq_some_iff.mp hi).1
      rw [nodes_length h.exec]
      simpa [init] using hkeys
    obtain ⟨nodeId, hkey, hm⟩ := h.member (List.getElem?_eq_getElem hlen)
    have hid : nodeId = v.owner := Option.some.inj (hkey.symm.trans hi)
    have hcount := h.counts _ (List.getElem_mem hlen)
    exact ⟨_, List.getElem_mem hlen, hm.basic.nodeId_eq.trans hid, by omega⟩
  · obtain ⟨i, nd, hnd, hv⟩ := mem_sent.mp hv
    obtain ⟨nodeId, -, hm⟩ := h.member hnd
    obtain ⟨nodeId', -, hrun⟩ := node_run h.exec hnd
    have hid : nd.consensus.nodeId = v.owner :=
      (Node.basic hrun).nodeId_eq.trans (Node.of_sent hrun hv).1.symm
    exact ⟨nd, List.mem_of_getElem? hnd, hid, (hm.sent_round v hv).2⟩

/-- **No node runs ahead of a quorum.** In every state that a network reaches before a counter
wraps: when a node has left round `r`, at least a quorum of the nodes has come to round `r`, and
the node stores vertices of round `r` by as many owners, each the vertex of a node that has come
to it.

**Proof sketch.** The node stores a quorum of vertices of the round it left (`Node.rounds`), with
distinct owners; each is one of the network's, and its owner's node has come to the round
(`Reached.exists_sender`). -/
theorem lockstep (hkeys : committee.getNodesKeys.Nodup)
    (h : Run.exec (step P) (init P committee) es = some N)
    (hround : Run.Throughout (step P) NotWrapped (init P committee) es) {nd : Node}
    (hnd : nd ∈ N.nodes) {r : ℕ} (h1 : 1 ≤ r) (hr : r < nd.currentRound) :
    committee.quorumThreshold ≤ (N.nodes.filter fun x => r ≤ x.currentRound).length ∧
    ∃ vs : List Vertex, committee.quorumThreshold ≤ vs.length ∧ (vs.map Vertex.owner).Nodup ∧
      ∀ v ∈ vs, v ∈ nd.dag.vertices ∧ v.round = r ∧
        ∃ x ∈ N.nodes, x.consensus.nodeId = v.owner ∧ r ≤ x.currentRound := by
  have hN : Reached P committee es N := reached hkeys h hround
  obtain ⟨i, hi⟩ := List.mem_iff_getElem?.mp hnd
  obtain ⟨nodeId, hkey, hrun⟩ := node_run h hi
  obtain ⟨_, -, hm⟩ := hN.member hi
  have hslot := hm.basic.wellSlotted
  have hrounds := Node.rounds hrun (IsRun.node_notWrapped List.prefix_rfl hround h hi hkey)
  obtain ⟨m, hmap, hq⟩ := hrounds.quorum r h1 hr
  rw [hm.basic.minQuorum_eq] at hq
  have hsender : ∀ v ∈ m.values, v ∈ nd.dag.vertices ∧ v.round = r ∧
      ∃ x ∈ N.nodes, x.consensus.nodeId = v.owner ∧ r ≤ x.currentRound := by
    intro v hv
    obtain ⟨hstored, rfl⟩ := (hslot.mem_values_iff hmap).mp hv
    exact ⟨hstored, rfl, hN.exists_sender (hm.known v (Or.inl hstored))⟩
  have hlength : committee.quorumThreshold ≤ m.values.length := by
    rwa [UnorderedMap.length_values]
  have hnodup := hslot.nodup_owners hmap
  refine ⟨?_, m.values, hlength, hnodup, hsender⟩
  -- distinct owners are the ids of as many nodes
  have hsub : m.values.map Vertex.owner ⊆
      (N.nodes.filter fun x => r ≤ x.currentRound).map fun x => x.consensus.nodeId := by
    intro o ho
    obtain ⟨v, hv, rfl⟩ := List.mem_map.mp ho
    obtain ⟨-, -, x, hx, hid, hxr⟩ := hsender v hv
    exact List.mem_map.mpr ⟨x, List.mem_filter.mpr ⟨hx, decide_eq_true hxr⟩, hid⟩
  have hle := (hnodup.subperm hsub).length_le
  rw [List.length_map, List.length_map] at hle
  exact hlength.trans hle

/-- Where a node of four has left round `4`, at least three have come to it. -/
theorem lockstep_four : ∃ N nd, Run.exec (step Sample.platform)
      (init Sample.platform Sample.four) (Sample.fourNodes [1, 2, 3] [2, 3, 4]) = some N ∧
    nd ∈ N.nodes ∧ nd.currentRound = 5 ∧
    Sample.four.quorumThreshold ≤ (N.nodes.filter fun x => 4 ≤ x.currentRound).length := by
  obtain ⟨N, A, -, h, hA, -, hround⟩ := exists_isRun Sample.platform Sample.four
    (Sample.fourNodes [1, 2, 3] [2, 3, 4]) 0 1 (fun A _ => A.currentRound = 5)
    (by decide) (by decide +kernel)
  have hmem : A ∈ N.nodes := List.mem_of_getElem? hA
  exact ⟨N, A, h.exec, hmem, hround,
    (lockstep h.distinctKeys h.exec (by decide +kernel) hmem (r := 4) (by decide) (by omega)).1⟩

end Network

end DagRider
