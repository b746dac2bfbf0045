import DagRider.Agreement.Leaders
import DagRider.Lib.SearchCost

set_option relaxedAutoImplicit false
set_option autoImplicit false

/-!
# What a search of the DAG costs

`Dag::isLinkedInternal` keeps no set of visited vertices. In a network every vertex has a quorum of
strong parents, so a search that does not find its target goes over exponentially many paths: the
base is the quorum of the committee, the exponent the distance in rounds.

## Main results

* `DagRider.Dag.ViewOf.exists_pushed` — the search pushes a quorum of vertices of the round below.
* `DagRider.Network.failed_search_cost` — the bound, for every node of a network.
-/

namespace DagRider

open Network

namespace Dag

variable {committee : Committee} {U : List Vertex} {g : Dag} {u v : Vertex}

/-- **The search pushes a quorum of vertices of the round below**, down to the round after that of
its target. -/
lemma ViewOf.exists_pushed (hU : History committee U) (hslots : SlotsUnique U) (hg : g.ViewOf U)
    (hv : v ∈ g.vertices) (hr : u.round + 2 ≤ v.round) (hpos : 1 ≤ u.round) :
    ∃ R : Finset Vertex, committee.quorumThreshold ≤ R.card ∧
      ∀ b ∈ R, b ∈ g.pushed u v ∧ b.round + 1 = v.round := by
  obtain ⟨R, hcard, hR⟩ := (hU.quorate hslots).exists_parents v (hg.stored v hv)
    (show 2 ≤ v.round by omega)
  refine ⟨R, hcard, fun b hb => ?_⟩
  obtain ⟨hparent, hround⟩ := hR b hb
  have hbr : b.round + 1 = v.round := hround
  exact ⟨(hg.mem_pushed_iff hU hslots hv).mpr ⟨hparent, by omega⟩, hbr⟩

/-- The cost of a search that fails, in a view of a history. -/
theorem ViewOf.pow_lt_of_isLinked_eq_false (hU : History committee U) (hslots : SlotsUnique U)
    (hg : g.ViewOf U) (hv : v ∈ g.vertices) (hu : u ∈ g.vertices) (hpos : 1 ≤ u.round)
    (hr : u.round < v.round) {fuel : ℕ} (h : g.isLinked fuel v u = some false) :
    committee.quorumThreshold ^ (v.round - u.round - 1) < fuel := by
  classical
  have hnot : ¬ (hU.graph hslots).Reaches v u := by
    intro hreach
    have hanswer := (hg.isLinked_computes hU hslots hv hu).unique fuel false h
    rw [decide_eq_true hreach] at hanswer
    exact absurd hanswer (by decide)
  have hsearch : StackSearch.search (isGoal u) (g.pushed u) fuel [v] = some false := by
    unfold isLinked isLinkedInternal at h
    rw [if_pos hr, searchLoop_eq] at h
    exact h
  refine StackSearch.pow_lt_of_search_eq_false
    (fun a => a ∈ g.vertices ∧ ¬ (hU.graph hslots).Reaches a u) (fun a => a.round - u.round)
    ?_ ?_ ?_ ⟨hv, hnot⟩ hsearch
  · rintro a ⟨ha, hno⟩
    rw [Bool.eq_false_iff]
    intro hgoal
    exact hno (Relation.TransGen.single ((hg.isGoal_iff hU hslots ha hu).mp hgoal))
  · rintro a ⟨ha, hno⟩ b hb
    obtain ⟨hparent, -⟩ := (hg.mem_pushed_iff hU hslots ha).mp hb
    exact ⟨hg.parent_mem hU hslots ha hparent,
      fun hreach => hno (Relation.TransGen.head hparent hreach)⟩
  · rintro a ⟨ha, -⟩ hrank
    obtain ⟨R, hcard, hR⟩ := hg.exists_pushed hU hslots (u := u) ha (by omega) hpos
    refine ⟨R, hcard, fun b hb => ?_⟩
    obtain ⟨hb, hbr⟩ := hR b hb
    exact ⟨hb, by omega⟩

end Dag

namespace Network

variable {P : Platform} {committee : Committee} {es : List NetworkEvent} {N S : Network} {A : Node}

/-- Every vertex of a run has a positive round. -/
lemma IsRun.round_pos (h : IsRun P committee es N)
    (hround : Run.Throughout (step P) NotWrapped (init P committee) es) {v : Vertex}
    (hv : v ∈ N.vertices P committee) : 1 ≤ v.round := by
  rcases List.mem_append.mp hv with hv | hv
  · exact (Vertex.of_mem_genesis hv).1.ge
  · obtain ⟨i, nd, hnd, hv⟩ := mem_sent.mp hv
    obtain ⟨nodeId, hkey, hrun⟩ := node_run h.exec hnd
    have hproposed := Node.proposed hrun
      (IsRun.node_notWrapped List.prefix_rfl hround h.exec hnd hkey)
    have hmem : v.round ∈ nd.consensus.vertexToBroadcast.map Vertex.round := List.mem_map_of_mem hv
    rw [hproposed.rounds, List.mem_range'_1] at hmem
    omega

/-- **A search that fails is exponential.** In every run of a network in which no counter wraps,
at every node: when `isLinked` answers that a stored vertex is not linked to another one, `d + 1`
rounds below, its loop has popped at least `q ^ d` vertices, where `q` is the quorum of the
committee (`fuel` counts the last test of the empty stack as well); the same search decides strong
links.

**Proof sketch.** Every vertex above the target's round has a quorum of parents one round below,
all stored, which the search pushes (`Dag.ViewOf.exists_pushed`); it never meets the target, so it
pops every path (`StackSearch.pow_lt_of_search_eq_false`). -/
theorem failed_search_cost (h : IsRun P committee es N)
    (hround : Run.Throughout (step P) NotWrapped (init P committee) es)
    (hS : Run.Visits (step P) (init P committee) es S) (hA : A ∈ S.nodes) {u v : Vertex}
    (hv : v ∈ A.dag.vertices) (hu : u ∈ A.dag.vertices) (hr : u.round < v.round) {fuel : ℕ}
    (hfalse : A.dag.isLinked fuel v u = some false ∨
      A.dag.isStronglyLinked fuel v u = some false) :
    committee.quorumThreshold ^ (v.round - u.round - 1) < fuel := by
  rw [Dag.isStronglyLinked_eq_isLinked, or_self] at hfalse
  have hview := h.viewOf hround hS hA
  exact hview.pow_lt_of_isLinked_eq_false h.history (h.slotsUnique hround) hv hu
    (h.round_pos hround (hview.stored u hu)) hr hfalse

/-- The two nodes commit wave `1`, and then the first receives the vertex of round `2` that it had
not seen. -/
def deepVertex : List NetworkEvent :=
  Sample.fourNodes [1, 2, 3] [2, 3, 4] ++ Sample.eventsAt 0 (Sample.pass (Sample.second [4]))

/-- A vertex of round `4` is not linked to the late one, and to find this out at least three
vertices are popped. -/
theorem failed_search_cost_four : ∃ N A, IsRun Sample.platform Sample.four deepVertex N ∧
    A ∈ N.nodes ∧
    A.dag.isLinked 5 (Sample.vertex 4 [1, 2, 3] 1) (Sample.vertex 2 [1, 2, 3, 4] 4) = some false ∧
    Sample.four.quorumThreshold ^ (4 - 2 - 1) < 5 := by
  obtain ⟨N, A, B, h, hA, -, hv, hu, hfalse⟩ := exists_isRun Sample.platform Sample.four
    deepVertex 0 1 (fun A _ => Sample.vertex 4 [1, 2, 3] 1 ∈ A.dag.vertices ∧
      Sample.vertex 2 [1, 2, 3, 4] 4 ∈ A.dag.vertices ∧
      A.dag.isLinked 5 (Sample.vertex 4 [1, 2, 3] 1) (Sample.vertex 2 [1, 2, 3, 4] 4) =
        some false) (by decide) (by decide +kernel)
  have hmem : A ∈ N.nodes := List.mem_of_getElem? hA
  exact ⟨N, A, h, hmem, hfalse, failed_search_cost h (by decide +kernel)
    (Run.Visits.last h.exec) hmem hv hu (by decide) (Or.inl hfalse)⟩

end Network

end DagRider
