import DagRider.Agreement.Delivery
import DagRider.Agreement.Order

set_option relaxedAutoImplicit false
set_option autoImplicit false

/-!
# The causal order of a commit

A commit lists the descendants of its oldest leader, in the iteration order of the DAG, which goes
up the rounds. Parents are in lower rounds, so no vertex comes after its descendants, whichever of
the leaders it was listed for.

## Main results

* `DagRider.Dag.WellSlotted.pairwise_descendants` — descendants are listed by ascending round.
* `DagRider.Network.commits_causal` — each committed list is causally ordered.
-/

namespace DagRider

namespace Dag

variable {g : Dag} {b : Vertex}

/-- Descendants are listed by ascending round. -/
lemma WellSlotted.pairwise_descendants (hg : g.WellSlotted) :
    (g.descendants b).Pairwise fun u v => u.round ≤ v.round :=
  hg.pairwise_round.sublist List.filter_sublist

/-- No descendant is listed twice. -/
lemma WellSlotted.nodup_descendants (hg : g.WellSlotted) : (g.descendants b).Nodup :=
  hg.nodup_vertices.sublist List.filter_sublist

end Dag

namespace Network

variable {P : Platform} {committee : Committee} {es : List NetworkEvent}
  {N S : Network} {A : Node} {w fuel : ℕ} {out : List Vertex} {c : Consensus}

/-- **A call of `getOrderedVertices` lists the descendants of one vertex**, or nothing.

**Proof sketch.** The walk from the wave's leader ends at an oldest leader; all that is linked to a
later one is linked to it (`Consensus.commit_lists`). -/
lemma ordered_eq_descendants (h : IsRun P committee es N)
    (hround : Run.Throughout (step P) NotWrapped (init P committee) es)
    (hS : Run.Visits (step P) (init P committee) es S) (hA : A ∈ S.nodes)
    (hcall : A.CallsOrder w)
    (hout : A.consensus.getOrderedVertices fuel w = some (out, c)) :
    out = [] ∨ ∃ b, out = A.dag.descendants b := by
  obtain ⟨nodeId, hbasic⟩ := (h.honest hS hA).basic
  obtain ⟨hw1, hw2⟩ :=
    wave_bounds hbasic (Run.throughout_iff_visits.mp hround S hS A hA) hcall
  rcases Consensus.getOrderedVertices_cases hout with
    ⟨leaders, hleaders, horder, -⟩ | ⟨-, hnil, -⟩
  · obtain ⟨l, b, -, -, -, hdesc⟩ := Consensus.commit_lists h.history (h.slotsUnique hround)
      (h.viewOf hround hS hA) hw1 hw2 hleaders horder
    exact Or.inr ⟨b, hdesc⟩
  · exact Or.inl hnil

/-- **Each committed list is causally ordered.** At every point of a run where a node calls
`getOrderedVertices`, the list it returns contains no vertex twice, and a vertex `u` of the list
comes before every vertex `v` of the list that reaches it by parent edges, for whichever leaders of
the chain they were added.

**Proof sketch.** The list is the descendants of the oldest leader (`ordered_eq_descendants`), by
ascending round, and the ancestors of a stored vertex are in lower rounds. -/
theorem commits_causal (h : IsRun P committee es N)
    (hround : Run.Throughout (step P) NotWrapped (init P committee) es)
    (hS : Run.Visits (step P) (init P committee) es S) (hA : A ∈ S.nodes)
    (hcall : A.CallsOrder w)
    (hout : A.consensus.getOrderedVertices fuel w = some (out, c)) :
    out.Nodup ∧ ∀ (i j : ℕ) (u v : Vertex),
      out[i]? = some u → out[j]? = some v → A.dag.Ancestor v u → i < j := by
  have hhonest := h.honest hS hA
  obtain ⟨nodeId, hbasic⟩ := hhonest.basic
  have hslot := hbasic.wellSlotted
  rcases ordered_eq_descendants h hround hS hA hcall hout with rfl | ⟨b, rfl⟩
  · exact ⟨List.nodup_nil, fun i j u v hi => absurd hi (by simp)⟩
  refine ⟨hslot.nodup_descendants, fun i j u v hi hj hanc => ?_⟩
  have hv : v ∈ A.dag.vertices := (List.mem_filter.mp (List.mem_of_getElem? hj)).1
  exact Labels.index_lt_of_pairwise hslot.pairwise_descendants hi hj
    (hhonest.round_lt_of_ancestor h.history hv hanc)

/-- The second of four nodes commits its second wave with two leaders, and lists the vertices of
seven rounds. -/
theorem commits_causal_four :
    ∃ (N : Network) (A : Node) (leaders out : List Vertex) (c : Consensus),
      IsRun Sample.platform Sample.four Sample.toSecondCommit N ∧
      N.nodes[1]? = some A ∧ A.consensus.committedLeaders 100 2 = some leaders ∧
      leaders.length = 2 ∧ A.consensus.getOrderedVertices 100 2 = some (out, c) ∧
      out.map Vertex.round = (List.range' 2 7).flatMap (List.replicate 3) ∧ out.Nodup ∧
      ∀ (i j : ℕ) (u v : Vertex),
        out[i]? = some u → out[j]? = some v → A.dag.Ancestor v u → i < j := by
  obtain ⟨N, A, -, h, hA, -, hcall, ⟨leaders, hleaders, htwo⟩, ⟨out, c⟩, hout, hrounds⟩ :=
    exists_isRun Sample.platform Sample.four Sample.toSecondCommit 1 1
      (fun A _ => A.CallsOrder 2 ∧
        (∃ leaders ∈ A.consensus.committedLeaders 100 2, leaders.length = 2) ∧
        ∃ r ∈ A.consensus.getOrderedVertices 100 2,
          r.1.map Vertex.round = (List.range' 2 7).flatMap (List.replicate 3))
      (by decide) (by decide +kernel)
  have hround : Run.Throughout (step Sample.platform) NotWrapped
      (init Sample.platform Sample.four) Sample.toSecondCommit := by
    decide +kernel
  exact ⟨N, A, leaders, out, c, h, hA, hleaders, htwo, hout, hrounds,
    commits_causal h hround (Run.Visits.last h.exec) (List.mem_of_getElem? hA) hcall hout⟩

end Network

end DagRider
