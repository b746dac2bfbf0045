import DagRider.Agreement.Leaders

set_option relaxedAutoImplicit false
set_option autoImplicit false

/-!
# What a commit delivers

`orderVertices` asks whether a stored vertex is linked to a leader, and not the other way
round. So a commit lists the descendants of its leaders, among them the supporters of the
wave's leader, which are in no leader's history.

## Main definitions

* `DagRider.Consensus.DeliversHistory` — a commit lists the new part of the leaders' history.

## Main results

* `DagRider.Network.commits_deliver_no_history` — no commit of any run does.
-/

namespace DagRider

/-- The vertices of rounds from `2` on that a commit lists are the committed leaders and their
ancestors, without those already sent. -/
def Consensus.DeliversHistory (c : Consensus) (leaders out : List Vertex) : Prop :=
  ∀ v ∈ c.state.dag.vertices, 2 ≤ v.round →
    (v ∈ out ↔
      (v ∈ leaders ∨ ∃ l ∈ leaders, c.state.dag.Ancestor l v) ∧ v ∉ c.vertexOutput)

/-- A vertex without parents has no ancestors. -/
lemma Dag.not_ancestor_of_no_parents {g : Dag} {u v : Vertex} (h : v.parents.entries = []) :
    ¬ g.Ancestor v u := by
  intro hanc
  obtain ⟨w, hw, -⟩ := Relation.TransGen.head'_iff.mp hanc
  rw [h] at hw
  exact absurd hw.2 List.not_mem_nil

namespace Network

open Relation

variable {P : Platform} {committee : Committee} {es : List NetworkEvent}
  {N S : Network} {A : Node} {w : ℕ}

/-- Ancestors of a stored vertex of a run are in lower rounds. -/
lemma Honest.round_lt_of_ancestor {U : List Vertex} (hU : History committee U)
    (hA : Honest committee U A) {u v : Vertex} (hv : v ∈ A.dag.vertices)
    (h : A.dag.Ancestor v u) : u.round < v.round := by
  have key : u.round < v.round ∧ u ∈ A.dag.vertices := by
    induction h with
    | single h => exact ⟨(hU.valid v (hA.stored v hv)).lower _ h.2, h.1⟩
    | @tail b c _ h ih =>
      have hlower : c.round < b.round := (hU.valid b (hA.stored b ih.2)).lower _ h.2
      exact ⟨hlower.trans ih.1, h.1⟩
  exact key.1

/-- The leaders that a walk moves to are stored in rounds not above the first one. -/
lemma round_le_of_leaderPath {fuel : ℕ} {c : Consensus} (hslot : c.state.dag.WellSlotted)
    {leader l : Vertex} (hleader : leader ∈ c.state.dag.vertices)
    (h : ReflTransGen (Consensus.LeaderLink fuel c) leader l) :
    l ∈ c.state.dag.vertices ∧ l.round ≤ leader.round := by
  induction h with
  | refl => exact ⟨hleader, le_rfl⟩
  | tail _ hlink ih =>
    obtain ⟨hlinked, wave, hwave⟩ := hlink
    have hstored := ((Consensus.getWaveVertexLeader_eq_some_iff hslot).mp hwave).1
    exact ⟨hstored, (Dag.round_lt_of_isLinked hlinked).le.trans ih.2⟩

/-- **No commit delivers the history of its leaders.** At every point of every run of the
network, when `getOrderedVertices` commits, the list it returns is not what it should be: it
contains a stored vertex of a round from `2` on that is no committed leader and no ancestor of
one.

**Proof sketch.** A commit needs supporters, stored vertices linked to the wave's leader. Each is
listed, because it is linked to a committed leader, and it lies in a later round than all
committed leaders, whose ancestors lie in earlier rounds. -/
theorem commits_deliver_no_history (h : IsRun P committee es N)
    (hS : Run.Visits (step P) (init P committee) es S) (hA : A ∈ S.nodes) {fuel : ℕ}
    {leaders out : List Vertex} {c : Consensus}
    (hleaders : A.consensus.committedLeaders fuel w = some leaders)
    (hout : A.consensus.getOrderedVertices fuel w = some (out, c)) :
    ¬ A.consensus.DeliversHistory leaders out := by
  have hU := h.history
  have hhonest := h.honest hS hA
  obtain ⟨nodeId, hbasic⟩ := hhonest.basic
  have hslot := hbasic.wellSlotted
  have horder := Consensus.orderVertices_of_committedLeaders hleaders hout
  obtain ⟨leader, hleader, hsupport, -, hfirst, hpath⟩ := Consensus.committedLeaders_spec hleaders
  have hleaderStored := ((Consensus.getWaveVertexLeader_eq_some_iff hslot).mp hleader).1
  -- a supporter of the wave's leader
  have hpos : 0 < A.dag.minQuorum := by
    rw [hbasic.minQuorum_eq]
    exact Nat.succ_pos _
  obtain ⟨m, hm, hcard⟩ := Consensus.supporters_of_isLinkedWithOthersInRound hpos hsupport
  obtain ⟨v, hv⟩ := List.exists_mem_of_length_pos (hpos.trans_le hcard)
  obtain ⟨hvm, hlinked⟩ := List.mem_filter.mp hv
  have hlinked := of_decide_eq_true hlinked
  have hstored : v ∈ A.dag.vertices := Dag.mem_vertices_of_find? hm hvm
  have hround := Dag.round_lt_of_isLinked hlinked
  -- it is listed
  obtain ⟨-, hlists, hcomplete⟩ := Consensus.orderVertices_spec hslot horder
  have hlisted : v ∈ out := by
    obtain ⟨u, hu, huv⟩ := List.mem_map.mp (hcomplete v hstored leader hfirst hlinked)
    have hustored := (hlists u hu).1
    obtain ⟨ho, hr⟩ := hU.hashesInjective u (hhonest.stored u hustored) v
      (hhonest.stored v hstored) huv
    exact hslot.slot_unique hustored hstored hr ho ▸ hu
  -- and it is not in the history of any leader
  intro hdelivers
  have htwo : 2 ≤ v.round := by
    have := Consensus.round_pos_of_leader hslot hleader
    omega
  obtain ⟨hhistory, -⟩ := (hdelivers v hstored htwo).mp hlisted
  rcases hhistory with hmem | ⟨l, hl, hanc⟩
  · have hle := (round_le_of_leaderPath hslot hleaderStored (hpath v hmem)).2
    omega
  · obtain ⟨hlstored, hle⟩ := round_le_of_leaderPath hslot hleaderStored (hpath l hl)
    have hlt := hhonest.round_lt_of_ancestor hU hlstored hanc
    omega

/-- The second of four nodes commits its second wave. -/
theorem commits_deliver_no_history_four :
    ∃ (N : Network) (A : Node) (leaders out : List Vertex) (c : Consensus),
      IsRun Sample.platform Sample.four Sample.toSecondCommit N ∧
      N.nodes[1]? = some A ∧ A.consensus.committedLeaders 100 2 = some leaders ∧
      A.consensus.getOrderedVertices 100 2 = some (out, c) ∧
      ¬ A.consensus.DeliversHistory leaders out := by
  obtain ⟨N, A, -, h, hA, -, hcommits⟩ := exists_isRun Sample.platform Sample.four
    Sample.toSecondCommit 1 1
    (fun A _ => (A.consensus.committedLeaders 100 2).isSome = true ∧
      (A.consensus.getOrderedVertices 100 2).isSome = true)
    (by decide) (by decide +kernel)
  obtain ⟨leaders, hleaders⟩ := Option.isSome_iff_exists.mp hcommits.1
  obtain ⟨⟨out, c⟩, hout⟩ := Option.isSome_iff_exists.mp hcommits.2
  exact ⟨N, A, leaders, out, c, h, hA, hleaders, hout,
    commits_deliver_no_history h (Run.Visits.last h.exec) (List.mem_of_getElem? hA) hleaders hout⟩

/-- The first of four nodes has received three vertices of round `4` and is about to commit
wave `1`. The only committed leader is a genesis vertex, which has no ancestors, and the list
has the vertices of rounds `2`, `3` and `4`. -/
theorem supporters_delivered :
    ∃ (N : Network) (A : Node) (leaders out : List Vertex) (c : Consensus),
      IsRun Sample.platform Sample.four
        (Sample.toRoundFour ++ Sample.eventsAt 0 (Sample.fourthPass [1, 2, 3]).dropLast) N ∧
      A ∈ N.nodes ∧ A.CallsOrder 1 ∧ A.consensus.committedLeaders 100 1 = some leaders ∧
      A.consensus.getOrderedVertices 100 1 = some (out, c) ∧
      Sample.vertex 4 [1, 2, 3] 1 ∈ out ∧ ¬ A.consensus.DeliversHistory leaders out := by
  obtain ⟨N, A, -, h, hA, -, hcommits⟩ := exists_isRun Sample.platform Sample.four
    (Sample.toRoundFour ++ Sample.eventsAt 0 (Sample.fourthPass [1, 2, 3]).dropLast) 0 0
    (fun A _ => A.CallsOrder 1 ∧ Sample.vertex 4 [1, 2, 3] 1 ∈ A.dag.vertices ∧
      (∃ leaders ∈ A.consensus.committedLeaders 100 1,
        Sample.vertex 4 [1, 2, 3] 1 ∉ leaders ∧ ∀ l ∈ leaders, l.parents.entries = []) ∧
      ∃ r ∈ A.consensus.getOrderedVertices 100 1, Sample.vertex 4 [1, 2, 3] 1 ∈ r.1)
    (by decide) (by decide +kernel)
  obtain ⟨hcall, hstored, ⟨leaders, hleaders, hnot, hparents⟩, ⟨out, c⟩, hout, hmem⟩ := hcommits
  refine ⟨N, A, leaders, out, c, h, List.mem_of_getElem? hA, hcall, hleaders, hout, hmem, ?_⟩
  intro hdelivers
  obtain ⟨hhistory, -⟩ := (hdelivers _ hstored (by decide)).mp hmem
  rcases hhistory with hleader | ⟨l, hl, hanc⟩
  · exact hnot hleader
  · exact Dag.not_ancestor_of_no_parents (hparents l hl) hanc

end Network

end DagRider
