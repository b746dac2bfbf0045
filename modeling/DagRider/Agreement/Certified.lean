import DagRider.Agreement.Leaders

set_option relaxedAutoImplicit false
set_option autoImplicit false

/-!
# Agreement whatever the others do

Agreement does not need that everybody runs this program. Nodes that do agree as soon as all they
receive comes from one pool of certified vertices: at most one for each slot, with lower parents in
the pool, of which a quorum are strong, by a member of the committee. This is what a reliable
broadcast with checks of validity would deliver; who has made the vertices, and when, and whether
their makers ever did anything else, makes no difference.

## Main definitions

* `DagRider.Network.Certified` — a pool of certified vertices.
* `DagRider.Network.Fed` — a node that has received vertices of the pool only.

## Main results

* `DagRider.Network.Fed.viewOf` — its DAG is a view of the pool.
* `DagRider.Network.fed_nodes_agree` — such nodes agree on histories and on leaders, if the pointer
  `leader` of `getLeadersToCommit` is read as the vertex that it was last set to (`leaderWalk`).
-/

namespace DagRider

namespace Network

variable {P : Platform} {committee : Committee} {U : List Vertex} {nd A B : Node} {w w' : ℕ}
  {l l' : Vertex}

/-- A pool of certified vertices: valid vertices of the committee, with the genesis vertices, and
one for each slot at most. -/
structure Certified (P : Platform) (committee : Committee) (U : List Vertex) : Prop where
  history : History committee U
  slots : SlotsUnique U
  genesis : ∀ v ∈ Vertex.genesis P committee.getNodesKeys, v ∈ U

/-- A node of the committee, at any point of any run in which it receives vertices of the pool
only. -/
structure Fed (P : Platform) (committee : Committee) (U : List Vertex) (nd : Node) : Prop where
  exists_run : ∃ nodeId es, Node.run P nodeId committee es = some nd ∧
    ∀ e ∈ es, ∀ v ∈ e.vertices, v ∈ U

/-- What such a node can have stored is in the pool. -/
lemma Certified.known (hU : Certified P committee U) {es : List NodeEvent}
    (hfed : ∀ e ∈ es, ∀ v ∈ e.vertices, v ∈ U) : ∀ v ∈ Node.known P committee es, v ∈ U := by
  intro v hv
  rcases List.mem_append.mp hv with hv | hv
  · exact hU.genesis v hv
  · obtain ⟨e, he, hv⟩ := List.mem_flatMap.mp hv
    exact hfed e he v hv

/-- The basic facts about such a node. -/
lemma Fed.basic (h : Fed P committee U nd) : ∃ nodeId, nd.Basic nodeId committee := by
  obtain ⟨nodeId, es, hrun, -⟩ := h.exists_run
  exact ⟨nodeId, Node.basic hrun⟩

/-- **The DAG of such a node is a view of the pool.**

**Proof sketch.** It stores what it has received (`Node.stored`), and nothing replaces it, since
the pool has one vertex for each slot (`Node.not_overwrites`); so its DAG stays closed. -/
theorem Fed.viewOf (hU : Certified P committee U) (h : Fed P committee U nd) :
    nd.dag.ViewOf U := by
  obtain ⟨nodeId, es, hrun, hfed⟩ := h.exists_run
  have hknown := hU.known hfed
  refine ⟨(Node.basic hrun).wellSlotted, fun v hv => hknown v ((Node.stored hrun).known v hv), ?_⟩
  refine Node.closed (Node.not_overwrites fun u hu v hv => ?_) (Run.Visits.last hrun)
  exact hU.slots u (hknown u hu) v (hknown v hv)

/-- A call for a wave that is not `0` is for a wave below `2^30`. -/
lemma Fed.wave_lt (h : Fed P committee U nd) (hcall : nd.CallsOrder w) : w < 2 ^ 30 := by
  obtain ⟨nodeId, hbasic⟩ := h.basic
  obtain ⟨-, -, -, rfl⟩ := hcall
  have hlt := hbasic.round_lt
  unfold MAX_WAVE
  omega

/-- **Agreement whatever the others do.** Let two nodes run this program, in any two runs, each
receiving vertices of one pool of certified vertices only. They agree on the ancestors of every
vertex that they share. And when the first calls `getOrderedVertices` for wave `w` and passes its
checks with the leader `l`, and the second for a wave `w' ≥ w` with the leader `l'`, then both
walks end, and the list of the second without the leaders of later waves than `w` is the list of the
first; in particular the second commits `l`. The walks are those of `leaderWalk`: the pointer
`leader`, which dangles in the source after the first move, is read as the vertex that it was last
set to.

**Proof sketch.** Both DAGs are views of the causal graph of the pool (`Fed.viewOf`), which is
quorate; so the supporters of `l` spread it to all later rounds, and the walks, which compute chains
of one schedule, agree below it (`CausalGraph.chain_agree`). -/
theorem fed_nodes_agree (hU : Certified P committee U) (hA : Fed P committee U A)
    (hB : Fed P committee U B) :
    (∀ v ∈ A.dag.vertices, v ∈ B.dag.vertices → ∀ u,
      A.dag.Ancestor v u ↔ B.dag.Ancestor v u) ∧
    (A.CallsOrder w → B.CallsOrder w' → 1 ≤ w → w ≤ w' → A.Passes w l → B.Passes w' l' →
      ∃ LA LB, Fuel.Computes (fun fuel =>
          A.consensus.getLeadersToCommit fuel ((w + 2 ^ 32 - 1) % 2 ^ 32) l) LA ∧
        Fuel.Computes (fun fuel =>
          B.consensus.getLeadersToCommit fuel ((w' + 2 ^ 32 - 1) % 2 ^ 32) l') LB ∧
        LB.filter (fun x => x.round ≤ Consensus.getRoundForWave w 1) = LA ∧ l ∈ LB) := by
  have hviewA := hA.viewOf hU
  have hviewB := hB.viewOf hU
  refine ⟨fun v hvA hvB u => ?_, fun hcallA hcallB hw hww hpassA hpassB => ?_⟩
  · exact (hviewA.ancestor_iff hU.history hU.slots hvA).trans
      (hviewB.ancestor_iff hU.history hU.slots hvB).symm
  obtain ⟨hl, fuel, hsupport⟩ := hpassA
  obtain ⟨hl', -⟩ := hpassB
  obtain ⟨idA, hbasicA⟩ := hA.basic
  obtain ⟨idB, hbasicB⟩ := hB.basic
  have hlt := hA.wave_lt hcallA
  have hlt' := hB.wave_lt hcallB
  have hseesA := Consensus.sees_leaders hU.history hU.slots hbasicA.committee_eq hviewA hlt.le
  have hseesB := Consensus.sees_leaders hU.history hU.slots hbasicB.committee_eq hviewB hlt'.le
  obtain ⟨hleader, hlA⟩ := (hseesA w hw le_rfl l).mp hl
  obtain ⟨hleader', hlB⟩ := (hseesB w' (hw.trans hww) le_rfl l').mp hl'
  have hspread : ∀ v ∈ U, 4 * (w + 1) - 3 ≤ v.round →
      (hU.history.graph hU.slots).Reaches v l := by
    intro v hv hr
    refine Consensus.support_spreads hU.history hU.slots hbasicA.minQuorum_eq hviewA hlA hsupport
      hv ?_
    rw [Consensus.getRoundForWave_eq hw hlt.le]
    unfold MAX_WAVE
    omega
  have hfirst : Consensus.getRoundForWave w 1 = 4 * w - 3 := by
    rw [Consensus.getRoundForWave_eq hw hlt.le]
    omega
  rw [previous_wave hw hlt, previous_wave (hw.trans hww) hlt', hfirst]
  refine ⟨_, _, Consensus.getLeadersToCommit_computes hU.history hU.slots hviewA hlA,
    Consensus.getLeadersToCommit_computes hU.history hU.slots hviewB hlB, ?_⟩
  exact CausalGraph.chain_agree (hviewA.isView hU.history hU.slots)
    (hviewB.isView hU.history hU.slots) hseesA hseesB hleader hleader' hlA hlB hw hww le_rfl
    le_rfl hspread

/-! ### A pool with a stranger's vertex -/

/-- A vertex of round `4` by an owner who has no vertices of rounds `2` and `3`, with a genesis
vertex among its parents: no run of this program makes it. -/
def stranger : Vertex :=
  Vertex.new Sample.platform 4 4 Block.default
    (OrderedMap.ofList ((Sample.hash 1 2 0, 1) :: [1, 2, 3].map fun o => (Sample.hash 3 o 0, 3)))

/-- The genesis vertices, the vertices of three owners in rounds `2`, `3` and `4`, and the
stranger's. -/
def strangerPool : List Vertex :=
  Vertex.genesis Sample.platform Sample.four.getNodesKeys ++
    Sample.second [1, 2, 3] ++ [1, 2, 3].map (Sample.vertex 3 [1, 2, 3]) ++
    [1, 2, 3].map (Sample.vertex 4 [1, 2, 3]) ++ [stranger]

/-- A node that comes to round `4` and receives some vertices of it. -/
def toWaveEnd (fourth : List Vertex) : List NodeEvent :=
  Sample.pass [] ++ Sample.pass (Sample.second [1, 2, 3]) ++
    Sample.pass ([1, 2, 3].map (Sample.vertex 3 [1, 2, 3])) ++ (Sample.pass fourth).dropLast

/-- The pool is one of certified vertices. -/
lemma certified_strangerPool : Certified Sample.platform Sample.four strangerPool where
  history := by
    have hvalid : ∀ v ∈ strangerPool, (∀ e ∈ v.parents.entries, ∃ u ∈ strangerPool,
        u.hash = e.1 ∧ u.round = e.2) ∧ (∀ e ∈ v.parents.entries, e.2 < v.round) ∧
        (2 ≤ v.round → Sample.four.quorumThreshold ≤ v.getStrongParents.entries.length) := by
      decide +kernel
    exact ⟨by decide +kernel, fun v hv => ⟨(hvalid v hv).1, (hvalid v hv).2.1, (hvalid v hv).2.2⟩,
      by decide +kernel, by decide +kernel⟩
  slots := by
    unfold SlotsUnique
    decide +kernel
  genesis := by decide +kernel

/-- Two nodes at the end of wave `1`, of which the second has received the stranger's vertex. -/
theorem fed_nodes_agree_stranger :
    ∃ (A B : Node) (l l' : Vertex) (LA LB : List Vertex),
      Fed Sample.platform Sample.four strangerPool A ∧
      Fed Sample.platform Sample.four strangerPool B ∧ stranger ∈ B.dag.vertices ∧
      Fuel.Computes (fun fuel =>
        A.consensus.getLeadersToCommit fuel ((1 + 2 ^ 32 - 1) % 2 ^ 32) l) LA ∧
      Fuel.Computes (fun fuel =>
        B.consensus.getLeadersToCommit fuel ((1 + 2 ^ 32 - 1) % 2 ^ 32) l') LB ∧
      LB.filter (fun x => x.round ≤ Consensus.getRoundForWave 1 1) = LA ∧ l ∈ LB := by
  have hA : (Node.run Sample.platform 1 Sample.four
      (toWaveEnd ([1, 2, 3].map (Sample.vertex 4 [1, 2, 3])))).any (fun nd =>
        decide (nd.CallsOrder 1 ∧ ∃ l ∈ nd.consensus.getWaveVertexLeader 1,
          nd.dag.isLinkedWithOthersInRound 100 l (Consensus.getRoundForWave 1 MAX_WAVE) =
            some true)) = true := by
    decide +kernel
  have hB : (Node.run Sample.platform 2 Sample.four
      (toWaveEnd ([2, 3].map (Sample.vertex 4 [1, 2, 3]) ++ [stranger]))).any (fun nd =>
        decide (stranger ∈ nd.dag.vertices ∧ nd.CallsOrder 1 ∧
          ∃ l ∈ nd.consensus.getWaveVertexLeader 1,
            nd.dag.isLinkedWithOthersInRound 100 l (Consensus.getRoundForWave 1 MAX_WAVE) =
              some true)) = true := by
    decide +kernel
  obtain ⟨A, hA, hp⟩ := Run.exists_exec_of_any hA
  obtain ⟨B, hB, hq⟩ := Run.exists_exec_of_any hB
  obtain ⟨hcallA, l, hl, hsupport⟩ := of_decide_eq_true hp
  obtain ⟨hstored, hcallB, l', hl', hsupport'⟩ := of_decide_eq_true hq
  have hfedA : Fed Sample.platform Sample.four strangerPool A :=
    ⟨⟨1, _, hA, by decide +kernel⟩⟩
  have hfedB : Fed Sample.platform Sample.four strangerPool B :=
    ⟨⟨2, _, hB, by decide +kernel⟩⟩
  obtain ⟨LA, LB, hagree⟩ := (fed_nodes_agree certified_strangerPool hfedA hfedB).2 hcallA hcallB
    le_rfl le_rfl ⟨hl, 100, hsupport⟩ ⟨hl', 100, hsupport'⟩
  exact ⟨A, B, l, l', LA, LB, hfedA, hfedB, hstored, hagree⟩

end Network

end DagRider
