import DagRider.Liveness.Passes
import DagRider.Agreement.History
import DagRider.Node.Arrival

set_option relaxedAutoImplicit false
set_option autoImplicit false

/-!
# The network never gets stuck

From every reachable state of a network, delayed or lost vertices can still be delivered so that
all nodes come to any later round: a node that is behind all others finds a vertex of its round by
every member of the committee among those that were sent, and needs no more than their history.

## Main definitions

* `DagRider.Network.Counts` — no counter has wrapped: each node sent one vertex a round.
* `DagRider.Network.Reached` — the states the results are about.
* `DagRider.Network.Member` — what holds of the nodes in such a state.
* `DagRider.Network.batch` — the vertices sent for the rounds up to one, by round.

## Main results

* `DagRider.Network.exec_node` — a run of one node is a run of the network.
* `DagRider.Network.Reached.member` — the facts about the nodes.
* `DagRider.Network.Reached.exists_advanced` — the node that is behind all others can advance.
* `DagRider.Network.rounds_reachable` — every round can be reached by all.
-/

namespace DagRider

variable {P : Platform} {committee : Committee}

namespace Node

variable {nodeId : NodePublicKey} {es : List NodeEvent} {nd nd' : Node}

/-- The round is one more than the number of vertices sent, up to the width of its type. -/
lemma currentRound_eq (h : run P nodeId committee es = some nd) :
    nd.currentRound = (nd.consensus.vertexToBroadcast.length + 1) % 2 ^ 32 := by
  refine Run.invariant (I := fun nd : Node =>
    nd.currentRound = (nd.consensus.vertexToBroadcast.length + 1) % 2 ^ 32) ?_ rfl h
  intro nd e nd' ih hstep
  rcases quiet_or_advances hstep with hquiet | ⟨fuel, d, block, v, -, -, -, -, -, rfl⟩
  · show nd'.consensus.state.currentRound = _
    rw [hquiet.currentRound, hquiet.vertexToBroadcast]
    exact ih
  · show (nd.currentRound + 1) % 2 ^ 32 = _
    rw [ih, List.length_append, List.length_singleton]
    omega

/-- What is sent only grows, over a step. -/
lemma length_sent_step {e : NodeEvent} (h : nd.step P e = some nd') :
    nd.consensus.vertexToBroadcast.length ≤ nd'.consensus.vertexToBroadcast.length := by
  have hle := (proposedBlocks_prefix_step h).length_le
  unfold proposedBlocks at hle
  rwa [List.length_map, List.length_map] at hle

end Node

namespace Network

variable {es fs : List NetworkEvent} {N N' S : Network} {i : ℕ} {nd nd' : Node}

/-! ## Runs of one node -/

/-- **A run of one node is a run of the network**, when what it receives was sent. -/
lemma exec_node {es : List NodeEvent} (hi : N.nodes[i]? = some nd)
    (h : Run.exec (Node.step P) nd es = some nd')
    (hsent : ∀ e ∈ es, ∀ v ∈ e.vertices, v ∈ N.sent) :
    Run.exec (step P) N (es.map fun e => ⟨i, e⟩) = some ⟨N.nodes.set i nd'⟩ := by
  have hlen : i < N.nodes.length := (List.getElem?_eq_some_iff.mp hi).1
  induction es generalizing N nd with
  | nil =>
    rw [Run.exec_nil, Option.some.injEq] at h
    subst h
    rw [List.map_nil, Run.exec_nil, Option.some.injEq]
    have hself : N.nodes.set i nd = N.nodes := by
      rw [← (List.getElem?_eq_some_iff.mp hi).2, List.set_getElem_self]
    rw [hself]
  | cons e es ih =>
    obtain ⟨nd₁, hstep, hrest⟩ := Run.exec_cons_eq_some.mp h
    have hN : N.step P ⟨i, e⟩ = some ⟨N.nodes.set i nd₁⟩ := by
      unfold step
      simp only [hi, Option.bind_eq_bind, Option.bind_some]
      rw [if_pos (hsent e (by simp)), hstep]
      rfl
    have hset : (N.nodes.set i nd₁)[i]? = some nd₁ := List.getElem?_set_self hlen
    have hrun := ih (N := ⟨N.nodes.set i nd₁⟩) hset hrest
      (fun e' he' v hv => sent_step hN (hsent e' (by simp [he']) v hv)) (by simpa using hlen)
    rw [List.map_cons, Run.exec_cons_eq_some]
    refine ⟨_, hN, hrun.trans ?_⟩
    rw [List.set_set]

/-! ## Counters -/

/-- No counter has wrapped: the round of each node is one more than the number of vertices it
sent. -/
def Counts (N : Network) : Prop :=
  ∀ nd ∈ N.nodes, nd.currentRound = nd.consensus.vertexToBroadcast.length + 1

/-- A state that the network reaches before a counter wraps. -/
structure Reached (P : Platform) (committee : Committee) (es : List NetworkEvent) (N : Network) :
    Prop where
  distinctKeys : committee.getNodesKeys.Nodup
  exec : Run.exec (step P) (init P committee) es = some N
  counts : N.Counts

/-- Each node sends more and more. -/
lemma length_sent_exec (h : Run.exec (step P) N es = some N') (hi : N.nodes[i]? = some nd) :
    ∃ nd', N'.nodes[i]? = some nd' ∧
      nd.consensus.vertexToBroadcast.length ≤ nd'.consensus.vertexToBroadcast.length := by
  refine Run.invariant (I := fun N' : Network => ∃ nd', N'.nodes[i]? = some nd' ∧
    nd.consensus.vertexToBroadcast.length ≤ nd'.consensus.vertexToBroadcast.length)
    ?_ ⟨nd, hi, le_rfl⟩ h
  rintro S e S' ⟨nd₁, hnd₁, hle⟩ hstep
  obtain ⟨old, new, hold, -, hnew, rfl⟩ := step_cases hstep
  by_cases hei : e.node = i
  · subst hei
    have heq : old = nd₁ := Option.some.inj (hold.symm.trans hnd₁)
    subst heq
    have hlen : e.node < S.nodes.length := (List.getElem?_eq_some_iff.mp hold).1
    exact ⟨new, List.getElem?_set_self hlen, hle.trans (Node.length_sent_step hnew)⟩
  · exact ⟨nd₁, (List.getElem?_set_ne hei).trans hnd₁, hle⟩

/-- Where no counter has wrapped, none had before. -/
lemma Reached.notWrapped (h : Reached P committee es N) :
    Run.Throughout (step P) NotWrapped (init P committee) es := by
  refine Run.throughout_iff_visits.mpr ?_
  rintro S ⟨p, ⟨q, rfl⟩, hS⟩ nd hnd
  obtain ⟨T, hT, hN⟩ := Run.exec_append_eq_some.mp h.exec
  have hTS : T = S := Option.some.inj (hT.symm.trans hS)
  subst hTS
  obtain ⟨i, hi⟩ := List.mem_iff_getElem?.mp hnd
  obtain ⟨nd', hi', hle⟩ := length_sent_exec hN hi
  obtain ⟨nodeId, -, hrun⟩ := node_run hS hi
  obtain ⟨nodeId', -, hrun'⟩ := node_run h.exec hi'
  have hbound := (Node.basic hrun').round_lt
  have hcount := h.counts nd' (List.mem_of_getElem? hi')
  have hround := Node.currentRound_eq hrun
  unfold Node.NotWrapped
  omega

/-- A run in which no counter wraps. -/
lemma reached (hkeys : committee.getNodesKeys.Nodup)
    (h : Run.exec (step P) (init P committee) es = some N)
    (hround : Run.Throughout (step P) NotWrapped (init P committee) es) :
    Reached P committee es N := by
  refine ⟨hkeys, h, fun nd hnd => ?_⟩
  obtain ⟨i, hi⟩ := List.mem_iff_getElem?.mp hnd
  obtain ⟨nodeId, hkey, hrun⟩ := node_run h hi
  have hproposed := Node.proposed hrun (IsRun.node_notWrapped List.prefix_rfl hround h hi hkey)
  have hne : nd.currentRound ≠ 0 := hround.last h nd hnd
  have hlen := congrArg List.length hproposed.rounds
  rw [List.length_map, List.length_range'] at hlen
  omega

/-! ## The nodes -/

/-- What holds of a node of the network. -/
structure Member (P : Platform) (committee : Committee) (N : Network) (nodeId : NodePublicKey)
    (nd : Node) : Prop where
  basic : nd.Basic nodeId committee
  known : ∀ v, v ∈ nd.dag.vertices ∨ v ∈ nd.buffer → v ∈ N.vertices P committee
  genesis : ∀ v ∈ Vertex.genesis P committee.getNodesKeys, v ∈ nd.dag.vertices
  /-- It has sent a vertex for each round it came to. -/
  sent : ∀ r, 2 ≤ r → r ≤ nd.currentRound →
    ∃ v ∈ nd.consensus.vertexToBroadcast, v.round = r ∧ v.owner = nodeId
  /-- It has sent nothing else. -/
  sent_round : ∀ v ∈ nd.consensus.vertexToBroadcast, 2 ≤ v.round ∧ v.round ≤ nd.currentRound

namespace Reached

/-- The vertices have a slot each. -/
lemma slots (h : Reached P committee es N) : SlotsUnique (N.vertices P committee) :=
  IsRun.slotsUnique_of_exec h.distinctKeys h.exec h.notWrapped

/-- **The facts about a node** of the network. -/
theorem member (h : Reached P committee es N) (hi : N.nodes[i]? = some nd) :
    ∃ nodeId, committee.getNodesKeys[i]? = some nodeId ∧ Member P committee N nodeId nd := by
  obtain ⟨nodeId, hkey, hrun⟩ := node_run h.exec hi
  have hstored := Node.stored hrun
  have hproposed := Node.proposed hrun
    (IsRun.node_notWrapped List.prefix_rfl h.notWrapped h.exec hi hkey)
  have hknown : ∀ v ∈ Node.known P committee (eventsOf i es), v ∈ N.vertices P committee :=
    fun v hv => IsRun.known_subset_of_exec h.exec List.prefix_rfl hv
  have hno : Run.Along (Node.step P) (fun nd e => ¬ nd.Overwrites e)
      (Node.init P nodeId committee) (eventsOf i es) :=
    Node.not_overwrites fun u hu v hv => h.slots u (hknown u hu) v (hknown v hv)
  have hrounds : ∀ r, r ∈ nd.consensus.vertexToBroadcast.map Vertex.round ↔
      2 ≤ r ∧ r < 2 + (nd.currentRound - 1) := fun r => by
    rw [hproposed.rounds, List.mem_range'_1]
  refine ⟨nodeId, hkey, Node.basic hrun, ?_, ?_, ?_, ?_⟩
  · rintro v (hv | hv)
    · exact hknown v (hstored.known v hv)
    · exact hknown v (List.mem_append_right _ (hstored.buffer v hv))
  · intro v hv
    have hstart : v ∈ (Node.init P nodeId committee).dag.vertices :=
      Dag.mem_new_of_mem_root (fun _ hu _ hw => Vertex.genesis_unique hu hw) hv
    exact Node.grows hno ⟨[], eventsOf i es, List.prefix_rfl, rfl, hrun⟩ hstart
  · intro r h2 hr
    obtain ⟨v, hv, hvr⟩ := List.mem_map.mp ((hrounds r).mpr ⟨h2, by omega⟩)
    exact ⟨v, hv, hvr, hproposed.owners v hv⟩
  · intro v hv
    have hmem := (hrounds v.round).mp (List.mem_map_of_mem hv)
    omega

/-- The parents of a vertex name vertices, in lower rounds. -/
lemma named (h : Reached P committee es N) {v : Vertex} (hv : v ∈ N.vertices P committee)
    {e : VertexHash × ℕ} (he : e ∈ v.parents.entries) :
    e.2 < v.round ∧ ∃ u ∈ N.vertices P committee, u.hash = e.1 ∧ u.round = e.2 := by
  rcases List.mem_append.mp hv with hv | hv
  · rw [(Vertex.of_mem_genesis hv).2.2] at he
    exact absurd he List.not_mem_nil
  · obtain ⟨i, nd, hnd, hv⟩ := mem_sent.mp hv
    obtain ⟨nodeId, -, hrun⟩ := node_run h.exec hnd
    obtain ⟨⟨u, hu, hue⟩, hlow⟩ := Node.sent_named hrun hv he
    exact ⟨hlow, u, IsRun.known_subset_of_exec h.exec List.prefix_rfl hu, hue⟩

/-- Where all nodes have come to a round, every member of the committee has a vertex of it. -/
lemma owner_of_round (h : Reached P committee es N) {r : ℕ} (h1 : 1 ≤ r)
    (hr : ∀ nd ∈ N.nodes, r ≤ nd.currentRound) {k : NodePublicKey}
    (hk : k ∈ committee.getNodesKeys) :
    ∃ v ∈ N.vertices P committee, v.round = r ∧ v.owner = k := by
  by_cases hone : r = 1
  · subst hone
    exact ⟨_, List.mem_append_left _ (List.mem_map_of_mem hk), rfl, rfl⟩
  · obtain ⟨i, hi⟩ := List.mem_iff_getElem?.mp hk
    have hlen : i < N.nodes.length := by
      have hkeys := (List.getElem?_eq_some_iff.mp hi).1
      rw [nodes_length h.exec]
      simpa [init] using hkeys
    have hnd := List.getElem?_eq_getElem hlen
    obtain ⟨nodeId, hkey, hmember⟩ := h.member hnd
    have hid : nodeId = k := Option.some.inj (hkey.symm.trans hi)
    subst hid
    obtain ⟨v, hv, hvr⟩ := hmember.sent r (by omega) (hr _ (List.getElem_mem hlen))
    exact ⟨v, List.mem_append_right _ (mem_sent.mpr ⟨i, _, hnd, hv⟩), hvr⟩

end Reached

/-! ## The node that is behind -/

/-- The vertices sent for the rounds up to `r`, by round. -/
def batch (N : Network) (r : ℕ) : List Vertex :=
  (N.sent.filter fun v => v.round ≤ r).insertionSort fun u v => u.round ≤ v.round

/-- What is in the batch. -/
lemma mem_batch {r : ℕ} {v : Vertex} : v ∈ N.batch r ↔ v ∈ N.sent ∧ v.round ≤ r := by
  unfold batch
  rw [List.mem_insertionSort, List.mem_filter, decide_eq_true_iff]

/-- The batch can be admitted whole by any node. -/
lemma Reached.inOrder_batch (h : Reached P committee es N) {nodeId : NodePublicKey}
    (hm : Member P committee N nodeId nd) (r : ℕ) : InOrder nd.dag r (N.batch r) where
  round_le v hv := (mem_batch.mp hv).2
  sorted := by
    have : Std.Total fun u v : Vertex => u.round ≤ v.round := ⟨fun u v => Nat.le_total _ _⟩
    have : IsTrans Vertex fun u v => u.round ≤ v.round := ⟨fun u v w => Nat.le_trans⟩
    exact List.pairwise_insertionSort _ _
  named v hv e he := by
    obtain ⟨hv, hvr⟩ := mem_batch.mp hv
    obtain ⟨hlow, u, hu, huh, hur⟩ := h.named (List.mem_append_right _ hv) he
    refine ⟨hlow, u, ?_, huh, hur⟩
    rcases List.mem_append.mp hu with hu | hu
    · exact Or.inl (hm.genesis u hu)
    · exact Or.inr (mem_batch.mpr ⟨hu, by omega⟩)
  slots u hu v hv := by
    have hu' : u ∈ N.vertices P committee := by
      rcases hu with hu | hu
      · exact hm.known u (Or.inl hu)
      · exact List.mem_append_right _ (mem_batch.mp hu).1
    exact h.slots u hu' v (List.mem_append_right _ (mem_batch.mp hv).1)

/-- A round with a vertex by every member of the committee has its quorum. -/
lemma quorum_of_owners {g : Dag} (hg : g.WellSlotted) (hkeys : committee.getNodesKeys.Nodup)
    (hne : committee.getNodesKeys ≠ []) (hq : g.minQuorum = committee.quorumThreshold) {r : ℕ}
    (hall : ∀ k ∈ committee.getNodesKeys, ∃ v ∈ g.vertices, v.round = r ∧ v.owner = k) :
    g.isQuorumReachedForRound r = true := by
  obtain ⟨k, hk⟩ := List.exists_mem_of_ne_nil _ hne
  obtain ⟨v, hv, rfl, -⟩ := hall k hk
  obtain ⟨m, hm, -⟩ := hg.exists_slot hv
  have hsub : committee.getNodesKeys ⊆ m.values.map Vertex.owner := by
    intro k hk
    obtain ⟨u, hu, hur, rfl⟩ := hall k hk
    exact List.mem_map_of_mem ((hg.mem_values_iff hm).mpr ⟨hu, hur⟩)
  have hlen := (hkeys.subperm hsub).length_le
  rw [Committee.length_getNodesKeys, List.length_map, UnorderedMap.length_values] at hlen
  have hpos := List.length_pos_of_ne_nil hne
  rw [Committee.length_getNodesKeys] at hpos
  unfold Dag.isQuorumReachedForRound
  rw [hm]
  show decide (g.minQuorum ≤ m.size) = true
  rw [hq, decide_eq_true_iff]
  unfold Committee.quorumThreshold
  unfold Committee.size at hlen hpos
  omega

/-- A node moves on while no counter wraps. -/
lemma Reached.extend (h : Reached P committee es N) (hi : N.nodes[i]? = some nd)
    {fs : List NodeEvent} (hrun : Run.exec (Node.step P) nd fs = some nd')
    (hsent : ∀ e ∈ fs, ∀ v ∈ e.vertices, v ∈ N.sent)
    (hcount : nd'.currentRound = nd'.consensus.vertexToBroadcast.length + 1) :
    Reached P committee (es ++ fs.map fun e => ⟨i, e⟩) ⟨N.nodes.set i nd'⟩ := by
  refine ⟨h.distinctKeys, Run.exec_append_eq_some.mpr ⟨N, h.exec, exec_node hi hrun hsent⟩, ?_⟩
  intro x hx
  rcases List.mem_or_eq_of_mem_set hx with hx | rfl
  · exact h.counts x hx
  · exact hcount

/-- The parents of what a node stores or is about to scan are in lower rounds. -/
lemma Reached.lower (h : Reached P committee es N) {nodeId : NodePublicKey}
    (hm : Member P committee N nodeId nd) :
    ∀ v, v ∈ nd.dag.vertices ∨ v ∈ nd.buffer → ∀ e ∈ v.parents.entries, e.2 < v.round :=
  fun v hv _ he => (h.named (hm.known v hv) he).1

/-- A vertex made in the next round, by a node that stores every vertex of the round below. -/
structure MadeOf (P : Platform) (U : List Vertex) (c : Consensus) (v : Vertex) : Prop where
  new : ∃ block, IsNewVertex P c c.nextRound block v
  wellSlotted : c.state.dag.WellSlotted
  stored : ∀ u ∈ c.state.dag.vertices, u ∈ U
  complete : ∀ u ∈ U, u.round ≤ c.state.currentRound → u ∈ c.state.dag.vertices

/-- **The node that is behind all others advances**, from between two passes: it receives the
batch of its round, and makes its next vertex on the complete round.

**Proof sketch.** Every member of the committee has sent a vertex for the round
(`Reached.owner_of_round`), the batch has them all and can be admitted whole
(`Reached.inOrder_batch`), so the round gets its quorum and the pass advances
(`Node.exists_advanced`). -/
theorem Reached.exists_advanced (h : Reached P committee es N) (hi : N.nodes[i]? = some nd)
    (hphase : nd.phase = .drain) (hmin : ∀ nd' ∈ N.nodes, nd.currentRound ≤ nd'.currentRound)
    (hlt : nd.currentRound + 1 < 2 ^ 32) :
    ∃ fs nd' c v, Reached P committee (es ++ fs) ⟨N.nodes.set i nd'⟩ ∧ nd'.phase = .drain ∧
      nd'.currentRound = nd.currentRound + 1 ∧
      nd'.consensus.vertexToBroadcast = nd.consensus.vertexToBroadcast ++ [v] ∧
      c.state.currentRound = nd.currentRound ∧ MadeOf P (N.vertices P committee) c v := by
  obtain ⟨nodeId, hkey, hm⟩ := h.member hi
  have hcount := h.counts nd (List.mem_of_getElem? hi)
  have hknown : ∀ v, v ∈ nd.dag.vertices ∨ v ∈ N.batch nd.currentRound →
      v ∈ N.vertices P committee := by
    rintro v (hv | hv)
    · exact hm.known v (Or.inl hv)
    · exact List.mem_append_right _ (mem_batch.mp hv).1
  have hall : ∀ u ∈ N.vertices P committee, u.round ≤ nd.currentRound →
      u ∈ nd.dag.vertices ∨ u ∈ N.batch nd.currentRound := by
    intro u hu hur
    rcases List.mem_append.mp hu with hu | hu
    · exact Or.inl (hm.genesis u hu)
    · exact Or.inr (mem_batch.mpr ⟨hu, hur⟩)
  obtain ⟨fuel, s, nd', hrun, hfinish, hdone, hcan, hround, hslot, hstored, hsent⟩ :=
    Node.exists_advanced (P := P) hphase hm.basic.wellSlotted (h.inOrder_batch hm nd.currentRound)
      (fun v hv e he => (h.named (hknown v hv) he).1) fun g hg hgslot hgall => by
        refine quorum_of_owners hgslot h.distinctKeys
          (List.ne_nil_of_mem (List.mem_of_getElem? hkey)) (hg.trans hm.basic.minQuorum_eq)
          fun k hk => ?_
        obtain ⟨v, hv, hvr, hvo⟩ := h.owner_of_round (by omega) hmin hk
        exact ⟨v, hgall v (hall v hv hvr.le), hvr, hvo⟩
  obtain ⟨hphase', hdag, ⟨hno, -⟩ | ⟨-, hnext, block, v, hsent', hv⟩⟩ := Node.finish_cases hfinish
  · rw [hcan] at hno
    exact absurd hno (by simp)
  have hnext' : nd'.currentRound = nd.currentRound + 1 := by
    rw [hnext]
    show (s.currentRound + 1) % 2 ^ 32 = _
    rw [hround]
    omega
  have hpass : Run.exec (Node.step P) nd
      (.drain (N.batch nd.currentRound) [Block.default] ::
        (N.batch nd.currentRound).map (fun _ => .scan) ++ [.finish fuel]) = some nd' :=
    Run.exec_concat_eq_some.mpr ⟨s, hrun, hfinish⟩
  have hreceived : ∀ e ∈ NodeEvent.drain (N.batch nd.currentRound) [Block.default] ::
      (N.batch nd.currentRound).map (fun _ => NodeEvent.scan) ++ [NodeEvent.finish fuel],
      ∀ v ∈ e.vertices, v ∈ N.sent := by
    intro e he v hv
    rcases List.mem_append.mp he with he | he
    · rcases List.mem_cons.mp he with rfl | he
      · exact (mem_batch.mp hv).1
      · obtain ⟨-, -, rfl⟩ := List.mem_map.mp he
        exact absurd hv List.not_mem_nil
    · rw [List.mem_singleton.mp he] at hv
      exact absurd hv List.not_mem_nil
  refine ⟨_, nd', s.consensus, v, h.extend hi hpass hreceived ?_, hphase', hnext', ?_, hround,
    ⟨block, hv⟩, hslot, fun u hu => hknown u ((hstored u).mp hu), fun u hu hur => ?_⟩
  · rw [hsent', hsent, List.length_append, List.length_singleton, hnext', hcount]
  · rw [hsent', hsent]
  · exact (hstored u).mpr (hall u hu (hround ▸ hur))

/-- A node can end the pass it is in, before its counter wraps. -/
lemma Reached.exists_drained (h : Reached P committee es N) (hi : N.nodes[i]? = some nd)
    (hlt : nd.currentRound + 1 < 2 ^ 32) :
    ∃ fs nd', Reached P committee (es ++ fs) ⟨N.nodes.set i nd'⟩ ∧ nd'.phase = .drain ∧
      nd.currentRound ≤ nd'.currentRound ∧ nd'.currentRound ≤ nd.currentRound + 1 := by
  obtain ⟨nodeId, -, hm⟩ := h.member hi
  have hcount := h.counts nd (List.mem_of_getElem? hi)
  obtain ⟨fs, nd', hrun, hnone, hphase, ⟨hround, hsent⟩ | ⟨hround, v, hsent⟩⟩ :=
    Node.exists_drained (P := P) hm.basic.wellSlotted (h.lower hm)
  all_goals
    have hreceived : ∀ e ∈ fs, ∀ v ∈ e.vertices, v ∈ N.sent := by
      intro e he v hv
      rw [hnone e he] at hv
      exact absurd hv List.not_mem_nil
  · refine ⟨_, nd', h.extend hi hrun hreceived ?_, hphase, by omega, by omega⟩
    rw [hround, hsent, hcount]
  · have hnext : nd'.currentRound = nd.currentRound + 1 := by
      rw [hround]
      exact Nat.mod_eq_of_lt hlt
    refine ⟨_, nd', h.extend hi hrun hreceived ?_, hphase, by omega, by omega⟩
    rw [hnext, hsent, List.length_append, List.length_singleton, hcount]

/-- The node that is behind all others comes to its next round. -/
lemma Reached.exists_next (h : Reached P committee es N) (hi : N.nodes[i]? = some nd)
    (hmin : ∀ nd' ∈ N.nodes, nd.currentRound ≤ nd'.currentRound)
    (hlt : nd.currentRound + 1 < 2 ^ 32) :
    ∃ fs nd', Reached P committee (es ++ fs) ⟨N.nodes.set i nd'⟩ ∧
      nd'.currentRound = nd.currentRound + 1 := by
  obtain ⟨fs, nd₁, h₁, hphase, hge, hle⟩ := h.exists_drained hi hlt
  by_cases hnext : nd₁.currentRound = nd.currentRound + 1
  · exact ⟨fs, nd₁, h₁, hnext⟩
  -- the pass ended in the same round, where the node is still behind all others
  have hsame : nd₁.currentRound = nd.currentRound := by omega
  have hi₁ : (N.nodes.set i nd₁)[i]? = some nd₁ :=
    List.getElem?_set_self (List.getElem?_eq_some_iff.mp hi).1
  obtain ⟨gs, nd₂, c, v, h₂, -, hround, -⟩ := h₁.exists_advanced hi₁ hphase (fun x hx => by
    rcases List.mem_or_eq_of_mem_set hx with hx | rfl
    · exact hsame ▸ hmin x hx
    · exact le_rfl) (by omega)
  refine ⟨fs ++ gs, nd₂, ?_, by omega⟩
  rw [List.set_set, List.append_assoc] at h₂
  exact h₂

/-- The nodes of a network are dealt with one by one. -/
lemma one_by_one {I : List NetworkEvent → Network → Prop} {A : Node → Prop}
    (hstep : ∀ es N i nd, I es N → N.nodes[i]? = some nd → ¬ A nd →
      ∃ fs nd', I (es ++ fs) ⟨N.nodes.set i nd'⟩ ∧ A nd') (h : I es N) :
    ∃ fs N', I (es ++ fs) N' ∧ N'.nodes.length = N.nodes.length ∧ ∀ nd ∈ N'.nodes, A nd := by
  have key : ∀ k ≤ N.nodes.length, ∃ fs N', I (es ++ fs) N' ∧
      N'.nodes.length = N.nodes.length ∧ ∀ j < k, ∀ nd, N'.nodes[j]? = some nd → A nd := by
    intro k
    induction k with
    | zero =>
      intro _
      exact ⟨[], N, by rwa [List.append_nil], rfl, fun j hj => absurd hj (Nat.not_lt_zero j)⟩
    | succ k ih =>
      intro hk
      obtain ⟨fs, N₁, h₁, hlen, hA⟩ := ih (by omega)
      have hk₁ : N₁.nodes[k]? = some N₁.nodes[k] := List.getElem?_eq_getElem (by omega)
      by_cases hdone : A N₁.nodes[k]
      · refine ⟨fs, N₁, h₁, hlen, fun j hj nd hnd => ?_⟩
        rcases Nat.lt_succ_iff_lt_or_eq.mp hj with hj | rfl
        · exact hA j hj nd hnd
        · exact Option.some.inj (hk₁.symm.trans hnd) ▸ hdone
      · obtain ⟨gs, nd', h₂, hnd'⟩ := hstep _ _ _ _ h₁ hk₁ hdone
        refine ⟨fs ++ gs, ⟨N₁.nodes.set k nd'⟩, by rwa [← List.append_assoc],
          by simpa using hlen, fun j hj nd hnd => ?_⟩
        rcases Nat.lt_succ_iff_lt_or_eq.mp hj with hj | rfl
        · rw [List.getElem?_set_ne (by omega)] at hnd
          exact hA j hj nd hnd
        · rw [List.getElem?_set_self (by omega), Option.some.injEq] at hnd
          exact hnd ▸ hnd'
  obtain ⟨fs, N', h', hlen, hA⟩ := key N.nodes.length le_rfl
  refine ⟨fs, N', h', hlen, fun nd hnd => ?_⟩
  obtain ⟨j, hj⟩ := List.mem_iff_getElem?.mp hnd
  have hlt := (List.getElem?_eq_some_iff.mp hj).1
  exact hA j (by omega) nd hj

/-- All nodes come to a round, and those that were behind it to no later one. -/
lemma Reached.exists_round (h : Reached P committee es N) {R : ℕ} (hR : R < 2 ^ 32) :
    ∃ fs N', Reached P committee (es ++ fs) N' ∧ (∀ nd ∈ N'.nodes, R ≤ nd.currentRound) ∧
      ∀ (i : ℕ) nd nd', N.nodes[i]? = some nd → N'.nodes[i]? = some nd' →
        nd'.currentRound ≤ max nd.currentRound R := by
  induction R with
  | zero =>
    refine ⟨[], N, by rwa [List.append_nil], fun _ _ => Nat.zero_le _, ?_⟩
    intro i nd nd' hnd hnd'
    rw [Option.some.inj (hnd.symm.trans hnd')]
    exact le_max_left _ _
  | succ R ih =>
    obtain ⟨fs, N₁, h₁, hge, hle⟩ := ih (by omega)
    let I : List NetworkEvent → Network → Prop := fun es' N' =>
      Reached P committee es' N' ∧ (∀ nd ∈ N'.nodes, R ≤ nd.currentRound) ∧
        ∀ (i : ℕ) nd nd', N.nodes[i]? = some nd → N'.nodes[i]? = some nd' →
          nd'.currentRound ≤ max nd.currentRound (R + 1)
    have hstart : I (es ++ fs) N₁ :=
      ⟨h₁, hge, fun i nd nd' hnd hnd' => (hle i nd nd' hnd hnd').trans (by omega)⟩
    -- one node after the other comes from round `R` to the next
    have hstep : ∀ es' N' i nd, I es' N' → N'.nodes[i]? = some nd → ¬ R + 1 ≤ nd.currentRound →
        ∃ fs' nd', I (es' ++ fs') ⟨N'.nodes.set i nd'⟩ ∧ R + 1 ≤ nd'.currentRound := by
      rintro es' N' i nd ⟨h', hge', hle'⟩ hi hnot
      have hround : nd.currentRound = R := by
        have := hge' nd (List.mem_of_getElem? hi)
        omega
      obtain ⟨fs', nd', hnext, hnd'⟩ := h'.exists_next hi (fun x hx => hround ▸ hge' x hx)
        (by omega)
      refine ⟨fs', nd', ⟨hnext, fun x hx => ?_, fun j x y hx hy => ?_⟩, by omega⟩
      · rcases List.mem_or_eq_of_mem_set hx with hx | rfl
        · exact hge' x hx
        · omega
      · by_cases hij : i = j
        · subst hij
          rw [List.getElem?_set_self (List.getElem?_eq_some_iff.mp hi).1,
            Option.some.injEq] at hy
          subst hy
          have := le_max_right x.currentRound (R + 1)
          omega
        · rw [List.getElem?_set_ne hij] at hy
          exact hle' j x y hx hy
    obtain ⟨gs, N₂, ⟨h₂, -, hle₂⟩, -, hA⟩ := one_by_one hstep hstart
    exact ⟨fs ++ gs, N₂, by rwa [← List.append_assoc], hA, hle₂⟩

/-- **Every round can be reached by all.** From every state that a network reaches before a
counter wraps, whatever was delayed, reordered, duplicated or lost, and wherever its nodes are in
their passes, some continuation brings exactly the nodes that are behind a round to that round.

**Proof sketch.** Round by round, and node by node. A node in the lowest round ends its pass; if
this does not advance it, it receives all vertices sent for the rounds up to its own, with a block,
and then it does (`Reached.exists_advanced`). -/
theorem rounds_reachable (hkeys : committee.getNodesKeys.Nodup)
    (h : Run.exec (step P) (init P committee) es = some N)
    (hround : Run.Throughout (step P) NotWrapped (init P committee) es) {R : ℕ}
    (hR : R < 2 ^ 32) :
    ∃ fs N', Run.exec (step P) N fs = some N' ∧
      Run.Throughout (step P) NotWrapped (init P committee) (es ++ fs) ∧
      ∀ (i : ℕ) nd nd', N.nodes[i]? = some nd → N'.nodes[i]? = some nd' →
        nd'.currentRound = max nd.currentRound R := by
  have hN : Reached P committee es N := reached hkeys h hround
  obtain ⟨fs, N', h', hge, hle⟩ := hN.exists_round hR
  obtain ⟨S, hS, hfs⟩ := Run.exec_append_eq_some.mp h'.exec
  have hSN : S = N := Option.some.inj (hS.symm.trans h)
  subst hSN
  refine ⟨fs, N', hfs, h'.notWrapped, fun i nd nd' hnd hnd' => ?_⟩
  have hlow := hge nd' (List.mem_of_getElem? hnd')
  have hhigh := hle i nd nd' hnd hnd'
  -- rounds never go down, since they count what was sent
  have hmono : nd.currentRound ≤ nd'.currentRound := by
    obtain ⟨x, hx, hlen⟩ := length_sent_exec hfs hnd
    have hxnd : x = nd' := Option.some.inj (hx.symm.trans hnd')
    subst hxnd
    rw [hN.counts nd (List.mem_of_getElem? hnd), h'.counts x (List.mem_of_getElem? hx)]
    omega
  exact le_antisymm hhigh (max_le hmono hlow)

/-- After the two nodes of a network of four went ahead, all can still come to round `1000`. -/
theorem rounds_reachable_four : ∃ N fs N', Run.exec (step Sample.platform)
      (init Sample.platform Sample.four) (Sample.fourNodes [1, 2, 3] [2, 3, 4]) = some N ∧
    Run.exec (step Sample.platform) N fs = some N' ∧
    ∀ (i : ℕ) nd nd', N.nodes[i]? = some nd → N'.nodes[i]? = some nd' →
      nd'.currentRound = max nd.currentRound 1000 := by
  obtain ⟨N, -, -, h, -⟩ := exists_isRun Sample.platform Sample.four
    (Sample.fourNodes [1, 2, 3] [2, 3, 4]) 0 1 (fun _ _ => True) (by decide) (by decide +kernel)
  obtain ⟨fs, N', hfs, -, hrounds⟩ :=
    rounds_reachable h.distinctKeys h.exec (by decide +kernel) (R := 1000) (by decide)
  exact ⟨N, fs, N', h.exec, hfs, hrounds⟩

end Network

end DagRider
