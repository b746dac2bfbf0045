import DagRider.Model.Network
import DagRider.Node.Parents

set_option relaxedAutoImplicit false
set_option autoImplicit false

/-!
# The vertices of a run of the network

Each node of a network runs by itself (`Network.node_run`), so what holds of one node in every
run holds of each. What a node receives was broadcast by the nodes, and this gives the facts
that admission does not check: all vertices of the run are valid, are owned by the committee,
and, as long as no counter wraps, have a slot each. Then the DAGs only grow and stay closed.

## Main definitions

* `DagRider.Network.History` — the facts about all vertices of a run.
* `DagRider.Network.Honest` — the facts about a node inside a run.

## Main results

* `DagRider.Network.node_run` — a node of the network is a node that runs by itself.
* `DagRider.Network.IsRun.history`, `DagRider.Network.IsRun.honest`.
* `DagRider.Network.stored_vertices_valid` — what is stored, with and without honest senders.
-/

namespace DagRider

/-! ## What one node sends -/

namespace Node

variable {P : Platform} {nd nd' : Node} {e : NodeEvent}

/-- What was sent stays sent. -/
lemma sent_step (h : nd.step P e = some nd') {v : Vertex}
    (hv : v ∈ nd.consensus.vertexToBroadcast) : v ∈ nd'.consensus.vertexToBroadcast := by
  rcases quiet_or_advances h with hquiet | ⟨fuel, d, block, w, -, -, -, -, -, rfl⟩
  · rw [hquiet.vertexToBroadcast]
    exact hv
  · exact List.mem_append_left _ hv

/-- What a node sends it owns, and has a round below `2^32`. -/
lemma of_sent {nodeId : NodePublicKey} {committee : Committee} {es : List NodeEvent}
    (h : run P nodeId committee es = some nd) {v : Vertex}
    (hv : v ∈ nd.consensus.vertexToBroadcast) : v.owner = nodeId ∧ v.round < 2 ^ 32 := by
  refine Run.history_induction (J := fun _ nd => ∀ v ∈ nd.consensus.vertexToBroadcast,
    v.owner = nodeId ∧ v.round < 2 ^ 32) (fun v hv => absurd hv List.not_mem_nil) ?_ h v hv
  intro p nd e nd' hnd ih hstep
  rcases quiet_or_advances hstep with hquiet | ⟨fuel, d, block, w, -, -, -, -, hw, rfl⟩
  · rw [hquiet.vertexToBroadcast]
    exact ih
  · intro u hu
    rcases List.mem_append.mp hu with hu | hu
    · exact ih u hu
    · rw [List.mem_singleton.mp hu, hw.owner, hw.round_eq, (basic hnd).nodeId_eq]
      exact ⟨rfl, Nat.mod_lt _ (Nat.two_pow_pos 32)⟩

end Node

namespace Network

variable {P : Platform} {committee : Committee} {es : List NetworkEvent} {e : NetworkEvent}
  {N N' S : Network} {i : ℕ} {nd : Node}

/-! ## The nodes of a network run by themselves -/

/-- **Everything a step can do**: one node takes a step with vertices that were sent. -/
lemma step_cases (h : N.step P e = some N') :
    ∃ nd nd', N.nodes[e.node]? = some nd ∧ (∀ v ∈ e.event.vertices, v ∈ N.sent) ∧
      nd.step P e.event = some nd' ∧ N' = ⟨N.nodes.set e.node nd'⟩ := by
  unfold step at h
  obtain ⟨nd, hnd, h⟩ := Option.bind_eq_some_iff.mp h
  split_ifs at h with hsent
  obtain ⟨nd', hnd', h⟩ := Option.bind_eq_some_iff.mp h
  exact ⟨nd, nd', hnd, hsent, hnd', (Option.some.inj h).symm⟩

/-- The events of a node in a run with one more event. -/
lemma eventsOf_concat : eventsOf i (es ++ [e]) =
    if e.node = i then eventsOf i es ++ [e.event] else eventsOf i es := by
  unfold eventsOf
  rw [List.filterMap_append]
  split_ifs with h <;> simp [h]

/-- The beginnings of a node's events are its events in the beginnings of the run. -/
lemma exists_prefix_of_eventsOf {q : List NodeEvent} (h : q <+: eventsOf i es) :
    ∃ p, p <+: es ∧ eventsOf i p = q := by
  induction es using List.reverseRecOn with
  | nil => exact ⟨[], List.prefix_rfl, (List.prefix_nil.mp h).symm⟩
  | append_singleton es e ih =>
    rw [eventsOf_concat] at h
    have hlow : q <+: eventsOf i es → ∃ p, p <+: es ++ [e] ∧ eventsOf i p = q := by
      intro hq
      obtain ⟨p, hp, hpq⟩ := ih hq
      exact ⟨p, hp.trans (List.prefix_append es [e]), hpq⟩
    split_ifs at h with hi
    · rcases List.prefix_concat_iff.mp h with hq | hq
      · exact ⟨es ++ [e], List.prefix_rfl, by rw [eventsOf_concat, if_pos hi]; exact hq.symm⟩
      · exact hlow hq
    · exact hlow h

/-- **Each node of a network is a node that runs by itself**, with its own events. -/
theorem node_run (h : Run.exec (step P) (init P committee) es = some N)
    (hnd : N.nodes[i]? = some nd) :
    ∃ nodeId, committee.getNodesKeys[i]? = some nodeId ∧
      Node.run P nodeId committee (eventsOf i es) = some nd := by
  refine Run.history_induction (J := fun es N => ∀ i nd, N.nodes[i]? = some nd →
    ∃ nodeId, committee.getNodesKeys[i]? = some nodeId ∧
      Node.run P nodeId committee (eventsOf i es) = some nd) ?_ ?_ h i nd hnd
  · intro i nd hnd
    unfold init at hnd
    rw [List.getElem?_map, Option.map_eq_some_iff] at hnd
    obtain ⟨nodeId, hkey, rfl⟩ := hnd
    exact ⟨nodeId, hkey, rfl⟩
  intro p N e N' _ ih hstep i nd hnd
  obtain ⟨old, new, hold, -, hnew, rfl⟩ := step_cases hstep
  rw [eventsOf_concat]
  by_cases hi : e.node = i
  · subst hi
    obtain ⟨nodeId, hkey, hrun⟩ := ih e.node old hold
    rw [if_pos rfl]
    refine ⟨nodeId, hkey, ?_⟩
    have hlen : e.node < N.nodes.length := (List.getElem?_eq_some_iff.mp hold).1
    rw [List.getElem?_set_self hlen, Option.some.injEq] at hnd
    subst hnd
    exact Run.exec_concat_eq_some.mpr ⟨old, hrun, hnew⟩
  · rw [List.getElem?_set_ne hi] at hnd
    rw [if_neg hi]
    exact ih i nd hnd

/-- The nodes of a network are as many all along. -/
lemma nodes_length (h : Run.exec (step P) N es = some N') : N'.nodes.length = N.nodes.length := by
  refine Run.invariant (I := fun S => S.nodes.length = N.nodes.length) ?_ rfl h
  intro T e T' hT hstep
  obtain ⟨-, new, -, -, -, rfl⟩ := step_cases hstep
  rw [List.length_set]
  exact hT

/-- The vertices sent are those of the nodes. -/
lemma mem_sent {v : Vertex} :
    v ∈ N.sent ↔ ∃ (i : ℕ) (nd : Node), N.nodes[i]? = some nd ∧
      v ∈ nd.consensus.vertexToBroadcast := by
  unfold sent
  rw [List.mem_flatMap]
  constructor
  · intro h
    obtain ⟨nd, hnd, hv⟩ := h
    obtain ⟨i, hi⟩ := List.mem_iff_getElem?.mp hnd
    exact ⟨i, nd, hi, hv⟩
  · intro h
    obtain ⟨i, nd, hi, hv⟩ := h
    exact ⟨nd, List.mem_of_getElem? hi, hv⟩

/-- What was sent stays sent. -/
lemma sent_step (h : N.step P e = some N') {v : Vertex} (hv : v ∈ N.sent) : v ∈ N'.sent := by
  obtain ⟨old, new, hold, -, hnew, rfl⟩ := step_cases h
  obtain ⟨i, nd, hnd, hv⟩ := mem_sent.mp hv
  rw [mem_sent]
  by_cases hi : e.node = i
  · subst hi
    have heq : nd = old := Option.some.inj (hnd.symm.trans hold)
    subst heq
    have hlen : e.node < N.nodes.length := (List.getElem?_eq_some_iff.mp hold).1
    exact ⟨e.node, new, List.getElem?_set_self hlen, Node.sent_step hnew hv⟩
  · exact ⟨i, nd, (List.getElem?_set_ne hi).trans hnd, hv⟩

/-- What was sent stays sent over a run. -/
lemma sent_exec (h : Run.exec (step P) N es = some N') {v : Vertex} (hv : v ∈ N.sent) :
    v ∈ N'.sent :=
  Run.invariant (I := fun N => v ∈ N.sent) (fun _ _ _ hv hstep => sent_step hstep hv) hv h

/-- What the nodes receive was sent. -/
lemma received_sent (h : Run.exec (step P) (init P committee) es = some N) {v : Vertex}
    (hv : v ∈ (eventsOf i es).flatMap NodeEvent.vertices) : v ∈ N.sent := by
  refine Run.history_induction (J := fun es N => v ∈ (eventsOf i es).flatMap NodeEvent.vertices →
    v ∈ N.sent) (fun h => absurd h List.not_mem_nil) ?_ h hv
  intro p N e N' _ ih hstep hv
  obtain ⟨-, -, -, hsent, -, -⟩ := step_cases hstep
  rw [eventsOf_concat] at hv
  split_ifs at hv with hi
  · rw [List.flatMap_append, List.mem_append, List.flatMap_singleton] at hv
    rcases hv with hv | hv
    · exact sent_step hstep (ih hv)
    · exact sent_step hstep (hsent v hv)
  · exact sent_step hstep (ih hv)

/-! ## The facts about all vertices of a run -/

/-- What the vertices `U` of a run have in common. -/
structure History (committee : Committee) (U : List Vertex) : Prop where
  hashesInjective : Vertex.HashesInjective U
  valid : ∀ v ∈ U, v.Valid committee.quorumThreshold U
  owner_mem : ∀ v ∈ U, v.owner ∈ committee.getNodesKeys
  round_lt : ∀ v ∈ U, v.round < 2 ^ 32

/-- The vertices `U` have a slot each. -/
def SlotsUnique (U : List Vertex) : Prop :=
  ∀ u ∈ U, ∀ v ∈ U, u.round = v.round → u.owner = v.owner → u = v

/-- What holds of a node inside a run with the vertices `U`. -/
structure Honest (committee : Committee) (U : List Vertex) (nd : Node) : Prop where
  basic : ∃ nodeId, nd.Basic nodeId committee
  stored : ∀ v ∈ nd.dag.vertices, v ∈ U

namespace IsRun

/-- Every vertex a node can store was there from the start or was sent. -/
lemma known_subset_of_exec (h : Run.exec (step P) (init P committee) es = some N)
    {p : List NetworkEvent} (hp : p <+: es) {v : Vertex}
    (hv : v ∈ Node.known P committee (eventsOf i p)) : v ∈ N.vertices P committee := by
  rcases List.mem_append.mp hv with hv | hv
  · exact List.mem_append_left _ hv
  · obtain ⟨q, rfl⟩ := hp
    obtain ⟨S, hS, hN⟩ := Run.exec_append_eq_some.mp h
    exact List.mem_append_right _ (sent_exec hN (received_sent hS hv))

/-- Every vertex a node can store is a vertex of the run. -/
lemma known_subset (h : IsRun P committee es N) {p : List NetworkEvent} (hp : p <+: es)
    {v : Vertex} (hv : v ∈ Node.known P committee (eventsOf i p)) :
    v ∈ N.vertices P committee := known_subset_of_exec h.exec hp hv

/-- **The vertices of a run** are valid and owned by the committee, whatever the network does
with them. -/
theorem history (h : IsRun P committee es N) : History committee (N.vertices P committee) := by
  refine ⟨h.hashesInjective, fun v hv => ?_, fun v hv => ?_, fun v hv => ?_⟩
  · rcases List.mem_append.mp hv with hv | hv
    · exact Vertex.valid_of_mem_genesis hv
    · obtain ⟨i, nd, hnd, hv⟩ := mem_sent.mp hv
      obtain ⟨nodeId, -, hrun⟩ := node_run h.exec hnd
      exact Node.sent_valid hrun (fun u hu => h.known_subset List.prefix_rfl hu)
        h.hashesInjective hv
  · rcases List.mem_append.mp hv with hv | hv
    · exact (Vertex.of_mem_genesis hv).2.1
    · obtain ⟨i, nd, hnd, hv⟩ := mem_sent.mp hv
      obtain ⟨nodeId, hkey, hrun⟩ := node_run h.exec hnd
      rw [(Node.of_sent hrun hv).1]
      exact List.mem_of_getElem? hkey
  · rcases List.mem_append.mp hv with hv | hv
    · rw [(Vertex.of_mem_genesis hv).1]
      decide
    · obtain ⟨i, nd, hnd, hv⟩ := mem_sent.mp hv
      obtain ⟨nodeId, -, hrun⟩ := node_run h.exec hnd
      exact (Node.of_sent hrun hv).2

/-- A node somewhere in the run ran by itself up to there. -/
lemma exists_node_run (h : Run.Visits (step P) (init P committee) es S) (hnd : nd ∈ S.nodes) :
    ∃ i p nodeId, p <+: es ∧ Run.exec (step P) (init P committee) p = some S ∧
      S.nodes[i]? = some nd ∧ committee.getNodesKeys[i]? = some nodeId ∧
      Node.run P nodeId committee (eventsOf i p) = some nd := by
  obtain ⟨p, hp, hS⟩ := h
  obtain ⟨i, hi⟩ := List.mem_iff_getElem?.mp hnd
  obtain ⟨nodeId, hkey, hrun⟩ := node_run hS hi
  exact ⟨i, p, nodeId, hp, hS, hi, hkey, hrun⟩

/-- **A node inside a run** stores only vertices of the run. -/
theorem honest (h : IsRun P committee es N) (hS : Run.Visits (step P) (init P committee) es S)
    (hnd : nd ∈ S.nodes) : Honest committee (N.vertices P committee) nd := by
  obtain ⟨i, p, nodeId, hp, -, -, -, hrun⟩ := exists_node_run hS hnd
  refine ⟨⟨nodeId, Node.basic hrun⟩, fun v hv => ?_⟩
  exact h.known_subset hp ((Node.stored hrun).known v hv)

/-- Where no node of the network wraps, no node wraps in its own run. -/
lemma node_notWrapped {nodeId : NodePublicKey} {p : List NetworkEvent} (hp : p <+: es)
    (hround : Run.Throughout (step P) NotWrapped (init P committee) es)
    (hS : Run.exec (step P) (init P committee) p = some S)
    (hi : S.nodes[i]? = some nd) (hkey : committee.getNodesKeys[i]? = some nodeId) :
    Run.Throughout (Node.step P) Node.NotWrapped (Node.init P nodeId committee)
      (eventsOf i p) := by
  refine Run.throughout_iff_visits.mpr fun t ht => ?_
  obtain ⟨q, hq, ht⟩ := ht
  obtain ⟨p', hp', rfl⟩ := exists_prefix_of_eventsOf hq
  obtain ⟨r, rfl⟩ := hp'
  obtain ⟨T, hT, hTS⟩ := Run.exec_append_eq_some.mp hS
  have hnot : NotWrapped T := Run.throughout_iff_visits.mp hround T
    ⟨p', (List.prefix_append p' r).trans hp, hT⟩
  -- the network has the same number of nodes all along
  have hlen : i < T.nodes.length := by
    have hS' : i < S.nodes.length := (List.getElem?_eq_some_iff.mp hi).1
    rwa [← nodes_length hTS]
  obtain ⟨nodeId', hkey', hrun⟩ := node_run hT (List.getElem?_eq_getElem hlen)
  have hid : nodeId' = nodeId := Option.some.inj (hkey'.symm.trans hkey)
  subst hid
  have hsame : T.nodes[i] = t := Option.some.inj (hrun.symm.trans ht)
  exact hsame ▸ hnot _ (List.getElem_mem hlen)

/-- **The vertices of a run have a slot each**, as long as no counter wraps.

**Proof sketch.** Genesis vertices have round `1` and the vertices sent have later rounds. A node
sends one vertex for each round (`Node.proposed`), and distinct nodes have distinct keys. -/
theorem slotsUnique_of_exec (hkeys : committee.getNodesKeys.Nodup)
    (h : Run.exec (step P) (init P committee) es = some N)
    (hround : Run.Throughout (step P) NotWrapped (init P committee) es) :
    SlotsUnique (N.vertices P committee) := by
  -- a vertex that was sent, with its sender
  have hsent : ∀ v ∈ N.sent, ∃ (i : ℕ) (nd : Node), N.nodes[i]? = some nd ∧
      v ∈ nd.consensus.vertexToBroadcast ∧ committee.getNodesKeys[i]? = some v.owner ∧
      2 ≤ v.round ∧ (nd.consensus.vertexToBroadcast.map Vertex.round).Nodup := by
    intro v hv
    obtain ⟨i, nd, hnd, hv⟩ := mem_sent.mp hv
    obtain ⟨nodeId, hkey, hrun⟩ := node_run h hnd
    have hproposed := Node.proposed hrun (node_notWrapped List.prefix_rfl hround h hnd hkey)
    refine ⟨i, nd, hnd, hv, (hproposed.owners v hv).symm ▸ hkey, ?_, ?_⟩
    · have hmem : v.round ∈ nd.consensus.vertexToBroadcast.map Vertex.round :=
        List.mem_map_of_mem hv
      rw [hproposed.rounds, List.mem_range'_1] at hmem
      exact hmem.1
    · rw [hproposed.rounds]
      exact List.nodup_range'
  intro u hu v hv hr ho
  rcases List.mem_append.mp hu with hu | hu <;> rcases List.mem_append.mp hv with hv | hv
  · exact Vertex.genesis_unique hu hv ho
  · obtain ⟨-, -, -, -, -, h2, -⟩ := hsent v hv
    have h1 := (Vertex.of_mem_genesis hu).1
    omega
  · obtain ⟨-, -, -, -, -, h2, -⟩ := hsent u hu
    have h1 := (Vertex.of_mem_genesis hv).1
    omega
  · obtain ⟨i, nd, hnd, hu, hi, -, hnodup⟩ := hsent u hu
    obtain ⟨j, nd', hnd', hv, hj, -, -⟩ := hsent v hv
    have hij : i = j := by
      have hlen : i < committee.getNodesKeys.length := (List.getElem?_eq_some_iff.mp hi).1
      exact (List.getElem?_inj hlen hkeys).mp (by rw [hi, hj, ho])
    subst hij
    have hsame : nd = nd' := Option.some.inj (hnd.symm.trans hnd')
    subst hsame
    exact List.inj_on_of_nodup_map hnodup hu hv hr

/-- The vertices of a run have a slot each, as long as no counter wraps. -/
theorem slotsUnique (h : IsRun P committee es N)
    (hround : Run.Throughout (step P) NotWrapped (init P committee) es) :
    SlotsUnique (N.vertices P committee) :=
  slotsUnique_of_exec h.distinctKeys h.exec hround

/-- No node inside a run ever replaces a stored vertex, as long as no counter wraps. -/
lemma not_overwrites (h : IsRun P committee es N)
    (hround : Run.Throughout (step P) NotWrapped (init P committee) es) {nodeId : NodePublicKey}
    {p : List NetworkEvent} (hp : p <+: es) :
    Run.Along (Node.step P) (fun nd e => ¬ Node.Overwrites nd e) (Node.init P nodeId committee)
      (eventsOf i p) := by
  apply Node.not_overwrites
  intro u hu v hv
  exact h.slotsUnique hround u (h.known_subset hp hu) v (h.known_subset hp hv)

/-- **The DAG of a node inside a run is causally closed**, as long as no counter wraps. -/
theorem closed (h : IsRun P committee es N)
    (hround : Run.Throughout (step P) NotWrapped (init P committee) es)
    (hS : Run.Visits (step P) (init P committee) es S) (hnd : nd ∈ S.nodes) :
    nd.dag.Closed := by
  obtain ⟨i, p, nodeId, hp, -, -, -, hrun⟩ := exists_node_run hS hnd
  exact Node.closed (h.not_overwrites hround hp) (Run.Visits.last hrun)

end IsRun

/-- A run of the network that ends with a decidable property of two nodes, by evaluation. -/
lemma exists_isRun (P : Platform) (committee : Committee) (es : List NetworkEvent) (i j : ℕ)
    (p : Node → Node → Prop) [∀ A B, Decidable (p A B)] (hkeys : committee.getNodesKeys.Nodup)
    (h : (Run.exec (step P) (init P committee) es).any (fun N =>
      decide (Vertex.HashesInjective (N.vertices P committee) ∧
        ∃ A ∈ N.nodes[i]?, ∃ B ∈ N.nodes[j]?, p A B)) = true) :
    ∃ N A B, IsRun P committee es N ∧ N.nodes[i]? = some A ∧ N.nodes[j]? = some B ∧ p A B := by
  obtain ⟨N, hN, hp⟩ := Run.exists_exec_of_any h
  obtain ⟨hinj, A, hA, B, hB, hAB⟩ := of_decide_eq_true hp
  exact ⟨N, A, B, ⟨hkeys, hN, hinj⟩, hA, hB, hAB⟩

/-! ## What admission guarantees, and what honest senders do -/

/-- **The structure of what is stored.** Whatever a node receives, a stored vertex of a round
above `1` was received, and the rounds it records for its parents are occupied: admission asks
nothing else. In a run of a network whose nodes all execute `Consensus`, every vertex that any
node stores in a round above `1` has at least `minQuorum` strong parents, and all its recorded
parent rounds are strictly lower. -/
theorem stored_vertices_valid {P' : Platform} {committee' : Committee} {nodeId : NodePublicKey}
    {es' : List NodeEvent} {nd' : Node} (h' : Node.run P' nodeId committee' es' = some nd')
    (h : IsRun P committee es N) (hS : Run.Visits (step P) (init P committee) es S)
    (hnd : nd ∈ S.nodes) :
    (∀ v ∈ nd'.dag.vertices, 1 < v.round → v ∈ es'.flatMap NodeEvent.vertices ∧
      ∀ e ∈ v.parents.entries, ∃ u ∈ nd'.dag.vertices, u.round = e.2) ∧
    ∀ v ∈ nd.dag.vertices, 1 < v.round →
      nd.dag.minQuorum ≤ v.getStrongParents.entries.length ∧
      ∀ e ∈ v.parents.entries, e.2 < v.round := by
  have hstored := Node.stored h'
  have hhonest := h.honest hS hnd
  refine ⟨fun v hv hr => ⟨?_, hstored.occupied v hv⟩, fun v hv hr => ?_⟩
  · rcases List.mem_append.mp (hstored.known v hv) with hv | hv
    · have h1 := (Vertex.of_mem_genesis hv).1
      omega
    · exact hv
  · have hvalid := h.history.valid v (hhonest.stored v hv)
    obtain ⟨nodeId', hbasic⟩ := hhonest.basic
    rw [hbasic.minQuorum_eq]
    exact ⟨hvalid.strong hr, hvalid.lower⟩

/-- Four nodes, two of which commit a wave. -/
theorem stored_vertices_valid_four :
    ∃ N A B, IsRun Sample.platform Sample.four (Sample.fourNodes [1, 2, 3] [2, 3, 4]) N ∧
      A ∈ N.nodes ∧ B ∈ N.nodes ∧ A.currentRound = 5 ∧
      (∀ v ∈ B.dag.vertices, 1 < v.round →
        v ∈ (eventsOf 1 (Sample.fourNodes [1, 2, 3] [2, 3, 4])).flatMap NodeEvent.vertices ∧
        ∀ e ∈ v.parents.entries, ∃ u ∈ B.dag.vertices, u.round = e.2) ∧
      ∀ v ∈ A.dag.vertices, 1 < v.round →
        A.dag.minQuorum ≤ v.getStrongParents.entries.length ∧
        ∀ e ∈ v.parents.entries, e.2 < v.round := by
  obtain ⟨N, A, B, h, hA, hB, hround⟩ := exists_isRun Sample.platform Sample.four
    (Sample.fourNodes [1, 2, 3] [2, 3, 4]) 0 1 (fun A _ => A.currentRound = 5)
    (by decide) (by decide +kernel)
  obtain ⟨nodeId, -, hB'⟩ := node_run h.exec hB
  have hmem : A ∈ N.nodes := List.mem_of_getElem? hA
  exact ⟨N, A, B, h, hmem, List.mem_of_getElem? hB, hround,
    stored_vertices_valid hB' h (Run.Visits.last h.exec) hmem⟩

/-- A vertex of round `2` that names one of its own round as its parent. -/
def sideways : Vertex :=
  Vertex.new Sample.platform 3 2 Block.default
    (OrderedMap.ofList [(Sample.hash 2 4 0, 2)])

/-- A node of round `2` receives a vertex without parents and one with a parent of its own
round, and stores both. -/
theorem invalid_vertices_stored :
    ∃ nd, Node.run Sample.platform 1 Sample.four
        (Sample.pass [] ++ Sample.pass [Sample.vertex 2 [] 4, sideways]) = some nd ∧
      (∃ v ∈ nd.dag.vertices, 1 < v.round ∧
        ¬ nd.dag.minQuorum ≤ v.getStrongParents.entries.length) ∧
      ∃ v ∈ nd.dag.vertices, 1 < v.round ∧ ∃ e ∈ v.parents.entries, ¬ e.2 < v.round := by
  obtain ⟨nd, hnd, hp⟩ : ∃ nd, Node.run Sample.platform 1 Sample.four
        (Sample.pass [] ++ Sample.pass [Sample.vertex 2 [] 4, sideways]) = some nd ∧
      decide ((∃ v ∈ nd.dag.vertices, 1 < v.round ∧
          ¬ nd.dag.minQuorum ≤ v.getStrongParents.entries.length) ∧
        ∃ v ∈ nd.dag.vertices, 1 < v.round ∧ ∃ e ∈ v.parents.entries, ¬ e.2 < v.round) = true :=
    Run.exists_exec_of_any (by decide +kernel)
  exact ⟨nd, hnd, of_decide_eq_true hp⟩

end Network

end DagRider
