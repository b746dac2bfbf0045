import DagRider.Liveness.Rounds
import DagRider.Node.Deliveries

set_option relaxedAutoImplicit false
set_option autoImplicit false

/-!
# Networks that deliver once, parents first

The network delays, reorders, duplicates and loses what is sent. Every state that it leads to
between the passes is one that it leads to when each node is handed each vertex at most once, and
never before its parents. So what holds after all runs of that kind holds after all runs.

## Main definitions

* `DagRider.Network.distilled`, `DagRider.Network.effects` — the network without the deliveries that
  leave no trace.

## Main results

* `DagRider.Network.simulates_distilled` — without them it goes through the same states.
* `DagRider.Network.exactly_once` — every run is matched by one that delivers in causal order.
-/

namespace DagRider

namespace Network

variable {P : Platform} {committee : Committee} {es : List NetworkEvent} {e : NetworkEvent}
  {N N' : Network} {i : ℕ} {nd : Node}

/-- The network, with only those vertices in the buffers that the loops will take. -/
def distilled (P : Platform) (N : Network) : Network := ⟨N.nodes.map (Node.distilled P)⟩

/-- What is left of a step. -/
def effects (P : Platform) (N : Network) (e : NetworkEvent) : List NetworkEvent :=
  N.nodes[e.node]?.toList.flatMap fun nd => (nd.effects P e.event).map fun event => ⟨e.node, event⟩

/-- As much was sent. -/
@[simp] lemma sent_distilled : (N.distilled P).sent = N.sent := by
  unfold sent distilled
  rw [List.flatMap_map]
  rfl

/-- What is left of a step of a node. -/
lemma effects_of_getElem? (h : N.nodes[e.node]? = some nd) :
    N.effects P e = (nd.effects P e.event).map fun event => ⟨e.node, event⟩ := by
  simp [effects, h]

/-- **Without the rest the network goes through the same states.** -/
theorem simulates_distilled : Run.Simulates (step P) (step P)
    (fun N => ∀ nd ∈ N.nodes, nd.dag.WellSlotted) (distilled P) (effects P) where
  keeps := by
    intro N e N' hslot hstep nd hnd
    obtain ⟨old, new, hold, -, hnew, rfl⟩ := step_cases hstep
    rcases List.mem_or_eq_of_mem_set hnd with hnd | rfl
    · exact hslot nd hnd
    · exact Node.wellSlotted_step (hslot old (List.mem_of_getElem? hold)) hnew
  follows := by
    intro N e N' hslot hstep
    obtain ⟨old, new, hold, hsent, hnew, rfl⟩ := step_cases hstep
    have hrun := Node.simulates_distilled.follows (hslot old (List.mem_of_getElem? hold)) hnew
    have hget : (N.distilled P).nodes[e.node]? = some (old.distilled P) := by
      simp [distilled, hold]
    have hfrom : ∀ f ∈ old.effects P e.event, ∀ v ∈ f.vertices, v ∈ (N.distilled P).sent := by
      intro f hf v hv
      rw [sent_distilled]
      apply hsent
      apply Consensus.taken_sublist.subset
      rw [← Node.vertices_effects]
      exact List.mem_flatMap.mpr ⟨f, hf, hv⟩
    rw [effects_of_getElem? hold]
    refine (exec_node hget hrun hfrom).trans ?_
    simp [distilled, List.map_set]

/-- The events that are left of a run. -/
abbrev essence (P : Platform) (committee : Committee) (es : List NetworkEvent) :
    List NetworkEvent :=
  Run.trace (step P) (effects P) (init P committee) es

/-- The vertices that a node receives in a run. -/
def received (i : ℕ) (es : List NetworkEvent) : List Vertex :=
  (eventsOf i es).flatMap NodeEvent.vertices

/-- The events of one node among those of another. -/
lemma eventsOf_map {j : ℕ} {fs : List NodeEvent} :
    eventsOf i (fs.map fun event => ⟨j, event⟩) = if j = i then fs else [] := by
  unfold eventsOf
  rw [List.filterMap_map]
  split_ifs with h <;> simp [h]

/-- **What is left of a node's events** in the network is what is left of them at the node. -/
lemma eventsOf_essence (h : Run.exec (step P) (init P committee) es = some N)
    {nodeId : NodePublicKey} (hkey : committee.getNodesKeys[i]? = some nodeId) :
    eventsOf i (essence P committee es) = Node.essence P nodeId committee (eventsOf i es) := by
  refine Run.history_induction (J := fun es _ => eventsOf i (essence P committee es) =
    Node.essence P nodeId committee (eventsOf i es)) rfl (fun p N e N' hp ih hstep => ?_) h
  obtain ⟨old, new, hold, -, -, -⟩ := step_cases hstep
  have hsplit : eventsOf i (essence P committee (p ++ [e])) =
      eventsOf i (essence P committee p) ++ eventsOf i (N.effects P e) := by
    unfold essence
    rw [Run.trace_concat hp]
    exact List.filterMap_append
  rw [hsplit, ih, effects_of_getElem? hold, eventsOf_map, eventsOf_concat]
  by_cases hi : e.node = i
  · subst hi
    obtain ⟨nodeId', hkey', hrun⟩ := node_run hp hold
    obtain rfl : nodeId' = nodeId := Option.some.inj (hkey'.symm.trans hkey)
    rw [if_pos rfl, if_pos rfl]
    exact (Run.trace_concat hrun).symm
  · rw [if_neg hi, if_neg hi, List.append_nil]

/-- **Every state between passes comes from deliveries made once, parents first.** For every run of
a network in which no counter wraps, whatever was delayed, reordered, duplicated or lost, there is a
run that hands each node some of what it received, in this order: nothing twice, no genesis vertex,
and nothing before its parents. After both all nodes have the same DAGs, rounds, waiting blocks and
outputs; when all are between passes, the second ends in the same state, and each node then stores
the genesis vertices and exactly what it was handed.

**Proof sketch.** A vertex that the admission loop turns away is gone with the pass, and one that is
stored already changes nothing, so the network simulates itself without them. What is left is in
causal order at each node (`Node.distills`), where the vertices of the run have a slot each. -/
theorem exactly_once (h : IsRun P committee es N)
    (hround : Run.Throughout (step P) NotWrapped (init P committee) es) :
    ∃ es' M, IsRun P committee es' M ∧
      M.nodes.map Node.consensus = N.nodes.map Node.consensus ∧
      (∀ i nd, N.nodes[i]? = some nd →
        (received i es').Sublist (received i es) ∧
        Delivery.Causal Vertex.NamedIn {v | v ∈ Vertex.genesis P committee.getNodesKeys}
          (received i es')) ∧
      ((∀ nd ∈ N.nodes, nd.phase = .drain) → M = N ∧ ∀ i nd, N.nodes[i]? = some nd →
        ∀ v, v ∈ nd.dag.vertices ↔
          v ∈ Vertex.genesis P committee.getNodesKeys ∨ v ∈ received i es') := by
  have hnode : ∀ i nd, N.nodes[i]? = some nd → ∃ nodeId,
      Node.run P nodeId committee (eventsOf i es) = some nd ∧
      received i (essence P committee es) = Node.delivered P nodeId committee (eventsOf i es) ∧
      Node.Distills P committee (received i (essence P committee es)) nd := by
    intro i nd hnd
    obtain ⟨nodeId, hkey, hrun⟩ := node_run h.exec hnd
    have heq : received i (essence P committee es) =
        Node.delivered P nodeId committee (eventsOf i es) := by
      unfold received Node.delivered
      rw [eventsOf_essence h.exec hkey]
    refine ⟨nodeId, hrun, heq, heq ▸ Node.distills hrun fun u hu v hv => ?_⟩
    exact h.slotsUnique hround u (h.known_subset List.prefix_rfl hu) v
      (h.known_subset List.prefix_rfl hv)
  have hexec : Run.exec (step P) (init P committee) (essence P committee es) =
      some (N.distilled P) := by
    have hinit : (init P committee).distilled P = init P committee := by
      unfold distilled init
      rw [List.map_map]
      rfl
    have hslot : ∀ nd ∈ (init P committee).nodes, nd.dag.WellSlotted := by
      intro nd hnd
      obtain ⟨nodeId, -, rfl⟩ := List.mem_map.mp hnd
      exact Node.basic_init.wellSlotted
    have hrun := simulates_distilled.exec hslot h.exec
    rwa [hinit] at hrun
  refine ⟨essence P committee es, N.distilled P, ⟨h.distinctKeys, hexec, ?_⟩, ?_, ?_, ?_⟩
  · unfold vertices
    rw [sent_distilled]
    exact h.hashesInjective
  · unfold distilled
    rw [List.map_map]
    rfl
  · intro i nd hnd
    obtain ⟨nodeId, hrun, heq, hdistills⟩ := hnode i nd hnd
    exact ⟨heq ▸ Node.delivered_sublist hrun, hdistills.causal⟩
  · intro hdrain
    have hempty : ∀ nd ∈ N.nodes, nd.buffer = [] := by
      intro nd hnd
      obtain ⟨i, hi⟩ := List.mem_iff_getElem?.mp hnd
      obtain ⟨-, -, -, hdistills⟩ := hnode i nd hi
      exact hdistills.drained (hdrain nd hnd)
    refine ⟨?_, fun i nd hnd v => ?_⟩
    · unfold distilled
      have hid : N.nodes.map (Node.distilled P) = N.nodes := by
        refine (List.map_congr_left fun nd hnd => ?_).trans (List.map_id _)
        unfold Node.distilled
        rw [hempty nd hnd, Consensus.taken, ← hempty nd hnd]
        rfl
      rw [hid]
    · obtain ⟨-, -, -, hdistills⟩ := hnode i nd hnd
      obtain ⟨m, hm, hdag⟩ := hdistills.split
      rw [hempty nd (List.mem_of_getElem? hnd), Consensus.taken, List.append_nil] at hm
      subst hm
      exact Set.ext_iff.mp hdag v

/-- Four nodes come to round `2`, and the first receives vertices of this round several times, in
two passes. -/
def repeating : List NetworkEvent :=
  Sample.eventsAtAll (Sample.pass []) ++
    Sample.eventsAt 0 (Sample.pass (Sample.second [1, 2, 1, 3])) ++
    Sample.eventsAt 0 (Sample.pass (Sample.second [3, 2]))

/-- The same state comes from deliveries made once. -/
theorem exactly_once_four :
    ∃ N es', IsRun Sample.platform Sample.four repeating N ∧
      IsRun Sample.platform Sample.four es' N ∧
      ¬ (received 0 repeating).Nodup ∧ (received 0 es').Nodup := by
  obtain ⟨N, A, -, h, hA, -, -⟩ := exists_isRun Sample.platform Sample.four repeating 0 0
    (fun _ _ => True) (by decide) (by decide +kernel)
  obtain ⟨M, hM, hdrain⟩ : ∃ M : Network, Run.exec (step Sample.platform)
      (init Sample.platform Sample.four) repeating = some M ∧
      decide (∀ nd ∈ M.nodes, nd.phase = .drain) = true :=
    Run.exists_exec_of_any (by decide +kernel)
  obtain rfl : N = M := Option.some.inj (h.exec.symm.trans hM)
  have hround : Run.Throughout (step Sample.platform) NotWrapped
      (init Sample.platform Sample.four) repeating := by
    decide +kernel
  obtain ⟨es', M, h', -, hcausal, hend⟩ := exactly_once h hround
  obtain ⟨rfl, -⟩ := hend (of_decide_eq_true hdrain)
  exact ⟨M, es', h, h', by decide +kernel, (hcausal 0 A hA).2.nodup⟩

end Network

end DagRider
