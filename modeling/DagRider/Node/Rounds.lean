import DagRider.Node.Growth

set_option relaxedAutoImplicit false
set_option autoImplicit false

/-!
# What the rounds of a node hold

`createNewVertex` takes its parents from the round below, and the commit rule counts
supporters in the current one. Whatever is received, nothing is stored above the current
round, and every round that the node has left holds a quorum: an insertion into it may
replace a vertex and never removes one.

## Main definitions

* `DagRider.Node.Rounds` — what is stored, round by round.

## Main results

* `DagRider.Node.rounds_hold_quorums` — slots, rounds and quorums in every reachable state.
-/

namespace DagRider

namespace Node

variable {P : Platform} {nodeId : NodePublicKey} {committee : Committee}
  {es : List NodeEvent} {nd nd' : Node} {e : NodeEvent}

/-- Nothing is stored above the current round, and the rounds below it hold quorums. -/
structure Rounds (nd : Node) : Prop where
  le_currentRound : ∀ v ∈ nd.dag.vertices, v.round ≤ nd.currentRound
  quorum : ∀ r, 1 ≤ r → r < nd.currentRound →
    ∃ m, nd.dag.graph.find? r = some m ∧ nd.dag.minQuorum ≤ m.size

/-- At the start only round `1` is occupied. -/
lemma rounds_init : Rounds (init P nodeId committee) where
  le_currentRound := by
    intro v hv
    exact (Vertex.of_mem_genesis (Dag.mem_root_of_mem_new hv)).1.le
  quorum := by
    intro r hr hlt
    have hone : (init P nodeId committee).currentRound = 1 := rfl
    omega

/-- **A step keeps `Rounds`** if the counter does not wrap.

**Proof sketch.** A quiet step keeps the round, and at most inserts a vertex of a round that has
come (`dag_cases`). The end of a pass that advances keeps the DAG, and the round it leaves has a
quorum. -/
lemma Rounds.step (hI : Rounds nd) (hslot : nd.dag.WellSlotted) (hlt : nd.currentRound < 2 ^ 32)
    (hne : NotWrapped nd') (h : nd.step P e = some nd') : Rounds nd' := by
  rcases quiet_or_advances h with hquiet | ⟨fuel, d, block, v, -, -, hcan, hd, -, rfl⟩
  · have hround : nd'.currentRound = nd.currentRound := hquiet.currentRound
    rcases dag_cases h with hdag | ⟨v, buffer, -, -, -, hadm, hdag⟩
    · refine ⟨?_, ?_⟩
      all_goals rw [hdag, hround]
      · exact hI.le_currentRound
      · exact hI.quorum
    · refine ⟨?_, ?_⟩
      all_goals rw [hdag, hround]
      · intro u hu
        rcases (Dag.mem_insertVertex hslot).mp hu with rfl | ⟨hu, -⟩
        · simp only [Consensus.isAdmissible, Bool.and_eq_true, decide_eq_true_eq] at hadm
          exact hadm.1
        · exact hI.le_currentRound u hu
      · intro r hr hlt
        obtain ⟨m, hm, hquorum⟩ := hI.quorum r hr hlt
        obtain ⟨m', hm', hsize⟩ := Dag.size_le_insertVertex (P := P) (v := v) hm
        exact ⟨m', hm', hquorum.trans hsize⟩
  · have hnext : nd.consensus.nextRound = nd.currentRound + 1 := nextRound_eq hlt hne
    refine ⟨fun u hu => ?_, fun r hr hrlt => ?_⟩
    · show u.round ≤ nd.consensus.nextRound
      rw [hnext]
      exact (hI.le_currentRound u hu).trans (Nat.le_succ _)
    · have hrlt' : r < nd.consensus.nextRound := hrlt
      rw [hnext] at hrlt'
      rcases Nat.lt_succ_iff_lt_or_eq.mp hrlt' with hr' | rfl
      · exact hI.quorum r hr hr'
      · exact Consensus.quorum_of_canAdvance hcan

/-- **`Rounds` holds as long as the counter has not wrapped.** -/
theorem rounds (h : run P nodeId committee es = some nd)
    (hround : Run.Throughout (step P) NotWrapped (init P nodeId committee) es) : Rounds nd := by
  refine hround.induction (J := fun _ nd => Rounds nd) rounds_init ?_ h
  intro p nd e nd' hp hI _ hne hstep
  have hbasic := basic hp
  exact hI.step hbasic.wellSlotted hbasic.round_lt hne hstep

/-- **Rounds and quorums.** In every run on which the round has not reached `2^32 - 1`, whatever
is received: a vertex stored under `graph[r][o]` has round `r` and owner `o`, and `r` is at most
the current round; and each round below the current one holds at least `minQuorum` entries, all
with different owners. -/
theorem rounds_hold_quorums (h : run P nodeId committee es = some nd)
    (hround : Run.Throughout (step P) (fun nd => nd.currentRound < 2 ^ 32 - 1)
      (init P nodeId committee) es) :
    (∀ r m, nd.dag.graph.find? r = some m → ∀ o v, m.find? o = some v →
      v.round = r ∧ v.owner = o ∧ r ≤ nd.currentRound) ∧
    ∀ r, 1 ≤ r → r < nd.currentRound → ∃ m, nd.dag.graph.find? r = some m ∧
      nd.dag.minQuorum ≤ m.values.length ∧ (m.values.map Vertex.owner).Nodup := by
  have hslot := (basic h).wellSlotted
  have hrounds := rounds h (notWrapped_of_lt hround)
  constructor
  · intro r m hm o v hv
    have hentry : (o, v) ∈ m.entries := UnorderedMap.find?_eq_some_iff.mp hv
    obtain ⟨hr, ho⟩ := hslot r m (OrderedMap.find?_eq_some_iff.mp hm) o v hentry
    have hstored := Dag.mem_vertices_of_find? hm (UnorderedMap.mem_values.mpr ⟨o, hentry⟩)
    exact ⟨hr, ho, hr ▸ hrounds.le_currentRound v hstored⟩
  · intro r hr hlt
    obtain ⟨m, hm, hquorum⟩ := hrounds.quorum r hr hlt
    rw [← UnorderedMap.length_values] at hquorum
    exact ⟨m, hm, hquorum, hslot.nodup_owners hm⟩

/-- The node of a committee of one, at round `6`. -/
theorem rounds_hold_quorums_single :
    ∃ nd, run Sample.platform 1 Sample.single (Sample.upTo 6) = some nd ∧ nd.currentRound = 6 ∧
      (∀ r m, nd.dag.graph.find? r = some m → ∀ o v, m.find? o = some v →
        v.round = r ∧ v.owner = o ∧ r ≤ nd.currentRound) ∧
      ∀ r, 1 ≤ r → r < nd.currentRound → ∃ m, nd.dag.graph.find? r = some m ∧
        nd.dag.minQuorum ≤ m.values.length ∧ (m.values.map Vertex.owner).Nodup := by
  obtain ⟨nd, hnd, hr⟩ : ∃ nd, run Sample.platform 1 Sample.single (Sample.upTo 6) = some nd ∧
      decide (nd.currentRound = 6) = true := Run.exists_exec_of_any (by decide +kernel)
  have hround : Run.Throughout (step Sample.platform) (fun nd => nd.currentRound < 2 ^ 32 - 1)
      (init Sample.platform 1 Sample.single) (Sample.upTo 6) := by decide +kernel
  exact ⟨nd, hnd, of_decide_eq_true hr, rounds_hold_quorums hnd hround⟩

end Node

end DagRider
