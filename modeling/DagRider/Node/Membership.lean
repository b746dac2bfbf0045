import DagRider.Lib.CausalGraph
import DagRider.Node.Growth

set_option relaxedAutoImplicit false
set_option autoImplicit false

/-!
# What a node stores

Whatever a node receives, it stores only genesis vertices and vertices it received, as they
were received. The admission test asks neither who owns a vertex nor how many parents it has.

## Main definitions

* `DagRider.Node.Stored` — where the vertices of the DAG and of the buffer come from.

## Main results

* `DagRider.Node.stored` — `Stored` holds after every run.
* `DagRider.Node.not_overwrites` — vertices with distinct slots never replace each other.
* `DagRider.Node.committee_quorums_intersect` — quorums of vertices owned by the committee
  share owners.
-/

namespace DagRider

namespace Node

variable {P : Platform} {nodeId : NodePublicKey} {committee : Committee}
  {es : List NodeEvent} {nd nd' : Node} {e : NodeEvent}

/-- Every vertex there can be at a node: the genesis vertices and those it received. -/
def known (P : Platform) (committee : Committee) (es : List NodeEvent) : List Vertex :=
  Vertex.genesis P committee.getNodesKeys ++ es.flatMap NodeEvent.vertices

/-- More events, more vertices. -/
lemma known_subset {fs : List NodeEvent} (h : es <+: fs) {v : Vertex}
    (hv : v ∈ known P committee es) : v ∈ known P committee fs := by
  obtain ⟨gs, rfl⟩ := h
  unfold known at hv ⊢
  rw [List.flatMap_append, ← List.append_assoc]
  exact List.mem_append_left _ hv

/-- Where the vertices of the DAG and of the buffer come from, after the events `es`. -/
structure Stored (P : Platform) (committee : Committee) (es : List NodeEvent)
    (nd : Node) : Prop where
  known : ∀ v ∈ nd.dag.vertices, v ∈ known P committee es
  buffer : ∀ v ∈ nd.buffer, v ∈ es.flatMap NodeEvent.vertices
  round_lt : ∀ v ∈ nd.dag.vertices, v.round < 2 ^ 32
  /-- The rounds that a stored vertex records for its parents are occupied. -/
  occupied : ∀ v ∈ nd.dag.vertices, ∀ e ∈ v.parents.entries,
    ∃ u ∈ nd.dag.vertices, u.round = e.2

/-- An insertion never empties a round. -/
lemma exists_mem_round_insertVertex {g : Dag} (hg : g.WellSlotted) (v : Vertex) {r : ℕ}
    (h : ∃ u ∈ g.vertices, u.round = r) : ∃ u ∈ (g.insertVertex P v).vertices, u.round = r := by
  obtain ⟨u, hu, hr⟩ := h
  by_cases hs : u.round = v.round ∧ u.owner = v.owner
  · exact ⟨v, (Dag.mem_insertVertex hg).mpr (Or.inl rfl), hs.1.symm.trans hr⟩
  · exact ⟨u, (Dag.mem_insertVertex hg).mpr (Or.inr ⟨hu, hs⟩), hr⟩

/-- The genesis vertices are known, and record no parents. -/
lemma stored_init : Stored P committee [] (init P nodeId committee) := by
  have hgenesis : ∀ v ∈ (init P nodeId committee).dag.vertices,
      v ∈ Vertex.genesis P committee.getNodesKeys := fun v hv => Dag.mem_root_of_mem_new hv
  refine ⟨fun v hv => List.mem_append_left _ (hgenesis v hv), by simp [init], ?_, ?_⟩
  · intro v hv
    rw [(Vertex.of_mem_genesis (hgenesis v hv)).1]
    decide
  · intro v hv e he
    rw [(Vertex.of_mem_genesis (hgenesis v hv)).2.2] at he
    simp at he

/-- What a step leaves in the buffer was there before, or was just received. -/
lemma mem_buffer_step (h : nd.step P e = some nd') {v : Vertex} (hv : v ∈ nd'.buffer) :
    v ∈ nd.buffer ∨ v ∈ e.vertices := by
  rcases step_cases h with ⟨vs, bs, rfl, -, rfl⟩ | ⟨u, buffer, -, -, hbuf, rfl⟩ |
    ⟨fuel, c, -, -, -, rfl⟩
  · exact Or.inr hv
  · exact Or.inl (hbuf ▸ List.mem_cons_of_mem u hv)
  · exact absurd hv List.not_mem_nil

/-- **`Stored` holds after every run.**

**Proof sketch.** Induction over the run. The buffer holds what was received
(`mem_buffer_step`). The DAG changes by an admission only (`dag_cases`), which inserts the head
of the buffer after testing its round and that its parents are stored. -/
theorem stored (h : run P nodeId committee es = some nd) : Stored P committee es nd := by
  refine Run.history_induction (J := fun es nd => Stored P committee es nd) stored_init ?_ h
  intro p nd e nd' hp ih hstep
  have hbasic := basic hp
  have hknown : ∀ v ∈ nd.dag.vertices, v ∈ Node.known P committee (p ++ [e]) := fun v hv =>
    known_subset (List.prefix_append p [e]) (ih.known v hv)
  have hold : ∀ v ∈ nd.buffer, v ∈ (p ++ [e]).flatMap NodeEvent.vertices := by
    intro v hv
    rw [List.flatMap_append]
    exact List.mem_append_left _ (ih.buffer v hv)
  have hbuffer : ∀ v ∈ nd'.buffer, v ∈ (p ++ [e]).flatMap NodeEvent.vertices := by
    intro v hv
    rcases mem_buffer_step hstep hv with hv | hv
    · exact hold v hv
    · rw [List.flatMap_append, List.flatMap_singleton]
      exact List.mem_append_right _ hv
  rcases dag_cases hstep with hdag | ⟨v, buffer, -, -, hbuf, hadm, hdag⟩
  · refine ⟨?_, hbuffer, ?_, ?_⟩
    all_goals rw [hdag]
    · exact hknown
    · exact ih.round_lt
    · exact ih.occupied
  · simp only [Consensus.isAdmissible, Bool.and_eq_true, decide_eq_true_eq] at hadm
    obtain ⟨hround, hparents⟩ := hadm
    have hhead : v ∈ nd.buffer := hbuf ▸ List.mem_cons_self
    have hmem : ∀ u, u ∈ (nd.dag.insertVertex P v).vertices → u = v ∨ u ∈ nd.dag.vertices :=
      fun u hu => ((Dag.mem_insertVertex hbasic.wellSlotted).mp hu).imp_right And.left
    refine ⟨?_, hbuffer, ?_, ?_⟩
    all_goals
      rw [hdag]
      intro u hu
    · rcases hmem u hu with rfl | hu
      · exact List.mem_append_right _ (hold u hhead)
      · exact hknown u hu
    · rcases hmem u hu with rfl | hu
      · exact hround.trans_lt hbasic.round_lt
      · exact ih.round_lt u hu
    · intro e he
      apply exists_mem_round_insertVertex hbasic.wellSlotted v
      rcases hmem u hu with rfl | hu
      · obtain ⟨w, hw, -, hwr⟩ := hbasic.wellSlotted.containsVertices_iff.mp hparents e he
        exact ⟨w, hw, hwr⟩
      · exact ih.occupied u hu e he

/-- **Vertices with distinct slots never replace each other.** -/
theorem not_overwrites
    (hslots : ∀ u ∈ known P committee es, ∀ v ∈ known P committee es,
      u.round = v.round → u.owner = v.owner → u = v) :
    Run.Along (step P) (fun nd e => ¬ Overwrites nd e) (init P nodeId committee) es := by
  refine Run.along_iff.mpr fun p e nd hp hnd hover => ?_
  obtain ⟨-, -, v, buffer, hbuf, -, u, hu, hr, ho, hne⟩ := hover
  have hstored := stored hnd
  have hpre : p <+: es := (List.prefix_append p [e]).trans hp
  have hv : v ∈ known P committee p :=
    List.mem_append_right _ (hstored.buffer v (hbuf ▸ List.mem_cons_self))
  exact hne (hslots u (known_subset hpre (hstored.known u hu)) v (known_subset hpre hv) hr ho)

/-! ## Owners and quorums -/

/-- A stored vertex that the committee does not own was received. -/
lemma received_of_foreign (h : run P nodeId committee es = some nd) {v : Vertex}
    (hv : v ∈ nd.dag.vertices) (ho : v.owner ∉ committee.getNodesKeys) :
    v ∈ es.flatMap NodeEvent.vertices := by
  rcases List.mem_append.mp ((stored h).known v hv) with hv | hv
  · exact absurd (Vertex.of_mem_genesis hv).2.1 ho
  · exact hv

/-- Stored vertices of one round have distinct owners. -/
lemma injOn_owner {g : Dag} (hg : g.WellSlotted) {r : ℕ} {A : Finset Vertex}
    (hA : ∀ v ∈ A, v ∈ g.vertices ∧ v.round = r) :
    Set.InjOn Vertex.owner (A : Set Vertex) := by
  intro u hu v hv huv
  obtain ⟨hu, hur⟩ := hA u hu
  obtain ⟨hv, hvr⟩ := hA v hv
  exact hg.slot_unique hu hv (hur.trans hvr.symm) huv

/-- Two quorums exceed the committee by more than a third of it. -/
lemma third_lt_of_quorums {n a b i : ℕ} (ha : n * 2 / 3 + 1 ≤ a) (hb : n * 2 / 3 + 1 ≤ b)
    (h : a + b ≤ i + n) : (n - 1) / 3 < i := by
  omega

/-- **Quorums of vertices that the committee owns share owners.** Whatever two nodes of a
committee receive: the quorum that `State` computes is the committee's threshold; a stored
vertex that no committee key owns is one of those received; and sets of at least `minQuorum`
vertices stored in a round at the one and at the other, all owned by committee keys, share
more than `⌊(n - 1) / 3⌋` owners.

**Proof sketch.** A set of vertices stored in one round has as many owners as vertices, since
the slots of a round are the owners. Two quorums among the `n` keys then overlap
(`Quorum.card_add_card_le_image`). -/
theorem committee_quorums_intersect {P' : Platform} {nodeId' : NodePublicKey}
    {es' : List NodeEvent} (h : run P nodeId committee es = some nd)
    (h' : run P' nodeId' committee es' = some nd') :
    nd.dag.minQuorum = committee.quorumThreshold ∧
    (∀ v ∈ nd.dag.vertices, v.owner ∉ committee.getNodesKeys →
      v ∈ es.flatMap NodeEvent.vertices) ∧
    ∀ r : ℕ, ∀ A B : Finset Vertex,
      (∀ v ∈ A, (v ∈ nd.dag.vertices ∧ v.round = r) ∧ v.owner ∈ committee.getNodesKeys) →
      (∀ v ∈ B, (v ∈ nd'.dag.vertices ∧ v.round = r) ∧ v.owner ∈ committee.getNodesKeys) →
      nd.dag.minQuorum ≤ A.card → nd'.dag.minQuorum ≤ B.card →
      (committee.size - 1) / 3 < (A.image Vertex.owner ∩ B.image Vertex.owner).card := by
  have hb := basic h
  have hb' := basic h'
  refine ⟨hb.minQuorum_eq, fun v hv ho => received_of_foreign h hv ho, ?_⟩
  intro r A B hA hB hAq hBq
  have hkeys : committee.getNodesKeys.toFinset.card ≤ committee.size :=
    (List.toFinset_card_le _).trans_eq committee.length_getNodesKeys
  have hcard := Quorum.card_add_card_le_image
    (fun v hv => List.mem_toFinset.mpr (hA v hv).2)
    (fun v hv => List.mem_toFinset.mpr (hB v hv).2)
    (injOn_owner hb.wellSlotted fun v hv => (hA v hv).1)
    (injOn_owner hb'.wellSlotted fun v hv => (hB v hv).1)
  rw [hb.minQuorum_eq] at hAq
  rw [hb'.minQuorum_eq] at hBq
  exact third_lt_of_quorums hAq hBq (by omega)

/-- Two nodes of a committee of four store three vertices of round `2` each. -/
theorem committee_quorums_intersect_four :
    ∃ nd nd', run Sample.platform 1 Sample.four (Sample.roundTwo [1, 2, 3]) = some nd ∧
      run Sample.platform 2 Sample.four (Sample.roundTwo [2, 3, 4]) = some nd' ∧
      (Sample.four.size - 1) / 3 < ((Sample.second [1, 2, 3]).toFinset.image Vertex.owner ∩
        (Sample.second [2, 3, 4]).toFinset.image Vertex.owner).card := by
  obtain ⟨nd, h, hA⟩ : ∃ nd, run Sample.platform 1 Sample.four (Sample.roundTwo [1, 2, 3]) =
        some nd ∧ decide ((∀ v ∈ (Sample.second [1, 2, 3]).toFinset,
          (v ∈ nd.dag.vertices ∧ v.round = 2) ∧ v.owner ∈ Sample.four.getNodesKeys) ∧
        nd.dag.minQuorum ≤ (Sample.second [1, 2, 3]).toFinset.card) = true :=
    Run.exists_exec_of_any (by decide +kernel)
  obtain ⟨nd', h', hB⟩ : ∃ nd, run Sample.platform 2 Sample.four (Sample.roundTwo [2, 3, 4]) =
        some nd ∧ decide ((∀ v ∈ (Sample.second [2, 3, 4]).toFinset,
          (v ∈ nd.dag.vertices ∧ v.round = 2) ∧ v.owner ∈ Sample.four.getNodesKeys) ∧
        nd.dag.minQuorum ≤ (Sample.second [2, 3, 4]).toFinset.card) = true :=
    Run.exists_exec_of_any (by decide +kernel)
  obtain ⟨hA, hAq⟩ := of_decide_eq_true hA
  obtain ⟨hB, hBq⟩ := of_decide_eq_true hB
  exact ⟨nd, nd', h, h', (committee_quorums_intersect h h').2.2 2 _ _ hA hB hAq hBq⟩

/-- Vertices of round `1` that nobody checks the owner of. -/
def foreign (owners : List ℕ) : List Vertex := owners.map (Sample.vertex 1 [])

/-- Two nodes of a committee of four receive vertices of round `1` from owners outside the
committee, and store them: two quorums without a common owner. -/
theorem foreign_quorums_disjoint :
    ∃ nd nd', run Sample.platform 1 Sample.four (Sample.pass (foreign [5, 6, 7])) = some nd ∧
      run Sample.platform 2 Sample.four (Sample.pass (foreign [8, 9, 10])) = some nd' ∧
      (∃ v ∈ nd.dag.vertices, v.owner ∉ Sample.four.getNodesKeys) ∧
      (∀ v ∈ (foreign [5, 6, 7]).toFinset, v ∈ nd.dag.vertices ∧ v.round = 1) ∧
      (∀ v ∈ (foreign [8, 9, 10]).toFinset, v ∈ nd'.dag.vertices ∧ v.round = 1) ∧
      nd.dag.minQuorum ≤ (foreign [5, 6, 7]).toFinset.card ∧
      nd'.dag.minQuorum ≤ (foreign [8, 9, 10]).toFinset.card ∧
      (foreign [5, 6, 7]).toFinset.image Vertex.owner ∩
        (foreign [8, 9, 10]).toFinset.image Vertex.owner = ∅ := by
  obtain ⟨nd, h, hA⟩ : ∃ nd, run Sample.platform 1 Sample.four
        (Sample.pass (foreign [5, 6, 7])) = some nd ∧
      decide ((∃ v ∈ nd.dag.vertices, v.owner ∉ Sample.four.getNodesKeys) ∧
        (∀ v ∈ (foreign [5, 6, 7]).toFinset, v ∈ nd.dag.vertices ∧ v.round = 1) ∧
        nd.dag.minQuorum ≤ (foreign [5, 6, 7]).toFinset.card) = true :=
    Run.exists_exec_of_any (by decide +kernel)
  obtain ⟨nd', h', hB⟩ : ∃ nd, run Sample.platform 2 Sample.four
        (Sample.pass (foreign [8, 9, 10])) = some nd ∧
      decide ((∀ v ∈ (foreign [8, 9, 10]).toFinset, v ∈ nd.dag.vertices ∧ v.round = 1) ∧
        nd.dag.minQuorum ≤ (foreign [8, 9, 10]).toFinset.card) = true :=
    Run.exists_exec_of_any (by decide +kernel)
  obtain ⟨hforeign, hA, hAq⟩ := of_decide_eq_true hA
  obtain ⟨hB, hBq⟩ := of_decide_eq_true hB
  exact ⟨nd, nd', h, h', hforeign, hA, hB, hAq, hBq, by decide +kernel⟩

end Node

end DagRider
