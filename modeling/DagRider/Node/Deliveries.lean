import DagRider.Lib.Delivery
import DagRider.Lib.Simulation
import DagRider.Node.Membership

set_option relaxedAutoImplicit false
set_option autoImplicit false

/-!
# What a node takes of its deliveries

Most of what an unreliable network delivers leaves no trace: a vertex that the admission loop turns
away is gone, and one that is stored already is stored again. Without these deliveries the node goes
through the same states, and what is left is delivered once each, parents first.

## Main definitions

* `DagRider.Consensus.Takes`, `DagRider.Consensus.taken` — what the admission loop stores that was
  not stored.
* `DagRider.Node.distilled`, `DagRider.Node.effects` — a node and its steps without the rest.

## Main results

* `DagRider.Node.simulates_distilled` — without the rest the node goes through the same states.
* `DagRider.Node.Distills.causal` — what is left is delivered in causal order.
-/

namespace DagRider

variable {P : Platform} {c : Consensus} {g : Dag} {u v : Vertex} {vs : List Vertex}

/-! ## What the admission loop takes -/

/-- Storing a vertex again changes nothing. -/
lemma Dag.insertVertex_of_mem (hg : g.WellSlotted) (hv : v ∈ g.vertices) :
    g.insertVertex P v = g := by
  obtain ⟨m, hm, ho⟩ := hg.exists_slot hv
  unfold insertVertex
  simp only [hm, Option.getD_some, UnorderedMap.set_of_mem ho,
    OrderedMap.set_of_mem (OrderedMap.find?_eq_some_iff.mp hm)]

namespace Consensus

/-- The admission loop accepts a vertex that is not stored. -/
def Takes (c : Consensus) (vertex : Vertex) : Prop :=
  c.isAdmissible vertex = true ∧ vertex ∉ c.state.dag.vertices

instance (c : Consensus) (vertex : Vertex) : Decidable (c.Takes vertex) :=
  inferInstanceAs (Decidable (c.isAdmissible vertex = true ∧ vertex ∉ c.state.dag.vertices))

/-- What the admission loop takes of a buffer. -/
def taken (P : Platform) : Consensus → List Vertex → List Vertex
  | _, [] => []
  | c, v :: vs => if c.Takes v then v :: taken P (c.scanVertex P v) vs else taken P c vs

/-- What the loop does not take leaves no trace. -/
lemma scanVertex_of_not_takes (hslot : c.state.dag.WellSlotted) (h : ¬ c.Takes v) :
    c.scanVertex P v = c := by
  rcases scanVertex_cases P c v with ⟨hadm, hscan⟩ | ⟨-, hscan⟩
  · have hv : v ∈ c.state.dag.vertices := by
      by_contra hv
      exact h ⟨hadm, hv⟩
    rw [hscan, Dag.insertVertex_of_mem hslot hv]
  · exact hscan

/-- The DAG with a vertex that is taken. -/
lemma Takes.dag_scanVertex (h : c.Takes v) :
    (c.scanVertex P v).state.dag = c.state.dag.insertVertex P v := by
  unfold scanVertex
  rw [if_pos h.1]

/-- What waits to be proposed is nothing to the admission loop. -/
lemma taken_blocks (bs : List Block) :
    taken P { c with blocksToPropose := bs } vs = taken P c vs := by
  induction vs generalizing c with
  | nil => rfl
  | cons v vs ih =>
    have htakes : Takes { c with blocksToPropose := bs } v ↔ c.Takes v := Iff.rfl
    have hscan : scanVertex P { c with blocksToPropose := bs } v =
        { c.scanVertex P v with blocksToPropose := bs } := by
      rcases scanVertex_cases P c v with ⟨hadm, ha⟩ | ⟨hadm, ha⟩
      · have hadm' : isAdmissible { c with blocksToPropose := bs } v = true := hadm
        rw [ha, scanVertex, if_pos hadm']
      · have hadm' : isAdmissible { c with blocksToPropose := bs } v = false := hadm
        rw [ha, scanVertex, hadm', if_neg Bool.false_ne_true]
    simp only [taken, htakes, hscan, ih]

/-- The loop takes only what is in the buffer, in the order of the buffer. -/
lemma taken_sublist : (c.taken P vs).Sublist vs := by
  induction vs generalizing c with
  | nil => exact List.Sublist.slnil
  | cons v vs ih =>
    unfold taken
    split_ifs
    · exact ih.cons_cons v
    · exact ih.cons v

/-- Vertices with a slot each. -/
def Apart (g : Dag) (vs : List Vertex) : Prop :=
  ∀ u, u ∈ g.vertices ∨ u ∈ vs → ∀ v ∈ vs, u.round = v.round → u.owner = v.owner → u = v

/-- Where nothing is replaced, the DAG grows by what is taken. -/
lemma Takes.vertices_scanVertex (h : c.Takes v) (hslot : c.state.dag.WellSlotted)
    (hapart : ∀ u ∈ c.state.dag.vertices, u.round = v.round → u.owner = v.owner → u = v) :
    {u | u ∈ (c.scanVertex P v).state.dag.vertices} = insert v {u | u ∈ c.state.dag.vertices} := by
  ext u
  simp only [Set.mem_ofPred_eq, Set.mem_insert_iff, h.dag_scanVertex, Dag.mem_insertVertex hslot]
  constructor
  · exact Or.imp_right And.left
  · rintro (rfl | hu)
    · exact Or.inl rfl
    · by_cases heq : u = v
      · exact Or.inl heq
      · exact Or.inr ⟨hu, fun hs => heq (hapart u hu hs.1 hs.2)⟩

end Consensus

/-- The parents of the vertex are there. -/
def Vertex.NamedIn (S : Set Vertex) (v : Vertex) : Prop :=
  ∀ e ∈ v.parents.entries, ∃ u ∈ S, u.hash = e.1 ∧ u.round = e.2

namespace Consensus

/-- A vertex is taken when its parents are stored. -/
lemma Takes.namedIn (h : c.Takes v) (hslot : c.state.dag.WellSlotted) :
    v.NamedIn {u | u ∈ c.state.dag.vertices} := by
  have hadm := h.1
  simp only [isAdmissible, Bool.and_eq_true] at hadm
  exact hslot.containsVertices_iff.mp hadm.2

/-- **What the loop takes is in causal order.**

**Proof sketch.** By induction on the buffer: a vertex that is taken is new, its parents are stored,
and the rest of the buffer meets the DAG with it. -/
lemma causal_taken (hslot : c.state.dag.WellSlotted) (hapart : Apart c.state.dag vs) :
    Delivery.Causal Vertex.NamedIn {u | u ∈ c.state.dag.vertices} (c.taken P vs) := by
  induction vs generalizing c with
  | nil => trivial
  | cons v vs ih =>
    have hold : ∀ u ∈ c.state.dag.vertices, u.round = v.round → u.owner = v.owner → u = v :=
      fun u hu => hapart u (Or.inl hu) v List.mem_cons_self
    unfold taken
    split_ifs with htakes
    · have hset := htakes.vertices_scanVertex (P := P) hslot hold
      refine ⟨htakes.2, htakes.namedIn hslot, hset ▸ ih ?_ fun u hu w hw => ?_⟩
      · rw [htakes.dag_scanVertex]
        exact hslot.insertVertex
      · refine hapart u ?_ w (List.mem_cons_of_mem v hw)
        rcases hu with hu | hu
        · have hmem : u ∈ insert v {u | u ∈ c.state.dag.vertices} := hset ▸ hu
          rcases hmem with rfl | hmem
          · exact Or.inr List.mem_cons_self
          · exact Or.inl hmem
        · exact Or.inr (List.mem_cons_of_mem v hu)
    · refine ih hslot fun u hu w hw => hapart u ?_ w (List.mem_cons_of_mem v hw)
      exact hu.imp_right (List.mem_cons_of_mem v)

end Consensus

namespace Node

variable {nd nd' : Node} {e : NodeEvent} {es p : List NodeEvent} {nodeId : NodePublicKey}
  {committee : Committee}

/-! ## Runs without the rest -/

/-- The node, with only those vertices in the buffer that the loop will take. -/
def distilled (P : Platform) (nd : Node) : Node :=
  { nd with buffer := nd.consensus.taken P nd.buffer }

/-- What is left of a step: the vertices that the loop will take are handed over, and it scans
these. -/
def effects (P : Platform) (nd : Node) : NodeEvent → List NodeEvent
  | .drain vertices blocks => [.drain (nd.consensus.taken P vertices) blocks]
  | .scan =>
    match nd.buffer with
    | v :: _ => if nd.consensus.Takes v then [.scan] else []
    | [] => []
  | .finish fuel => [.finish fuel]

/-- A step keeps every vertex in its slot. -/
lemma wellSlotted_step (hslot : nd.dag.WellSlotted) (h : nd.step P e = some nd') :
    nd'.dag.WellSlotted := by
  rcases dag_cases h with hdag | ⟨v, buffer, -, -, -, -, hdag⟩
  · rw [hdag]
    exact hslot
  · rw [hdag]
    exact hslot.insertVertex

/-- **Without the rest the node goes through the same states.** -/
theorem simulates_distilled : Run.Simulates (step P) (step P) (fun nd => nd.dag.WellSlotted)
    (distilled P) (effects P) where
  keeps hslot hstep := wellSlotted_step hslot hstep
  follows := by
    intro nd e nd' hslot hstep
    rcases step_cases hstep with ⟨vs, bs, rfl, hphase, rfl⟩ | ⟨v, buffer, rfl, hphase, hbuf, rfl⟩ |
      ⟨fuel, c, rfl, ⟨hphase, hbuf⟩, hc, rfl⟩
    · simp [effects, Run.exec, step, distilled, hphase, Consensus.taken_blocks]
    · by_cases htakes : nd.consensus.Takes v
      · simp [effects, Run.exec, step, distilled, hphase, hbuf, htakes, Consensus.taken]
      · have hscan := Consensus.scanVertex_of_not_takes (P := P) hslot htakes
        simp [effects, distilled, hphase, hbuf, htakes, Consensus.taken, hscan]
    · simp [effects, Run.exec, step, distilled, hphase, hbuf, hc, Consensus.taken]

/-- The events that are left of a run. -/
abbrev essence (P : Platform) (nodeId : NodePublicKey) (committee : Committee)
    (es : List NodeEvent) : List NodeEvent :=
  Run.trace (step P) (effects P) (init P nodeId committee) es

/-- The vertices that are left of a step were delivered by it. -/
lemma vertices_effects :
    (effects P nd e).flatMap NodeEvent.vertices = nd.consensus.taken P e.vertices := by
  cases e with
  | drain vs bs => simp [effects, NodeEvent.vertices]
  | scan =>
    unfold effects
    cases nd.buffer with
    | nil => rfl
    | cons v buffer =>
      dsimp only
      split_ifs <;> rfl
  | finish fuel => rfl

/-! ## What is delivered then -/

/-- What is delivered in a run, without the rest. -/
def delivered (P : Platform) (nodeId : NodePublicKey) (committee : Committee)
    (es : List NodeEvent) : List Vertex :=
  (essence P nodeId committee es).flatMap NodeEvent.vertices

/-- What is delivered in a run with one more event. -/
lemma delivered_concat (h : run P nodeId committee p = some nd) :
    delivered P nodeId committee (p ++ [e]) =
      delivered P nodeId committee p ++ nd.consensus.taken P e.vertices := by
  unfold delivered essence
  rw [Run.trace_concat h, List.flatMap_append, vertices_effects]

/-- What is delivered is some of what was received, in this order. -/
lemma delivered_sublist (h : run P nodeId committee es = some nd) :
    (delivered P nodeId committee es).Sublist (es.flatMap NodeEvent.vertices) := by
  refine Run.history_induction (J := fun es _ =>
    (delivered P nodeId committee es).Sublist (es.flatMap NodeEvent.vertices))
    List.Sublist.slnil (fun p nd e nd' hp ih _ => ?_) h
  rw [delivered_concat hp, List.flatMap_append, List.flatMap_singleton]
  exact ih.append Consensus.taken_sublist

/-- What was delivered, in causal order, is stored or still to be taken. -/
structure Distills (P : Platform) (committee : Committee) (l : List Vertex) (nd : Node) :
    Prop where
  causal : Delivery.Causal Vertex.NamedIn {v | v ∈ Vertex.genesis P committee.getNodesKeys} l
  split : ∃ m, l = m ++ nd.consensus.taken P nd.buffer ∧
    {v | v ∈ nd.dag.vertices} =
      {v | v ∈ Vertex.genesis P committee.getNodesKeys} ∪ {v | v ∈ m}
  drained : nd.phase = .drain → nd.buffer = []

/-- A node that starts has nothing but the genesis vertices. -/
lemma distills_init : Distills P committee [] (init P nodeId committee) := by
  refine ⟨trivial, ⟨[], rfl, ?_⟩, fun _ => rfl⟩
  ext v
  simp only [List.not_mem_nil, Set.mem_union, Set.mem_ofPred_eq, or_false]
  constructor
  · exact fun hv => Dag.mem_root_of_mem_new hv
  · exact fun hv => Dag.mem_new_of_mem_root (fun _ hu _ hw => Vertex.genesis_unique hu hw) hv

/-- **One step.** -/
lemma Distills.step {l : List Vertex} (h : Distills P committee l nd) (hslot : nd.dag.WellSlotted)
    (hstep : nd.step P e = some nd')
    (hapart : Consensus.Apart nd.dag (nd.buffer ++ e.vertices)) :
    Distills P committee (l ++ nd.consensus.taken P e.vertices) nd' := by
  obtain ⟨hcausal, ⟨m, hl, hdag⟩, hdrained⟩ := h
  rcases step_cases hstep with ⟨vs, bs, rfl, hphase, rfl⟩ | ⟨v, buffer, rfl, hphase, hbuf, rfl⟩ |
    ⟨fuel, c, rfl, ⟨hphase, hbuf⟩, hc, rfl⟩
  · have hbuf := hdrained hphase
    rw [hbuf, Consensus.taken, List.append_nil] at hl
    subst hl
    refine ⟨?_, ⟨l, ?_, hdag⟩, fun h => Phase.noConfusion h⟩
    · refine Delivery.causal_append.mpr ⟨hcausal, ?_⟩
      rw [← hdag]
      refine Consensus.causal_taken hslot fun u hu w hw => hapart u ?_ w ?_
      · exact hu.imp_right fun hu => List.mem_append_right _ hu
      · exact List.mem_append_right _ hw
    · exact congrArg (l ++ ·) (Consensus.taken_blocks _).symm
  · have hnil : nd.consensus.taken P (NodeEvent.vertices .scan) = [] := rfl
    rw [hnil, List.append_nil]
    rw [hbuf, Consensus.taken] at hl
    by_cases htakes : nd.consensus.Takes v
    · rw [if_pos htakes] at hl
      refine ⟨hcausal, ⟨m ++ [v], ?_, ?_⟩, fun h => Phase.noConfusion h⟩
      · rw [hl, List.append_assoc]
        rfl
      · have hset := htakes.vertices_scanVertex (P := P) hslot fun u hu =>
          hapart u (Or.inl hu) v (by simp [hbuf])
        refine hset.trans ?_
        rw [hdag]
        ext u
        simp only [Set.mem_insert_iff, Set.mem_union, Set.mem_ofPred_eq, List.mem_append,
          List.mem_singleton]
        tauto
    · have hscan := Consensus.scanVertex_of_not_takes (P := P) hslot htakes
      rw [if_neg htakes] at hl
      rw [hscan]
      exact ⟨hcausal, ⟨m, hl, hdag⟩, fun h => Phase.noConfusion h⟩
  · have hnil : nd.consensus.taken P (NodeEvent.vertices (.finish fuel)) = [] := rfl
    rw [hnil, List.append_nil]
    rw [hbuf, Consensus.taken] at hl
    refine ⟨hcausal, ⟨m, by rw [hl]; rfl, ?_⟩, fun _ => rfl⟩
    show {v | v ∈ c.state.dag.vertices} = _
    rw [(Consensus.advance_frame hc).2.2]
    exact hdag

/-- **What a node takes of its deliveries**, in every run whose vertices have a slot each.

**Proof sketch.** Induction over the run. What was delivered is split at the buffer: what comes
before is stored, and a new batch meets an empty buffer (`Consensus.causal_taken`). -/
theorem distills (h : run P nodeId committee es = some nd)
    (hslots : ∀ u ∈ known P committee es, ∀ v ∈ known P committee es,
      u.round = v.round → u.owner = v.owner → u = v) :
    Distills P committee (delivered P nodeId committee es) nd := by
  refine Run.prefix_induction (J := fun p nd =>
    Distills P committee (delivered P nodeId committee p) nd) distills_init ?_ h
  intro p nd e nd' hp hnd ih hstep
  have hstored := stored hnd
  have hsub : ∀ v ∈ known P committee p, v ∈ known P committee es := fun v hv =>
    known_subset ((List.prefix_append p [e]).trans hp) hv
  have hbatch : ∀ v ∈ nd.buffer ++ e.vertices, v ∈ known P committee es := by
    intro v hv
    rcases List.mem_append.mp hv with hv | hv
    · exact hsub v (List.mem_append_right _ (hstored.buffer v hv))
    · refine known_subset hp (List.mem_append_right _ ?_)
      simp [hv]
  have hstep' := ih.step (basic hnd).wellSlotted hstep fun u hu w hw => by
    refine hslots u ?_ w (hbatch w hw)
    exact hu.elim (fun hu => hsub u (hstored.known u hu)) (hbatch u)
  rw [delivered_concat hnd]
  exact hstep'

end Node

end DagRider
