import DagRider.Agreement.History

set_option relaxedAutoImplicit false
set_option autoImplicit false

/-!
# The DAGs of a run as views of one causal graph

The vertices of a run form a causal graph, and the DAG of each node at each point is a view
of it. The stack search then decides reachability in that graph, so it gives the same answer
in every DAG that holds the two vertices.

## Main definitions

* `DagRider.Network.History.graph` — the causal graph of the vertices of a run.
* `DagRider.Dag.ViewOf` — a DAG that holds part of them and is closed.

## Main results

* `DagRider.Dag.ViewOf.ancestor_iff` — ancestors in a DAG are ancestors in the graph.
* `DagRider.Dag.ViewOf.isLinked_computes` — the search decides reachability.
* `DagRider.Network.views_agree` — nodes agree on the history of a vertex they share.
-/

namespace DagRider

open Relation

/-! ## The causal graph of a run -/

namespace Network

variable {committee : Committee} {U : List Vertex}

/-- The causal graph of the vertices of a run: a vertex is joined to those whose hash and round
it records. -/
def History.graph (hU : History committee U) (hslots : SlotsUnique U) :
    CausalGraph Vertex NodePublicKey where
  carrier := {v | v ∈ U}
  parent v u := v ∈ U ∧ u ∈ U ∧ (u.hash, u.round) ∈ v.parents.entries
  round := Vertex.round
  author := Vertex.owner
  parent_mem h := ⟨h.1, h.2.1⟩
  round_lt h := (hU.valid _ h.1).lower _ h.2.2
  slot_unique hu hv hr ho := hslots _ hu _ hv hr ho

/-- A hash names one vertex of the run. -/
lemma History.eq_of_hash (hU : History committee U) (hslots : SlotsUnique U) {u v : Vertex}
    (hu : u ∈ U) (hv : v ∈ U) (h : u.hash = v.hash) : u = v := by
  obtain ⟨ho, hr⟩ := hU.hashesInjective u hu v hv h
  exact hslots u hu v hv hr ho

end Network

/-! ## Views -/

/-- A DAG that holds vertices of `U` only, each in its slot, and the parents of all it holds. -/
structure Dag.ViewOf (U : List Vertex) (g : Dag) : Prop where
  wellSlotted : g.WellSlotted
  stored : ∀ v ∈ g.vertices, v ∈ U
  closed : g.Closed

namespace Dag.ViewOf

open Network

variable {committee : Committee} {U : List Vertex} (hU : History committee U)
  (hslots : SlotsUnique U) {g : Dag} {u v w : Vertex}

/-- A parent in the graph of a vertex of the DAG is in the DAG. -/
lemma parent_mem (hg : g.ViewOf U) (hv : v ∈ g.vertices)
    (h : (hU.graph hslots).parent v u) : u ∈ g.vertices := by
  obtain ⟨-, hu, he⟩ := h
  obtain ⟨x, hx, hxh, -⟩ := hg.wellSlotted.containsVertices_iff.mp (hg.closed v hv) _ he
  rw [← hU.eq_of_hash hslots (hg.stored x hx) hu hxh]
  exact hx

/-- **A DAG of a run is a view** of the causal graph of the run. -/
lemma isView (hg : g.ViewOf U) : (hU.graph hslots).IsView {v | v ∈ g.vertices} :=
  ⟨fun v hv => hg.stored v hv, fun _ hv _ h => hg.parent_mem hU hslots hv h⟩

/-- One edge inside the DAG is one edge of the graph into the DAG. -/
lemma edge_iff (hg : g.ViewOf U) (hv : v ∈ g.vertices) :
    u ∈ g.vertices ∧ (u.hash, u.round) ∈ v.parents.entries ↔
      u ∈ g.vertices ∧ (hU.graph hslots).parent v u :=
  and_congr_right fun hu =>
    ⟨fun he => ⟨hg.stored v hv, hg.stored u hu, he⟩, fun h => h.2.2⟩

/-- **Ancestors in a DAG are ancestors in the graph**, for the vertices of the DAG. -/
theorem ancestor_iff (hg : g.ViewOf U) (hv : v ∈ g.vertices) :
    g.Ancestor v u ↔ (hU.graph hslots).Reaches v u := by
  rw [← (hg.isView hU hslots).reaches_iff hv]
  unfold Dag.Ancestor
  constructor
  · intro h
    have key : TransGen (fun a b => b ∈ g.vertices ∧ (hU.graph hslots).parent a b) v u ∧
        u ∈ g.vertices := by
      induction h with
      | single h => exact ⟨TransGen.single ((hg.edge_iff hU hslots hv).mp h), h.1⟩
      | tail _ h ih => exact ⟨ih.1.tail ((hg.edge_iff hU hslots ih.2).mp h), h.1⟩
    exact key.1
  · exact TransGen.mono (fun a b h => ⟨h.1, h.2.2.2⟩) v u

/-! ## The search -/

/-- The search stops at the children of `oldest`. -/
lemma isGoal_iff (hg : g.ViewOf U) (hv : v ∈ g.vertices) (hu : u ∈ g.vertices) :
    isGoal u v = true ↔ (hU.graph hslots).parent v u := by
  unfold isGoal
  rw [List.any_eq_true]
  constructor
  · intro h
    obtain ⟨e, he, heq⟩ := h
    have hhash : e.1 = u.hash := of_decide_eq_true heq
    obtain ⟨x, hx, hxh, hxr⟩ := (hU.valid v (hg.stored v hv)).named e he
    have hxu : x = u := hU.eq_of_hash hslots hx (hg.stored u hu) (hxh.trans hhash)
    have hentry : e = (u.hash, u.round) := Prod.ext hhash (hxr.symm.trans (by rw [hxu]))
    exact ⟨hg.stored v hv, hg.stored u hu, hentry ▸ he⟩
  · intro h
    exact ⟨_, h.2.2, decide_eq_true rfl⟩

/-- The search pushes the parents above the round of `oldest`. -/
lemma mem_pushed_iff (hg : g.ViewOf U) (hv : v ∈ g.vertices) :
    w ∈ g.pushed u v ↔ (hU.graph hslots).parent v w ∧ u.round < w.round := by
  unfold pushed
  rw [List.mem_filterMap]
  constructor
  · intro h
    obtain ⟨e, he, hw⟩ := h
    split_ifs at hw with hr
    obtain ⟨hwg, hwh, hwr⟩ := hg.wellSlotted.of_getVertex hw
    have hentry : (w.hash, w.round) = e := Prod.ext hwh hwr
    exact ⟨⟨hg.stored v hv, hg.stored w hwg, hentry ▸ he⟩, hwr ▸ hr⟩
  · intro h
    obtain ⟨hparent, hr⟩ := h
    refine ⟨_, hparent.2.2, ?_⟩
    have hwg : w ∈ g.vertices := hg.parent_mem hU hslots hv hparent
    obtain ⟨x, hx⟩ := hg.wellSlotted.exists_getVertex hwg
    obtain ⟨hxg, hxh, -⟩ := hg.wellSlotted.of_getVertex hx
    have hxw : x = w := hU.eq_of_hash hslots (hg.stored x hxg) (hg.stored w hwg) hxh
    rw [if_pos hr, hx, hxw]

/-- The search finds `oldest` iff it is an ancestor.

**Proof sketch.** A path that ends in `oldest` stays above its round until the last edge, so the
search does not leave it; and every path of the search is a path. -/
lemma finds_iff (hg : g.ViewOf U) (hv : v ∈ g.vertices) (hu : u ∈ g.vertices) :
    StackSearch.Finds (isGoal u) (g.pushed u) v ↔ (hU.graph hslots).Reaches v u := by
  constructor
  · intro h
    obtain ⟨b, hvb, hb⟩ := h
    induction hvb using ReflTransGen.head_induction_on with
    | refl => exact TransGen.single ((hg.isGoal_iff hU hslots hv hu).mp hb)
    | head hstep _ ih =>
      obtain ⟨hparent, -⟩ := (hg.mem_pushed_iff hU hslots hv).mp hstep
      exact TransGen.head hparent (ih (hg.parent_mem hU hslots hv hparent))
  · intro h
    induction h using TransGen.head_induction_on with
    | single h => exact StackSearch.finds_iff.mpr (Or.inl ((hg.isGoal_iff hU hslots hv hu).mpr h))
    | head h hreach ih =>
      have hb := hg.parent_mem hU hslots hv h
      have hr : u.round < _ := CausalGraph.Reaches.round_lt hreach
      exact StackSearch.finds_iff.mpr
        (Or.inr ⟨_, (hg.mem_pushed_iff hU hslots hv).mpr ⟨h, hr⟩, ih hb⟩)

/-- **The search decides reachability** between vertices of the DAG. -/
theorem isLinked_computes [Decidable ((hU.graph hslots).Reaches v u)] (hg : g.ViewOf U)
    (hv : v ∈ g.vertices) (hu : u ∈ g.vertices) :
    Fuel.Computes (fun fuel => g.isLinked fuel v u)
      (decide ((hU.graph hslots).Reaches v u)) := by
  unfold isLinked isLinkedInternal
  by_cases hr : v.round > u.round
  · simp only [if_pos hr, searchLoop_eq]
    refine StackSearch.search_computes (fun a => a ∈ g.vertices) Vertex.round ?_
      hv ?_
    · intro a ha b hb
      obtain ⟨hparent, -⟩ := (hg.mem_pushed_iff hU hslots ha).mp hb
      exact ⟨hg.parent_mem hU hslots ha hparent, (hU.graph hslots).round_lt hparent⟩
    · rw [decide_eq_true_iff]
      exact (hg.finds_iff hU hslots hv hu).symm
  · have hnot : ¬ (hU.graph hslots).Reaches v u := fun h => hr h.round_lt
    simp only [if_neg hr, decide_eq_false hnot]
    exact Fuel.Computes.pure false

end Dag.ViewOf

/-! ## Nodes agree on shared histories -/

namespace Network

variable {P : Platform} {committee : Committee} {es : List NetworkEvent}
  {N S S' : Network} {A B : Node} {u v : Vertex}

/-- The DAG of a node inside a run is a view of the vertices of the run. -/
lemma IsRun.viewOf (h : IsRun P committee es N)
    (hround : Run.Throughout (step P) NotWrapped (init P committee) es)
    (hS : Run.Visits (step P) (init P committee) es S) (hA : A ∈ S.nodes) :
    A.dag.ViewOf (N.vertices P committee) := by
  obtain ⟨nodeId, hbasic⟩ := (h.honest hS hA).basic
  exact ⟨hbasic.wellSlotted, (h.honest hS hA).stored, h.closed hround hS hA⟩

/-- **Nodes agree on the history of a vertex they share.** At any two points of a run, let two
nodes store `v`, and the first store `u`. If `u` is an ancestor of `v`, the second stores it as
well; and if the second stores `u`, the search from `v` for `u` ends with the same answer at
both.

**Proof sketch.** Both DAGs are views of the causal graph of the run, so they hold the history
of `v`, and both searches decide reachability in that graph. -/
theorem views_agree (h : IsRun P committee es N)
    (hround : Run.Throughout (step P) NotWrapped (init P committee) es)
    (hS : Run.Visits (step P) (init P committee) es S)
    (hS' : Run.Visits (step P) (init P committee) es S')
    (hA : A ∈ S.nodes) (hB : B ∈ S'.nodes)
    (hvA : v ∈ A.dag.vertices) (hvB : v ∈ B.dag.vertices) (huA : u ∈ A.dag.vertices) :
    (A.dag.Ancestor v u → u ∈ B.dag.vertices) ∧
    (u ∈ B.dag.vertices → ∃ answer, Fuel.Computes (fun fuel => A.dag.isLinked fuel v u) answer ∧
      Fuel.Computes (fun fuel => B.dag.isLinked fuel v u) answer) := by
  classical
  have hslots := h.slotsUnique hround
  have hviewA := h.viewOf hround hS hA
  have hviewB := h.viewOf hround hS' hB
  refine ⟨fun hanc => ?_, fun huB => ?_⟩
  · have hreach := (hviewA.ancestor_iff h.history hslots hvA).mp hanc
    exact (hviewB.isView h.history hslots).mem_of_reaches hvB hreach
  · exact ⟨_, hviewA.isLinked_computes h.history hslots hvA huA,
      hviewB.isLinked_computes h.history hslots hvB huB⟩

/-- Two of four nodes that share a vertex of round `4` but not the whole round: what they say
about an ancestor of it in round `2`. -/
theorem views_agree_four :
    ∃ N A B, IsRun Sample.platform Sample.four (Sample.fourNodes [1, 2, 3] [2, 3, 4]) N ∧
      A ∈ N.nodes ∧ B ∈ N.nodes ∧ A.dag.vertices ≠ B.dag.vertices ∧
      (A.dag.Ancestor (Sample.vertex 4 [1, 2, 3] 2) (Sample.vertex 2 [1, 2, 3, 4] 1) →
        Sample.vertex 2 [1, 2, 3, 4] 1 ∈ B.dag.vertices) ∧
      ∃ answer, Fuel.Computes (fun fuel => A.dag.isLinked fuel (Sample.vertex 4 [1, 2, 3] 2)
          (Sample.vertex 2 [1, 2, 3, 4] 1)) answer ∧
        Fuel.Computes (fun fuel => B.dag.isLinked fuel (Sample.vertex 4 [1, 2, 3] 2)
          (Sample.vertex 2 [1, 2, 3, 4] 1)) answer := by
  obtain ⟨N, A, B, h, hA, hB, ⟨hvA, huA, hvB, huB, hne⟩⟩ := exists_isRun Sample.platform
    Sample.four (Sample.fourNodes [1, 2, 3] [2, 3, 4]) 0 1
    (fun A B => Sample.vertex 4 [1, 2, 3] 2 ∈ A.dag.vertices ∧
      Sample.vertex 2 [1, 2, 3, 4] 1 ∈ A.dag.vertices ∧
      Sample.vertex 4 [1, 2, 3] 2 ∈ B.dag.vertices ∧
      Sample.vertex 2 [1, 2, 3, 4] 1 ∈ B.dag.vertices ∧ A.dag.vertices ≠ B.dag.vertices)
    (by decide) (by decide +kernel)
  have hround : Run.Throughout (step Sample.platform) NotWrapped
      (init Sample.platform Sample.four) (Sample.fourNodes [1, 2, 3] [2, 3, 4]) := by
    decide +kernel
  have hA := List.mem_of_getElem? hA
  have hB := List.mem_of_getElem? hB
  obtain ⟨hanc, hanswer⟩ := views_agree h hround (Run.Visits.last h.exec)
    (Run.Visits.last h.exec) hA hB hvA hvB huA
  exact ⟨N, A, B, h, hA, hB, hne, hanc, hanswer huB⟩

end Network

end DagRider
