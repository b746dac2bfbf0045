import DagRider.Agreement.History
import DagRider.Node.WeakEdges

set_option relaxedAutoImplicit false
set_option autoImplicit false

/-!
# The vertices that the nodes broadcast

In a run of the network the DAG of every node is consistent, so what a node broadcasts has the
vertices of the round below as its strong parents, and covers the rounds from three below it down,
with no weak edge too many. The round in between is left to the strong parents: a vertex of it that
none of them has as a parent is not reached.

## Main definitions

* `DagRider.Network.Creates` — somewhere in the run a node broadcasts a vertex.
* `DagRider.Network.ReachesBelow`, `DagRider.Network.NoGap` — what is broadcast reaches everything
  below it; every vertex two rounds below has a child.
* `DagRider.Node.WellFormed` — strong parents, weak edges, and none of these too many.

## Main results

* `DagRider.Network.reachesBelow_iff_noGap` — when everything below is reached.
* `DagRider.Network.broadcasts_wellFormed` — what is broadcast is well formed, and is admitted.
-/

namespace DagRider

open Relation GreedyCover

/-! ## One node -/

namespace Node

variable {P : Platform} {A : Node} {e : NodeEvent} {u v w : Vertex}

/-- The vertices of the round below become parents. -/
lemma Broadcasts.mem_storedParents (h : A.Broadcasts P e v) (hA : A.Consistent)
    (hu : u ∈ A.dag.vertices) (hr : u.round + 1 = v.round) : u ∈ A.dag.storedParents v := by
  rw [h.round_eq hA.dag.wellSlotted] at hr
  exact (h.cover hA).subset ((mem_roundBelow (by omega)).mpr ⟨hu, hr⟩)

/-- A stored parent is of the round below, or of a round from three below on. -/
lemma Broadcasts.round_of_parent (h : A.Broadcasts P e v) (hA : A.Consistent) (h1 : 1 ≤ v.round)
    (hu : u ∈ A.dag.storedParents v) :
    u.round + 1 = v.round ∨ 1 ≤ u.round ∧ u.round + 3 ≤ v.round := by
  rw [h.round_eq hA.dag.wellSlotted] at h1 ⊢
  rcases (h.cover hA).mem_or_mem hu with hbelow | hdown
  · exact Or.inl ((mem_roundBelow h1).mp hbelow).2
  · obtain ⟨-, hpos, hle⟩ := hA.dag.wellSlotted.mem_downFrom.mp hdown
    exact Or.inr ⟨hpos, by omega⟩

/-- **When a new vertex reaches everything below it**: if and only if every stored vertex two rounds
below it is a parent of a stored vertex of the round between.

**Proof sketch.** The rounds from three below on are covered by the loop, and the round below
becomes the strong parents. A path to a vertex two rounds below goes down the rounds, so it ends
with an edge from the round between; the new vertex itself has no edge there. -/
theorem Broadcasts.reaches_below_iff (h : A.Broadcasts P e v) (hA : A.Consistent) :
    (∀ u ∈ A.dag.vertices, 1 ≤ u.round → u.round < v.round → A.dag.Ancestor v u) ↔
    ∀ u ∈ A.dag.vertices, 1 ≤ u.round → u.round + 2 = A.consensus.nextRound →
      ∃ w ∈ A.dag.vertices, w.round = u.round + 1 ∧ (u.hash, u.round) ∈ w.parents.entries := by
  have hround := h.round_eq hA.dag.wellSlotted
  have hcover := h.cover hA
  constructor
  · intro hall u hu h1 htwo
    obtain ⟨w, hedge, hpath⟩ := Dag.ancestor_iff_covers.mp (hall u hu h1 (by omega))
    -- the last edge of the path
    rcases ReflTransGen.cases_tail hpath with rfl | ⟨x, hwx, hxu⟩
    · rcases h.round_of_parent hA (by omega) hedge with hr | ⟨-, hr⟩ <;> omega
    · have hx : x ∈ A.dag.vertices ∧ x.round ≤ w.round := by
        by_cases heq : w = x
        · exact heq ▸ ⟨hedge.1, le_rfl⟩
        · refine ⟨?_, (hA.dag.round_lt_of_reach hedge.1 hwx heq).le⟩
          obtain ⟨y, -, hyx⟩ := (ReflTransGen.cases_tail hwx).resolve_left (Ne.symm heq)
          exact hyx.1
      have hlow : u.round < x.round := (hA.dag.fits x hx.1 _ hxu.2).1
      refine ⟨x, hx.1, ?_, hxu.2⟩
      rcases h.round_of_parent hA (by omega) hedge with hr | ⟨-, hr⟩ <;> omega
  · intro hgap u hu h1 hlt
    rw [Dag.ancestor_iff_covers]
    have hthree : u.round ≤ A.consensus.nextRound - 3 ∨ u.round + 2 = A.consensus.nextRound ∨
        u.round + 1 = A.consensus.nextRound := by omega
    rcases hthree with hr | hr | hr
    · exact hcover.covers (fun w _ => ReflTransGen.refl) u
        (hA.dag.wellSlotted.mem_downFrom.mpr ⟨hu, h1, hr⟩)
    · obtain ⟨w, hw, hwr, hedge⟩ := hgap u hu h1 hr
      exact ⟨w, h.mem_storedParents hA hw (by omega), ReflTransGen.single ⟨hu, hedge⟩⟩
    · exact ⟨u, h.mem_storedParents hA hu (by omega), ReflTransGen.refl⟩

/-- A vertex as `A` broadcasts it: its strong parents are the vertices stored in the round below, at
least `minQuorum` of them; every other parent is a vertex stored in the recorded round, at least
three rounds below; and without the edge to such a parent the parent is not reached. -/
structure WellFormed (A : Node) (v : Vertex) : Prop where
  strong : ∀ p, p ∈ v.getStrongParents.entries ↔
    ∃ u ∈ A.dag.vertices, u.round + 1 = v.round ∧ p = (u.hash, u.round)
  quorum : A.dag.minQuorum ≤ v.getStrongParents.entries.length
  weak : ∀ p ∈ v.parents.entries, p ∉ v.getStrongParents.entries →
    1 ≤ p.2 ∧ p.2 + 3 ≤ v.round ∧ ∃ u ∈ A.dag.vertices, p = (u.hash, u.round)
  irredundant : ∀ u ∈ A.dag.vertices, (u.hash, u.round) ∈ v.parents.entries →
    (u.hash, u.round) ∉ v.getStrongParents.entries →
    ¬ A.dag.Ancestor { v with parents := v.parents.erase u.hash } u

/-- A stored parent is strong iff it is of the round below. -/
lemma Broadcasts.strong_iff (h : A.Broadcasts P e v) (hA : A.Consistent) (h2 : 2 ≤ v.round)
    (hu : u ∈ A.dag.storedParents v) :
    (u.hash, u.round) ∈ v.getStrongParents.entries ↔ u.round + 1 = v.round := by
  have hlt := hA.round_lt u hu.1
  have hround := h.round_eq hA.dag.wellSlotted
  have hnext : A.consensus.nextRound < 2 ^ 32 := Nat.mod_lt _ (Nat.two_pow_pos 32)
  rw [Vertex.mem_getStrongParents]
  unfold Vertex.isPreviousRound
  rw [decide_eq_true_iff, and_iff_right hu.2]
  show (v.round + 2 ^ 64 - u.round) % 2 ^ 64 = 1 ↔ _
  omega

/-- The strong parents are the vertices of the round below. -/
lemma Broadcasts.mem_strong_iff (h : A.Broadcasts P e v) (hA : A.Consistent) (h2 : 2 ≤ v.round)
    (p : VertexHash × ℕ) : p ∈ v.getStrongParents.entries ↔
      ∃ u ∈ A.dag.vertices, u.round + 1 = v.round ∧ p = (u.hash, u.round) := by
  constructor
  · intro hp
    obtain ⟨u, hu, rfl⟩ :=
      h.parents_stored hA.dag.wellSlotted p (Vertex.mem_getStrongParents.mp hp).1
    exact ⟨u, hu.1, (h.strong_iff hA h2 hu).mp hp, rfl⟩
  · rintro ⟨u, hu, hur, rfl⟩
    have hparent := h.mem_storedParents hA hu hur
    exact (h.strong_iff hA h2 hparent).mpr hur

/-- Every other parent is a stored vertex at least three rounds below. -/
lemma Broadcasts.weak_spec (h : A.Broadcasts P e v) (hA : A.Consistent) (h2 : 2 ≤ v.round)
    {p : VertexHash × ℕ} (hp : p ∈ v.parents.entries) (hweak : p ∉ v.getStrongParents.entries) :
    1 ≤ p.2 ∧ p.2 + 3 ≤ v.round ∧ ∃ u ∈ A.dag.vertices, p = (u.hash, u.round) := by
  obtain ⟨u, hu, rfl⟩ := h.parents_stored hA.dag.wellSlotted p hp
  rcases h.round_of_parent hA (by omega) hu with hr | ⟨hpos, hle⟩
  · exact absurd ((h.strong_iff hA h2 hu).mpr hr) hweak
  · exact ⟨hpos, hle, u, hu.1, rfl⟩

/-- Without the edge to a weak parent, the parent is not reached.

**Proof sketch.** It is not of the round below, so the loop added it, and what a greedy cover adds
the rest does not reach (`GreedyCover.Loop.irredundant`). -/
lemma Broadcasts.not_ancestor_erase (h : A.Broadcasts P e v) (hA : A.Consistent)
    (h2 : 2 ≤ v.round) (hu : u ∈ A.dag.storedParents v)
    (hweak : (u.hash, u.round) ∉ v.getStrongParents.entries) :
    ¬ A.dag.Ancestor { v with parents := v.parents.erase u.hash } u := by
  have hslot := hA.dag.wellSlotted
  have hround := h.round_eq hslot
  have hnot : u ∉ A.roundBelow := by
    intro hbelow
    have hr := ((mem_roundBelow (by omega)).mp hbelow).2
    exact hweak ((h.strong_iff hA h2 hu).mpr (hr.trans hround.symm))
  have hrank : ∀ a ∈ A.dag.downFrom (A.consensus.nextRound - 3), ∀ b,
      ReflTransGen A.dag.Edge a b → a ≠ b → b.round < a.round := fun a ha b hab hne =>
    hA.dag.round_lt_of_reach (hslot.mem_downFrom.mp ha).1 hab hne
  have hirr := (h.cover hA).irredundant hrank hslot.pairwise_downFrom u hu hnot
  rw [Dag.ancestor_iff_covers]
  refine fun hcov => hirr (hcov.mono ?_)
  rintro w ⟨hw, he⟩
  obtain ⟨he, hne⟩ := OrderedMap.mem_erase.mp he
  exact ⟨⟨hw, he⟩, fun heq => hne (congrArg Vertex.hash heq)⟩

/-- **A node of a late enough round that stores the parents admits the vertex.** -/
lemma Broadcasts.admitted (h : A.Broadcasts P e v) (hA : A.dag.WellSlotted) {B : Node}
    (hB : B.dag.WellSlotted) (hr : v.round ≤ B.currentRound)
    (hparents : ∀ u ∈ A.dag.storedParents v, u ∈ B.dag.vertices) :
    B.consensus.isAdmissible v = true ∧ v ∈ (B.consensus.scanVertex P v).state.dag.vertices := by
  have hadm : B.consensus.isAdmissible v = true := by
    unfold Consensus.isAdmissible
    rw [Bool.and_eq_true, decide_eq_true_iff]
    refine ⟨hr, hB.containsVertices_iff.mpr fun p hp => ?_⟩
    obtain ⟨u, hu, rfl⟩ := h.parents_stored hA p hp
    exact ⟨u, hparents u hu, rfl, rfl⟩
  refine ⟨hadm, ?_⟩
  rcases Consensus.scanVertex_cases P B.consensus v with ⟨-, hscan⟩ | ⟨hfalse, -⟩
  · rw [hscan]
    exact (Dag.mem_insertVertex hB).mpr (Or.inl rfl)
  · exact absurd (hadm.symm.trans hfalse) (by decide)

end Node

namespace Network

variable {P : Platform} {committee : Committee} {es : List NetworkEvent}
  {N S S' : Network} {A B : Node} {u v : Vertex}

/-! ## The nodes of a run -/

/-- **Every node inside a run is consistent**, wrapped or not: hashes name owners and rounds in the
run, and the parents of its vertices are lower. -/
theorem IsRun.consistent (h : IsRun P committee es N)
    (hS : Run.Visits (step P) (init P committee) es S) (hA : A ∈ S.nodes) : A.Consistent := by
  have hU := h.history
  have hstored := (h.honest hS hA).stored
  obtain ⟨nodeId, hbasic⟩ := (h.honest hS hA).basic
  refine ⟨⟨hbasic.wellSlotted, fun u hu v hv huv => ?_, fun v hv e he => ⟨?_, fun u hu hue => ?_⟩⟩,
    hbasic.round_lt, fun u hu => hU.round_lt u (hstored u hu)⟩
  · obtain ⟨ho, hr⟩ := hU.hashesInjective u (hstored u hu) v (hstored v hv) huv
    exact hbasic.wellSlotted.slot_unique hu hv hr ho
  · exact (hU.valid v (hstored v hv)).lower e he
  · obtain ⟨x, hx, hxe, hxr⟩ := (hU.valid v (hstored v hv)).named e he
    exact (hU.hashesInjective u (hstored u hu) x hx (hue.trans hxe.symm)).2.trans hxr

/-- Somewhere in the run the node `A` takes a step that broadcasts `v`. -/
def Creates (P : Platform) (committee : Committee) (es : List NetworkEvent) (A : Node)
    (v : Vertex) : Prop :=
  ∃ p e S, p ++ [e] <+: es ∧ Run.exec (step P) (init P committee) p = some S ∧
    S.nodes[e.node]? = some A ∧ A.Broadcasts P e.event v

/-- The node and the vertex of such a step: the node is inside the run before and after, and the
vertex is one of the run. -/
lemma IsRun.of_creates (h : IsRun P committee es N) (hv : Creates P committee es A v) :
    ∃ S S' A' e, Run.Visits (step P) (init P committee) es S ∧ A ∈ S.nodes ∧
      Run.Visits (step P) (init P committee) es S' ∧ A' ∈ S'.nodes ∧
      A.step P e = some A' ∧ A.Broadcasts P e v ∧ v ∈ N.vertices P committee := by
  obtain ⟨p, e, S, hp, hS, hA, hbroad⟩ := hv
  obtain ⟨S', q, -, hstep, hrest⟩ := Run.step_of_exec h.exec hp hS
  have hS' := Run.exec_concat_eq_some.mpr ⟨S, hS, hstep⟩
  obtain ⟨old, new, hold, -, hnew, rfl⟩ := step_cases hstep
  obtain rfl : A = old := Option.some.inj (hA.symm.trans hold)
  have hlen : e.node < S.nodes.length := (List.getElem?_eq_some_iff.mp hA).1
  have hmem : new ∈ S.nodes.set e.node new := List.mem_set hlen new
  have hpre : p <+: es := (List.prefix_append p [e]).trans hp
  refine ⟨S, _, new, e.event, ⟨p, hpre, hS⟩, List.mem_of_getElem? hA, ⟨p ++ [e], hp, hS'⟩,
    hmem, hnew, hbroad, List.mem_append_right _ (sent_exec hrest ?_)⟩
  obtain ⟨nd', hnd', hsent⟩ := hbroad
  obtain rfl : new = nd' := Option.some.inj (hnew.symm.trans hnd')
  refine mem_sent.mpr ⟨e.node, new, List.getElem?_set_self hlen, ?_⟩
  rw [hsent]
  exact List.mem_append_right _ List.mem_cons_self

/-! ## Everything below is reached, where no gap is left -/

/-- What the event broadcasts reaches everything that its creator stores in lower rounds. -/
def ReachesBelow (P : Platform) (S : Network) (e : NetworkEvent) : Prop :=
  ∀ A ∈ S.nodes[e.node]?, ∀ v, A.Broadcasts P e.event v →
    ∀ u ∈ A.dag.vertices, 1 ≤ u.round → u.round < v.round → A.dag.Ancestor v u

/-- When the event makes a node broadcast, every vertex that the node stores two rounds below the
next one is a parent of a vertex that it stores in the round between. -/
def NoGap (P : Platform) (S : Network) (e : NetworkEvent) : Prop :=
  ∀ A ∈ S.nodes[e.node]?, (∃ v, A.Broadcasts P e.event v) →
    ∀ u ∈ A.dag.vertices, 1 ≤ u.round → u.round + 2 = A.consensus.nextRound →
      ∃ w ∈ A.dag.vertices, w.round = u.round + 1 ∧ (u.hash, u.round) ∈ w.parents.entries

/-- At one step of a run. -/
lemma IsRun.reachesBelow_iff (h : IsRun P committee es N)
    (hS : Run.Visits (step P) (init P committee) es S) (e : NetworkEvent) :
    ReachesBelow P S e ↔ NoGap P S e := by
  unfold ReachesBelow NoGap
  refine forall₂_congr fun A hA => ?_
  have hconsistent := h.consistent hS (List.mem_of_getElem? hA)
  constructor
  · rintro hreach ⟨v, hv⟩
    exact (hv.reaches_below_iff hconsistent).mp (hreach v hv)
  · intro hgap v hv
    exact (hv.reaches_below_iff hconsistent).mpr (hgap ⟨v, hv⟩)

/-- **Exactly when what is broadcast reaches everything below it.** Over a run of the network: at
every step every vertex that is broadcast has a path of parent edges to all that its creator stores
in lower rounds, if and only if at every step that broadcasts, no vertex stored two rounds below the
new one is without a child in the round between.

**Proof sketch.** At each step, `Node.Broadcasts.reaches_below_iff`. -/
theorem reachesBelow_iff_noGap (h : IsRun P committee es N) :
    Run.Along (step P) (ReachesBelow P) (init P committee) es ↔
      Run.Along (step P) (NoGap P) (init P committee) es := by
  rw [Run.along_iff, Run.along_iff]
  refine forall₃_congr fun p e S => forall₂_congr fun hp hS => ?_
  exact h.reachesBelow_iff ⟨p, (List.prefix_append p [e]).trans hp, hS⟩ e

/-- Four nodes that come to round `4` with what was sent by three of them, and leave no gap. -/
theorem reachesBelow_iff_noGap_four :
    ∃ N A, IsRun Sample.platform Sample.four Sample.toRoundFour N ∧ A ∈ N.nodes ∧
      A.currentRound = 4 ∧ Run.Along (step Sample.platform) (ReachesBelow Sample.platform)
        (init Sample.platform Sample.four) Sample.toRoundFour := by
  obtain ⟨N, A, -, h, hA, -, hfour⟩ := exists_isRun Sample.platform Sample.four
    Sample.toRoundFour 0 0 (fun A _ => A.currentRound = 4) (by decide) (by decide +kernel)
  have hchildren : Run.Throughout (step Sample.platform) (fun S => ∀ A ∈ S.nodes,
      A.consensus.canAdvance = true → ∀ u ∈ A.dag.vertices,
        u.round + 2 = A.consensus.nextRound → ∃ w ∈ A.dag.vertices, w.round = u.round + 1 ∧
          ∃ e ∈ w.parents.entries, e.1 = u.hash ∧ e.2 = u.round)
      (init Sample.platform Sample.four) Sample.toRoundFour := by decide +kernel
  refine ⟨N, A, h, List.mem_of_getElem? hA, hfour, (reachesBelow_iff_noGap h).mpr ?_⟩
  refine hchildren.along fun p e S hp hS hchild A hA hbroad u hu _ htwo => ?_
  obtain ⟨v, hv⟩ := hbroad
  have hpre : p <+: Sample.toRoundFour := (List.prefix_append p [e]).trans hp
  have hA := List.mem_of_getElem? hA
  have hcan := (hv.loop (h.consistent ⟨p, hpre, hS⟩ hA).dag.wellSlotted).1
  obtain ⟨w, hw, hwr, e, he, heh, her⟩ := hchild A hA hcan u hu htwo
  have hentry : (u.hash, u.round) = e := Prod.ext heh.symm her.symm
  exact ⟨w, hw, hwr, hentry ▸ he⟩

/-- Four nodes come to round `3`, and the first receives the vertices of round `3` by three owners
together with the vertex of round `2` by the fourth. -/
def lateVertex : List NetworkEvent :=
  Sample.eventsAtAll (Sample.pass []) ++
    Sample.eventsAtAll (Sample.pass (Sample.second [1, 2, 3])) ++
    Sample.eventsAt 0 (Sample.pass
      (Sample.vertex 2 [1, 2, 3, 4] 4 :: [1, 2, 3].map (Sample.vertex 3 [1, 2, 3]))).dropLast

/-- Then it broadcasts a vertex of round `4`, which does not reach the late vertex. -/
theorem late_vertex_unreached :
    ∃ N A, IsRun Sample.platform Sample.four (lateVertex ++ [⟨0, .finish 100⟩]) N ∧
      Creates Sample.platform Sample.four (lateVertex ++ [⟨0, .finish 100⟩]) A
        (Sample.vertex 4 [1, 2, 3] 1) ∧
      Sample.vertex 2 [1, 2, 3, 4] 4 ∈ A.dag.vertices ∧
      ¬ A.dag.Ancestor (Sample.vertex 4 [1, 2, 3] 1) (Sample.vertex 2 [1, 2, 3, 4] 4) := by
  obtain ⟨N, -, -, h, -⟩ := exists_isRun Sample.platform Sample.four
    (lateVertex ++ [⟨0, .finish 100⟩]) 0 0 (fun _ _ => True) (by decide) (by decide +kernel)
  obtain ⟨S, hS, hp⟩ : ∃ S : Network,
      Run.exec (step Sample.platform) (init Sample.platform Sample.four) lateVertex = some S ∧
      decide (∃ A : Node, A ∈ S.nodes[0]? ∧ Sample.vertex 2 [1, 2, 3, 4] 4 ∈ A.dag.vertices ∧
        (∃ A' : Node, A' ∈ A.step Sample.platform (.finish 100) ∧ A'.consensus.vertexToBroadcast =
          A.consensus.vertexToBroadcast ++ [Sample.vertex 4 [1, 2, 3] 1]) ∧
        A.dag.isLinked 100 (Sample.vertex 4 [1, 2, 3] 1) (Sample.vertex 2 [1, 2, 3, 4] 4) =
          some false ∧
        ∀ e ∈ (Sample.vertex 4 [1, 2, 3] 1).parents.entries, e.2 < 4 ∧
          ∀ u ∈ A.dag.vertices, u.hash = e.1 → u.round = e.2) = true :=
    Run.exists_exec_of_any (by decide +kernel)
  obtain ⟨A, hA, hlate, ⟨A', hstep, hsent⟩, hsearch, hfits⟩ := of_decide_eq_true hp
  have hconsistent := h.consistent ⟨_, List.prefix_append _ _, hS⟩ (List.mem_of_getElem? hA)
  refine ⟨N, A, h, ⟨_, _, S, List.prefix_rfl, hS, hA, A', hstep, hsent⟩, hlate, fun hanc => ?_⟩
  have hlinked := (hconsistent.dag.linked_iff_ancestor hfits hlate).mpr hanc
  exact absurd ((Dag.answer_iff_linked hsearch).mpr hlinked) (by decide)

/-! ## What is broadcast is well formed -/

/-- Where no counter wraps, a vertex that is broadcast is of a round from `2` on. -/
lemma IsRun.two_le_round (h : IsRun P committee es N)
    (hround : Run.Throughout (step P) NotWrapped (init P committee) es)
    (hv : Creates P committee es A v) : 2 ≤ v.round := by
  obtain ⟨S, S', A', e, hS, hA, hS', hA', hstep, hbroad, -⟩ := h.of_creates hv
  have hconsistent := h.consistent hS hA
  have hbefore : A.currentRound ≠ 0 := Run.throughout_iff_visits.mp hround S hS A hA
  have hafter : A'.currentRound ≠ 0 := Run.throughout_iff_visits.mp hround S' hS' A' hA'
  have hlt := hconsistent.currentRound_lt
  rw [hbroad.round_eq hconsistent.dag.wellSlotted]
  unfold Consensus.nextRound
  obtain ⟨nd', hnd', hsent⟩ := hbroad
  obtain rfl : A' = nd' := Option.some.inj (hstep.symm.trans hnd')
  rcases Node.quiet_or_advances hstep with hquiet | ⟨fuel, d, block, w, -, -, -, -, -, rfl⟩
  · rw [hquiet.vertexToBroadcast] at hsent
    exact absurd hsent (by simp)
  · have hnext : (A.currentRound + 1) % 2 ^ 32 ≠ 0 := hafter
    show 2 ≤ (A.currentRound + 1) % 2 ^ 32
    omega

/-- **What is broadcast is well formed, and admitted where its parents are.** In a run in which no
counter wraps, every vertex that a node broadcasts has the vertices stored in the round below as its
strong parents, at least `minQuorum` of them; every other parent is a vertex stored in the recorded
round, at least three rounds below; removing any one of these weak edges makes its target
unreachable; and every node, at any point of the run, that has come to the round of the vertex and
stores its parents admits it.

**Proof sketch.** The parents are a greedy cover that starts from the round below
(`Node.Broadcasts.cover`). For the quorum, every vertex of a run is valid. -/
theorem broadcasts_wellFormed (h : IsRun P committee es N)
    (hround : Run.Throughout (step P) NotWrapped (init P committee) es)
    (hv : Creates P committee es A v) :
    A.WellFormed v ∧ ∀ S' B, Run.Visits (step P) (init P committee) es S' → B ∈ S'.nodes →
      v.round ≤ B.currentRound →
      (∀ u ∈ A.dag.vertices, (u.hash, u.round) ∈ v.parents.entries → u ∈ B.dag.vertices) →
      B.consensus.isAdmissible v = true ∧
        v ∈ (B.consensus.scanVertex P v).state.dag.vertices := by
  have h2 := h.two_le_round hround hv
  obtain ⟨S, -, -, e, hS, hA, -, -, -, hbroad, hmem⟩ := h.of_creates hv
  have hconsistent := h.consistent hS hA
  obtain ⟨nodeId, hbasic⟩ := (h.honest hS hA).basic
  refine ⟨⟨hbroad.mem_strong_iff hconsistent h2, ?_, fun p hp => hbroad.weak_spec hconsistent h2 hp,
    fun u hu he => hbroad.not_ancestor_erase hconsistent h2 ⟨hu, he⟩⟩, ?_⟩
  · rw [hbasic.minQuorum_eq]
    exact (h.history.valid v hmem).strong h2
  · intro S' B hS' hB hr hparents
    exact hbroad.admitted hconsistent.dag.wellSlotted (h.consistent hS' hB).dag.wellSlotted hr
      fun u hu => hparents u hu.1 hu.2

/-- Four nodes come to round `4`, and the first receives the vertices of round `4` by three owners
together with the vertex of round `2` by the fourth. -/
def lateByTwo : List NetworkEvent :=
  Sample.toRoundFour ++ Sample.eventsAt 0 (Sample.pass
    (Sample.vertex 2 [1, 2, 3, 4] 4 :: [1, 2, 3].map (Sample.vertex 4 [1, 2, 3]))).dropLast

/-- The vertex of round `5` with three strong parents and a weak edge to the late vertex. -/
def lateChild : Vertex := (Sample.vertex 5 [1, 2, 3] 1).addEdge (Sample.vertex 2 [1, 2, 3, 4] 4)

/-- Then it broadcasts this vertex, which does not reach the late one without its weak edge. -/
theorem broadcasts_wellFormed_late :
    ∃ N A, IsRun Sample.platform Sample.four (lateByTwo ++ [⟨0, .finish 100⟩]) N ∧
      Creates Sample.platform Sample.four (lateByTwo ++ [⟨0, .finish 100⟩]) A lateChild ∧
      A.WellFormed lateChild ∧
      ∀ S' B, Run.Visits (step Sample.platform) (init Sample.platform Sample.four)
          (lateByTwo ++ [⟨0, .finish 100⟩]) S' → B ∈ S'.nodes → lateChild.round ≤ B.currentRound →
        (∀ u ∈ A.dag.vertices, (u.hash, u.round) ∈ lateChild.parents.entries →
          u ∈ B.dag.vertices) →
        B.consensus.isAdmissible lateChild = true ∧
          lateChild ∈ (B.consensus.scanVertex Sample.platform lateChild).state.dag.vertices := by
  obtain ⟨N, -, -, h, -⟩ := exists_isRun Sample.platform Sample.four
    (lateByTwo ++ [⟨0, .finish 100⟩]) 0 0 (fun _ _ => True) (by decide) (by decide +kernel)
  obtain ⟨S, hS, hp⟩ : ∃ S : Network, Run.exec (step Sample.platform)
        (init Sample.platform Sample.four) lateByTwo = some S ∧
      decide (∃ A : Node, A ∈ S.nodes[0]? ∧ ∃ A' : Node,
        A' ∈ A.step Sample.platform (.finish 100) ∧ A'.consensus.vertexToBroadcast =
          A.consensus.vertexToBroadcast ++ [lateChild]) = true :=
    Run.exists_exec_of_any (by decide +kernel)
  obtain ⟨A, hA, A', hstep, hsent⟩ := of_decide_eq_true hp
  have hcreates : Creates Sample.platform Sample.four (lateByTwo ++ [⟨0, .finish 100⟩]) A
    lateChild := ⟨_, _, S, List.prefix_rfl, hS, hA, A', hstep, hsent⟩
  have hround : Run.Throughout (step Sample.platform) NotWrapped
      (init Sample.platform Sample.four) (lateByTwo ++ [⟨0, .finish 100⟩]) := by
    decide +kernel
  exact ⟨N, A, h, hcreates, broadcasts_wellFormed h hround hcreates⟩

end Network

end DagRider
