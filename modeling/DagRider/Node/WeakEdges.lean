import DagRider.Lib.GreedyCover
import DagRider.Node.Parents
import DagRider.Search.Reachability

set_option relaxedAutoImplicit false
set_option autoImplicit false

/-!
# Weak edges

`setWeakEdges` goes down the rounds and records each vertex that the new vertex does not reach yet,
so it is a greedy cover (`GreedyCover`) in which the vertex that is searched from is the one that
grows. In a DAG where hashes name vertices and parents are in lower rounds, the search decides which
stored vertices the parents reach, and the parents in the end reach all that the loop came to, none
of them for nothing.

## Main definitions

* `DagRider.Dag.downFrom` — the vertices the loop comes to, in its order.
* `DagRider.Consensus.initialVertex` — the new vertex before the loop.
* `DagRider.Consensus.Sends`, `DagRider.Node.Broadcasts` — a call of `createNewVertex`, a step of a
  node, broadcasts a vertex.
* `DagRider.Dag.Consistent` — hashes name vertices, and parents are in lower rounds.

## Main results

* `DagRider.Consensus.Sends.loop`, `DagRider.Node.Broadcasts.loop` — how a vertex that is broadcast
  came about.
* `DagRider.Dag.Consistent.linked_iff_ancestor` — the search from a vertex that is not stored.
* `DagRider.Node.Broadcasts.cover` — its parents as a greedy cover by stored vertices.
-/

namespace DagRider

open Relation GreedyCover

/-! ## The loop -/

namespace Dag

variable {g : Dag} {u v : Vertex} {n : ℕ}

/-- The vertices of rounds `n, …, 1`, as the loop of `setWeakEdges` comes to them. -/
def downFrom (g : Dag) : ℕ → List Vertex
  | 0 => []
  | r + 1 => ((g.graph.find? (r + 1)).elim [] UnorderedMap.values) ++ g.downFrom r

/-- The vertices of one round. -/
lemma WellSlotted.mem_round (hg : g.WellSlotted) {r : ℕ} :
    u ∈ (g.graph.find? r).elim [] UnorderedMap.values ↔ u ∈ g.vertices ∧ u.round = r := by
  cases hf : g.graph.find? r with
  | none =>
    refine ⟨fun h => absurd h List.not_mem_nil, fun h => ?_⟩
    obtain ⟨hu, rfl⟩ := h
    obtain ⟨m, hm, -⟩ := hg.exists_slot hu
    exact absurd (hf.symm.trans hm) (by simp)
  | some m => exact hg.mem_values_iff hf

/-- The loop comes to everything stored in its rounds. -/
lemma WellSlotted.mem_downFrom (hg : g.WellSlotted) :
    u ∈ g.downFrom n ↔ u ∈ g.vertices ∧ 1 ≤ u.round ∧ u.round ≤ n := by
  induction n with
  | zero =>
    unfold downFrom
    refine ⟨fun h => absurd h List.not_mem_nil, fun h => ?_⟩
    omega
  | succ r ih =>
    unfold downFrom
    rw [List.mem_append, hg.mem_round, ih]
    constructor
    · rintro (⟨hu, hr⟩ | ⟨hu, h1, hr⟩)
      · exact ⟨hu, by omega, by omega⟩
      · exact ⟨hu, h1, by omega⟩
    · rintro ⟨hu, h1, hr⟩
      by_cases heq : u.round = r + 1
      · exact Or.inl ⟨hu, heq⟩
      · exact Or.inr ⟨hu, h1, by omega⟩

/-- The loop goes down the rounds. -/
lemma WellSlotted.pairwise_downFrom (hg : g.WellSlotted) :
    (g.downFrom n).Pairwise fun a b => b.round ≤ a.round := by
  induction n with
  | zero => exact List.Pairwise.nil
  | succ r ih =>
    unfold downFrom
    refine List.pairwise_append.mpr ⟨?_, ih, fun a ha b hb => ?_⟩
    · refine List.pairwise_of_forall_mem_list fun a ha b hb => ?_
      rw [(hg.mem_round.mp ha).2, (hg.mem_round.mp hb).2]
    · have hr := (hg.mem_downFrom.mp hb).2.2
      rw [(hg.mem_round.mp ha).2]
      omega

end Dag

/-- Record a vertex as a parent. -/
def Vertex.addEdge (v u : Vertex) : Vertex := v.addParent u.hash u.round

namespace Consensus

variable {P : Platform} {fuel : ℕ} {c : Consensus} {g : Dag} {v v' : Vertex}

/-- The loop of `setWeakEdges` is one fold over the vertices it comes to. -/
lemma setWeakEdgesFrom_eq (hg : g.WellSlotted) (n : ℕ) (v : Vertex) :
    setWeakEdgesFrom fuel g n v = (g.downFrom n).foldlM (fun v u =>
      (g.isLinked fuel v u).bind fun b => some (if b then v else v.addEdge u)) v := by
  induction n generalizing v with
  | zero => rfl
  | succ r ih =>
    have hround : setWeakEdgesInRound fuel g (r + 1) v =
        ((g.graph.find? (r + 1)).elim [] UnorderedMap.values).foldlM (fun v u =>
          (g.isLinked fuel v u).bind fun b => some (if b then v else v.addEdge u))
            v := by
      unfold setWeakEdgesInRound
      cases hf : g.graph.find? (r + 1) with
      | none => rfl
      | some m =>
        refine foldlM_congr_mem fun w u hu => ?_
        unfold Vertex.addEdge
        rw [((hg.mem_values_iff hf).mp hu).2]
        rfl
    unfold setWeakEdgesFrom Dag.downFrom
    rw [List.foldlM_append, hround]
    exact congrArg _ (funext fun w => ih w)

/-- **`setWeakEdges` is a greedy cover**, on every DAG: it adds the vertices that the search does
not reach from the vertex as it is when the loop comes to them. -/
theorem loop_of_setWeakEdgesFrom (hg : g.WellSlotted) {n : ℕ}
    (h : setWeakEdgesFrom fuel g n v = some v') :
    Loop g.Linked Vertex.addEdge v (g.downFrom n) v' := by
  rw [setWeakEdgesFrom_eq hg] at h
  exact loop_of_foldlM (fun _ _ _ hsearch => Dag.answer_iff_linked hsearch) h

/-- The loop changes the parents only. -/
lemma frame_of_loop {us : List Vertex}
    (h : Loop g.Linked Vertex.addEdge v us v') :
    v'.hash = v.hash ∧ v'.owner = v.owner ∧ v'.block = v.block ∧ v'.round = v.round := by
  refine h.invariant (I := fun w : Vertex => w.hash = v.hash ∧ w.owner = v.owner ∧
    w.block = v.block ∧ w.round = v.round) ?_ ⟨rfl, rfl, rfl, rfl⟩
  intro w u _ hw _
  exact hw

/-- The new vertex as `createNewVertex` constructs it: its parents are the strong ones. -/
def initialVertex (P : Platform) (c : Consensus) (round : ℕ) (block : Block) : Vertex :=
  Vertex.new P c.nodeId round block (c.state.dag.getVertices ((round + 2 ^ 64 - 1) % 2 ^ 64))

/-- A call of `createNewVertex` broadcasts `v`. -/
def Sends (P : Platform) (c : Consensus) (round : ℕ) (v : Vertex) : Prop :=
  ∃ fuel c', createNewVertex P fuel c round = some c' ∧
    c'.vertexToBroadcast = c.vertexToBroadcast ++ [v]

/-- **How a vertex that a call broadcasts came about**: by the loop, from three rounds below it
down, with the last of the waiting blocks. -/
theorem Sends.loop {round : ℕ} (h : c.Sends P round v) (hg : c.state.dag.WellSlotted) :
    ∃ block ∈ c.blocksToPropose.getLast?, Loop c.state.dag.Linked Vertex.addEdge
      (c.initialVertex P round block) (c.state.dag.downFrom (round - 3)) v := by
  obtain ⟨fuel, c', hc, hsent⟩ := h
  unfold createNewVertex at hc
  cases hlast : c.blocksToPropose.getLast? with
  | none =>
    rw [hlast] at hc
    rw [← Option.some.inj hc] at hsent
    exact absurd hsent (by simp)
  | some block =>
    rw [hlast] at hc
    obtain ⟨w, hw, rfl⟩ := Option.map_eq_some_iff.mp hc
    obtain rfl : w = v := List.singleton_inj.mp (List.append_inj' hsent rfl).2
    refine ⟨block, rfl, ?_⟩
    split_ifs at hw with hr
    · exact loop_of_setWeakEdgesFrom hg hw
    · -- the loop has no rounds to go through
      have hnone : round - 3 = 0 := by omega
      rw [hnone, ← Option.some.inj hw]
      exact Loop.nil _

end Consensus

namespace Node

variable {P : Platform} {nd : Node} {e : NodeEvent} {v : Vertex}

/-- The step broadcasts `v`. -/
def Broadcasts (P : Platform) (nd : Node) (e : NodeEvent) (v : Vertex) : Prop :=
  ∃ nd', nd.step P e = some nd' ∧
    nd'.consensus.vertexToBroadcast = nd.consensus.vertexToBroadcast ++ [v]

/-- What a step broadcasts, a call of `createNewVertex` for the next round broadcasts from the state
before the step: the commit in between leaves alone what the call reads. -/
lemma Broadcasts.sends (h : nd.Broadcasts P e v) :
    nd.consensus.canAdvance = true ∧ nd.consensus.Sends P nd.consensus.nextRound v := by
  obtain ⟨nd', hstep, hsent⟩ := h
  have hnot : ∀ {l : List Vertex}, l ≠ l ++ [v] := fun {l} heq => by simp at heq
  rcases step_cases hstep with ⟨vs, bs, -, -, rfl⟩ | ⟨u, buffer, -, -, -, rfl⟩ |
    ⟨fuel, c, -, -, hc, rfl⟩
  · exact absurd hsent hnot
  · rw [(Consensus.quiet_scanVertex P nd.consensus u).vertexToBroadcast] at hsent
    exact absurd hsent hnot
  · unfold Consensus.advance at hc
    split_ifs at hc with hcan
    · obtain ⟨d, hd, hc⟩ := Option.bind_eq_some_iff.mp hc
      obtain ⟨hstate, hblocks, hnode, hbefore⟩ := (Consensus.commitWave_cases hd).frame
      refine ⟨hcan, fuel, { nd.consensus with
        blocksToPropose := c.blocksToPropose
        vertexToBroadcast := c.vertexToBroadcast }, ?_, hsent⟩
      unfold Consensus.createNewVertex at hc ⊢
      simp only [hstate, hblocks, hnode, hbefore] at hc
      cases hlast : nd.consensus.blocksToPropose.getLast? with
      | none =>
        rw [hlast] at hc
        obtain rfl := Option.some.inj hc
        exact absurd hsent hnot
      | some block =>
        rw [hlast] at hc
        obtain ⟨w, hw, rfl⟩ := Option.map_eq_some_iff.mp hc
        exact Option.map_eq_some_iff.mpr ⟨w, hw, rfl⟩
    · obtain rfl := Option.some.inj hc
      exact absurd hsent hnot

/-- **How a vertex that is broadcast came about**: the current round has a quorum, and the loop went
down from three rounds below the next one, over the DAG as it is. -/
theorem Broadcasts.loop (h : nd.Broadcasts P e v) (hg : nd.dag.WellSlotted) :
    nd.consensus.canAdvance = true ∧ ∃ block ∈ nd.consensus.blocksToPropose.getLast?,
      Loop nd.dag.Linked Vertex.addEdge
        (nd.consensus.initialVertex P nd.consensus.nextRound block)
        (nd.dag.downFrom (nd.consensus.nextRound - 3)) v :=
  ⟨h.sends.1, h.sends.2.loop hg⟩

end Node

/-! ## What the parents reach -/

namespace Dag

variable {g : Dag} {u v a b : Vertex} {n : ℕ}

/-- An edge to a stored vertex. -/
def Edge (g : Dag) (a b : Vertex) : Prop := b ∈ g.vertices ∧ (b.hash, b.round) ∈ a.parents.entries

/-- The stored parents of a vertex. -/
def storedParents (g : Dag) (v : Vertex) : Set Vertex := {u | g.Edge v u}

/-- Parents are recorded with lower rounds, and what is stored under their hashes is of the recorded
rounds. -/
def Fits (g : Dag) (v : Vertex) : Prop :=
  ∀ e ∈ v.parents.entries, e.2 < v.round ∧ ∀ u ∈ g.vertices, u.hash = e.1 → u.round = e.2

/-- Hashes name stored vertices, and the parents of these fit. -/
structure Consistent (g : Dag) : Prop where
  wellSlotted : g.WellSlotted
  distinct : ∀ u ∈ g.vertices, ∀ v ∈ g.vertices, u.hash = v.hash → u = v
  fits : ∀ v ∈ g.vertices, g.Fits v

/-- The ancestors of a vertex are what its stored parents reach. -/
lemma ancestor_iff_covers :
    g.Ancestor v u ↔ Covers (ReflTransGen g.Edge) (g.storedParents v) u :=
  TransGen.head'_iff

namespace Consistent

/-- Edges from a stored vertex go to lower rounds. -/
lemma round_lt_of_reach (hg : g.Consistent) (ha : a ∈ g.vertices)
    (h : ReflTransGen g.Edge a b) (hne : a ≠ b) : b.round < a.round := by
  have key : ∀ x, ReflTransGen g.Edge a x → x ∈ g.vertices ∧ (x = a ∨ x.round < a.round) := by
    intro x hx
    induction hx with
    | refl => exact ⟨ha, Or.inl rfl⟩
    | @tail y z _ hyz ih =>
      obtain ⟨hy, hle⟩ := ih
      have hlt : z.round < y.round := (hg.fits y hy _ hyz.2).1
      refine ⟨hyz.1, Or.inr ?_⟩
      rcases hle with rfl | hya
      · exact hlt
      · exact hlt.trans hya
  exact (key b h).2.resolve_left hne.symm

/-- **The search decides who the ancestors are**, from a vertex that fits, stored or not.

**Proof sketch.** The search stops at an entry with the hash of the stored vertex, whose recorded
round is right; and every path is found, since it goes down the rounds. -/
theorem linked_iff_ancestor (hg : g.Consistent) (hv : g.Fits v) (hu : u ∈ g.vertices) :
    g.Linked v u ↔ g.Ancestor v u := by
  constructor
  · intro h
    obtain ⟨-, w, hpath, e, he, heq⟩ := h
    have hsteps : ReflTransGen g.Edge v w :=
      ReflTransGen.mono (fun _ _ hab => hg.wellSlotted.edge_of_searchStep hab) v w hpath
    have hw : g.Fits w := by
      rcases ReflTransGen.cases_tail hsteps with rfl | ⟨x, -, hxw⟩
      · exact hv
      · exact hg.fits w hxw.1
    have hentry : (u.hash, u.round) = e := Prod.ext heq.symm ((hw e he).2 u hu heq.symm)
    exact TransGen.tail' hsteps ⟨hu, hentry ▸ he⟩
  · intro h
    refine hg.wellSlotted.linked_of_path hg.distinct (fun w hw e he => (hg.fits w hw e he).1)
      (fun e he => (hv e he).1) h

/-- Recording a stored vertex of a lower round as a parent keeps the parents right. -/
lemma fits_addEdge (hg : g.Consistent) (hv : g.Fits v) (hu : u ∈ g.vertices)
    (hr : u.round < v.round) : g.Fits (v.addEdge u) := by
  intro e he
  rcases OrderedMap.mem_set.mp he with rfl | ⟨he, -⟩
  · refine ⟨hr, fun w hw hwu => ?_⟩
    rw [hg.distinct w hw u hu hwu]
  · exact hv e he

/-- It adds the vertex to the stored parents. -/
lemma storedParents_addEdge (hg : g.Consistent) (hu : u ∈ g.vertices) :
    g.storedParents (v.addEdge u) = insert u (g.storedParents v) := by
  ext w
  show w ∈ g.vertices ∧ (w.hash, w.round) ∈ (v.parents.set u.hash u.round).entries ↔
    w = u ∨ w ∈ g.vertices ∧ (w.hash, w.round) ∈ v.parents.entries
  rw [OrderedMap.mem_set]
  constructor
  · rintro ⟨hw, heq | ⟨he, -⟩⟩
    · exact Or.inl (hg.distinct w hw u hu (Prod.mk.inj heq).1)
    · exact Or.inr ⟨hw, he⟩
  · rintro (rfl | ⟨hw, he⟩)
    · exact ⟨hu, Or.inl rfl⟩
    · by_cases heq : w.hash = u.hash
      · rw [hg.distinct w hw u hu heq]
        exact ⟨hu, Or.inl rfl⟩
      · exact ⟨hw, Or.inr ⟨he, heq⟩⟩

/-- **The loop as a greedy cover**: in a consistent DAG it adds to the stored parents of the vertex
those of the vertices it comes to that they do not reach. -/
theorem cover (hg : g.Consistent) (hv : g.Fits v) (hn : n ≤ v.round - 1)
    {v' : Vertex} (h : Loop g.Linked Vertex.addEdge v (g.downFrom n) v') :
    Loop (Covers (ReflTransGen g.Edge)) (fun T u => insert u T) (g.storedParents v)
      (g.downFrom n) (g.storedParents v') := by
  refine h.simulates (I := fun w => g.Fits w ∧ w.round = v.round) ?_ ?_ ?_ ⟨hv, rfl⟩
  · intro w u hu hw _
    obtain ⟨hu, h1, hur⟩ := hg.wellSlotted.mem_downFrom.mp hu
    obtain ⟨hfits, hround⟩ := hw
    exact ⟨hg.fits_addEdge hfits hu (by omega), hround⟩
  · intro w u hu hw
    rw [hg.linked_iff_ancestor hw.1 (hg.wellSlotted.mem_downFrom.mp hu).1]
    exact ancestor_iff_covers
  · intro w u hu _
    exact hg.storedParents_addEdge (hg.wellSlotted.mem_downFrom.mp hu).1

end Consistent

end Dag

namespace Consensus

variable {P : Platform} {c : Consensus} {block : Block} {w : Vertex}

/-- The stored parents of a new vertex before the loop are the vertices of the round below. -/
lemma mem_storedParents_initialVertex (hg : c.state.dag.WellSlotted) (round : ℕ) :
    w ∈ c.state.dag.storedParents (c.initialVertex P round block) ↔
      w ∈ c.state.dag.vertices ∧ w.round = (round + 2 ^ 64 - 1) % 2 ^ 64 := by
  show w ∈ c.state.dag.vertices ∧ (w.hash, w.round) ∈
    (c.state.dag.getVertices ((round + 2 ^ 64 - 1) % 2 ^ 64)).entries ↔ _
  refine and_congr_right fun hw => ?_
  rw [hg.mem_getVertices]
  constructor
  · intro h
    obtain ⟨x, -, -, heq⟩ := h
    exact (Prod.mk.inj heq).2
  · intro h
    exact ⟨w, hw, h, Prod.ext rfl h⟩

/-- The parents of a new vertex before the loop fit. -/
lemma fits_initialVertex (hg : c.state.dag.Consistent) (hlt : c.state.currentRound < 2 ^ 32)
    (hround : ∀ u ∈ c.state.dag.vertices, u.round < 2 ^ 32) :
    c.state.dag.Fits (c.initialVertex P c.nextRound block) := by
  intro e he
  obtain ⟨u, hu, hur, rfl⟩ := hg.wellSlotted.mem_getVertices.mp he
  have hprev := Node.previous_round hlt (hur ▸ hround u hu)
  refine ⟨?_, fun x hx hxu => ?_⟩
  · show (c.nextRound + 2 ^ 64 - 1) % 2 ^ 64 < c.nextRound
    omega
  · rw [hg.distinct x hx u hu hxu]
    exact hur

end Consensus

/-! ## What is broadcast from a consistent DAG -/

namespace Node

variable {P : Platform} {nd : Node} {e : NodeEvent} {u v : Vertex}

/-- A node whose DAG is consistent and whose rounds are below `2^32`. -/
structure Consistent (nd : Node) : Prop where
  dag : nd.dag.Consistent
  currentRound_lt : nd.currentRound < 2 ^ 32
  round_lt : ∀ u ∈ nd.dag.vertices, u.round < 2 ^ 32

/-- The vertices stored in the round below a new one. -/
def roundBelow (nd : Node) : Set Vertex :=
  {u | u ∈ nd.dag.vertices ∧ u.round = (nd.consensus.nextRound + 2 ^ 64 - 1) % 2 ^ 64}

/-- The round below a round from `1` on is the one before. -/
lemma mem_roundBelow (h : 1 ≤ nd.consensus.nextRound) :
    u ∈ nd.roundBelow ↔ u ∈ nd.dag.vertices ∧ u.round + 1 = nd.consensus.nextRound := by
  have hnext : nd.consensus.nextRound < 2 ^ 32 := Nat.mod_lt _ (Nat.two_pow_pos 32)
  show u ∈ nd.dag.vertices ∧ u.round = (nd.consensus.nextRound + 2 ^ 64 - 1) % 2 ^ 64 ↔ _
  refine and_congr_right fun _ => ?_
  omega

/-- A vertex that is broadcast is of the next round. -/
lemma Broadcasts.round_eq (h : nd.Broadcasts P e v) (hg : nd.dag.WellSlotted) :
    v.round = nd.consensus.nextRound := by
  obtain ⟨-, block, -, hloop⟩ := h.loop hg
  exact (Consensus.frame_of_loop hloop).2.2.2

/-- Every parent of a vertex that is broadcast is stored, in the recorded round. -/
lemma Broadcasts.parents_stored (h : nd.Broadcasts P e v) (hg : nd.dag.WellSlotted) :
    ∀ p ∈ v.parents.entries, ∃ u ∈ nd.dag.storedParents v, p = (u.hash, u.round) := by
  obtain ⟨-, block, -, hloop⟩ := h.loop hg
  have hnamed : ∀ p ∈ v.parents.entries, ∃ u ∈ nd.dag.vertices, p = (u.hash, u.round) := by
    refine hloop.invariant
      (I := fun w => ∀ p ∈ w.parents.entries, ∃ u ∈ nd.dag.vertices, p = (u.hash, u.round)) ?_ ?_
    · intro w u hu hw _ p hp
      rcases OrderedMap.mem_set.mp hp with rfl | ⟨hp, -⟩
      · exact ⟨u, (hg.mem_downFrom.mp hu).1, rfl⟩
      · exact hw p hp
    · intro p hp
      obtain ⟨u, hu, hur, rfl⟩ := hg.mem_getVertices.mp hp
      exact ⟨u, hu, by rw [hur]⟩
  intro p hp
  obtain ⟨u, hu, rfl⟩ := hnamed p hp
  exact ⟨u, ⟨hu, hp⟩, rfl⟩

/-- **What is broadcast from a consistent node** covers the rounds from three below it down,
greedily from the vertices of the round below. -/
theorem Broadcasts.cover (h : nd.Broadcasts P e v) (hnd : nd.Consistent) :
    Loop (Covers (ReflTransGen nd.dag.Edge)) (fun T u => insert u T) nd.roundBelow
      (nd.dag.downFrom (nd.consensus.nextRound - 3)) (nd.dag.storedParents v) := by
  obtain ⟨-, block, -, hloop⟩ := h.loop hnd.dag.wellSlotted
  have hbelow : nd.dag.storedParents (nd.consensus.initialVertex P nd.consensus.nextRound block) =
      nd.roundBelow := by
    ext w
    exact Consensus.mem_storedParents_initialVertex hnd.dag.wellSlotted _
  rw [← hbelow]
  refine hnd.dag.cover ?_ ?_ hloop
  · exact Consensus.fits_initialVertex hnd.dag hnd.currentRound_lt hnd.round_lt
  · show nd.consensus.nextRound - 3 ≤ nd.consensus.nextRound - 1
    omega

end Node

end DagRider
