import DagRider.Node.WeakEdges

set_option relaxedAutoImplicit false
set_option autoImplicit false

/-!
# What the hash of a new vertex commits to

The constructor computes the hash from the strong parents, and the weak edges come after it. So the
hash is the digest of what is broadcast only where the loop adds nothing: where the search reaches
all that is stored from three rounds below on.

## Main definitions

* `DagRider.Vertex.Commits` — the hash is the digest of the vertex as it is.
* `DagRider.Consensus.ReachesOld` — all that the loop comes to is linked already.

## Main results

* `DagRider.Consensus.parents_eq_iff_linked` — when the loop adds nothing.
* `DagRider.Node.hash_commits_iff` — when the hash commits to the vertex, and what follows.
-/

namespace DagRider

open GreedyCover

/-- The hash is what the constructor would compute from the owner, round, block and parents. -/
def Vertex.Commits (P : Platform) (v : Vertex) : Prop :=
  v.hash = P.digest v.owner v.round v.block v.parents

namespace Consensus

variable {P : Platform} {c : Consensus} {g : Dag} {n round : ℕ} {block : Block} {v v' : Vertex}

/-- What is stored in rounds `1, …, round - 3` is linked from the new vertex with its strong
parents only. -/
def ReachesOld (P : Platform) (c : Consensus) (round : ℕ) : Prop :=
  ∀ block ∈ c.blocksToPropose.getLast?, ∀ u ∈ c.state.dag.vertices,
    1 ≤ u.round → u.round + 3 ≤ round → c.state.dag.Linked (c.initialVertex P round block) u

/-- **The loop of `setWeakEdges` leaves the parents as they are iff all it comes to is linked
already.**

**Proof sketch.** It adds what is not linked, whose hash is then not among the parents, so the
parents become more. -/
lemma parents_eq_iff_linked (hn : n ≤ v.round - 1) (hg : g.WellSlotted)
    (h : Loop g.Linked Vertex.addEdge v (g.downFrom n) v') :
    v'.parents = v.parents ↔ ∀ u ∈ g.downFrom n, g.Linked v u := by
  constructor
  · intro heq
    have hgrows := h.covered_of_size_eq (f := fun w => w.parents.entries.length)
      (I := fun w => w.round = v.round) ?_ ?_ rfl
    · exact hgrows.2 (by rw [heq])
    · intro w u _ hw _
      exact hw
    · intro w u hu hw hnot
      obtain ⟨-, h1, hr⟩ := hg.mem_downFrom.mp hu
      refine OrderedMap.length_lt_length_set fun e he heu => hnot ?_
      exact ⟨by omega, w, Relation.ReflTransGen.refl, e, he, heu⟩
  · intro hall
    rw [h.eq_of_covered hall]

/-- All that the loop comes to is linked already iff it leaves the parents as they are. -/
lemma reachesOld_iff (hg : c.state.dag.WellSlotted) (hblock : block ∈ c.blocksToPropose.getLast?)
    (h : Loop c.state.dag.Linked Vertex.addEdge (c.initialVertex P round block)
      (c.state.dag.downFrom (round - 3)) v) :
    c.ReachesOld P round ↔ v.parents = (c.initialVertex P round block).parents := by
  have hn : round - 3 ≤ (c.initialVertex P round block).round - 1 := by
    show round - 3 ≤ round - 1
    omega
  rw [parents_eq_iff_linked hn hg h]
  constructor
  · intro hold u hu
    obtain ⟨hu, h1, hr⟩ := hg.mem_downFrom.mp hu
    exact hold block hblock u hu h1 (by omega)
  · intro hall b hb u hu h1 hr
    obtain rfl : b = block := Option.some.inj (hb.symm.trans hblock)
    exact hall u (hg.mem_downFrom.mpr ⟨hu, h1, by omega⟩)

/-- Where the loop adds nothing the hash commits to the vertex. -/
lemma commits_of_loop (hg : c.state.dag.WellSlotted)
    (hblock : block ∈ c.blocksToPropose.getLast?)
    (h : Loop c.state.dag.Linked Vertex.addEdge (c.initialVertex P round block)
      (c.state.dag.downFrom (round - 3)) v) (hold : c.ReachesOld P round) : v.Commits P := by
  obtain ⟨hhash, howner, hb, hr⟩ := frame_of_loop h
  unfold Vertex.Commits
  rw [(reachesOld_iff hg hblock h).mp hold, hhash, howner, hb, hr]
  rfl

/-- **When the hash of what a call broadcasts commits to it**: if and only if the loop comes to
nothing that is not linked already, as long as the digests of the parents before and after the loop
do not collide. -/
lemma Sends.commits_iff (h : c.Sends P round v) (hg : c.state.dag.WellSlotted)
    (hdigest : P.digest c.nodeId round v.block v.parents = P.digest c.nodeId round v.block
        (c.state.dag.getVertices ((round + 2 ^ 64 - 1) % 2 ^ 64)) →
      v.parents = c.state.dag.getVertices ((round + 2 ^ 64 - 1) % 2 ^ 64)) :
    v.Commits P ↔ c.ReachesOld P round := by
  obtain ⟨block, hblock, hloop⟩ := h.loop hg
  refine ⟨fun hcommits => (reachesOld_iff hg hblock hloop).mpr (hdigest ?_),
    commits_of_loop hg hblock hloop⟩
  obtain ⟨hhash, howner, hb, hr⟩ := frame_of_loop hloop
  unfold Vertex.Commits at hcommits
  rw [hhash, howner, hr] at hcommits
  rw [hb] at hcommits ⊢
  exact hcommits.symm

end Consensus

namespace Node

variable {P : Platform} {nodeId nodeId' : NodePublicKey} {committee committee' : Committee}
  {es es' : List NodeEvent} {nd nd' : Node}

/-- When the step broadcasts, the new vertex reaches with its strong parents all that is stored from
three rounds below on. -/
def ReachesOld (P : Platform) (nd : Node) (e : NodeEvent) : Prop :=
  (∃ v, nd.Broadcasts P e v) → nd.consensus.ReachesOld P nd.consensus.nextRound

/-- In a run whose steps all meet the condition, the hash of everything that was broadcast commits
to it. -/
lemma sent_commits (h : run P nodeId committee es = some nd)
    (hold : Run.Along (step P) (ReachesOld P) (init P nodeId committee) es) :
    ∀ v ∈ nd.consensus.vertexToBroadcast, v.Commits P := by
  refine hold.induction (J := fun _ nd => ∀ v ∈ nd.consensus.vertexToBroadcast, v.Commits P)
    (fun v hv => absurd hv List.not_mem_nil) ?_ h
  intro p nd e nd' hnd ih hreaches hstep v hv
  rcases quiet_or_advances hstep with hquiet | ⟨fuel, d, block, w, -, -, -, -, -, hnd'⟩
  · rw [hquiet.vertexToBroadcast] at hv
    exact ih v hv
  · have hsent : nd'.consensus.vertexToBroadcast = nd.consensus.vertexToBroadcast ++ [w] := by
      rw [hnd']
    have hslot := (basic hnd).wellSlotted
    have hbroad : nd.Broadcasts P e w := ⟨nd', hstep, hsent⟩
    obtain ⟨-, block, hblock, hloop⟩ := hbroad.loop hslot
    rw [hsent] at hv
    rcases List.mem_append.mp hv with hv | hv
    · exact ih v hv
    · rw [List.mem_singleton.mp hv]
      exact Consensus.commits_of_loop hslot hblock hloop (hreaches ⟨w, hbroad⟩)

/-- **Exactly when the hash of a new vertex commits to its content, and what follows.** In every
state that a node reaches, whatever it received, and for every round, a vertex that
`createNewVertex` broadcasts has the hash of its final content if and only if its strong parents
alone reach all that is stored from three rounds below on, where the digest does not collide on the
parents before and after the loop. And in two runs whose steps all meet this condition, vertices
that were broadcast with one hash have the same parents, where the digest does not collide on these.

**Proof sketch.** The hash is the digest of the parents before the loop, which leaves them as they
are iff all that it comes to is linked (`Consensus.parents_eq_iff_linked`). -/
theorem hash_commits_iff (h : run P nodeId committee es = some nd)
    (h' : run P nodeId' committee' es' = some nd') :
    (∀ round v, nd.consensus.Sends P round v →
      (P.digest nd.consensus.nodeId round v.block v.parents =
          P.digest nd.consensus.nodeId round v.block
            (nd.dag.getVertices ((round + 2 ^ 64 - 1) % 2 ^ 64)) →
        v.parents = nd.dag.getVertices ((round + 2 ^ 64 - 1) % 2 ^ 64)) →
      (v.Commits P ↔ nd.consensus.ReachesOld P round)) ∧
    (Run.Along (step P) (ReachesOld P) (init P nodeId committee) es →
      Run.Along (step P) (ReachesOld P) (init P nodeId' committee') es' →
      ∀ v ∈ nd.consensus.vertexToBroadcast, ∀ v' ∈ nd'.consensus.vertexToBroadcast,
        (P.digest v.owner v.round v.block v.parents =
          P.digest v'.owner v'.round v'.block v'.parents → v.parents = v'.parents) →
        v.hash = v'.hash → v.parents = v'.parents) := by
  constructor
  · intro round v hv hdigest
    exact hv.commits_iff (basic h).wellSlotted hdigest
  · intro hold hold' v hv v' hv' hdigest hhash
    refine hdigest ?_
    have hcommits : v.hash = _ := sent_commits h hold v hv
    have hcommits' : v'.hash = _ := sent_commits h' hold' v' hv'
    rw [← hcommits, ← hcommits', hhash]

/-- A digest that depends on the number of parents. -/
def counting : Platform where
  digest owner round _ parents := Sample.hash round owner.val parents.entries.length
  layout := Layout.front _

/-- A vertex of the only member of a committee, over its own vertex of the round before. -/
def chained (round parents : ℕ) : Vertex :=
  Vertex.new counting 1 round Block.default
    (OrderedMap.ofList [(Sample.hash (round - 1) 1 parents, round - 1)])

/-- A node comes to round `3` and receives its vertex of this round, and the given ones. -/
def toThree (vs : List Vertex) : List NodeEvent :=
  Sample.pass [] ++ Sample.pass [chained 2 0] ++ (Sample.pass (chained 3 1 :: vs)).dropLast

/-- The node reaches all that it stores, and broadcasts a vertex of round `4`. -/
theorem hash_commits_iff_single :
    ∃ nd nd', run counting 1 Sample.single (toThree []) = some nd ∧
      run counting 1 Sample.single (toThree [] ++ [.finish 100]) = some nd' ∧
      nd.consensus.Sends counting 4 (chained 4 1) ∧ (chained 4 1).Commits counting ∧
      ∀ v ∈ nd.consensus.vertexToBroadcast, ∀ v' ∈ nd'.consensus.vertexToBroadcast,
        v.hash = v'.hash → v.parents = v'.parents := by
  have hlinked : Run.Throughout (step counting) (fun s => s.consensus.canAdvance = true →
      ∀ block ∈ s.consensus.blocksToPropose.getLast?, ∀ u ∈ s.dag.vertices,
        u.round + 3 ≤ s.consensus.nextRound → s.dag.isLinked 100
          (s.consensus.initialVertex counting s.consensus.nextRound block) u = some true)
      (init counting 1 Sample.single) (toThree [] ++ [.finish 100]) := by decide +kernel
  have hold : Run.Along (step counting) (ReachesOld counting) (init counting 1 Sample.single)
      (toThree [] ++ [.finish 100]) := by
    refine hlinked.along fun _ e s _ hs hlink hbroad block hblock u hu _ hr => ?_
    obtain ⟨v, hv⟩ := hbroad
    have hcan := (hv.loop (basic hs).wellSlotted).1
    exact (Dag.answer_iff_linked (hlink hcan block hblock u hu hr)).mp rfl
  obtain ⟨nd, hnd, hp⟩ : ∃ nd, run counting 1 Sample.single (toThree []) = some nd ∧
      decide (nd.consensus.vertexToBroadcast = [chained 2 0, chained 3 1] ∧
        nd.consensus.nodeId = 1 ∧ (chained 4 1).parents = nd.dag.getVertices 3 ∧
        (∀ block ∈ nd.consensus.blocksToPropose.getLast?, ∀ u ∈ nd.dag.vertices,
          u.round + 3 ≤ 4 → nd.dag.isLinked 100
            (nd.consensus.initialVertex counting 4 block) u = some true) ∧
        ∃ c : Consensus, c ∈ nd.consensus.createNewVertex counting 100 4 ∧
          c.vertexToBroadcast = nd.consensus.vertexToBroadcast ++ [chained 4 1]) = true :=
    Run.exists_exec_of_any (by decide +kernel)
  obtain ⟨hsent, hid, hparents, hlinks, c, hc, hcsent⟩ := of_decide_eq_true hp
  obtain ⟨nd', hnd', hp'⟩ : ∃ nd',
      run counting 1 Sample.single (toThree [] ++ [.finish 100]) = some nd' ∧
      decide (nd'.consensus.vertexToBroadcast = [chained 2 0, chained 3 1, chained 4 1]) = true :=
    Run.exists_exec_of_any (by decide +kernel)
  have hsent' := of_decide_eq_true hp'
  have hsends : nd.consensus.Sends counting 4 (chained 4 1) := ⟨100, c, hc, hcsent⟩
  have hdistinct : ∀ v ∈ [chained 2 0, chained 3 1], ∀ v' ∈ [chained 2 0, chained 3 1, chained 4 1],
      counting.digest v.owner v.round v.block v.parents =
        counting.digest v'.owner v'.round v'.block v'.parents → v.parents = v'.parents := by
    decide +kernel
  obtain ⟨hcommits, hsame⟩ := hash_commits_iff hnd hnd'
  refine ⟨nd, nd', hnd, hnd', hsends, (hcommits 4 _ hsends fun _ => hparents).mpr ?_, ?_⟩
  · intro block hblock u hu _ hr
    exact (Dag.answer_iff_linked (hlinks block hblock u hu hr)).mp rfl
  · intro v hv v' hv'
    refine hsame (hold.mono (List.prefix_append _ _)) hold v hv v' hv' ?_
    rw [hsent] at hv
    rw [hsent'] at hv'
    exact hdistinct v hv v' hv'

/-- A vertex of round `1` by a stranger, without parents. -/
def stray : Vertex := Vertex.new counting 2 1 Block.default OrderedMap.empty

/-- The node receives the stray vertex as well, which its own vertices do not reach. What it
broadcasts has a weak edge to it and the hash of the parents without that edge. -/
theorem hash_misses_weak_edge :
    ∃ nd v, run counting 1 Sample.single (toThree [stray]) = some nd ∧
      nd.Broadcasts counting (.finish 100) v ∧ nd.consensus.Sends counting 4 v ∧
      ¬ v.Commits counting := by
  obtain ⟨nd, hnd, hp⟩ : ∃ nd, run counting 1 Sample.single (toThree [stray]) = some nd ∧
      decide (nd.consensus.nextRound = 4 ∧
        ∃ nd' : Node, nd' ∈ nd.step counting (.finish 100) ∧ nd'.consensus.vertexToBroadcast =
          nd.consensus.vertexToBroadcast ++ [(chained 4 1).addEdge stray]) = true :=
    Run.exists_exec_of_any (by decide +kernel)
  obtain ⟨hnext, nd', hstep, hsent⟩ := of_decide_eq_true hp
  have hbroad : nd.Broadcasts counting (.finish 100) ((chained 4 1).addEdge stray) :=
    ⟨nd', hstep, hsent⟩
  refine ⟨nd, (chained 4 1).addEdge stray, hnd, hbroad, hnext ▸ hbroad.sends.2, ?_⟩
  unfold Vertex.Commits
  decide +kernel

end Node

end DagRider
