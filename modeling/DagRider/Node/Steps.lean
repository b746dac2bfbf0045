import DagRider.Model.Node

set_option relaxedAutoImplicit false
set_option autoImplicit false

/-!
# What each step of a node does

One specification for each function of the consensus loop, and one inversion lemma for the
steps of a node. The invariants are proved from these.

## Main definitions

* `DagRider.Vertex.addParents` — a list of parents recorded one after the other.
* `DagRider.IsNewVertex` — the vertices `createNewVertex` broadcasts.
* `DagRider.Consensus.committedLeaders` — the leaders a call of `getOrderedVertices`
  commits.
* `DagRider.Node.Advances` — the step ends a pass that advances.

## Main results

* `DagRider.Consensus.advance_cases`, `DagRider.Node.step_cases` — everything the end of a
  pass, and a step, can do.
* `DagRider.Node.quiet_or_advances` — which steps can send something.
-/

namespace DagRider

/-! ## New vertices -/

namespace Vertex

/-- Record a list of parents, one after the other. -/
def addParents (v : Vertex) (l : List (VertexHash × ℕ)) : Vertex :=
  { v with parents := l.foldl (fun m e => m.set e.1 e.2) v.parents }

/-- No parents to record. -/
@[simp] lemma addParents_nil (v : Vertex) : v.addParents [] = v := rfl

/-- Two lists of parents, one after the other. -/
lemma addParents_append (v : Vertex) (l l' : List (VertexHash × ℕ)) :
    v.addParents (l ++ l') = (v.addParents l).addParents l' := by
  simp [addParents]

end Vertex

/-- A weak edge into the rounds from `1` to `round`: to a vertex stored in the round it records. -/
def IsWeakEdge (g : Dag) (round : ℕ) (e : VertexHash × ℕ) : Prop :=
  1 ≤ e.2 ∧ e.2 ≤ round ∧ ∃ m, g.graph.find? e.2 = some m ∧ ∃ u ∈ m.values, u.hash = e.1

namespace Consensus

/-- One round of `setWeakEdges` records hashes stored in that round.

**Proof sketch.** Induction on the vertices of the round: each is linked already or has its
hash recorded. -/
lemma setWeakEdgesInRound_spec {fuel : ℕ} {g : Dag} {r : ℕ} {v v' : Vertex} (hr : 1 ≤ r)
    (h : setWeakEdgesInRound fuel g r v = some v') :
    ∃ l, v' = v.addParents l ∧ ∀ e ∈ l, IsWeakEdge g r e := by
  unfold setWeakEdgesInRound at h
  cases hf : g.graph.find? r with
  | none => exact ⟨[], by simpa [hf] using h.symm, by simp⟩
  | some m =>
    simp only [hf] at h
    have hmem : ∀ u ∈ m.values, IsWeakEdge g r (u.hash, r) := fun u hu =>
      ⟨hr, le_rfl, m, hf, u, hu, rfl⟩
    generalize m.values = us at h hmem
    induction us generalizing v with
    | nil => exact ⟨[], by simpa using h.symm, by simp⟩
    | cons u us ih =>
      simp only [List.foldlM_cons, Option.bind_eq_bind, Option.bind_eq_some_iff] at h
      obtain ⟨w, ⟨linked, -, hw⟩, h⟩ := h
      obtain ⟨l, rfl, hl⟩ := ih h fun a ha => hmem a (by simp [ha])
      cases linked with
      | true =>
        obtain rfl : v = w := by simpa using hw
        exact ⟨l, rfl, hl⟩
      | false =>
        obtain rfl : v.addParent u.hash r = w := by simpa using hw
        refine ⟨(u.hash, r) :: l, rfl, fun e he => ?_⟩
        rcases List.mem_cons.mp he with rfl | he
        · exact hmem u (by simp)
        · exact hl e he

/-- **What `setWeakEdges` does**: it records weak edges and changes nothing else.

**Proof sketch.** Induction on the round the loop is at (`setWeakEdgesInRound_spec`). -/
lemma setWeakEdgesFrom_spec {fuel : ℕ} {g : Dag} {r : ℕ} {v v' : Vertex}
    (h : setWeakEdgesFrom fuel g r v = some v') :
    ∃ l, v' = v.addParents l ∧ ∀ e ∈ l, IsWeakEdge g r e := by
  induction r generalizing v with
  | zero => exact ⟨[], by simpa [setWeakEdgesFrom] using h.symm, by simp⟩
  | succ r ih =>
    simp only [setWeakEdgesFrom, Option.bind_eq_bind] at h
    obtain ⟨w, hw, h⟩ := Option.bind_eq_some_iff.mp h
    obtain ⟨l', rfl, hl'⟩ := setWeakEdgesInRound_spec (by omega) hw
    obtain ⟨l, rfl, hl⟩ := ih h
    refine ⟨l' ++ l, (v.addParents_append l' l).symm, fun e he => ?_⟩
    rcases List.mem_append.mp he with he | he
    · exact hl' e he
    · obtain ⟨h1, h2, h3⟩ := hl e he
      exact ⟨h1, by omega, h3⟩

end Consensus

/-- `v` is a vertex that `createNewVertex` broadcasts from `c` for the given round and
block. -/
structure IsNewVertex (P : Platform) (c : Consensus) (round : ℕ) (block : Block)
    (v : Vertex) : Prop where
  owner : v.owner = c.nodeId
  round_eq : v.round = round
  block_eq : v.block = block
  hash : v.hash = P.digest c.nodeId round block
    (c.state.dag.getVertices ((round + 2 ^ 64 - 1) % 2 ^ 64))
  /-- Its parents are the vertices of the round below, and weak edges. -/
  parents : ∃ l : List (VertexHash × ℕ),
    v.parents = l.foldl (fun m e => m.set e.1 e.2)
      (c.state.dag.getVertices ((round + 2 ^ 64 - 1) % 2 ^ 64)) ∧
    ∀ e ∈ l, IsWeakEdge c.state.dag (round - 3) e

namespace Consensus

variable {P : Platform} {fuel : ℕ} {c c' : Consensus}

/-- **What `createNewVertex` does** when a block is waiting: it takes the last one and
broadcasts one vertex with it. -/
lemma createNewVertex_spec {round : ℕ} (hb : c.blocksToPropose ≠ [])
    (h : createNewVertex P fuel c round = some c') :
    ∃ block v, c.blocksToPropose = c.blocksToPropose.dropLast ++ [block] ∧
      IsNewVertex P c round block v ∧
      c' = { c with
        blocksToPropose := c.blocksToPropose.dropLast
        vertexToBroadcast := c.vertexToBroadcast ++ [v] } := by
  have hlast := List.getLast?_eq_some_getLast hb
  refine ⟨c.blocksToPropose.getLast hb, ?_⟩
  simp only [createNewVertex, hlast] at h
  obtain ⟨v, hv, rfl⟩ := Option.map_eq_some_iff.mp h
  refine ⟨v, (List.dropLast_append_getLast hb).symm, ?_, rfl⟩
  split_ifs at hv with hr
  · obtain ⟨l, rfl, hl⟩ := setWeakEdgesFrom_spec hv
    exact ⟨rfl, rfl, rfl, rfl, l, rfl, hl⟩
  · obtain rfl := Option.some.inj hv
    exact ⟨rfl, rfl, rfl, rfl, [], rfl, by simp⟩

/-! ## Ordering -/

/-- The leaders that a call of `getOrderedVertices wave` commits, if its checks pass. -/
def committedLeaders (fuel : ℕ) (c : Consensus) (wave : ℕ) : Option (List Vertex) := do
  let leader ← c.getWaveVertexLeader wave
  let linked ← c.state.dag.isLinkedWithOthersInRound fuel leader (getRoundForWave wave MAX_WAVE)
  if linked then c.getLeadersToCommit fuel ((wave + 2 ^ 32 - 1) % 2 ^ 32) leader else none

/-- The checks of `getOrderedVertices` fail: the wave's leader is not stored, or has no quorum
of supporters. -/
def ChecksFail (fuel : ℕ) (c : Consensus) (wave : ℕ) : Prop :=
  ∀ leader, c.getWaveVertexLeader wave = some leader →
    c.state.dag.isLinkedWithOthersInRound fuel leader (getRoundForWave wave MAX_WAVE) = some false

/-- **What `getOrderedVertices` does**: it commits leaders and orders their vertices, or
returns nothing. -/
lemma getOrderedVertices_cases {wave : ℕ} {out : List Vertex}
    (h : c.getOrderedVertices fuel wave = some (out, c')) :
    (∃ leaders, c.committedLeaders fuel wave = some leaders ∧
      orderVertices fuel c.state.dag leaders = some out ∧
      c' = { c with orderedWaves := c.orderedWaves ++ [wave], decidedWave := wave }) ∨
    (c.ChecksFail fuel wave ∧ out = [] ∧
      c' = { c with orderedWaves := c.orderedWaves ++ [wave] }) := by
  unfold getOrderedVertices at h
  unfold committedLeaders ChecksFail
  cases hl : c.getWaveVertexLeader wave with
  | none =>
    simp only [hl, Option.some.injEq, Prod.mk.injEq] at h
    exact Or.inr ⟨by simp, h.1.symm, h.2.symm⟩
  | some leader =>
    simp only [hl, Option.bind_eq_bind] at h
    obtain ⟨linked, hlinked, h⟩ := Option.bind_eq_some_iff.mp h
    simp only [Option.bind_eq_bind, Option.bind_some, hlinked]
    cases linked with
    | false =>
      simp only [Bool.false_eq_true, if_false, pure, Option.some.injEq, Prod.mk.injEq] at h
      refine Or.inr ⟨fun leader' hleader' => ?_, h.1.symm, h.2.symm⟩
      rw [← Option.some.inj hleader']
      exact hlinked
    | true =>
      simp only [if_true] at h ⊢
      obtain ⟨leaders, hleaders, h⟩ := Option.bind_eq_some_iff.mp h
      obtain ⟨ordered, hordered, h⟩ := Option.bind_eq_some_iff.mp h
      simp only [pure, Option.some.injEq, Prod.mk.injEq] at h
      obtain ⟨rfl, rfl⟩ := h
      exact Or.inl ⟨leaders, hleaders, hordered, rfl⟩

/-! ## The end of a pass -/

/-- What the commit step sends and records at the end of a pass. -/
inductive Commit (fuel : ℕ) (c : Consensus) : Consensus → Prop
  /-- The round does not end a wave. -/
  | none (h : isLastRoundInWave c.state.currentRound = false) : Commit fuel c c
  /-- The wave of the round is called and its checks fail. -/
  | skip (h : isLastRoundInWave c.state.currentRound = true)
      (hchecks : c.ChecksFail fuel (c.state.currentRound / MAX_WAVE)) :
      Commit fuel c { c with
        orderedWaves := c.orderedWaves ++ [c.state.currentRound / MAX_WAVE] }
  /-- The wave of the round is called and commits. -/
  | commit (h : isLastRoundInWave c.state.currentRound = true) (leaders out : List Vertex)
      (hleaders : c.committedLeaders fuel (c.state.currentRound / MAX_WAVE) = some leaders)
      (hout : orderVertices fuel c.state.dag leaders = some out) :
      Commit fuel c { c with
        orderedWaves := c.orderedWaves ++ [c.state.currentRound / MAX_WAVE]
        decidedWave := c.state.currentRound / MAX_WAVE
        vertexOutput := c.vertexOutput ++ out }

/-- The commit step does one of these. -/
lemma commitWave_cases (h : c.commitWave fuel = some c') : Commit fuel c c' := by
  unfold commitWave at h
  split_ifs at h with hlast
  · simp only [Option.bind_eq_bind] at h
    obtain ⟨⟨out, d⟩, hd, h⟩ := Option.bind_eq_some_iff.mp h
    obtain rfl := Option.some.inj h
    rcases getOrderedVertices_cases hd with ⟨leaders, hleaders, hout, rfl⟩ | ⟨hchecks, rfl, rfl⟩
    · exact Commit.commit hlast leaders out hleaders hout
    · simpa using Commit.skip hlast hchecks
  · obtain rfl := Option.some.inj h
    exact Commit.none (by simpa using hlast)

/-- The commit step leaves the state, the waiting blocks, the identity and what was broadcast
alone. -/
lemma Commit.frame (h : Commit fuel c c') :
    c'.state = c.state ∧ c'.blocksToPropose = c.blocksToPropose ∧ c'.nodeId = c.nodeId ∧
      c'.vertexToBroadcast = c.vertexToBroadcast := by
  cases h <;> exact ⟨rfl, rfl, rfl, rfl⟩

/-- A pass advances only from a round with a quorum. -/
lemma quorum_of_canAdvance (h : c.canAdvance = true) :
    ∃ m, c.state.dag.graph.find? c.state.currentRound = some m ∧
      c.state.dag.minQuorum ≤ m.size := by
  unfold canAdvance Dag.isQuorumReachedForRound at h
  rw [Bool.and_eq_true] at h
  obtain ⟨-, hquorum⟩ := h
  cases hm : c.state.dag.graph.find? c.state.currentRound with
  | none => simp [hm] at hquorum
  | some m => exact ⟨m, rfl, by simpa [hm] using hquorum⟩

/-- The next round: a `uint32_t`. -/
def nextRound (c : Consensus) : ℕ := (c.state.currentRound + 1) % 2 ^ 32

/-- **Everything the end of a pass can do**: nothing, when no block waits or the round has no
quorum; or commit, move to the next round and broadcast one vertex for it. -/
theorem advance_cases (h : c.advance P fuel = some c') :
    (c.canAdvance = false ∧ c' = c) ∨
    (c.canAdvance = true ∧ ∃ d block v, Commit fuel c d ∧
      c.blocksToPropose = c.blocksToPropose.dropLast ++ [block] ∧
      IsNewVertex P c c.nextRound block v ∧
      c' = { d with
        state := { c.state with currentRound := c.nextRound }
        blocksToPropose := c.blocksToPropose.dropLast
        vertexToBroadcast := c.vertexToBroadcast ++ [v] }) := by
  unfold advance at h
  split_ifs at h with hcan
  · refine Or.inr ⟨hcan, ?_⟩
    simp only [Option.bind_eq_bind] at h
    obtain ⟨d, hd, h⟩ := Option.bind_eq_some_iff.mp h
    have hcommit := commitWave_cases hd
    have hb : c.blocksToPropose ≠ [] := by
      intro he
      simp [canAdvance, he] at hcan
    obtain ⟨hstate, hblocks, hnode, hsent⟩ := hcommit.frame
    obtain ⟨block, v, hblock, hv, rfl⟩ := createNewVertex_spec (by simpa [hblocks] using hb) h
    refine ⟨d, block, v, hcommit, by simpa [hblocks] using hblock, ?_, ?_⟩
    · rw [hstate] at hv
      exact ⟨hv.owner.trans hnode, hv.round_eq, hv.block_eq, hnode ▸ hv.hash, hv.parents⟩
    · simp [hstate, hblocks, hsent, nextRound]
  · exact Or.inl ⟨by simpa using hcan, (Option.some.inj h).symm⟩

/-- The end of a pass leaves the identity, the committee and the DAG alone. -/
lemma advance_frame (h : c.advance P fuel = some c') :
    c'.nodeId = c.nodeId ∧ c'.committee = c.committee ∧ c'.state.dag = c.state.dag := by
  rcases advance_cases h with ⟨-, rfl⟩ | ⟨-, d, block, v, hd, -, -, rfl⟩
  · exact ⟨rfl, rfl, rfl⟩
  · cases hd <;> exact ⟨rfl, rfl, rfl⟩

/-- One turn of the admission loop inserts the vertex or changes nothing. -/
lemma scanVertex_cases (P : Platform) (c : Consensus) (v : Vertex) :
    (c.isAdmissible v = true ∧ c.scanVertex P v =
      { c with state := { c.state with dag := c.state.dag.insertVertex P v } }) ∨
    (c.isAdmissible v = false ∧ c.scanVertex P v = c) := by
  unfold scanVertex
  split_ifs with h
  · exact Or.inl ⟨h, rfl⟩
  · exact Or.inr ⟨by simpa using h, rfl⟩

/-- Whatever `c'` has received and stored since `c`, it has sent nothing, called no wave and
kept its round. -/
structure Quiet (c c' : Consensus) : Prop where
  currentRound : c'.state.currentRound = c.state.currentRound
  vertexToBroadcast : c'.vertexToBroadcast = c.vertexToBroadcast
  vertexOutput : c'.vertexOutput = c.vertexOutput
  orderedWaves : c'.orderedWaves = c.orderedWaves

/-- One turn of the admission loop is quiet. -/
lemma quiet_scanVertex (P : Platform) (c : Consensus) (v : Vertex) :
    Quiet c (c.scanVertex P v) := by
  rcases scanVertex_cases P c v with ⟨-, hscan⟩ | ⟨-, hscan⟩
  all_goals
    rw [hscan]
    exact ⟨rfl, rfl, rfl, rfl⟩

end Consensus

/-! ## Steps of a node -/

namespace Node

variable {P : Platform} {nd nd' : Node} {e : NodeEvent}

/-- **Everything a step can do.** -/
theorem step_cases (h : nd.step P e = some nd') :
    (∃ vs bs, e = .drain vs bs ∧ nd.phase = .drain ∧ nd' = ⟨{ nd.consensus with
      blocksToPropose := nd.consensus.blocksToPropose ++ bs }, vs, .scan⟩) ∨
    (∃ v buffer, e = .scan ∧ nd.phase = .scan ∧ nd.buffer = v :: buffer ∧
      nd' = ⟨nd.consensus.scanVertex P v, buffer, .scan⟩) ∨
    (∃ fuel c, e = .finish fuel ∧ nd.ScanDone ∧ nd.consensus.advance P fuel = some c ∧
      nd' = ⟨c, [], .drain⟩) := by
  cases e with
  | drain vs bs =>
    simp only [step] at h
    split_ifs at h with hp
    exact Or.inl ⟨vs, bs, rfl, hp, (Option.some.inj h).symm⟩
  | scan =>
    simp only [step] at h
    split at h
    · rename_i v buffer hp hb
      exact Or.inr (Or.inl ⟨v, buffer, rfl, hp, hb, (Option.some.inj h).symm⟩)
    · simp at h
  | finish fuel =>
    simp only [step] at h
    split at h
    · rename_i hp hb
      obtain ⟨c, hc, rfl⟩ := Option.map_eq_some_iff.mp h
      exact Or.inr (Or.inr ⟨fuel, c, rfl, ⟨hp, hb⟩, hc, rfl⟩)
    · simp at h

/-- **A step is quiet, or ends a pass that advances**: for what is sent and called, and for
the round, only the end of a pass counts. -/
theorem quiet_or_advances (h : nd.step P e = some nd') :
    nd.consensus.Quiet nd'.consensus ∨
    ∃ fuel d block v, e = .finish fuel ∧ nd.ScanDone ∧ nd.consensus.canAdvance = true ∧
      Consensus.Commit fuel nd.consensus d ∧
      IsNewVertex P nd.consensus nd.consensus.nextRound block v ∧
      nd' = ⟨{ d with
        state := { nd.consensus.state with currentRound := nd.consensus.nextRound }
        blocksToPropose := nd.consensus.blocksToPropose.dropLast
        vertexToBroadcast := nd.consensus.vertexToBroadcast ++ [v] }, [], .drain⟩ := by
  rcases step_cases h with ⟨vs, bs, -, -, rfl⟩ | ⟨v, buffer, -, -, -, rfl⟩ |
    ⟨fuel, c, he, hdone, hc, rfl⟩
  · exact Or.inl ⟨rfl, rfl, rfl, rfl⟩
  · exact Or.inl (Consensus.quiet_scanVertex P nd.consensus v)
  · rcases Consensus.advance_cases hc with ⟨-, rfl⟩ | ⟨hcan, d, block, v, hd, -, hv, rfl⟩
    · exact Or.inl ⟨rfl, rfl, rfl, rfl⟩
    · exact Or.inr ⟨fuel, d, block, v, he, hdone, hcan, hd, hv, rfl⟩

/-- The step ends a pass, and the node advances. -/
def Advances (nd : Node) (e : NodeEvent) : Prop :=
  (∃ fuel, e = .finish fuel) ∧ nd.consensus.canAdvance = true

/-- A pass that advances ends in the next round, with the same DAG. -/
lemma next_of_advances (hadv : nd.Advances e) (h : nd.step P e = some nd') :
    nd'.currentRound = nd.consensus.nextRound ∧ nd'.dag = nd.dag ∧ nd'.phase = .drain := by
  obtain ⟨⟨fuel, rfl⟩, hcan⟩ := hadv
  rcases step_cases h with ⟨vs, bs, he, -, -⟩ | ⟨v, buffer, he, -, -, -⟩ |
    ⟨fuel, c, -, -, hc, rfl⟩
  · cases he
  · cases he
  · rcases Consensus.advance_cases hc with ⟨hnot, -⟩ | ⟨-, d, block, v, hd, -, -, rfl⟩
    · rw [hcan] at hnot
      cases hnot
    · exact ⟨rfl, rfl, rfl⟩

/-- Only a pass that advances changes the round. -/
lemma round_of_not_advances (hnot : ¬ nd.Advances e) (h : nd.step P e = some nd') :
    nd'.currentRound = nd.currentRound := by
  rcases quiet_or_advances h with hquiet | ⟨fuel, d, block, v, he, -, hcan, -, -, -⟩
  · exact hquiet.currentRound
  · exact absurd ⟨⟨fuel, he⟩, hcan⟩ hnot

end Node

end DagRider
