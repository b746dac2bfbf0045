import DagRider.Model.Dag
import Mathlib.Data.List.Sort

set_option relaxedAutoImplicit false
set_option autoImplicit false

/-!
# The consensus loop

`src/consensus/state.cpp` and `consensus.cpp`. One pass of `Consensus::run` drains the two
receivers, scans the buffer for admissible vertices, and then, when a block is waiting and
the current round has a quorum, commits the wave that the round ends and moves to the next
round. The functions that search the DAG take a bound for the search.

Everything ever sent on a channel is kept as a list, so a sender is the list of what was
sent on it. `orderedWaves` records the calls of `getOrderedVertices`.

## Main definitions

* `DagRider.State`, `DagRider.Consensus` — the state of a node.
* `DagRider.Consensus.scanVertex` — one turn of the admission loop.
* `DagRider.Consensus.createNewVertex`, `setWeakEdges`, `getOrderedVertices`,
  `getLeadersToCommit`, `orderVertices`, `getWaveVertexLeader`.
* `DagRider.Consensus.advance` — the end of a pass.
-/

namespace DagRider

/-- `MAX_WAVE`: the rounds of a wave. -/
def MAX_WAVE : ℕ := 4

/-- The state of the protocol; `currentRound` is a `uint32_t`. -/
structure State where
  currentRound : ℕ
  deliveredVertices : List VertexHash
  dag : Dag

namespace State

/-- `State::setVertexAsDelivered`: insertion into a set. -/
def setVertexAsDelivered (s : State) (vertexHash : VertexHash) : State :=
  { s with deliveredVertices := s.deliveredVertices.insert vertexHash }

/-- The constructor `State::State`; the quorum is a `uint32_t`. -/
def new (P : Platform) (genesisVertices : List Vertex) : State :=
  let dag := Dag.new P genesisVertices ((2 * genesisVertices.length / 3 + 1) % 2 ^ 32)
  let deliveredVertices := genesisVertices.foldl (fun d v => d.insert v.hash) []
  ⟨1, deliveredVertices, dag⟩

end State

/-- A node: the fields of `Consensus`, with all that was sent on its two senders. -/
structure Consensus where
  nodeId : NodePublicKey
  committee : Committee
  state : State
  decidedWave : ℕ
  blocksToPropose : List Block
  vertexToBroadcast : List Vertex
  vertexOutput : List Vertex
  /-- The waves `getOrderedVertices` was called for. -/
  orderedWaves : List ℕ

namespace Consensus

/-- The constructor, as `Consensus::spawn` calls it on the genesis vertices of the
committee. -/
def spawn (P : Platform) (nodeId : NodePublicKey) (committee : Committee) : Consensus :=
  ⟨nodeId, committee, State.new P (Vertex.genesis P committee.getNodesKeys), 0, [], [], [], []⟩

/-- `getRoundForWave`: the product is on `uint32_t`, the sum on `uint64_t`. -/
def getRoundForWave (wave : ℕ) (round : ℕ) : ℕ :=
  MAX_WAVE * ((wave + 2 ^ 32 - 1) % 2 ^ 32) % 2 ^ 32 + round

/-- The round of a wave, away from a wrap-around of the 32-bit arithmetic. -/
lemma getRoundForWave_eq {wave : ℕ} (h1 : 1 ≤ wave) (h2 : wave ≤ 2 ^ 30) (round : ℕ) :
    getRoundForWave wave round = 4 * wave - 4 + round := by
  unfold getRoundForWave MAX_WAVE
  omega

/-- `isLastRoundInWave`. -/
def isLastRoundInWave (round : ℕ) : Bool := round % MAX_WAVE = 0

/-- The last rounds of the waves are the multiples of four. -/
lemma isLastRoundInWave_iff {round : ℕ} : isLastRoundInWave round = true ↔ round % 4 = 0 :=
  decide_eq_true_iff

/-- The key that leads a wave: the coin is the number of its first round. -/
def getWaveLeader (c : Consensus) (wave : ℕ) : Option NodePublicKey :=
  let coin := getRoundForWave wave 1
  let keys := c.committee.getNodesKeys.insertionSort (· ≤ ·)
  keys[coin % c.committee.size]?

/-- `getWaveVertexLeader`: the vertex of the wave's leader in its first round, if stored. -/
def getWaveVertexLeader (c : Consensus) (wave : ℕ) : Option Vertex := do
  let firstRoundOfWave := getRoundForWave wave 1
  let leader ← c.getWaveLeader wave
  let vertices ← c.state.dag.graph.find? firstRoundOfWave
  vertices.find? leader

/-- One round of `setWeakEdges`: an edge to every vertex of the round not yet linked. -/
def setWeakEdgesInRound (fuel : ℕ) (dag : Dag) (r : ℕ) (vertex : Vertex) : Option Vertex :=
  match dag.graph.find? r with
  | none => some vertex
  | some vertices => vertices.values.foldlM (fun vertex v => do
      let linked ← dag.isLinked fuel vertex v
      return if linked then vertex else vertex.addParent v.hash r) vertex

/-- The loop of `setWeakEdges`, from round `r` down to round `1`. -/
def setWeakEdgesFrom (fuel : ℕ) (dag : Dag) : ℕ → Vertex → Option Vertex
  | 0, vertex => some vertex
  | r + 1, vertex => do
    let vertex ← setWeakEdgesInRound fuel dag (r + 1) vertex
    setWeakEdgesFrom fuel dag r vertex

/-- `setWeakEdges`: edges from a vertex of a round above `2` to what it does not reach. -/
def setWeakEdges (fuel : ℕ) (dag : Dag) (vertex : Vertex) (round : ℕ) : Option Vertex :=
  setWeakEdgesFrom fuel dag (round - 3) vertex

/-- `createNewVertex`: take the newest waiting block and broadcast a vertex with it. -/
def createNewVertex (P : Platform) (fuel : ℕ) (c : Consensus) (round : ℕ) :
    Option Consensus :=
  match c.blocksToPropose.getLast? with
  | none => some c
  | some block =>
    let parents := c.state.dag.getVertices ((round + 2 ^ 64 - 1) % 2 ^ 64)
    let vertex := Vertex.new P c.nodeId round block parents
    (if round > 2 then setWeakEdges fuel c.state.dag vertex round else some vertex).map
      fun vertex => { c with
        blocksToPropose := c.blocksToPropose.dropLast
        vertexToBroadcast := c.vertexToBroadcast ++ [vertex] }

/-- The loop of `getLeadersToCommit`: walk down the waves, from each leader to the next earlier one
it is linked to. In the source `leader` points into the `shared_ptr` of one turn of the loop, so
after the first move it dangles; here it is the vertex that it was last set to. -/
def leaderWalk (fuel : ℕ) (c : Consensus) :
    ℕ → Vertex → List Vertex → Option (List Vertex)
  | 0, _, toCommit => some toCommit
  | wave + 1, leader, toCommit =>
    match c.getWaveVertexLeader (wave + 1) with
    | none => leaderWalk fuel c wave leader toCommit
    | some prevLeader => do
      let linked ← c.state.dag.isStronglyLinked fuel leader prevLeader
      if linked then leaderWalk fuel c wave prevLeader (toCommit ++ [prevLeader])
      else leaderWalk fuel c wave leader toCommit

/-- `getLeadersToCommit`: the leader and the earlier leaders the walk from it meets. -/
def getLeadersToCommit (fuel : ℕ) (c : Consensus) (fromWave : ℕ) (currentLeader : Vertex) :
    Option (List Vertex) :=
  c.leaderWalk fuel fromWave currentLeader [currentLeader]

/-- What `orderVertices` has ordered, with the hashes of its local delivered set. -/
structure Ordered where
  orderedVertices : List Vertex
  deliveredVertices : List VertexHash

/-- The innermost loop of `orderVertices`: one vertex for one leader. -/
def orderVertex (fuel : ℕ) (dag : Dag) (leader : Vertex) (o : Ordered) (vertex : Vertex) :
    Option Ordered :=
  if vertex.hash ∈ o.deliveredVertices then some o
  else do
    let linked ← dag.isLinked fuel vertex leader
    return if linked then
      ⟨o.orderedVertices ++ [vertex], o.deliveredVertices.insert vertex.hash⟩ else o

/-- The loop over the graph of `orderVertices`, for one leader. -/
def orderLeader (fuel : ℕ) (dag : Dag) (o : Ordered) (leader : Vertex) : Option Ordered :=
  dag.graph.entries.foldlM (fun o e =>
    if e.1 > 0 then e.2.values.foldlM (orderVertex fuel dag leader) o else some o) o

/-- `orderVertices`: the leaders from the back of the list, the oldest first. -/
def orderVertices (fuel : ℕ) (dag : Dag) (leaders : List Vertex) : Option (List Vertex) := do
  let o ← leaders.reverse.foldlM (orderLeader fuel dag) ⟨[], []⟩
  return o.orderedVertices

/-- `getOrderedVertices`: the vertices to send, with the state after the call. -/
def getOrderedVertices (fuel : ℕ) (c : Consensus) (wave : ℕ) :
    Option (List Vertex × Consensus) :=
  let called := { c with orderedWaves := c.orderedWaves ++ [wave] }
  match c.getWaveVertexLeader wave with
  | none => some ([], called)
  | some leader => do
    let round := getRoundForWave wave MAX_WAVE
    let linked ← c.state.dag.isLinkedWithOthersInRound fuel leader round
    if linked then
      let leadersToCommit ←
        c.getLeadersToCommit fuel ((wave + 2 ^ 32 - 1) % 2 ^ 32) leader
      let orderedVertices ← orderVertices fuel c.state.dag leadersToCommit
      return (orderedVertices, { called with decidedWave := wave })
    else return ([], called)

/-- The test of the admission loop: the round has come and the parents are stored. -/
def isAdmissible (c : Consensus) (vertex : Vertex) : Bool :=
  vertex.round ≤ c.state.currentRound && c.state.dag.containsVertices vertex.parents

/-- One turn of the admission loop of `run`. -/
def scanVertex (P : Platform) (c : Consensus) (vertex : Vertex) : Consensus :=
  if c.isAdmissible vertex then
    { c with state := { c.state with dag := c.state.dag.insertVertex P vertex } }
  else c

/-- The test at the end of a pass of `run`: a block is waiting and the round has a quorum. -/
def canAdvance (c : Consensus) : Bool :=
  !c.blocksToPropose.isEmpty && c.state.dag.isQuorumReachedForRound c.state.currentRound

/-- The commit step of `run`: order the wave that the current round ends and send the
result. -/
def commitWave (fuel : ℕ) (c : Consensus) : Option Consensus :=
  if isLastRoundInWave c.state.currentRound then do
    let (orderedVertices, c) ← c.getOrderedVertices fuel (c.state.currentRound / MAX_WAVE)
    return { c with vertexOutput := c.vertexOutput ++ orderedVertices }
  else some c

/-- The end of a pass of `run`: commit, move to the next round (a `uint32_t`) and create its
vertex. -/
def advance (P : Platform) (fuel : ℕ) (c : Consensus) : Option Consensus :=
  if c.canAdvance then do
    let c ← c.commitWave fuel
    let round := (c.state.currentRound + 1) % 2 ^ 32
    createNewVertex P fuel { c with state := { c.state with currentRound := round } } round
  else some c

end Consensus

end DagRider
