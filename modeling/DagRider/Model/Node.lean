import DagRider.Lib.Run
import DagRider.Model.Consensus

set_option relaxedAutoImplicit false
set_option autoImplicit false

/-!
# Runs of one node

`Consensus::run` as a transition system. A pass is: the two drain loops hand over a finite
batch, the admission loop scans it vertex by vertex, and the end of the pass may advance the
round. Each of these is one step, so the reachable states include those inside the
admission loop. The batch is what the drain loops are there to hand over; as they stand they
wait for more (`DagRider.Drain`).

## Main definitions

* `DagRider.Node`, `DagRider.NodeEvent`, `DagRider.Node.step`.
* `DagRider.Node.init`, `DagRider.Node.run` — a node as `Consensus::spawn` starts it, and
  after a run.
* `DagRider.Node.CallsOrder` — the node is about to call `getOrderedVertices`.
-/

namespace DagRider

/-- Where a pass of `run` is. -/
inductive Phase
  /-- Before the drain loops. -/
  | drain
  /-- In the admission loop, or after it when the buffer is empty. -/
  | scan
deriving DecidableEq

/-- A node inside `run`, with the vertices of the buffer still to be scanned. -/
structure Node where
  consensus : Consensus
  buffer : List Vertex
  phase : Phase

/-- What happens next in `run`. -/
inductive NodeEvent
  /-- The drain loops hand over these vertices and blocks. -/
  | drain (vertices : List Vertex) (blocks : List Block)
  /-- The admission loop takes the next vertex. -/
  | scan
  /-- The pass ends; searches get this bound. -/
  | finish (fuel : ℕ)
deriving DecidableEq

namespace NodeEvent

/-- The vertices an event receives. -/
def vertices : NodeEvent → List Vertex
  | drain vs _ => vs
  | _ => []

/-- The blocks an event receives. -/
def blocks : NodeEvent → List Block
  | drain _ bs => bs
  | _ => []

/-- A whole pass that receives the given vertices and blocks. -/
def pass (vertices : List Vertex) (blocks : List Block) (fuel : ℕ) : List NodeEvent :=
  drain vertices blocks :: (vertices.map fun _ => scan) ++ [finish fuel]

end NodeEvent

namespace Node

/-- One step of `run`. -/
def step (P : Platform) (nd : Node) : NodeEvent → Option Node
  | .drain vertices blocks =>
    if nd.phase = .drain then
      let blocksToPropose := nd.consensus.blocksToPropose ++ blocks
      some ⟨{ nd.consensus with blocksToPropose }, vertices, .scan⟩
    else none
  | .scan =>
    match nd.phase, nd.buffer with
    | .scan, vertex :: buffer => some ⟨nd.consensus.scanVertex P vertex, buffer, .scan⟩
    | _, _ => none
  | .finish fuel =>
    match nd.phase, nd.buffer with
    | .scan, [] => (nd.consensus.advance P fuel).map fun c => ⟨c, [], .drain⟩
    | _, _ => none

/-- A node as it starts. -/
def init (P : Platform) (nodeId : NodePublicKey) (committee : Committee) : Node :=
  ⟨Consensus.spawn P nodeId committee, [], .drain⟩

/-- The node after a run from its start. -/
abbrev run (P : Platform) (nodeId : NodePublicKey) (committee : Committee)
    (es : List NodeEvent) : Option Node := Run.exec (step P) (init P nodeId committee) es

/-- The DAG of a node. -/
abbrev dag (nd : Node) : Dag := nd.consensus.state.dag

/-- The round of a node. -/
abbrev currentRound (nd : Node) : ℕ := nd.consensus.state.currentRound

/-- The round has not passed `2^32 - 1`: it starts at `1` and only moves up by one, so the
first value after a wrap-around of the counter would be `0`. -/
def NotWrapped (nd : Node) : Prop := nd.currentRound ≠ 0

instance : DecidablePred NotWrapped := fun nd => inferInstanceAs (Decidable (nd.currentRound ≠ 0))

/-- The admission loop of the pass is over. -/
def ScanDone (nd : Node) : Prop := nd.phase = .scan ∧ nd.buffer = []

/-- The next thing the node does is to call `getOrderedVertices wave`. -/
def CallsOrder (nd : Node) (wave : ℕ) : Prop :=
  nd.ScanDone ∧ nd.consensus.canAdvance = true ∧
    Consensus.isLastRoundInWave nd.currentRound = true ∧ wave = nd.currentRound / MAX_WAVE

instance : DecidablePred ScanDone := fun nd =>
  inferInstanceAs (Decidable (nd.phase = .scan ∧ nd.buffer = []))

instance (nd : Node) (wave : ℕ) : Decidable (nd.CallsOrder wave) :=
  inferInstanceAs (Decidable (nd.ScanDone ∧ nd.consensus.canAdvance = true ∧
    Consensus.isLastRoundInWave nd.currentRound = true ∧ wave = nd.currentRound / MAX_WAVE))

end Node

/-! ## A small setting

A digest that numbers the vertices by round, owner and number of transactions, and
committees with the keys `1, …, n`, for examples of runs. -/

namespace Sample

/-- The number of a vertex. -/
def hash (round owner transactions : ℕ) : VertexHash :=
  Fin.ofNat _ (1000 * round + 10 * owner + transactions)

/-- A digest that is a number, and tables that put new entries in front. -/
def platform : Platform where
  digest owner round block _ := hash round owner.val block.transactions.length
  layout := Layout.front _

/-- A member of the committee with the given key. -/
def validator (key : NodePublicKey) : Validator := ⟨⟨0, 0⟩, ⟨0, 0⟩, ⟨0, 0⟩, key⟩

/-- A committee of one. -/
def single : Committee := ⟨⟨[(1, validator 1)], by decide⟩⟩

/-- A committee of four. -/
def four : Committee :=
  ⟨⟨[(1, validator 1), (2, validator 2), (3, validator 3), (4, validator 4)], by decide⟩⟩

/-- The vertex with an empty block that a node makes when its strong parents are those of
the given owners in the round below. -/
def vertex (round : ℕ) (parents : List ℕ) (owner : ℕ) : Vertex :=
  Vertex.new platform (Fin.ofNat _ owner) round Block.default
    (OrderedMap.ofList (parents.map fun o => (hash (round - 1) o 0, round - 1)))

/-- A pass that receives these vertices and one empty block. -/
def pass (vertices : List Vertex) : List NodeEvent :=
  NodeEvent.pass vertices [Block.default] 100

/-- The passes that bring the node of the committee of one to round `n`: it receives its own
vertices, in order. -/
def upTo (n : ℕ) : List NodeEvent :=
  pass [] ++ (List.range' 2 (n - 2)).flatMap fun r => pass [vertex r [1] 1]

/-- Vertices of round `2` whose parents are the genesis vertices of the committee of four. -/
def second (owners : List ℕ) : List Vertex := owners.map (vertex 2 [1, 2, 3, 4])

/-- The passes in which a node of the committee of four comes to round `2` and receives
vertices of it. -/
def roundTwo (owners : List ℕ) : List NodeEvent := pass [] ++ pass (second owners)

/-- A pass in which a node of round `r` receives the vertices of this round by the owners `1`, `2`
and `3`. -/
def passOf (r : ℕ) : List NodeEvent := pass ([1, 2, 3].map (vertex r [1, 2, 3]))

end Sample

end DagRider
