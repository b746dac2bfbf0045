import DagRider.Model.Node

set_option relaxedAutoImplicit false
set_option autoImplicit false

/-!
# Runs of a network of nodes

One node for each member of the committee, all executing `Consensus` with that committee.
The network keeps every vertex ever broadcast, and a batch handed to a node may hold any of
them in any order and number: vertices are delayed, reordered, duplicated and lost.

## Main definitions

* `DagRider.Network`, `DagRider.NetworkEvent`, `DagRider.Network.step`,
  `DagRider.Network.init`.
* `DagRider.Network.sent`, `DagRider.Network.vertices` — what was broadcast, and the
  genesis vertices with it.
* `DagRider.Network.IsRun` — the runs the agreement results are about.
-/

namespace DagRider

/-- The nodes of a network, by their position among the committee's keys. -/
structure Network where
  nodes : List Node

/-- A step of one node. -/
structure NetworkEvent where
  node : ℕ
  event : NodeEvent
deriving DecidableEq

namespace Network

/-- Every vertex broadcast so far. -/
def sent (N : Network) : List Vertex := N.nodes.flatMap fun nd => nd.consensus.vertexToBroadcast

/-- A node takes a step; what it receives was broadcast before. -/
def step (P : Platform) (N : Network) (e : NetworkEvent) : Option Network := do
  let nd ← N.nodes[e.node]?
  if ∀ v ∈ e.event.vertices, v ∈ N.sent then
    let nd ← nd.step P e.event
    return ⟨N.nodes.set e.node nd⟩
  else none

/-- The network as it starts: one node for each key of the committee. -/
def init (P : Platform) (committee : Committee) : Network :=
  ⟨committee.getNodesKeys.map fun nodeId => Node.init P nodeId committee⟩

/-- The events of one node. -/
def eventsOf (i : ℕ) (es : List NetworkEvent) : List NodeEvent :=
  es.filterMap fun e => if e.node = i then some e.event else none

/-- Every vertex there is: the genesis vertices and all that was broadcast. -/
def vertices (P : Platform) (committee : Committee) (N : Network) : List Vertex :=
  Vertex.genesis P committee.getNodesKeys ++ N.sent

/-- No node has passed round `2^32 - 1`. -/
def NotWrapped (N : Network) : Prop := ∀ nd ∈ N.nodes, nd.NotWrapped

instance : DecidablePred NotWrapped := fun N =>
  inferInstanceAs (Decidable (∀ nd ∈ N.nodes, nd.NotWrapped))

/-- `es` is a run of the network that ends in `N`, for a committee of distinct keys and a
digest without collisions on the vertices of the run. -/
structure IsRun (P : Platform) (committee : Committee) (es : List NetworkEvent)
    (N : Network) : Prop where
  distinctKeys : committee.getNodesKeys.Nodup
  exec : Run.exec (step P) (init P committee) es = some N
  hashesInjective : Vertex.HashesInjective (N.vertices P committee)

end Network

/-! ## Four nodes -/

namespace Sample

/-- The events of one node of the network. -/
def eventsAt (node : ℕ) (es : List NodeEvent) : List NetworkEvent :=
  es.map fun event => ⟨node, event⟩

/-- The same events at each of four nodes in turn. -/
def eventsAtAll (es : List NodeEvent) : List NetworkEvent :=
  [0, 1, 2, 3].flatMap fun node => eventsAt node es

/-- A run of four nodes that all receive the vertices of rounds `2` and `3` by the owners `1`,
`2` and `3`, and come to round `4`. -/
def toRoundFour : List NetworkEvent :=
  eventsAtAll (pass []) ++ eventsAtAll (pass (second [1, 2, 3])) ++
    eventsAtAll (pass ([1, 2, 3].map (vertex 3 [1, 2, 3])))

/-- The run goes on in the same way, and all four nodes come to round `n`. -/
def toRound (n : ℕ) : List NetworkEvent :=
  toRoundFour ++ (List.range' 4 (n - 4)).flatMap fun r => eventsAtAll (passOf r)

/-- The first node has committed wave `2`, and the second one is about to. -/
def toSecondCommit : List NetworkEvent :=
  toRound 8 ++ eventsAt 0 (passOf 8) ++ eventsAt 1 (passOf 8).dropLast

/-- A pass in which a node of round `4` receives vertices of this round. -/
def fourthPass (owners : List ℕ) : List NodeEvent := pass (owners.map (vertex 4 [1, 2, 3]))

/-- Of round `4` the first node receives the vertices of `owners` and the second those of
`owners'`, and then the two commit wave `1`. -/
def fourNodes (owners owners' : List ℕ) : List NetworkEvent :=
  toRoundFour ++ eventsAt 0 (fourthPass owners) ++ eventsAt 1 (fourthPass owners')

end Sample

end DagRider
