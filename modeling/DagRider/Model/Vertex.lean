import DagRider.Lib.OrderedMap
import DagRider.Lib.UnorderedMap
import Mathlib.Data.UInt
import Mathlib.Order.Fin.Basic

set_option relaxedAutoImplicit false
set_option autoImplicit false

/-!
# Blocks, vertices and the committee

The data of `src/model`: `block.hpp`, `vertex.hpp` / `vertex.cpp`, `validator.hpp` and
`committee.cpp`.

* `std::array<uint8_t, 32>` is a number below `2^256`, most significant byte first, so that
  the order of numbers is the lexicographic order of the arrays.
* `Round` (`uint64_t`), `Wave` and `currentRound` (`uint32_t`) are natural numbers; where
  the code's arithmetic can wrap, the definitions reduce modulo the width.
* The digest of a vertex (`blake3` of the `cbor` of its JSON) and the iteration order of
  `std::unordered_map` are not in the repository; `Platform` is the parameter for both.

## Main definitions

* `DagRider.Block`, `DagRider.Vertex`, `DagRider.Committee`.
* `DagRider.Platform` — the digest and the hash-map layout.
* `DagRider.Vertex.new`, `DagRider.Vertex.genesis` — the constructor and the genesis
  vertices.
-/

namespace DagRider

/-- `std::array<uint8_t, 32>`. -/
abbrev Bytes32 := Fin (2 ^ 256)

instance neZero_bytes32 : NeZero (2 ^ 256) := ⟨by decide⟩

/-- The key that owns a vertex. -/
abbrev NodePublicKey := Bytes32

/-- The hash that identifies a vertex. -/
abbrev VertexHash := Bytes32

instance decidableMemHashes (h : VertexHash) (hs : List VertexHash) : Decidable (h ∈ hs) :=
  List.instDecidableMemOfLawfulBEq h hs

/-- A transaction is a string of bytes. -/
abbrev Transaction := List UInt8

/-- A block of transactions with its hash. -/
structure Block where
  /-- The transactions, in order. -/
  transactions : List Transaction
  /-- The digest. -/
  hash : Bytes32
deriving DecidableEq

/-- The value-initialised block `Block()`: no transactions, a hash of zeros. -/
def Block.default : Block := ⟨[], 0⟩

/-- The parents of a vertex: hash and recorded round (`std::map<VertexHash, Round>`). -/
abbrev Parents := OrderedMap VertexHash ℕ

/-- A vertex of the DAG. -/
structure Vertex where
  /-- The hash the constructor computed. -/
  hash : VertexHash
  /-- The key of the node that created it. -/
  owner : NodePublicKey
  /-- The block it carries. -/
  block : Block
  /-- Its strong and weak parents. -/
  parents : Parents
  /-- Its round. -/
  round : ℕ
deriving DecidableEq

/-- What the model takes from outside the repository. -/
structure Platform where
  /-- The digest the `Vertex` constructor computes from the owner, round, block and parents. -/
  digest : NodePublicKey → ℕ → Block → Parents → VertexHash
  /-- Where `std::unordered_map<NodePublicKey, Vertex>` puts its entries. -/
  layout : Layout (NodePublicKey × Vertex)

namespace Vertex

/-- The constructor `Vertex::Vertex`. -/
def new (P : Platform) (owner : NodePublicKey) (round : ℕ) (block : Block)
    (parents : Parents) : Vertex :=
  ⟨P.digest owner round block parents, owner, block, parents, round⟩

/-- The genesis vertices: one of round `1` for each key, without parents. -/
def genesis (P : Platform) (nodes : List NodePublicKey) : List Vertex :=
  nodes.map fun owner => new P owner 1 Block.default OrderedMap.empty

/-- Record a parent; the hash stays as it was. -/
def addParent (v : Vertex) (parentVertexHash : VertexHash) (round : ℕ) : Vertex :=
  { v with parents := v.parents.set parentVertexHash round }

/-- `round_ - previous_round == 1` on `uint64_t`. -/
def isPreviousRound (v : Vertex) (previousRound : ℕ) : Bool :=
  (v.round + 2 ^ 64 - previousRound) % 2 ^ 64 = 1

/-- The parents recorded with the previous round. -/
def getStrongParents (v : Vertex) : Parents :=
  v.parents.entries.foldl (fun strongParents parent =>
    if v.isPreviousRound parent.2 then strongParents.set parent.1 parent.2 else strongParents)
    OrderedMap.empty

/-- All parents. -/
def getAllParents (v : Vertex) : Parents := v.parents

/-- Among the given vertices, a hash names one owner and one round. It is all that is used of
the digest being injective: the constructor hashes the owner and the round, and weak edges
are added after it. -/
def HashesInjective (vs : List Vertex) : Prop :=
  ∀ u ∈ vs, ∀ v ∈ vs, u.hash = v.hash → u.owner = v.owner ∧ u.round = v.round

instance (vs : List Vertex) : Decidable (HashesInjective vs) :=
  inferInstanceAs (Decidable (∀ u ∈ vs, ∀ v ∈ vs, u.hash = v.hash →
    u.owner = v.owner ∧ u.round = v.round))

end Vertex

/-! ## The committee -/

/-- `uint32_t`. -/
abbrev Id := Fin (2 ^ 32)

instance neZero_id : NeZero (2 ^ 32) := ⟨by decide⟩

instance neZero_port : NeZero (2 ^ 16) := ⟨by decide⟩

/-- A TCP endpoint: an IPv4 address and a port. -/
structure Endpoint where
  /-- The IPv4 address. -/
  address : Fin (2 ^ 32)
  /-- The port. -/
  port : Fin (2 ^ 16)
deriving DecidableEq

/-- A member of the committee. -/
structure Validator where
  /-- Where it receives vertices. -/
  address : Endpoint
  /-- Where it receives transactions. -/
  txAddress : Endpoint
  /-- Where it receives blocks. -/
  blockAddress : Endpoint
  /-- Its key. -/
  publicKey : NodePublicKey
deriving DecidableEq

/-- The constructor `Validator::Validator`, with the key derived from the key pair. -/
def Validator.new (publicKey : NodePublicKey) (port txPort blockPort : Fin (2 ^ 16)) :
    Validator :=
  ⟨⟨0, port⟩, ⟨0, txPort⟩, ⟨0, blockPort⟩, publicKey⟩

/-- The committee: `std::unordered_map<Id, Validator>`. -/
structure Committee where
  /-- The validators by id. -/
  validators : UnorderedMap Id Validator

namespace Committee

/-- The constructor `Committee::Committee`; `publicKey` derives a key from a key pair. -/
def new (L : Layout (Id × Validator)) (publicKey : String → NodePublicKey) : Committee :=
  let validators := UnorderedMap.empty.set L 1 (Validator.new (publicKey
    ("ad7f2ee3958a7f3fa2c84931770f5773ef7694fdd0bb217d90f29a94199c9d730" ++
      "7ca3851515c89344639fe6a4077923068d1d7fc6106701213c61d34ef8e9416")) 1234 1244 1254)
  let validators := validators.set L 2 (Validator.new (publicKey
    ("5a353c630d3faf8e2d333a0983c1c71d5e9b6aed8f4959578fbeb3d3f31728863" ++
      "93b576de0ac1fe86a4dd416cf032543ac1bd066eb82585f779f6ce21237c0cd")) 1235 1245 1255)
  let validators := validators.set L 3 (Validator.new (publicKey
    ("6f4b736b9a6894858a81696d9c96cbdacf3d49099d212213f5abce33da18716f0" ++
      "67f8a2b9aeb602cd4163291ebbf39e0e024634f3be19bde4c490465d9095a6b")) 1236 1246 1256)
  let validators := validators.set L 4 (Validator.new (publicKey
    ("3ae38eec96146c241f6cadf01995af14f027b23b8fecbc77dbc2e3ed5fec6fc3f" ++
      "b4fe5534f7affc9a8f1d99e290fdb91cc26777edd6fae480cad9f735d1b3680")) 1237 1247 1257)
  ⟨validators⟩

/-- `Committee::size`. -/
def size (c : Committee) : ℕ := c.validators.size

/-- `Committee::quorum_threshold`; the division is on integers, so the `floor` around it
changes nothing. -/
def quorumThreshold (c : Committee) : ℕ := c.validators.size * 2 / 3 + 1

/-- `Committee::get_nodes_keys`: the keys, in iteration order. -/
def getNodesKeys (c : Committee) : List NodePublicKey :=
  c.validators.values.map Validator.publicKey

/-- `Committee::get_node_addresses`. -/
def getNodeAddresses (c : Committee) : List Endpoint :=
  c.validators.values.map Validator.address

/-- `Committee::get_block_receiver_addresses`. -/
def getBlockReceiverAddresses (c : Committee) : List Endpoint :=
  c.validators.values.map Validator.blockAddress

/-- `Committee::get_tx_receiver_addresses`. -/
def getTxReceiverAddresses (c : Committee) : List Endpoint :=
  c.validators.values.map Validator.txAddress

/-- `Committee::get_node_addresses_but_me`. -/
def getNodeAddressesButMe (c : Committee) (id : Id) : List Endpoint :=
  (c.validators.entries.filter fun validator => validator.1 ≠ id).map fun validator =>
    validator.2.address

/-- What the member with an id has, or a value for the ids of no member. -/
def ofMember {α : Type} (c : Committee) (field : Validator → α) (none : α) (id : Id) : α :=
  ((c.validators.find? id).map field).getD none

/-- `Committee::get_node_address`. -/
def getNodeAddress (c : Committee) : Id → Endpoint := c.ofMember Validator.address ⟨0, 0⟩

/-- `Committee::get_tx_receiver_address`. -/
def getTxReceiverAddress (c : Committee) : Id → Endpoint := c.ofMember Validator.txAddress ⟨0, 0⟩

/-- `Committee::get_block_receiver_address`. -/
def getBlockReceiverAddress (c : Committee) : Id → Endpoint :=
  c.ofMember Validator.blockAddress ⟨0, 0⟩

/-- `Committee::get_node_key`. -/
def getNodeKey (c : Committee) : Id → NodePublicKey := c.ofMember Validator.publicKey 0

/-- The committee has one key for each member. -/
@[simp] lemma length_getNodesKeys (c : Committee) : c.getNodesKeys.length = c.size := by
  simp [getNodesKeys, size]

/-- Ids have 32 bits, so a committee has at most `2^32` members. -/
lemma size_le (c : Committee) : c.size ≤ 2 ^ 32 := by
  have h : c.size = (c.validators.entries.map Prod.fst).length := (List.length_map _).symm
  rw [h]
  exact c.validators.nodup.length_le_card.trans_eq (Fintype.card_fin _)

end Committee

/-! ## Genesis vertices, strong and weak parents -/

namespace Vertex

variable {P : Platform}

/-- There is one genesis vertex for each key. -/
@[simp] lemma length_genesis (nodes : List NodePublicKey) :
    (genesis P nodes).length = nodes.length := List.length_map _

/-- A genesis vertex has round `1`, a committee key and no parents. -/
lemma of_mem_genesis {nodes : List NodePublicKey} {v : Vertex} (h : v ∈ genesis P nodes) :
    v.round = 1 ∧ v.owner ∈ nodes ∧ v.parents = OrderedMap.empty := by
  obtain ⟨o, ho, rfl⟩ := List.mem_map.mp h
  exact ⟨rfl, ho, rfl⟩

/-- A key has one genesis vertex. -/
lemma genesis_unique {nodes : List NodePublicKey} {u v : Vertex} (hu : u ∈ genesis P nodes)
    (hv : v ∈ genesis P nodes) (h : u.owner = v.owner) : u = v := by
  obtain ⟨o, -, rfl⟩ := List.mem_map.mp hu
  obtain ⟨o', -, rfl⟩ := List.mem_map.mp hv
  have ho : o = o' := h
  rw [ho]

/-- The strong parents are the parents recorded with the previous round. -/
lemma mem_getStrongParents {v : Vertex} {e : VertexHash × ℕ} :
    e ∈ v.getStrongParents.entries ↔
      e ∈ v.parents.entries ∧ v.isPreviousRound e.2 = true := by
  have hfilter : v.getStrongParents =
      OrderedMap.ofList (v.parents.entries.filter fun e => v.isPreviousRound e.2) := by
    rw [OrderedMap.ofList, List.foldl_filter]
    rfl
  rw [hfilter, OrderedMap.mem_ofList_iff, List.mem_filter]
  intro a ha b hb hab
  have ha' : (a.1, a.2) ∈ v.parents.entries := (List.mem_filter.mp ha).1
  have hb' : (a.1, b.2) ∈ v.parents.entries := hab ▸ (List.mem_filter.mp hb).1
  exact Prod.ext hab (OrderedMap.value_unique ha' hb')

end Vertex

end DagRider
