import DagRider.Lib.Json
import DagRider.Model.Vertex

set_option relaxedAutoImplicit false
set_option autoImplicit false

/-!
# Blocks, vertices and transactions as JSON

`to_json` and `from_json` of `src/model/block.cpp` and `vertex.cpp`, and the decoding of a
transaction in `src/transaction/coordinator.cpp`. The members of an object stand in the order
of their keys. The text functions of the JSON library are a `Json.Codec`.

## Main definitions

* `DagRider.Exn` — the exceptions that decoding and the vertex pipeline throw.
* `DagRider.Block.toJson`, `DagRider.Block.fromJson`.
* `DagRider.Vertex.toJson`, `DagRider.Vertex.fromJson`, `DagRider.Vertex.decode`.
* `DagRider.Transaction.decode`.
-/

namespace DagRider

/-- An exception. -/
inductive Exn where
  /-- `parse_error` of `json::parse`. -/
  | parseError
  /-- An error of typed access to a JSON value. -/
  | json (error : Json.Error)
  /-- `std::invalid_argument`. -/
  | invalidArgument (what : String)
  /-- `std::future_error`. -/
  | futureError
deriving DecidableEq

instance : MonadLift (Except Json.Error) (Except Exn) := ⟨fun x => x.mapError Exn.json⟩

/-- `json::parse`. -/
def parse (T : Json.Codec) (message : Bytes) : Except Exn Json :=
  match T.parse message with
  | some j => .ok j
  | none => .error .parseError

namespace Bytes32

/-- The bytes of an array, first byte first. -/
def toBytes (a : Bytes32) : Bytes :=
  (List.range 32).map fun i => UInt8.ofNat (a.val / 256 ^ (31 - i))

/-- The array with these bytes. -/
def ofBytes (bytes : Bytes) : Bytes32 :=
  Fin.ofNat _ (bytes.foldl (fun n b => 256 * n + b.toNat) 0)

/-- An array has 32 bytes. -/
@[simp] lemma length_toBytes (a : Bytes32) : (toBytes a).length = 32 := by
  simp [toBytes]

/-- The first bytes of an array stand for its upper digits. -/
lemma foldl_toBytes (a : Bytes32) :
    ∀ k ≤ 32, (((List.range k).map fun i => UInt8.ofNat (a.val / 256 ^ (31 - i))).foldl
      (fun n b => 256 * n + b.toNat) 0) = a.val / 256 ^ (32 - k)
  | 0, _ => by
    have ha : a.val < 256 ^ 32 := a.isLt.trans_eq (by decide)
    exact (Nat.div_eq_of_lt ha).symm
  | k + 1, hk => by
    have ih := foldl_toBytes a k (by omega)
    have hstep : 256 ^ (32 - k) = 256 ^ (32 - (k + 1)) * 256 := by
      rw [← pow_succ, show 32 - (k + 1) + 1 = 32 - k by omega]
    rw [List.range_succ, List.map_append, List.foldl_append, ih, hstep, ← Nat.div_div_eq_div_mul]
    show 256 * (a.val / 256 ^ (32 - (k + 1)) / 256) +
      (UInt8.ofNat (a.val / 256 ^ (31 - k))).toNat = _
    rw [UInt8.toNat_ofNat', show 31 - k = 32 - (k + 1) by omega]
    omega

/-- An array is known from its bytes. -/
lemma ofBytes_toBytes (a : Bytes32) : ofBytes (toBytes a) = a := by
  unfold ofBytes toBytes
  rw [foldl_toBytes a 32 le_rfl]
  refine Fin.ext ?_
  show a.val / 256 ^ (32 - 32) % 2 ^ 256 = a.val
  rw [Nat.sub_self, pow_zero, Nat.div_one, Nat.mod_eq_of_lt a.isLt]

end Bytes32

/-! ## Blocks and transactions -/

namespace Block

/-- `to_json(json &, const Block &)`. -/
def toJson (block : Block) : Json :=
  .object [
    (ascii "hash", .ofBytes (Bytes32.toBytes block.hash)),
    (ascii "transactions", .array (block.transactions.map .ofBytes))]

/-- `from_json(const json &, Block &)`. -/
def fromJson (j : Json) : Except Json.Error Block := do
  let hash ← (← j.at' "hash").getArray 32
  let transactions ← (← j.at' "transactions").getVector (Json.getVector Json.getUInt8)
  return ⟨transactions, Bytes32.ofBytes hash⟩

end Block

/-- What `TxReceiverHandler::dispatch` makes of a message: `json::parse` and
`get_to(transaction)`. -/
def Transaction.decode (T : Json.Codec) (message : Bytes) : Except Exn Transaction := do
  let j ← parse T message
  j.getVector Json.getUInt8

/-! ## Vertices -/

namespace Vertex

/-- `Vertex::to_json`. The parents are a map whose keys are not strings, so an array of
`[key, value]` pairs. -/
def toJson (v : Vertex) : Json :=
  .object [
    (ascii "block", v.block.toJson),
    (ascii "hash", .ofBytes (Bytes32.toBytes v.hash)),
    (ascii "owner", .ofBytes (Bytes32.toBytes v.owner)),
    (ascii "parents", .array (v.parents.entries.map fun e =>
      .array [.ofBytes (Bytes32.toBytes e.1), .unsigned e.2])),
    (ascii "round", .unsigned v.round)]

/-- One turn of the loop over `parents`. -/
def parentFromJson (parents : Parents) (parent : Bytes × Json) : Except Exn Parents := do
  let parentKeyStr := parent.1
  if parentKeyStr.length ≠ 32 then throw (.invalidArgument "Invalid parent key size")
  let round ← parent.2.getUInt64
  return parents.set (Bytes32.ofBytes parentKeyStr) round

/-- `Vertex::from_json`. -/
def fromJson (j : Json) : Except Exn Vertex := do
  let hashStr ← (← j.at' "hash").getString
  if hashStr.length ≠ 32 then throw (.invalidArgument "Invalid hash size")
  let ownerStr ← (← j.at' "owner").getString
  if ownerStr.length ≠ 32 then throw (.invalidArgument "Invalid owner size")
  let block ← Block.fromJson (← j.at' "block")
  let parents ← (← j.at' "parents").items.foldlM parentFromJson OrderedMap.empty
  let round ← (← j.at' "round").getUInt64
  return ⟨Bytes32.ofBytes hashStr, Bytes32.ofBytes ownerStr, block, parents, round⟩

/-- What `VertexReceiverHandler::dispatch` makes of a message. -/
def decode (T : Json.Codec) (message : Bytes) : Except Exn Vertex := do
  let j ← parse T message
  fromJson j

end Vertex

/-! ## Sample texts -/

namespace Sample

mutual

/-- The compact text of a JSON value whose strings need no escapes. -/
def print : Json → Bytes
  | .null => ascii "null"
  | .boolean b => ascii (toString b)
  | .unsigned n => ascii (toString n)
  | .integer z => ascii (toString z)
  | .float z => ascii (toString z ++ ".0")
  | .string s => ascii "\"" ++ s ++ ascii "\""
  | .array xs => ascii "[" ++ Json.commas (printElements xs) ++ ascii "]"
  | .object ms => ascii "\x7b" ++ Json.commas (printMembers ms) ++ ascii "\x7d"

/-- The texts of the elements of an array. -/
def printElements : List Json → List Bytes
  | [] => []
  | x :: xs => print x :: printElements xs

/-- The texts of the members of an object. -/
def printMembers : List (Bytes × Json) → List Bytes
  | [] => []
  | (k, x) :: ms => (ascii "\"" ++ k ++ ascii "\":" ++ print x) :: printMembers ms

end

/-- A library that prints every value and reads the texts of the given ones. -/
def codec (js : List Json) : Json.Codec where
  dump := print
  parse s := js.find? fun j => print j = s

end Sample

end DagRider
