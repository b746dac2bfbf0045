import DagRider.Lib.Decimal
import DagRider.Lib.JsonMap
import DagRider.Model.Broadcaster
import DagRider.Model.Wire

set_option relaxedAutoImplicit false
set_option autoImplicit false

/-!
# The committee as JSON

`to_json` and `from_json` of `src/model/validator.cpp` and `committee.cpp`. An endpoint is a text
`address:port`. Before its first colon there is no other one, so an address that `make_address`
accepts there is an IPv4 address; `make_address` itself is not in the repository and is a
parameter.

## Main definitions

* `DagRider.ConfigExn` — the exceptions of `from_json`.
* `DagRider.InvertsToString` — what is assumed of `make_address`.
* `DagRider.Endpoint.toText`, `DagRider.Endpoint.ofText` — an endpoint as a text.
* `DagRider.Validator.toJson`, `DagRider.Validator.fromJson`.
* `DagRider.Committee.toJson`, `DagRider.Committee.fromJson`.
-/

namespace DagRider

/-- An exception. -/
inductive ConfigExn where
  /-- An error of typed access to a JSON value. -/
  | json (error : Json.Error)
  /-- `boost::system::system_error` of `make_address`. -/
  | address
  /-- An error of `std::stoi`. -/
  | stoi (error : Decimal.StoiError)
deriving DecidableEq

instance : MonadLift (Except Json.Error) (Except ConfigExn) := ⟨fun x => x.mapError ConfigExn.json⟩

/-- A `make_address` that inverts `address::to_string` on IPv4 addresses. -/
def InvertsToString (makeAddress : Bytes → Option (Fin (2 ^ 32))) : Prop :=
  ∀ e : Endpoint, makeAddress (ascii e.addressToString) = some e.address

/-- `std::string::npos`. -/
def npos : ℕ := 2 ^ 64 - 1

/-- `std::string::find` of one character. -/
def find (s : Bytes) (b : UInt8) : ℕ := (s.idxOf? b).getD npos

namespace Endpoint

/-- `address().to_string() + ":" + std::to_string(port())`. -/
def toText (e : Endpoint) : Bytes :=
  ascii e.addressToString ++ ascii ":" ++ Decimal.print e.port.val

/-- The endpoint of a text: `make_address` on what stands before the first colon, and `stoi` on
what stands after it, cut off to a `uint16_t`. Without a colon both get the whole text, as
`npos + 1` is `0`. The order of the two is not specified; it decides only which of two exceptions
is thrown. -/
def ofText (makeAddress : Bytes → Option (Fin (2 ^ 32))) (text : Bytes) :
    Except ConfigExn Endpoint := do
  let colon := find text 58
  match makeAddress (text.take colon) with
  | none => throw .address
  | some address =>
    let port ← (Decimal.stoi (text.drop ((colon + 1) % 2 ^ 64))).mapError ConfigExn.stoi
    return ⟨address, Fin.ofNat _ (port % 2 ^ 16).toNat⟩

end Endpoint

namespace Validator

/-- `to_json(json &, const Validator &)`. -/
def toJson (validator : Validator) : Json :=
  .object [
    (ascii "address", .string validator.address.toText),
    (ascii "block_address", .string validator.blockAddress.toText),
    (ascii "public_key", .ofBytes (Bytes32.toBytes validator.publicKey)),
    (ascii "tx_address", .string validator.txAddress.toText)]

/-- `from_json(const json &, Validator &)`: every field of the validator is assigned. -/
def fromJson (makeAddress : Bytes → Option (Fin (2 ^ 32))) (j : Json) :
    Except ConfigExn Validator := do
  let addressStr ← (← j.at' "address").getString
  let txAddressStr ← (← j.at' "tx_address").getString
  let blockAddressStr ← (← j.at' "block_address").getString
  let address ← Endpoint.ofText makeAddress addressStr
  let txAddress ← Endpoint.ofText makeAddress txAddressStr
  let blockAddress ← Endpoint.ofText makeAddress blockAddressStr
  let publicKey ← (← j.at' "public_key").getArray 32
  return ⟨address, txAddress, blockAddress, Bytes32.ofBytes publicKey⟩

end Validator

namespace Committee

/-- `to_json(json &, const Committee &)`. -/
def toJson (committee : Committee) : Json :=
  .object [
    (ascii "validators",
      committee.validators.toJson (fun id => .unsigned id.val) Validator.toJson)]

/-- `from_json(const json &, Committee &)`, into a committee with whatever validators. What an
exception leaves of them is not described. -/
def fromJson (makeAddress : Bytes → Option (Fin (2 ^ 32))) (L : Layout (Id × Validator)) (j : Json)
    (committee : Committee) : Except ConfigExn Committee := do
  let validators ← j.at' "validators"
  let validators ← UnorderedMap.getTo ConfigExn.json L
    (fun id => id.getUInt32.mapError ConfigExn.json) (Validator.fromJson makeAddress)
    validators committee.validators
  return ⟨validators⟩

end Committee

end DagRider
