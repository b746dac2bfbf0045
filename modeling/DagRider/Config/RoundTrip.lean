import DagRider.Config.Lookups
import DagRider.Model.Config
import DagRider.Model.Node

set_option relaxedAutoImplicit false
set_option autoImplicit false

/-!
# A committee that is written and read again

An address has digits and dots only, so the first colon of an endpoint's text is the one that
`to_json` wrote, and `from_json` splits the text where it was put together. The port is below
`2^16`, so that `stoi` reads it and the cast keeps it. Validators are read one by one into a map
that was cleared, under keys that are distinct.

## Main results

* `DagRider.Endpoint.ofText_toText`, `DagRider.Validator.fromJson_toJson` — endpoints and
  validators are read back.
* `DagRider.Committee.round_trip` — so are committees, into any target.
* `DagRider.Committee.agree_fromJson_toJson` — to the accessors the two are the same.
-/

namespace DagRider

/-! ## Endpoints -/

/-- The first place of a character that does not come before it. -/
lemma find_append_cons {s t : Bytes} {b : UInt8} (h : b ∉ s) : find (s ++ b :: t) b = s.length := by
  have hs : s.findIdx? (· == b) = none := List.idxOf?_eq_none_iff.mpr h
  have hidx : (s ++ b :: t).idxOf? b = some s.length := by
    show (s ++ b :: t).findIdx? (· == b) = some s.length
    rw [List.findIdx?_append, hs, List.findIdx?_cons, beq_self_eq_true]
    simp
  rw [find, hidx, Option.getD_some]

namespace Endpoint

/-- The text of an address: four decimals with dots between them. -/
lemma ascii_addressToString (e : Endpoint) : ascii e.addressToString =
    [46].intercalate ([24, 16, 8, 0].map fun i => Decimal.print (e.address.val / 2 ^ i % 256)) := by
  have hdot : ".".toList = ['.'] := rfl
  unfold addressToString Decimal.print ascii
  rw [String.toList_intercalate, hdot]
  simp [List.intercalate]

/-- There is no colon in an address. -/
lemma colon_notMem (e : Endpoint) : (58 : UInt8) ∉ ascii e.addressToString := by
  have hdigits : ∀ n, (58 : UInt8) ∉ Decimal.print n := fun n => Decimal.notMem_print (by decide)
  rw [ascii_addressToString]
  simp [List.intercalate, hdigits]

/-- An address has at most four times three digits, and three dots. -/
lemma length_address_le (e : Endpoint) : (ascii e.addressToString).length ≤ 15 := by
  have hbyte : ∀ n, (Decimal.print (n % 256)).length ≤ 3 := fun n =>
    Decimal.length_print_le (by decide) ((Nat.mod_lt n (by decide)).trans (by decide))
  have h3 := hbyte (e.address.val / 2 ^ 24)
  have h2 := hbyte (e.address.val / 2 ^ 16)
  have h1 := hbyte (e.address.val / 2 ^ 8)
  have h0 := hbyte e.address.val
  rw [ascii_addressToString]
  simp only [List.intercalate, List.map_cons, List.map_nil, List.intersperse_cons_cons,
    List.intersperse_singleton, List.flatten_cons, List.flatten_nil, List.length_append,
    List.length_cons, List.length_nil, pow_zero, Nat.div_one]
  omega

/-- The first colon of the text stands behind the address. -/
lemma find_toText (e : Endpoint) : find e.toText 58 = (ascii e.addressToString).length := by
  rw [toText, List.append_assoc]
  exact find_append_cons e.colon_notMem

variable {makeAddress : Bytes → Option (Fin (2 ^ 32))}

/-- **An endpoint is read back from its text.** -/
theorem ofText_toText (hmake : InvertsToString makeAddress) (e : Endpoint) :
    ofText makeAddress e.toText = .ok e := by
  have hlen := length_address_le e
  have htake : e.toText.take (find e.toText 58) = ascii e.addressToString := by
    rw [find_toText, toText, List.append_assoc, List.take_left]
  have hdrop : e.toText.drop ((find e.toText 58 + 1) % 2 ^ 64) = Decimal.print e.port.val := by
    rw [find_toText, Nat.mod_eq_of_lt (by omega), toText]
    exact List.drop_left' (by simp [ascii])
  have hport : Decimal.stoi (Decimal.print e.port.val) = .ok (e.port.val : ℤ) :=
    Decimal.stoi_print (e.port.isLt.trans (by decide))
  have hcast : Fin.ofNat (2 ^ 16) ((e.port.val : ℤ) % 2 ^ 16).toNat = e.port := by
    refine Fin.ext ?_
    show ((e.port.val : ℤ) % 2 ^ 16).toNat % 2 ^ 16 = e.port.val
    omega
  unfold ofText
  dsimp only
  rw [htake, hdrop, hmake e, hport]
  show Except.ok (Endpoint.mk e.address (Fin.ofNat (2 ^ 16) ((e.port.val : ℤ) % 2 ^ 16).toNat)) = _
  rw [hcast]

end Endpoint

variable {makeAddress : Bytes → Option (Fin (2 ^ 32))}

/-- **A validator is read back.** -/
theorem Validator.fromJson_toJson (hmake : InvertsToString makeAddress) (v : Validator) :
    fromJson makeAddress v.toJson = .ok v := by
  have haddress : v.toJson.at' "address" = .ok (.string v.address.toText) := rfl
  have htx : v.toJson.at' "tx_address" = .ok (.string v.txAddress.toText) := rfl
  have hblock : v.toJson.at' "block_address" = .ok (.string v.blockAddress.toText) := rfl
  have hkey : v.toJson.at' "public_key" = .ok (.ofBytes (Bytes32.toBytes v.publicKey)) := rfl
  have hbytes : (Json.ofBytes (Bytes32.toBytes v.publicKey)).getArray 32 =
      .ok (Bytes32.toBytes v.publicKey) := by
    have h := Json.getArray_ofBytes (Bytes32.toBytes v.publicKey)
    rwa [Bytes32.length_toBytes] at h
  unfold fromJson
  rw [haddress, htx, hblock, hkey]
  show (do
    let address ← Endpoint.ofText makeAddress v.address.toText
    let txAddress ← Endpoint.ofText makeAddress v.txAddress.toText
    let blockAddress ← Endpoint.ofText makeAddress v.blockAddress.toText
    let publicKey ← (Json.ofBytes (Bytes32.toBytes v.publicKey)).getArray 32
    return (⟨address, txAddress, blockAddress, Bytes32.ofBytes publicKey⟩ : Validator)) = _
  rw [Endpoint.ofText_toText hmake, Endpoint.ofText_toText hmake, Endpoint.ofText_toText hmake,
    hbytes]
  show Except.ok (Validator.mk v.address v.txAddress v.blockAddress
    (Bytes32.ofBytes (Bytes32.toBytes v.publicKey))) = _
  rw [Bytes32.ofBytes_toBytes]

/-! ## Committees -/

/-- An id is read back. -/
lemma getUInt32_unsigned (id : Id) : (Json.unsigned id.val).getUInt32 = .ok id := by
  have hcast : Fin.ofNat (2 ^ 32) id.val = id := Fin.ext (Nat.mod_eq_of_lt id.isLt)
  show Except.ok (Fin.ofNat (2 ^ 32) id.val) = _
  rw [hcast]

/-- A committee is read back, into any target: the committee that is read has the same validators
under the same ids. -/
lemma Committee.exists_fromJson_toJson (hmake : InvertsToString makeAddress)
    (L : Layout (Id × Validator)) (committee target : Committee) :
    ∃ committee', fromJson makeAddress L committee.toJson target = .ok committee' ∧
      committee.Same committee' := by
  have hvalidators : committee.toJson.at' "validators" = .ok
      (committee.validators.toJson (fun id => .unsigned id.val) Validator.toJson) := rfl
  have hid : ∀ id : Id, (Json.unsigned id.val).getUInt32.mapError ConfigExn.json = .ok id := by
    intro id
    rw [getUInt32_unsigned]
    rfl
  obtain ⟨validators, hget, hfind⟩ : ∃ validators, UnorderedMap.getTo ConfigExn.json L
      (fun id => id.getUInt32.mapError ConfigExn.json) (Validator.fromJson makeAddress)
      (committee.validators.toJson (fun id => .unsigned id.val) Validator.toJson)
      target.validators = .ok validators ∧
      ∀ id, validators.find? id = committee.validators.find? id :=
    UnorderedMap.getTo_toJson hid (Validator.fromJson_toJson hmake) _ _
  refine ⟨⟨validators⟩, ?_, hfind⟩
  unfold fromJson
  rw [hvalidators]
  exact congrArg (fun x => x >>= fun validators => .ok (Committee.mk validators)) hget

/-- **A committee is read back, into any target.** However the tables are laid out, the committee
that is read has the ids of the one that was written, each with the same validator; what the target
held is gone. -/
theorem Committee.round_trip (hmake : InvertsToString makeAddress) (L : Layout (Id × Validator))
    (committee target : Committee) :
    ∃ committee', fromJson makeAddress L committee.toJson target = .ok committee' ∧
      ∀ id, committee'.validators.find? id = committee.validators.find? id :=
  exists_fromJson_toJson hmake L committee target

/-- **What is read back routes as the original does**: every accessor tells the same of the two,
the lists up to their order. -/
theorem Committee.agree_fromJson_toJson (hmake : InvertsToString makeAddress)
    (L : Layout (Id × Validator)) (committee target : Committee) :
    ∃ committee', fromJson makeAddress L committee.toJson target = .ok committee' ∧
      committee.Agree committee' := by
  obtain ⟨committee', hread, hsame⟩ := exists_fromJson_toJson hmake L committee target
  exact ⟨committee', hread, hsame.agree⟩

namespace Sample

/-- `make_address` on texts of IPv4 addresses: four decimals below `256`, without leading zeros. -/
def dottedQuad (text : Bytes) : Option (Fin (2 ^ 32)) :=
  let parts := (text.splitOn 46).map fun p => (p, Decimal.value p)
  if parts.length = 4 ∧ ∀ p ∈ parts, p.1 = Decimal.print p.2 ∧ p.2 < 256 then
    some (Fin.ofNat _ (parts.foldl (fun n p => 256 * n + p.2) 0))
  else none

/-- The texts that `to_string` makes are read back. -/
lemma invertsToString : InvertsToString dottedQuad := by
  intro e
  have hdots : ∀ n, (46 : UInt8) ∉ Decimal.print n := fun n => Decimal.notMem_print (by decide)
  have hparts : ((ascii e.addressToString).splitOn 46).map (fun p => (p, Decimal.value p)) =
      [24, 16, 8, 0].map fun i =>
        (Decimal.print (e.address.val / 2 ^ i % 256), e.address.val / 2 ^ i % 256) := by
    rw [e.ascii_addressToString, List.splitOn_intercalate _ (by simp [hdots]) (by simp)]
    simp [Decimal.value_print]
  have hbyte : ∀ n, n % 256 < 256 := fun n => Nat.mod_lt n (by decide)
  unfold dottedQuad
  dsimp only
  rw [hparts, if_pos ⟨rfl, by simp [hbyte]⟩]
  refine congrArg some (Fin.ext ?_)
  simp only [List.map_cons, List.map_nil, List.foldl_cons, List.foldl_nil]
  show _ % 2 ^ 32 = e.address.val
  have := e.address.isLt
  omega

/-- A committee of two members with various endpoints. -/
def remote : Committee :=
  ⟨(UnorderedMap.empty.set (Layout.front _) 7
    ⟨⟨167772167, 65535⟩, ⟨2130706433, 0⟩, ⟨3232235777, 1254⟩, 5⟩).set (Layout.front _) 4294967295
    ⟨⟨4294967295, 80⟩, ⟨0, 1⟩, ⟨256, 443⟩, 6⟩⟩

end Sample

/-- The two members take the place of the four that the default constructor puts there. -/
theorem Committee.round_trip_remote : ∃ committee', Committee.fromJson Sample.dottedQuad
    (Layout.front _) Sample.remote.toJson Sample.four = .ok committee' ∧
    ∀ id, committee'.validators.find? id = Sample.remote.validators.find? id :=
  Committee.round_trip Sample.invertsToString _ _ _

end DagRider
