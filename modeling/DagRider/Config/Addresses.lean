import DagRider.Config.RoundTrip

set_option relaxedAutoImplicit false
set_option autoImplicit false

/-!
# Which texts of endpoints are read as they stand

`from_json` finds the first colon of a text and leaves the rest to `make_address` and `stoi`.
Without a colon both get the whole text; `stoi` skips white space, takes a sign and ignores what
follows the digits; and the number is cut off to a port. What is accepted is written back as it was
read only if it has the form that `to_json` writes.

## Main definitions

* `DagRider.Endpoint.WellFormed` — a colon, and after it the digits of a port.
* `DagRider.Endpoint.Strict` — the form that `to_json` writes.

## Main results

* `DagRider.Endpoint.eq_toText_iff` — a text that is accepted is that of its endpoint.
* `DagRider.Validator.addresses_exact_iff` — for the three texts of a validator.
-/

namespace DagRider

namespace Endpoint

variable {makeAddress : Bytes → Option (Fin (2 ^ 32))} {text : Bytes} {e : Endpoint}

/-- The text has a colon, and after the first one the digits of a number below `2^16`. -/
def WellFormed (text : Bytes) : Prop :=
  ∃ address port, text = address ++ 58 :: port ∧ (58 : UInt8) ∉ address ∧ port ≠ [] ∧
    (∀ b ∈ port, Decimal.isDigit b = true) ∧ Decimal.value port < 2 ^ 16

/-- The text has a colon. If `make_address` accepts what stands before the first one, that is what
`to_string` prints; after it stand the digits of a number below `2^16`, without superfluous
zeros. -/
def Strict (makeAddress : Bytes → Option (Fin (2 ^ 32))) (text : Bytes) : Prop :=
  ∃ address port, text = address ++ 58 :: port ∧ (58 : UInt8) ∉ address ∧
    (∀ a, makeAddress address = some a → address = ascii (addressToString ⟨a, 0⟩)) ∧
    Decimal.IsNumeral port ∧ Decimal.value port < 2 ^ 16

/-- A text is accepted if the address and the number are. -/
lemma ofText_eq_ok_iff :
    ofText makeAddress text = .ok e ↔ ∃ address port,
      makeAddress (text.take (find text 58)) = some address ∧
      Decimal.stoi (text.drop ((find text 58 + 1) % 2 ^ 64)) = .ok port ∧
      e = ⟨address, Fin.ofNat _ (port % 2 ^ 16).toNat⟩ := by
  unfold ofText
  dsimp only
  cases hmake : makeAddress (text.take (find text 58)) with
  | none =>
    constructor
    · intro h
      cases h
    · rintro ⟨address, port, h, -⟩
      cases h
  | some address =>
    simp only [Json.bind_eq_ok, Json.mapError_eq_ok]
    constructor
    · rintro ⟨port, hport, h⟩
      exact ⟨address, port, rfl, hport, (Except.ok.inj h).symm⟩
    · rintro ⟨address', port, haddress, hport, rfl⟩
      obtain rfl := Option.some.inj haddress
      exact ⟨port, hport, rfl⟩

/-- What `to_json` writes is well formed. -/
lemma wellFormed_toText (e : Endpoint) : WellFormed e.toText := by
  refine ⟨ascii e.addressToString, Decimal.print e.port.val, ?_, e.colon_notMem,
    Decimal.print_ne_nil _, fun b hb => Decimal.isDigit_of_mem_print hb, ?_⟩
  · rw [toText, List.append_assoc]
    rfl
  · rw [Decimal.value_print]
    exact e.port.isLt

/-- **A text that is accepted is the one of its endpoint iff it is strict.**

**Proof sketch.** The text is split at its first colon (`find_append_cons`). A port below `2^16` is
read and kept, and its digits are those that are printed (`Decimal.print_value`). -/
lemma eq_toText_iff (h : ofText makeAddress text = .ok e) :
    text = e.toText ↔ Strict makeAddress text := by
  obtain ⟨a, n, hmake, hport, rfl⟩ := ofText_eq_ok_iff.mp h
  constructor
  · intro htext
    refine ⟨ascii (addressToString ⟨a, 0⟩), _, ?_, colon_notMem _, fun a' ha' => ?_,
      Decimal.isNumeral_print (Fin.ofNat (2 ^ 16) (n % 2 ^ 16).toNat).val, ?_⟩
    · rw [htext, toText, List.append_assoc]
      rfl
    · rw [htext, find_toText, toText, List.append_assoc, List.take_left] at hmake
      have hsame : a = a' := Option.some.inj (hmake.symm.trans ha')
      rw [hsame]
    · rw [Decimal.value_print]
      exact Fin.isLt _
  · rintro ⟨address, port, rfl, hcolon, hcanonical, hnumeral, hlt⟩
    rw [find_append_cons hcolon, List.take_left] at hmake
    have haddress := hcanonical a hmake
    have hlen : address.length ≤ 15 := by
      rw [haddress]
      exact length_address_le _
    have hdrop : (address ++ 58 :: port).drop (address.length + 1) = port := by
      rw [← List.drop_drop, List.drop_left]
      rfl
    have hread := Decimal.stoi_of_digits hnumeral.ne_nil hnumeral.digits (by omega)
    rw [find_append_cons hcolon, Nat.mod_eq_of_lt (by omega), hdrop, hread] at hport
    obtain rfl := Except.ok.inj hport
    have hcast : (Fin.ofNat (2 ^ 16) ((Decimal.value port : ℤ) % 2 ^ 16).toNat).val =
        Decimal.value port := by
      show ((Decimal.value port : ℤ) % 2 ^ 16).toNat % 2 ^ 16 = Decimal.value port
      omega
    show address ++ 58 :: port = ascii (addressToString ⟨a, 0⟩) ++ ascii ":" ++ Decimal.print _
    rw [hcast, Decimal.print_value hnumeral, ← haddress, List.append_assoc]
    rfl

end Endpoint

namespace Validator

variable {makeAddress : Bytes → Option (Fin (2 ^ 32))} {j : Json} {v : Validator}

/-- What a validator that is accepted was decoded from. -/
lemma texts_of_fromJson (h : fromJson makeAddress j = .ok v) :
    ∃ address txAddress blockAddress, j.at' "address" = .ok (.string address) ∧
      j.at' "tx_address" = .ok (.string txAddress) ∧
      j.at' "block_address" = .ok (.string blockAddress) ∧
      Endpoint.ofText makeAddress address = .ok v.address ∧
      Endpoint.ofText makeAddress txAddress = .ok v.txAddress ∧
      Endpoint.ofText makeAddress blockAddress = .ok v.blockAddress := by
  have hlift : ∀ {α : Type} {x : Except Json.Error α} {a : α},
      (liftM x : Except ConfigExn α) = .ok a ↔ x = .ok a := Json.mapError_eq_ok
  unfold fromJson at h
  simp only [Json.bind_eq_ok, hlift, Json.getString_eq_ok] at h
  obtain ⟨_, haddress, address, rfl, _, htx, txAddress, rfl, _, hblock, blockAddress, rfl,
    a, ha, t, ht, b, hb, _, _, _, _, hv⟩ := h
  obtain rfl := Except.ok.inj hv
  exact ⟨address, txAddress, blockAddress, haddress, htx, hblock, ha, ht, hb⟩

/-- **Exactly when addresses are parsed strictly.** The three texts of a validator that `from_json`
accepts are those that `to_json` writes for the endpoints it is decoded to, each with a colon and
the digits of a port after it, if and only if each of them has the form that `to_json` writes.

**Proof sketch.** For each text by itself (`Endpoint.eq_toText_iff`). -/
theorem addresses_exact_iff (h : fromJson makeAddress j = .ok v) :
    ∃ address txAddress blockAddress, j.at' "address" = .ok (.string address) ∧
      j.at' "tx_address" = .ok (.string txAddress) ∧
      j.at' "block_address" = .ok (.string blockAddress) ∧
      (((address = v.address.toText ∧ txAddress = v.txAddress.toText ∧
            blockAddress = v.blockAddress.toText) ∧
          Endpoint.WellFormed address ∧ Endpoint.WellFormed txAddress ∧
            Endpoint.WellFormed blockAddress) ↔
        Endpoint.Strict makeAddress address ∧ Endpoint.Strict makeAddress txAddress ∧
          Endpoint.Strict makeAddress blockAddress) := by
  obtain ⟨address, txAddress, blockAddress, hataddress, hattx, hatblock, haddress, htx, hblock⟩ :=
    texts_of_fromJson h
  refine ⟨address, txAddress, blockAddress, hataddress, hattx, hatblock, ?_⟩
  rw [← Endpoint.eq_toText_iff haddress, ← Endpoint.eq_toText_iff htx,
    ← Endpoint.eq_toText_iff hblock]
  constructor
  · exact fun h => h.1
  · intro hexact
    refine ⟨hexact, ?_⟩
    rw [hexact.1, hexact.2.1, hexact.2.2]
    exact ⟨Endpoint.wellFormed_toText _, Endpoint.wellFormed_toText _,
      Endpoint.wellFormed_toText _⟩

end Validator

namespace Sample

/-- A validator as JSON, with these texts for its endpoints. -/
def validatorJson (address txAddress blockAddress : String) : Json :=
  .object [
    (ascii "address", .string (ascii address)),
    (ascii "block_address", .string (ascii blockAddress)),
    (ascii "public_key", .ofBytes (Bytes32.toBytes 1)),
    (ascii "tx_address", .string (ascii txAddress))]

end Sample

namespace Validator

/-- Two texts of a validator are strict. The third one has a port with a zero in front, and is not
written back as it was read. -/
theorem addresses_exact_iff_zero : ∃ v, fromJson Sample.dottedQuad
    (Sample.validatorJson "10.0.0.7:1234" "127.0.0.1:0" "0.0.0.0:0080") = .ok v ∧
    ¬ (Endpoint.Strict Sample.dottedQuad (ascii "10.0.0.7:1234") ∧
      Endpoint.Strict Sample.dottedQuad (ascii "127.0.0.1:0") ∧
      Endpoint.Strict Sample.dottedQuad (ascii "0.0.0.0:0080")) := by
  have hread : fromJson Sample.dottedQuad
      (Sample.validatorJson "10.0.0.7:1234" "127.0.0.1:0" "0.0.0.0:0080") =
        .ok ⟨⟨167772167, 1234⟩, ⟨2130706433, 0⟩, ⟨0, 80⟩, 1⟩ := by decide +kernel
  refine ⟨_, hread, ?_⟩
  obtain ⟨address, txAddress, blockAddress, haddress, htx, hblock, hiff⟩ :=
    addresses_exact_iff hread
  obtain rfl := Json.string.inj (Except.ok.inj haddress)
  obtain rfl := Json.string.inj (Except.ok.inj htx)
  obtain rfl := Json.string.inj (Except.ok.inj hblock)
  rw [← hiff]
  rintro ⟨⟨-, -, htext⟩, -⟩
  exact absurd htext (by decide +kernel)

/-- A text without a colon, one with a port above `2^16 - 1`, and one with other characters before
and after the digits are accepted; none is the text of the endpoint it stands for. -/
theorem lenient_addresses_accepted : ∃ v, fromJson Sample.dottedQuad
    (Sample.validatorJson "127.0.0.1" "127.0.0.1:65616" "127.0.0.1: +80abc") = .ok v ∧
    v.address.toText = ascii "127.0.0.1:127" ∧ v.txAddress.toText = ascii "127.0.0.1:80" ∧
    v.blockAddress.toText = ascii "127.0.0.1:80" :=
  ⟨⟨⟨2130706433, 127⟩, ⟨2130706433, 80⟩, ⟨2130706433, 80⟩, 1⟩, by decide +kernel⟩

end Validator

end DagRider
