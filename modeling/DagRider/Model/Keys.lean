import DagRider.Lib.Hexadecimal
import DagRider.Model.Vertex

set_option relaxedAutoImplicit false
set_option autoImplicit false

/-!
# Key pairs

`Validator::create_keypair` of `src/model/validator.cpp`. `ed25519_publickey` is not in the
repository and is a parameter.

## Main definitions

* `DagRider.KeyExn` — the exceptions of `create_keypair`.
* `DagRider.Validator.createKeypair`.
-/

namespace DagRider

/-- An exception. -/
inductive KeyExn where
  /-- `std::invalid_argument`. -/
  | invalidArgument (what : String)
  /-- An error of `std::stoi`. -/
  | stoi (error : Decimal.StoiError)
deriving DecidableEq

namespace Validator

/-- One turn of the loop of `create_keypair`: two characters, cut off to a `uint8_t`. -/
def secretByte (kps : Bytes) (i : ℕ) : Except KeyExn UInt8 := do
  let byteString := (kps.drop (2 * i)).take 2
  let n ← (Hexadecimal.stoi byteString).mapError KeyExn.stoi
  return UInt8.ofNat (n % 256).toNat

/-- `Validator::create_keypair`: the public key and the secret key. An exception is passed on. -/
def createKeypair (ed25519Publickey : Bytes → Bytes) (kps : Bytes) :
    Except KeyExn (Bytes × Bytes) := do
  if kps.length ≠ 128 then throw (.invalidArgument "Invalid keypair length")
  let secretKey ← (List.range 32).mapM (secretByte kps)
  return (ed25519Publickey secretKey, secretKey)

end Validator

end DagRider
