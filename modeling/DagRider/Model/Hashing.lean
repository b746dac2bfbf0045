import DagRider.Model.Transactions

set_option relaxedAutoImplicit false
set_option autoImplicit false

/-!
# Hashes of blocks

The constructor of `src/model/block.cpp` and `addTransaction`. Both hash a CBOR text; `to_cbor` and
`blake3` are not in the repository and are the fields of a `Hasher`.

## Main definitions

* `DagRider.Hasher` — `to_cbor` and `blake3`.
* `DagRider.Block.digest` — the digest of the constructor, for `Block.new`.
* `DagRider.Block.addTransaction`.
-/

namespace DagRider

/-- `json::to_cbor` and `blake3`. -/
structure Hasher where
  toCbor : Json → Bytes
  blake3 : Bytes → Bytes32

namespace Block

/-- What the constructor hashes: the list of the transactions. -/
def encodedTransactions (H : Hasher) (transactions : List Transaction) : Bytes :=
  H.toCbor (.array (transactions.map .ofBytes))

/-- The digest that the constructor computes. -/
def digest (H : Hasher) (transactions : List Transaction) : Bytes32 :=
  H.blake3 (encodedTransactions H transactions)

/-- What `addTransaction` hashes: the block with the new transaction and the hash from before. -/
def encodedWith (H : Hasher) (block : Block) (transaction : Bytes) : Bytes :=
  H.toCbor { block with transactions := block.transactions ++ [transaction] }.toJson

/-- `Block::addTransaction`. -/
def addTransaction (H : Hasher) (block : Block) (transaction : Bytes) : Block :=
  ⟨block.transactions ++ [transaction], H.blake3 (encodedWith H block transaction)⟩

end Block

/-! ## A sample encoding -/

namespace Sample

/-- A number in as many bytes, most significant first. -/
def bigEndian (bytes n : ℕ) : Bytes :=
  (List.range bytes).map fun i => UInt8.ofNat (n / 256 ^ (bytes - 1 - i))

/-- The head of an item: its major type in three bits, and a number in the other five or in `1`,
`2`, `4` or `8` more bytes. -/
def cborHead (major n : ℕ) : Bytes :=
  if n < 24 then [UInt8.ofNat (32 * major + n)]
  else if n < 2 ^ 8 then UInt8.ofNat (32 * major + 24) :: bigEndian 1 n
  else if n < 2 ^ 16 then UInt8.ofNat (32 * major + 25) :: bigEndian 2 n
  else if n < 2 ^ 32 then UInt8.ofNat (32 * major + 26) :: bigEndian 4 n
  else UInt8.ofNat (32 * major + 27) :: bigEndian 8 n

mutual

/-- The CBOR text of a value; floating-point numbers are left out. -/
def toCbor : Json → Bytes
  | .null => [246]
  | .boolean b => [if b then 245 else 244]
  | .unsigned n => cborHead 0 n
  | .integer z => cborHead 1 (-1 - z).toNat
  | .float _ => []
  | .string s => cborHead 3 s.length ++ s
  | .array xs => cborHead 4 xs.length ++ cborElements xs
  | .object ms => cborHead 5 ms.length ++ cborMembers ms

/-- The texts of the elements of an array. -/
def cborElements : List Json → Bytes
  | [] => []
  | x :: xs => toCbor x ++ cborElements xs

/-- The texts of the members of an object. -/
def cborMembers : List (Bytes × Json) → Bytes
  | [] => []
  | (k, x) :: ms => cborHead 3 k.length ++ k ++ toCbor x ++ cborMembers ms

end

/-- Values are encoded; the digest is the last `32` bytes. -/
def hasher : Hasher := ⟨toCbor, Bytes32.ofBytes⟩

/-- A head begins with its major type. -/
lemma exists_cborHead (major n : ℕ) :
    ∃ k < 32, (cborHead major n).head? = some (UInt8.ofNat (32 * major + k)) := by
  unfold cborHead
  split_ifs with h
  · exact ⟨n, by omega, rfl⟩
  · exact ⟨24, by omega, rfl⟩
  · exact ⟨25, by omega, rfl⟩
  · exact ⟨26, by omega, rfl⟩
  · exact ⟨27, by omega, rfl⟩

end Sample

end DagRider
