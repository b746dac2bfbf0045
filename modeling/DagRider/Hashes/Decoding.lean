import DagRider.Model.Transactions
import DagRider.Node.Digest

set_option relaxedAutoImplicit false
set_option autoImplicit false

/-!
# What decoding makes of hashes

`from_json` assigns the hash of a vertex, and that of its block, from what was sent. Neither is
compared with a digest, so any 32 bytes are accepted. That vertices of one hash are one vertex is
left to those who send the digests of what they send.

## Main definitions

* `DagRider.Block.Decodes`, `DagRider.Vertex.Decodes` — the members of a value and what they are
  decoded to.

## Main results

* `DagRider.Vertex.fromJson_eq_ok_iff` — the values that are accepted.
* `DagRider.Vertex.hashes_taken_as_sent` — any hash is accepted, and when a hash names one vertex.
-/

namespace DagRider

/-! ## Blocks -/

namespace Block

variable {j hash transactions : Json} {block : Block} {hashBytes : Bytes}

/-- The members of a JSON value, and the block that they are decoded to. -/
structure Decodes (j hash transactions : Json) (hashBytes : Bytes) (block : Block) : Prop where
  at_hash : j.at' "hash" = .ok hash
  hash_bytes : hash.getArray 32 = .ok hashBytes
  hash_eq : block.hash = Bytes32.ofBytes hashBytes
  at_transactions : j.at' "transactions" = .ok transactions
  transactions_eq :
    transactions.getVector (Json.getVector Json.getUInt8) = .ok block.transactions

/-- A block is decoded from its two members. -/
lemma fromJson_eq_ok_iff :
    fromJson j = .ok block ↔
      ∃ hash transactions hashBytes, Decodes j hash transactions hashBytes block := by
  unfold fromJson
  simp only [Json.bind_eq_ok]
  constructor
  · rintro ⟨hash, hat, bytes, hbytes, txs, hattxs, transactions, htxs, heq⟩
    obtain rfl : (⟨transactions, Bytes32.ofBytes bytes⟩ : Block) = block := Except.ok.inj heq
    exact ⟨hash, txs, bytes, hat, hbytes, rfl, hattxs, htxs⟩
  · rintro ⟨hash, txs, bytes, h⟩
    refine ⟨hash, h.at_hash, bytes, h.hash_bytes, txs, h.at_transactions, block.transactions,
      h.transactions_eq, ?_⟩
    rw [← h.hash_eq]
    rfl

/-- Any other 32 bytes are accepted as the hash of the block. -/
lemma Decodes.replace_hash (h : Decodes j hash transactions hashBytes block) {other : Bytes}
    (hother : other.length = 32) :
    Decodes (j.replace "hash" (.ofBytes other)) (.ofBytes other) transactions other
      { block with hash := Bytes32.ofBytes other } where
  at_hash := Json.at'_replace h.at_hash _
  hash_bytes := hother ▸ Json.getArray_ofBytes other
  hash_eq := rfl
  at_transactions := (Json.at'_replace_of_ne (by decide) j _).trans h.at_transactions
  transactions_eq := h.transactions_eq

end Block

/-! ## Vertices -/

namespace Vertex

variable {P : Platform} {j block parents round : Json} {hash owner : Bytes} {v : Vertex}

/-- The members of a JSON value, and the vertex that they are decoded to. -/
structure Decodes (j : Json) (hash owner : Bytes) (block parents round : Json) (v : Vertex) :
    Prop where
  at_hash : j.at' "hash" = .ok (.string hash)
  length_hash : hash.length = 32
  hash_eq : v.hash = Bytes32.ofBytes hash
  at_owner : j.at' "owner" = .ok (.string owner)
  length_owner : owner.length = 32
  owner_eq : v.owner = Bytes32.ofBytes owner
  at_block : j.at' "block" = .ok block
  block_eq : Block.fromJson block = .ok v.block
  at_parents : j.at' "parents" = .ok parents
  parents_eq : parents.items.foldlM parentFromJson OrderedMap.empty = .ok v.parents
  at_round : j.at' "round" = .ok round
  round_eq : round.getUInt64 = .ok v.round

/-- **The values that `from_json` accepts**, and what it makes of them. -/
theorem fromJson_eq_ok_iff :
    fromJson j = .ok v ↔
      ∃ hash owner block parents round, Decodes j hash owner block parents round v := by
  have hlift : ∀ {α : Type} {x : Except Json.Error α} {a : α},
      (liftM x : Except Exn α) = .ok a ↔ x = .ok a := Json.mapError_eq_ok
  unfold fromJson
  simp only [Json.bind_eq_ok, hlift, Json.getString_eq_ok, Json.ite_throw_eq_ok, not_not]
  constructor
  · rintro ⟨_, hathash, hash, rfl, hlen, _, hatowner, owner, rfl, hlen', block, hatblock, b, hb,
      parents, hatparents, ps, hps, round, hatround, r, hr, heq⟩
    obtain rfl : (⟨Bytes32.ofBytes hash, Bytes32.ofBytes owner, b, ps, r⟩ : Vertex) = v :=
      Except.ok.inj heq
    exact ⟨hash, owner, block, parents, round, hathash, hlen, rfl, hatowner, hlen', rfl, hatblock,
      hb, hatparents, hps, hatround, hr⟩
  · rintro ⟨hash, owner, block, parents, round, h⟩
    refine ⟨_, h.at_hash, hash, rfl, h.length_hash, _, h.at_owner, owner, rfl, h.length_owner,
      block, h.at_block, v.block, h.block_eq, parents, h.at_parents, v.parents, h.parents_eq,
      round, h.at_round, v.round, h.round_eq, ?_⟩
    rw [← h.hash_eq, ← h.owner_eq]
    rfl

/-- Any other string of 32 bytes is accepted as the hash. -/
lemma Decodes.replace_hash (h : Decodes j hash owner block parents round v) {other : Bytes}
    (hother : other.length = 32) :
    Decodes (j.replace "hash" (.string other)) other owner block parents round
      { v with hash := Bytes32.ofBytes other } where
  at_hash := Json.at'_replace h.at_hash _
  length_hash := hother
  hash_eq := rfl
  at_owner := (Json.at'_replace_of_ne (by decide) j _).trans h.at_owner
  length_owner := h.length_owner
  owner_eq := h.owner_eq
  at_block := (Json.at'_replace_of_ne (by decide) j _).trans h.at_block
  block_eq := h.block_eq
  at_parents := (Json.at'_replace_of_ne (by decide) j _).trans h.at_parents
  parents_eq := h.parents_eq
  at_round := (Json.at'_replace_of_ne (by decide) j _).trans h.at_round
  round_eq := h.round_eq

/-- Any other block is decoded in the place of the block. -/
lemma Decodes.replace_block (h : Decodes j hash owner block parents round v) {block' : Json}
    {b : Block} (hb : Block.fromJson block' = .ok b) :
    Decodes (j.replace "block" block') hash owner block' parents round { v with block := b } where
  at_hash := (Json.at'_replace_of_ne (by decide) j _).trans h.at_hash
  length_hash := h.length_hash
  hash_eq := h.hash_eq
  at_owner := (Json.at'_replace_of_ne (by decide) j _).trans h.at_owner
  length_owner := h.length_owner
  owner_eq := h.owner_eq
  at_block := Json.at'_replace h.at_block _
  block_eq := hb
  at_parents := (Json.at'_replace_of_ne (by decide) j _).trans h.at_parents
  parents_eq := h.parents_eq
  at_round := (Json.at'_replace_of_ne (by decide) j _).trans h.at_round
  round_eq := h.round_eq

/-- Vertices that commit to what they are, with one hash, are one vertex, unless their digests
collide. -/
lemma Commits.eq_of_hash_eq {v v' : Vertex} (hv : v.Commits P) (hv' : v'.Commits P)
    (hdigest : P.digest v.owner v.round v.block v.parents =
        P.digest v'.owner v'.round v'.block v'.parents →
      v.owner = v'.owner ∧ v.round = v'.round ∧ v.block = v'.block ∧ v.parents = v'.parents)
    (hhash : v.hash = v'.hash) : v = v' := by
  have hsame : P.digest v.owner v.round v.block v.parents =
      P.digest v'.owner v'.round v'.block v'.parents := by
    calc
      P.digest v.owner v.round v.block v.parents = v.hash := hv.symm
      _ = v'.hash := hhash
      _ = P.digest v'.owner v'.round v'.block v'.parents := hv'
  obtain ⟨howner, hround, hblock, hparents⟩ := hdigest hsame
  cases v
  cases v'
  simp only at hhash howner hround hblock hparents
  rw [hhash, howner, hround, hblock, hparents]

/-- The value carries, under `hash`, the digest of what the vertex has besides its hash. -/
def CarriesDigest (P : Platform) (j : Json) (v : Vertex) : Prop :=
  j.at' "hash" = .ok (.string (Bytes32.toBytes (P.digest v.owner v.round v.block v.parents)))

/-- A vertex that was decoded from a value that carries its digest has its digest. -/
lemma Decodes.commits (h : Decodes j hash owner block parents round v)
    (hdigest : CarriesDigest P j v) : v.Commits P := by
  have hsame := h.at_hash.symm.trans hdigest
  obtain rfl : hash = Bytes32.toBytes (P.digest v.owner v.round v.block v.parents) :=
    Json.string.inj (Except.ok.inj hsame)
  exact h.hash_eq.trans (Bytes32.ofBytes_toBytes _)

/-- Values with one string under `hash` are decoded to vertices with one hash. -/
lemma Decodes.hash_congr {j' block' parents' round' : Json} {hash' owner' : Bytes} {v' : Vertex}
    (h : Decodes j hash owner block parents round v)
    (h' : Decodes j' hash' owner' block' parents' round' v')
    (hat : j.at' "hash" = j'.at' "hash") : v.hash = v'.hash := by
  have hsame := h.at_hash.symm.trans (hat.trans h'.at_hash)
  rw [h.hash_eq, h'.hash_eq, Json.string.inj (Except.ok.inj hsame)]

/-- **Hashes are taken as they are sent.** The hash of a vertex that `from_json` accepts is the
string under `hash`, which has 32 bytes, and that of its block the array of 32 bytes there. With any
other 32 bytes in the place of the one or the other the value is accepted as well, and decoded to
the same vertex but for this hash. Two values that are accepted and have one string under `hash` are
decoded to one vertex if it is the digest of the content of both, where the digest does not collide
on the two.

**Proof sketch.** What `from_json` reads it reads from members, each on its own
(`fromJson_eq_ok_iff`). -/
theorem hashes_taken_as_sent (P : Platform) (h : fromJson j = .ok v) :
    (∃ hash block blockHash blockHashBytes, j.at' "hash" = .ok (.string hash) ∧
      hash.length = 32 ∧ v.hash = Bytes32.ofBytes hash ∧ j.at' "block" = .ok block ∧
      block.at' "hash" = .ok blockHash ∧ blockHash.getArray 32 = .ok blockHashBytes ∧
      v.block.hash = Bytes32.ofBytes blockHashBytes ∧
      ∀ other : Bytes, other.length = 32 →
        fromJson (j.replace "hash" (.string other)) =
          .ok { v with hash := Bytes32.ofBytes other } ∧
        fromJson (j.replace "block" (block.replace "hash" (.ofBytes other))) =
          .ok { v with block := { v.block with hash := Bytes32.ofBytes other } }) ∧
    ∀ j' v', fromJson j' = .ok v' → j.at' "hash" = j'.at' "hash" →
      CarriesDigest P j v → CarriesDigest P j' v' →
      (P.digest v.owner v.round v.block v.parents =
          P.digest v'.owner v'.round v'.block v'.parents →
        v.owner = v'.owner ∧ v.round = v'.round ∧ v.block = v'.block ∧
          v.parents = v'.parents) →
      v = v' := by
  obtain ⟨hash, owner, block, parents, round, hj⟩ := fromJson_eq_ok_iff.mp h
  constructor
  · obtain ⟨blockHash, txs, bytes, hb⟩ := Block.fromJson_eq_ok_iff.mp hj.block_eq
    refine ⟨hash, block, blockHash, bytes, hj.at_hash, hj.length_hash, hj.hash_eq, hj.at_block,
      hb.at_hash, hb.hash_bytes, hb.hash_eq, fun other hother => ⟨?_, ?_⟩⟩
    · exact fromJson_eq_ok_iff.mpr ⟨_, _, _, _, _, hj.replace_hash hother⟩
    · have hblock := Block.fromJson_eq_ok_iff.mpr ⟨_, _, _, hb.replace_hash hother⟩
      exact fromJson_eq_ok_iff.mpr ⟨_, _, _, _, _, hj.replace_block hblock⟩
  · intro j' v' h' hat hv hv' hdigest
    obtain ⟨_, _, _, _, _, hj'⟩ := fromJson_eq_ok_iff.mp h'
    exact (hj.commits hv).eq_of_hash_eq (hj'.commits hv') hdigest (hj.hash_congr hj' hat)

/-- A JSON value that is decoded to the vertex, with its hash and owner as strings. -/
def accepted (v : Vertex) : Json :=
  .object [
    (ascii "block", v.block.toJson),
    (ascii "hash", .string (Bytes32.toBytes v.hash)),
    (ascii "owner", .string (Bytes32.toBytes v.owner)),
    (ascii "parents", .object (v.parents.entries.map fun e =>
      (Bytes32.toBytes e.1, .unsigned e.2))),
    (ascii "round", .unsigned v.round)]

/-- The value for a vertex, with a member that nobody reads. -/
def annotated (v : Vertex) : Json :=
  match accepted v with
  | .object members => .object (members ++ [(ascii "signature", .null)])
  | j => j

/-- With the bytes of `7` in the place of its hash a vertex is accepted as well; and from the value
with one more member no other vertex is decoded than from the value without it, as both carry its
digest. -/
theorem hashes_taken_as_sent_seven :
    fromJson ((accepted (Sample.vertex 2 [1] 1)).replace "hash" (.string (Bytes32.toBytes 7))) =
      .ok { Sample.vertex 2 [1] 1 with hash := 7 } ∧
    annotated (Sample.vertex 2 [1] 1) ≠ accepted (Sample.vertex 2 [1] 1) ∧
    ∀ v', fromJson (annotated (Sample.vertex 2 [1] 1)) = .ok v' → Sample.vertex 2 [1] 1 = v' := by
  have hv : fromJson (accepted (Sample.vertex 2 [1] 1)) = .ok (Sample.vertex 2 [1] 1) := by
    decide +kernel
  have hv' : fromJson (annotated (Sample.vertex 2 [1] 1)) = .ok (Sample.vertex 2 [1] 1) := by
    decide +kernel
  obtain ⟨⟨_, _, _, _, -, -, -, -, -, -, -, hother⟩, hsame⟩ :=
    hashes_taken_as_sent Sample.platform hv
  refine ⟨?_, fun hsame => ?_, fun v' h' => ?_⟩
  · rw [(hother _ (Bytes32.length_toBytes 7)).1, Bytes32.ofBytes_toBytes]
  · have hlength := congrArg List.length (Json.object.inj hsame)
    simp at hlength
  · obtain rfl := Except.ok.inj (hv'.symm.trans h')
    exact hsame _ _ hv' rfl rfl rfl fun _ => ⟨rfl, rfl, rfl, rfl⟩

/-- A vertex with the hash of another one is accepted: it is another vertex, although their digests
differ, and its hash is not its digest. Its block has a hash of zeros, where the digest of its
transactions is `1`. -/
theorem forged_hash_accepted :
    ∃ j j' v v', fromJson j = .ok v ∧ fromJson j' = .ok v' ∧ v.hash = v'.hash ∧ v ≠ v' ∧
      Sample.platform.digest v.owner v.round v.block v.parents ≠
        Sample.platform.digest v'.owner v'.round v'.block v'.parents ∧
      ¬ v'.Commits Sample.platform ∧
      v'.block.hash ≠ (Block.new (fun ts => Fin.ofNat _ (ts.length + 1))
        v'.block.transactions).hash := by
  refine ⟨accepted (Sample.vertex 2 [1] 1),
    accepted { Sample.vertex 3 [1] 2 with hash := (Sample.vertex 2 [1] 1).hash },
    Sample.vertex 2 [1] 1, { Sample.vertex 3 [1] 2 with hash := (Sample.vertex 2 [1] 1).hash },
    by decide +kernel, by decide +kernel, rfl, by decide +kernel, by decide +kernel, ?_,
    by decide +kernel⟩
  unfold Commits
  decide +kernel

end Vertex

end DagRider
