import DagRider.Model.Hashing

set_option relaxedAutoImplicit false
set_option autoImplicit false

/-!
# The hash of a block and how it was built

The constructor hashes the list of the transactions, and `addTransaction` an object with the hash
from before. A list and an object have different encodings, so a block that a transaction was added
to does not have the hash of its transactions.

## Main definitions

* `DagRider.Hasher.Separates` — `blake3` does not collide on two inputs.
* `DagRider.Hasher.TellsArrays` — arrays and objects have different encodings.

## Main results

* `DagRider.Block.transactions_foldl` — what calls of `addTransaction` make of the transactions.
* `DagRider.Block.hash_addTransaction_ne` — the hash is another one, whatever it was before.
* `DagRider.Block.built_eq_new_iff` — when a block is the one that the constructor makes.
-/

namespace DagRider

/-- The two inputs are the same if their hashes are. -/
def Hasher.Separates (H : Hasher) (s t : Bytes) : Prop := H.blake3 s = H.blake3 t → s = t

/-- The encoding of an array is not that of an object. -/
def Hasher.TellsArrays (H : Hasher) : Prop :=
  ∀ elements members, H.toCbor (.array elements) ≠ H.toCbor (.object members)

namespace Block

variable {H : Hasher} {block : Block} {ts us : List Transaction}

/-- The transactions are added at the end, in order. -/
lemma transactions_foldl (us : List Transaction) (block : Block) :
    (us.foldl (addTransaction H) block).transactions = block.transactions ++ us := by
  induction us generalizing block with
  | nil => exact (List.append_nil _).symm
  | cons u us ih =>
    rw [List.foldl_cons, ih]
    show (block.transactions ++ [u]) ++ us = block.transactions ++ (u :: us)
    rw [List.append_assoc, List.singleton_append]

/-- **A call gives another hash than the constructor**, whatever the hash was before. -/
lemma hash_addTransaction_ne (hcbor : H.TellsArrays) (block : Block) (u : Transaction)
    (hblake : H.Separates (encodedTransactions H (block.transactions ++ [u]))
      (encodedWith H block u)) :
    digest H (block.transactions ++ [u]) ≠ (block.addTransaction H u).hash := by
  intro heq
  have hencoded : encodedTransactions H (block.transactions ++ [u]) = encodedWith H block u :=
    hblake heq
  exact hcbor _ _ hencoded

/-- A block that calls were made on is the one that the constructor makes only if there were none,
and it was this one from the start.

**Proof sketch.** Only the last call matters: the hash is the digest of an object, and the
constructor computes that of an array (`hash_addTransaction_ne`). -/
lemma foldl_eq_new_iff (hcbor : H.TellsArrays)
    (hblake : ∀ vs v, us = vs ++ [v] →
      H.Separates (encodedTransactions H (block.transactions ++ us))
        (encodedWith H (vs.foldl (addTransaction H) block) v)) :
    us.foldl (addTransaction H) block = new (digest H) (block.transactions ++ us) ↔
      us = [] ∧ block = new (digest H) block.transactions := by
  rcases List.eq_nil_or_concat' us with rfl | ⟨vs, v, rfl⟩
  · rw [List.append_nil]
    exact ⟨fun h => ⟨rfl, h⟩, fun h => h.2⟩
  · have htxs := transactions_foldl (H := H) vs block
    have hne := hash_addTransaction_ne hcbor (vs.foldl (addTransaction H) block) v
    rw [htxs, List.append_assoc] at hne
    constructor
    · intro h
      rw [List.foldl_append] at h
      exact absurd (congrArg Block.hash h).symm (hne (hblake vs v rfl))
    · rintro ⟨h, -⟩
      simp at h

/-- **Exactly when a block does not tell how it was built.** However many transactions are added to
a block that the constructor made, one after another, it has the transactions and the hash of the
block that the constructor makes of all of them if and only if none is added; where `blake3` does
not collide on what the last call and the constructor hash. -/
theorem built_eq_new_iff (hcbor : H.TellsArrays)
    (hblake : ∀ vs v, us = vs ++ [v] → H.Separates (encodedTransactions H (ts ++ us))
      (encodedWith H (vs.foldl (addTransaction H) (new (digest H) ts)) v)) :
    ((us.foldl (addTransaction H) (new (digest H) ts)).transactions =
        (new (digest H) (ts ++ us)).transactions ∧
      (us.foldl (addTransaction H) (new (digest H) ts)).hash =
        (new (digest H) (ts ++ us)).hash) ↔ us = [] := by
  have hiff := @foldl_eq_new_iff H (new (digest H) ts) us hcbor hblake
  constructor
  · rintro ⟨htxs, hhash⟩
    refine (hiff.mp ?_).1
    show Block.mk _ _ = Block.mk _ _
    rw [Block.mk.injEq]
    exact ⟨htxs, hhash⟩
  · intro hus
    rw [hiff.mpr ⟨hus, rfl⟩]
    exact ⟨rfl, rfl⟩

/-- The sample encoding tells an array from an object: they begin with other major types. -/
lemma tellsArrays_hasher : Sample.hasher.TellsArrays := by
  intro elements members heq
  obtain ⟨k, hk, harray⟩ := Sample.exists_cborHead 4 elements.length
  obtain ⟨k', hk', hobject⟩ := Sample.exists_cborHead 5 members.length
  have hhead : (Sample.toCbor (.array elements)).head? =
      (Sample.toCbor (.object members)).head? := congrArg List.head? heq
  rw [Sample.toCbor, Sample.toCbor, List.head?_append, List.head?_append, harray, hobject] at hhead
  have hbyte := congrArg UInt8.toNat (Option.some.inj hhead)
  rw [UInt8.toNat_ofNat', UInt8.toNat_ofNat'] at hbyte
  omega

/-- A transaction was added to a block with one, and it does not have the hash of both. -/
theorem built_eq_new_iff_two : ¬
    (((new (digest Sample.hasher) [[1]]).addTransaction Sample.hasher [2]).transactions =
        (new (digest Sample.hasher) [[1], [2]]).transactions ∧
      ((new (digest Sample.hasher) [[1]]).addTransaction Sample.hasher [2]).hash =
        (new (digest Sample.hasher) [[1], [2]]).hash) := by
  intro h
  have hiff := (@built_eq_new_iff _ [[1]] [[2]] tellsArrays_hasher ?_).mp h
  · simp at hiff
  · intro vs v hus
    obtain ⟨rfl, rfl⟩ : vs = [] ∧ v = [2] := by
      rcases vs with - | ⟨w, vs⟩
      · simpa [eq_comm] using hus
      · simp at hus
    show _ = _ → _ = _
    decide +kernel

/-- A block without transactions that one is added to has another hash than the block that the
constructor makes of it. -/
theorem added_hash_ne_constructed :
    let added := (new (digest Sample.hasher) []).addTransaction Sample.hasher
      (ascii "Transaction 1")
    let constructed := new (digest Sample.hasher) [ascii "Transaction 1"]
    added.transactions = constructed.transactions ∧ added.hash ≠ constructed.hash := by
  decide +kernel

end Block

end DagRider
