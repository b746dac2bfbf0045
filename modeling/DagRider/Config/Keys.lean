import DagRider.Model.Keys

set_option relaxedAutoImplicit false
set_option autoImplicit false

/-!
# Which key strings are read as they stand

`create_keypair` reads the first `32` pairs of characters with `stoi` and never looks at the rest.
A pair is read if it begins with a digit, whatever comes then, and if a digit follows white space or
a sign. So a string that is no key is rejected only for its length or for one of these pairs.

## Main definitions

* `DagRider.Validator.IsKeyString` — `128` hexadecimal digits.
* `DagRider.Validator.ReadStrictly` — only such a string is accepted, and its bytes are read.

## Main results

* `DagRider.Validator.isOk_createKeypair_iff` — the strings that are accepted.
* `DagRider.Validator.readStrictly_iff` — exactly when a string is read strictly.
-/

namespace DagRider

namespace Validator

open Hexadecimal (isDigit digit lower Accepts)

variable {ed25519Publickey : Bytes → Bytes} {kps kps' : Bytes}

/-- The character at a place, which is there. -/
def charAt (kps : Bytes) (i : ℕ) : UInt8 := kps.getD i 0

/-- Exactly `128` hexadecimal digits. -/
def IsKeyString (kps : Bytes) : Prop := kps.length = 128 ∧ ∀ b ∈ kps, isDigit b = true

/-- The byte that two digits write. -/
def writtenByte (kps : Bytes) (i : ℕ) : UInt8 :=
  UInt8.ofNat (16 * digit (charAt kps (2 * i)) + digit (charAt kps (2 * i + 1)))

/-- The string is accepted if and only if it is a key string, and then the secret key has the bytes
that the digits write. -/
def ReadStrictly (ed25519Publickey : Bytes → Bytes) (kps : Bytes) : Prop :=
  ((∃ keys, createKeypair ed25519Publickey kps = .ok keys) ↔ IsKeyString kps) ∧
    (IsKeyString kps → ∃ keys, createKeypair ed25519Publickey kps = .ok keys ∧
      ∀ i < 32, keys.2[i]? = some (writtenByte kps i))

/-- The characters of a key string are digits. -/
lemma IsKeyString.isDigit_charAt (h : IsKeyString kps) {i : ℕ} (hi : i < 128) :
    isDigit (charAt kps i) = true := by
  have hlt : i < kps.length := by rw [h.1]; exact hi
  rw [charAt, List.getD_eq_getElem _ _ hlt]
  exact h.2 _ (List.getElem_mem hlt)

/-- Two characters from the middle of a string. -/
lemma take_two (hlen : kps.length = 128) {i : ℕ} (hi : i < 32) :
    (kps.drop (2 * i)).take 2 = [charAt kps (2 * i), charAt kps (2 * i + 1)] := by
  have h0 : 2 * i < kps.length := by omega
  have h1 : 2 * i + 1 < kps.length := by omega
  rw [List.drop_eq_getElem_cons h0, List.drop_eq_getElem_cons h1, charAt, charAt,
    List.getD_eq_getElem _ _ h0, List.getD_eq_getElem _ _ h1]
  rfl

/-- A pair is read if its characters are. -/
lemma isOk_secretByte_iff (hlen : kps.length = 128) {i : ℕ} (hi : i < 32) :
    (∃ b, secretByte kps i = .ok b) ↔ Accepts (charAt kps (2 * i)) (charAt kps (2 * i + 1)) := by
  rw [← Hexadecimal.isOk_stoi_pair_iff, ← take_two hlen hi]
  unfold secretByte
  simp only [Json.bind_eq_ok, Json.mapError_eq_ok]
  constructor
  · rintro ⟨b, n, hn, -⟩
    exact ⟨n, hn⟩
  · rintro ⟨n, hn⟩
    exact ⟨_, n, hn, rfl⟩

/-- A pair of digits is read as the byte that it writes. -/
lemma secretByte_eq (h : IsKeyString kps) {i : ℕ} (hi : i < 32) :
    secretByte kps i = .ok (writtenByte kps i) := by
  have hx := h.isDigit_charAt (show 2 * i < 128 by omega)
  have hy := h.isDigit_charAt (show 2 * i + 1 < 128 by omega)
  have hlt := Hexadecimal.digit_lt hx
  have hlt' := Hexadecimal.digit_lt hy
  have hcast : ((16 * digit (charAt kps (2 * i)) + digit (charAt kps (2 * i + 1)) : ℤ) %
      256).toNat = 16 * digit (charAt kps (2 * i)) + digit (charAt kps (2 * i + 1)) := by
    omega
  unfold secretByte
  dsimp only
  rw [take_two h.1 hi, Hexadecimal.stoi_pair hx hy]
  show Except.ok (UInt8.ofNat _) = _
  rw [hcast]
  rfl

/-- **The strings that are accepted**: of the right length, with `32` pairs that are read. -/
lemma isOk_createKeypair_iff :
    (∃ keys, createKeypair ed25519Publickey kps = .ok keys) ↔
      kps.length = 128 ∧
        ∀ i < 32, Accepts (charAt kps (2 * i)) (charAt kps (2 * i + 1)) := by
  unfold createKeypair
  simp only [Json.bind_eq_ok, Json.ite_throw_eq_ok, not_not]
  have hmapM : (∃ secret, (List.range 32).mapM (secretByte kps) = .ok secret) ↔
      ∀ i < 32, ∃ b, secretByte kps i = .ok b := by
    rw [Json.isOk_mapM_iff]
    simp only [List.mem_range]
  constructor
  · rintro ⟨keys, hlen, secret, hsecret, -⟩
    exact ⟨hlen, fun i hi => (isOk_secretByte_iff hlen hi).mp (hmapM.mp ⟨secret, hsecret⟩ i hi)⟩
  · rintro ⟨hlen, hpairs⟩
    obtain ⟨secret, hsecret⟩ := hmapM.mpr fun i hi =>
      (isOk_secretByte_iff hlen hi).mpr (hpairs i hi)
    exact ⟨_, hlen, secret, hsecret, rfl⟩

/-- A key string is read as the bytes that its digits write. -/
lemma createKeypair_eq (h : IsKeyString kps) :
    createKeypair ed25519Publickey kps =
      .ok (ed25519Publickey ((List.range 32).map (writtenByte kps)),
        (List.range 32).map (writtenByte kps)) := by
  have hmapM : (List.range 32).mapM (secretByte kps) =
      .ok ((List.range 32).map (writtenByte kps)) :=
    Json.mapM_eq_ok fun i hi => secretByte_eq h (List.mem_range.mp hi)
  unfold createKeypair
  rw [if_neg (not_not.mpr h.1), hmapM]
  rfl

/-- Pairs that write one byte have the same digits, up to the case of letters. -/
lemma lower_eq_of_writtenByte_eq (h : IsKeyString kps) (h' : IsKeyString kps') {i : ℕ}
    (hi : i < 32) (hbyte : writtenByte kps i = writtenByte kps' i) :
    lower (charAt kps (2 * i)) = lower (charAt kps' (2 * i)) ∧
      lower (charAt kps (2 * i + 1)) = lower (charAt kps' (2 * i + 1)) := by
  have hx := h.isDigit_charAt (show 2 * i < 128 by omega)
  have hy := h.isDigit_charAt (show 2 * i + 1 < 128 by omega)
  have hx' := h'.isDigit_charAt (show 2 * i < 128 by omega)
  have hy' := h'.isDigit_charAt (show 2 * i + 1 < 128 by omega)
  have hlt := Hexadecimal.digit_lt hx
  have hlt₁ := Hexadecimal.digit_lt hy
  have hlt' := Hexadecimal.digit_lt hx'
  have hlt₁' := Hexadecimal.digit_lt hy'
  have hnat := congrArg UInt8.toNat hbyte
  unfold writtenByte at hnat
  rw [UInt8.toNat_ofNat', UInt8.toNat_ofNat'] at hnat
  exact ⟨Hexadecimal.lower_eq_of_digit_eq hx hx' (by omega),
    Hexadecimal.lower_eq_of_digit_eq hy hy' (by omega)⟩

/-- Key strings with one secret key have the same first `64` digits, up to the case of letters. -/
lemma map_lower_eq (h : IsKeyString kps) (h' : IsKeyString kps')
    (hsame : ∀ i < 32, writtenByte kps i = writtenByte kps' i) :
    (kps.take 64).map lower = (kps'.take 64).map lower := by
  have hlen := h.1
  have hlen' := h'.1
  refine List.ext_getElem (by simp [hlen, hlen']) fun n hn hn' => ?_
  have hn64 : n < 64 := by
    rw [List.length_map, List.length_take] at hn
    omega
  obtain ⟨hx, hy⟩ := lower_eq_of_writtenByte_eq h h' (show n / 2 < 32 by omega)
    (hsame (n / 2) (by omega))
  have hchar : lower (charAt kps n) = lower (charAt kps' n) := by
    rcases Nat.mod_two_eq_zero_or_one n with hmod | hmod
    · rwa [show 2 * (n / 2) = n by omega] at hx
    · rwa [show 2 * (n / 2) + 1 = n by omega] at hy
  rw [charAt, charAt, List.getD_eq_getElem _ _ (by omega), List.getD_eq_getElem _ _ (by omega)]
    at hchar
  rw [List.getElem_map, List.getElem_map, List.getElem_take, List.getElem_take]
  exact hchar

/-- A string is read strictly if it is a key string or is not accepted. -/
lemma readStrictly_iff_or :
    ReadStrictly ed25519Publickey kps ↔ IsKeyString kps ∨
      ¬ ∃ keys, createKeypair ed25519Publickey kps = .ok keys := by
  constructor
  · intro h
    by_cases hkey : IsKeyString kps
    · exact Or.inl hkey
    · exact Or.inr fun hok => hkey (h.1.mp hok)
  · rintro (hkey | hnot)
    · refine ⟨iff_of_true ⟨_, createKeypair_eq hkey⟩ hkey, fun _ => ⟨_, createKeypair_eq hkey, ?_⟩⟩
      intro i hi
      rw [List.getElem?_map, List.getElem?_range hi]
      rfl
    · have hnokey : ¬ IsKeyString kps := fun hkey => hnot ⟨_, createKeypair_eq hkey⟩
      exact ⟨iff_of_false hnot hnokey, fun hkey => absurd hkey hnokey⟩

/-- **Exactly when a key string is parsed strictly**: when it does not have `128` characters, or
all of them are hexadecimal digits, or one of its first `32` pairs neither begins with a digit nor
is a digit behind white space or a sign. Two strings that are parsed strictly and accepted, with
one secret key, have the same first `64` digits, up to the case of letters.

**Proof sketch.** A string is accepted if its first `32` pairs are (`isOk_createKeypair_iff`). The
two digits of a byte are known from it. -/
theorem readStrictly_iff (ed25519Publickey : Bytes → Bytes) (kps : Bytes) :
    (ReadStrictly ed25519Publickey kps ↔
      kps.length ≠ 128 ∨ (∀ b ∈ kps, isDigit b = true) ∨
        ∃ i < 32, ¬ Accepts (charAt kps (2 * i)) (charAt kps (2 * i + 1))) ∧
    ∀ kps' keys keys', ReadStrictly ed25519Publickey kps → ReadStrictly ed25519Publickey kps' →
      createKeypair ed25519Publickey kps = .ok keys →
      createKeypair ed25519Publickey kps' = .ok keys' → keys.2 = keys'.2 →
      (kps.take 64).map lower = (kps'.take 64).map lower := by
  constructor
  · rw [readStrictly_iff_or, isOk_createKeypair_iff]
    constructor
    · rintro (hkey | hnot)
      · exact Or.inr (Or.inl hkey.2)
      · by_contra hcond
        push Not at hcond
        exact hnot ⟨hcond.1, hcond.2.2⟩
    · rintro (hlen | hdigits | ⟨i, hi, hpair⟩)
      · exact Or.inr fun h => hlen h.1
      · by_cases hlen : kps.length = 128
        · exact Or.inl ⟨hlen, hdigits⟩
        · exact Or.inr fun h => hlen h.1
      · exact Or.inr fun h => hpair (h.2 i hi)
  · intro kps' keys keys' h h' hok hok' hsecret
    have hkey := h.1.mp ⟨keys, hok⟩
    have hkey' := h'.1.mp ⟨keys', hok'⟩
    refine map_lower_eq hkey hkey' fun i hi => ?_
    obtain ⟨k, hk, hbytes⟩ := h.2 hkey
    obtain ⟨k', hk', hbytes'⟩ := h'.2 hkey'
    obtain rfl := Except.ok.inj (hok.symm.trans hk)
    obtain rfl := Except.ok.inj (hok'.symm.trans hk')
    have hbyte := hbytes i hi
    rw [hsecret, hbytes' i hi] at hbyte
    exact (Option.some.inj hbyte).symm

/-- The text begins with a digit and a letter that is none, and with a minus sign before a digit;
its second half has no digits at all. -/
def mistyped : Bytes := ascii "1g-1" ++ List.replicate 60 48 ++ List.replicate 64 122

/-- A key string for the same secret key. -/
def wellTyped : Bytes := ascii "01ff" ++ List.replicate 124 48

/-- The mistyped text is accepted, with the secret key of another string. -/
theorem mistyped_accepted : ∃ keys, createKeypair id mistyped = .ok keys ∧
    createKeypair id wellTyped = .ok keys ∧ ¬ IsKeyString mistyped ∧
    (mistyped.take 64).map lower ≠ (wellTyped.take 64).map lower := by
  refine ⟨(1 :: 255 :: List.replicate 30 0, 1 :: 255 :: List.replicate 30 0), ?_, ?_, ?_, ?_⟩
  · decide +kernel
  · decide +kernel
  · exact fun h => absurd (h.2 122 (by decide +kernel)) (by decide)
  · decide +kernel

end Validator

end DagRider
