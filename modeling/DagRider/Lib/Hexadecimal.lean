import DagRider.Lib.Decimal

set_option relaxedAutoImplicit false
set_option autoImplicit false

/-!
# Hexadecimal numbers in texts

Numbers as a C++ program reads them with `std::stoi` and base `16`. Reading skips white space, takes
a sign, a mark `0x` and as many digits as there are, and ignores what follows.

## Main definitions

* `Hexadecimal.isDigit`, `Hexadecimal.digit` — the digits and what they stand for.
* `Hexadecimal.stoi` — the number at the beginning of a text, as an `int`.
* `Hexadecimal.lower` — a letter in lower case.
* `Hexadecimal.Accepts` — two characters that are read.

## Main results

* `Hexadecimal.stoi_pair` — two digits are read.
* `Hexadecimal.isOk_stoi_pair_iff` — the texts of two characters that are read at all.
* `Hexadecimal.lower_eq_of_digit_eq` — digits of one value are one up to the case of letters.
-/

namespace Hexadecimal

open Decimal (isSpace takeSign StoiError)

/-- A digit: from `0` to `9`, from `A` to `F` or from `a` to `f`. -/
def isDigit (b : UInt8) : Bool :=
  48 ≤ b.toNat && b.toNat ≤ 57 || 65 ≤ b.toNat && b.toNat ≤ 70 || 97 ≤ b.toNat && b.toNat ≤ 102

/-- The number that a digit stands for. -/
def digit (b : UInt8) : ℕ :=
  if b.toNat ≤ 57 then b.toNat - 48 else if b.toNat ≤ 70 then b.toNat - 55 else b.toNat - 87

/-- The number that digits stand for, most significant first. -/
def value (digits : Bytes) : ℕ := digits.foldl (fun n b => 16 * n + digit b) 0

/-- A letter in lower case; other bytes as they are. -/
def lower (b : UInt8) : UInt8 :=
  if 65 ≤ b.toNat ∧ b.toNat ≤ 90 then UInt8.ofNat (b.toNat + 32) else b

/-- The text after a mark `0x` or `0X`; a zero without digits behind the `x` is a number itself. -/
def skipMark : Bytes → Bytes
  | z :: x :: d :: s =>
    if z = 48 ∧ (x = 120 ∨ x = 88) ∧ isDigit d = true then d :: s else z :: x :: d :: s
  | s => s

/-- The number at the beginning of a text, after the sign. -/
def readDigits (negative : Bool) (s : Bytes) : Except StoiError ℤ :=
  let digits := (skipMark s).takeWhile isDigit
  if digits = [] then .error .invalidArgument
  else
    let n : ℤ := if negative then -(value digits : ℤ) else value digits
    if -2 ^ 31 ≤ n ∧ n < 2 ^ 31 then .ok n else .error .outOfRange

/-- `std::stoi` with base `16`. -/
def stoi (s : Bytes) : Except StoiError ℤ :=
  let (negative, s) := takeSign (s.dropWhile isSpace)
  readDigits negative s

/-! ## Digits -/

/-- A digit stands for a number below `16`. -/
lemma digit_lt {b : UInt8} (h : isDigit b = true) : digit b < 16 := by
  simp only [isDigit, Bool.or_eq_true, Bool.and_eq_true, decide_eq_true_iff] at h
  unfold digit
  split_ifs <;> omega

/-- A digit is no white space and no sign. -/
lemma not_space_of_isDigit {b : UInt8} (h : isDigit b = true) :
    isSpace b = false ∧ b ≠ 45 ∧ b ≠ 43 := by
  simp only [isDigit, Bool.or_eq_true, Bool.and_eq_true, decide_eq_true_iff] at h
  refine ⟨?_, ?_, ?_⟩
  · unfold isSpace
    rw [Bool.or_eq_false_iff, Bool.and_eq_false_iff]
    simp only [decide_eq_false_iff_not]
    omega
  · rintro rfl
    simp at h
  · rintro rfl
    simp at h

/-- A digit in lower case is known from what it stands for. -/
lemma lower_eq {b : UInt8} (h : isDigit b = true) :
    lower b = UInt8.ofNat (if digit b < 10 then 48 + digit b else 87 + digit b) := by
  simp only [isDigit, Bool.or_eq_true, Bool.and_eq_true, decide_eq_true_iff] at h
  have hbyte : UInt8.ofNat b.toNat = b := UInt8.ofNat_toNat
  rcases h with (h | h) | h
  · have hd : digit b = b.toNat - 48 := if_pos h.2
    rw [hd, lower, if_neg (by omega), if_pos (by omega),
      show 48 + (b.toNat - 48) = b.toNat by omega, hbyte]
  · have hd : digit b = b.toNat - 55 := by rw [digit, if_neg (by omega), if_pos h.2]
    rw [hd, lower, if_pos (by omega), if_neg (by omega),
      show 87 + (b.toNat - 55) = b.toNat + 32 by omega]
  · have hd : digit b = b.toNat - 87 := by rw [digit, if_neg (by omega), if_neg (by omega)]
    rw [hd, lower, if_neg (by omega), if_neg (by omega),
      show 87 + (b.toNat - 87) = b.toNat by omega, hbyte]

/-- **Digits of one value are one digit**, up to the case of letters. -/
theorem lower_eq_of_digit_eq {a b : UInt8} (ha : isDigit a = true) (hb : isDigit b = true)
    (h : digit a = digit b) : lower a = lower b := by
  rw [lower_eq ha, lower_eq hb, h]

/-- One digit more. -/
lemma value_concat (p : Bytes) (b : UInt8) : value (p ++ [b]) = 16 * value p + digit b := by
  unfold value
  rw [List.foldl_append]
  rfl

/-- A number of so many digits. -/
lemma value_lt {p : Bytes} (h : ∀ b ∈ p, isDigit b = true) : value p < 16 ^ p.length := by
  induction p using List.reverseRecOn with
  | nil => decide
  | append_singleton p b ih =>
    have hp := ih fun c hc => h c (by simp [hc])
    have hb := digit_lt (h b (by simp))
    rw [value_concat, List.length_append, List.length_singleton, pow_succ]
    omega

/-! ## Two characters -/

/-- In one or two characters there is no mark, and the number of their digits is an `int`. -/
lemma readDigits_eq {s : Bytes} (hlen : s.length ≤ 2) (negative : Bool) :
    readDigits negative s = if s.takeWhile isDigit = [] then .error .invalidArgument
      else .ok (if negative then -(value (s.takeWhile isDigit) : ℤ)
        else value (s.takeWhile isDigit)) := by
  have hskip : skipMark s = s := by
    match s, hlen with
    | [], _ => rfl
    | [_], _ => rfl
    | [_, _], _ => rfl
  have hsmall : value (s.takeWhile isDigit) < 256 := by
    have hlt : value (s.takeWhile isDigit) < 16 ^ (s.takeWhile isDigit).length :=
      value_lt fun b hb => (List.mem_takeWhile_imp hb :)
    have hle := (List.takeWhile_prefix isDigit (l := s)).length_le
    calc
      value (s.takeWhile isDigit) < 16 ^ (s.takeWhile isDigit).length := hlt
      _ ≤ 16 ^ 2 := Nat.pow_le_pow_right (by decide) (hle.trans hlen)
  unfold readDigits
  rw [hskip]
  dsimp only
  split_ifs <;> first | rfl | omega

/-- A text without white space and a sign before it. -/
lemma stoi_of_not_space {s : Bytes} {b : UInt8} (hs : isSpace b = false) (hminus : b ≠ 45)
    (hplus : b ≠ 43) : stoi (b :: s) = readDigits false (b :: s) := by
  unfold stoi
  rw [List.dropWhile_cons_of_neg (by simp [hs])]
  show (match (if b = 45 then (true, s) else if b = 43 then (false, s) else (false, b :: s)) with
    | (negative, s) => readDigits negative s) = _
  rw [if_neg hminus, if_neg hplus]

/-- **Two digits are read** as the number that they stand for. -/
theorem stoi_pair {x y : UInt8} (hx : isDigit x = true) (hy : isDigit y = true) :
    stoi [x, y] = .ok (16 * digit x + digit y : ℤ) := by
  obtain ⟨hs, hminus, hplus⟩ := not_space_of_isDigit hx
  rw [stoi_of_not_space hs hminus hplus, readDigits_eq (by simp)]
  have htake : [x, y].takeWhile isDigit = [x, y] := by simp [hx, hy]
  rw [htake, if_neg (by simp)]
  show Except.ok (((16 * (16 * 0 + digit x) + digit y : ℕ)) : ℤ) = _
  rw [Nat.mul_zero, Nat.zero_add]
  push_cast
  rfl

/-- The texts of one or two characters behind the sign that are read. -/
lemma isOk_readDigits_iff {s : Bytes} (hlen : s.length ≤ 2) (negative : Bool) :
    (∃ n, readDigits negative s = .ok n) ↔ ∃ b ∈ s.head?, isDigit b = true := by
  rw [readDigits_eq hlen]
  cases s with
  | nil => simp
  | cons b s => by_cases hb : isDigit b = true <;> simp [hb]

/-- White space is skipped. -/
lemma stoi_of_space {s : Bytes} {b : UInt8} (hs : isSpace b = true) : stoi (b :: s) = stoi s := by
  unfold stoi
  rw [List.dropWhile_cons_of_pos hs]

/-- The texts of one character that are read are the digits. -/
lemma isOk_stoi_single_iff (y : UInt8) : (∃ n, stoi [y] = .ok n) ↔ isDigit y = true := by
  by_cases hy : isDigit y = true
  · obtain ⟨hs, hminus, hplus⟩ := not_space_of_isDigit hy
    rw [stoi_of_not_space hs hminus hplus, isOk_readDigits_iff (by simp)]
    simp
  · refine iff_of_false ?_ hy
    by_cases hs : isSpace y = true
    · rw [stoi_of_space hs]
      rintro ⟨n, hn⟩
      cases hn
    · by_cases hminus : y = 45
      · rw [hminus]
        rintro ⟨n, hn⟩
        cases hn
      · by_cases hplus : y = 43
        · rw [hplus]
          rintro ⟨n, hn⟩
          cases hn
        · rw [stoi_of_not_space (by simpa using hs) hminus hplus, isOk_readDigits_iff (by simp)]
          simpa using hy

/-- The first of two characters is a digit, or the second one is and the first one is white space
or a sign. -/
def Accepts (x y : UInt8) : Prop :=
  isDigit x = true ∨ (isSpace x = true ∨ x = 45 ∨ x = 43) ∧ isDigit y = true

instance (x y : UInt8) : Decidable (Accepts x y) :=
  inferInstanceAs (Decidable (isDigit x = true ∨
    (isSpace x = true ∨ x = 45 ∨ x = 43) ∧ isDigit y = true))

/-- **The texts of two characters that are read**: a digit before anything, and white space or a
sign before a digit. -/
theorem isOk_stoi_pair_iff (x y : UInt8) : (∃ n, stoi [x, y] = .ok n) ↔ Accepts x y := by
  unfold Accepts
  by_cases hx : isDigit x = true
  · obtain ⟨hs, hminus, hplus⟩ := not_space_of_isDigit hx
    rw [stoi_of_not_space hs hminus hplus, isOk_readDigits_iff (by simp)]
    simp [hx]
  · by_cases hs : isSpace x = true
    · rw [stoi_of_space hs, isOk_stoi_single_iff]
      simp [hx, hs]
    · by_cases hminus : x = 45
      · -- behind the sign nothing is skipped
        have hsign : stoi [x, y] = readDigits true [y] := by
          rw [hminus]
          rfl
        rw [hsign, isOk_readDigits_iff (by simp)]
        have hnot : isDigit 45 = false := rfl
        simp [hminus, hnot]
      · by_cases hplus : x = 43
        · have hsign : stoi [x, y] = readDigits false [y] := by
            rw [hplus]
            rfl
          rw [hsign, isOk_readDigits_iff (by simp)]
          have hnot : isDigit 43 = false := rfl
          simp [hplus, hnot]
        · rw [stoi_of_not_space (by simpa using hs) hminus hplus, isOk_readDigits_iff (by simp)]
          simp [hx, hs, hminus, hplus]

end Hexadecimal
