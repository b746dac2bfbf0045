import DagRider.Lib.Json
import Mathlib.Data.List.TakeWhile

set_option relaxedAutoImplicit false
set_option autoImplicit false

/-!
# Decimal numbers in texts

Numbers as a C++ program writes them with `std::to_string` and reads them with `std::stoi`. Reading
skips white space, takes a sign and as many digits as there are, and ignores what follows.

## Main definitions

* `Decimal.print` — the decimal of a number.
* `Decimal.stoi` — the number at the beginning of a text, as an `int`.
* `Decimal.IsNumeral` — a decimal without superfluous zeros.

## Main results

* `Decimal.stoi_print` — what is printed is read back.
* `Decimal.print_value` — a numeral is the decimal of its value.
-/

namespace Decimal

/-- A digit, from `0` to `9`. -/
def isDigit (b : UInt8) : Bool := 48 ≤ b.toNat && b.toNat ≤ 57

/-- White space: a blank, or one of the bytes from tab to carriage return. -/
def isSpace (b : UInt8) : Bool := b.toNat = 32 || 9 ≤ b.toNat && b.toNat ≤ 13

/-- The number that digits stand for, most significant first. -/
def value (digits : Bytes) : ℕ := digits.foldl (fun n b => 10 * n + (b.toNat - 48)) 0

/-- The decimal of a number. -/
def print (n : ℕ) : Bytes := ascii (Nat.repr n)

/-- What `std::stoi` throws. -/
inductive StoiError where
  /-- `std::invalid_argument`: there are no digits. -/
  | invalidArgument
  /-- `std::out_of_range`: the number is no `int`. -/
  | outOfRange
deriving DecidableEq

/-- Whether a text starts with a minus sign, and the text after its sign, if it has one. -/
def takeSign : Bytes → Bool × Bytes
  | [] => (false, [])
  | b :: s => if b = 45 then (true, s) else if b = 43 then (false, s) else (false, b :: s)

/-- `std::stoi` with base `10`. -/
def stoi (s : Bytes) : Except StoiError ℤ :=
  let (negative, s) := takeSign (s.dropWhile isSpace)
  let digits := s.takeWhile isDigit
  if digits = [] then .error .invalidArgument
  else
    let n : ℤ := if negative then -(value digits : ℤ) else value digits
    if -2 ^ 31 ≤ n ∧ n < 2 ^ 31 then .ok n else .error .outOfRange

/-! ## Printing and reading -/

/-- The characters of a decimal are digits, each one byte. -/
lemma digit_of_mem_repr {n : ℕ} {c : Char} (h : c ∈ (Nat.repr n).toList) :
    (UInt8.ofNat c.toNat).toNat = c.toNat ∧ 48 ≤ c.toNat ∧ c.toNat ≤ 57 := by
  have hdigit : c.isDigit = true := by
    refine Nat.isDigit_of_mem_toDigits (b := 10) (n := n) (by decide) (by decide) ?_
    simpa [Nat.repr] using h
  unfold Char.isDigit at hdigit
  rw [Bool.and_eq_true, decide_eq_true_iff, decide_eq_true_iff] at hdigit
  have hlow : 48 ≤ c.toNat := UInt32.le_iff_toNat_le.mp hdigit.1
  have hhigh : c.toNat ≤ 57 := UInt32.le_iff_toNat_le.mp hdigit.2
  refine ⟨?_, hlow, hhigh⟩
  rw [UInt8.toNat_ofNat']
  omega

/-- A decimal has digits only. -/
lemma isDigit_of_mem_print {n : ℕ} {b : UInt8} (h : b ∈ print n) : isDigit b = true := by
  obtain ⟨c, hc, rfl⟩ := List.mem_map.mp h
  obtain ⟨hnat, hlow, hhigh⟩ := digit_of_mem_repr hc
  unfold isDigit
  rw [hnat, Bool.and_eq_true, decide_eq_true_iff, decide_eq_true_iff]
  exact ⟨hlow, hhigh⟩

/-- A byte that is no digit is not in a decimal. -/
lemma notMem_print {n : ℕ} {b : UInt8} (h : isDigit b = false) : b ∉ print n := by
  intro hb
  rw [isDigit_of_mem_print hb] at h
  cases h

/-- A number below `10 ^ k` has a decimal of at most `k` digits. -/
lemma length_print_le {n k : ℕ} (hk : 0 < k) (h : n < 10 ^ k) : (print n).length ≤ k := by
  unfold print ascii Nat.repr
  rw [List.length_map, String.toList_ofList]
  exact (Nat.length_toDigits_le_iff (by decide) hk).mpr h

/-- A decimal has a digit. -/
lemma print_ne_nil (n : ℕ) : print n ≠ [] := by
  unfold print ascii
  simp [Nat.repr, Nat.toDigits_ne_nil]

/-- The digits of a number stand for it. -/
lemma value_print (n : ℕ) : value (print n) = n := by
  have hchars : Nat.ofDigitChars 10 (Nat.repr n).toList 0 = n := by
    unfold Nat.repr
    rw [String.toList_ofList]
    exact Nat.ofDigitChars_ten_toDigits
  refine Eq.trans ?_ hchars
  unfold value print ascii
  rw [Nat.ofDigitChars_eq_foldl, List.foldl_map]
  refine List.foldl_ext _ _ _ fun k c hc => ?_
  rw [(digit_of_mem_repr hc).1]
  rfl

/-- A digit is no white space and no sign. -/
lemma not_space_of_isDigit {b : UInt8} (h : isDigit b = true) :
    isSpace b = false ∧ b ≠ 45 ∧ b ≠ 43 := by
  unfold isDigit at h
  rw [Bool.and_eq_true, decide_eq_true_iff, decide_eq_true_iff] at h
  refine ⟨?_, ?_, ?_⟩
  · unfold isSpace
    rw [Bool.or_eq_false_iff, Bool.and_eq_false_iff]
    simp only [decide_eq_false_iff_not]
    omega
  · rintro rfl
    exact absurd h.1 (by decide)
  · rintro rfl
    exact absurd h.1 (by decide)

/-- **Digits are read** as the number that they stand for, if it is an `int`. -/
theorem stoi_of_digits {p : Bytes} (hne : p ≠ []) (hdigits : ∀ b ∈ p, isDigit b = true)
    (h : value p < 2 ^ 31) : stoi p = .ok (value p : ℤ) := by
  have htake : p.takeWhile isDigit = p := List.takeWhile_eq_self_iff.mpr hdigits
  have hspace : p.dropWhile isSpace = p ∧ takeSign p = (false, p) := by
    cases p with
    | nil => exact absurd rfl hne
    | cons b s =>
      obtain ⟨hsp, hminus, hplus⟩ := not_space_of_isDigit (hdigits b List.mem_cons_self)
      refine ⟨List.dropWhile_cons_of_neg (by simp [hsp]), ?_⟩
      show (if b = 45 then (true, s) else if b = 43 then (false, s) else (false, b :: s)) = _
      rw [if_neg hminus, if_neg hplus]
  unfold stoi
  rw [hspace.1, hspace.2]
  dsimp only
  rw [htake, if_neg hne]
  have hint : -2 ^ 31 ≤ (value p : ℤ) ∧ (value p : ℤ) < 2 ^ 31 := by omega
  rw [if_neg Bool.false_ne_true, if_pos hint]

/-- **What is printed is read back**, for every number that is an `int`. -/
theorem stoi_print {n : ℕ} (h : n < 2 ^ 31) : stoi (print n) = .ok (n : ℤ) := by
  have hread := stoi_of_digits (print_ne_nil n) (fun b hb => isDigit_of_mem_print hb)
    ((value_print n).trans_lt h)
  rwa [value_print] at hread

/-! ## Numerals -/

/-- A decimal as it is printed: digits, of which the first is no zero if there are others. -/
structure IsNumeral (p : Bytes) : Prop where
  ne_nil : p ≠ []
  digits : ∀ b ∈ p, isDigit b = true
  no_zero : 1 < p.length → p.head? ≠ some 48

/-- One digit more. -/
lemma value_concat (p : Bytes) (b : UInt8) : value (p ++ [b]) = 10 * value p + (b.toNat - 48) := by
  unfold value
  rw [List.foldl_append]
  rfl

/-- The decimal of a number below ten is its digit. -/
lemma print_of_lt {d : ℕ} (h : d < 10) : print d = [UInt8.ofNat (48 + d)] := by
  have hall : ∀ d : Fin 10, print d = [UInt8.ofNat (48 + d)] := by decide
  exact hall ⟨d, h⟩

/-- The decimal of a number with one digit more. -/
lemma print_concat {n d : ℕ} (hn : 0 < n) (hd : d < 10) :
    print (10 * n + d) = print n ++ [UInt8.ofNat (48 + d)] := by
  rw [← print_of_lt hd]
  unfold print ascii
  rw [Nat.toList_repr, Nat.toList_repr, Nat.toList_repr,
    ← Nat.toDigits_append_toDigits (by decide) hn hd, List.map_append]

/-- The decimal of a positive number does not start with a zero. -/
lemma head?_print_ne {n : ℕ} (h : 0 < n) : (print n).head? ≠ some 48 := by
  induction n using Nat.strong_induction_on with
  | _ n ih =>
    by_cases hn : n < 10
    · rw [print_of_lt hn, List.head?_singleton]
      intro heq
      have hbyte := congrArg UInt8.toNat (Option.some.inj heq)
      rw [UInt8.toNat_ofNat'] at hbyte
      have h48 : (48 : UInt8).toNat = 48 := rfl
      omega
    · have hsplit : print n = print (n / 10) ++ [UInt8.ofNat (48 + n % 10)] := by
        rw [← print_concat (by omega) (Nat.mod_lt n (by decide)), Nat.div_add_mod]
      rw [hsplit, List.head?_append_of_ne_nil _ (print_ne_nil _)]
      exact ih (n / 10) (by omega) (by omega)

/-- What is printed is a numeral. -/
lemma isNumeral_print (n : ℕ) : IsNumeral (print n) where
  ne_nil := print_ne_nil n
  digits := fun _ hb => isDigit_of_mem_print hb
  no_zero := by
    intro hlen
    refine head?_print_ne ?_
    by_contra hn
    rw [print_of_lt (by omega)] at hlen
    simp at hlen

/-- **A numeral is the decimal of its value.**

**Proof sketch.** Induction on the digits from the last one; the digits before it are a numeral of
a positive number. -/
theorem print_value {p : Bytes} (h : IsNumeral p) : print (value p) = p := by
  induction p using List.reverseRecOn with
  | nil => exact absurd rfl h.ne_nil
  | append_singleton p b ih =>
    have hb := h.digits b (by simp)
    unfold isDigit at hb
    rw [Bool.and_eq_true, decide_eq_true_iff, decide_eq_true_iff] at hb
    have hdigit : UInt8.ofNat (48 + (b.toNat - 48)) = b := by
      rw [show 48 + (b.toNat - 48) = b.toNat by omega, UInt8.ofNat_toNat]
    rw [value_concat]
    by_cases hp : p = []
    · subst hp
      show print (10 * 0 + (b.toNat - 48)) = [b]
      rw [Nat.mul_zero, Nat.zero_add, print_of_lt (by omega), hdigit]
    · have hlen : 0 < p.length := List.length_pos_iff.mpr hp
      have hhead : p.head? ≠ some 48 := by
        have hzero := h.no_zero (by simpa using hlen)
        rwa [List.head?_append_of_ne_nil _ hp] at hzero
      have hprint := ih ⟨hp, fun c hc => h.digits c (by simp [hc]), fun _ => hhead⟩
      have hpos : 0 < value p := by
        by_contra hzero
        rw [Nat.eq_zero_of_not_pos hzero, print_of_lt (by decide)] at hprint
        rw [← hprint] at hhead
        exact hhead rfl
      rw [print_concat hpos (by omega), hprint, hdigit]

end Decimal
