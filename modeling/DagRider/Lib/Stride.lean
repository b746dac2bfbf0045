import Mathlib.Data.List.Nodup
import Mathlib.Data.List.Perm.Subperm
import Mathlib.Data.Int.ModEq

set_option relaxedAutoImplicit false
set_option autoImplicit false

/-!
# Steps of one length around a cycle

The positions `b, b + a, b + 2a, …` on a cycle of `n` places. `n` steps in a row come to every place
once if `a` and `n` are coprime, and otherwise miss a place for ever.

## Main results

* `Stride.perm_range` — `n` steps of a coprime length come to every place once.
* `Stride.exists_missed` — steps of another length miss a place.
-/

namespace Stride

variable {a b n : ℕ}

/-- Two numbers of steps below `n` that lead to one place are equal, for a coprime length. -/
lemma step_injective (h : Nat.Coprime a n) {i j : ℕ} (hi : i < n) (hj : j < n)
    (heq : (a * i + b) % n = (a * j + b) % n) : i = j := by
  have hmod : a * i + b ≡ a * j + b [MOD n] := heq
  have hcancel : i ≡ j [MOD n] := by
    apply Nat.ModEq.cancel_left_of_coprime (Nat.Coprime.symm h)
    exact Nat.ModEq.add_right_cancel' b hmod
  exact Nat.ModEq.eq_of_lt_of_lt hcancel hi hj

/-- **Steps of a coprime length come to every place once.**

**Proof sketch.** `n` steps lead to distinct places (`step_injective`), and there are `n` places. -/
theorem perm_range (h : Nat.Coprime a n) (hn : 1 ≤ n) :
    ((List.range n).map fun i => (a * i + b) % n).Perm (List.range n) := by
  have hnodup : ((List.range n).map fun i => (a * i + b) % n).Nodup := by
    refine List.nodup_range.map_on fun i hi j hj heq => ?_
    exact step_injective h (List.mem_range.mp hi) (List.mem_range.mp hj) heq
  have hsub : ((List.range n).map fun i => (a * i + b) % n) ⊆ List.range n := by
    intro x hx
    obtain ⟨i, -, rfl⟩ := List.mem_map.mp hx
    exact List.mem_range.mpr (Nat.mod_lt _ hn)
  refine (hnodup.subperm hsub).perm_of_length_le ?_
  rw [List.length_map]

/-- **Steps of another length miss a place**, however many they are.

**Proof sketch.** A common divisor of the length and of the cycle keeps the remainder of every
place, so the place after the first is not among them. -/
theorem exists_missed (h : ¬ Nat.Coprime a n) (hn : 1 ≤ n) :
    ∃ r < n, ∀ i, (a * i + b) % n ≠ r := by
  refine ⟨(b + 1) % n, Nat.mod_lt _ hn, fun i heq => h ?_⟩
  have hmod : a * i + b ≡ b + 1 [MOD n] := heq
  -- modulo the common divisor the steps do not move
  have hgcd : a * i + b ≡ b + 1 [MOD Nat.gcd a n] := hmod.of_dvd (Nat.gcd_dvd_right a n)
  have hzero : a * i ≡ 0 [MOD Nat.gcd a n] :=
    (Nat.modEq_zero_iff_dvd).mpr ((Nat.gcd_dvd_left a n).mul_right i)
  have hone : 1 ≡ 0 [MOD Nat.gcd a n] := by
    have hsum : a * i + b ≡ 0 + b [MOD Nat.gcd a n] := hzero.add_right b
    have hchain : 1 + b ≡ 0 + b [MOD Nat.gcd a n] := by
      rw [Nat.add_comm 1 b]
      exact hgcd.symm.trans hsum
    exact Nat.ModEq.add_right_cancel' b hchain
  exact Nat.dvd_one.mp ((Nat.modEq_zero_iff_dvd).mp hone)

end Stride
