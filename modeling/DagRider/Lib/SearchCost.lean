import DagRider.Lib.StackSearch
import Mathlib

set_option relaxedAutoImplicit false
set_option autoImplicit false

/-!
# What a search without marks costs

The stack search does not mark what it has seen, so it pops an element as often as there are paths
to it. A search that finds nothing takes at least as many iterations as any weight of the stack
that an element can pay with one iteration and the weights of its successors; when each element has
many successors a rank below, this is exponential in the rank.

## Main results

* `StackSearch.weight_lt_of_search_eq_false` — a search that fails has paid the weight of its stack.
* `StackSearch.pow_lt_of_search_eq_false` — the exponential bound for wide graphs.
-/

namespace StackSearch

variable {α : Type*} {goal : α → Bool} {succ : α → List α}

/-- **A search that fails has paid for its stack.** -/
theorem weight_lt_of_search_eq_false {ok : α → Prop} (weight : α → ℕ)
    (hgoal : ∀ a, ok a → goal a = false) (hsucc : ∀ a, ok a → ∀ b ∈ succ a, ok b)
    (hweight : ∀ a, ok a → weight a ≤ 1 + ((succ a).map weight).sum) {n : ℕ} {stack : List α}
    (hstack : ∀ a ∈ stack, ok a) (h : search goal succ n stack = some false) :
    (stack.map weight).sum < n := by
  induction n generalizing stack with
  | zero => simp [search] at h
  | succ n ih =>
    cases stack with
    | nil => simp
    | cons a stack =>
      have ha : ok a := hstack a (by simp)
      rw [search, hgoal a ha] at h
      have hall : ∀ b ∈ (succ a).reverse ++ stack, ok b := by
        intro b hb
        rcases List.mem_append.mp hb with hb | hb
        · exact hsucc a ha b (List.mem_reverse.mp hb)
        · exact hstack b (by simp [hb])
      have hrest := ih hall h
      have hpay := hweight a ha
      rw [List.map_append, List.sum_append, List.map_reverse, List.sum_reverse] at hrest
      rw [List.map_cons, List.sum_cons]
      omega

/-- The elements of a list weigh at least as much as those of a set of them. -/
lemma sum_le_sum_map [DecidableEq α] {R : Finset α} {l : List α} (weight : α → ℕ)
    (h : ∀ a ∈ R, a ∈ l) : ∑ a ∈ R, weight a ≤ (l.map weight).sum := by
  have hsub : R ⊆ l.toFinset := fun a ha => List.mem_toFinset.mpr (h a ha)
  calc ∑ a ∈ R, weight a ≤ ∑ a ∈ l.toFinset, weight a :=
        Finset.sum_le_sum_of_subset hsub
    _ ≤ ∑ a ∈ l.toFinset, l.count a • weight a := by
        refine Finset.sum_le_sum fun a ha => ?_
        have hcount : 1 ≤ l.count a := List.one_le_count_iff.mpr (List.mem_toFinset.mp ha)
        rw [Nat.nsmul_eq_mul]
        exact Nat.le_mul_of_pos_left _ hcount
    _ = (l.map weight).sum := (Finset.sum_list_map_count l weight).symm

/-- **The exponential bound.** If no goal can be reached and every element of rank at least two
has `q` successors one rank below, a search that fails from an element of rank `d + 1` takes more
than `q ^ d` iterations.

**Proof sketch.** An element of rank `d + 1` weighs `q ^ d`: it can pay with its `q` successors of
weight `q ^ (d - 1)`. -/
theorem pow_lt_of_search_eq_false [DecidableEq α] (ok : α → Prop) (rank : α → ℕ) {q : ℕ}
    (hgoal : ∀ a, ok a → goal a = false) (hsucc : ∀ a, ok a → ∀ b ∈ succ a, ok b)
    (hwide : ∀ a, ok a → 2 ≤ rank a →
      ∃ R : Finset α, q ≤ R.card ∧ ∀ b ∈ R, b ∈ succ a ∧ rank b + 1 = rank a) {n : ℕ} {a : α}
    (ha : ok a) (h : search goal succ n [a] = some false) : q ^ (rank a - 1) < n := by
  have hstack : ∀ b ∈ [a], ok b := by simpa using ha
  have hpaid := weight_lt_of_search_eq_false (fun a => q ^ (rank a - 1)) hgoal hsucc
    (fun a ha => ?_) hstack h
  · simpa using hpaid
  by_cases hrank : 2 ≤ rank a
  · obtain ⟨R, hcard, hR⟩ := hwide a ha hrank
    have hexp : rank a - 1 = rank a - 2 + 1 := by omega
    have hsum := sum_le_sum_map (fun a => q ^ (rank a - 1)) fun b hb => (hR b hb).1
    calc q ^ (rank a - 1) = q * q ^ (rank a - 2) := by rw [hexp, pow_succ, mul_comm]
      _ ≤ R.card * q ^ (rank a - 2) := Nat.mul_le_mul_right _ hcard
      _ = ∑ b ∈ R, q ^ (rank b - 1) := by
          rw [← Nat.nsmul_eq_mul, ← Finset.sum_const]
          refine Finset.sum_congr rfl fun b hb => ?_
          have hb := (hR b hb).2
          congr 1
          omega
      _ ≤ ((succ a).map fun b => q ^ (rank b - 1)).sum := hsum
      _ ≤ 1 + ((succ a).map fun b => q ^ (rank b - 1)).sum := Nat.le_add_left _ _
  · have hexp : rank a - 1 = 0 := by omega
    rw [hexp, pow_zero]
    exact Nat.le_add_right _ _

end StackSearch
