import Mathlib.Algebra.BigOperators.Group.Finset.Basic
import Mathlib.Algebra.Order.BigOperators.Group.Finset
import Mathlib.Data.Fintype.Basic

set_option relaxedAutoImplicit false
set_option autoImplicit false

/-!
# Threads at places

A system of threads, each at a place of its program. Two things are asked of the places of all
threads together: that exactly the holder of a lock is in the region the lock protects, and how
much the threads weigh in total when each place has a weight.

## Main definitions

* `Threads.Holds` — exactly the holder of the lock is in the region.
* `Threads.total` — the weight of all threads.

## Main results

* `Threads.Holds.stay`, `acquire`, `release` — what a thread does when it moves.
* `Threads.Holds.exclusive` — mutual exclusion.
* `Threads.total_update` — the weight when one thread moves.
-/

namespace Threads

open Function

variable {θ π : Type*} {region : π → Bool} {place : θ → π} {holder : Option θ}
  {t u : θ} {p : π}

/-! ## A lock and its region -/

section Holder

/-- Exactly the holder of the lock is in the region. -/
def Holds (region : π → Bool) (place : θ → π) (holder : Option θ) : Prop :=
  ∀ t, region (place t) = true ↔ holder = some t

/-- **Mutual exclusion**: two threads in the region are the same. -/
lemma Holds.exclusive (h : Holds region place holder) (ht : region (place t) = true)
    (hu : region (place u) = true) : t = u := by
  have heq : some t = some u := ((h t).mp ht).symm.trans ((h u).mp hu)
  exact Option.some.inj heq

variable [DecidableEq θ]

/-- A thread moves without crossing the border of the region. -/
lemma Holds.stay (h : Holds region place holder) (hp : region p = region (place t)) :
    Holds region (update place t p) holder := by
  intro u
  by_cases hu : u = t
  · subst hu
    rw [update_self, hp]
    exact h u
  · rw [update_of_ne hu]
    exact h u

/-- A thread takes the free lock and enters the region. -/
lemma Holds.acquire (h : Holds region place none) (hp : region p = true) :
    Holds region (update place t p) (some t) := by
  intro u
  by_cases hu : u = t
  · subst hu
    simp [hp]
  · have hout := h u
    rw [update_of_ne hu, hout]
    simp [Ne.symm hu]

/-- The holder leaves the region and frees the lock. -/
lemma Holds.release (h : Holds region place holder) (ht : region (place t) = true)
    (hp : region p = false) : Holds region (update place t p) none := by
  intro u
  by_cases hu : u = t
  · subst hu
    simp [hp]
  · rw [update_of_ne hu]
    refine ⟨fun hin => absurd (h.exclusive hin ht) hu, fun hnone => absurd hnone (by simp)⟩

end Holder

/-! ## Weights -/

section Weight

variable [Fintype θ] {weight : π → ℕ}

/-- The weight of all threads. -/
def total (weight : π → ℕ) (place : θ → π) : ℕ := ∑ t, weight (place t)

/-- Where no thread weighs anything. -/
lemma total_eq_zero (h : ∀ t, weight (place t) = 0) : total weight place = 0 :=
  Finset.sum_eq_zero fun t _ => h t

/-- **The weight when one thread moves.** -/
lemma total_update [DecidableEq θ] :
    total weight (update place t p) + weight (place t) = total weight place + weight p := by
  unfold total
  have hsplit : ∀ f : θ → π, ∑ u, weight (f u) =
      weight (f t) + ∑ u ∈ Finset.univ.erase t, weight (f u) :=
    fun f => (Finset.add_sum_erase _ _ (Finset.mem_univ t)).symm
  have hrest : ∑ u ∈ Finset.univ.erase t, weight (update place t p u) =
      ∑ u ∈ Finset.univ.erase t, weight (place u) := by
    refine Finset.sum_congr rfl fun u hu => ?_
    rw [update_of_ne (Finset.ne_of_mem_erase hu)]
  rw [hsplit place, hsplit (update place t p), update_self, hrest]
  omega

end Weight

end Threads
