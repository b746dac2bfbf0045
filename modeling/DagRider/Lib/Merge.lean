import Mathlib.Data.List.Nodup
import Mathlib.Data.List.Perm.Basic

set_option relaxedAutoImplicit false
set_option autoImplicit false

/-!
# Several sequences merged into one

A list of entries with a source each is a merge of one sequence for each source. It has the entries
of these sequences, and in the order of each.

## Main definitions

* `Merge.part` — the sequence of one source.

## Main results

* `Merge.perm_parts` — a merge has the entries of its parts, and no others.
-/

namespace Merge

variable {ι α β : Type*} [DecidableEq ι] {i : ι} {log log' : List (ι × α)}

/-- The entries of one source, in order. -/
def part (i : ι) (log : List (ι × α)) : List α :=
  log.filterMap fun p => if p.1 = i then some p.2 else none

/-- An empty log has empty parts. -/
@[simp] lemma part_nil : part i ([] : List (ι × α)) = [] := rfl

/-- The parts of two logs come one after the other. -/
@[simp] lemma part_append : part i (log ++ log') = part i log ++ part i log' :=
  List.filterMap_append

/-- An entry belongs to the part of its source only. -/
@[simp] lemma part_singleton {j : ι} {a : α} : part i [(j, a)] = if j = i then [a] else [] := by
  simp only [part, List.filterMap_cons, List.filterMap_nil]
  split_ifs <;> rfl

/-- A list that is not empty for one index only. -/
lemma flatMap_ite_eq {is : List ι} {j : ι} (hnodup : is.Nodup) (hj : j ∈ is) (as : List α) :
    (is.flatMap fun i => if j = i then as else []) = as := by
  induction is with
  | nil => simp at hj
  | cons i is ih =>
    rw [List.nodup_cons] at hnodup
    rw [List.flatMap_cons]
    by_cases hji : j = i
    · subst hji
      have hnone : (is.flatMap fun i => if j = i then as else []) = [] := by
        rw [List.flatMap_eq_nil_iff]
        intro k hk
        have hne : j ≠ k := fun h => hnodup.1 (h ▸ hk)
        rw [if_neg hne]
      rw [if_pos rfl, hnone, List.append_nil]
    · rw [if_neg hji, List.nil_append]
      exact ih hnodup.2 ((List.mem_cons.mp hj).resolve_left hji)

/-- **A merge has the entries of its parts**, for whatever is made of each entry.

**Proof sketch.** Induction on the log: one more entry is one more entry of one part. -/
theorem perm_parts {is : List ι} (hnodup : is.Nodup) (f : α → List β)
    (h : ∀ p ∈ log, p.1 ∈ is) :
    (log.flatMap fun p => f p.2).Perm (is.flatMap fun i => (part i log).flatMap f) := by
  induction log with
  | nil => simp
  | cons p log ih =>
    obtain ⟨j, a⟩ := p
    have hj : j ∈ is := h (j, a) List.mem_cons_self
    have hlog := ih fun q hq => h q (List.mem_cons_of_mem _ hq)
    have hparts : ∀ i, (part i ((j, a) :: log)).flatMap f =
        (if j = i then f a else []) ++ (part i log).flatMap f := by
      intro i
      have hcons : (j, a) :: log = [(j, a)] ++ log := rfl
      rw [hcons, part_append, List.flatMap_append, part_singleton]
      split_ifs <;> simp
    simp only [hparts, List.flatMap_cons]
    refine List.Perm.trans ?_ (List.flatMap_append_perm is _ _)
    rw [flatMap_ite_eq hnodup hj]
    exact List.Perm.append_left _ hlog

end Merge
