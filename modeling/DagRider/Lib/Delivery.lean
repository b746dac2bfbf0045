import Mathlib.Data.Set.Insert
import Mathlib.Data.List.Nodup

set_option relaxedAutoImplicit false
set_option autoImplicit false

/-!
# Deliveries in causal order

What is delivered one by one to somebody who has a set of things from the start: nothing twice,
and nothing before what it rests on.

## Main definitions

* `Delivery.Causal` — a list that can be delivered after a set.

## Main results

* `Delivery.causal_append` — delivery in two parts.
* `Delivery.Causal.nodup` — nothing is delivered twice.
-/

namespace Delivery

variable {α : Type*} {ready : Set α → α → Prop} {S : Set α} {l m : List α} {a : α}

/-- The list is delivered to one who has `S`: each element is new then, and rests on what is there
before it. -/
def Causal (ready : Set α → α → Prop) : Set α → List α → Prop
  | _, [] => True
  | S, a :: l => a ∉ S ∧ ready S a ∧ Causal ready (insert a S) l

/-- **Delivery in two parts.** -/
lemma causal_append :
    Causal ready S (l ++ m) ↔ Causal ready S l ∧ Causal ready (S ∪ {a | a ∈ l}) m := by
  induction l generalizing S with
  | nil => simp [Causal]
  | cons a l ih =>
    have hset : insert a S ∪ {b | b ∈ l} = S ∪ {b | b ∈ a :: l} := by
      ext b
      simp only [Set.mem_union, Set.mem_insert_iff, Set.mem_ofPred_eq, List.mem_cons]
      tauto
    simp only [List.cons_append, Causal, ih, hset, and_assoc]

/-- What is delivered was not there. -/
lemma Causal.notMem (h : Causal ready S l) (ha : a ∈ l) : a ∉ S := by
  induction l generalizing S with
  | nil => exact absurd ha List.not_mem_nil
  | cons b l ih =>
    rcases List.mem_cons.mp ha with rfl | ha
    · exact h.1
    · exact fun hS => ih h.2.2 ha (Set.mem_insert_of_mem b hS)

/-- **Nothing is delivered twice.** -/
lemma Causal.nodup (h : Causal ready S l) : l.Nodup := by
  induction l generalizing S with
  | nil => exact List.nodup_nil
  | cons a l ih =>
    refine List.nodup_cons.mpr ⟨fun ha => ?_, ih h.2.2⟩
    exact h.2.2.notMem ha (Set.mem_insert a S)

end Delivery
