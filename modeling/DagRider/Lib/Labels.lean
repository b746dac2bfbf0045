import Mathlib.Data.List.Nodup
import Mathlib.Data.List.Sublists
import Mathlib.Order.Defs.PartialOrder

set_option relaxedAutoImplicit false
set_option autoImplicit false

/-!
# Lists whose elements have labels

A loop that skips what carries a label it has met keeps the first element of each label. And a list
that is sorted by its labels is determined by its parts with one label each.

## Main definitions

* `Labels.distinct` — the first element of each label.

## Main results

* `Labels.distinct_flatMap` — repetitions may be removed piece by piece.
* `Labels.eq_of_filter_eq` — sorted lists with the same parts are equal.
-/

namespace Labels

variable {α β γ : Type*} [DecidableEq β] {f : α → β}

/-- The elements whose label has not come before. -/
def distinct (f : α → β) : List α → List α
  | [] => []
  | a :: l => a :: (distinct f l).filter fun b => f b ≠ f a

/-- What comes second loses the labels of what comes first. -/
lemma distinct_append (l l' : List α) :
    distinct f (l ++ l') = distinct f l ++ (distinct f l').filter fun b => f b ∉ l.map f := by
  induction l with
  | nil => simp [distinct]
  | cons a l ih =>
    simp only [List.cons_append, distinct, ih, List.filter_append, List.filter_filter]
    congr 2
    refine List.filter_congr fun b _ => ?_
    simp only [List.map_cons, List.mem_cons, not_or, Bool.decide_and]

/-- Every label stays. -/
@[simp] lemma mem_map_distinct {l : List α} {x : β} : x ∈ (distinct f l).map f ↔ x ∈ l.map f := by
  induction l with
  | nil => rfl
  | cons a l ih =>
    simp only [distinct, List.map_cons, List.mem_cons, ← ih]
    refine or_congr_right' fun hx => ?_
    simp only [List.mem_map, List.mem_filter, decide_eq_true_eq]
    refine exists_congr fun b => ⟨fun h => ⟨h.1.1, h.2⟩, fun h => ⟨⟨h.1, fun hb => ?_⟩, h.2⟩⟩
    exact hx (h.2.symm.trans hb)

/-- Elements are only left out. -/
lemma distinct_sublist (l : List α) : (distinct f l).Sublist l := by
  induction l with
  | nil => exact List.Sublist.refl _
  | cons a l ih => exact ((List.filter_sublist).trans ih).cons_cons a

/-- The labels that are left are distinct. -/
lemma nodup_distinct (l : List α) : ((distinct f l).map f).Nodup := by
  induction l with
  | nil => exact List.nodup_nil
  | cons a l ih =>
    refine List.nodup_cons.mpr ⟨fun ha => ?_, ih.sublist ((List.filter_sublist).map f)⟩
    obtain ⟨b, hb, hba⟩ := List.mem_map.mp ha
    exact of_decide_eq_true (List.mem_filter.mp hb).2 hba

/-- Nothing is left out when the labels are distinct. -/
lemma distinct_of_nodup {l : List α} (h : (l.map f).Nodup) : distinct f l = l := by
  induction l with
  | nil => rfl
  | cons a l ih =>
    obtain ⟨ha, hl⟩ := List.nodup_cons.mp h
    rw [distinct, ih hl, List.filter_eq_self.mpr]
    intro b hb
    exact decide_eq_true fun hba => ha (hba ▸ List.mem_map_of_mem hb)

/-- **Repetitions may be removed piece by piece.** -/
theorem distinct_flatMap (k : γ → List α) (l : List γ) :
    distinct f (l.flatMap k) = distinct f (l.flatMap fun c => distinct f (k c)) := by
  induction l with
  | nil => rfl
  | cons c l ih =>
    rw [List.flatMap_cons, List.flatMap_cons, distinct_append, distinct_append, ih,
      distinct_of_nodup (nodup_distinct (k c))]
    congr 1
    refine List.filter_congr fun b _ => ?_
    rw [decide_eq_decide, mem_map_distinct]

/-- **Lists that are sorted by their labels and have the same parts are equal.**

**Proof sketch.** Induction on the first list. Its head has the least label of all, so the other
list starts with an element of that label, and their parts of this label start alike. -/
theorem eq_of_filter_eq {δ : Type*} [PartialOrder δ] [DecidableEq δ] {f : α → δ} {l l' : List α}
    (hl : l.Pairwise fun a b => f a ≤ f b) (hl' : l'.Pairwise fun a b => f a ≤ f b)
    (h : ∀ x, l.filter (fun a => f a = x) = l'.filter fun a => f a = x) : l = l' := by
  have hmem : ∀ {m m' : List α}, (∀ x, m.filter (fun a => f a = x) = m'.filter fun a => f a = x) →
      ∀ a ∈ m, a ∈ m' := by
    intro m m' hm a ha
    have hfilter : a ∈ m.filter fun b => f b = f a := by simpa using ha
    rw [hm] at hfilter
    exact (List.mem_filter.mp hfilter).1
  induction l generalizing l' with
  | nil =>
    refine (List.eq_nil_iff_forall_not_mem.mpr fun a ha => ?_).symm
    exact List.not_mem_nil (hmem (fun x => (h x).symm) a ha)
  | cons a l ih =>
    cases l' with
    | nil => exact absurd (hmem h a List.mem_cons_self) List.not_mem_nil
    | cons b l' =>
      obtain ⟨ha, hrest⟩ := List.pairwise_cons.mp hl
      obtain ⟨hb, hrest'⟩ := List.pairwise_cons.mp hl'
      have hab : f a = f b := by
        apply le_antisymm
        · rcases List.mem_cons.mp (hmem (fun x => (h x).symm) b List.mem_cons_self) with rfl | hbl
          · exact le_rfl
          · exact ha b hbl
        · rcases List.mem_cons.mp (hmem h a List.mem_cons_self) with rfl | hal
          · exact le_rfl
          · exact hb a hal
      have hhead := h (f a)
      rw [List.filter_cons_of_pos (by simp), List.filter_cons_of_pos (by simp [hab])] at hhead
      obtain rfl := (List.cons.inj hhead).1
      refine congrArg (List.cons a) (ih hrest hrest' fun x => ?_)
      have hx := h x
      simp only [List.filter_cons] at hx
      split_ifs at hx with heq
      · exact (List.cons.inj hx).2
      · exact hx

/-- In a list that is sorted by its labels, lower labels come first. -/
lemma index_lt_of_pairwise {δ : Type*} [Preorder δ] {f : α → δ} {l : List α} {i j : ℕ} {a b : α}
    (h : l.Pairwise fun x y => f x ≤ f y) (hi : l[i]? = some a) (hj : l[j]? = some b)
    (hlt : f a < f b) : i < j := by
  by_contra hle
  obtain ⟨hil, rfl⟩ := List.getElem?_eq_some_iff.mp hi
  obtain ⟨hjl, rfl⟩ := List.getElem?_eq_some_iff.mp hj
  rcases (Nat.le_of_not_lt hle).eq_or_lt with rfl | hji
  · exact lt_irrefl _ hlt
  · exact absurd (List.pairwise_iff_getElem.mp h j i hjl hil hji) hlt.not_ge

end Labels
