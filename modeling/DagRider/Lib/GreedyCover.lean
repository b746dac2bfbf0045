import Mathlib.Data.List.Pairwise
import Mathlib.Data.Set.Insert

set_option relaxedAutoImplicit false
set_option autoImplicit false

/-!
# Greedy covers

A loop over a list of candidates that adds each candidate that is not covered yet by what it has
chosen. The loop is a relation between the states before and after it, for any notion of state. For
sets of chosen elements and a relation by which they reach the candidates, the loop covers every
candidate, and where candidates come by descending rank it chooses none that the others reach.

## Main definitions

* `GreedyCover.Loop` — the loop.
* `GreedyCover.Covers` — a set reaches an element.

## Main results

* `GreedyCover.loop_of_foldlM` — a fold that tests and adds is the loop.
* `GreedyCover.Loop.simulates` — a loop over refined states.
* `GreedyCover.Loop.covers`, `GreedyCover.Loop.irredundant` — what is chosen covers all candidates,
  and none of it too many.
-/

namespace GreedyCover

variable {σ τ α : Type*}

/-- The loop over the candidates: each that is covered is skipped, and each other one is added. -/
inductive Loop (covered : σ → α → Prop) (add : σ → α → σ) : σ → List α → σ → Prop
  /-- No candidates are left. -/
  | nil (s : σ) : Loop covered add s [] s
  /-- The next candidate is covered. -/
  | skip {s s' : σ} {u : α} {us : List α} (hcovered : covered s u)
      (hrest : Loop covered add s us s') : Loop covered add s (u :: us) s'
  /-- The next candidate is not covered. -/
  | add {s s' : σ} {u : α} {us : List α} (hnot : ¬ covered s u)
      (hrest : Loop covered add (add s u) us s') : Loop covered add s (u :: us) s'

variable {covered : σ → α → Prop} {add : σ → α → σ} {s s' : σ} {us : List α}

/-- Folds agree when their steps agree on the elements of the list. -/
lemma foldlM_congr_mem {f f' : σ → α → Option σ} {l : List α} {s : σ}
    (h : ∀ s, ∀ a ∈ l, f s a = f' s a) : l.foldlM f s = l.foldlM f' s := by
  induction l generalizing s with
  | nil => rfl
  | cons a l ih =>
    rw [List.foldlM_cons, List.foldlM_cons, h s a List.mem_cons_self]
    exact congrArg _ (funext fun t => ih fun s b hb => h s b (List.mem_cons_of_mem _ hb))

/-- A fold that tests each candidate and adds it if the test fails is the loop, when the tests it
makes are right. -/
lemma loop_of_foldlM {test : σ → α → Option Bool}
    (htest : ∀ s u b, test s u = some b → (b = true ↔ covered s u))
    (h : us.foldlM (fun s u => (test s u).bind fun b => some (if b then s else add s u)) s =
      some s') : Loop covered add s us s' := by
  induction us generalizing s with
  | nil =>
    obtain rfl := Option.some.inj h
    exact Loop.nil s
  | cons u us ih =>
    rw [List.foldlM_cons] at h
    obtain ⟨t, ht, h⟩ := Option.bind_eq_some_iff.mp h
    obtain ⟨b, hb, ht⟩ := Option.bind_eq_some_iff.mp ht
    have hright := htest s u b hb
    obtain rfl := Option.some.inj ht
    cases b with
    | true => exact Loop.skip (hright.mp rfl) (ih h)
    | false => exact Loop.add (fun hu => absurd (hright.mpr hu) (by decide)) (ih h)

/-- What is kept when an uncovered candidate is added is kept by the loop. -/
lemma Loop.invariant {I : σ → Prop} (hadd : ∀ s, ∀ u ∈ us, I s → ¬ covered s u → I (add s u))
    (hs : I s) (h : Loop covered add s us s') : I s' := by
  induction h with
  | nil s => exact hs
  | skip _ _ ih => exact ih (fun s u hu => hadd s u (List.mem_cons_of_mem _ hu)) hs
  | add hnot _ ih =>
    exact ih (fun s u hu => hadd s u (List.mem_cons_of_mem _ hu))
      (hadd _ _ List.mem_cons_self hs hnot)

/-- **A loop over refined states is the loop over what they stand for**, when the invariant `I`
holds of the states, the test is the one of the state that `f` gives, and so is the addition. -/
lemma Loop.simulates {covered' : τ → α → Prop} {add' : τ → α → τ} {I : σ → Prop} {f : σ → τ}
    (hI : ∀ s, ∀ u ∈ us, I s → ¬ covered s u → I (add s u))
    (hcovered : ∀ s, ∀ u ∈ us, I s → (covered s u ↔ covered' (f s) u))
    (hadd : ∀ s, ∀ u ∈ us, I s → f (add s u) = add' (f s) u)
    (hs : I s) (h : Loop covered add s us s') : Loop covered' add' (f s) us (f s') := by
  induction h with
  | nil s => exact Loop.nil (f s)
  | @skip s _ u _ hcov _ ih =>
    refine Loop.skip ((hcovered s u List.mem_cons_self hs).mp hcov) (ih ?_ ?_ ?_ hs)
    · exact fun s u hu => hI s u (List.mem_cons_of_mem _ hu)
    · exact fun s u hu => hcovered s u (List.mem_cons_of_mem _ hu)
    · exact fun s u hu => hadd s u (List.mem_cons_of_mem _ hu)
  | @add s _ u _ hnot _ ih =>
    refine Loop.add (fun hu => hnot ((hcovered s u List.mem_cons_self hs).mpr hu)) ?_
    rw [← hadd s u List.mem_cons_self hs]
    refine ih ?_ ?_ ?_ (hI s u List.mem_cons_self hs hnot)
    · exact fun s u hu => hI s u (List.mem_cons_of_mem _ hu)
    · exact fun s u hu => hcovered s u (List.mem_cons_of_mem _ hu)
    · exact fun s u hu => hadd s u (List.mem_cons_of_mem _ hu)

/-- The loop does nothing where all candidates are covered. -/
lemma Loop.eq_of_covered (h : Loop covered add s us s') (hall : ∀ u ∈ us, covered s u) :
    s' = s := by
  induction h with
  | nil s => rfl
  | skip _ _ ih => exact ih fun u hu => hall u (List.mem_cons_of_mem _ hu)
  | add hnot _ _ => exact absurd (hall _ List.mem_cons_self) hnot

/-- Where every addition makes the state larger, a loop that leaves its size alone had all
candidates covered. -/
lemma Loop.covered_of_size_eq {f : σ → ℕ} {I : σ → Prop}
    (hI : ∀ s, ∀ u ∈ us, I s → ¬ covered s u → I (add s u))
    (hsize : ∀ s, ∀ u ∈ us, I s → ¬ covered s u → f s < f (add s u))
    (hs : I s) (h : Loop covered add s us s') :
    f s ≤ f s' ∧ (f s' = f s → ∀ u ∈ us, covered s u) := by
  induction h with
  | nil s => exact ⟨le_rfl, fun _ u hu => absurd hu List.not_mem_nil⟩
  | skip hcov _ ih =>
    obtain ⟨hle, heq⟩ := ih (fun s u hu => hI s u (List.mem_cons_of_mem _ hu))
      (fun s u hu => hsize s u (List.mem_cons_of_mem _ hu)) hs
    refine ⟨hle, fun h u hu => ?_⟩
    rcases List.mem_cons.mp hu with rfl | hu
    · exact hcov
    · exact heq h u hu
  | add hnot _ ih =>
    obtain ⟨hle, -⟩ := ih (fun s u hu => hI s u (List.mem_cons_of_mem _ hu))
      (fun s u hu => hsize s u (List.mem_cons_of_mem _ hu)) (hI _ _ List.mem_cons_self hs hnot)
    have hlt := hsize _ _ List.mem_cons_self hs hnot
    exact ⟨(hlt.trans_le hle).le, fun h => absurd h (hlt.trans_le hle).ne'⟩

/-! ## Sets that reach -/

section Sets

variable {reach : α → α → Prop} {T T' : Set α} {u : α}

/-- Some element of `T` reaches `u`. -/
def Covers (reach : α → α → Prop) (T : Set α) (u : α) : Prop := ∃ t ∈ T, reach t u

/-- A larger set covers more. -/
lemma Covers.mono (h : Covers reach T u) (hsub : T ⊆ T') : Covers reach T' u := by
  obtain ⟨t, ht, htu⟩ := h
  exact ⟨t, hsub ht, htu⟩

/-- What was chosen before the loop stays chosen. -/
lemma Loop.subset (h : Loop (Covers reach) (fun T u => insert u T) T us T') : T ⊆ T' :=
  h.invariant (I := fun S => T ⊆ S) (fun _ u _ hS _ => hS.trans (Set.subset_insert u _))
    (fun _ ht => ht)

/-- What is chosen was chosen before, or is a candidate. -/
lemma Loop.mem_or_mem (h : Loop (Covers reach) (fun T u => insert u T) T us T') {t : α}
    (ht : t ∈ T') : t ∈ T ∨ t ∈ us := by
  refine h.invariant (I := fun S => ∀ t ∈ S, t ∈ T ∨ t ∈ us) ?_ (fun t ht => Or.inl ht) t ht
  intro S u hu hS _ t ht
  rcases Set.mem_insert_iff.mp ht with rfl | ht
  · exact Or.inr hu
  · exact hS t ht

/-- **All candidates are covered in the end.** -/
theorem Loop.covers (hrefl : ∀ u ∈ us, reach u u)
    (h : Loop (Covers reach) (fun T u => insert u T) T us T') : ∀ u ∈ us, Covers reach T' u := by
  induction h with
  | nil T => exact fun u hu => absurd hu List.not_mem_nil
  | skip hcov hrest ih =>
    intro u hu
    rcases List.mem_cons.mp hu with rfl | hu
    · exact hcov.mono hrest.subset
    · exact ih (fun u hu => hrefl u (List.mem_cons_of_mem _ hu)) u hu
  | add _ hrest ih =>
    intro u hu
    rcases List.mem_cons.mp hu with rfl | hu
    · exact ⟨u, hrest.subset (Set.mem_insert u _), hrefl u List.mem_cons_self⟩
    · exact ih (fun u hu => hrefl u (List.mem_cons_of_mem _ hu)) u hu

/-- **Nothing added is covered by the rest**, when candidates come by descending rank and reaching
goes down in rank.

**Proof sketch.** When it was added, what was there did not reach it; and what was added later is of
no higher rank. -/
theorem Loop.irredundant {rank : α → ℕ}
    (hrank : ∀ a ∈ us, ∀ b, reach a b → a ≠ b → rank b < rank a)
    (hus : us.Pairwise fun a b => rank b ≤ rank a)
    (h : Loop (Covers reach) (fun T u => insert u T) T us T') :
    ∀ u ∈ T', u ∉ T → ¬ Covers reach ( T' \ {u}) u := by
  induction h with
  | nil T => exact fun u hu hnot => absurd hu hnot
  | skip _ _ ih =>
    exact ih (fun a ha => hrank a (List.mem_cons_of_mem _ ha)) (List.pairwise_cons.mp hus).2
  | @add T T' u us hnot hrest ih =>
    obtain ⟨hhead, hus⟩ := List.pairwise_cons.mp hus
    intro x hx hxT hcov
    by_cases hxu : x = u
    · subst hxu
      obtain ⟨t, ⟨ht, hne⟩, htx⟩ := hcov
      rcases hrest.mem_or_mem ht with ht | ht
      · rcases Set.mem_insert_iff.mp ht with rfl | ht
        · exact hne rfl
        · exact hnot ⟨t, ht, htx⟩
      · exact absurd (hrank t (List.mem_cons_of_mem _ ht) x htx hne)
          (Nat.not_lt_of_le (hhead t ht))
    · have hnot : x ∉ insert u T := fun hmem => (Set.mem_insert_iff.mp hmem).elim hxu hxT
      exact ih (fun a ha => hrank a (List.mem_cons_of_mem _ ha)) hus x hx hnot hcov

end Sets

end GreedyCover
