import DagRider.Lib.Fuel
import Mathlib.Data.Fintype.EquivFin
import Mathlib.Data.List.Induction
import Mathlib.Logic.Relation

set_option relaxedAutoImplicit false
set_option autoImplicit false

/-!
# Depth-first search with an explicit stack

The loop that pops an element, stops when it is a goal, and otherwise pushes its successors.
There is no visited set, so the loop may revisit elements and need not end on a cyclic
graph; its result is a function of a step bound.

## Main definitions

* `StackSearch.search` — the loop.
* `StackSearch.Finds` — some goal can be reached from an element.
* `StackSearch.Ends`, `StackSearch.Enters` — the loop ends; the loop goes on to an element.

## Main results

* `StackSearch.search_eq_some_iff` — whenever the loop ends, it answers whether a goal can
  be reached from the stack.
* `StackSearch.ends_iff` — exactly when it ends on a finite graph.
* `StackSearch.search_computes` — it ends when successors descend in rank.
-/

namespace StackSearch

open Relation

variable {α : Type*} (goal : α → Bool) (succ : α → List α)

/-- The search loop; successors are pushed in order, so the last one is on top. -/
def search : ℕ → List α → Option Bool
  | 0, _ => none
  | _ + 1, [] => some false
  | n + 1, a :: stack =>
    if goal a then some true else search n ((succ a).reverse ++ stack)

/-- A goal can be reached from `a` along successors. -/
def Finds (a : α) : Prop := ∃ b, ReflTransGen (fun x y => y ∈ succ x) a b ∧ goal b

variable {goal succ}

/-- A goal is found at the element itself or from a successor. -/
lemma finds_iff {a : α} :
    Finds goal succ a ↔ goal a = true ∨ ∃ b ∈ succ a, Finds goal succ b := by
  constructor
  · rintro ⟨b, hab, hb⟩
    rcases ReflTransGen.cases_head hab with rfl | ⟨c, hac, hcb⟩
    · exact Or.inl hb
    · exact Or.inr ⟨c, hac, b, hcb, hb⟩
  · rintro (h | ⟨b, hb, c, hbc, hc⟩)
    · exact ⟨a, ReflTransGen.refl, h⟩
    · exact ⟨c, ReflTransGen.head hb hbc, hc⟩

/-- **Whenever the loop ends, it answers correctly**: `true` iff a goal can be reached from
an element of the stack.

**Proof sketch.** Induction on the bound. Popping a goal answers `true`; popping anything
else replaces it by its successors, which find a goal iff it does (`finds_iff`). -/
theorem search_eq_some_iff {n : ℕ} {stack : List α} {b : Bool}
    (h : search goal succ n stack = some b) :
    b = true ↔ ∃ a ∈ stack, Finds goal succ a := by
  induction n generalizing stack with
  | zero => simp [search] at h
  | succ n ih =>
    cases stack with
    | nil =>
      simp only [search, Option.some.injEq] at h
      simp [← h]
    | cons a stack =>
      simp only [search] at h
      split_ifs at h with hg
      · have ha : Finds goal succ a := finds_iff.mpr (Or.inl hg)
        simp [← Option.some.inj h, ha]
      · rw [ih h]
        simp only [List.mem_append, List.mem_reverse, List.mem_cons, or_and_right, exists_or,
          exists_eq_left]
        rw [finds_iff (a := a)]
        simp [hg]

/-- A larger bound gives the same answer. -/
lemma search_succ {n : ℕ} {stack : List α} {b : Bool}
    (h : search goal succ n stack = some b) : search goal succ (n + 1) stack = some b := by
  induction n generalizing stack with
  | zero => simp [search] at h
  | succ n ih =>
    cases stack with
    | nil => simpa [search] using h
    | cons a stack =>
      rw [search] at h ⊢
      split_ifs at h ⊢ with hg
      · exact h
      · exact ih h

/-- Every larger bound gives the same answer. -/
lemma search_le {n m : ℕ} (hnm : n ≤ m) {stack : List α} {b : Bool}
    (h : search goal succ n stack = some b) : search goal succ m stack = some b := by
  induction hnm with
  | refl => exact h
  | step _ ih => exact search_succ ih

/-! ## When the loop ends -/

/-- The loop ends on a stack. -/
def Ends (goal : α → Bool) (succ : α → List α) (stack : List α) : Prop :=
  ∃ n b, search goal succ n stack = some b

/-- The loop goes on from `a` to its successor `b`: `a` is no goal, and no goal can be reached from
what `a` pushes above `b`. -/
def Enters (goal : α → Bool) (succ : α → List α) (a b : α) : Prop :=
  goal a = false ∧ ∃ below above, succ a = below ++ b :: above ∧ ∀ c ∈ above, ¬ Finds goal succ c

/-- The loop goes on to successors only. -/
lemma Enters.mem_succ {a b : α} (h : Enters goal succ a b) : b ∈ succ a := by
  obtain ⟨-, below, above, hsucc, -⟩ := h
  rw [hsucc]
  exact List.mem_append_right _ List.mem_cons_self

/-- If the loop ends on a stack, it pops the elements on top that find no goal, and ends on the
rest. -/
lemma exists_search_of_append {n : ℕ} {l stack : List α} {b : Bool}
    (hl : ∀ c ∈ l, ¬ Finds goal succ c) (h : search goal succ n (l ++ stack) = some b) :
    ∃ m ≤ n, search goal succ m stack = some b := by
  induction n generalizing l with
  | zero => simp [search] at h
  | succ n ih =>
    cases l with
    | nil => exact ⟨n + 1, le_rfl, h⟩
    | cons c l =>
      obtain ⟨hc, hl⟩ := List.forall_mem_cons.mp hl
      have hgoal : goal c ≠ true := fun hg => hc (finds_iff.mpr (Or.inl hg))
      have hpush : ∀ d ∈ (succ c).reverse ++ l, ¬ Finds goal succ d := by
        intro d hd
        rcases List.mem_append.mp hd with hd | hd
        · exact fun hf => hc (finds_iff.mpr (Or.inr ⟨d, List.mem_reverse.mp hd, hf⟩))
        · exact hl d hd
      rw [List.cons_append, search, if_neg hgoal, ← List.append_assoc] at h
      obtain ⟨m, hm, hstack⟩ := ih hpush h
      exact ⟨m, hm.trans n.le_succ, hstack⟩

/-- If the loop ends on a stack, it ends sooner when it goes on from the top of it. -/
lemma Enters.exists_search_lt {n : ℕ} {a b : α} {stack : List α} {r : Bool}
    (hab : Enters goal succ a b) (h : search goal succ n (a :: stack) = some r) :
    ∃ m < n, ∃ rest, search goal succ m (b :: rest) = some r := by
  obtain ⟨hgoal, below, above, hsucc, habove⟩ := hab
  cases n with
  | zero => simp [search] at h
  | succ n =>
    rw [search, hgoal, hsucc, List.reverse_append, List.reverse_cons, List.append_assoc,
      List.append_assoc, List.singleton_append] at h
    obtain ⟨m, hm, hrest⟩ := exists_search_of_append
      (fun c hc => habove c (List.mem_reverse.mp hc)) h
    exact ⟨m, Nat.lt_succ_of_le hm, _, hrest⟩

/-- **The loop does not end where it goes round.**

**Proof sketch.** Strong induction on the bound: with a smaller one it would end at the next element
of the cycle. -/
lemma search_ne_some_of_cycle {n : ℕ} {a : α} (h : TransGen (Enters goal succ) a a)
    (stack : List α) (r : Bool) : search goal succ n (a :: stack) ≠ some r := by
  induction n using Nat.strong_induction_on generalizing a stack with
  | _ n ih =>
    intro hs
    obtain ⟨b, hab, hba⟩ := TransGen.head'_iff.mp h
    obtain ⟨m, hm, rest, hrest⟩ := hab.exists_search_lt hs
    exact ih m hm (TransGen.tail' hba hab) rest hrest

/-- If the loop ends on a stack, it ends on one that starts with whatever it comes to from the top
of it. -/
lemma exists_search_of_reflTransGen {n : ℕ} {a b : α} {stack : List α} {r : Bool}
    (hab : ReflTransGen (Enters goal succ) a b) (h : search goal succ n (a :: stack) = some r) :
    ∃ m rest, search goal succ m (b :: rest) = some r := by
  induction hab with
  | refl => exact ⟨n, stack, h⟩
  | tail _ hbc ih =>
    obtain ⟨m, rest, hm⟩ := ih
    obtain ⟨m', -, rest', hm'⟩ := hbc.exists_search_lt hm
    exact ⟨m', rest', hm'⟩

/-- **The loop ends where it cannot go on for ever**: on a stack with such an element on top, if it
ends on the rest or a goal can be reached from that element.

**Proof sketch.** Induction on how far the loop can go on, and inside it on what the element pushes:
it comes to a successor only after those above it have found nothing. -/
lemma ends_cons {a : α} (hacc : Acc (fun y x => Enters goal succ x y) a) (stack : List α)
    (hstack : ¬ Finds goal succ a → Ends goal succ stack) : Ends goal succ (a :: stack) := by
  induction hacc generalizing stack with
  | intro a _ ih =>
    by_cases hgoal : goal a
    · exact ⟨1, true, by simp [search, hgoal]⟩
    have hnot : goal a = false := Bool.eq_false_iff.mpr hgoal
    have hpush : ∀ below above, succ a = below ++ above →
        (∀ c ∈ above, ¬ Finds goal succ c) → Ends goal succ (below.reverse ++ stack) := by
      intro below
      induction below using List.reverseRecOn with
      | nil =>
        intro above hsucc habove
        refine hstack fun hfinds => ?_
        obtain ⟨c, hc, hf⟩ := (finds_iff.mp hfinds).resolve_left hgoal
        exact habove c (by rwa [hsucc] at hc) hf
      | append_singleton below c ihbelow =>
        intro above hsucc habove
        rw [List.append_assoc, List.singleton_append] at hsucc
        rw [List.reverse_append, List.reverse_singleton, List.singleton_append, List.cons_append]
        refine ih c ⟨hnot, below, above, hsucc, habove⟩ _ fun hc => ?_
        exact ihbelow (c :: above) hsucc (List.forall_mem_cons.mpr ⟨hc, habove⟩)
    obtain ⟨n, b, hn⟩ := hpush (succ a) [] (List.append_nil _).symm (by simp)
    exact ⟨n + 1, b, by simp [search, hgoal, hn]⟩

/-- The loop stays inside a set that is closed under successors. -/
lemma mem_of_enters {S : Finset α} (hclosed : ∀ a ∈ S, ∀ b ∈ succ a, b ∈ S) {a b : α}
    (ha : a ∈ S) (hab : ReflTransGen (Enters goal succ) a b) : b ∈ S := by
  induction hab with
  | refl => exact ha
  | tail _ hbc ih => exact hclosed _ ih _ hbc.mem_succ

/-- Without a way round, the loop cannot go on for ever on a finite graph. -/
lemma acc_enters (S : Finset α) (hclosed : ∀ a ∈ S, ∀ b ∈ succ a, b ∈ S) {a : α} (ha : a ∈ S)
    (hcycle : ∀ b, ReflTransGen (Enters goal succ) a b → ¬ TransGen (Enters goal succ) b b) :
    Acc (fun y x => Enters goal succ x y) a := by
  -- the elements it comes to, with those it comes to later below those it comes to before
  let R := {b // ReflTransGen (Enters goal succ) a b}
  let later : R → R → Prop := fun y x => TransGen (Enters goal succ) x.1 y.1
  have : Finite R := Finite.of_injective (fun x : R => (⟨x.1, mem_of_enters hclosed ha x.2⟩ : S))
    fun x y hxy => Subtype.ext (congrArg (fun z : S => z.1) hxy)
  have : IsTrans R later := ⟨fun x y z hxy hyz => TransGen.trans hyz hxy⟩
  have : Std.Irrefl later := ⟨fun x hx => hcycle x.1 x.2 hx⟩
  have hwf : WellFounded later := Finite.wellFounded_of_trans_of_irrefl later
  have key : ∀ x : R, Acc (fun y x => Enters goal succ x y) x.1 := by
    intro x
    induction x using hwf.induction with
    | _ x ih =>
      exact Acc.intro _ fun y hy => ih ⟨y, x.2.tail hy⟩ (TransGen.single hy)
  exact key ⟨a, ReflTransGen.refl⟩

/-- **Exactly when the search ends** on a finite graph: it comes to no element that it comes back
to. -/
theorem ends_iff (S : Finset α) (hclosed : ∀ a ∈ S, ∀ b ∈ succ a, b ∈ S) {a : α} (ha : a ∈ S) :
    Ends goal succ [a] ↔
      ∀ b, ReflTransGen (Enters goal succ) a b → ¬ TransGen (Enters goal succ) b b := by
  constructor
  · rintro ⟨n, r, hn⟩ b hab hbb
    obtain ⟨m, rest, hm⟩ := exists_search_of_reflTransGen hab hn
    exact search_ne_some_of_cycle hbb rest r hm
  · intro hcycle
    exact ends_cons (acc_enters S hclosed ha hcycle) [] fun _ => ⟨1, false, rfl⟩

/-- A search that ends computes its answer. -/
lemma Ends.computes {a : α} (h : Ends goal succ [a]) {answer : Bool}
    (hanswer : answer = true ↔ Finds goal succ a) :
    Fuel.Computes (fun n => search goal succ n [a]) answer := by
  have hright : ∀ n b, search goal succ n [a] = some b → b = answer := by
    intro n b hb
    have h := search_eq_some_iff hb
    simp only [List.mem_singleton, exists_eq_left] at h
    exact Bool.eq_iff_iff.mpr (h.trans hanswer.symm)
  obtain ⟨n, b, hn⟩ := h
  exact ⟨⟨n, fun m hm => hright n b hn ▸ search_le hm hn⟩, hright⟩

/-- **The search ends where successors descend in rank**, with the right answer. -/
theorem search_computes (ok : α → Prop) (rank : α → ℕ)
    (hsucc : ∀ a, ok a → ∀ b ∈ succ a, ok b ∧ rank b < rank a) {a : α} (ha : ok a)
    {answer : Bool} (hanswer : answer = true ↔ Finds goal succ a) :
    Fuel.Computes (fun n => search goal succ n [a]) answer := by
  have hacc : ∀ k a, ok a → rank a = k → Acc (fun y x => Enters goal succ x y) a := by
    intro k
    induction k using Nat.strong_induction_on with
    | _ k ih =>
      rintro a ha rfl
      refine Acc.intro _ fun b hab => ?_
      obtain ⟨hb, hlt⟩ := hsucc a ha b hab.mem_succ
      exact ih (rank b) hlt b hb rfl
  exact (ends_cons (hacc _ a ha rfl) [] fun _ => ⟨1, false, rfl⟩).computes hanswer

/-! ## Cycles -/

/-- A path of steps each of which is a step of `R` or leads to `v` is a path of `R`, or goes
through `v`. -/
lemma transGen_or_through {R R' : α → α → Prop} {v x y : α}
    (hR : ∀ a b, R' a b → b = v ∨ R a b) (h : TransGen R' x y) :
    TransGen R x y ∨ (TransGen R' x v ∧ ReflTransGen R' v y) := by
  induction h with
  | @single b hxb =>
    rcases hR x b hxb with rfl | hstep
    · exact Or.inr ⟨TransGen.single hxb, ReflTransGen.refl⟩
    · exact Or.inl (TransGen.single hstep)
  | @tail b c hxb hbc ih =>
    rcases ih with hpath | ⟨hxv, hvb⟩
    · rcases hR b c hbc with rfl | hstep
      · exact Or.inr ⟨hxb.tail hbc, ReflTransGen.refl⟩
      · exact Or.inl (hpath.tail hstep)
    · exact Or.inr ⟨hxv, hvb.tail hbc⟩

end StackSearch
