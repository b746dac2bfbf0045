import Mathlib.Order.Nat

set_option relaxedAutoImplicit false
set_option autoImplicit false

/-!
# Computations with a step bound

A loop that need not end is a function of a step bound, `none` when the bound is too small.
`Fuel.Computes f a` says that the loop ends with result `a`: every large enough bound gives
`a`, and no bound gives anything else.

## Main definitions

* `Fuel.Computes` — the computation ends with the given result.
* `Fuel.Ends` — the computation ends, with whatever result.

## Main results

* `Fuel.Computes.bind`, `Fuel.Computes.foldlM`, `Fuel.Computes.foldlM_of_prefix` — sequencing and
  iteration of computations that end.
* `Fuel.Ends.bind`, `Fuel.Ends.foldlM` — the same, where the results do not matter.
-/

namespace Fuel

variable {α β γ : Type*}

/-- The computation ends with result `a`. -/
structure Computes (f : ℕ → Option α) (a : α) : Prop where
  /-- Every large enough bound gives the result. -/
  returns : ∃ N, ∀ n, N ≤ n → f n = some a
  /-- No bound gives another one. -/
  unique : ∀ n b, f n = some b → b = a

/-- A computation that ignores its bound. -/
lemma Computes.pure (a : α) : Computes (fun _ => some a) a :=
  ⟨⟨0, fun _ _ => rfl⟩, fun _ _ h => (Option.some.inj h).symm⟩

/-- Two computations in sequence. -/
lemma Computes.bind {f : ℕ → Option α} {a : α} {g : ℕ → α → Option β} {b : β}
    (hf : Computes f a) (hg : Computes (fun n => g n a) b) :
    Computes (fun n => (f n).bind (g n)) b := by
  refine ⟨?_, ?_⟩
  · obtain ⟨N, hN⟩ := hf.returns
    obtain ⟨M, hM⟩ := hg.returns
    refine ⟨max N M, fun n hn => ?_⟩
    rw [hN n (le_trans (le_max_left N M) hn)]
    exact hM n (le_trans (le_max_right N M) hn)
  · intro n c hc
    obtain ⟨a', ha', hc⟩ := Option.bind_eq_some_iff.mp hc
    rw [hf.unique n a' ha'] at hc
    exact hg.unique n c hc

/-- The image of a computation's result. -/
lemma Computes.map {f : ℕ → Option α} {a : α} (hf : Computes f a) (g : α → β) :
    Computes (fun n => (f n).map g) (g a) := by
  refine ⟨?_, ?_⟩
  · obtain ⟨N, hN⟩ := hf.returns
    exact ⟨N, fun n hn => by rw [hN n hn]; rfl⟩
  · intro n b hb
    obtain ⟨a', ha', rfl⟩ := Option.map_eq_some_iff.mp hb
    rw [hf.unique n a' ha']

/-- A fold of computations computes the fold of their results, if each of them computes what comes
next for the result of those before it. -/
lemma Computes.foldlM_of_prefix {f : ℕ → β → α → Option β} {g : β → α → β} {l : List α} {b : β}
    (h : ∀ p x q, l = p ++ x :: q →
      Computes (fun n => f n (p.foldl g b) x) (g (p.foldl g b) x)) :
    Computes (fun n => l.foldlM (f n) b) (l.foldl g b) := by
  induction l generalizing b with
  | nil => exact Computes.pure b
  | cons x l ih =>
    have hx : Computes (fun n => f n b x) (g b x) := h [] x l rfl
    have hl : Computes (fun n => l.foldlM (f n) (g b x)) (l.foldl g (g b x)) :=
      ih fun p y q hsplit => h (x :: p) y q (by rw [hsplit, List.cons_append])
    exact hx.bind (g := fun n b' => l.foldlM (f n) b') hl

/-- A fold of computations computes the fold of their results. -/
lemma Computes.foldlM {f : ℕ → β → α → Option β} {g : β → α → β} {l : List α}
    (h : ∀ b, ∀ x ∈ l, Computes (fun n => f n b x) (g b x)) (b : β) :
    Computes (fun n => l.foldlM (f n) b) (l.foldl g b) :=
  foldlM_of_prefix fun p x q hsplit => h (p.foldl g b) x (by rw [hsplit]; simp)

/-! ## Computations that end -/

/-- The computation ends. -/
def Ends (f : ℕ → Option α) : Prop := ∃ a, Computes f a

/-- A computation with a result ends. -/
lemma Computes.ends {f : ℕ → Option α} {a : α} (h : Computes f a) : Ends f := ⟨a, h⟩

/-- A computation that ignores its bound ends. -/
lemma Ends.pure (a : α) : Ends fun _ => some a := (Computes.pure a).ends

/-- Some bound is enough for a computation that ends. -/
lemma Ends.exists_eq {f : ℕ → Option α} (h : Ends f) : ∃ n a, f n = some a := by
  obtain ⟨a, ha⟩ := h
  obtain ⟨N, hN⟩ := ha.returns
  exact ⟨N, a, hN N le_rfl⟩

/-- Two computations in sequence end if the second one does for each result of the first. -/
lemma Ends.bind {f : ℕ → Option α} {g : ℕ → α → Option β} (hf : Ends f)
    (hg : ∀ n a, f n = some a → Ends fun n => g n a) : Ends fun n => (f n).bind (g n) := by
  obtain ⟨n, a, ha⟩ := hf.exists_eq
  obtain ⟨a', ha'⟩ := hf
  obtain rfl := ha'.unique n a ha
  obtain ⟨b, hb⟩ := hg n a ha
  exact (ha'.bind hb).ends

/-- A computation whose result is changed ends. -/
lemma Ends.map {f : ℕ → Option α} (hf : Ends f) (g : α → β) : Ends fun n => (f n).map g := by
  obtain ⟨a, ha⟩ := hf
  exact (ha.map g).ends

/-- A fold ends if each of its steps does. -/
lemma Ends.foldlM {f : ℕ → β → α → Option β} {l : List α}
    (h : ∀ b, ∀ x ∈ l, Ends fun n => f n b x) (b : β) : Ends fun n => l.foldlM (f n) b := by
  induction l generalizing b with
  | nil => exact Ends.pure b
  | cons x l ih =>
    have hx : Ends fun n => f n b x := h b x (by simp)
    exact hx.bind (g := fun n b' => l.foldlM (f n) b') fun _ b' _ =>
      ih (fun b y hy => h b y (by simp [hy])) b'

end Fuel
