import DagRider.Lib.Run

set_option relaxedAutoImplicit false
set_option autoImplicit false

/-!
# Simulation and quiescence

Two arguments about partial step functions. A system is simulated by a more abstract one when
each of its steps shows a list of abstract events that lead from the view of the state before to
the view of the state after. And a system whose steps lower a rank comes to rest.

## Main definitions

* `Run.Simulates` — every step is matched by the events it shows.
* `Run.Resting` — no event of a kind is enabled.

## Main results

* `Run.Simulates.exec` — every run is matched by the events it shows.
* `Run.length_add_rank_le` — a run whose steps lower a rank is no longer than the rank.
* `Run.exists_resting`, `Run.exists_exec_eq_none` — when steps lower a well-founded rank, some run
  comes to rest and none goes on forever.
-/

namespace Run

variable {σ ε τ α β : Type*}

/-! ## Simulation -/

/-- In the states with `I`, which the steps keep, each step is matched by the abstract events it
shows. -/
structure Simulates (step : σ → ε → Option σ) (astep : τ → α → Option τ) (I : σ → Prop)
    (view : σ → τ) (shows : σ → ε → List α) : Prop where
  keeps : ∀ {s e t}, I s → step s e = some t → I t
  follows : ∀ {s e t}, I s → step s e = some t →
    Run.exec astep (view s) (shows s e) = some (view t)

variable {step : σ → ε → Option σ} {astep : τ → α → Option τ} {I : σ → Prop} {view : σ → τ}
  {shows : σ → ε → List α} {s t : σ} {es fs : List ε} {e : ε}

/-- What a run that starts with a step shows. -/
lemma trace_cons (h : step s e = some t) :
    trace step shows s (e :: es) = shows s e ++ trace step shows t es := by
  simp [trace, h]

/-- **Simulation of runs.** Every run is matched by the events it shows. -/
theorem Simulates.exec (h : Simulates step astep I view shows) (hs : I s)
    (hrun : Run.exec step s es = some t) :
    Run.exec astep (view s) (trace step shows s es) = some (view t) := by
  induction es generalizing s with
  | nil =>
    rw [exec_nil, Option.some.injEq] at hrun
    subst hrun
    rfl
  | cons e es ih =>
    obtain ⟨s', hstep, hrest⟩ := exec_cons_eq_some.mp hrun
    rw [trace_cons hstep]
    exact exec_append_eq_some.mpr ⟨view s', h.follows hs hstep, ih (h.keeps hs hstep) hrest⟩

/-! ## Coming to rest -/

/-- No event of the kind `E` is enabled. -/
def Resting (step : σ → ε → Option σ) (E : ε → Prop) (s : σ) : Prop := ∀ e, E e → step s e = none

/-- A run whose steps lower a rank is no longer than the rank of its start. -/
theorem length_add_rank_le {E : ε → Prop} {rank : σ → ℕ}
    (hI : ∀ s e t, I s → step s e = some t → I t)
    (hrank : ∀ s e t, I s → E e → step s e = some t → rank t < rank s) (hs : I s)
    (hE : ∀ e ∈ es, E e) (hrun : Run.exec step s es = some t) : es.length + rank t ≤ rank s := by
  induction es generalizing s with
  | nil =>
    rw [exec_nil, Option.some.injEq] at hrun
    subst hrun
    simp
  | cons e es ih =>
    obtain ⟨s', hstep, hrest⟩ := exec_cons_eq_some.mp hrun
    have hlow := hrank s e s' hs (hE e (by simp)) hstep
    have hlen := ih (hI s e s' hs hstep) (fun e' he' => hE e' (by simp [he'])) hrest
    rw [List.length_cons]
    omega

variable {r : β → β → Prop} {rank : σ → β} {E : ε → Prop}

/-- **Coming to rest.** When the events of a kind lower a well-founded rank, some run of such events
leads to a state where none is enabled. -/
theorem exists_resting (hr : WellFounded r) (hI : ∀ s e t, I s → step s e = some t → I t)
    (hrank : ∀ s e t, I s → E e → step s e = some t → r (rank t) (rank s)) (hs : I s) :
    ∃ es t, (∀ e ∈ es, E e) ∧ Run.exec step s es = some t ∧ Resting step E t := by
  induction hn : rank s using hr.induction generalizing s with
  | _ n ih =>
    by_cases hrest : Resting step E s
    · exact ⟨[], s, by simp, rfl, hrest⟩
    · unfold Resting at hrest
      push Not at hrest
      obtain ⟨e, he, hne⟩ := hrest
      obtain ⟨s', hstep⟩ := Option.ne_none_iff_exists'.mp hne
      have hlow := hrank s e s' hs he hstep
      obtain ⟨es, t, hes, hrun, ht⟩ := ih (rank s') (hn ▸ hlow) (hI s e s' hs hstep) rfl
      refine ⟨e :: es, t, ?_, exec_cons_eq_some.mpr ⟨s', hstep, hrun⟩, ht⟩
      intro e' he'
      rcases List.mem_cons.mp he' with rfl | he'
      · exact he
      · exact hes e' he'

/-- **No run goes on forever** with events of a kind that lower a well-founded rank. -/
theorem exists_exec_eq_none (hr : WellFounded r) (hI : ∀ s e t, I s → step s e = some t → I t)
    (hrank : ∀ s e t, I s → E e → step s e = some t → r (rank t) (rank s)) (hs : I s)
    (f : ℕ → ε) (hf : ∀ n, E (f n)) : ∃ n, Run.exec step s ((List.range n).map f) = none := by
  induction hn : rank s using hr.induction generalizing s f with
  | _ n ih =>
    cases hstep : step s (f 0) with
    | none => exact ⟨1, by simp [exec, hstep]⟩
    | some s' =>
      have hlow := hrank s (f 0) s' hs (hf 0) hstep
      obtain ⟨k, hk⟩ := ih (rank s') (hn ▸ hlow) (hI s (f 0) s' hs hstep) (fun n => f (n + 1))
        (fun n => hf (n + 1)) rfl
      refine ⟨k + 1, ?_⟩
      rw [List.range_succ_eq_map, List.map_cons, List.map_map, exec, hstep]
      exact hk

end Run
