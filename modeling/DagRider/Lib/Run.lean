import Mathlib.Data.List.Infix
import Mathlib.Data.List.Induction

set_option relaxedAutoImplicit false
set_option autoImplicit false

/-!
# Runs of a partial step function

A system is a partial step function: `step s e = some s'` when event `e` is enabled in `s`
and leads to `s'`. A run is the list of its events. This file has the rules by which a fact
about one step becomes a fact about every run.

## Main definitions

* `Run.exec` — the state after a list of events.
* `Run.Visits`, `Run.VisitsThen` — the states a run goes through, and in which order.
* `Run.trace` — what an observer records along a run.
* `Run.Throughout`, `Run.Along` — a property of every state of a run, of every step of a run.

## Main results

* `Run.exec_append` — runs compose.
* `Run.history_induction`, `Run.prefix_induction` — induction over a run, for facts about a
  state and the events that led to it.
* `Run.invariant` — invariants of single states.
* `Run.throughout_iff_visits`, `Run.along_iff` — a property of all states, or of all steps, of
  a run is one of each of its beginnings.
* `Run.Throughout.along` — from all states to all steps.
* `Run.Along.induction`, `Run.Throughout.induction` — induction over a run with a property of all
  its steps, of all its states.
-/

namespace Run

variable {σ ε : Type*} (step : σ → ε → Option σ)

/-- The state after a list of events, provided each is enabled when it comes. -/
def exec : σ → List ε → Option σ
  | s, [] => some s
  | s, e :: es => (step s e).bind fun s' => exec s' es

/-- The run `es` from `s` goes through `t`. -/
def Visits (s : σ) (es : List ε) (t : σ) : Prop :=
  ∃ p, p <+: es ∧ exec step s p = some t

/-- `Q` holds in every state of the run `es` from `s`. -/
def Throughout (Q : σ → Prop) : σ → List ε → Prop
  | s, [] => Q s
  | s, e :: es => Q s ∧ ∀ s' ∈ step s e, Throughout Q s' es

/-- `P` holds of every step of the run `es` from `s`, as a relation of the state before the
step and its event. -/
def Along (P : σ → ε → Prop) : σ → List ε → Prop
  | _, [] => True
  | s, e :: es => P s e ∧ ∀ s' ∈ step s e, Along P s' es

/-- What an observer of single steps records along a run, in order. -/
def trace {β : Type*} (observe : σ → ε → List β) : σ → List ε → List β
  | _, [] => []
  | s, e :: es => observe s e ++ ((step s e).map fun s' => trace observe s' es).getD []

/-- The run `es` from `s` goes through `t` and, then or later, through `u`. -/
def VisitsThen (s : σ) (es : List ε) (t u : σ) : Prop :=
  ∃ p q, p ++ q <+: es ∧ exec step s p = some t ∧ exec step t q = some u

variable {step} {s t u : σ} {es fs : List ε} {e : ε} {Q I : σ → Prop} {P : σ → ε → Prop}

/-- The run without events stays where it is. -/
@[simp] lemma exec_nil : exec step s [] = some s := rfl

/-- A run is a monadic fold of the step function. -/
lemma exec_eq_foldlM : exec step s es = es.foldlM step s := by
  induction es generalizing s with
  | nil => rfl
  | cons e es ih =>
    rw [exec, List.foldlM_cons]
    congr 1
    funext s'
    exact ih

/-- A run that starts with `e` takes that step and runs on. -/
lemma exec_cons_eq_some :
    exec step s (e :: es) = some t ↔ ∃ s', step s e = some s' ∧ exec step s' es = some t := by
  simp [exec, Option.bind_eq_some_iff]

/-- A run in two parts. -/
lemma exec_append : exec step s (es ++ fs) = (exec step s es).bind fun t => exec step t fs := by
  induction es generalizing s with
  | nil => rfl
  | cons e es ih =>
    simp only [List.cons_append, exec]
    cases step s e with
    | none => rfl
    | some s' => exact ih

/-- A run in two parts goes through the state between them. -/
lemma exec_append_eq_some :
    exec step s (es ++ fs) = some u ↔
      ∃ t, exec step s es = some t ∧ exec step t fs = some u := by
  rw [exec_append, Option.bind_eq_some_iff]

/-- A run with one more event. -/
lemma exec_concat_eq_some :
    exec step s (es ++ [e]) = some u ↔ ∃ t, exec step s es = some t ∧ step t e = some u := by
  simp [exec_append_eq_some, exec_cons_eq_some]

/-- A run goes through its last state. -/
lemma Visits.last (h : exec step s es = some t) : Visits step s es t :=
  ⟨es, List.prefix_rfl, h⟩

/-- A run goes through what its beginnings go through. -/
lemma Visits.mono (h : Visits step s es t) (hp : es <+: fs) : Visits step s fs t := by
  obtain ⟨p, hpe, ht⟩ := h
  exact ⟨p, hpe.trans hp, ht⟩

/-- The observations of a run with one more event. -/
lemma trace_concat {β : Type*} {observe : σ → ε → List β} (h : exec step s es = some t) :
    trace step observe s (es ++ [e]) = trace step observe s es ++ observe t e := by
  induction es generalizing s with
  | nil =>
    rw [exec_nil, Option.some.injEq] at h
    subst h
    cases hs : step s e <;> simp [trace, hs]
  | cons e' es ih =>
    obtain ⟨s', hs', h⟩ := exec_cons_eq_some.mp h
    simp [trace, hs', ih h]

/-- A run that ends in a state with a decidable property, by evaluation. -/
lemma exists_exec_of_any {p : σ → Bool} (h : (exec step s es).any p = true) :
    ∃ t, exec step s es = some t ∧ p t = true := by
  cases hs : exec step s es with
  | none => simp [hs] at h
  | some t => exact ⟨t, rfl, by simpa [hs] using h⟩

/-! ## Induction over a run -/

/-- **Induction over a run**, for a property of the events so far and the state they led
to. -/
theorem history_induction {J : List ε → σ → Prop} (hnil : J [] s)
    (hstep : ∀ p t e u, exec step s p = some t → J p t → step t e = some u → J (p ++ [e]) u)
    (h : exec step s es = some t) : J es t := by
  induction es using List.reverseRecOn generalizing t with
  | nil =>
    rw [exec_nil, Option.some.injEq] at h
    exact h ▸ hnil
  | append_singleton es e ih =>
    obtain ⟨t', ht', he⟩ := exec_concat_eq_some.mp h
    exact hstep es t' e t ht' (ih ht') he

/-- **Induction over the beginnings of a run**, for facts that need what is assumed of the whole
run: each step comes with the beginning of the run that it ends. -/
theorem prefix_induction {J : List ε → σ → Prop} (hnil : J [] s)
    (hstep : ∀ p t e u, p ++ [e] <+: es → exec step s p = some t → J p t → step t e = some u →
      J (p ++ [e]) u) (h : exec step s es = some t) : J es t := by
  refine history_induction (J := fun p t => p <+: es → J p t) (fun _ => hnil) ?_ h List.prefix_rfl
  intro p t e u hp ih hu hpre
  exact hstep p t e u hpre hp (ih ((List.prefix_append p [e]).trans hpre)) hu

/-- A property that every step preserves holds at the end of every run. -/
theorem invariant (hstep : ∀ t e u, I t → step t e = some u → I u) (h0 : I s)
    (h : exec step s es = some t) : I t :=
  history_induction (J := fun _ t => I t) h0 (fun _ t e u _ ht hu => hstep t e u ht hu) h

/-- What was recorded along a run was recorded at one of its steps. -/
lemma exists_step_of_mem_trace {β : Type*} {observe : σ → ε → List β} {x : β}
    (h : exec step s es = some t) (hx : x ∈ trace step observe s es) :
    ∃ p e q u, es = p ++ e :: q ∧ exec step s p = some u ∧ x ∈ observe u e := by
  refine history_induction (J := fun es _ => x ∈ trace step observe s es →
    ∃ p e q u, es = p ++ e :: q ∧ exec step s p = some u ∧ x ∈ observe u e)
    (fun hx => absurd hx List.not_mem_nil) ?_ h hx
  intro p t e u hp ih _ hx
  rw [trace_concat hp, List.mem_append] at hx
  rcases hx with hx | hx
  · obtain ⟨p', e', q, t', rfl, hp', hx⟩ := ih hx
    exact ⟨p', e', q ++ [e], t', by simp, hp', hx⟩
  · exact ⟨p, e, [], t, rfl, hp, hx⟩

/-! ## Properties of all states and all steps -/

instance decidableThroughout [DecidablePred Q] : ∀ s es, Decidable (Throughout step Q s es)
  | s, [] => inferInstanceAs (Decidable (Q s))
  | s, e :: es =>
    have : DecidablePred fun s' => Throughout step Q s' es := fun s' => decidableThroughout s' es
    inferInstanceAs (Decidable (Q s ∧ ∀ s' ∈ step s e, Throughout step Q s' es))

instance decidableAlong [∀ s, DecidablePred (P s)] : ∀ s es, Decidable (Along step P s es)
  | _, [] => isTrue trivial
  | s, e :: es =>
    have : DecidablePred fun s' => Along step P s' es := fun s' => decidableAlong s' es
    inferInstanceAs (Decidable (P s e ∧ ∀ s' ∈ step s e, Along step P s' es))

/-- A property holds throughout a run iff it holds in every state the run goes through. -/
theorem throughout_iff_visits :
    Throughout step Q s es ↔ ∀ t, Visits step s es t → Q t := by
  induction es generalizing s with
  | nil =>
    refine ⟨fun h t ht => ?_, fun h => h s (Visits.last rfl)⟩
    obtain ⟨p, hp, ht⟩ := ht
    rw [List.prefix_nil.mp hp, exec_nil, Option.some.injEq] at ht
    exact ht ▸ h
  | cons e es ih =>
    constructor
    · rintro ⟨h0, h⟩ t ⟨p, hp, ht⟩
      cases p with
      | nil =>
        rw [exec_nil, Option.some.injEq] at ht
        exact ht ▸ h0
      | cons e' p =>
        obtain ⟨rfl, hp'⟩ := List.cons_prefix_cons.mp hp
        obtain ⟨s', hs', ht⟩ := exec_cons_eq_some.mp ht
        exact ih.mp (h s' hs') t ⟨p, hp', ht⟩
    · intro h
      refine ⟨h s ⟨[], List.nil_prefix, rfl⟩, fun s' hs' => ih.mpr fun t ht => ?_⟩
      obtain ⟨p, hp, ht⟩ := ht
      exact h t ⟨e :: p, List.cons_prefix_cons.mpr ⟨rfl, hp⟩,
        exec_cons_eq_some.mpr ⟨s', hs', ht⟩⟩

/-- A property of every step holds along a run iff it holds of each step from a state the
run goes through. -/
theorem along_iff :
    Along step P s es ↔ ∀ p e t, p ++ [e] <+: es → exec step s p = some t → P t e := by
  induction es generalizing s with
  | nil =>
    refine ⟨fun _ p e t hp => ?_, fun _ => trivial⟩
    simp at hp
  | cons e es ih =>
    constructor
    · rintro ⟨h0, h⟩ p e' t hp ht
      cases p with
      | nil =>
        obtain ⟨rfl, -⟩ := List.cons_prefix_cons.mp hp
        rw [exec_nil, Option.some.injEq] at ht
        exact ht ▸ h0
      | cons e'' p =>
        obtain ⟨rfl, hp'⟩ := List.cons_prefix_cons.mp hp
        obtain ⟨s', hs', ht⟩ := exec_cons_eq_some.mp ht
        exact ih.mp (h s' hs') p e' t hp' ht
    · intro h
      refine ⟨h [] e s (List.cons_prefix_cons.mpr ⟨rfl, List.nil_prefix⟩) rfl,
        fun s' hs' => ih.mpr fun p e' t hp ht => ?_⟩
      exact h (e :: p) e' t (List.cons_prefix_cons.mpr ⟨rfl, hp⟩)
        (exec_cons_eq_some.mpr ⟨s', hs', ht⟩)

/-- A property of every step of a run in two parts. -/
lemma along_append (h : exec step s es = some t) :
    Along step P s (es ++ fs) ↔ Along step P s es ∧ Along step P t fs := by
  induction es generalizing s with
  | nil =>
    rw [exec_nil, Option.some.injEq] at h
    subst h
    simp [Along]
  | cons e es ih =>
    obtain ⟨s', hs', h⟩ := exec_cons_eq_some.mp h
    simp only [List.cons_append, Along, hs', Option.mem_some_iff, forall_eq', ih h, and_assoc]

/-- What holds throughout a run holds throughout its beginnings. -/
lemma Throughout.mono (h : Throughout step Q s fs) (hp : es <+: fs) :
    Throughout step Q s es :=
  throughout_iff_visits.mpr fun t ht => throughout_iff_visits.mp h t (ht.mono hp)

/-- What holds throughout a run holds in its last state. -/
lemma Throughout.last (h : Throughout step Q s es) (ht : exec step s es = some t) : Q t :=
  throughout_iff_visits.mp h t (Visits.last ht)

/-- What follows from a property of the states holds of every step of a run that has it
throughout. -/
lemma Throughout.along (h : Throughout step Q s es)
    (hP : ∀ p e t, p ++ [e] <+: es → exec step s p = some t → Q t → P t e) :
    Along step P s es := by
  refine along_iff.mpr fun p e t hp ht => hP p e t hp ht ?_
  exact (h.mono ((List.prefix_append p [e]).trans hp)).last ht

/-- Inside a run each step is taken, and the rest of the run starts where it leads. -/
lemma step_of_exec {p : List ε} (h : exec step s es = some u) (hp : p ++ [e] <+: es)
    (ht : exec step s p = some t) :
    ∃ t' fs, p ++ [e] ++ fs = es ∧ step t e = some t' ∧ exec step t' fs = some u := by
  obtain ⟨fs, rfl⟩ := hp
  obtain ⟨t', hp', hfs⟩ := exec_append_eq_some.mp h
  obtain ⟨t'', ht'', hstep⟩ := exec_concat_eq_some.mp hp'
  rw [ht, Option.some.injEq] at ht''
  exact ⟨t', fs, rfl, ht'' ▸ hstep, hfs⟩

/-- What holds along a run holds along its beginnings. -/
lemma Along.mono (h : Along step P s fs) (hp : es <+: fs) : Along step P s es :=
  along_iff.mpr fun p e t hpe ht => along_iff.mp h p e t (hpe.trans hp) ht

/-- What holds along a run holds of its last step. -/
lemma Along.last (h : Along step P s (es ++ [e])) (ht : exec step s es = some t) : P t e :=
  along_iff.mp h es e t List.prefix_rfl ht

/-- **Induction over a run with a property of all steps**, which each step may use. -/
theorem Along.induction {J : List ε → σ → Prop} (hP : Along step P s es) (hnil : J [] s)
    (hstep : ∀ p t e u, exec step s p = some t → J p t → P t e → step t e = some u →
      J (p ++ [e]) u) (h : exec step s es = some t) : J es t := by
  refine prefix_induction hnil (fun p t e u hpre hp hJ hu => ?_) h
  exact hstep p t e u hp hJ ((hP.mono hpre).last hp) hu

/-- **Induction over a run with a property of all states**, which each step may use of the state
before it and of the one after it. -/
theorem Throughout.induction {J : List ε → σ → Prop} (hQ : Throughout step Q s es) (hnil : J [] s)
    (hstep : ∀ p t e u, exec step s p = some t → J p t → Q t → Q u → step t e = some u →
      J (p ++ [e]) u) (h : exec step s es = some t) : J es t := by
  refine prefix_induction hnil (fun p t e u hpre hp hJ hu => ?_) h
  have ht : Q t := (hQ.mono ((List.prefix_append p [e]).trans hpre)).last hp
  have hu' : Q u := (hQ.mono hpre).last (exec_concat_eq_some.mpr ⟨t, hp, hu⟩)
  exact hstep p t e u hp hJ ht hu' hu

end Run
