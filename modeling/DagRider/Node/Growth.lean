import DagRider.Node.Proposals

set_option relaxedAutoImplicit false
set_option autoImplicit false

/-!
# Growth and causal closure of the DAG

`insertVertex` assigns to the slot of the vertex's round and owner, so it may replace a
vertex that other vertices have as a parent. Along a run that never replaces a vertex by
another one the DAG only grows and stays causally closed; a run that does loses a vertex.

## Main definitions

* `DagRider.Dag.Closed` — the parents of every stored vertex are stored.
* `DagRider.Node.Overwrites` — the step replaces a stored vertex by a different one.

## Main results

* `DagRider.Node.grows`, `DagRider.Node.closed` — growth and closure without overwriting.
* `DagRider.Node.grows_and_closed_iff` — and only then.
-/

namespace DagRider

/-- The parents of every stored vertex are stored, in their recorded rounds. -/
def Dag.Closed (g : Dag) : Prop := ∀ v ∈ g.vertices, g.containsVertices v.parents = true

namespace Node

variable {P : Platform} {nodeId : NodePublicKey} {committee : Committee}
  {es : List NodeEvent} {nd nd' : Node} {e : NodeEvent}

/-- The step admits a vertex into a slot that holds a different one. -/
def Overwrites (nd : Node) (e : NodeEvent) : Prop :=
  e = .scan ∧ nd.phase = .scan ∧ ∃ v buffer, nd.buffer = v :: buffer ∧
    nd.consensus.isAdmissible v = true ∧
    ∃ u ∈ nd.dag.vertices, u.round = v.round ∧ u.owner = v.owner ∧ u ≠ v

/-- **What a step does to the DAG**: nothing, or it inserts an admissible vertex. -/
lemma dag_cases (h : nd.step P e = some nd') :
    nd'.dag = nd.dag ∨ ∃ v buffer, e = .scan ∧ nd.phase = .scan ∧ nd.buffer = v :: buffer ∧
      nd.consensus.isAdmissible v = true ∧ nd'.dag = nd.dag.insertVertex P v := by
  rcases step_cases h with ⟨vs, bs, -, -, rfl⟩ | ⟨v, buffer, he, hphase, hbuf, rfl⟩ |
    ⟨fuel, c, -, -, hc, rfl⟩
  · exact Or.inl rfl
  · rcases Consensus.scanVertex_cases P nd.consensus v with ⟨hadm, ha⟩ | ⟨-, ha⟩
    · exact Or.inr ⟨v, buffer, he, hphase, hbuf, hadm, by simp [dag, ha]⟩
    · exact Or.inl (by simp [dag, ha])
  · exact Or.inl (Consensus.advance_frame hc).2.2

/-- A step that overwrites nothing keeps what is stored. -/
lemma grows_step (hslot : nd.dag.WellSlotted) (hno : ¬ Overwrites nd e)
    (h : nd.step P e = some nd') {u : Vertex} (hu : u ∈ nd.dag.vertices) :
    u ∈ nd'.dag.vertices := by
  rcases dag_cases h with hdag | ⟨v, buffer, he, hphase, hbuf, hadm, hdag⟩
  · exact hdag ▸ hu
  · rw [hdag, Dag.mem_insertVertex hslot]
    by_cases huv : u = v
    · exact Or.inl huv
    · refine Or.inr ⟨hu, fun hs => hno ?_⟩
      exact ⟨he, hphase, v, buffer, hbuf, hadm, u, hu, hs.1, hs.2, huv⟩

/-- A DAG that only grew still contains what it contained. -/
lemma containsVertices_of_subset {g g' : Dag} (hg : g.WellSlotted) (hg' : g'.WellSlotted)
    (hsub : ∀ v ∈ g.vertices, v ∈ g'.vertices) {ps : Parents}
    (h : g.containsVertices ps = true) : g'.containsVertices ps = true := by
  refine hg'.containsVertices_iff.mpr fun e he => ?_
  obtain ⟨v, hv, hvh, hvr⟩ := hg.containsVertices_iff.mp h e he
  exact ⟨v, hsub v hv, hvh, hvr⟩

/-- A step that overwrites nothing keeps the DAG closed. -/
lemma closed_step (hslot : nd.dag.WellSlotted) (hslot' : nd'.dag.WellSlotted)
    (hno : ¬ Overwrites nd e) (h : nd.step P e = some nd') (hc : nd.dag.Closed) :
    nd'.dag.Closed := by
  have hsub : ∀ u ∈ nd.dag.vertices, u ∈ nd'.dag.vertices := fun u hu =>
    grows_step hslot hno h hu
  intro u hu
  refine containsVertices_of_subset hslot hslot' hsub ?_
  rcases dag_cases h with hdag | ⟨v, buffer, -, -, -, hadm, hdag⟩
  · exact hc u (hdag ▸ hu)
  · rw [hdag, Dag.mem_insertVertex hslot] at hu
    rcases hu with rfl | ⟨hu, -⟩
    · simp only [Consensus.isAdmissible, Bool.and_eq_true] at hadm
      exact hadm.2
    · exact hc u hu

/-- **Without overwriting the DAG only grows.** -/
theorem grows (hno : Run.Along (step P) (fun nd e => ¬ Overwrites nd e)
      (init P nodeId committee) es)
    (h : Run.VisitsThen (step P) (init P nodeId committee) es nd nd') {u : Vertex}
    (hu : u ∈ nd.dag.vertices) : u ∈ nd'.dag.vertices := by
  obtain ⟨p, q, hpq, hp, hq⟩ := h
  refine Run.prefix_induction (J := fun _ nd' => u ∈ nd'.dag.vertices) hu ?_ hq
  intro q' s e s' hpre hq' hI hstep
  have hs : run P nodeId committee (p ++ q') = some s :=
    Run.exec_append_eq_some.mpr ⟨nd, hp, hq'⟩
  have hpre' : p ++ q' ++ [e] <+: es := by
    rw [List.append_assoc]
    exact ((List.prefix_append_right_inj p).mpr hpre).trans hpq
  exact grows_step (basic hs).wellSlotted ((hno.mono hpre').last hs) hstep hI

/-- **Without overwriting the DAG stays causally closed.** -/
theorem closed (hno : Run.Along (step P) (fun nd e => ¬ Overwrites nd e)
      (init P nodeId committee) es)
    (h : Run.Visits (step P) (init P nodeId committee) es nd) : nd.dag.Closed := by
  obtain ⟨p, hp, h⟩ := h
  have hinit : (init P nodeId committee).dag.Closed := by
    intro v hv
    refine basic_init.wellSlotted.containsVertices_iff.mpr fun e he => ?_
    rw [(Vertex.of_mem_genesis (Dag.mem_root_of_mem_new hv)).2.2] at he
    simp at he
  refine (hno.mono hp).induction (J := fun _ nd => nd.dag.Closed) hinit ?_ h
  intro q s e s' hs hI hkeeps hstep
  have hs' : run P nodeId committee (q ++ [e]) = some s' :=
    Run.exec_concat_eq_some.mpr ⟨s, hs, hstep⟩
  exact closed_step (basic hs).wellSlotted (basic hs').wellSlotted hkeeps hstep hI

/-- A step that overwrites loses a vertex. -/
lemma lost_of_overwrites (hslot : nd.dag.WellSlotted) (h : Overwrites nd e) :
    ∃ nd', nd.step P e = some nd' ∧ ∃ u ∈ nd.dag.vertices, u ∉ nd'.dag.vertices := by
  obtain ⟨rfl, hphase, v, buffer, hbuf, hadm, u, hu, hr, ho, hne⟩ := h
  refine ⟨⟨nd.consensus.scanVertex P v, buffer, .scan⟩, by simp [step, hphase, hbuf], u, hu, ?_⟩
  rcases Consensus.scanVertex_cases P nd.consensus v with ⟨-, ha⟩ | ⟨hnot, -⟩
  · simp only [dag, ha]
    rw [Dag.mem_insertVertex hslot]
    rintro (huv | ⟨-, hslots⟩)
    · exact hne huv
    · exact hslots ⟨hr, ho⟩
  · rw [hnot] at hadm
    exact absurd hadm (by decide)

/-- **Exactly when the DAG only grows and stays causally closed.** Over a run, whatever is
received: every vertex stored at some point is stored at every later one, and the parents of
every stored vertex are stored, if and only if no admission replaces a stored vertex by a
different one of the same round and owner.

**Proof sketch.** Without overwriting, `grows` and `closed`. Conversely the first step that
overwrites loses the vertex it replaces (`lost_of_overwrites`). -/
theorem grows_and_closed_iff :
    ((∀ s t, Run.VisitsThen (step P) (init P nodeId committee) es s t →
        ∀ v ∈ s.dag.vertices, v ∈ t.dag.vertices) ∧
      ∀ s, Run.Visits (step P) (init P nodeId committee) es s →
        ∀ v ∈ s.dag.vertices, s.dag.containsVertices v.parents = true) ↔
    Run.Along (step P) (fun nd e => ¬ Overwrites nd e) (init P nodeId committee) es := by
  constructor
  · rintro ⟨hgrow, -⟩
    refine Run.along_iff.mpr fun p e s hp hs hover => ?_
    obtain ⟨s', hs', u, hu, hnot⟩ := lost_of_overwrites (P := P) (basic hs).wellSlotted hover
    refine hnot (hgrow s s' ⟨p, [e], hp, hs, ?_⟩ u hu)
    exact Run.exec_cons_eq_some.mpr ⟨s', hs', rfl⟩
  · intro hno
    exact ⟨fun s t hst v hv => grows hno hst hv, fun s hs => closed hno hs⟩

/-- A vertex of round `2` with another block than `Sample.vertex 2 [1] 1` has. -/
def twin : Vertex :=
  Vertex.new Sample.platform 1 2 ⟨[[]], 0⟩ (Sample.vertex 2 [1] 1).parents

/-- A node comes to round `3` with a vertex of round `2` stored, and then receives a child of
it and its twin. -/
def equivocation : List NodeEvent :=
  Sample.upTo 3 ++ Sample.pass [Sample.vertex 3 [1] 1, twin]

/-- The twin replaces the first vertex of round `2`, and the child stays without its parent:
neither growth nor closure holds. -/
theorem equivocation_breaks_closure :
    (∃ s t, Run.VisitsThen (step Sample.platform) (init Sample.platform 1 Sample.single)
        equivocation s t ∧ ∃ v ∈ s.dag.vertices, v ∉ t.dag.vertices) ∧
      ∃ t, Run.Visits (step Sample.platform) (init Sample.platform 1 Sample.single)
        equivocation t ∧ ∃ v ∈ t.dag.vertices, t.dag.containsVertices v.parents = false := by
  obtain ⟨s, hs, hvs⟩ : ∃ s, run Sample.platform 1 Sample.single (Sample.upTo 3) = some s ∧
      decide (Sample.vertex 2 [1] 1 ∈ s.dag.vertices) = true :=
    Run.exists_exec_of_any (by decide +kernel)
  obtain ⟨t, ht, hvt⟩ : ∃ t, run Sample.platform 1 Sample.single equivocation = some t ∧
      decide (Sample.vertex 2 [1] 1 ∉ t.dag.vertices ∧
        ∃ v ∈ t.dag.vertices, t.dag.containsVertices v.parents = false) = true :=
    Run.exists_exec_of_any (by decide +kernel)
  obtain ⟨s', hs', hst⟩ := Run.exec_append_eq_some.mp ht
  have heq : s' = s := Option.some.inj (hs'.symm.trans hs)
  obtain ⟨hlost, hchild⟩ := of_decide_eq_true hvt
  refine ⟨⟨s, t, ⟨_, _, List.prefix_rfl, hs, heq ▸ hst⟩, ?_⟩, t, Run.Visits.last ht, hchild⟩
  exact ⟨_, of_decide_eq_true hvs, hlost⟩

end Node

end DagRider
