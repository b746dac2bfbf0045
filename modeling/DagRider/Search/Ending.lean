import DagRider.Node.Growth
import DagRider.Search.Reachability

set_option relaxedAutoImplicit false
set_option autoImplicit false

/-!
# When the search of a node ends

The search keeps no visited set, so it hangs on a cycle. Admission asks only that the parents are
stored, and an insertion may overwrite a vertex that has the same hash, so what is received can
tie a vertex to itself. As long as no admission makes a vertex its own ancestor, the DAG has no
cycles and every search ends.

## Main definitions

* `DagRider.Node.ClosesCycle` — the step admits a vertex that becomes its own ancestor.

## Main results

* `DagRider.Dag.Acyclic.insertVertex` — what an insertion keeps.
* `DagRider.Node.searches_end` — every search ends, in every run without such a step.
-/

namespace DagRider

open Relation

/-! ## Insertions and cycles -/

namespace Dag

variable {P : Platform} {g : Dag} {v : Vertex}

/-- **An insertion makes no cycle, unless the vertex becomes its own ancestor.**

**Proof sketch.** The insertion adds edges into the new vertex and out of it. A cycle that avoids it
was there before; a cycle through it ties it to itself. -/
lemma Acyclic.insertVertex (hacyclic : g.Acyclic) (hg : g.WellSlotted)
    (hv : ¬ (g.insertVertex P v).Ancestor v v) : (g.insertVertex P v).Acyclic := by
  intro u hu hcycle
  have hstep : ∀ a b : Vertex,
      b ∈ (g.insertVertex P v).vertices ∧ (b.hash, b.round) ∈ a.parents.entries →
      b = v ∨ (b ∈ g.vertices ∧ (b.hash, b.round) ∈ a.parents.entries) := fun a b hab =>
    ((mem_insertVertex hg).mp hab.1).imp_right fun hb => ⟨hb.1, hab.2⟩
  rcases StackSearch.transGen_or_through hstep hcycle with hold | ⟨huv, hvu⟩
  · rcases (mem_insertVertex hg).mp hu with rfl | ⟨hmem, -⟩
    · exact hv hcycle
    · exact hacyclic u hmem hold
  · exact hv (TransGen.trans_right hvu huv)

/-- A vertex that the search for `oldest` pushes for itself is popped for ever. -/
lemma searchLoop_eq_none {oldest : Vertex}
    (h : g.scanParents oldest v.getAllParents.entries [] = some [v]) (fuel : ℕ) :
    g.searchLoop oldest fuel [v] = none := by
  induction fuel with
  | zero => rfl
  | succ fuel ih =>
    unfold searchLoop
    rw [h]
    exact ih

end Dag

/-! ## Runs -/

namespace Node

variable {P : Platform} {nodeId : NodePublicKey} {committee : Committee}
  {es : List NodeEvent} {nd nd' : Node} {e : NodeEvent}

/-- The step admits a vertex that becomes its own ancestor. -/
def ClosesCycle (P : Platform) (nd : Node) (e : NodeEvent) : Prop :=
  e = .scan ∧ nd.phase = .scan ∧ ∃ v buffer, nd.buffer = v :: buffer ∧
    nd.consensus.isAdmissible v = true ∧ (nd.dag.insertVertex P v).Ancestor v v

/-- At the start there are no edges. -/
lemma acyclic_init : (init P nodeId committee).dag.Acyclic := by
  apply Dag.acyclic_of_lower
  intro v hv e he
  rw [(Vertex.of_mem_genesis (Dag.mem_root_of_mem_new hv)).2.2] at he
  exact absurd he List.not_mem_nil

/-- A step that closes no cycle keeps the DAG acyclic. -/
lemma acyclic_step (hacyclic : nd.dag.Acyclic) (hslot : nd.dag.WellSlotted)
    (hno : ¬ ClosesCycle P nd e) (h : nd.step P e = some nd') : nd'.dag.Acyclic := by
  rcases dag_cases h with hdag | ⟨v, buffer, he, hphase, hbuf, hadm, hdag⟩
  · rw [hdag]
    exact hacyclic
  · rw [hdag]
    exact hacyclic.insertVertex hslot fun hv => hno ⟨he, hphase, v, buffer, hbuf, hadm, hv⟩

/-- **The DAG has no cycles** in a run that closes none. -/
theorem acyclic (h : run P nodeId committee es = some nd)
    (hno : Run.Along (step P) (fun nd e => ¬ ClosesCycle P nd e) (init P nodeId committee) es) :
    nd.dag.Acyclic := by
  refine hno.induction (J := fun _ nd => nd.dag.Acyclic) acyclic_init ?_ h
  intro p nd e nd' hnd hacyclic hcloses hstep
  exact acyclic_step hacyclic (basic hnd).wellSlotted hcloses hstep

/-- **Every search ends, where no cycle is closed.** In every run of a node, whatever vertices it
receives, in which no admission makes a vertex its own ancestor, the search between any two stored
vertices ends with an answer, in every state reached and for every selector of edges.

**Proof sketch.** The DAG stays acyclic (`acyclic`), and on a finite graph without cycles the number
of vertices that can be reached falls with every push. -/
theorem searches_end (h : run P nodeId committee es = some nd)
    (hno : Run.Along (step P) (fun nd e => ¬ ClosesCycle P nd e) (init P nodeId committee) es) :
    ∀ newest ∈ nd.dag.vertices, ∀ oldest ∈ nd.dag.vertices, ∀ getParents : Vertex → Parents,
      ∃ answer, Fuel.Computes
        (fun fuel => nd.dag.isLinkedInternal fuel newest oldest getParents) answer := by
  intro newest _ oldest _ getParents
  obtain ⟨answer, hcomputes, -⟩ :=
    (acyclic h hno).isLinked_computes (basic h).wellSlotted newest oldest
  exact ⟨answer, hcomputes⟩

/-- Where all parents are in lower rounds, no cycle is closed. -/
lemma not_closesCycle_of_lower (hslot : nd.dag.WellSlotted)
    (h : ∀ v ∈ nd.buffer.head?, ∀ u ∈ (nd.dag.insertVertex P v).vertices,
      ∀ e ∈ u.parents.entries, e.2 < u.round) : ¬ ClosesCycle P nd e := by
  rintro ⟨-, -, v, buffer, hbuf, -, hcycle⟩
  have hhead : v ∈ nd.buffer.head? := by
    rw [hbuf]
    exact rfl
  exact Dag.acyclic_of_lower (h v hhead) v ((Dag.mem_insertVertex hslot).mpr (Or.inl rfl)) hcycle

/-- The node of a committee of one that receives its own vertices. -/
theorem searches_end_single :
    ∃ nd, run Sample.platform 1 Sample.single (Sample.upTo 6) = some nd ∧
      nd.currentRound = 6 ∧
      ∀ newest ∈ nd.dag.vertices, ∀ oldest ∈ nd.dag.vertices, ∀ getParents : Vertex → Parents,
        ∃ answer, Fuel.Computes
          (fun fuel => nd.dag.isLinkedInternal fuel newest oldest getParents) answer := by
  have hlower : Run.Throughout (step Sample.platform) (fun s =>
      ∀ v ∈ s.buffer.head?, ∀ u ∈ (s.dag.insertVertex Sample.platform v).vertices,
        ∀ e ∈ u.parents.entries, e.2 < u.round)
      (init Sample.platform 1 Sample.single) (Sample.upTo 6) := by decide +kernel
  obtain ⟨nd, hnd, hround⟩ : ∃ nd, run Sample.platform 1 Sample.single (Sample.upTo 6) = some nd ∧
      decide (nd.currentRound = 6) = true := Run.exists_exec_of_any (by decide +kernel)
  refine ⟨nd, hnd, of_decide_eq_true hround, searches_end hnd ?_⟩
  exact hlower.along fun _ e s _ hs hlow => not_closesCycle_of_lower (basic hs).wellSlotted hlow

/-- A vertex of round `2` with the hash of `Sample.vertex 2 [] 1`, and this hash as its one
parent. -/
def ownParent : Vertex :=
  { Sample.vertex 2 [] 1 with parents := OrderedMap.ofList [(Sample.hash 2 1 0, 2)] }

/-- A node comes to round `2` and receives a vertex without parents and, with the same hash, one
that is its own parent. -/
def forgery : List NodeEvent :=
  Sample.pass [] ++ [.drain [Sample.vertex 2 [] 1, ownParent] [], .scan, .scan]

/-- Both are admitted, and the search from the second for the genesis vertex never ends. -/
theorem search_hangs :
    ∃ nd, run Sample.platform 1 Sample.single forgery = some nd ∧
      ∃ newest ∈ nd.dag.vertices, ∃ oldest ∈ nd.dag.vertices, ∀ fuel,
        nd.dag.isLinkedInternal fuel newest oldest Vertex.getAllParents = none := by
  obtain ⟨nd, hnd, hp⟩ : ∃ nd, run Sample.platform 1 Sample.single forgery = some nd ∧
      decide (ownParent ∈ nd.dag.vertices ∧ Sample.vertex 1 [] 1 ∈ nd.dag.vertices ∧
        nd.dag.scanParents (Sample.vertex 1 [] 1) ownParent.getAllParents.entries [] =
          some [ownParent]) = true := Run.exists_exec_of_any (by decide +kernel)
  obtain ⟨hnewest, holdest, hscan⟩ := of_decide_eq_true hp
  refine ⟨nd, hnd, ownParent, hnewest, Sample.vertex 1 [] 1, holdest, fun fuel => ?_⟩
  unfold Dag.isLinkedInternal
  rw [if_pos (by decide)]
  exact Dag.searchLoop_eq_none hscan fuel

end Node

end DagRider
