import DagRider.Model.Node
import Mathlib.Data.List.Chain

set_option relaxedAutoImplicit false
set_option autoImplicit false

/-!
# What the search of the DAG decides

`Dag::isLinkedInternal` follows the parent entries of a vertex, looks each up by hash and
recorded round, and stops at an entry with the hash of `oldest`. Whenever it ends it decides
whether such an entry can be reached, on every graph; on a graph without cycles it ends. The
selector of edges that `isStronglyLinked` passes is not used, so the answer is right for
strong paths only where weak edges make no difference.

## Main definitions

* `DagRider.Dag.Linked` — what the search decides.
* `DagRider.Dag.StrongPath` — a path of strong parent edges.
* `DagRider.Dag.Acyclic` — no stored vertex is its own ancestor.
* `DagRider.Dag.RunsIntoCycle` — a search runs into a cycle.

## Main results

* `DagRider.Dag.isLinked_iff_chain` — soundness and completeness on every graph.
* `DagRider.Dag.WellSlotted.isLinked_computes` — the search ends if it runs into no cycle, and, by
  `DagRider.Dag.not_runsIntoCycle`, only then.
* `DagRider.Dag.Acyclic.isLinked_computes` — the search ends where there is no cycle.
* `DagRider.Dag.isStronglyLinked_iff` — when the strong search is about strong paths.
-/

namespace DagRider

namespace Dag

open Relation

variable {g : Dag} {newest oldest a b : Vertex} {fuel : ℕ} {answer : Bool}

/-! ## Chains of lookups -/

/-- One step of the search for `oldest`: to the vertex that is looked up for a parent entry
above the round of `oldest`. -/
def SearchStep (g : Dag) (oldest a b : Vertex) : Prop :=
  ∃ e ∈ a.parents.entries, e.2 > oldest.round ∧ g.getVertex e.1 e.2 = some b

/-- `newest` is of a later round than `oldest`, and steps of the search lead from it to a vertex
with the hash of `oldest` among its parents. -/
def Linked (g : Dag) (newest oldest : Vertex) : Prop :=
  newest.round > oldest.round ∧
    ∃ v, ReflTransGen (g.SearchStep oldest) newest v ∧ ∃ e ∈ v.parents.entries, e.1 = oldest.hash

/-- A vertex without parents is linked to nothing. -/
lemma Linked.has_parents (h : g.Linked newest oldest) : newest.parents.entries ≠ [] := by
  obtain ⟨-, v, hpath, e, he, -⟩ := h
  rcases hpath.cases_head with rfl | ⟨u, ⟨e', he', -⟩, -⟩
  · exact List.ne_nil_of_mem he
  · exact List.ne_nil_of_mem he'

/-- The search pushes the vertices one step away. -/
lemma mem_pushed : b ∈ g.pushed oldest a ↔ g.SearchStep oldest a b := by
  unfold pushed SearchStep
  rw [List.mem_filterMap]
  refine exists_congr fun e => and_congr_right fun _ => ?_
  constructor
  · intro h
    split_ifs at h with hr
    exact ⟨hr, h⟩
  · intro h
    rw [if_pos h.1]
    exact h.2

/-- What the stack search looks for. -/
lemma finds_iff_exists : StackSearch.Finds (isGoal oldest) (g.pushed oldest) newest ↔
    ∃ v, ReflTransGen (g.SearchStep oldest) newest v ∧
      ∃ e ∈ v.parents.entries, e.1 = oldest.hash := by
  have hstep : (fun x y => y ∈ g.pushed oldest x) = g.SearchStep oldest := by
    funext x y
    exact propext mem_pushed
  unfold StackSearch.Finds
  rw [hstep]
  refine exists_congr fun v => and_congr_right fun _ => ?_
  unfold isGoal
  simp only [List.any_eq_true, decide_eq_true_eq]

/-- **Whenever the search ends, it decides `Linked`.** -/
theorem answer_iff_linked (h : g.isLinked fuel newest oldest = some answer) :
    answer = true ↔ g.Linked newest oldest := by
  unfold isLinked isLinkedInternal at h
  unfold Linked
  split_ifs at h with hr
  · rw [searchLoop_eq] at h
    have hfinds := StackSearch.search_eq_some_iff h
    simp only [List.mem_singleton, exists_eq_left] at hfinds
    rw [hfinds, finds_iff_exists]
    exact (and_iff_right hr).symm
  · rw [← Option.some.inj h]
    exact iff_of_false Bool.false_ne_true fun hlinked => hr hlinked.1

/-- **Soundness and completeness of the search**, on every graph. Whenever it ends, it answers
`true` if and only if `newest` is of a later round than `oldest` and there is a chain
`v₀ = newest, v₁, …, vₖ` in which each vertex is looked up for a parent entry of the one before it
with a round above that of `oldest`, and `vₖ` has a parent entry with the hash of `oldest`.

**Proof sketch.** The loop is the stack search (`searchLoop_eq`), for which an invariant over the
stack gives the answer; its paths are the chains. -/
theorem isLinked_iff_chain (h : g.isLinked fuel newest oldest = some answer) :
    answer = true ↔ newest.round > oldest.round ∧ ∃ vs : List Vertex,
      (newest :: vs).IsChain (fun v w => ∃ e ∈ v.parents.entries,
        e.2 > oldest.round ∧ g.getVertex e.1 e.2 = some w) ∧
      ∃ e ∈ ((newest :: vs).getLast (List.cons_ne_nil newest vs)).parents.entries,
        e.1 = oldest.hash := by
  rw [answer_iff_linked h]
  unfold Linked
  refine and_congr_right fun _ => ?_
  constructor
  · intro hlinked
    obtain ⟨v, hpath, hlast⟩ := hlinked
    obtain ⟨vs, hchain, hv⟩ := List.exists_isChain_cons_of_relationReflTransGen hpath
    exact ⟨vs, hchain, hv ▸ hlast⟩
  · intro hchain
    obtain ⟨vs, hchain, hlast⟩ := hchain
    exact ⟨_, List.relationReflTransGen_of_exists_isChain_cons vs hchain rfl, hlast⟩

/-- A vertex of round `4` whose one parent is three rounds below. -/
def weakChild : Vertex :=
  Vertex.new Sample.platform 1 4 Block.default (OrderedMap.ofList [(Sample.hash 1 1 0, 1)])

/-- A DAG of that vertex and its parent. -/
def weakDag : Dag :=
  ((new Sample.platform [] 1).insertVertex Sample.platform (Sample.vertex 1 [] 1)).insertVertex
    Sample.platform weakChild

/-- The search from the one to the other ends with `true`, so there is a chain. -/
theorem isLinked_iff_chain_weak :
    weakChild.round > (Sample.vertex 1 [] 1).round ∧ ∃ vs : List Vertex,
      (weakChild :: vs).IsChain (fun v w => ∃ e ∈ v.parents.entries,
        e.2 > (Sample.vertex 1 [] 1).round ∧ weakDag.getVertex e.1 e.2 = some w) ∧
      ∃ e ∈ ((weakChild :: vs).getLast (List.cons_ne_nil weakChild vs)).parents.entries,
        e.1 = (Sample.vertex 1 [] 1).hash := by
  have hsearch : weakDag.isLinked 2 weakChild (Sample.vertex 1 [] 1) = some true := by
    decide +kernel
  exact (isLinked_iff_chain hsearch).mp rfl

/-! ## Cycles -/

/-- No stored vertex is its own ancestor. -/
def Acyclic (g : Dag) : Prop := ∀ v ∈ g.vertices, ¬ g.Ancestor v v

/-- A step of the search follows a parent edge to a stored vertex. -/
lemma WellSlotted.edge_of_searchStep (hg : g.WellSlotted) (h : g.SearchStep oldest a b) :
    b ∈ g.vertices ∧ (b.hash, b.round) ∈ a.parents.entries := by
  obtain ⟨e, he, -, hb⟩ := h
  obtain ⟨hmem, hhash, hround⟩ := hg.of_getVertex hb
  have hentry : (b.hash, b.round) = e := Prod.ext hhash hround
  exact ⟨hmem, hentry ▸ he⟩

/-- The search follows parent edges to stored vertices. -/
lemma WellSlotted.edge_of_enters (hg : g.WellSlotted)
    (h : StackSearch.Enters (isGoal oldest) (g.pushed oldest) a b) :
    b ∈ g.vertices ∧ (b.hash, b.round) ∈ a.parents.entries :=
  hg.edge_of_searchStep (mem_pushed.mp h.mem_succ)

/-- The search for `oldest` from `newest` runs into a cycle: it comes to a vertex from which it goes
on until it is back there, without finding `oldest`. -/
def RunsIntoCycle (g : Dag) (newest oldest : Vertex) : Prop :=
  newest.round > oldest.round ∧
    ∃ v, ReflTransGen (StackSearch.Enters (isGoal oldest) (g.pushed oldest)) newest v ∧
      TransGen (StackSearch.Enters (isGoal oldest) (g.pushed oldest)) v v

/-- A search that ends runs into no cycle. -/
lemma not_runsIntoCycle (h : g.isLinked fuel newest oldest = some answer) :
    ¬ g.RunsIntoCycle newest oldest := by
  rintro ⟨hr, v, hpath, hcycle⟩
  unfold isLinked isLinkedInternal at h
  rw [if_pos hr, searchLoop_eq] at h
  obtain ⟨n, rest, hn⟩ := StackSearch.exists_search_of_reflTransGen hpath h
  exact StackSearch.search_ne_some_of_cycle hcycle rest answer hn

/-- **A search that runs into no cycle ends**, from every vertex, stored or not. -/
theorem WellSlotted.isLinked_computes (hg : g.WellSlotted)
    (h : ¬ g.RunsIntoCycle newest oldest) (hanswer : answer = true ↔ g.Linked newest oldest) :
    Fuel.Computes (fun fuel => g.isLinked fuel newest oldest) answer := by
  unfold isLinked isLinkedInternal
  by_cases hr : newest.round > oldest.round
  · simp only [if_pos hr, searchLoop_eq]
    refine ((StackSearch.ends_iff (insert newest g.vertices.toFinset) ?_
      (Finset.mem_insert_self _ _)).mpr ?_).computes ?_
    · intro x _ y hy
      have hstored := (hg.edge_of_searchStep (mem_pushed.mp hy)).1
      exact Finset.mem_insert_of_mem (List.mem_toFinset.mpr hstored)
    · exact fun v hpath hcycle => h ⟨hr, v, hpath, hcycle⟩
    · rw [hanswer, finds_iff_exists]
      exact and_iff_right hr
  · have hfalse : answer = false :=
      Bool.eq_false_iff.mpr fun htrue => hr (hanswer.mp htrue).1
    simp only [if_neg hr, hfalse]
    exact Fuel.Computes.pure false

/-- Where there is no cycle no search runs into one. -/
lemma Acyclic.not_runsIntoCycle (hacyclic : g.Acyclic) (hg : g.WellSlotted) :
    ¬ g.RunsIntoCycle newest oldest := by
  rintro ⟨-, v, -, hcycle⟩
  obtain ⟨u, -, huv⟩ := TransGen.tail'_iff.mp hcycle
  refine hacyclic v (hg.edge_of_enters huv).1 ?_
  exact TransGen.mono (fun _ _ h => hg.edge_of_enters h) v v hcycle

/-- **Where there is no cycle the search ends**, from every vertex, stored or not. -/
theorem Acyclic.isLinked_computes (hacyclic : g.Acyclic) (hg : g.WellSlotted)
    (newest oldest : Vertex) : ∃ answer,
      Fuel.Computes (fun fuel => g.isLinked fuel newest oldest) answer ∧
        (answer = true ↔ g.Linked newest oldest) := by
  classical
  exact ⟨decide (g.Linked newest oldest),
    hg.isLinked_computes (hacyclic.not_runsIntoCycle hg) decide_eq_true_iff, decide_eq_true_iff⟩

/-- Parents in lower rounds make no cycles. -/
lemma acyclic_of_lower (hlower : ∀ v ∈ g.vertices, ∀ e ∈ v.parents.entries, e.2 < v.round) :
    g.Acyclic := by
  intro v hv hanc
  have key : ∀ u, g.Ancestor v u → u ∈ g.vertices ∧ u.round < v.round := by
    intro u h
    induction h with
    | single h => exact ⟨h.1, hlower v hv _ h.2⟩
    | @tail b c _ h ih => exact ⟨h.1, (hlower b ih.1 _ h.2).trans ih.2⟩
  exact lt_irrefl _ (key v hanc).2

/-! ## Strong paths -/

/-- A path of strong parent edges leads from `newest` to `oldest`, through stored vertices. -/
def StrongPath (g : Dag) (newest oldest : Vertex) : Prop :=
  TransGen (fun a b => b ∈ g.vertices ∧ (b.hash, b.round) ∈ a.getStrongParents.entries)
    newest oldest

/-- A stored parent above the round of `oldest` is one step of the search away, where a hash names
one stored vertex. -/
lemma WellSlotted.searchStep_of_edge (hg : g.WellSlotted)
    (hdistinct : ∀ u ∈ g.vertices, ∀ v ∈ g.vertices, u.hash = v.hash → u = v)
    (hb : b ∈ g.vertices) (he : (b.hash, b.round) ∈ a.parents.entries)
    (hr : b.round > oldest.round) : g.SearchStep oldest a b := by
  obtain ⟨w, hw⟩ := hg.exists_getVertex hb
  obtain ⟨hwmem, hwhash, -⟩ := hg.of_getVertex hw
  have heq : w = b := hdistinct w hwmem b hb hwhash
  exact ⟨(b.hash, b.round), he, hr, heq ▸ hw⟩

/-- A path of parent edges is found by the search, where parents are in lower rounds.

**Proof sketch.** Induction on the path from its far end: what lies before an edge into `oldest`
is above the round of `oldest`. -/
lemma WellSlotted.linked_of_path (hg : g.WellSlotted)
    (hdistinct : ∀ u ∈ g.vertices, ∀ v ∈ g.vertices, u.hash = v.hash → u = v)
    (hlower : ∀ v ∈ g.vertices, ∀ e ∈ v.parents.entries, e.2 < v.round)
    (hnewest : ∀ e ∈ newest.parents.entries, e.2 < newest.round)
    (h : g.Ancestor newest oldest) : g.Linked newest oldest := by
  unfold Ancestor at h
  induction h using TransGen.head_induction_on with
  | single h => exact ⟨hnewest _ h.2, _, ReflTransGen.refl, _, h.2, rfl⟩
  | @head a b hab _ ih =>
    obtain ⟨hr, v, hpath, hlast⟩ := ih (hlower b hab.1)
    have hstep : g.SearchStep oldest a b := hg.searchStep_of_edge hdistinct hab.1 hab.2 hr
    exact ⟨hr.trans (hnewest _ hab.2), v, ReflTransGen.head hstep hpath, hlast⟩

/-- **Exactly when the strong search is about strong paths.** In a DAG whose stored vertices have
distinct hashes and whose recorded parent rounds are lower, the search for a strong path ends, and
answers whether there is one, if and only if `newest` and `oldest` are not linked through weak
edges only: when any parent entries lead from `newest` to `oldest`, a path of strong ones
does. -/
theorem isStronglyLinked_iff (hg : g.WellSlotted)
    (hdistinct : ∀ u ∈ g.vertices, ∀ v ∈ g.vertices, u.hash = v.hash → u = v)
    (hlower : ∀ v ∈ g.vertices, ∀ e ∈ v.parents.entries, e.2 < v.round)
    (hnewest : ∀ e ∈ newest.parents.entries, e.2 < newest.round) :
    (∃ answer, Fuel.Computes (fun fuel => g.isStronglyLinked fuel newest oldest) answer ∧
        (answer = true ↔ g.StrongPath newest oldest)) ↔
      (g.Linked newest oldest → g.StrongPath newest oldest) := by
  obtain ⟨answer, hcomputes, hanswer⟩ :=
    (acyclic_of_lower hlower).isLinked_computes hg newest oldest
  have hpath : g.StrongPath newest oldest → g.Linked newest oldest := by
    intro h
    apply hg.linked_of_path hdistinct hlower hnewest
    exact TransGen.mono (fun a b hab => ⟨hab.1, (Vertex.mem_getStrongParents.mp hab.2).1⟩) _ _ h
  constructor
  · intro h hlinked
    obtain ⟨answer', hcomputes', hanswer'⟩ := h
    -- the strong search is the search
    obtain ⟨n, hn⟩ := hcomputes'.returns
    have hsame : answer' = answer := hcomputes.unique n answer' (hn n le_rfl)
    exact hanswer'.mp (hsame ▸ hanswer.mpr hlinked)
  · intro h
    exact ⟨answer, hcomputes, hanswer.trans ⟨h, hpath⟩⟩

/-- Every vertex of the sample DAG is in its slot. -/
lemma wellSlotted_weakDag : weakDag.WellSlotted :=
  (wellSlotted_new fun _ hv => absurd hv List.not_mem_nil).insertVertex.insertVertex

/-- From a vertex whose parent is in the round below, the strong search is right. -/
theorem isStronglyLinked_iff_strong :
    ∃ answer, Fuel.Computes (fun fuel =>
        weakDag.isStronglyLinked fuel (Sample.vertex 2 [1] 1) (Sample.vertex 1 [] 1)) answer ∧
      (answer = true ↔ weakDag.StrongPath (Sample.vertex 2 [1] 1) (Sample.vertex 1 [] 1)) := by
  have hstored : Sample.vertex 1 [] 1 ∈ weakDag.vertices := by decide +kernel
  have hstrong : ∃ e ∈ (Sample.vertex 2 [1] 1).getStrongParents.entries,
      e.1 = (Sample.vertex 1 [] 1).hash ∧ e.2 = (Sample.vertex 1 [] 1).round := by decide +kernel
  obtain ⟨e, he, hhash, hround⟩ := hstrong
  have hentry : ((Sample.vertex 1 [] 1).hash, (Sample.vertex 1 [] 1).round) = e :=
    Prod.ext hhash.symm hround.symm
  exact (isStronglyLinked_iff wellSlotted_weakDag (by decide +kernel) (by decide +kernel)
    (by decide +kernel)).mpr fun _ => TransGen.single ⟨hstored, hentry ▸ he⟩

/-- The parent is three rounds below the child, so its one edge is weak: the strong search answers
`true`, and there is no strong path. -/
theorem weak_edge_followed :
    weakDag.WellSlotted ∧
      (∀ u ∈ weakDag.vertices, ∀ v ∈ weakDag.vertices, u.hash = v.hash → u = v) ∧
      (∀ v ∈ weakDag.vertices, ∀ e ∈ v.parents.entries, e.2 < v.round) ∧
      weakChild ∈ weakDag.vertices ∧ Sample.vertex 1 [] 1 ∈ weakDag.vertices ∧
      weakDag.isStronglyLinked 2 weakChild (Sample.vertex 1 [] 1) = some true ∧
      ¬ weakDag.StrongPath weakChild (Sample.vertex 1 [] 1) := by
  refine ⟨wellSlotted_weakDag, by decide +kernel, by decide +kernel, by decide +kernel,
    by decide +kernel, by decide +kernel, fun hpath => ?_⟩
  obtain ⟨w, hw, -⟩ := TransGen.head'_iff.mp hpath
  have hnone : weakChild.getStrongParents.entries = [] := by decide +kernel
  rw [hnone] at hw
  exact List.not_mem_nil hw.2

end Dag

end DagRider
