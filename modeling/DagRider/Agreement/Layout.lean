import DagRider.Agreement.Order
import DagRider.Search.Reachability

set_option relaxedAutoImplicit false
set_option autoImplicit false

/-!
# The order of a commit and the layout of the DAG

Inside a round `orderVertices` follows the iteration order of an `std::unordered_map`, which
depends on the insertions and not only on the contents. This file says exactly when two DAGs, say
with the same contents, give the same order.

## Main definitions

* `DagRider.Dag.SameContents` — the same vertices, whatever the layout.
* `DagRider.Dag.linkedTo` — the vertices linked to a leader, in iteration order.
* `DagRider.Dag.Asks` — for which vertices the loop asks for a search.

## Main results

* `DagRider.Dag.orderVertices_eq_iff` — when the layout makes no difference.
-/

namespace DagRider

namespace Dag

open Relation

variable {g g' : Dag} {l v : Vertex}

/-- The two DAGs hold the same vertices; each is in the slot of its round and owner. -/
def SameContents (g g' : Dag) : Prop := ∀ v, v ∈ g.vertices ↔ v ∈ g'.vertices

open Classical in
/-- The stored vertices linked to `l`, in iteration order; of several with one hash, the first. -/
noncomputable def linkedTo (g : Dag) (l : Vertex) : List Vertex :=
  Labels.distinct Vertex.hash (g.vertices.filter fun v => g.Linked v l)

/-- For the leader `l` the loop asks for the search from `v`: no vertex that comes before `v` in the
iteration order is linked to `l` and has the hash of `v`. -/
def Asks (g : Dag) (l v : Vertex) : Prop :=
  ∃ before after, g.vertices = before ++ v :: after ∧ ∀ u ∈ before, g.Linked u l → u.hash ≠ v.hash

/-- **What `orderVertices` lists**: leader by leader, the vertices linked to it, each hash once, if
no search that it asks for runs into a cycle. -/
lemma WellSlotted.orderVertices_computes (hg : g.WellSlotted)
    (hsearch : ∀ l v, g.Asks l v → ¬ g.RunsIntoCycle v l) (leaders : List Vertex) :
    Fuel.Computes (fun fuel => Consensus.orderVertices fuel g leaders)
      (Labels.distinct Vertex.hash (leaders.reverse.flatMap g.linkedTo)) := by
  classical
  have hlisted := Consensus.orderVertices_computes_distinct (R := g.Linked) hg leaders
    fun l _ before v after hsplit hnew =>
      hg.isLinked_computes (hsearch l v ⟨before, after, hsplit, hnew⟩) decide_eq_true_iff
  rw [Labels.distinct_flatMap] at hlisted
  exact hlisted

/-- The hashes that are delivered for one leader are those of vertices linked to it. -/
lemma exists_linked_of_delivered {vs : List Vertex} {o : Consensus.Ordered} {fuel : ℕ}
    (h : vs.foldlM (Consensus.orderVertex fuel g l) ⟨[], []⟩ = some o)
    (hdelivered : v.hash ∈ o.deliveredVertices) : ∃ u ∈ vs, g.Linked u l ∧ u.hash = v.hash := by
  have hpairs : (vs.map fun u => (l, u)).foldlM
      (fun o p => Consensus.orderVertex fuel g p.1 o p.2) ⟨[], []⟩ = some o := by
    rw [List.foldlM_map]
    exact h
  have hlists := Consensus.Ordered.Lists.of_foldlM hpairs
  obtain ⟨u, hu, hhash⟩ := List.mem_map.mp ((hlists.delivered v.hash).mp hdelivered)
  obtain ⟨l', hmem, hlinked⟩ := hlists.linked u hu
  obtain ⟨w, hw, heq⟩ := List.mem_map.mp hmem
  obtain ⟨rfl, rfl⟩ := Prod.mk.inj heq
  exact ⟨w, hw, (answer_iff_linked hlinked).mp rfl, hhash⟩

/-- Where `orderVertices` comes to its end for one leader, no search that it asks for runs into a
cycle. -/
lemma WellSlotted.not_runsIntoCycle_of_asks (hg : g.WellSlotted) {out : List Vertex}
    (h : Fuel.Computes (fun fuel => Consensus.orderVertices fuel g [l]) out) (hasks : g.Asks l v) :
    ¬ g.RunsIntoCycle v l := by
  obtain ⟨before, after, hsplit, hnew⟩ := hasks
  obtain ⟨fuel, hfuel⟩ := h.returns
  obtain ⟨o, ho, -⟩ := Option.bind_eq_some_iff.mp (hfuel fuel le_rfl)
  rw [List.reverse_singleton, List.foldlM_cons, Consensus.orderLeader_eq hg, hsplit,
    List.foldlM_append] at ho
  obtain ⟨o₂, ho₂, -⟩ := Option.bind_eq_some_iff.mp ho
  obtain ⟨o₁, ho₁, ho₂⟩ := Option.bind_eq_some_iff.mp ho₂
  rw [List.foldlM_cons] at ho₂
  obtain ⟨o', hturn, -⟩ := Option.bind_eq_some_iff.mp ho₂
  rcases Consensus.orderVertex_cases hturn with ⟨-, hmem | hfalse⟩ | ⟨-, htrue, -⟩
  · obtain ⟨u, hu, hlinked, hhash⟩ := exists_linked_of_delivered ho₁ hmem
    exact absurd hhash (hnew u hu hlinked)
  · exact not_runsIntoCycle hfalse
  · exact not_runsIntoCycle htrue

/-- The vertices linked to a leader go up the rounds. -/
lemma WellSlotted.pairwise_linkedTo (hg : g.WellSlotted) (l : Vertex) :
    (g.linkedTo l).Pairwise fun u v => u.round ≤ v.round :=
  hg.pairwise_round.sublist ((Labels.distinct_sublist _).trans List.filter_sublist)

/-- **Exactly when the layout makes no difference.** For two DAGs, above all two with the same
contents, `orderVertices` returns the same sequence for every list of leaders, if and only if

* no search that the loop asks for, from a stored vertex for any leader, runs into a cycle, in
  neither of the two (there is none to run into where no vertex is its own ancestor,
  `Acyclic.not_runsIntoCycle`), and
* for every leader and every round, the two iterations come to the vertices of the round that are
  linked to the leader in the same order (of several with one hash, the first counts).

**Proof sketch.** A call for one leader ends only if its searches do. Where they end, the vertices
linked to the leader are listed by ascending round, so the list is determined by its parts of one
round each (`Labels.eq_of_filter_eq`). For more leaders the list is put together from these, without
the hashes that come again (`Labels.distinct_flatMap`). -/
theorem orderVertices_eq_iff (hg : g.WellSlotted) (hg' : g'.WellSlotted) :
    (∀ leaders, ∃ out,
      Fuel.Computes (fun fuel => Consensus.orderVertices fuel g leaders) out ∧
        Fuel.Computes (fun fuel => Consensus.orderVertices fuel g' leaders) out) ↔
    (∀ l v, g.Asks l v → ¬ g.RunsIntoCycle v l) ∧
    (∀ l v, g'.Asks l v → ¬ g'.RunsIntoCycle v l) ∧
    ∀ l r, (g.linkedTo l).filter (fun v => v.round = r) =
      (g'.linkedTo l).filter fun v => v.round = r := by
  constructor
  · intro h
    have hsearch : ∀ l v, g.Asks l v → ¬ g.RunsIntoCycle v l := by
      intro l v hasks
      obtain ⟨out, hout, -⟩ := h [l]
      exact hg.not_runsIntoCycle_of_asks hout hasks
    have hsearch' : ∀ l v, g'.Asks l v → ¬ g'.RunsIntoCycle v l := by
      intro l v hasks
      obtain ⟨out, -, hout'⟩ := h [l]
      exact hg'.not_runsIntoCycle_of_asks hout' hasks
    refine ⟨hsearch, hsearch', fun l r => ?_⟩
    obtain ⟨out, hout, hout'⟩ := h [l]
    have hone : ∀ {d : Dag}, Labels.distinct Vertex.hash ([l].reverse.flatMap d.linkedTo) =
        d.linkedTo l := fun {d} => by
      rw [List.reverse_singleton, List.flatMap_singleton]
      exact Labels.distinct_of_nodup (Labels.nodup_distinct _)
    -- both lists are `out`
    obtain ⟨n, hn⟩ := hout.returns
    obtain ⟨n', hn'⟩ := hout'.returns
    have heq : out = g.linkedTo l :=
      ((hg.orderVertices_computes hsearch [l]).unique n out (hn n le_rfl)).trans hone
    have heq' : out = g'.linkedTo l :=
      ((hg'.orderVertices_computes hsearch' [l]).unique n' out (hn' n' le_rfl)).trans hone
    rw [← heq, ← heq']
  · rintro ⟨hsearch, hsearch', h⟩ leaders
    have heq : g.linkedTo = g'.linkedTo := by
      funext l
      exact Labels.eq_of_filter_eq (hg.pairwise_linkedTo l) (hg'.pairwise_linkedTo l) (h l)
    refine ⟨_, hg.orderVertices_computes hsearch leaders, ?_⟩
    rw [heq]
    exact hg'.orderVertices_computes hsearch' leaders

/-- A DAG with one genesis vertex, and the given vertices inserted one after the other. -/
def inserted (vs : List Vertex) : Dag :=
  vs.foldl (insertVertex Sample.platform)
    (new Sample.platform [Sample.vertex 1 [] 1] 1)

/-- The vertices of such a DAG are in their slots. -/
lemma wellSlotted_inserted (vs : List Vertex) : (inserted vs).WellSlotted := by
  have hroot : (new Sample.platform [Sample.vertex 1 [] 1] 1).WellSlotted :=
    wellSlotted_new fun v hv => List.mem_singleton.mp hv ▸ rfl
  unfold inserted
  generalize new Sample.platform [Sample.vertex 1 [] 1] 1 = d at hroot
  induction vs generalizing d with
  | nil => exact hroot
  | cons v vs ih => exact ih _ hroot.insertVertex

/-- A vertex without parents is linked to none. -/
lemma not_linked_of_no_parents (h : v.parents = OrderedMap.empty) : ¬ g.Linked v l := by
  intro hlinked
  refine hlinked.has_parents ?_
  rw [h]
  rfl

/-- Where a hash names one vertex, the contents determine the links. -/
lemma SameContents.linked (hsame : g.SameContents g') (hg : g.WellSlotted)
    (hg' : g'.WellSlotted)
    (hdistinct : ∀ u ∈ g.vertices, ∀ v ∈ g.vertices, u.hash = v.hash → u = v)
    (h : g.Linked v l) : g'.Linked v l := by
  have hstep : ∀ a b, g.SearchStep l a b → g'.SearchStep l a b := by
    rintro a b ⟨e, he, hr, hget⟩
    obtain ⟨hb, hhash, hround⟩ := hg.of_getVertex hget
    obtain ⟨w, hw⟩ := hg'.exists_getVertex ((hsame b).mp hb)
    obtain ⟨hwmem, hwhash, -⟩ := hg'.of_getVertex hw
    have heq : w = b := hdistinct w ((hsame w).mpr hwmem) b hb hwhash
    refine ⟨e, he, hr, ?_⟩
    rw [← hhash, ← hround, hw, heq]
  obtain ⟨hr, w, hpath, hlast⟩ := h
  exact ⟨hr, w, ReflTransGen.mono hstep v w hpath, hlast⟩

/-- Two vertices of one round of which one has no parents, inserted in one order and in the other:
the layouts differ, and the sequences are the same. -/
theorem orderVertices_eq_iff_apart :
    inserted [Sample.vertex 2 [1] 1, Sample.vertex 2 [] 2] ≠
      inserted [Sample.vertex 2 [] 2, Sample.vertex 2 [1] 1] ∧
    (inserted [Sample.vertex 2 [1] 1, Sample.vertex 2 [] 2]).SameContents
      (inserted [Sample.vertex 2 [] 2, Sample.vertex 2 [1] 1]) ∧
    ∃ out,
      Fuel.Computes (fun fuel => Consensus.orderVertices fuel
        (inserted [Sample.vertex 2 [1] 1, Sample.vertex 2 [] 2]) [Sample.vertex 1 [] 1]) out ∧
      Fuel.Computes (fun fuel => Consensus.orderVertices fuel
        (inserted [Sample.vertex 2 [] 2, Sample.vertex 2 [1] 1]) [Sample.vertex 1 [] 1]) out := by
  have hvertices : (inserted [Sample.vertex 2 [1] 1, Sample.vertex 2 [] 2]).vertices =
      [Sample.vertex 1 [] 1, Sample.vertex 2 [] 2, Sample.vertex 2 [1] 1] := by decide +kernel
  have hvertices' : (inserted [Sample.vertex 2 [] 2, Sample.vertex 2 [1] 1]).vertices =
      [Sample.vertex 1 [] 1, Sample.vertex 2 [1] 1, Sample.vertex 2 [] 2] := by decide +kernel
  have hsame : (inserted [Sample.vertex 2 [1] 1, Sample.vertex 2 [] 2]).SameContents
      (inserted [Sample.vertex 2 [] 2, Sample.vertex 2 [1] 1]) := by
    intro v
    rw [hvertices, hvertices']
    simp only [List.mem_cons]
    tauto
  have hlinked : ∀ v l, (inserted [Sample.vertex 2 [1] 1, Sample.vertex 2 [] 2]).Linked v l ↔
      (inserted [Sample.vertex 2 [] 2, Sample.vertex 2 [1] 1]).Linked v l := fun v l =>
    ⟨hsame.linked (wellSlotted_inserted _) (wellSlotted_inserted _) (by decide +kernel),
      SameContents.linked (fun v => (hsame v).symm) (wellSlotted_inserted _)
        (wellSlotted_inserted _) (by decide +kernel)⟩
  have hacyclic : (inserted [Sample.vertex 2 [1] 1, Sample.vertex 2 [] 2]).Acyclic :=
    acyclic_of_lower (by decide +kernel)
  have hacyclic' : (inserted [Sample.vertex 2 [] 2, Sample.vertex 2 [1] 1]).Acyclic :=
    acyclic_of_lower (by decide +kernel)
  refine ⟨by decide +kernel, hsame, (orderVertices_eq_iff (wellSlotted_inserted _)
    (wellSlotted_inserted _)).mpr ⟨fun _ _ _ => hacyclic.not_runsIntoCycle
      (wellSlotted_inserted _), fun _ _ _ => hacyclic'.not_runsIntoCycle (wellSlotted_inserted _),
      fun l r => ?_⟩ _⟩
  classical
  have hfilter : (fun v => decide ((inserted [Sample.vertex 2 [1] 1, Sample.vertex 2 [] 2]).Linked
      v l)) =
      fun v => decide ((inserted [Sample.vertex 2 [] 2, Sample.vertex 2 [1] 1]).Linked v l) := by
    funext v
    exact decide_eq_decide.mpr (hlinked v l)
  unfold linkedTo
  rw [hvertices, hvertices', hfilter]
  have hnot : ¬ (inserted [Sample.vertex 2 [] 2, Sample.vertex 2 [1] 1]).Linked
    (Sample.vertex 2 [] 2) l := not_linked_of_no_parents (by decide +kernel)
  simp only [List.filter_cons, decide_eq_true_iff, if_neg hnot, List.filter_nil]

/-- Two vertices of one round, inserted in one order and in the other: the DAGs have the same
contents, and `orderVertices` returns two different sequences. -/
theorem order_depends_on_layout :
    ∃ g g' : Dag, g.WellSlotted ∧ g'.WellSlotted ∧ g.SameContents g' ∧ g.Acyclic ∧
      ∃ leaders out out', Consensus.orderVertices 3 g leaders = some out ∧
        Consensus.orderVertices 3 g' leaders = some out' ∧ out ≠ out' := by
  have hsub : ∀ v ∈ (inserted [Sample.vertex 2 [1] 1, Sample.vertex 2 [1] 2]).vertices,
      v ∈ (inserted [Sample.vertex 2 [1] 2, Sample.vertex 2 [1] 1]).vertices := by decide +kernel
  have hsub' : ∀ v ∈ (inserted [Sample.vertex 2 [1] 2, Sample.vertex 2 [1] 1]).vertices,
      v ∈ (inserted [Sample.vertex 2 [1] 1, Sample.vertex 2 [1] 2]).vertices := by decide +kernel
  refine ⟨inserted [Sample.vertex 2 [1] 1, Sample.vertex 2 [1] 2],
    inserted [Sample.vertex 2 [1] 2, Sample.vertex 2 [1] 1], wellSlotted_inserted _,
    wellSlotted_inserted _, fun v => ⟨hsub v, hsub' v⟩, acyclic_of_lower (by decide +kernel),
    [Sample.vertex 1 [] 1], [Sample.vertex 2 [1] 2, Sample.vertex 2 [1] 1],
    [Sample.vertex 2 [1] 1, Sample.vertex 2 [1] 2], ?_, ?_, by decide +kernel⟩
  all_goals
    have hsome : ∀ {a : Option (List Vertex)} {out : List Vertex},
        decide (a = some out) = true → a = some out := of_decide_eq_true
    exact hsome (by decide +kernel)

end Dag

end DagRider
