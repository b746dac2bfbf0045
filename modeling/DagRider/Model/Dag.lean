import DagRider.Lib.StackSearch
import DagRider.Model.Vertex

set_option relaxedAutoImplicit false
set_option autoImplicit false

/-!
# The DAG

`src/consensus/dag.hpp` and `dag.cpp`: the vertices by round and owner, and the reachability
search. The search is a loop over a stack without a visited set, so it takes a bound on the
number of its iterations and is `none` when the bound is too small (`Fuel`).

## Main definitions

* `DagRider.Dag`, `DagRider.Dag.new`, `DagRider.Dag.insertVertex`,
  `DagRider.Dag.containsVertices`, `DagRider.Dag.getVertices`.
* `DagRider.Dag.isLinkedInternal`, with its uses `isLinked`, `isStronglyLinked` and
  `isLinkedWithOthersInRound`.
* `DagRider.Dag.vertices` — everything stored, in the iteration order of the code's loops.

## Main results

* `DagRider.Dag.mem_insertVertex` — what an insertion stores and what it overwrites.
* `DagRider.Dag.WellSlotted` — every vertex is stored under its own round and owner.
* `DagRider.Dag.searchLoop_eq` — the code's loop is the generic stack search.
-/

namespace DagRider

/-- The vertices of one round, by owner. -/
abbrev RoundMap := UnorderedMap NodePublicKey Vertex

/-- The DAG of a node. -/
structure Dag where
  graph : OrderedMap ℕ RoundMap
  minQuorum : ℕ
deriving DecidableEq

namespace Dag

variable {P : Platform}

/-- The constructor `Dag::Dag`: the root vertices become round `1`. -/
def new (P : Platform) (root : List Vertex) (minQuorum : ℕ) : Dag :=
  let genesis := root.foldl (fun m v => m.set P.layout v.owner v) UnorderedMap.empty
  ⟨OrderedMap.empty.set 1 genesis, minQuorum⟩

/-- `graph[vertex.round()][vertex.owner()] = vertex`. -/
def insertVertex (P : Platform) (g : Dag) (vertex : Vertex) : Dag :=
  let vertices := (g.graph.find? vertex.round).getD UnorderedMap.empty
  { g with graph := g.graph.set vertex.round (vertices.set P.layout vertex.owner vertex) }

/-- Every listed hash belongs to a vertex stored in its recorded round. -/
def containsVertices (g : Dag) (vertices : Parents) : Bool :=
  vertices.entries.all fun e =>
    match g.graph.find? e.2 with
    | none => false
    | some m => m.values.any fun v => v.hash = e.1

/-- The hashes stored in a round, each with the round of its vertex. -/
def getVertices (g : Dag) (round : ℕ) : Parents :=
  match g.graph.find? round with
  | none => OrderedMap.empty
  | some m => m.values.foldl (fun result v => result.set v.hash v.round) OrderedMap.empty

/-- At least `minQuorum` vertices are stored in the round. -/
def isQuorumReachedForRound (g : Dag) (round : ℕ) : Bool :=
  match g.graph.find? round with
  | none => false
  | some m => g.minQuorum ≤ m.size

/-- The first vertex of the round with the given hash. -/
def getVertex (g : Dag) (vertexHash : VertexHash) (round : ℕ) : Option Vertex :=
  match g.graph.find? round with
  | none => none
  | some m => m.values.find? fun v => v.hash = vertexHash

/-- The inner loop of the search: scan the parents of a popped vertex, pushing those above
the round of `oldest` that are stored; `none` when `oldest` is among them. -/
def scanParents (g : Dag) (oldest : Vertex) :
    List (VertexHash × ℕ) → List Vertex → Option (List Vertex)
  | [], vertexStack => some vertexStack
  | (parentHash, round) :: parents, vertexStack =>
    if parentHash = oldest.hash then none
    else if round > oldest.round then
      match g.getVertex parentHash round with
      | some parentVertex => scanParents g oldest parents (parentVertex :: vertexStack)
      | none => scanParents g oldest parents vertexStack
    else scanParents g oldest parents vertexStack

/-- The loop of the search. -/
def searchLoop (g : Dag) (oldest : Vertex) : ℕ → List Vertex → Option Bool
  | 0, _ => none
  | _ + 1, [] => some false
  | fuel + 1, vertex :: vertexStack =>
    match g.scanParents oldest vertex.getAllParents.entries vertexStack with
    | none => some true
    | some vertexStack => searchLoop g oldest fuel vertexStack

/-- `Dag::isLinkedInternal`. The selector of edges is an argument, and the loop does not use
it: it follows `get_all_parents` in every case. -/
def isLinkedInternal (fuel : ℕ) (g : Dag) (newest oldest : Vertex)
    (_getParents : Vertex → Parents) : Option Bool :=
  if newest.round > oldest.round then g.searchLoop oldest fuel [newest] else some false

/-- `Dag::isStronglyLinked`. -/
def isStronglyLinked (fuel : ℕ) (g : Dag) (newest oldest : Vertex) : Option Bool :=
  isLinkedInternal fuel g newest oldest Vertex.getStrongParents

/-- `Dag::isLinked`. -/
def isLinked (fuel : ℕ) (g : Dag) (newest oldest : Vertex) : Option Bool :=
  isLinkedInternal fuel g newest oldest Vertex.getAllParents

/-- Whether `minQuorum` vertices of the round are linked to the vertex; the counter is a
`uint32_t`. -/
def isLinkedWithOthersInRound (fuel : ℕ) (g : Dag) (vertex : Vertex) (round : ℕ) :
    Option Bool :=
  match g.graph.find? round with
  | none => some (decide (g.minQuorum ≤ 0))
  | some m => do
    let weight ← m.values.foldlM (fun weight v => do
      let linked ← g.isStronglyLinked fuel v vertex
      return if linked then (weight + 1) % 2 ^ 32 else weight) 0
    return g.minQuorum ≤ weight

/-- Everything stored: by ascending round, inside a round in the order of its map. -/
def vertices (g : Dag) : List Vertex := g.graph.entries.flatMap fun e => e.2.values

/-- `u` is an ancestor of `v` in the DAG: a path of parent edges leads from `v` to it, through
stored vertices. -/
def Ancestor (g : Dag) (v u : Vertex) : Prop :=
  Relation.TransGen (fun a b => b ∈ g.vertices ∧ (b.hash, b.round) ∈ a.parents.entries) v u

/-- Every vertex is stored under its own round and its own owner. -/
def WellSlotted (g : Dag) : Prop :=
  ∀ r m, (r, m) ∈ g.graph.entries → ∀ o v, (o, v) ∈ m.entries → v.round = r ∧ v.owner = o

/-! ## What is stored -/

variable {g : Dag} {u v : Vertex}

/-- A vertex is stored iff some round's map holds it under some key. -/
lemma mem_vertices :
    v ∈ g.vertices ↔ ∃ r m, (r, m) ∈ g.graph.entries ∧ ∃ o, (o, v) ∈ m.entries := by
  simp [vertices, UnorderedMap.mem_values]

/-- In a well-slotted DAG a stored vertex is found in the map of its round, under its owner. -/
lemma WellSlotted.exists_slot (hg : g.WellSlotted) (hv : v ∈ g.vertices) :
    ∃ m, g.graph.find? v.round = some m ∧ (v.owner, v) ∈ m.entries := by
  obtain ⟨r, m, hm, o, ho⟩ := mem_vertices.mp hv
  obtain ⟨hr, ho'⟩ := hg r m hm o v ho
  exact ⟨m, OrderedMap.find?_eq_some_iff.mpr (hr ▸ hm), ho' ▸ ho⟩

/-- A vertex in the map of a round is stored. -/
lemma mem_vertices_of_find? {r : ℕ} {m : RoundMap} (hm : g.graph.find? r = some m)
    (hv : v ∈ m.values) : v ∈ g.vertices := by
  obtain ⟨o, ho⟩ := UnorderedMap.mem_values.mp hv
  exact mem_vertices.mpr ⟨r, m, OrderedMap.find?_eq_some_iff.mp hm, o, ho⟩

/-- The vertices of a round's map are the stored vertices of that round. -/
lemma WellSlotted.mem_values_iff (hg : g.WellSlotted) {r : ℕ} {m : RoundMap}
    (hm : g.graph.find? r = some m) : v ∈ m.values ↔ v ∈ g.vertices ∧ v.round = r := by
  constructor
  · intro hv
    obtain ⟨o, ho⟩ := UnorderedMap.mem_values.mp hv
    exact ⟨mem_vertices_of_find? hm hv, (hg r m (OrderedMap.find?_eq_some_iff.mp hm) o v ho).1⟩
  · rintro ⟨hv, rfl⟩
    obtain ⟨m', hm', ho⟩ := hg.exists_slot hv
    rw [hm, Option.some.injEq] at hm'
    exact UnorderedMap.mem_values.mpr ⟨v.owner, hm' ▸ ho⟩

/-- In a well-slotted DAG a slot holds one vertex. -/
lemma WellSlotted.slot_unique (hg : g.WellSlotted) (hu : u ∈ g.vertices) (hv : v ∈ g.vertices)
    (hr : u.round = v.round) (ho : u.owner = v.owner) : u = v := by
  obtain ⟨m, hm, hum⟩ := hg.exists_slot hu
  obtain ⟨m', hm', hvm⟩ := hg.exists_slot hv
  rw [← hr, hm, Option.some.injEq] at hm'
  subst hm'
  exact UnorderedMap.value_unique (ho ▸ hum) hvm

/-- The vertices of a round have distinct owners. -/
lemma WellSlotted.nodup_owners (hg : g.WellSlotted) {r : ℕ} {m : RoundMap}
    (hm : g.graph.find? r = some m) : (m.values.map Vertex.owner).Nodup := by
  have hkeys : m.values.map Vertex.owner = m.entries.map Prod.fst := by
    unfold UnorderedMap.values
    rw [List.map_map]
    refine List.map_congr_left fun e he => ?_
    exact (hg r m (OrderedMap.find?_eq_some_iff.mp hm) e.1 e.2 he).2
  rw [hkeys]
  exact m.nodup

/-- Nothing is stored twice. -/
lemma WellSlotted.nodup_vertices (hg : g.WellSlotted) : g.vertices.Nodup := by
  unfold vertices
  rw [List.nodup_flatMap]
  constructor
  · intro e he
    exact List.Nodup.of_map _ (hg.nodup_owners (OrderedMap.find?_eq_some_iff.mpr he))
  · refine g.graph.sorted.imp_of_mem fun {a b} ha hb hab => ?_
    show List.Disjoint a.2.values b.2.values
    intro v hva hvb
    obtain ⟨k, hk⟩ := UnorderedMap.mem_values.mp hva
    obtain ⟨k', hk'⟩ := UnorderedMap.mem_values.mp hvb
    have hra := (hg a.1 a.2 ha k v hk).1
    have hrb := (hg b.1 b.2 hb k' v hk').1
    omega

/-- The iteration goes up the rounds. -/
lemma WellSlotted.pairwise_round (hg : g.WellSlotted) :
    g.vertices.Pairwise fun u v => u.round ≤ v.round := by
  have hround : ∀ e ∈ g.graph.entries, ∀ v ∈ e.2.values, v.round = e.1 := by
    intro e he v hv
    exact ((hg.mem_values_iff (OrderedMap.find?_eq_some_iff.mpr he)).mp hv).2
  unfold vertices
  rw [List.pairwise_flatMap]
  constructor
  · intro e he
    refine List.pairwise_iff_forall_sublist.mpr fun {u v} huv => ?_
    have hu := hround e he u (huv.subset (by simp))
    have hv := hround e he v (huv.subset (by simp))
    exact (hu.trans hv.symm).le
  · refine g.graph.sorted.imp_of_mem fun {a b} ha hb hab => ?_
    intro u hu v hv
    rw [hround a ha u hu, hround b hb v hv]
    exact hab.le

/-- **What an insertion does**: it stores the vertex, and keeps exactly the vertices of other
slots.

**Proof sketch.** The insertion replaces the map of the vertex's round by one with the
vertex under its owner (`OrderedMap.mem_set`, `UnorderedMap.mem_set`); well-slottedness
turns "another key of that map, or another round" into "another slot". -/
theorem mem_insertVertex (hg : g.WellSlotted) :
    u ∈ (g.insertVertex P v).vertices ↔
      u = v ∨ u ∈ g.vertices ∧ ¬ (u.round = v.round ∧ u.owner = v.owner) := by
  simp only [mem_vertices, insertVertex, OrderedMap.mem_set]
  constructor
  · rintro ⟨r, m, h | ⟨hm, hne⟩, o, ho⟩
    · obtain ⟨rfl, rfl⟩ := Prod.mk.inj h
      rcases UnorderedMap.mem_set.mp ho with ho | ⟨ho, hne⟩
      · exact Or.inl (Prod.mk.inj ho).2
      · cases hf : g.graph.find? v.round with
        | none => simp [hf] at ho
        | some m =>
          rw [hf, Option.getD_some] at ho
          have hm := OrderedMap.find?_eq_some_iff.mp hf
          obtain ⟨-, howner⟩ := hg _ m hm o u ho
          exact Or.inr ⟨⟨_, m, hm, o, ho⟩, fun h => hne (howner.symm.trans h.2)⟩
    · obtain ⟨hr, -⟩ := hg r m hm o u ho
      exact Or.inr ⟨⟨r, m, hm, o, ho⟩, fun h => hne (hr.symm.trans h.1)⟩
  · rintro (rfl | ⟨⟨r, m, hm, o, ho⟩, hne⟩)
    · exact ⟨_, _, Or.inl rfl, _, UnorderedMap.mem_set.mpr (Or.inl rfl)⟩
    · obtain ⟨rfl, rfl⟩ := hg r m hm o u ho
      by_cases hr : u.round = v.round
      · have hf : g.graph.find? v.round = some m := OrderedMap.find?_eq_some_iff.mpr (hr ▸ hm)
        refine ⟨_, _, Or.inl rfl, u.owner, UnorderedMap.mem_set.mpr (Or.inr ⟨?_, ?_⟩)⟩
        · simpa [hf] using ho
        · exact fun ho => hne ⟨hr, ho⟩
      · exact ⟨u.round, m, Or.inr ⟨hm, hr⟩, u.owner, ho⟩

/-- An insertion keeps every vertex in its slot. -/
lemma WellSlotted.insertVertex (hg : g.WellSlotted) : (g.insertVertex P v).WellSlotted := by
  intro r m hm o u ho
  rcases OrderedMap.mem_set.mp hm with h | ⟨hm, -⟩
  · obtain ⟨rfl, rfl⟩ := Prod.mk.inj h
    rcases UnorderedMap.mem_set.mp ho with h | ⟨ho, -⟩
    · obtain ⟨rfl, rfl⟩ := Prod.mk.inj h
      exact ⟨rfl, rfl⟩
    · cases hf : g.graph.find? v.round with
      | none => simp [hf] at ho
      | some m =>
        rw [hf, Option.getD_some] at ho
        exact hg _ m (OrderedMap.find?_eq_some_iff.mp hf) o u ho
  · exact hg r m hm o u ho

/-- Rounds never lose entries by an insertion. -/
lemma size_le_insertVertex {r : ℕ} {m : RoundMap} (hm : g.graph.find? r = some m) :
    ∃ m', (g.insertVertex P v).graph.find? r = some m' ∧ m.size ≤ m'.size := by
  by_cases hr : r = v.round
  · subst hr
    refine ⟨_, OrderedMap.find?_set_self, ?_⟩
    rw [hm, Option.getD_some]
    exact UnorderedMap.size_le_size_set
  · exact ⟨m, (OrderedMap.find?_set_of_ne hr).trans hm, le_rfl⟩

/-! ## The first DAG -/

/-- The genesis map holds, under each owner, a root vertex with that owner. -/
lemma mem_foldl_root {root : List Vertex} {m : RoundMap} {e : NodePublicKey × Vertex}
    (h : e ∈ (root.foldl (fun m v => m.set P.layout v.owner v) m).entries) :
    e ∈ m.entries ∨ e.2 ∈ root ∧ e.1 = e.2.owner := by
  induction root generalizing m with
  | nil => exact Or.inl h
  | cons a root ih =>
    rcases ih h with h | ⟨h, ho⟩
    · rcases UnorderedMap.mem_set.mp h with rfl | ⟨h, -⟩
      · exact Or.inr ⟨by simp, rfl⟩
      · exact Or.inl h
    · exact Or.inr ⟨by simp [h], ho⟩

/-- Only root vertices are stored at first. -/
lemma mem_root_of_mem_new {root : List Vertex} {q : ℕ} (h : v ∈ (new P root q).vertices) :
    v ∈ root := by
  obtain ⟨r, m, hm, o, ho⟩ := mem_vertices.mp h
  simp only [new, OrderedMap.mem_set, OrderedMap.entries_empty, List.not_mem_nil, false_and,
    or_false, Prod.mk.injEq] at hm
  obtain ⟨-, rfl⟩ := hm
  rcases mem_foldl_root ho with h | ⟨h, -⟩
  · simp at h
  · exact h

/-- A root vertex that is the only one of its owner is stored. -/
lemma mem_new_of_mem_root {root : List Vertex} {q : ℕ}
    (hroot : ∀ u ∈ root, ∀ v ∈ root, u.owner = v.owner → u = v) (hv : v ∈ root) :
    v ∈ (new P root q).vertices := by
  have key : ∀ (l : List Vertex) (m : RoundMap), (∀ u ∈ l, u ∈ root) →
      (v.owner, v) ∈ m.entries ∨ v ∈ l →
      (v.owner, v) ∈ (l.foldl (fun m v => m.set P.layout v.owner v) m).entries := by
    intro l
    induction l with
    | nil =>
      intro m _ h
      simpa using h
    | cons a l ih =>
      intro m hl h
      refine ih _ (fun u hu => hl u (by simp [hu])) ?_
      rcases h with h | h
      · by_cases ha : v.owner = a.owner
        · rw [hroot v hv a (hl a (by simp)) ha]
          exact Or.inl (UnorderedMap.mem_set.mpr (Or.inl rfl))
        · exact Or.inl (UnorderedMap.mem_set.mpr (Or.inr ⟨h, ha⟩))
      · rcases List.mem_cons.mp h with rfl | h
        · exact Or.inl (UnorderedMap.mem_set.mpr (Or.inl rfl))
        · exact Or.inr h
  refine mem_vertices.mpr ⟨1, _, ?_, v.owner, key root UnorderedMap.empty (fun _ h => h)
    (Or.inr hv)⟩
  exact OrderedMap.mem_set.mpr (Or.inl rfl)

/-- Root vertices of round `1` are stored in their slots. -/
lemma wellSlotted_new {root : List Vertex} {q : ℕ} (hroot : ∀ v ∈ root, v.round = 1) :
    (new P root q).WellSlotted := by
  intro r m hm o v ho
  simp only [new, OrderedMap.mem_set, OrderedMap.entries_empty, List.not_mem_nil, false_and,
    or_false, Prod.mk.injEq] at hm
  obtain ⟨rfl, rfl⟩ := hm
  rcases mem_foldl_root ho with h | ⟨h, hown⟩
  · simp at h
  · exact ⟨hroot v h, hown.symm⟩

/-! ## Parents and rounds -/

/-- The admission test on the parents: each is the hash of a vertex stored in its recorded
round. -/
lemma WellSlotted.containsVertices_iff (hg : g.WellSlotted) {ps : Parents} :
    g.containsVertices ps = true ↔
      ∀ e ∈ ps.entries, ∃ v ∈ g.vertices, v.hash = e.1 ∧ v.round = e.2 := by
  unfold containsVertices
  rw [List.all_eq_true]
  refine forall₂_congr fun e _ => ?_
  cases hf : g.graph.find? e.2 with
  | none =>
    refine ⟨fun h => absurd h (by simp), ?_⟩
    rintro ⟨v, hv, -, hr⟩
    obtain ⟨m, hm, -⟩ := hg.exists_slot hv
    rw [hr, hf] at hm
    exact absurd hm (by simp)
  | some m =>
    simp only [List.any_eq_true, decide_eq_true_eq, hg.mem_values_iff hf]
    exact exists_congr fun v => by tauto

/-- The map of a round lists the hashes stored in it, each with that round. -/
lemma WellSlotted.mem_getVertices (hg : g.WellSlotted) {r : ℕ} {e : VertexHash × ℕ} :
    e ∈ (g.getVertices r).entries ↔ ∃ v ∈ g.vertices, v.round = r ∧ e = (v.hash, r) := by
  unfold getVertices
  cases hf : g.graph.find? r with
  | none =>
    refine ⟨fun h => absurd h (by simp), ?_⟩
    rintro ⟨v, hv, rfl, -⟩
    obtain ⟨m, hm, -⟩ := hg.exists_slot hv
    exact absurd (hf.symm.trans hm) (by simp)
  | some m =>
    have hlist : m.values.foldl (fun result v => result.set v.hash v.round) OrderedMap.empty =
        OrderedMap.ofList (m.values.map fun v => (v.hash, v.round)) := by
      rw [OrderedMap.ofList, List.foldl_map]
    have hround : ∀ v ∈ m.values, v.round = r := fun v hv => ((hg.mem_values_iff hf).mp hv).2
    dsimp only
    rw [hlist, OrderedMap.mem_ofList_iff, List.mem_map]
    · constructor
      · rintro ⟨v, hv, rfl⟩
        obtain ⟨hv, hr⟩ := (hg.mem_values_iff hf).mp hv
        exact ⟨v, hv, hr, by rw [hr]⟩
      · rintro ⟨v, hv, hr, rfl⟩
        exact ⟨v, (hg.mem_values_iff hf).mpr ⟨hv, hr⟩, by rw [hr]⟩
    · intro a ha b hb hab
      obtain ⟨v, hv, rfl⟩ := List.mem_map.mp ha
      obtain ⟨w, hw, rfl⟩ := List.mem_map.mp hb
      exact Prod.ext hab ((hround v hv).trans (hround w hw).symm)

/-- A vertex looked up by hash and round is stored, with that hash and that round. -/
lemma WellSlotted.of_getVertex (hg : g.WellSlotted) {h : VertexHash} {r : ℕ}
    (hv : g.getVertex h r = some v) : v ∈ g.vertices ∧ v.hash = h ∧ v.round = r := by
  unfold getVertex at hv
  cases hf : g.graph.find? r with
  | none => simp [hf] at hv
  | some m =>
    rw [hf] at hv
    obtain ⟨hmem, hr⟩ := (hg.mem_values_iff hf).mp (List.mem_of_find?_eq_some hv)
    exact ⟨hmem, by simpa using List.find?_some hv, hr⟩

/-- A lookup by the hash and round of a stored vertex succeeds. -/
lemma WellSlotted.exists_getVertex (hg : g.WellSlotted) (hv : v ∈ g.vertices) :
    ∃ w, g.getVertex v.hash v.round = some w := by
  obtain ⟨m, hm, ho⟩ := hg.exists_slot hv
  unfold getVertex
  rw [hm]
  refine Option.isSome_iff_exists.mp (List.find?_isSome.mpr ⟨v, ?_, by simp⟩)
  exact UnorderedMap.mem_values.mpr ⟨_, ho⟩

/-! ## The search -/

/-- The search stops at a vertex with `oldest` among its parents. -/
def isGoal (oldest : Vertex) (vertex : Vertex) : Bool :=
  vertex.parents.entries.any fun e => e.1 = oldest.hash

/-- The vertices the search pushes for a popped vertex. -/
def pushed (g : Dag) (oldest : Vertex) (vertex : Vertex) : List Vertex :=
  vertex.parents.entries.filterMap fun e =>
    if e.2 > oldest.round then g.getVertex e.1 e.2 else none

/-- The inner loop stops iff `oldest` is among the parents, and otherwise pushes the others
in order. -/
lemma scanParents_eq (oldest : Vertex) (ps : List (VertexHash × ℕ)) (stack : List Vertex) :
    g.scanParents oldest ps stack =
      if ps.any fun e => e.1 = oldest.hash then none
      else some ((ps.filterMap fun e =>
        if e.2 > oldest.round then g.getVertex e.1 e.2 else none).reverse ++ stack) := by
  induction ps generalizing stack with
  | nil => rfl
  | cons e ps ih =>
    obtain ⟨h, r⟩ := e
    unfold scanParents
    rw [List.any_cons]
    by_cases hh : h = oldest.hash
    · rw [if_pos hh, decide_eq_true hh, Bool.true_or, if_pos rfl]
    · rw [if_neg hh, decide_eq_false hh, Bool.false_or]
      by_cases hr : r > oldest.round
      · cases hg : g.getVertex h r <;> simp [hr, hg, ih]
      · simp [hr, ih]

/-- **The code's loop is the stack search** for a vertex with `oldest` among its parents. -/
theorem searchLoop_eq (oldest : Vertex) (fuel : ℕ) (stack : List Vertex) :
    g.searchLoop oldest fuel stack =
      StackSearch.search (isGoal oldest) (g.pushed oldest) fuel stack := by
  induction fuel generalizing stack with
  | zero => rfl
  | succ fuel ih =>
    cases stack with
    | nil => rfl
    | cons v stack =>
      unfold searchLoop StackSearch.search
      rw [scanParents_eq]
      unfold isGoal Vertex.getAllParents
      split_ifs with h
      · rfl
      · exact ih _

/-- The search for a strong path is the search for any path: the selector of edges is not
used. -/
lemma isStronglyLinked_eq_isLinked (fuel : ℕ) (newest oldest : Vertex) :
    g.isStronglyLinked fuel newest oldest = g.isLinked fuel newest oldest := rfl

/-- A link goes to a lower round. -/
lemma round_lt_of_isLinked {fuel : ℕ} {newest oldest : Vertex}
    (h : g.isLinked fuel newest oldest = some true) : oldest.round < newest.round := by
  unfold isLinked isLinkedInternal at h
  split_ifs at h with hr
  · exact hr
  · simp at h

end Dag

end DagRider
