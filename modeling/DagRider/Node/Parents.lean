import DagRider.Node.Membership
import Mathlib.Data.List.Perm.Subperm

set_option relaxedAutoImplicit false
set_option autoImplicit false

/-!
# The parents of what a node broadcasts

A node makes a vertex for its next round when the round it is in has a quorum, and lists the
vertices of that round and some of lower rounds as parents. So its vertices have a quorum of
strong parents and only lower parents, although it asks neither of those it receives.

## Main definitions

* `DagRider.Vertex.Valid` — parents that are named, lower, and a quorum of them strong.

## Main results

* `DagRider.Node.valid_of_isNewVertex` — the vertex of a next round is valid.
* `DagRider.Node.sent_valid` — everything a node broadcasts is valid.
-/

namespace DagRider

/-- The parents of the vertex are among `vs` with their recorded rounds, these rounds are
lower, and from round `2` on at least `q` of the parents are strong. -/
structure Vertex.Valid (q : ℕ) (vs : List Vertex) (v : Vertex) : Prop where
  named : ∀ e ∈ v.parents.entries, ∃ u ∈ vs, u.hash = e.1 ∧ u.round = e.2
  lower : ∀ e ∈ v.parents.entries, e.2 < v.round
  strong : 2 ≤ v.round → q ≤ v.getStrongParents.entries.length

/-- A genesis vertex is valid. -/
lemma Vertex.valid_of_mem_genesis {P : Platform} {nodes : List NodePublicKey} {q : ℕ}
    {vs : List Vertex} {v : Vertex} (h : v ∈ Vertex.genesis P nodes) : v.Valid q vs := by
  obtain ⟨hround, -, hparents⟩ := Vertex.of_mem_genesis h
  refine ⟨?_, ?_, fun h2 => by omega⟩ <;> intro e he <;> rw [hparents] at he <;> simp at he

namespace Node

variable {P : Platform} {nodeId : NodePublicKey} {committee : Committee}
  {es : List NodeEvent} {nd nd' : Node} {e : NodeEvent} {U : List Vertex}

/-- Labels that determine distinct labels are distinct. -/
lemma nodup_map_of_nodup_map {α β γ : Type*} {f : α → β} {g : α → γ} {l : List α}
    (h : (l.map f).Nodup) (hfg : ∀ a ∈ l, ∀ b ∈ l, g a = g b → f a = f b) :
    (l.map g).Nodup := by
  unfold List.Nodup at h ⊢
  rw [List.pairwise_map] at h ⊢
  exact h.imp_of_mem fun ha hb hne hg => hne (hfg _ ha _ hb hg)

/-- The hashes stored in a round are distinct when hashes name owners. -/
lemma nodup_hashes {g : Dag} (hg : g.WellSlotted) (hU : ∀ v ∈ g.vertices, v ∈ U)
    (hinj : Vertex.HashesInjective U) {r : ℕ} {m : RoundMap} (hm : g.graph.find? r = some m) :
    (m.values.map Vertex.hash).Nodup := by
  have hstored : ∀ v ∈ m.values, v ∈ U := fun v hv => hU v (Dag.mem_vertices_of_find? hm hv)
  refine nodup_map_of_nodup_map (hg.nodup_owners hm) ?_
  exact fun u hu v hv huv => (hinj u (hstored u hu) v (hstored v hv) huv).1

/-- The round below the next one is the current one, if it has any vertex of a 32-bit round. -/
lemma previous_round {c : Consensus} (hlt : c.state.currentRound < 2 ^ 32)
    (h : (c.nextRound + 2 ^ 64 - 1) % 2 ^ 64 < 2 ^ 32) :
    c.nextRound = c.state.currentRound + 1 ∧
      (c.nextRound + 2 ^ 64 - 1) % 2 ^ 64 = c.state.currentRound := by
  unfold Consensus.nextRound at h ⊢
  omega

/-- The parents of the vertex of a next round name stored vertices of lower rounds. -/
lemma named_of_isNewVertex {c : Consensus} {block : Block} {v : Vertex}
    (hlt : c.state.currentRound < 2 ^ 32) (hslot : c.state.dag.WellSlotted)
    (hround : ∀ u ∈ c.state.dag.vertices, u.round < 2 ^ 32)
    (hv : IsNewVertex P c c.nextRound block v) {e : VertexHash × ℕ}
    (he : e ∈ v.parents.entries) :
    (∃ u ∈ c.state.dag.vertices, u.hash = e.1 ∧ u.round = e.2) ∧ e.2 < v.round := by
  obtain ⟨l, hparents, hweak⟩ := hv.parents
  rw [hparents] at he
  rw [hv.round_eq]
  rcases OrderedMap.mem_of_mem_foldl_set he with he | he
  · obtain ⟨u, hu, hur, rfl⟩ := hslot.mem_getVertices.mp he
    refine ⟨⟨u, hu, rfl, hur⟩, ?_⟩
    have hprev := previous_round hlt (hur ▸ hround u hu)
    show (c.nextRound + 2 ^ 64 - 1) % 2 ^ 64 < c.nextRound
    omega
  · obtain ⟨h1, h2, m, hm, u, hu, huh⟩ := hweak e he
    obtain ⟨hu, hur⟩ := (hslot.mem_values_iff hm).mp hu
    exact ⟨⟨u, hu, huh, hur⟩, by omega⟩

/-- Every vertex of the current round becomes a strong parent. Weak edges go to other hashes,
since a hash names one round, so they replace none of them. -/
lemma mem_getStrongParents_of_isNewVertex {c : Consensus} {block : Block} {v : Vertex}
    (hlt : c.state.currentRound < 2 ^ 32) (hnext : c.nextRound = c.state.currentRound + 1)
    (hslot : c.state.dag.WellSlotted) (hU : ∀ u ∈ c.state.dag.vertices, u ∈ U)
    (hinj : Vertex.HashesInjective U)
    (hnamed : ∀ e ∈ v.parents.entries, ∃ u ∈ U, u.hash = e.1 ∧ u.round = e.2)
    (hv : IsNewVertex P c c.nextRound block v) {u : Vertex} (hu : u ∈ c.state.dag.vertices)
    (hur : u.round = c.state.currentRound) :
    (u.hash, u.round) ∈ v.getStrongParents.entries := by
  have hprev : (c.nextRound + 2 ^ 64 - 1) % 2 ^ 64 = c.state.currentRound := by omega
  obtain ⟨l, hparents, -⟩ := hv.parents
  have hmem : (u.hash, c.state.currentRound) ∈
      (c.state.dag.getVertices ((c.nextRound + 2 ^ 64 - 1) % 2 ^ 64)).entries := by
    rw [hprev]
    exact hslot.mem_getVertices.mpr ⟨u, hu, hur, rfl⟩
  obtain ⟨r, hr⟩ : ∃ r, (u.hash, r) ∈ v.parents.entries := by
    rw [hparents]
    exact OrderedMap.exists_mem_foldl_set (Or.inl hmem)
  obtain ⟨w, hw, hwh, hwr⟩ := hnamed _ hr
  have hsame : r = u.round := hwr.symm.trans (hinj w hw u (hU u hu) hwh).2
  rw [Vertex.mem_getStrongParents, ← hsame]
  refine ⟨hr, decide_eq_true ?_⟩
  show (v.round + 2 ^ 64 - r) % 2 ^ 64 = 1
  rw [hv.round_eq, hnext, hsame, hur]
  omega

/-- **The vertex of a next round is valid**, when the hashes among the vertices `U` that can be
stored name one owner and one round each.

**Proof sketch.** The current round has a quorum, all its vertices become strong parents
(`mem_getStrongParents_of_isNewVertex`), and they have distinct hashes. -/
theorem valid_of_isNewVertex {c : Consensus} {block : Block} {v : Vertex}
    (hlt : c.state.currentRound < 2 ^ 32) (hslot : c.state.dag.WellSlotted)
    (hround : ∀ u ∈ c.state.dag.vertices, u.round < 2 ^ 32)
    (hU : ∀ u ∈ c.state.dag.vertices, u ∈ U) (hinj : Vertex.HashesInjective U)
    (hcan : c.canAdvance = true) (hv : IsNewVertex P c c.nextRound block v) :
    v.Valid c.state.dag.minQuorum U := by
  have hnamed : ∀ e ∈ v.parents.entries, ∃ u ∈ U, u.hash = e.1 ∧ u.round = e.2 := by
    intro e he
    obtain ⟨⟨u, hu, huh, hur⟩, -⟩ := named_of_isNewVertex hlt hslot hround hv he
    exact ⟨u, hU u hu, huh, hur⟩
  refine ⟨hnamed, fun e he => (named_of_isNewVertex hlt hslot hround hv he).2, fun h2 => ?_⟩
  rw [hv.round_eq] at h2
  have hnext : c.nextRound = c.state.currentRound + 1 := by
    unfold Consensus.nextRound at h2 ⊢
    omega
  obtain ⟨m, hm, hquorum⟩ := Consensus.quorum_of_canAdvance hcan
  have hsub : m.values.map Vertex.hash ⊆ v.getStrongParents.entries.map Prod.fst := by
    intro h hh
    obtain ⟨u, hu, rfl⟩ := List.mem_map.mp hh
    obtain ⟨hstored, hur⟩ := (hslot.mem_values_iff hm).mp hu
    exact List.mem_map_of_mem (f := Prod.fst)
      (mem_getStrongParents_of_isNewVertex hlt hnext hslot hU hinj hnamed hv hstored hur)
  have hlen := ((nodup_hashes hslot hU hinj hm).subperm hsub).length_le
  rw [List.length_map, List.length_map, UnorderedMap.length_values] at hlen
  exact hquorum.trans hlen

/-- **Everything a node broadcasts is valid**, when hashes name owners and rounds among the
vertices it can store. -/
theorem sent_valid (h : run P nodeId committee es = some nd)
    (hU : ∀ v ∈ known P committee es, v ∈ U) (hinj : Vertex.HashesInjective U) {v : Vertex}
    (hv : v ∈ nd.consensus.vertexToBroadcast) : v.Valid committee.quorumThreshold U := by
  refine Run.prefix_induction (J := fun _ nd =>
    ∀ v ∈ nd.consensus.vertexToBroadcast, v.Valid committee.quorumThreshold U) ?_ ?_ h v hv
  · exact fun v hv => absurd hv List.not_mem_nil
  intro p nd e nd' hpre hnd hI hstep
  have hbasic := basic hnd
  have hstored := stored hnd
  have hp : p <+: es := (List.prefix_append p [e]).trans hpre
  rcases quiet_or_advances hstep with hquiet | ⟨fuel, d, block, w, -, -, hcan, -, hw, rfl⟩
  · rw [hquiet.vertexToBroadcast]
    exact hI
  · intro u hu
    rcases List.mem_append.mp hu with hu | hu
    · exact hI u hu
    rw [List.mem_singleton.mp hu, ← hbasic.minQuorum_eq]
    refine valid_of_isNewVertex hbasic.round_lt hbasic.wellSlotted hstored.round_lt ?_ hinj
      hcan hw
    exact fun x hx => hU x (known_subset hp (hstored.known x hx))

/-- The parents of what a node broadcasts name vertices that it could store, in lower rounds,
whatever the digest is. -/
lemma sent_named (h : run P nodeId committee es = some nd) {v : Vertex}
    (hv : v ∈ nd.consensus.vertexToBroadcast) {e : VertexHash × ℕ} (he : e ∈ v.parents.entries) :
    (∃ u ∈ known P committee es, u.hash = e.1 ∧ u.round = e.2) ∧ e.2 < v.round := by
  refine Run.prefix_induction (J := fun _ nd => ∀ v ∈ nd.consensus.vertexToBroadcast,
    ∀ e ∈ v.parents.entries,
      (∃ u ∈ known P committee es, u.hash = e.1 ∧ u.round = e.2) ∧ e.2 < v.round)
    ?_ ?_ h v hv e he
  · exact fun v hv => absurd hv List.not_mem_nil
  intro p nd e nd' hpre hnd hI hstep
  have hstored := stored hnd
  have hp : p <+: es := (List.prefix_append p [e]).trans hpre
  rcases quiet_or_advances hstep with hquiet | ⟨fuel, d, block, w, -, -, hcan, -, hw, rfl⟩
  · rw [hquiet.vertexToBroadcast]
    exact hI
  · intro u hu e' he'
    rcases List.mem_append.mp hu with hu | hu
    · exact hI u hu e' he'
    rw [List.mem_singleton.mp hu] at he' ⊢
    obtain ⟨⟨x, hx, hxe⟩, hlow⟩ := named_of_isNewVertex (basic hnd).round_lt
      (basic hnd).wellSlotted hstored.round_lt hw he'
    exact ⟨⟨x, known_subset hp (hstored.known x hx), hxe⟩, hlow⟩

end Node

end DagRider
