import DagRider.Search.Progress
import DagRider.Node.Proposals

set_option relaxedAutoImplicit false
set_option autoImplicit false

/-!
# Whole passes

The admission loop as a fold over the buffer, and the passes that a node can make: it can always
end the pass it is in, and a batch in which parents come before their children is admitted whole.

## Main definitions

* `DagRider.Consensus.scanAll` — the admission loop over a buffer.
* `DagRider.InOrder` — a batch that can be admitted whole.

## Main results

* `DagRider.Node.exec_scans` — the admission loop scans the buffer to its end.
* `DagRider.InOrder.subset_scanAll` — everything in an ordered batch is stored.
* `DagRider.Node.exists_drained` — a node can end the pass it is in.
* `DagRider.Node.exists_advanced` — a node whose batch completes the round advances.
-/

namespace DagRider

variable {P : Platform} {c : Consensus} {g : Dag} {vs : List Vertex} {u v : Vertex}

/-! ## The admission loop -/

namespace Consensus

/-- The admission loop over a buffer. -/
def scanAll (P : Platform) (c : Consensus) (vs : List Vertex) : Consensus :=
  vs.foldl (scanVertex P) c

/-- The loop over a buffer that begins with a vertex. -/
@[simp] lemma scanAll_cons : c.scanAll P (v :: vs) = (c.scanVertex P v).scanAll P vs := rfl

/-- The loop changes only the DAG. -/
lemma scanAll_frame (P : Platform) (c : Consensus) (vs : List Vertex) :
    ∃ g : Dag, c.scanAll P vs = { c with state := { c.state with dag := g } } ∧
      g.minQuorum = c.state.dag.minQuorum := by
  induction vs generalizing c with
  | nil => exact ⟨c.state.dag, rfl, rfl⟩
  | cons v vs ih =>
    rw [scanAll_cons]
    rcases scanVertex_cases P c v with ⟨-, hscan⟩ | ⟨-, hscan⟩
    · obtain ⟨g, hg, hquorum⟩ := ih (c.scanVertex P v)
      refine ⟨g, hg.trans ?_, hquorum.trans ?_⟩
      · rw [hscan]
      · rw [hscan]
        rfl
    · rw [hscan]
      exact ih c

/-- The loop keeps every vertex in its slot. -/
lemma wellSlotted_scanAll (hslot : c.state.dag.WellSlotted) :
    (c.scanAll P vs).state.dag.WellSlotted := by
  induction vs generalizing c with
  | nil => exact hslot
  | cons v vs ih =>
    rw [scanAll_cons]
    apply ih
    rcases scanVertex_cases P c v with ⟨-, hscan⟩ | ⟨-, hscan⟩
    · rw [hscan]
      exact hslot.insertVertex
    · rw [hscan]
      exact hslot

/-- The loop stores nothing but the vertices of the buffer. -/
lemma mem_of_mem_scanAll (hslot : c.state.dag.WellSlotted)
    (h : u ∈ (c.scanAll P vs).state.dag.vertices) : u ∈ c.state.dag.vertices ∨ u ∈ vs := by
  induction vs generalizing c with
  | nil => exact Or.inl h
  | cons v vs ih =>
    rw [scanAll_cons] at h
    rcases scanVertex_cases P c v with ⟨-, hscan⟩ | ⟨-, hscan⟩
    · rw [hscan] at h
      rcases ih hslot.insertVertex h with h | h
      · rcases (Dag.mem_insertVertex hslot).mp h with rfl | ⟨h, -⟩
        · exact Or.inr (by simp)
        · exact Or.inl h
      · exact Or.inr (by simp [h])
    · rw [hscan] at h
      rcases ih hslot h with h | h
      · exact Or.inl h
      · exact Or.inr (by simp [h])

end Consensus

/-- A batch for a DAG and a round: no vertex is of a later round, they come by round, their
parents are stored or in the batch, in lower rounds, and none takes the slot of another. -/
structure InOrder (g : Dag) (round : ℕ) (vs : List Vertex) : Prop where
  round_le : ∀ v ∈ vs, v.round ≤ round
  sorted : vs.Pairwise fun u v => u.round ≤ v.round
  named : ∀ v ∈ vs, ∀ e ∈ v.parents.entries,
    e.2 < v.round ∧ ∃ u, (u ∈ g.vertices ∨ u ∈ vs) ∧ u.hash = e.1 ∧ u.round = e.2
  slots : ∀ u, u ∈ g.vertices ∨ u ∈ vs → ∀ v ∈ vs, u.round = v.round → u.owner = v.owner → u = v

namespace InOrder

/-- The first vertex of an ordered batch is admissible. -/
lemma admissible (h : InOrder c.state.dag c.state.currentRound (v :: vs))
    (hslot : c.state.dag.WellSlotted) : c.isAdmissible v = true := by
  have hv : v ∈ v :: vs := by simp
  have hparents : c.state.dag.containsVertices v.parents = true := by
    refine hslot.containsVertices_iff.mpr fun e he => ?_
    obtain ⟨hlow, u, hu, huh, hur⟩ := h.named v hv e he
    refine ⟨u, ?_, huh, hur⟩
    rcases hu with hu | hu
    · exact hu
    -- a vertex of the batch is not below the first
    · rcases List.mem_cons.mp hu with rfl | hu
      · omega
      · have hle := (List.pairwise_cons.mp h.sorted).1 u hu
        omega
  simp [Consensus.isAdmissible, hparents, h.round_le v hv]

/-- The rest of an ordered batch is one for the DAG with its first vertex. -/
lemma tail {r : ℕ} (h : InOrder g r (v :: vs)) (hslot : g.WellSlotted) :
    (∀ u ∈ g.vertices, u ∈ (g.insertVertex P v).vertices) ∧ InOrder (g.insertVertex P v) r vs := by
  have hv : v ∈ v :: vs := by simp
  have hkeep : ∀ u ∈ g.vertices, u ∈ (g.insertVertex P v).vertices := by
    intro u hu
    rw [Dag.mem_insertVertex hslot]
    by_cases hsame : u.round = v.round ∧ u.owner = v.owner
    · exact Or.inl (h.slots u (Or.inl hu) v hv hsame.1 hsame.2)
    · exact Or.inr ⟨hu, hsame⟩
  have hstored : v ∈ (g.insertVertex P v).vertices := (Dag.mem_insertVertex hslot).mpr (Or.inl rfl)
  refine ⟨hkeep, fun w hw => h.round_le w (by simp [hw]), (List.pairwise_cons.mp h.sorted).2,
    ?_, ?_⟩
  · intro w hw e he
    obtain ⟨hlow, u, hu, hue⟩ := h.named w (by simp [hw]) e he
    refine ⟨hlow, u, ?_, hue⟩
    rcases hu with hu | hu
    · exact Or.inl (hkeep u hu)
    · rcases List.mem_cons.mp hu with rfl | hu
      · exact Or.inl hstored
      · exact Or.inr hu
  · intro u hu w hw
    refine h.slots u ?_ w (by simp [hw])
    rcases hu with hu | hu
    · rcases (Dag.mem_insertVertex hslot).mp hu with rfl | ⟨hu, -⟩
      · exact Or.inr hv
      · exact Or.inl hu
    · exact Or.inr (by simp [hu])

/-- **An ordered batch is stored whole**, and nothing is lost.

**Proof sketch.** By induction on the batch: its first vertex is admissible, since its parents are
in lower rounds and so not in the rest, and the rest is ordered for the DAG with it. -/
theorem subset_scanAll (h : InOrder c.state.dag c.state.currentRound vs)
    (hslot : c.state.dag.WellSlotted) (hu : u ∈ c.state.dag.vertices ∨ u ∈ vs) :
    u ∈ (c.scanAll P vs).state.dag.vertices := by
  induction vs generalizing c with
  | nil => exact hu.resolve_right List.not_mem_nil
  | cons v vs ih =>
    have hscan : c.scanVertex P v =
        { c with state := { c.state with dag := c.state.dag.insertVertex P v } } := by
      unfold Consensus.scanVertex
      rw [if_pos (h.admissible hslot)]
    obtain ⟨hkeep, htail⟩ := h.tail (P := P) hslot
    rw [Consensus.scanAll_cons, hscan]
    refine ih htail hslot.insertVertex ?_
    rcases hu with hu | hu
    · exact Or.inl (hkeep u hu)
    · rcases List.mem_cons.mp hu with rfl | hu
      · exact Or.inl ((Dag.mem_insertVertex hslot).mpr (Or.inl rfl))
      · exact Or.inr hu

end InOrder

/-! ## Passes -/

namespace Node

variable {nd nd' : Node}

/-- **The admission loop scans the buffer to its end.** -/
lemma exec_scans : Run.exec (step P) ⟨c, vs, .scan⟩ (vs.map fun _ => .scan) =
    some ⟨c.scanAll P vs, [], .scan⟩ := by
  induction vs generalizing c with
  | nil => rfl
  | cons v vs ih =>
    rw [List.map_cons, Run.exec_cons_eq_some]
    exact ⟨⟨c.scanVertex P v, vs, .scan⟩, rfl, ih⟩

/-- What a node sends and where it is after the end of a pass: nothing new in the same round, or
one vertex in the next one. -/
lemma finish_cases {fuel : ℕ} (h : nd.step P (.finish fuel) = some nd') :
    nd'.phase = .drain ∧ nd'.dag = nd.dag ∧
    ((nd.consensus.canAdvance = false ∧ nd'.consensus = nd.consensus) ∨
      nd.consensus.canAdvance = true ∧ nd'.currentRound = nd.consensus.nextRound ∧
        ∃ block v, nd'.consensus.vertexToBroadcast = nd.consensus.vertexToBroadcast ++ [v] ∧
          IsNewVertex P nd.consensus nd.consensus.nextRound block v) := by
  rcases step_cases h with ⟨vs, bs, he, -, -⟩ | ⟨v, buffer, he, -, -, -⟩ |
    ⟨fuel', c, -, -, hc, rfl⟩
  · cases he
  · cases he
  refine ⟨rfl, (Consensus.advance_frame hc).2.2, ?_⟩
  rcases Consensus.advance_cases hc with ⟨hcan, rfl⟩ | ⟨hcan, d, block, v, -, -, hv, rfl⟩
  · exact Or.inl ⟨hcan, rfl⟩
  · exact Or.inr ⟨hcan, rfl, block, v, rfl, hv⟩

/-- The DAG after a scan is acyclic, when the parents of all that is stored or scanned are in
lower rounds. -/
lemma acyclic_scanAll (hslot : c.state.dag.WellSlotted)
    (hlower : ∀ v, v ∈ c.state.dag.vertices ∨ v ∈ vs → ∀ e ∈ v.parents.entries, e.2 < v.round) :
    (c.scanAll P vs).state.dag.Acyclic :=
  Dag.acyclic_of_lower fun v hv => hlower v (Consensus.mem_of_mem_scanAll hslot hv)

/-- **A node can end the pass it is in.** It receives nothing more; it may advance by one round. -/
lemma exists_drained (hslot : nd.dag.WellSlotted)
    (hlower : ∀ v, v ∈ nd.dag.vertices ∨ v ∈ nd.buffer → ∀ e ∈ v.parents.entries,
      e.2 < v.round) :
    ∃ fs nd', Run.exec (step P) nd fs = some nd' ∧ (∀ e ∈ fs, e.vertices = []) ∧
      nd'.phase = .drain ∧
      ((nd'.currentRound = nd.currentRound ∧
          nd'.consensus.vertexToBroadcast = nd.consensus.vertexToBroadcast) ∨
        nd'.currentRound = nd.consensus.nextRound ∧
          ∃ v, nd'.consensus.vertexToBroadcast = nd.consensus.vertexToBroadcast ++ [v]) := by
  obtain ⟨c, buffer, phase⟩ := nd
  cases phase with
  | drain => exact ⟨[], _, rfl, by simp, rfl, Or.inl ⟨rfl, rfl⟩⟩
  | scan =>
    obtain ⟨g, hscan, -⟩ := Consensus.scanAll_frame P c buffer
    obtain ⟨fuel, nd', hfinish⟩ : ∃ fuel nd',
        (⟨c.scanAll P buffer, [], .scan⟩ : Node).step P (.finish fuel) = some nd' :=
      exists_finish (acyclic_scanAll hslot hlower) (Consensus.wellSlotted_scanAll hslot) ⟨rfl, rfl⟩
    refine ⟨(buffer.map fun _ => .scan) ++ [.finish fuel], nd', ?_, ?_, ?_⟩
    · exact Run.exec_concat_eq_some.mpr ⟨_, exec_scans, hfinish⟩
    · intro e he
      rcases List.mem_append.mp he with he | he
      · obtain ⟨v, -, rfl⟩ := List.mem_map.mp he
        rfl
      · rw [List.mem_singleton.mp he]
        rfl
    · obtain ⟨hphase, -, ⟨-, hsame⟩ | ⟨-, hround, block, v, hsent, -⟩⟩ := finish_cases hfinish
      · refine ⟨hphase, Or.inl ⟨?_, ?_⟩⟩
        · show nd'.consensus.state.currentRound = _
          rw [hsame, hscan]
        · rw [hsame, hscan]
      · refine ⟨hphase, Or.inr ⟨?_, v, ?_⟩⟩
        · rw [hround, hscan]
          rfl
        · rw [hsent, hscan]

/-- **A node whose batch completes the round advances.** The pass scans the whole batch, stores
all of it, and ends in the next round.

**Proof sketch.** The batch is admitted whole (`InOrder.subset_scanAll`), so the round has its
quorum; a block waits; and the searches at the end of the pass end, since parents are in lower
rounds. -/
theorem exists_advanced (hphase : nd.phase = .drain) (hslot : nd.dag.WellSlotted)
    (hbatch : InOrder nd.dag nd.currentRound vs)
    (hlower : ∀ v, v ∈ nd.dag.vertices ∨ v ∈ vs → ∀ e ∈ v.parents.entries, e.2 < v.round)
    (hquorum : ∀ g : Dag, g.minQuorum = nd.dag.minQuorum → g.WellSlotted →
      (∀ u, u ∈ nd.dag.vertices ∨ u ∈ vs → u ∈ g.vertices) →
      g.isQuorumReachedForRound nd.currentRound = true) :
    ∃ fuel s nd', Run.exec (step P) nd
        (.drain vs [Block.default] :: vs.map fun _ => .scan) = some s ∧
      s.step P (.finish fuel) = some nd' ∧ s.ScanDone ∧ s.consensus.canAdvance = true ∧
      s.currentRound = nd.currentRound ∧ s.dag.WellSlotted ∧
      (∀ u, u ∈ s.dag.vertices ↔ u ∈ nd.dag.vertices ∨ u ∈ vs) ∧
      s.consensus.vertexToBroadcast = nd.consensus.vertexToBroadcast := by
  obtain ⟨c, buffer, phase⟩ := nd
  subst hphase
  let c₀ : Consensus := { c with blocksToPropose := c.blocksToPropose ++ [Block.default] }
  obtain ⟨g, hscan, hg⟩ := Consensus.scanAll_frame P c₀ vs
  have hstored : ∀ u, u ∈ c.state.dag.vertices ∨ u ∈ vs → u ∈ g.vertices := by
    intro u hu
    have hmem := InOrder.subset_scanAll (P := P) (c := c₀) hbatch hslot hu
    rwa [hscan] at hmem
  have hgslot : g.WellSlotted := by
    have hwell : (c₀.scanAll P vs).state.dag.WellSlotted :=
      Consensus.wellSlotted_scanAll hslot
    rwa [hscan] at hwell
  obtain ⟨fuel, nd', hfinish⟩ : ∃ fuel nd',
      (⟨c₀.scanAll P vs, [], .scan⟩ : Node).step P (.finish fuel) = some nd' :=
    exists_finish (acyclic_scanAll hslot hlower) (Consensus.wellSlotted_scanAll hslot) ⟨rfl, rfl⟩
  refine ⟨fuel, _, nd', Run.exec_cons_eq_some.mpr ⟨⟨c₀, vs, .scan⟩, rfl, exec_scans⟩, hfinish,
    ⟨rfl, rfl⟩, ?_, ?_, ?_, ?_, ?_⟩
  · have hreached : g.isQuorumReachedForRound c.state.currentRound = true :=
      hquorum g hg hgslot hstored
    show (c₀.scanAll P vs).canAdvance = true
    rw [hscan]
    simp [Consensus.canAdvance, c₀, hreached]
  · show (c₀.scanAll P vs).state.currentRound = _
    rw [hscan]
  · show (c₀.scanAll P vs).state.dag.WellSlotted
    rw [hscan]
    exact hgslot
  · refine fun u => ⟨fun hu => Consensus.mem_of_mem_scanAll (c := c₀) hslot hu, fun hu => ?_⟩
    show u ∈ (c₀.scanAll P vs).state.dag.vertices
    rw [hscan]
    exact hstored u hu
  · show (c₀.scanAll P vs).vertexToBroadcast = _
    rw [hscan]

end Node

end DagRider
