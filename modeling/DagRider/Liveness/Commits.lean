import DagRider.Agreement.Order
import DagRider.Liveness.Rounds

set_option relaxedAutoImplicit false
set_option autoImplicit false

/-!
# When a wave is committed

The leader of a wave is committed by every node as soon as so many vertices of the second round of
the wave name it that every quorum of that round has one of them: all later vertices then reach the
leader, so whoever ends the wave has it stored and sees it supported by the whole last round.

## Main definitions

* `DagRider.Network.Supported` — a leader named by enough vertices of the next round.

## Main results

* `DagRider.Network.Supported.spreads` — all later vertices reach a supported leader.
* `DagRider.Network.passes_of_supported` — it passes the checks of every node.
* `DagRider.Network.supported_leaders_committed` — and every node that left the wave committed it.
-/

namespace DagRider

open Relation

variable {committee : Committee} {U : List Vertex} {w : ℕ} {l : Vertex}

namespace Network

/-- The leader of wave `w` is named by so many vertices of the next round that every quorum of
this round has one of them. -/
structure Supported (committee : Committee) (U : List Vertex) (w : ℕ) (l : Vertex) : Prop where
  leader : l ∈ U ∧ l.round = 4 * w - 3 ∧ leaderKey committee w = some l.owner
  support : ∃ Q : Finset Vertex, committee.size < committee.quorumThreshold + Q.card ∧
    ∀ v ∈ Q, v ∈ U ∧ v.round = 4 * w - 2 ∧ (l.hash, l.round) ∈ v.parents.entries

/-- **All later vertices reach a supported leader.** -/
lemma Supported.spreads (hU : History committee U) (hslots : SlotsUnique U) (hw : 1 ≤ w)
    (h : Supported committee U w l) {v : Vertex} (hv : v ∈ U) (hr : 4 * w - 2 < v.round) :
    (hU.graph hslots).Reaches v l := by
  obtain ⟨hl, -, -⟩ := h.leader
  obtain ⟨Q, hcard, hQ⟩ := h.support
  have hmembers : committee.getNodesKeys.toFinset.card ≤ committee.size := by
    have hkeys := List.toFinset_card_le committee.getNodesKeys
    rwa [committee.length_getNodesKeys] at hkeys
  refine (hU.quorate hslots).blocking_support_spreads (r := 4 * w - 2) (Q := Q) (by omega)
    (by omega) (fun u hu => ?_) hv hr
  obtain ⟨hu, hur, hparent⟩ := hQ u hu
  exact ⟨hu, hur, TransGen.single ⟨hu, hl, hparent⟩⟩

end Network

namespace Consensus

open Network

variable (hU : History committee U) (hslots : SlotsUnique U) {g : Dag} {m : RoundMap} {r : ℕ}

/-- Counting with a counter of 32 bits. -/
lemma foldl_count (vs : List Vertex) (weight : ℕ) :
    vs.foldl (fun weight _ => (weight + 1) % 2 ^ 32) (weight % 2 ^ 32) =
      (weight + vs.length) % 2 ^ 32 := by
  induction vs generalizing weight with
  | nil => rfl
  | cons v vs ih =>
    have hnext : (weight % 2 ^ 32 + 1) % 2 ^ 32 = (weight + 1) % 2 ^ 32 := by omega
    rw [List.foldl_cons, hnext, ih, List.length_cons]
    congr 1
    omega

/-- The check succeeds when every vertex of the round reaches the leader. -/
lemma isLinkedWithOthers_of_reaches (hg : g.ViewOf U) (hl : l ∈ g.vertices)
    (hm : g.graph.find? r = some m)
    (hall : ∀ v ∈ m.values, (hU.graph hslots).Reaches v l) (hq : g.minQuorum ≤ m.size)
    (hsize : m.size < 2 ^ 32) :
    Fuel.Computes (fun fuel => g.isLinkedWithOthersInRound fuel l r) true := by
  classical
  have hturn : ∀ (weight : ℕ), ∀ v ∈ m.values, Fuel.Computes (fun fuel =>
      (g.isStronglyLinked fuel v l).bind fun linked =>
        some (if linked = true then (weight + 1) % 2 ^ 32 else weight))
      ((weight + 1) % 2 ^ 32) := by
    intro weight v hv
    have hlinked := hg.isLinked_computes hU hslots (Dag.mem_vertices_of_find? hm hv) hl
    rw [decide_eq_true (hall v hv)] at hlinked
    exact hlinked.bind (g := fun _ linked =>
      some (if linked = true then (weight + 1) % 2 ^ 32 else weight)) (Fuel.Computes.pure _)
  have hcount : m.values.foldl (fun weight _ => (weight + 1) % 2 ^ 32) 0 = m.size := by
    have hfold := foldl_count m.values 0
    rw [Nat.zero_mod, Nat.zero_add, UnorderedMap.length_values, Nat.mod_eq_of_lt hsize] at hfold
    exact hfold
  have hwhole := (Fuel.Computes.foldlM hturn 0).bind
    (g := fun _ weight => some (decide (g.minQuorum ≤ weight))) (Fuel.Computes.pure _)
  rw [hcount, decide_eq_true hq] at hwhole
  unfold Dag.isLinkedWithOthersInRound
  rw [hm]
  exact hwhole

end Consensus

namespace Network

variable {P : Platform} {es : List NetworkEvent} {N S : Network} {A : Node}

/-- A round's map has at most as many entries as the committee has members. -/
lemma size_le_of_viewOf (hU : History committee U) {g : Dag} (hg : g.ViewOf U) {m : RoundMap}
    {r : ℕ} (hm : g.graph.find? r = some m) : m.size ≤ committee.size := by
  have hsub : m.values.map Vertex.owner ⊆ committee.getNodesKeys := by
    intro o ho
    obtain ⟨v, hv, rfl⟩ := List.mem_map.mp ho
    exact hU.owner_mem v (hg.stored v (Dag.mem_vertices_of_find? hm hv))
  have hlen := ((hg.wellSlotted.nodup_owners hm).subperm hsub).length_le
  rwa [List.length_map, UnorderedMap.length_values, Committee.length_getNodesKeys] at hlen

/-- **A supported leader passes the checks of every node that ends its wave**, with enough bounds
for the searches.

**Proof sketch.** The node has a quorum of the wave's last round stored. Each of these vertices
reaches the leader (`Supported.spreads`), so the leader is stored too, and all of them count. -/
lemma passes_of_supported (h : IsRun P committee es N)
    (hround : Run.Throughout (step P) NotWrapped (init P committee) es)
    (hsize : committee.size < 2 ^ 32) (hw : 1 ≤ w)
    (hsup : Supported committee (N.vertices P committee) w l)
    (hS : Run.Visits (step P) (init P committee) es S) (hA : A ∈ S.nodes)
    (hcall : A.CallsOrder w) :
    A.consensus.getWaveVertexLeader w = some l ∧ l ∈ A.dag.vertices ∧
      Fuel.Computes (fun fuel =>
        A.dag.isLinkedWithOthersInRound fuel l (Consensus.getRoundForWave w MAX_WAVE)) true := by
  have hU := h.history
  have hslots := h.slotsUnique hround
  have hview := h.viewOf hround hS hA
  obtain ⟨nodeId, hbasic⟩ := (h.honest hS hA).basic
  have hnot : A.NotWrapped := Run.throughout_iff_visits.mp hround S hS A hA
  obtain ⟨-, hw2⟩ := wave_bounds hbasic hnot hcall
  obtain ⟨-, hcan, hlast, hwave⟩ := hcall
  have hr : A.currentRound = 4 * w := by
    have hmod := Consensus.isLastRoundInWave_iff.mp hlast
    unfold MAX_WAVE at hwave
    omega
  obtain ⟨m, hm, hq⟩ := Consensus.quorum_of_canAdvance hcan
  have hm4 : A.dag.graph.find? (4 * w) = some m := hr ▸ hm
  -- every vertex of the last round that is stored reaches the leader
  have hreach : ∀ v ∈ m.values, (hU.graph hslots).Reaches v l := by
    intro v hv
    obtain ⟨hstored, hvr⟩ := (hview.wellSlotted.mem_values_iff hm4).mp hv
    exact hsup.spreads hU hslots hw (hview.stored v hstored) (by omega)
  have hl : l ∈ A.dag.vertices := by
    have hpos : 0 < m.values.length := by
      rw [UnorderedMap.length_values]
      have hquorum : A.dag.minQuorum = committee.quorumThreshold := hbasic.minQuorum_eq
      have hle : A.dag.minQuorum ≤ m.size := hq
      unfold Committee.quorumThreshold at hquorum
      omega
    obtain ⟨v, hv⟩ := List.exists_mem_of_length_pos hpos
    have hstored := Dag.mem_vertices_of_find? hm4 hv
    exact (hview.isView hU hslots).mem_of_reaches hstored (hreach v hv)
  refine ⟨?_, hl, ?_⟩
  · exact (Consensus.sees_leaders hU hslots hbasic.committee_eq hview hw2.le w hw le_rfl l).mpr
      ⟨hsup.leader, hl⟩
  · rw [Consensus.getRoundForWave_eq hw hw2.le]
    have hfour : 4 * w - 4 + MAX_WAVE = 4 * w := by
      unfold MAX_WAVE
      omega
    rw [hfour]
    exact Consensus.isLinkedWithOthers_of_reaches hU hslots hview hl hm4 hreach hq
      ((size_le_of_viewOf hU hview hm4).trans_lt hsize)

end Network

namespace Node

variable {P : Platform} {nd nd' : Node} {e : NodeEvent}

/-- What a step does to the decided wave: nothing, or what the commit of the round's wave does when
the pass advances. -/
lemma decidedWave_cases (h : nd.step P e = some nd') :
    (nd'.currentRound = nd.currentRound ∧
      nd'.consensus.decidedWave = nd.consensus.decidedWave) ∨
    ∃ fuel d, nd.ScanDone ∧ nd.consensus.canAdvance = true ∧
      Consensus.Commit fuel nd.consensus d ∧ nd'.currentRound = nd.consensus.nextRound ∧
      nd'.consensus.decidedWave = d.decidedWave := by
  rcases step_cases h with ⟨vs, bs, -, -, rfl⟩ | ⟨v, buffer, -, -, -, rfl⟩ |
    ⟨fuel, c, -, hdone, hc, rfl⟩
  · exact Or.inl ⟨rfl, rfl⟩
  · rcases Consensus.scanVertex_cases P nd.consensus v with ⟨-, hscan⟩ | ⟨-, hscan⟩
    all_goals
      refine Or.inl ⟨?_, ?_⟩
      all_goals
        simp only [currentRound]
        rw [hscan]
  · rcases Consensus.advance_cases hc with ⟨-, rfl⟩ | ⟨hcan, d, block, v, hd, -, -, rfl⟩
    · exact Or.inl ⟨rfl, rfl⟩
    · exact Or.inr ⟨fuel, d, hdone, hcan, hd, rfl, rfl⟩

/-- The end of a pass decides the wave of the round, or leaves the decided wave. -/
lemma decidedWave_of_commit {fuel : ℕ} {c d : Consensus} (h : Consensus.Commit fuel c d) :
    d.decidedWave = c.decidedWave ∨ d.decidedWave = c.state.currentRound / MAX_WAVE := by
  cases h with
  | none => exact Or.inl rfl
  | skip => exact Or.inl rfl
  | commit => exact Or.inr rfl

end Node

namespace Network

variable {P : Platform} {es : List NetworkEvent} {N S : Network} {A : Node}

/-- **Every node that has left the wave of a supported leader has decided it**, or a later one.

**Proof sketch.** Induction over the run. A node leaves the last round of the wave by a pass that
calls it; the checks do not fail (`passes_of_supported`), so the wave is committed. Later passes
decide later waves only. -/
lemma decided_of_supported (h : IsRun P committee es N)
    (hround : Run.Throughout (step P) NotWrapped (init P committee) es)
    (hsize : committee.size < 2 ^ 32) (hw : 1 ≤ w)
    (hsup : Supported committee (N.vertices P committee) w l)
    (hS : Run.Visits (step P) (init P committee) es S) (hA : A ∈ S.nodes)
    (hleft : 4 * w < A.currentRound) : w ≤ A.consensus.decidedWave := by
  obtain ⟨p, hp, hS⟩ := hS
  refine Run.prefix_induction (J := fun p S => p <+: es → ∀ A ∈ S.nodes, 4 * w < A.currentRound →
    w ≤ A.consensus.decidedWave) ?_ ?_ hS hp A hA hleft
  · intro _ A hA hleft
    obtain ⟨nodeId, -, rfl⟩ := List.mem_map.mp hA
    have hone : (Node.init P nodeId committee).currentRound = 1 := rfl
    omega
  intro q T e T' hqp hT ih hstep hqes A hA hleft
  have hTvis : Run.Visits (step P) (init P committee) es T :=
    ⟨q, (List.prefix_append q [e]).trans hqes, hT⟩
  have hIH := ih ((List.prefix_append q [e]).trans hqes)
  obtain ⟨old, new, hold, -, hnew, rfl⟩ := step_cases hstep
  have holdmem : old ∈ T.nodes := List.mem_of_getElem? hold
  rcases List.mem_or_eq_of_mem_set hA with hA | rfl
  · exact hIH A hA hleft
  rcases Node.decidedWave_cases hnew with ⟨hsame, hdecided⟩ |
    ⟨fuel, d, hdone, hcan, hd, hnext, hdecided⟩
  · rw [hdecided]
    exact hIH old holdmem (hsame ▸ hleft)
  -- the node advances, so it leaves its round by one
  have hnot : A.NotWrapped := Run.throughout_iff_visits.mp hround ⟨T.nodes.set e.node A⟩
    ⟨q ++ [e], hqes, Run.exec_concat_eq_some.mpr ⟨T, hT, hstep⟩⟩ A hA
  obtain ⟨nodeId, hbasic⟩ := (h.honest hTvis holdmem).basic
  have hne : old.consensus.nextRound ≠ 0 := hnext ▸ hnot
  have hsucc : A.currentRound = old.currentRound + 1 :=
    hnext.trans (Node.nextRound_eq hbasic.round_lt hne)
  rw [hdecided]
  by_cases hlast : old.currentRound = 4 * w
  · -- it leaves the last round of the wave
    have hmod : Consensus.isLastRoundInWave old.currentRound = true :=
      Consensus.isLastRoundInWave_iff.mpr (by omega)
    have hwave : old.currentRound / MAX_WAVE = w := by
      unfold MAX_WAVE
      omega
    obtain ⟨hl, -, hpasses⟩ := passes_of_supported h hround hsize hw hsup hTvis holdmem
      ⟨hdone, hcan, hmod, hwave.symm⟩
    cases hd with
    | none hno =>
      rw [hmod] at hno
      exact absurd hno (by simp)
    | skip _ hchecks =>
      have hwave' : old.consensus.state.currentRound / MAX_WAVE = w := hwave
      rw [hwave'] at hchecks
      have heq : false = true := hpasses.unique fuel false (hchecks l hl)
      exact absurd heq (by decide)
    | commit => exact hwave.ge
  · have hbefore := hIH old holdmem (by omega)
    rcases Node.decidedWave_of_commit hd with hd | hd
    · rw [hd]
      exact hbefore
    · rw [hd]
      have hle : 4 * w < old.consensus.state.currentRound := by
        show 4 * w < old.currentRound
        omega
      unfold MAX_WAVE
      omega

/-- **A supported leader is committed by all.** In every run of a network in which no counter
wraps, whatever the order in which vertices are delivered: when the leader of a wave is named by
so many vertices of the next round that every quorum of the round has one of them, then it is
stored at and passes the checks of every node that calls `getOrderedVertices` for the wave, and
every node that has left the wave has decided it or a later one. -/
theorem supported_leaders_committed (h : IsRun P committee es N)
    (hround : Run.Throughout (step P) NotWrapped (init P committee) es)
    (hsize : committee.size < 2 ^ 32) (hw : 1 ≤ w)
    (hsup : Supported committee (N.vertices P committee) w l) :
    Run.Throughout (step P) (fun S => ∀ A ∈ S.nodes,
      (A.CallsOrder w → A.Passes w l ∧ l ∈ A.dag.vertices) ∧
      (4 * w < A.currentRound → w ≤ A.consensus.decidedWave)) (init P committee) es := by
  refine Run.throughout_iff_visits.mpr fun S hS A hA => ⟨fun hcall => ?_, fun hleft => ?_⟩
  · obtain ⟨hl, hstored, hpasses⟩ := passes_of_supported h hround hsize hw hsup hS hA hcall
    obtain ⟨n, hn⟩ := hpasses.returns
    exact ⟨⟨hl, n, hn n le_rfl⟩, hstored⟩
  · exact decided_of_supported h hround hsize hw hsup hS hA hleft

/-- The genesis vertex that leads wave `1` of a committee of four. -/
def firstLeader : Vertex :=
  Vertex.new Sample.platform 2 1 Block.default OrderedMap.empty

/-- All vertices of round `2` name the leader of wave `1`, and a node that left round `4` has
decided the wave. -/
theorem supported_leaders_committed_four :
    ∃ N A, IsRun Sample.platform Sample.four (Sample.fourNodes [1, 2, 3] [2, 3, 4]) N ∧
      A ∈ N.nodes ∧ A.currentRound = 5 ∧ 1 ≤ A.consensus.decidedWave := by
  obtain ⟨N, hN, hp⟩ : ∃ N, Run.exec (step Sample.platform) (init Sample.platform Sample.four)
        (Sample.fourNodes [1, 2, 3] [2, 3, 4]) = some N ∧
      decide (Vertex.HashesInjective (N.vertices Sample.platform Sample.four) ∧
        (∃ A ∈ N.nodes, A.currentRound = 5) ∧
        firstLeader ∈ N.vertices Sample.platform Sample.four ∧
        ∀ v ∈ (Sample.second [1, 2, 3]).toFinset, v ∈ N.vertices Sample.platform Sample.four ∧
          v.round = 4 * 1 - 2 ∧ (firstLeader.hash, firstLeader.round) ∈ v.parents.entries) = true :=
    Run.exists_exec_of_any (by decide +kernel)
  obtain ⟨hinj, ⟨A, hA, hround⟩, hleader, hQ⟩ := of_decide_eq_true hp
  have hrun : IsRun Sample.platform Sample.four (Sample.fourNodes [1, 2, 3] [2, 3, 4]) N :=
    ⟨by decide, hN, hinj⟩
  have hsup : Supported Sample.four (N.vertices Sample.platform Sample.four) 1 firstLeader :=
    ⟨⟨hleader, by decide, by decide +kernel⟩, _, by decide +kernel, hQ⟩
  have hcommitted := (supported_leaders_committed hrun (by decide +kernel) (by decide) (by decide)
    hsup).last hN A hA
  exact ⟨N, A, hrun, hA, hround, hcommitted.2 (by omega)⟩

end Network

end DagRider
