import DagRider.Agreement.Views
import DagRider.Node.Ordering

set_option relaxedAutoImplicit false
set_option autoImplicit false

/-!
# Agreement on leaders

The causal graph of a run has a quorum of strong parents under every vertex, so a leader that a
quorum of the last round of its wave is linked to is an ancestor of everything in later
rounds. Every node walks down the same schedule of leaders, each seeing those its DAG holds.

## Main definitions

* `DagRider.Network.History.schedule` — the leaders of the waves in a run.

## Main results

* `DagRider.Network.History.quorate` — the quorum of parents.
* `DagRider.Consensus.getLeadersToCommit_computes` — the code's walk is the walk in the graph.
* `DagRider.Network.leaders_agree` — nodes agree on the leaders they commit.
-/

namespace DagRider

open Network

/-! ## The graph of a run is quorate -/

namespace Network

variable {committee : Committee} {U : List Vertex}

/-- Two quorums of a committee exceed it. -/
lemma size_lt_two_quorums (c : Committee) : c.size < 2 * c.quorumThreshold := by
  unfold Committee.quorumThreshold Committee.size
  omega

/-- A strong parent is a parent in the round below. -/
lemma History.parent_of_strong (hU : History committee U) (hslots : SlotsUnique U) {u v : Vertex}
    (hv : v ∈ U) (hu : u ∈ U) (h : (u.hash, u.round) ∈ v.getStrongParents.entries) :
    (hU.graph hslots).parent v u ∧ u.round + 1 = v.round := by
  obtain ⟨he, hprev⟩ := Vertex.mem_getStrongParents.mp h
  have hlower : u.round < v.round := (hU.valid v hv).lower _ he
  have hbound := hU.round_lt v hv
  have hone : (v.round + 2 ^ 64 - u.round) % 2 ^ 64 = 1 := of_decide_eq_true hprev
  refine ⟨⟨hv, hu, he⟩, ?_⟩
  omega

/-- **The causal graph of a run is quorate.**

**Proof sketch.** The strong parents of a vertex are distinct hashes, each of a vertex of the
run in the round below. -/
theorem History.quorate (hU : History committee U) (hslots : SlotsUnique U) :
    (hU.graph hslots).Quorate committee.quorumThreshold committee.getNodesKeys.toFinset := by
  refine ⟨?_, fun v hv => List.mem_toFinset.mpr (hU.owner_mem v hv), fun v hv h2 => ?_⟩
  · have hkeys := List.toFinset_card_le committee.getNodesKeys
    rw [committee.length_getNodesKeys] at hkeys
    exact hkeys.trans_lt (size_lt_two_quorums committee)
  · let Q := U.toFinset.filter fun u => (u.hash, u.round) ∈ v.getStrongParents.entries
    refine ⟨Q, ?_, fun u hu => ?_⟩
    · -- every strong parent is the hash and round of a vertex of `Q`
      have hsub : v.getStrongParents.entries.toFinset ⊆ Q.image fun u => (u.hash, u.round) := by
        intro e he
        rw [List.mem_toFinset] at he
        obtain ⟨u, hu, huh, hur⟩ := (hU.valid v hv).named e (Vertex.mem_getStrongParents.mp he).1
        have hentry : (u.hash, u.round) = e := Prod.ext huh hur
        rw [Finset.mem_image]
        exact ⟨u, Finset.mem_filter.mpr ⟨List.mem_toFinset.mpr hu, hentry ▸ he⟩, hentry⟩
      have hcard := (Finset.card_le_card hsub).trans Finset.card_image_le
      rw [List.toFinset_card_of_nodup v.getStrongParents.nodup_entries] at hcard
      exact ((hU.valid v hv).strong h2).trans hcard
    · obtain ⟨hu, hstrong⟩ := Finset.mem_filter.mp hu
      exact hU.parent_of_strong hslots hv (List.mem_toFinset.mp hu) hstrong

/-! ## The schedule of leaders -/

/-- The key that leads a wave, for every node of a committee. -/
def leaderKey (committee : Committee) (wave : ℕ) : Option NodePublicKey :=
  (committee.getNodesKeys.insertionSort (· ≤ ·))[
    Consensus.getRoundForWave wave 1 % committee.size]?

/-- The leaders of the waves of a run: the vertices of the waves' first rounds by the leading
keys. -/
def History.schedule (hU : History committee U) (hslots : SlotsUnique U) :
    (hU.graph hslots).Schedule where
  isLeader w x := x ∈ U ∧ x.round = 4 * w - 3 ∧ leaderKey committee w = some x.owner
  firstRound w := 4 * w - 3
  strictMono := strictMono_nat_of_lt_succ fun n => by omega
  round_eq h := h.2.1
  unique h h' := hslots _ h.1 _ h'.1 (h.2.1.trans h'.2.1.symm)
    (Option.some.inj (h.2.2.symm.trans h'.2.2))

end Network

/-! ## The walk of a node -/

namespace Consensus

variable {committee : Committee} {U : List Vertex} (hU : History committee U)
  (hslots : SlotsUnique U) {c : Consensus} {w n : ℕ} {l x : Vertex}

/-- A node finds exactly the leaders that its DAG holds. -/
lemma sees_leaders (hc : c.committee = committee) (hg : c.state.dag.ViewOf U)
    (hn : n ≤ 2 ^ 30) :
    CausalGraph.Sees (hU.schedule hslots) {v | v ∈ c.state.dag.vertices}
      c.getWaveVertexLeader n := by
  intro k h1 hk x
  have hround := Consensus.getRoundForWave_eq h1 (hk.trans hn) 1
  have hkey : c.getWaveLeader k = leaderKey committee k := by
    rw [← hc]
    rfl
  rw [getWaveVertexLeader_eq_some_iff hg.wellSlotted, hkey, hround]
  constructor
  · intro h
    obtain ⟨hx, hr, hkey⟩ := h
    exact ⟨⟨hg.stored x hx, by omega, hkey⟩, hx⟩
  · intro h
    obtain ⟨⟨-, hr, hkey⟩, hx⟩ := h
    have hr : x.round = 4 * k - 3 := hr
    exact ⟨hx, by omega, hkey⟩

/-- **The code's walk is the walk in the graph**, whatever was committed before it.

**Proof sketch.** Induction on the wave: the search that decides whether to move computes
reachability (`Dag.ViewOf.isLinked_computes`). -/
theorem leaderWalk_computes (hg : c.state.dag.ViewOf U) (hl : l ∈ c.state.dag.vertices)
    (before : List Vertex) :
    Fuel.Computes (fun fuel => leaderWalk fuel c w l (before ++ [l]))
      (before ++ (hU.graph hslots).chain c.getWaveVertexLeader w l) := by
  classical
  induction w generalizing l before with
  | zero => exact Fuel.Computes.pure _
  | succ w ih =>
    cases hlead : c.getWaveVertexLeader (w + 1) with
    | none =>
      have hskip : ∀ x, c.getWaveVertexLeader (w + 1) = some x →
          ¬ (hU.graph hslots).Reaches l x := fun x hx => by simp [hlead] at hx
      rw [CausalGraph.chain_skip hskip]
      simp only [leaderWalk, hlead]
      exact ih hl before
    | some x =>
      have hx : x ∈ c.state.dag.vertices :=
        ((getWaveVertexLeader_eq_some_iff hg.wellSlotted).mp hlead).1
      simp only [leaderWalk, hlead]
      refine (hg.isLinked_computes hU hslots hl hx).bind (g := fun fuel linked =>
        if linked = true then leaderWalk fuel c w x (before ++ [l] ++ [x])
        else leaderWalk fuel c w l (before ++ [l])) ?_
      by_cases hreach : (hU.graph hslots).Reaches l x
      · rw [CausalGraph.chain_move hlead hreach, decide_eq_true hreach]
        rw [show before ++ l :: (hU.graph hslots).chain c.getWaveVertexLeader w x =
          before ++ [l] ++ (hU.graph hslots).chain c.getWaveVertexLeader w x by simp]
        exact ih hx (before ++ [l])
      · have hskip : ∀ y, c.getWaveVertexLeader (w + 1) = some y →
            ¬ (hU.graph hslots).Reaches l y := by
          intro y hy
          rw [hlead, Option.some.injEq] at hy
          exact hy ▸ hreach
        rw [CausalGraph.chain_skip hskip, decide_eq_false hreach]
        exact ih hl before

/-- **The committed leaders are the chain in the graph.** -/
theorem getLeadersToCommit_computes (hg : c.state.dag.ViewOf U)
    (hl : l ∈ c.state.dag.vertices) :
    Fuel.Computes (fun fuel => c.getLeadersToCommit fuel w l)
      ((hU.graph hslots).chain c.getWaveVertexLeader w l) :=
  leaderWalk_computes hU hslots hg hl []

/-- **A leader that passes the quorum check is supported**: everything in rounds after its wave
descends from it.

**Proof sketch.** The supporters are a quorum of vertices of the last round of the wave by
distinct owners, and the leader is an ancestor of each
(`CausalGraph.Quorate.support_spreads`). -/
theorem support_spreads {fuel : ℕ} (hq : c.state.dag.minQuorum = committee.quorumThreshold)
    (hg : c.state.dag.ViewOf U) (hl : l ∈ c.state.dag.vertices) {r : ℕ}
    (h : c.state.dag.isLinkedWithOthersInRound fuel l r = some true) {v : Vertex}
    (hv : v ∈ U) (hr : r < v.round) : (hU.graph hslots).Reaches v l := by
  classical
  have hpos : 0 < c.state.dag.minQuorum := by
    rw [hq]
    exact Nat.succ_pos _
  obtain ⟨m, hm, hcard⟩ := supporters_of_isLinkedWithOthersInRound hpos h
  have hnodup : (supporters fuel c.state.dag m l).Nodup :=
    (List.Nodup.of_map _ (hg.wellSlotted.nodup_owners hm)).filter _
  refine (hU.quorate hslots).support_spreads (Q := (supporters fuel c.state.dag m l).toFinset)
    ?_ (fun u hu => ?_) hv hr
  · rw [List.toFinset_card_of_nodup hnodup, ← hq]
    exact hcard
  · rw [List.mem_toFinset] at hu
    obtain ⟨hum, hlinked⟩ := List.mem_filter.mp hu
    obtain ⟨hstored, hround⟩ := (hg.wellSlotted.mem_values_iff hm).mp hum
    refine ⟨hg.stored u hstored, hround, ?_⟩
    have hanswer := (hg.isLinked_computes hU hslots hstored hl).unique fuel true
      (of_decide_eq_true hlinked)
    exact of_decide_eq_true hanswer.symm

end Consensus

/-! ## Agreement -/

/-- The wave's leader `l` is stored and passes the quorum check of `getOrderedVertices`. -/
def Node.Passes (nd : Node) (wave : ℕ) (l : Vertex) : Prop :=
  nd.consensus.getWaveVertexLeader wave = some l ∧
    ∃ fuel, nd.dag.isLinkedWithOthersInRound fuel l (Consensus.getRoundForWave wave MAX_WAVE) =
      some true

namespace Network

variable {P : Platform} {committee : Committee} {es : List NetworkEvent}
  {N S S' : Network} {A B : Node} {w w' : ℕ} {l l' : Vertex}

/-- The wave that a node calls is between `1` and `2^30`. -/
lemma wave_bounds {nodeId : NodePublicKey} (hb : A.Basic nodeId committee) (hw : A.NotWrapped)
    (hcall : A.CallsOrder w) : 1 ≤ w ∧ w < 2 ^ 30 := by
  obtain ⟨-, -, hlast, rfl⟩ := hcall
  have hr := Consensus.isLastRoundInWave_iff.mp hlast
  have hlt := hb.round_lt
  have hne : A.currentRound ≠ 0 := hw
  unfold MAX_WAVE
  omega

/-- The wave before, as the code computes it. -/
lemma previous_wave (h1 : 1 ≤ w) (h2 : w < 2 ^ 30) : (w + 2 ^ 32 - 1) % 2 ^ 32 = w - 1 := by
  omega

/-- **Nodes agree on the leaders they commit.** At two points of a run, let a node call
`getOrderedVertices` for wave `w` and pass its checks with the leader `l`, and a node call it
for a wave `w' ≥ w` with the leader `l'`. Both walks end, and the list of the second without
the leaders of later waves than `w` is the list of the first; in particular the second
commits `l`. The pointer `leader` of the walk is read as in `leaderWalk`.

**Proof sketch.** Both walks compute chains of one schedule in one causal graph, seen from two
views; the supporters of `l` spread it to all later rounds, so the chains agree below it
(`CausalGraph.chain_agree`). -/
theorem leaders_agree (h : IsRun P committee es N)
    (hround : Run.Throughout (step P) NotWrapped (init P committee) es)
    (hS : Run.Visits (step P) (init P committee) es S)
    (hS' : Run.Visits (step P) (init P committee) es S')
    (hA : A ∈ S.nodes) (hB : B ∈ S'.nodes)
    (hcallA : A.CallsOrder w) (hcallB : B.CallsOrder w') (hww : w ≤ w')
    (hpassA : A.Passes w l) (hpassB : B.Passes w' l') :
    ∃ LA LB, Fuel.Computes (fun fuel =>
        A.consensus.getLeadersToCommit fuel ((w + 2 ^ 32 - 1) % 2 ^ 32) l) LA ∧
      Fuel.Computes (fun fuel =>
        B.consensus.getLeadersToCommit fuel ((w' + 2 ^ 32 - 1) % 2 ^ 32) l') LB ∧
      LB.filter (fun x => x.round ≤ Consensus.getRoundForWave w 1) = LA ∧ l ∈ LB := by
  obtain ⟨hl, fuel, hsupport⟩ := hpassA
  obtain ⟨hl', -⟩ := hpassB
  have hU := h.history
  have hslots := h.slotsUnique hround
  have hviewA := h.viewOf hround hS hA
  have hviewB := h.viewOf hround hS' hB
  obtain ⟨idA, hbasicA⟩ := (h.honest hS hA).basic
  obtain ⟨idB, hbasicB⟩ := (h.honest hS' hB).basic
  obtain ⟨hw1, hw2⟩ := wave_bounds hbasicA (Run.throughout_iff_visits.mp hround S hS A hA) hcallA
  obtain ⟨hw1', hw2'⟩ :=
    wave_bounds hbasicB (Run.throughout_iff_visits.mp hround S' hS' B hB) hcallB
  have hseesA := Consensus.sees_leaders hU hslots hbasicA.committee_eq hviewA hw2.le
  have hseesB := Consensus.sees_leaders hU hslots hbasicB.committee_eq hviewB hw2'.le
  obtain ⟨hleader, hlA⟩ := (hseesA w hw1 le_rfl l).mp hl
  obtain ⟨hleader', hlB⟩ := (hseesB w' hw1' le_rfl l').mp hl'
  have hspread : ∀ v ∈ N.vertices P committee, 4 * (w + 1) - 3 ≤ v.round →
      (hU.graph hslots).Reaches v l := by
    intro v hv hr
    refine Consensus.support_spreads hU hslots hbasicA.minQuorum_eq hviewA hlA hsupport hv ?_
    rw [Consensus.getRoundForWave_eq hw1 hw2.le]
    unfold MAX_WAVE
    omega
  rw [previous_wave hw1 hw2, previous_wave hw1' hw2']
  refine ⟨_, _, Consensus.getLeadersToCommit_computes hU hslots hviewA hlA,
    Consensus.getLeadersToCommit_computes hU hslots hviewB hlB, ?_⟩
  have hagree := CausalGraph.chain_agree (hviewA.isView hU hslots) (hviewB.isView hU hslots)
    hseesA hseesB hleader hleader' hlA hlB hw1 hww le_rfl le_rfl hspread
  have hfirst : Consensus.getRoundForWave w 1 = 4 * w - 3 := by
    rw [Consensus.getRoundForWave_eq hw1 hw2.le]
    omega
  rw [hfirst]
  exact hagree

/-- A node of the network calls a wave and passes its checks. -/
def PassesAt (i wave : ℕ) (N : Network) : Prop :=
  ∃ A ∈ N.nodes[i]?, A.CallsOrder wave ∧ ∃ l ∈ A.consensus.getWaveVertexLeader wave,
    A.dag.isLinkedWithOthersInRound 100 l (Consensus.getRoundForWave wave MAX_WAVE) = some true

instance (i wave : ℕ) : DecidablePred (PassesAt i wave) := fun N =>
  inferInstanceAs (Decidable (∃ A ∈ N.nodes[i]?, A.CallsOrder wave ∧
    ∃ l ∈ A.consensus.getWaveVertexLeader wave,
      A.dag.isLinkedWithOthersInRound 100 l (Consensus.getRoundForWave wave MAX_WAVE) = some true))

/-- The first of four nodes at its first commit, and the second at its second commit. -/
theorem leaders_agree_four :
    ∃ (N S S' : Network) (A B : Node) (l l' : Vertex) (LA LB : List Vertex),
      IsRun Sample.platform Sample.four (Sample.toRound 9) N ∧
      S.nodes[0]? = some A ∧ S'.nodes[1]? = some B ∧ A.CallsOrder 1 ∧ B.CallsOrder 2 ∧
      A.consensus.getWaveVertexLeader 1 = some l ∧ B.consensus.getWaveVertexLeader 2 = some l' ∧
      Fuel.Computes (fun fuel =>
        A.consensus.getLeadersToCommit fuel ((1 + 2 ^ 32 - 1) % 2 ^ 32) l) LA ∧
      Fuel.Computes (fun fuel =>
        B.consensus.getLeadersToCommit fuel ((2 + 2 ^ 32 - 1) % 2 ^ 32) l') LB ∧
      LB.filter (fun x => x.round ≤ Consensus.getRoundForWave 1 1) = LA ∧ l ∈ LB := by
  obtain ⟨N, -, -, h, -⟩ := exists_isRun Sample.platform Sample.four (Sample.toRound 9) 0 1
    (fun _ _ => True) (by decide) (by decide +kernel)
  have hround : Run.Throughout (step Sample.platform) NotWrapped
      (init Sample.platform Sample.four) (Sample.toRound 9) := by
    decide +kernel
  obtain ⟨S, hS, hp⟩ : ∃ S, Run.exec (step Sample.platform) (init Sample.platform Sample.four)
      (Sample.toRoundFour ++ Sample.eventsAt 0 (Sample.passOf 4).dropLast) = some S ∧
        decide (PassesAt 0 1 S) = true :=
    Run.exists_exec_of_any (by decide +kernel)
  obtain ⟨S', hS', hp'⟩ : ∃ S', Run.exec (step Sample.platform)
      (init Sample.platform Sample.four) Sample.toSecondCommit = some S' ∧
        decide (PassesAt 1 2 S') = true :=
    Run.exists_exec_of_any (by decide +kernel)
  obtain ⟨A, hA, hcallA, l, hl, hsupport⟩ := of_decide_eq_true hp
  obtain ⟨B, hB, hcallB, l', hl', hsupport'⟩ := of_decide_eq_true hp'
  obtain ⟨LA, LB, hagree⟩ := leaders_agree h hround ⟨_, by decide +kernel, hS⟩
    ⟨_, by decide +kernel, hS'⟩ (List.mem_of_getElem? hA) (List.mem_of_getElem? hB) hcallA hcallB
    (by decide) ⟨hl, 100, hsupport⟩ ⟨hl', 100, hsupport'⟩
  exact ⟨N, S, S', A, B, l, l', LA, LB, h, hA, hB, hcallA, hcallB, hl, hl', hagree⟩

end Network

end DagRider
