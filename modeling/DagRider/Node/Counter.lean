import DagRider.Search.Progress

set_option relaxedAutoImplicit false
set_option autoImplicit false

/-!
# The width of the round counter

Rounds are `uint64_t`, and the counter of `State` is a `uint32_t`. As long as no pass advances
from round `2^32 - 1`, rounds go up and the rounds of the waves are computed without a wrap-around.
From round `2^32 - 1` the node goes on to round `0` and calls wave `0`, and a committee of one gets
there.

## Main definitions

* `DagRider.Node.RoundGrows`, `DagRider.Node.ExactWaves` — the counter goes up; the arithmetic
  of the waves is exact.
* `DagRider.Node.OwnChain` — a node that has received its own vertices only.

## Main results

* `DagRider.Node.round_grows_iff` — when neither counters nor waves wrap.
* `DagRider.Node.round_wraps` — a run on which both do.
-/

namespace DagRider

namespace Node

variable {P : Platform} {nodeId : NodePublicKey} {committee : Committee}
  {es : List NodeEvent} {nd nd' : Node} {e : NodeEvent}

/-- If the node advances, its round goes up. -/
def RoundGrows (P : Platform) (nd : Node) (e : NodeEvent) : Prop :=
  nd.Advances e → ∀ nd' ∈ nd.step P e, nd.currentRound < nd'.currentRound

/-- If the node is about to call a wave, it is a wave from `1` on and ends with the current round,
and each wave up to it begins with the round that it has in exact arithmetic. -/
def ExactWaves (nd : Node) : Prop :=
  ∀ wave, nd.CallsOrder wave →
    1 ≤ wave ∧ Consensus.getRoundForWave wave MAX_WAVE = nd.currentRound ∧
      ∀ v, 1 ≤ v → v ≤ wave → Consensus.getRoundForWave v 1 = 4 * (v - 1) + 1

/-! ## Below the last round -/

/-- The arithmetic of the waves is exact for every round from `1` on. -/
lemma exactWaves_of_notWrapped (hlt : nd.currentRound < 2 ^ 32) (hne : NotWrapped nd) :
    ExactWaves nd := by
  unfold NotWrapped at hne
  rintro wave ⟨-, -, hlast, rfl⟩
  have hr := Consensus.isLastRoundInWave_iff.mp hlast
  have h1 : 1 ≤ nd.currentRound / MAX_WAVE := by
    unfold MAX_WAVE
    omega
  have h2 : nd.currentRound / MAX_WAVE ≤ 2 ^ 30 := by
    unfold MAX_WAVE
    omega
  refine ⟨h1, ?_, fun v hv1 hv2 => ?_⟩
  · rw [Consensus.getRoundForWave_eq h1 h2]
    unfold MAX_WAVE
    omega
  · rw [Consensus.getRoundForWave_eq hv1 (hv2.trans h2)]
    omega

/-- **When neither the rounds nor the waves wrap.** In every run of a node, whatever it receives and
however long it is: each pass that advances ends in a higher round, and whenever a wave is called it
is a wave from `1` on whose last round is the current one, and every wave up to it begins with the
round `4 (v - 1) + 1`; if and only if no pass advances from round `2^32 - 1`.

**Proof sketch.** A step from a lower round keeps the counter away from `0` (`notWrapped_step`), and
a wave of a 32-bit round is at most `2^30`. A pass that advances from the last round ends in round
`0`. -/
theorem round_grows_iff (h : run P nodeId committee es = some nd) :
    (Run.Along (step P) (RoundGrows P) (init P nodeId committee) es ∧
      Run.Throughout (step P) ExactWaves (init P nodeId committee) es) ↔
    Run.Along (step P) (fun nd e => ¬ (nd.Advances e ∧ nd.currentRound = 2 ^ 32 - 1))
      (init P nodeId committee) es := by
  constructor
  · rintro ⟨hgrows, -⟩
    refine Run.along_iff.mpr fun p e s hp hs hlast => ?_
    obtain ⟨hadv, hround⟩ := hlast
    obtain ⟨s', -, -, hstep, -⟩ := Run.step_of_exec h hp hs
    have hlt := Run.along_iff.mp hgrows p e s hp hs hadv s' hstep
    rw [(next_of_advances hadv hstep).1, hround] at hlt
    exact absurd hlt (Nat.not_lt.mpr (Nat.le_of_lt_succ (Nat.mod_lt _ (Nat.two_pow_pos 32))))
  · intro hrun
    have hwrap := notWrapped_of_along hrun
    constructor
    · refine Run.along_iff.mpr fun p e s hp hs hadv s' hstep => ?_
      have hs' : run P nodeId committee (p ++ [e]) = some s' :=
        Run.exec_concat_eq_some.mpr ⟨s, hs, hstep⟩
      have hne : NotWrapped s' := (hwrap.mono hp).last hs'
      have hnext : s'.currentRound = s.consensus.nextRound := (next_of_advances hadv hstep).1
      unfold NotWrapped at hne
      rw [hnext] at hne ⊢
      rw [nextRound_eq (basic hs).round_lt hne]
      exact Nat.lt_succ_self _
    · refine Run.throughout_iff_visits.mpr fun s hs => ?_
      have hne := Run.throughout_iff_visits.mp hwrap s hs
      obtain ⟨p, -, hs⟩ := hs
      exact exactWaves_of_notWrapped (basic hs).round_lt hne

/-- The node of the committee of one, on its way through two waves. -/
theorem round_grows_iff_single :
    ∃ nd, run Sample.platform 1 Sample.single (Sample.upTo 9) = some nd ∧ nd.currentRound = 9 ∧
      Run.Along (step Sample.platform) (RoundGrows Sample.platform)
        (init Sample.platform 1 Sample.single) (Sample.upTo 9) ∧
      Run.Throughout (step Sample.platform) ExactWaves
        (init Sample.platform 1 Sample.single) (Sample.upTo 9) := by
  have hrounds : Run.Throughout (step Sample.platform) (fun nd => nd.currentRound ≠ 2 ^ 32 - 1)
      (init Sample.platform 1 Sample.single) (Sample.upTo 9) := by decide +kernel
  obtain ⟨nd, hnd, hr⟩ : ∃ nd, run Sample.platform 1 Sample.single (Sample.upTo 9) = some nd ∧
      decide (nd.currentRound = 9) = true := Run.exists_exec_of_any (by decide +kernel)
  refine ⟨nd, hnd, of_decide_eq_true hr, (round_grows_iff hnd).mpr ?_⟩
  exact hrounds.along fun _ e s _ _ hne hlast => hne hlast.2

/-! ## A committee of one

It takes one vertex to make a quorum, so the node goes through all rounds on its own. -/

/-- Passes in which the node of the committee of one receives its own vertices, one each, with one
block; the latest bound for the searches comes first. -/
def ownPasses : List ℕ → List NodeEvent
  | [] => Sample.pass []
  | fuel :: fuels => ownPasses fuels ++
    NodeEvent.pass [Sample.vertex (fuels.length + 2) [1] 1] [Block.default] fuel

/-- What a node that has received its own vertices is like before a pass. -/
structure OwnChain (nd : Node) : Prop where
  phase : nd.phase = .drain
  /-- The vertex of the round below the current one is stored. -/
  parent : ∃ u ∈ nd.dag.vertices, u.hash = Sample.hash (nd.currentRound - 1) 1 0 ∧
    u.round = nd.currentRound - 1
  lower : ∀ v ∈ nd.dag.vertices, ∀ e ∈ v.parents.entries, e.2 < v.round

/-- Where one vertex is enough, the round of a vertex just stored has a quorum. -/
lemma isQuorumReached_insertVertex {g : Dag} (hquorum : g.minQuorum ≤ 1) (v : Vertex) :
    (g.insertVertex P v).isQuorumReachedForRound v.round = true := by
  unfold Dag.insertVertex Dag.isQuorumReachedForRound
  simp only [OrderedMap.find?_set_self, decide_eq_true_eq]
  refine hquorum.trans ?_
  have hmem := UnorderedMap.find?_eq_some_iff.mp (UnorderedMap.find?_set_self (L := P.layout)
    (m := (g.graph.find? v.round).getD UnorderedMap.empty) (k := v.owner) (v := v))
  exact List.length_pos_of_mem hmem

/-- A vertex of the current round whose parents are stored is admitted, and the pass can advance,
where one vertex is enough for a quorum. -/
lemma exists_admitted {v : Vertex} (hphase : nd.phase = .drain) (hquorum : nd.dag.minQuorum ≤ 1)
    (hround : v.round = nd.currentRound) (hparents : nd.dag.containsVertices v.parents = true) :
    ∃ nd', Run.exec (step P) nd [.drain [v] [Block.default], .scan] = some nd' ∧ nd'.ScanDone ∧
      nd'.consensus.canAdvance = true ∧ nd'.currentRound = nd.currentRound ∧
      nd'.dag = nd.dag.insertVertex P v := by
  set c : Consensus := { nd.consensus with
    blocksToPropose := nd.consensus.blocksToPropose ++ [Block.default] } with hc
  have hadm : c.isAdmissible v = true := by
    unfold Consensus.isAdmissible
    rw [Bool.and_eq_true, decide_eq_true_eq]
    exact ⟨hround.le, hparents⟩
  have hscan : c.scanVertex P v =
      { c with state := { c.state with dag := c.state.dag.insertVertex P v } } := by
    rcases Consensus.scanVertex_cases P c v with ⟨-, hscan⟩ | ⟨hnot, -⟩
    · exact hscan
    · rw [hadm] at hnot
      cases hnot
  have hcan : (c.scanVertex P v).canAdvance = true := by
    rw [hscan]
    unfold Consensus.canAdvance
    rw [Bool.and_eq_true]
    refine ⟨by simp [hc], ?_⟩
    show (nd.dag.insertVertex P v).isQuorumReachedForRound nd.currentRound = true
    rw [← hround]
    exact isQuorumReached_insertVertex hquorum v
  refine ⟨⟨c.scanVertex P v, [], .scan⟩, ?_, ⟨rfl, rfl⟩, hcan, ?_, ?_⟩
  · simp only [Run.exec, step, hphase, if_true, Option.bind_some, hc]
  · show (c.scanVertex P v).state.currentRound = nd.currentRound
    rw [hscan]
  · show (c.scanVertex P v).state.dag = nd.dag.insertVertex P v
    rw [hscan]

/-- The vertices of the node have one parent each, the one before them. -/
lemma mem_parents_own {r : ℕ} {e : VertexHash × ℕ} :
    e ∈ (Sample.vertex r [1] 1).parents.entries ↔ e = (Sample.hash (r - 1) 1 0, r - 1) :=
  List.mem_singleton

/-- **One more pass.** A node that has received its own vertices receives its vertex of the current
round, and advances.

**Proof sketch.** The vertex is admitted, as its parent is stored (`exists_admitted`). All parents
are in lower rounds, so there are no cycles and the pass ends (`exists_finish`). -/
lemma OwnChain.exists_pass (hI : OwnChain nd) (h2 : 2 ≤ nd.currentRound)
    (h : run Sample.platform 1 Sample.single es = some nd) :
    ∃ fuel s nd', Run.exec (step Sample.platform) nd
        [.drain [Sample.vertex nd.currentRound [1] 1] [Block.default], .scan] = some s ∧
      s.currentRound = nd.currentRound ∧ s.Advances (.finish fuel) ∧
      s.step Sample.platform (.finish fuel) = some nd' ∧
      (nd.currentRound < 2 ^ 32 - 1 → OwnChain nd' ∧ nd'.currentRound = nd.currentRound + 1) := by
  have hbasic := basic h
  have hslot := hbasic.wellSlotted
  set v := Sample.vertex nd.currentRound [1] 1
  have hround : v.round = nd.currentRound := rfl
  have hparents : nd.dag.containsVertices v.parents = true := by
    refine hslot.containsVertices_iff.mpr fun e he => ?_
    rw [mem_parents_own.mp he]
    exact hI.parent
  obtain ⟨s, hs, hdone, hcan, hsround, hsdag⟩ :=
    exists_admitted (P := Sample.platform) hI.phase hbasic.minQuorum_eq.le hround hparents
  have hmem : ∀ u ∈ s.dag.vertices, u = v ∨ u ∈ nd.dag.vertices := by
    intro u hu
    rw [hsdag] at hu
    exact ((Dag.mem_insertVertex hslot).mp hu).imp_right And.left
  have hlower : ∀ u ∈ s.dag.vertices, ∀ e ∈ u.parents.entries, e.2 < u.round := by
    intro u hu e he
    rcases hmem u hu with rfl | hu
    · rw [mem_parents_own.mp he]
      show nd.currentRound - 1 < nd.currentRound
      omega
    · exact hI.lower u hu e he
  have hsslot : s.dag.WellSlotted := by
    rw [hsdag]
    exact hslot.insertVertex
  obtain ⟨fuel, nd', hstep⟩ :=
    exists_finish (P := Sample.platform) (Dag.acyclic_of_lower hlower) hsslot hdone
  have hadv : s.Advances (.finish fuel) := ⟨⟨fuel, rfl⟩, hcan⟩
  refine ⟨fuel, s, nd', hs, hsround, hadv, hstep, fun hlt => ?_⟩
  obtain ⟨hnext, hdag, hphase⟩ := next_of_advances hadv hstep
  have hsucc : s.consensus.nextRound = nd.currentRound + 1 := by
    show (s.currentRound + 1) % 2 ^ 32 = nd.currentRound + 1
    rw [hsround]
    omega
  rw [hsucc] at hnext
  refine ⟨⟨hphase, ?_, ?_⟩, hnext⟩
  · rw [hdag, hsdag, hnext]
    exact ⟨v, (Dag.mem_insertVertex hslot).mpr (Or.inl rfl), rfl, rfl⟩
  · rw [hdag]
    exact hlower

/-- The events of one more pass. -/
lemma ownPasses_cons (fuel : ℕ) (fuels : List ℕ) :
    ownPasses (fuel :: fuels) = ownPasses fuels ++
      ([.drain [Sample.vertex (fuels.length + 2) [1] 1] [Block.default], .scan] ++
        [.finish fuel]) := rfl

/-- **Every round is reached**, by induction on the number of passes. -/
lemma exists_ownPasses (n : ℕ) (hn : n + 2 < 2 ^ 32) :
    ∃ fuels nd, fuels.length = n ∧
      run Sample.platform 1 Sample.single (ownPasses fuels) = some nd ∧ OwnChain nd ∧
      nd.currentRound = n + 2 := by
  induction n with
  | zero =>
    obtain ⟨nd, hnd, hp⟩ : ∃ nd, run Sample.platform 1 Sample.single (ownPasses []) = some nd ∧
        decide (nd.phase = .drain ∧ (∃ u ∈ nd.dag.vertices,
          u.hash = Sample.hash (nd.currentRound - 1) 1 0 ∧ u.round = nd.currentRound - 1) ∧
          (∀ v ∈ nd.dag.vertices, ∀ e ∈ v.parents.entries, e.2 < v.round) ∧
          nd.currentRound = 2) = true := Run.exists_exec_of_any (by decide +kernel)
    obtain ⟨hphase, hparent, hlower, hround⟩ := of_decide_eq_true hp
    exact ⟨[], nd, rfl, hnd, ⟨hphase, hparent, hlower⟩, hround⟩
  | succ n ih =>
    obtain ⟨fuels, nd, rfl, hnd, hI, hround⟩ := ih (by omega)
    obtain ⟨fuel, s, nd', hs, -, -, hstep, hnext⟩ := hI.exists_pass (by omega) hnd
    obtain ⟨hI', hround'⟩ := hnext (by omega)
    rw [hround] at hs hround'
    refine ⟨fuel :: fuels, nd', rfl, ?_, hI', by omega⟩
    rw [ownPasses_cons]
    refine Run.exec_append_eq_some.mpr ⟨nd, hnd, ?_⟩
    exact Run.exec_concat_eq_some.mpr ⟨s, hs, hstep⟩

/-- **The counter wraps.** After `2^32 - 1` passes in which it receives its own vertices, the node
of the committee of one has advanced from round `2^32 - 1` to round `0`; with a vertex of round `0`
it then calls wave `0`. -/
theorem round_wraps :
    ∃ fuels nd, fuels.length = 2 ^ 32 - 2 ∧
      run Sample.platform 1 Sample.single (ownPasses fuels) = some nd ∧ nd.currentRound = 0 ∧
      ¬ Run.Along (step Sample.platform) (RoundGrows Sample.platform)
        (init Sample.platform 1 Sample.single) (ownPasses fuels) ∧
      ∃ t, run Sample.platform 1 Sample.single (ownPasses fuels ++
          [.drain [Sample.vertex 0 [] 1] [Block.default], .scan]) = some t ∧
        t.CallsOrder 0 ∧ ¬ ExactWaves t := by
  obtain ⟨fuels, nd, hlen, hnd, hI, hround⟩ := exists_ownPasses (2 ^ 32 - 3) (by omega)
  have hlast : nd.currentRound = 2 ^ 32 - 1 := by omega
  obtain ⟨fuel, s, nd', hs, hsround, hadv, hstep, -⟩ := hI.exists_pass (by omega) hnd
  obtain ⟨hnext, -, hphase⟩ := next_of_advances hadv hstep
  have hzero : nd'.currentRound = 0 := by
    rw [hnext]
    show (s.currentRound + 1) % 2 ^ 32 = 0
    omega
  rw [hround, ← hlen] at hs
  have hs' := Run.exec_append_eq_some.mpr ⟨nd, hnd, hs⟩
  have hnd' : run Sample.platform 1 Sample.single (ownPasses (fuel :: fuels)) = some nd' := by
    rw [ownPasses_cons, ← List.append_assoc]
    exact Run.exec_concat_eq_some.mpr ⟨s, hs', hstep⟩
  have hlength : (fuel :: fuels).length = 2 ^ 32 - 2 := by
    rw [List.length_cons, hlen]
    omega
  refine ⟨fuel :: fuels, nd', hlength, hnd', hzero, ?_, ?_⟩
  · intro hgrows
    rw [ownPasses_cons, ← List.append_assoc] at hgrows
    have hlt := hgrows.last hs' hadv nd' hstep
    rw [hzero] at hlt
    exact Nat.not_lt_zero _ hlt
  · have hbasic := basic hnd'
    obtain ⟨t, ht, hdone, hcan, htround, -⟩ := exists_admitted (P := Sample.platform)
      (v := Sample.vertex 0 [] 1) hphase hbasic.minQuorum_eq.le hzero.symm rfl
    have hcalls : t.CallsOrder 0 := by
      unfold CallsOrder
      rw [htround, hzero]
      exact ⟨hdone, hcan, rfl, rfl⟩
    refine ⟨t, Run.exec_append_eq_some.mpr ⟨nd', hnd', ht⟩, hcalls, fun hexact => ?_⟩
    exact Nat.not_succ_le_zero 0 (hexact 0 hcalls).1

end Node

end DagRider
