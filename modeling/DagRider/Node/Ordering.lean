import DagRider.Node.Membership
import DagRider.Search.Reachability

set_option relaxedAutoImplicit false
set_option autoImplicit false

/-!
# What a commit sends

`orderVertices` keeps a set of delivered hashes for one call only, and the walk over the
leaders runs down to the first wave in every call. Inside one call no hash is listed twice;
over a run a hash can be sent again when the walk comes back to a decided wave.

## Main definitions

* `DagRider.Consensus.LeaderLink` — one move of the leader walk.
* `DagRider.Node.FreshCommit` — a commit whose walk stays above the last decided wave, where
  no hash sent before is stored.

## Main results

* `DagRider.Consensus.orderVertices_spec` — what one call lists.
* `DagRider.Node.sent_once` — no hash is sent twice in a run of fresh commits.
-/

namespace DagRider

namespace Consensus

open Relation

variable {fuel : ℕ} {g : Dag} {c : Consensus}

/-! ## One call of `orderVertices` -/

/-- A fold over the lists of a list is a fold of folds. -/
lemma foldlM_flatMap {α β γ : Type*} (f : β → γ → Option β) (k : α → List γ) (l : List α)
    (b : β) : (l.flatMap k).foldlM f b = l.foldlM (fun b a => (k a).foldlM f b) b := by
  induction l generalizing b with
  | nil => rfl
  | cons a l ih =>
    rw [List.flatMap_cons, List.foldlM_append, List.foldlM_cons]
    congr 1
    funext b'
    exact ih b'

/-- The pairs of a leader and a stored vertex, in the order `orderVertices` visits them. -/
def visits (g : Dag) (leaders : List Vertex) : List (Vertex × Vertex) :=
  leaders.reverse.flatMap fun leader => g.vertices.map fun v => (leader, v)

/-- The pairs are all those of a leader and a stored vertex. -/
lemma mem_visits {leaders : List Vertex} {p : Vertex × Vertex} :
    p ∈ visits g leaders ↔ p.1 ∈ leaders ∧ p.2 ∈ g.vertices := by
  obtain ⟨l, v⟩ := p
  simp [visits]

/-- A vertex of round `0` is linked to nothing. -/
lemma orderVertex_of_round_zero {leader v : Vertex} (h : v.round = 0) (o : Ordered) :
    orderVertex fuel g leader o v = some o := by
  have hlinked : g.isLinked fuel v leader = some false := by
    unfold Dag.isLinked Dag.isLinkedInternal
    rw [h]
    exact if_neg (Nat.not_lt_zero _)
  unfold orderVertex
  rw [hlinked]
  split_ifs <;> rfl

/-- The loop over the graph for one leader visits every stored vertex; that it leaves out the
round `0` makes no difference. -/
lemma orderLeader_eq (hg : g.WellSlotted) (o : Ordered) (leader : Vertex) :
    orderLeader fuel g o leader = g.vertices.foldlM (orderVertex fuel g leader) o := by
  have hzero : ∀ (vs : List Vertex) (o : Ordered), (∀ v ∈ vs, v.round = 0) →
      vs.foldlM (orderVertex fuel g leader) o = some o := by
    intro vs o hvs
    induction vs with
    | nil => rfl
    | cons v vs ih =>
      rw [List.foldlM_cons, orderVertex_of_round_zero (hvs v (by simp))]
      exact ih fun u hu => hvs u (by simp [hu])
  have key : ∀ (es : List (ℕ × RoundMap)) (o : Ordered), (∀ e ∈ es, e ∈ g.graph.entries) →
      es.foldlM (fun o e => if e.1 > 0 then e.2.values.foldlM (orderVertex fuel g leader) o
        else some o) o =
      es.foldlM (fun o e => e.2.values.foldlM (orderVertex fuel g leader) o) o := by
    intro es
    induction es with
    | nil => exact fun o _ => rfl
    | cons e es ih =>
      intro o hes
      rw [List.foldlM_cons, List.foldlM_cons]
      have hhead : (if e.1 > 0 then e.2.values.foldlM (orderVertex fuel g leader) o
          else some o) = e.2.values.foldlM (orderVertex fuel g leader) o := by
        split_ifs with hpos
        · rfl
        · refine (hzero e.2.values o fun v hv => ?_).symm
          obtain ⟨k, hk⟩ := UnorderedMap.mem_values.mp hv
          have hround := (hg e.1 e.2 (hes e (by simp)) k v hk).1
          omega
      rw [hhead]
      congr 1
      funext o'
      exact ih o' fun e' he' => hes e' (by simp [he'])
  unfold orderLeader Dag.vertices
  rw [foldlM_flatMap]
  exact key g.graph.entries o fun e he => he

/-- `orderVertices` is one fold over the pairs of leaders and stored vertices. -/
lemma orderVertices_eq (hg : g.WellSlotted) (leaders : List Vertex) :
    orderVertices fuel g leaders = ((visits g leaders).foldlM
      (fun o p => orderVertex fuel g p.1 o p.2) ⟨[], []⟩).map Ordered.orderedVertices := by
  have hleader : orderLeader fuel g = fun o leader =>
      (g.vertices.map fun v => (leader, v)).foldlM (fun o p => orderVertex fuel g p.1 o p.2) o := by
    funext o leader
    rw [orderLeader_eq hg, List.foldlM_map]
  unfold orderVertices visits
  rw [foldlM_flatMap, hleader]
  exact Option.map_eq_bind.symm

/-- What is ordered after the pairs `ps`: stored vertices linked to a leader, one for each
hash. -/
structure Ordered.Lists (fuel : ℕ) (g : Dag) (ps : List (Vertex × Vertex)) (o : Ordered) :
    Prop where
  nodup : (o.orderedVertices.map Vertex.hash).Nodup
  delivered : ∀ h, h ∈ o.deliveredVertices ↔ h ∈ o.orderedVertices.map Vertex.hash
  linked : ∀ v ∈ o.orderedVertices, ∃ l, (l, v) ∈ ps ∧ g.isLinked fuel v l = some true
  complete : ∀ p ∈ ps, g.isLinked fuel p.2 p.1 = some true →
    p.2.hash ∈ o.orderedVertices.map Vertex.hash

/-- One turn of the innermost loop: nothing, or the vertex is listed because it is linked and
its hash is new. -/
lemma orderVertex_cases {o o' : Ordered} {leader v : Vertex}
    (h : orderVertex fuel g leader o v = some o') :
    (o' = o ∧ (v.hash ∈ o.deliveredVertices ∨ g.isLinked fuel v leader = some false)) ∨
    (v.hash ∉ o.deliveredVertices ∧ g.isLinked fuel v leader = some true ∧
      o' = ⟨o.orderedVertices ++ [v], o.deliveredVertices.insert v.hash⟩) := by
  unfold orderVertex at h
  split_ifs at h with hmem
  · exact Or.inl ⟨(Option.some.inj h).symm, Or.inl hmem⟩
  · obtain ⟨linked, hlinked, h⟩ := Option.bind_eq_some_iff.mp h
    cases linked with
    | false => exact Or.inl ⟨(Option.some.inj h).symm, Or.inr hlinked⟩
    | true => exact Or.inr ⟨hmem, hlinked, (Option.some.inj h).symm⟩

/-- **One turn of the innermost loop keeps `Ordered.Lists`.** -/
lemma Ordered.Lists.turn {ps : List (Vertex × Vertex)} {o o' : Ordered} {p : Vertex × Vertex}
    (ho : Ordered.Lists fuel g ps o) (hturn : orderVertex fuel g p.1 o p.2 = some o') :
    Ordered.Lists fuel g (ps ++ [p]) o' := by
  rcases orderVertex_cases hturn with ⟨rfl, hskip⟩ | ⟨hnew, hlinked, rfl⟩
  · refine ⟨ho.nodup, ho.delivered, ?_, ?_⟩
    · intro v hv
      obtain ⟨l, hl, hlinked⟩ := ho.linked v hv
      exact ⟨l, List.mem_append_left _ hl, hlinked⟩
    · intro q hq hlinked
      rcases List.mem_append.mp hq with hq | hq
      · exact ho.complete q hq hlinked
      · obtain rfl := List.mem_singleton.mp hq
        rcases hskip with hmem | hnot
        · exact (ho.delivered _).mp hmem
        · rw [hnot] at hlinked
          exact absurd hlinked (by simp)
  · refine ⟨?_, ?_, ?_, ?_⟩
    · rw [List.map_append, List.map_singleton, List.nodup_append]
      refine ⟨ho.nodup, List.nodup_singleton _, fun a ha b hb hab => hnew ?_⟩
      rw [ho.delivered, ← List.mem_singleton.mp hb, ← hab]
      exact ha
    · intro h
      rw [List.mem_insert_iff, ho.delivered, List.map_append, List.mem_append,
        List.map_singleton, List.mem_singleton]
      exact or_comm
    · intro v hv
      rcases List.mem_append.mp hv with hv | hv
      · obtain ⟨l, hl, hlinked⟩ := ho.linked v hv
        exact ⟨l, List.mem_append_left _ hl, hlinked⟩
      · obtain rfl := List.mem_singleton.mp hv
        exact ⟨p.1, List.mem_append_right _ (List.mem_singleton_self _), hlinked⟩
    · intro q hq hlinked
      rw [List.map_append, List.mem_append]
      rcases List.mem_append.mp hq with hq | hq
      · exact Or.inl (ho.complete q hq hlinked)
      · obtain rfl := List.mem_singleton.mp hq
        exact Or.inr (List.mem_map_of_mem (List.mem_singleton_self _))

/-- **All turns keep `Ordered.Lists`.** -/
lemma Ordered.Lists.of_foldlM {ps : List (Vertex × Vertex)} {o : Ordered}
    (h : ps.foldlM (fun o p => orderVertex fuel g p.1 o p.2) ⟨[], []⟩ = some o) :
    Ordered.Lists fuel g ps o := by
  rw [← Run.exec_eq_foldlM] at h
  refine Run.history_induction (J := fun ps o => Ordered.Lists fuel g ps o) ?_ ?_ h
  · exact ⟨List.nodup_nil, fun _ => Iff.rfl, by simp, by simp⟩
  · exact fun ps o p o' _ ih hturn => ih.turn hturn

/-- **What one call of `orderVertices` lists.** No hash twice; only stored vertices that are
linked to a committed leader; and the hash of each of those.

**Proof sketch.** The call is one fold over the pairs visited (`orderVertices_eq`), whose turns keep
`Ordered.Lists`. -/
theorem orderVertices_spec (hg : g.WellSlotted) {leaders out : List Vertex}
    (h : orderVertices fuel g leaders = some out) :
    (out.map Vertex.hash).Nodup ∧
    (∀ v ∈ out, v ∈ g.vertices ∧ ∃ l ∈ leaders, g.isLinked fuel v l = some true) ∧
    ∀ v ∈ g.vertices, ∀ l ∈ leaders, g.isLinked fuel v l = some true →
      v.hash ∈ out.map Vertex.hash := by
  rw [orderVertices_eq hg] at h
  obtain ⟨o, ho, rfl⟩ := Option.map_eq_some_iff.mp h
  have hlists := Ordered.Lists.of_foldlM ho
  refine ⟨hlists.nodup, fun v hv => ?_, fun v hv l hl hlinked => ?_⟩
  · obtain ⟨l, hl, hlinked⟩ := hlists.linked v hv
    obtain ⟨hl, hv⟩ := mem_visits.mp hl
    exact ⟨hv, l, hl, hlinked⟩
  · exact hlists.complete (l, v) (mem_visits.mpr ⟨hl, hv⟩) hlinked

/-! ## Supporters -/

/-- The vertices of a round that are linked to a vertex. -/
def supporters (fuel : ℕ) (g : Dag) (m : RoundMap) (leader : Vertex) : List Vertex :=
  m.values.filter fun v => g.isLinked fuel v leader = some true

/-- The counter of `isLinkedWithOthersInRound` never exceeds the number of supporters; it may
fall below it by wrapping around. -/
lemma weight_le {leader : Vertex} {vs : List Vertex} {weight total : ℕ}
    (h : vs.foldlM (fun weight v => do
      let linked ← g.isStronglyLinked fuel v leader
      return if linked then (weight + 1) % 2 ^ 32 else weight) weight = some total) :
    total ≤ weight + (vs.filter fun v => g.isLinked fuel v leader = some true).length := by
  induction vs generalizing weight with
  | nil =>
    rw [List.foldlM_nil] at h
    exact (Option.some.inj h).ge
  | cons v vs ih =>
    rw [List.foldlM_cons] at h
    obtain ⟨next, hnext, h⟩ := Option.bind_eq_some_iff.mp h
    obtain ⟨linked, hlinked, hnext⟩ := Option.bind_eq_some_iff.mp hnext
    rw [Dag.isStronglyLinked_eq_isLinked] at hlinked
    have hrest := ih h
    cases linked with
    | false =>
      have hvalue : weight = next := Option.some.inj hnext
      rw [List.filter_cons_of_neg (by simp [hlinked]), hvalue]
      exact hrest
    | true =>
      have hvalue : (weight + 1) % 2 ^ 32 = next := Option.some.inj hnext
      have hle := Nat.mod_le (weight + 1) (2 ^ 32)
      rw [List.filter_cons_of_pos (by simp [hlinked]), List.length_cons]
      omega

/-- **What the quorum check says**: at least `minQuorum` vertices of the round are linked to
the leader. -/
lemma supporters_of_isLinkedWithOthersInRound {leader : Vertex} {r : ℕ} (hq : 0 < g.minQuorum)
    (h : g.isLinkedWithOthersInRound fuel leader r = some true) :
    ∃ m, g.graph.find? r = some m ∧ g.minQuorum ≤ (supporters fuel g m leader).length := by
  unfold Dag.isLinkedWithOthersInRound at h
  cases hm : g.graph.find? r with
  | none =>
    simp only [hm, Option.some.injEq, decide_eq_true_eq] at h
    omega
  | some m =>
    simp only [hm] at h
    obtain ⟨total, htotal, h⟩ := Option.bind_eq_some_iff.mp h
    have hle := weight_le htotal
    have hquorum : g.minQuorum ≤ total := of_decide_eq_true (Option.some.inj h)
    refine ⟨m, rfl, ?_⟩
    unfold supporters
    omega

/-! ## The leader walk -/

/-- The leader of a wave is the stored vertex of the wave's first round that the leading key
owns. -/
lemma getWaveVertexLeader_eq_some_iff (hg : c.state.dag.WellSlotted) {wave : ℕ} {x : Vertex} :
    c.getWaveVertexLeader wave = some x ↔ x ∈ c.state.dag.vertices ∧
      x.round = getRoundForWave wave 1 ∧ c.getWaveLeader wave = some x.owner := by
  unfold getWaveVertexLeader
  simp only [Option.bind_eq_bind, Option.bind_eq_some_iff]
  constructor
  · intro h
    obtain ⟨key, hkey, m, hm, hx⟩ := h
    have hentry : (key, x) ∈ m.entries := UnorderedMap.find?_eq_some_iff.mp hx
    obtain ⟨hr, ho⟩ := hg _ m (OrderedMap.find?_eq_some_iff.mp hm) key x hentry
    have hstored := Dag.mem_vertices_of_find? hm (UnorderedMap.mem_values.mpr ⟨key, hentry⟩)
    exact ⟨hstored, hr, ho ▸ hkey⟩
  · intro h
    obtain ⟨hx, hr, hkey⟩ := h
    obtain ⟨m, hm, hentry⟩ := hg.exists_slot hx
    exact ⟨x.owner, hkey, m, hr ▸ hm, UnorderedMap.find?_eq_some_iff.mpr hentry⟩

/-- A leader has a positive round. -/
lemma round_pos_of_leader (hg : c.state.dag.WellSlotted) {wave : ℕ} {x : Vertex}
    (h : c.getWaveVertexLeader wave = some x) : 0 < x.round := by
  rw [((getWaveVertexLeader_eq_some_iff hg).mp h).2.1]
  unfold getRoundForWave
  omega

/-- One move of the leader walk: to a stored leader of some wave that the current leader is
linked to. -/
def LeaderLink (fuel : ℕ) (c : Consensus) (leader prevLeader : Vertex) : Prop :=
  c.state.dag.isLinked fuel leader prevLeader = some true ∧
    ∃ wave, c.getWaveVertexLeader wave = some prevLeader

/-- The walk commits leaders it moves to, one after the other.

**Proof sketch.** Induction on the wave: each wave keeps the current leader or moves to one it
is linked to. -/
lemma leaderWalk_spec {wave : ℕ} {leader : Vertex} {toCommit leaders : List Vertex}
    (h : leaderWalk fuel c wave leader toCommit = some leaders) {l : Vertex} (hl : l ∈ leaders) :
    l ∈ toCommit ∨ ReflTransGen (LeaderLink fuel c) leader l := by
  induction wave generalizing leader toCommit with
  | zero =>
    rw [leaderWalk, Option.some.injEq] at h
    exact Or.inl (h ▸ hl)
  | succ wave ih =>
    rw [leaderWalk] at h
    cases hprev : c.getWaveVertexLeader (wave + 1) with
    | none =>
      simp only [hprev] at h
      exact ih h
    | some prevLeader =>
      simp only [hprev] at h
      obtain ⟨linked, hlinked, h⟩ := Option.bind_eq_some_iff.mp h
      cases linked with
      | false => exact ih h
      | true =>
        have hmove : LeaderLink fuel c leader prevLeader := ⟨hlinked, wave + 1, hprev⟩
        rcases ih h with hmem | hpath
        · rcases List.mem_append.mp hmem with hmem | hmem
          · exact Or.inl hmem
          · rw [List.mem_singleton.mp hmem]
            exact Or.inr (ReflTransGen.single hmove)
        · exact Or.inr (ReflTransGen.head hmove hpath)

/-- The walk drops nothing. -/
lemma mem_leaderWalk {wave : ℕ} {leader : Vertex} {toCommit leaders : List Vertex}
    (h : leaderWalk fuel c wave leader toCommit = some leaders) {l : Vertex} (hl : l ∈ toCommit) :
    l ∈ leaders := by
  induction wave generalizing leader toCommit with
  | zero =>
    rw [leaderWalk, Option.some.injEq] at h
    exact h ▸ hl
  | succ wave ih =>
    rw [leaderWalk] at h
    cases hprev : c.getWaveVertexLeader (wave + 1) with
    | none =>
      simp only [hprev] at h
      exact ih h hl
    | some prevLeader =>
      simp only [hprev] at h
      obtain ⟨linked, -, h⟩ := Option.bind_eq_some_iff.mp h
      cases linked with
      | false => exact ih h hl
      | true => exact ih h (List.mem_append_left _ hl)

/-- **What a commit is**: the wave's leader is stored and has a quorum of supporters, and the
committed leaders are those that the walk from it moves to. -/
lemma committedLeaders_spec {wave : ℕ} {leaders : List Vertex}
    (h : c.committedLeaders fuel wave = some leaders) :
    ∃ leader, c.getWaveVertexLeader wave = some leader ∧
      c.state.dag.isLinkedWithOthersInRound fuel leader (getRoundForWave wave MAX_WAVE) =
        some true ∧
      c.getLeadersToCommit fuel ((wave + 2 ^ 32 - 1) % 2 ^ 32) leader = some leaders ∧
      leader ∈ leaders ∧ ∀ l ∈ leaders, ReflTransGen (LeaderLink fuel c) leader l := by
  unfold committedLeaders at h
  obtain ⟨leader, hleader, h⟩ := Option.bind_eq_some_iff.mp h
  obtain ⟨linked, hlinked, h⟩ := Option.bind_eq_some_iff.mp h
  split_ifs at h with htrue
  have hfirst : leader ∈ leaders := mem_leaderWalk h (List.mem_singleton_self leader)
  refine ⟨leader, hleader, htrue ▸ hlinked, h, hfirst, fun l hl => ?_⟩
  rcases leaderWalk_spec h hl with hmem | hpath
  · rw [List.mem_singleton.mp hmem]
  · exact hpath

/-- When the checks pass, `getOrderedVertices` returns what `orderVertices` lists for the
committed leaders. -/
lemma orderVertices_of_committedLeaders {wave : ℕ} {leaders out : List Vertex} {c' : Consensus}
    (hleaders : c.committedLeaders fuel wave = some leaders)
    (hout : c.getOrderedVertices fuel wave = some (out, c')) :
    orderVertices fuel c.state.dag leaders = some out := by
  rcases getOrderedVertices_cases hout with ⟨leaders', hleaders', hout, -⟩ | ⟨hchecks, -, -⟩
  · rw [hleaders, Option.some.injEq] at hleaders'
    exact hleaders' ▸ hout
  · obtain ⟨leader, hleader, hsupport, -⟩ := committedLeaders_spec hleaders
    rw [hchecks leader hleader, Option.some.injEq] at hsupport
    exact absurd hsupport (by decide)

end Consensus

/-! ## Sending once -/

namespace Node

open Relation

variable {P : Platform} {nodeId : NodePublicKey} {committee : Committee}
  {es : List NodeEvent} {nd nd' : Node} {e : NodeEvent}

/-- If the step commits, the leader walk stays above the last decided wave, and no vertex
stored above that wave carries a hash that was sent before. -/
def FreshCommit (nd : Node) (e : NodeEvent) : Prop :=
  ∀ fuel wave leader, e = .finish fuel → nd.CallsOrder wave →
    nd.consensus.getWaveVertexLeader wave = some leader →
    nd.dag.isLinkedWithOthersInRound fuel leader (Consensus.getRoundForWave wave MAX_WAVE) =
      some true →
    (∀ l, ReflTransGen (Consensus.LeaderLink fuel nd.consensus) leader l →
      MAX_WAVE * nd.consensus.decidedWave < l.round) ∧
    ∀ v ∈ nd.dag.vertices, MAX_WAVE * nd.consensus.decidedWave < v.round →
      v.hash ∉ nd.consensus.vertexOutput.map Vertex.hash

/-- **A step with a fresh commit sends no hash again.**

**Proof sketch.** What a commit lists has distinct hashes and is linked to a committed leader
(`Consensus.orderVertices_spec`), so it lies above the last decided wave, where no hash was
sent. -/
lemma sent_once_step (hslot : nd.dag.WellSlotted) (hfresh : FreshCommit nd e)
    (hnodup : (nd.consensus.vertexOutput.map Vertex.hash).Nodup)
    (h : nd.step P e = some nd') : (nd'.consensus.vertexOutput.map Vertex.hash).Nodup := by
  rcases quiet_or_advances h with hquiet | ⟨fuel, d, block, v, rfl, hdone, hcan, hd, -, rfl⟩
  · rw [hquiet.vertexOutput]
    exact hnodup
  cases hd with
  | none => exact hnodup
  | skip => exact hnodup
  | commit hlast leaders out hleaders hout =>
    have hcalls : nd.CallsOrder (nd.currentRound / MAX_WAVE) := ⟨hdone, hcan, hlast, rfl⟩
    obtain ⟨leader, hleader, hsupport, -, -, hpath⟩ := Consensus.committedLeaders_spec hleaders
    obtain ⟨habove, hnew⟩ := hfresh fuel _ leader rfl hcalls hleader hsupport
    obtain ⟨hdistinct, hlinked, -⟩ := Consensus.orderVertices_spec hslot hout
    show ((nd.consensus.vertexOutput ++ out).map Vertex.hash).Nodup
    rw [List.map_append, List.nodup_append]
    refine ⟨hnodup, hdistinct, fun a ha b hb hab => ?_⟩
    obtain ⟨u, hu, rfl⟩ := List.mem_map.mp hb
    obtain ⟨hstored, l, hl, hul⟩ := hlinked u hu
    have hround := Dag.round_lt_of_isLinked hul
    have hlround := habove l (hpath l hl)
    exact hnew u hstored (by omega) (hab ▸ ha)

/-- **No hash is sent twice in a run of fresh commits**, whatever is received. -/
theorem sent_once (h : run P nodeId committee es = some nd)
    (hfresh : Run.Along (step P) FreshCommit (init P nodeId committee) es) :
    (nd.consensus.vertexOutput.map Vertex.hash).Nodup := by
  refine hfresh.induction (J := fun _ nd => (nd.consensus.vertexOutput.map Vertex.hash).Nodup)
    List.nodup_nil ?_ h
  intro p nd e nd' hnd hnodup hcommit hstep
  exact sent_once_step (basic hnd).wellSlotted hcommit hnodup hstep

/-- A step that ends no wave commits nothing. -/
lemma freshCommit_of_inside (h : Consensus.isLastRoundInWave nd.currentRound = false) :
    FreshCommit nd e := by
  intro fuel wave leader _ hcalls
  rw [hcalls.2.2.1] at h
  exact absurd h (by decide)

/-- The leader of the round's wave has no parents and lies above the last decided wave, and no
stored vertex above that wave carries a hash that was sent. -/
def StartsAfresh (nd : Node) : Prop :=
  (∀ leader ∈ nd.consensus.getWaveVertexLeader (nd.currentRound / MAX_WAVE),
    leader.parents.entries = [] ∧ MAX_WAVE * nd.consensus.decidedWave < leader.round) ∧
  ∀ v ∈ nd.dag.vertices, MAX_WAVE * nd.consensus.decidedWave < v.round →
    v.hash ∉ nd.consensus.vertexOutput.map Vertex.hash

instance : DecidablePred StartsAfresh := fun nd => inferInstanceAs (Decidable (
  (∀ leader ∈ nd.consensus.getWaveVertexLeader (nd.currentRound / MAX_WAVE),
    leader.parents.entries = [] ∧ MAX_WAVE * nd.consensus.decidedWave < leader.round) ∧
  ∀ v ∈ nd.dag.vertices, MAX_WAVE * nd.consensus.decidedWave < v.round →
    v.hash ∉ nd.consensus.vertexOutput.map Vertex.hash))

/-- A leader without parents is linked to nothing, so the walk stays at it. -/
lemma StartsAfresh.freshCommit (h : nd.StartsAfresh) : FreshCommit nd e := by
  intro fuel wave leader _ hcalls hleader _
  obtain ⟨hparents, hround⟩ := h.1 leader (hcalls.2.2.2 ▸ hleader)
  refine ⟨fun l hl => ?_, h.2⟩
  rcases hl.cases_head with rfl | ⟨u, ⟨hlinked, -⟩, -⟩
  · exact hround
  · exact absurd hparents ((Dag.answer_iff_linked hlinked).mp rfl).has_parents

/-- A node of the committee of four comes to round `5`, receives a vertex of the next leader that
names no parents, and goes on to round `9`. -/
def brokenChain : List NodeEvent :=
  Sample.roundTwo [1, 2, 3] ++ Sample.passOf 3 ++ Sample.passOf 4 ++
    Sample.pass [Sample.vertex 5 [1, 2, 3] 1, Sample.vertex 5 [] 2, Sample.vertex 5 [1, 2, 3] 3] ++
    Sample.passOf 6 ++ Sample.passOf 7 ++ Sample.passOf 8

/-- It commits both waves, and the second commit lists the vertices above the second leader. -/
theorem sent_once_four :
    ∃ nd, run Sample.platform 1 Sample.four brokenChain = some nd ∧
      nd.consensus.decidedWave = 2 ∧
      nd.consensus.vertexOutput.map Vertex.round =
        [2, 3, 4, 6, 7, 8].flatMap (List.replicate 3) ∧
      (nd.consensus.vertexOutput.map Vertex.hash).Nodup := by
  obtain ⟨nd, hnd, hp⟩ : ∃ nd, run Sample.platform 1 Sample.four brokenChain = some nd ∧
      decide (nd.consensus.decidedWave = 2 ∧ nd.consensus.vertexOutput.map Vertex.round =
        [2, 3, 4, 6, 7, 8].flatMap (List.replicate 3)) = true :=
    Run.exists_exec_of_any (by decide +kernel)
  obtain ⟨hwave, hrounds⟩ := of_decide_eq_true hp
  have hsteps : Run.Throughout (step Sample.platform) (fun s =>
      Consensus.isLastRoundInWave s.currentRound = false ∨ s.StartsAfresh)
      (init Sample.platform 1 Sample.four) brokenChain := by decide +kernel
  refine ⟨nd, hnd, hwave, hrounds, sent_once hnd ?_⟩
  refine hsteps.along fun _ e s _ _ hstate => ?_
  rcases hstate with hinside | hafresh
  · exact freshCommit_of_inside hinside
  · exact hafresh.freshCommit

/-- The node of a committee of one up to round `9`: when wave `2` commits, the walk comes back to
the leader of wave `1`, and the vertices of the first commit are sent again. -/
theorem second_commit_sends_again :
    ∃ nd, run Sample.platform 1 Sample.single (Sample.upTo 9) = some nd ∧
      ¬ (nd.consensus.vertexOutput.map Vertex.hash).Nodup := by
  obtain ⟨nd, hnd, hout⟩ : ∃ nd, run Sample.platform 1 Sample.single (Sample.upTo 9) = some nd ∧
      decide (¬ (nd.consensus.vertexOutput.map Vertex.hash).Nodup) = true :=
    Run.exists_exec_of_any (by decide +kernel)
  exact ⟨nd, hnd, of_decide_eq_true hout⟩

end Node

end DagRider
