import DagRider.Agreement.Leaders
import DagRider.Lib.Labels

set_option relaxedAutoImplicit false
set_option autoImplicit false

/-!
# The order that the nodes send

The list of a commit is the stored descendants of the oldest committed leader, in the
iteration order of the DAG. The nodes agree on the leaders, but what a DAG holds above a
leader depends on what has arrived there. The sequences of two nodes agree as long as
nodes that commit a wave hold the same descendants of its oldest leader, in the same order.

## Main definitions

* `DagRider.Consensus.WalkEnds` — the oldest leader that the walk from a leader meets.
* `DagRider.Dag.descendants` — the stored descendants of a vertex.
* `DagRider.Node.SameCommit` — two nodes commit a wave alike.

## Main results

* `DagRider.Consensus.orderVertices_computes` — what a commit lists.
* `DagRider.Network.outputs_comparable` — one total order, where commits are alike.
-/

namespace DagRider

open Network

/-! ## The oldest leader and its descendants -/

/-- The walk down from wave `w` at the leader `l` ends at the leader `b`: at each wave it moves
to the wave's stored leader if that is an ancestor of the current one. -/
inductive Consensus.WalkEnds (c : Consensus) : ℕ → Vertex → Vertex → Prop
  | done (l : Vertex) : WalkEnds c 0 l l
  | skip {w : ℕ} {l b : Vertex}
      (hskip : ∀ x, c.getWaveVertexLeader (w + 1) = some x → ¬ c.state.dag.Ancestor l x)
      (hrest : WalkEnds c w l b) : WalkEnds c (w + 1) l b
  | move {w : ℕ} {l x b : Vertex} (hx : c.getWaveVertexLeader (w + 1) = some x)
      (hlx : c.state.dag.Ancestor l x) (hrest : WalkEnds c w x b) : WalkEnds c (w + 1) l b

open Classical in
/-- The stored vertices that have `b` as an ancestor, in the iteration order of the DAG. -/
noncomputable def Dag.descendants (g : Dag) (b : Vertex) : List Vertex :=
  g.vertices.filter fun v => g.Ancestor v b

/-- If the first node passes the checks for wave `w`, the second passes them as well, and
their DAGs list the same descendants of the oldest leader of the walk. -/
def Node.SameCommit (A B : Node) (w : ℕ) : Prop :=
  ∀ l, A.Passes w l → B.Passes w l ∧
    ∀ b, A.consensus.WalkEnds (w - 1) l b → A.dag.descendants b = B.dag.descendants b

/-- Nodes of one committee with equal DAGs commit alike. -/
lemma Node.sameCommit_of_dag_eq {A B : Node} {w : ℕ}
    (hcommittee : A.consensus.committee = B.consensus.committee) (hdag : A.dag = B.dag) :
    A.SameCommit B w := by
  intro l hpass
  obtain ⟨hl, fuel, hsupport⟩ := hpass
  have hlead : B.consensus.getWaveVertexLeader w = A.consensus.getWaveVertexLeader w := by
    have hdag' : A.consensus.state.dag = B.consensus.state.dag := hdag
    unfold Consensus.getWaveVertexLeader Consensus.getWaveLeader
    rw [hcommittee, hdag']
  exact ⟨⟨hlead.trans hl, fuel, hdag ▸ hsupport⟩, fun b _ => by rw [hdag]⟩

namespace Consensus

/-! ## What a commit lists -/

section Turns

variable {R : Vertex → Vertex → Prop} [∀ u v, Decidable (R u v)] {o : Ordered}

/-- One turn of the innermost loop of `orderVertices`, for a relation `R` in place of the
search. -/
def turn (R : Vertex → Vertex → Prop) [∀ u v, Decidable (R u v)] (o : Ordered)
    (p : Vertex × Vertex) : Ordered :=
  if p.2.hash ∈ o.deliveredVertices then o
  else if R p.2 p.1 then
    ⟨o.orderedVertices ++ [p.2], o.deliveredVertices.insert p.2.hash⟩
  else o

/-- **What the turns list**: the related vertices, in order, each hash once and none that was
delivered before.

**Proof sketch.** Induction on the pairs: a turn lists the first vertex or not, and the hash that it
delivers is left out from there on. -/
lemma foldl_turn_eq (ps : List (Vertex × Vertex)) :
    (ps.foldl (turn R) o).orderedVertices = o.orderedVertices ++
      (Labels.distinct Vertex.hash ((ps.filter fun p => R p.2 p.1).map Prod.snd)).filter
        fun v => v.hash ∉ o.deliveredVertices := by
  induction ps generalizing o with
  | nil => simp [Labels.distinct]
  | cons p ps ih =>
    rw [List.foldl_cons, ih]
    unfold turn
    by_cases hR : R p.2 p.1
    · rw [List.filter_cons_of_pos (by simpa using hR), List.map_cons, Labels.distinct]
      by_cases hmem : p.2.hash ∈ o.deliveredVertices
      · rw [if_pos hmem, List.filter_cons_of_neg (by simpa using hmem), List.filter_filter]
        congr 1
        refine List.filter_congr fun v _ => ?_
        have hne : v.hash ∉ o.deliveredVertices → v.hash ≠ p.2.hash := fun hv heq =>
          hv (heq ▸ hmem)
        simpa using hne
      · rw [if_neg hmem, if_pos hR, List.filter_cons_of_pos (by simpa using hmem),
          List.filter_filter, List.append_assoc, List.singleton_append]
        congr 2
        refine List.filter_congr fun v _ => ?_
        rw [← Bool.decide_and, decide_eq_decide, List.mem_insert_iff, not_or]
        exact and_comm
    · rw [List.filter_cons_of_neg (by simpa using hR)]
      split_ifs <;> rfl

/-- The turns deliver the hashes of the related vertices. -/
lemma mem_delivered_foldl_turn (ps : List (Vertex × Vertex)) {h : VertexHash} :
    h ∈ (ps.foldl (turn R) o).deliveredVertices ↔
      h ∈ o.deliveredVertices ∨ ∃ p ∈ ps, R p.2 p.1 ∧ p.2.hash = h := by
  induction ps generalizing o with
  | nil => simp
  | cons p ps ih =>
    rw [List.foldl_cons, ih, List.exists_mem_cons_iff, ← or_assoc]
    refine or_congr_left ?_
    unfold turn
    split_ifs with hmem hR
    · exact ⟨Or.inl, fun hh => hh.elim id fun hp => hp.2 ▸ hmem⟩
    · rw [List.mem_insert_iff, or_comm]
      exact or_congr_right ⟨fun hh => ⟨hR, hh.symm⟩, fun hh => hh.2.symm⟩
    · exact ⟨Or.inl, fun hh => hh.elim id fun hp => absurd hp.1 hR⟩

/-- One turn of the innermost loop computes a turn for what the search decides, if it asks for a
search. -/
lemma orderVertex_computes {g : Dag} {p : Vertex × Vertex}
    (h : p.2.hash ∉ o.deliveredVertices →
      Fuel.Computes (fun fuel => g.isLinked fuel p.2 p.1) (decide (R p.2 p.1))) :
    Fuel.Computes (fun fuel => orderVertex fuel g p.1 o p.2) (turn R o p) := by
  unfold orderVertex turn
  by_cases hmem : p.2.hash ∈ o.deliveredVertices
  · simp only [if_pos hmem]
    exact Fuel.Computes.pure o
  · simp only [if_neg hmem]
    have hturn := (h hmem).bind (g := fun _ linked => some (if linked = true then
      ⟨o.orderedVertices ++ [p.2], o.deliveredVertices.insert p.2.hash⟩ else o))
      (Fuel.Computes.pure _)
    simp only [decide_eq_true_eq] at hturn
    exact hturn

/-- **What `orderVertices` lists**: from the oldest leader on, the stored vertices that are related
to the leader, each hash once, where the search decides the relation. It is asked for every stored
vertex but those that have the hash of an earlier one that is related to the leader.

**Proof sketch.** After the vertices before it the hashes of those that are related are delivered
(`mem_delivered_foldl_turn`), so a turn that asks for a search has one that decides. -/
theorem orderVertices_computes_distinct {g : Dag} (hg : g.WellSlotted) (leaders : List Vertex)
    (h : ∀ l ∈ leaders, ∀ before v after, g.vertices = before ++ v :: after →
      (∀ u ∈ before, R u l → u.hash ≠ v.hash) →
        Fuel.Computes (fun fuel => g.isLinked fuel v l) (decide (R v l))) :
    Fuel.Computes (fun fuel => orderVertices fuel g leaders)
      (Labels.distinct Vertex.hash
        (leaders.reverse.flatMap fun l => g.vertices.filter fun v => R v l)) := by
  have hfold : ((visits g leaders).foldl (turn R) ⟨[], []⟩).orderedVertices =
      Labels.distinct Vertex.hash
        (leaders.reverse.flatMap fun l => g.vertices.filter fun v => R v l) := by
    rw [foldl_turn_eq]
    unfold visits
    simp only [List.filter_flatMap, List.map_flatMap, List.filter_map, Function.comp_def,
      List.map_map, List.map_id', List.nil_append, List.not_mem_nil, not_false_eq_true,
      decide_true, List.filter_true]
  have hleader : ∀ (o : Ordered), ∀ l ∈ leaders.reverse,
      Fuel.Computes (fun fuel => orderLeader fuel g o l)
        ((g.vertices.map fun v => (l, v)).foldl (turn R) o) := by
    intro o l hl
    simp only [orderLeader_eq hg, List.foldl_map]
    refine Fuel.Computes.foldlM_of_prefix (f := fun fuel o v => orderVertex fuel g l o v)
      fun before v after hsplit => ?_
    refine orderVertex_computes (p := (l, v)) fun hnew => ?_
    refine h l (List.mem_reverse.mp hl) before v after hsplit fun u hu hR hhash => hnew ?_
    rw [← List.foldl_map (f := fun v => (l, v)) (g := turn R), mem_delivered_foldl_turn]
    exact Or.inr ⟨(l, u), List.mem_map_of_mem hu, hR, hhash⟩
  have hmap : ∀ fuel, orderVertices fuel g leaders =
      (leaders.reverse.foldlM (orderLeader fuel g) ⟨[], []⟩).map Ordered.orderedVertices :=
    fun _ => Option.map_eq_bind.symm
  rw [← hfold]
  unfold visits
  simp only [List.foldl_flatMap, hmap]
  exact (Fuel.Computes.foldlM hleader _).map Ordered.orderedVertices

end Turns

variable {committee : Committee} {U : List Vertex} (hU : History committee U)
  (hslots : SlotsUnique U) {g : Dag} {c : Consensus} {w : ℕ} {l b : Vertex}
  {rest : List Vertex}

include hU hslots in
/-- The stored hashes are distinct. -/
lemma nodup_stored_hashes (hg : g.ViewOf U) : (g.vertices.map Vertex.hash).Nodup := by
  refine hg.wellSlotted.nodup_vertices.map_on fun u hu v hv huv => ?_
  exact hU.eq_of_hash hslots (hg.stored u hu) (hg.stored v hv) huv

/-- The descendants in a DAG are those in the graph. -/
lemma descendants_eq (hg : g.ViewOf U) [DecidablePred fun v => (hU.graph hslots).Reaches v b] :
    g.descendants b = g.vertices.filter fun v => (hU.graph hslots).Reaches v b := by
  unfold Dag.descendants
  refine List.filter_congr fun v hv => ?_
  rw [decide_eq_decide]
  exact hg.ancestor_iff hU hslots hv

/-- **What a commit lists**: the stored descendants of its oldest leader, in the order of the
DAG. The later leaders add nothing, since their descendants are descendants of the oldest.

**Proof sketch.** The loop starts with the oldest leader and lists its descendants, whose hashes are
distinct; the hashes that the later leaders would add are delivered then. -/
theorem orderVertices_computes (hg : g.ViewOf U) (hstored : ∀ x ∈ rest ++ [b], x ∈ g.vertices)
    (hrest : ∀ x ∈ rest, (hU.graph hslots).Reaches x b) :
    Fuel.Computes (fun fuel => orderVertices fuel g (rest ++ [b])) (g.descendants b) := by
  classical
  have hlisted := orderVertices_computes_distinct (R := (hU.graph hslots).Reaches) hg.wellSlotted
    (rest ++ [b]) fun l hl before v after hsplit _ => hg.isLinked_computes hU hslots
      (hsplit ▸ List.mem_append_right before List.mem_cons_self) (hstored l hl)
  have hnodup : ((g.descendants b).map Vertex.hash).Nodup :=
    (nodup_stored_hashes hU hslots hg).sublist (List.filter_sublist.map _)
  have hnothing : (Labels.distinct Vertex.hash (rest.reverse.flatMap fun l =>
      g.vertices.filter fun v => (hU.graph hslots).Reaches v l)).filter
        (fun v => v.hash ∉ (g.descendants b).map Vertex.hash) = [] := by
    rw [List.filter_eq_nil_iff]
    intro v hv hnew
    obtain ⟨l, hl, hv⟩ := List.mem_flatMap.mp ((Labels.distinct_sublist _).subset hv)
    obtain ⟨hv, hreach⟩ := List.mem_filter.mp hv
    have hdesc : (hU.graph hslots).Reaches v b :=
      (of_decide_eq_true hreach).trans (hrest l (List.mem_reverse.mp hl))
    refine of_decide_eq_true hnew (List.mem_map_of_mem ?_)
    rw [descendants_eq hU hslots hg]
    exact List.mem_filter.mpr ⟨hv, decide_eq_true hdesc⟩
  rw [List.reverse_append, List.reverse_singleton, List.flatMap_append, List.flatMap_singleton,
    ← descendants_eq hU hslots hg, Labels.distinct_append, Labels.distinct_of_nodup hnodup,
    hnothing, List.append_nil] at hlisted
  exact hlisted

/-- The oldest leader of the walk is the last of the chain. -/
lemma walkEnds_iff (hg : c.state.dag.ViewOf U) (hl : l ∈ c.state.dag.vertices) :
    c.WalkEnds w l b ↔
      ∃ rest, (hU.graph hslots).chain c.getWaveVertexLeader w l = rest ++ [b] := by
  have hmem : ∀ {k x}, c.getWaveVertexLeader k = some x → x ∈ c.state.dag.vertices :=
    fun hx => ((getWaveVertexLeader_eq_some_iff hg.wellSlotted).mp hx).1
  constructor
  · intro h
    induction h with
    | done l => exact ⟨[], rfl⟩
    | skip hskip _ ih =>
      rw [CausalGraph.chain_skip fun x hx hreach =>
        hskip x hx ((hg.ancestor_iff hU hslots hl).mpr hreach)]
      exact ih hl
    | move hx hlx _ ih =>
      obtain ⟨rest, hrest⟩ := ih (hmem hx)
      rw [CausalGraph.chain_move hx ((hg.ancestor_iff hU hslots hl).mp hlx), hrest]
      exact ⟨_ :: rest, rfl⟩
  · intro h
    obtain ⟨rest, h⟩ := h
    induction w generalizing l rest with
    | zero =>
      have hlast : [] ++ [l] = rest ++ [b] := h
      have hlb : l = b := List.singleton_inj.mp (List.append_inj' hlast rfl).2
      exact hlb ▸ WalkEnds.done l
    | succ w ih =>
      rcases CausalGraph.skip_or_move (hU.graph hslots) c.getWaveVertexLeader w l with
        hskip | ⟨x, hx, hlx⟩
      · rw [CausalGraph.chain_skip hskip] at h
        refine WalkEnds.skip (fun x hx hanc => hskip x hx ?_) (ih hl rest h)
        exact (hg.ancestor_iff hU hslots hl).mp hanc
      · rw [CausalGraph.chain_move hx hlx] at h
        have hhead : x ∈ (hU.graph hslots).chain c.getWaveVertexLeader w x :=
          CausalGraph.head_mem_chain
        cases rest with
        | nil =>
          rw [(List.cons.inj h).2] at hhead
          exact absurd hhead List.not_mem_nil
        | cons y rest =>
          have hrest : (hU.graph hslots).chain c.getWaveVertexLeader w x = rest ++ [b] :=
            (List.cons.inj h).2
          exact WalkEnds.move hx ((hg.ancestor_iff hU hslots hl).mpr hlx) (ih (hmem hx) rest hrest)

include hU hslots in
/-- Walks of two nodes from one leader end at the same leader. -/
lemma walkEnds_unique {d : Consensus} {b' : Vertex} (hc : c.committee = committee)
    (hd : d.committee = committee) (hg : c.state.dag.ViewOf U) (hg' : d.state.dag.ViewOf U)
    (hw : w ≤ 2 ^ 30) (hl : l ∈ c.state.dag.vertices) (hl' : l ∈ d.state.dag.vertices)
    (h : c.WalkEnds w l b) (h' : d.WalkEnds w l b') : b = b' := by
  obtain ⟨rest, hrest⟩ := (walkEnds_iff hU hslots hg hl).mp h
  obtain ⟨rest', hrest'⟩ := (walkEnds_iff hU hslots hg' hl').mp h'
  have hchain := CausalGraph.chain_eq_of_mem (hg.isView hU hslots) (hg'.isView hU hslots)
    (sees_leaders hU hslots hc hg hw) (sees_leaders hU hslots hd hg' hw) hl hl' le_rfl le_rfl
  have hlast : rest ++ [b] = rest' ++ [b'] := hrest.symm.trans (hchain.trans hrest')
  exact List.singleton_inj.mp (List.append_inj' hlast rfl).2

include hU hslots in
/-- **A commit lists the descendants of the oldest leader of its walk.** -/
theorem commit_lists (hg : c.state.dag.ViewOf U) (hw1 : 1 ≤ w) (hw2 : w < 2 ^ 30)
    {fuel : ℕ} {leaders out : List Vertex} (hleaders : c.committedLeaders fuel w = some leaders)
    (hout : orderVertices fuel c.state.dag leaders = some out) :
    ∃ l b, c.getWaveVertexLeader w = some l ∧
      c.state.dag.isLinkedWithOthersInRound fuel l (getRoundForWave w MAX_WAVE) = some true ∧
      c.WalkEnds (w - 1) l b ∧ out = c.state.dag.descendants b := by
  obtain ⟨l, hl, hsupport, hwalk, -, hpath⟩ := committedLeaders_spec hleaders
  rw [previous_wave hw1 hw2] at hwalk
  have hlead := fun {k x} (hx : c.getWaveVertexLeader k = some x) =>
    ((getWaveVertexLeader_eq_some_iff hg.wellSlotted).mp hx).1
  have hchain := (getLeadersToCommit_computes hU hslots hg (hlead hl)).unique fuel leaders hwalk
  obtain ⟨b, rest, hlast, hrest⟩ :=
    CausalGraph.exists_bottom (hU.graph hslots) c.getWaveVertexLeader (w - 1) l
  have hstored : ∀ x ∈ rest ++ [b], x ∈ c.state.dag.vertices := by
    intro x hx
    rw [← hlast] at hx
    rcases CausalGraph.mem_chain hx with rfl | ⟨-, k, -, -, hk⟩
    · exact hlead hl
    · exact hlead hk
  rw [hchain, hlast] at hout
  refine ⟨l, b, hl, hsupport, (walkEnds_iff hU hslots hg (hlead hl)).mpr ⟨rest, hlast⟩, ?_⟩
  exact (orderVertices_computes hU hslots hg hstored hrest).unique fuel out hout

include hU hslots in
/-- The quorum check ends with one answer. -/
lemma exists_isLinkedWithOthers_computes (hg : g.ViewOf U) (hl : l ∈ g.vertices) (r : ℕ) :
    ∃ answer, Fuel.Computes (fun fuel => g.isLinkedWithOthersInRound fuel l r) answer := by
  classical
  unfold Dag.isLinkedWithOthersInRound
  cases hm : g.graph.find? r with
  | none => exact ⟨_, Fuel.Computes.pure _⟩
  | some m =>
    have hturn : ∀ (weight : ℕ), ∀ v ∈ m.values, Fuel.Computes (fun fuel =>
        (g.isStronglyLinked fuel v l).bind fun linked =>
          some (if linked = true then (weight + 1) % 2 ^ 32 else weight))
        (if decide ((hU.graph hslots).Reaches v l) = true then (weight + 1) % 2 ^ 32
          else weight) := by
      intro weight v hv
      have hv := Dag.mem_vertices_of_find? hm hv
      exact (hg.isLinked_computes hU hslots hv hl).bind (g := fun _ linked =>
        some (if linked = true then (weight + 1) % 2 ^ 32 else weight)) (Fuel.Computes.pure _)
    exact ⟨_, (Fuel.Computes.foldlM hturn 0).bind
      (g := fun _ weight => some (decide (g.minQuorum ≤ weight))) (Fuel.Computes.pure _)⟩

end Consensus

/-! ## One total order -/

namespace Network

variable {P : Platform} {committee : Committee} {es : List NetworkEvent}
  {N S S' : Network} {A B : Node} {w : ℕ} {out : List Vertex}

/-- Somewhere in the run a node calls wave `w`, passes the checks, and the descendants of the
oldest leader of its walk are `out`. -/
def WaveOutput (P : Platform) (committee : Committee) (es : List NetworkEvent) (w : ℕ)
    (out : List Vertex) : Prop :=
  ∃ (S : Network) (A : Node) (l b : Vertex), Run.Visits (step P) (init P committee) es S ∧
    A ∈ S.nodes ∧ A.CallsOrder w ∧ A.Passes w l ∧ A.consensus.WalkEnds (w - 1) l b ∧
    out = A.dag.descendants b

/-- Nodes that call the same wave commit it alike. -/
def SameCommits (P : Platform) (committee : Committee) (es : List NetworkEvent) : Prop :=
  ∀ w S S' A B, Run.Visits (step P) (init P committee) es S →
    Run.Visits (step P) (init P committee) es S' → A ∈ S.nodes → B ∈ S'.nodes →
    A.CallsOrder w → B.CallsOrder w → A.SameCommit B w

open Classical in
/-- What is sent for wave `w`: the output of any node that commits it. -/
noncomputable def waveOutput (P : Platform) (committee : Committee) (es : List NetworkEvent)
    (w : ℕ) : List Vertex :=
  if h : ∃ out, WaveOutput P committee es w out then h.choose else []

/-- **Any commit of a wave lists what is sent for the wave.**

**Proof sketch.** Two commits of the wave start at the same leader, and their walks end at the
same one (`Consensus.walkEnds_unique`), whose descendants are the same. -/
lemma waveOutput_eq (h : IsRun P committee es N)
    (hround : Run.Throughout (step P) NotWrapped (init P committee) es)
    (hsame : SameCommits P committee es) (hout : WaveOutput P committee es w out) :
    waveOutput P committee es w = out := by
  have hex : ∃ out, WaveOutput P committee es w out := ⟨out, hout⟩
  unfold waveOutput
  rw [dif_pos hex]
  obtain ⟨S, A, l, b, hS, hA, hcallA, hpassA, hendA, hdescA⟩ := hex.choose_spec
  obtain ⟨S', B, l', b', hS', hB, hcallB, hpassB, hendB, rfl⟩ := hout
  have hU := h.history
  have hslots := h.slotsUnique hround
  have hviewA := h.viewOf hround hS hA
  have hviewB := h.viewOf hround hS' hB
  obtain ⟨idA, hbasicA⟩ := (h.honest hS hA).basic
  obtain ⟨idB, hbasicB⟩ := (h.honest hS' hB).basic
  obtain ⟨-, hw⟩ := wave_bounds hbasicA (Run.throughout_iff_visits.mp hround S hS A hA) hcallA
  obtain ⟨hpassB', hdesc⟩ := hsame w S S' A B hS hS' hA hB hcallA hcallB l hpassA
  have hll : l' = l := Option.some.inj (hpassB.1.symm.trans hpassB'.1)
  subst hll
  have hlA := ((Consensus.getWaveVertexLeader_eq_some_iff hbasicA.wellSlotted).mp hpassA.1).1
  have hlB := ((Consensus.getWaveVertexLeader_eq_some_iff hbasicB.wellSlotted).mp hpassB.1).1
  have hbb : b = b' := Consensus.walkEnds_unique hU hslots hbasicA.committee_eq
    hbasicB.committee_eq hviewA hviewB (by omega) hlA hlB hendA hendB
  rw [hdescA, hdesc b hendA, hbb]

/-- A wave whose checks fail at a node that calls it is committed by none. -/
lemma waveOutput_eq_nil (h : IsRun P committee es N)
    (hround : Run.Throughout (step P) NotWrapped (init P committee) es)
    (hsame : SameCommits P committee es)
    (hS : Run.Visits (step P) (init P committee) es S) (hA : A ∈ S.nodes)
    (hcall : A.CallsOrder w) {fuel : ℕ} (hchecks : A.consensus.ChecksFail fuel w) :
    waveOutput P committee es w = [] := by
  unfold waveOutput
  refine dif_neg fun hex => ?_
  obtain ⟨out, S', B, l, b, hS', hB, hcallB, hpassB, -, -⟩ := hex
  obtain ⟨⟨hl, fuel', htrue⟩, -⟩ := hsame w S' S B A hS' hS hB hA hcallB hcall l hpassB
  have hview := h.viewOf hround hS hA
  have hstored := ((Consensus.getWaveVertexLeader_eq_some_iff hview.wellSlotted).mp hl).1
  obtain ⟨answer, hanswer⟩ := Consensus.exists_isLinkedWithOthers_computes h.history
    (h.slotsUnique hround) hview hstored (Consensus.getRoundForWave w MAX_WAVE)
  have heq : true = false :=
    (hanswer.unique fuel' true htrue).trans (hanswer.unique fuel false (hchecks l hl)).symm
  exact absurd heq (by decide)

/-- **What a node has sent is what is sent for the waves it has called.**

**Proof sketch.** Induction over the run. Only the end of a pass sends; it calls one wave, and
sends the output of the wave (`Consensus.commit_lists`) or, if the checks fail, nothing. -/
theorem vertexOutput_eq (h : IsRun P committee es N)
    (hround : Run.Throughout (step P) NotWrapped (init P committee) es)
    (hsame : SameCommits P committee es)
    (hS : Run.Visits (step P) (init P committee) es S) (hA : A ∈ S.nodes) :
    A.consensus.vertexOutput = A.consensus.orderedWaves.flatMap (waveOutput P committee es) := by
  obtain ⟨p, hp, hS⟩ := hS
  refine Run.prefix_induction (J := fun _ S => ∀ A ∈ S.nodes,
    A.consensus.vertexOutput = A.consensus.orderedWaves.flatMap (waveOutput P committee es))
    ?_ ?_ hS A hA
  · intro A hA
    obtain ⟨nodeId, -, rfl⟩ := List.mem_map.mp hA
    rfl
  intro q T e T' hpre hT ih hstep A hA
  have hq : q <+: es := ((List.prefix_append q [e]).trans hpre).trans hp
  obtain ⟨old, new, hold, -, hnew, rfl⟩ := step_cases hstep
  have hmem : old ∈ T.nodes := List.mem_of_getElem? hold
  have hI := ih old hmem
  rcases List.mem_or_eq_of_mem_set hA with hA | rfl
  · exact ih A hA
  rcases Node.quiet_or_advances hnew with hquiet | ⟨fuel, d, block, v, -, hdone, hcan, hd, -, rfl⟩
  · rw [hquiet.vertexOutput, hquiet.orderedWaves]
    exact hI
  have hvisit : Run.Visits (step P) (init P committee) es T := ⟨q, hq, hT⟩
  cases hd with
  | none => exact hI
  | skip hlast hchecks =>
    have hcall : old.CallsOrder (old.currentRound / MAX_WAVE) := ⟨hdone, hcan, hlast, rfl⟩
    have hnil := waveOutput_eq_nil h hround hsame hvisit hmem hcall hchecks
    show old.consensus.vertexOutput = (old.consensus.orderedWaves ++
      [old.currentRound / MAX_WAVE]).flatMap (waveOutput P committee es)
    rw [List.flatMap_append, List.flatMap_singleton, hnil, List.append_nil]
    exact hI
  | commit hlast leaders out hleaders hout =>
    have hcall : old.CallsOrder (old.currentRound / MAX_WAVE) := ⟨hdone, hcan, hlast, rfl⟩
    obtain ⟨nodeId, hbasic⟩ := (h.honest hvisit hmem).basic
    obtain ⟨hw1, hw2⟩ :=
      wave_bounds hbasic (Run.throughout_iff_visits.mp hround T hvisit old hmem) hcall
    obtain ⟨l, b, hl, hsupport, hend, hdesc⟩ := Consensus.commit_lists h.history
      (h.slotsUnique hround) (h.viewOf hround hvisit hmem) hw1 hw2 hleaders hout
    have hwave := waveOutput_eq h hround hsame
      ⟨T, old, l, b, hvisit, hmem, hcall, ⟨hl, fuel, hsupport⟩, hend, hdesc⟩
    show old.consensus.vertexOutput ++ out = (old.consensus.orderedWaves ++
      [old.currentRound / MAX_WAVE]).flatMap (waveOutput P committee es)
    rw [List.flatMap_append, List.flatMap_singleton, hwave, ← hI]

/-- The waves a node has called are an initial segment of all waves. -/
lemma orderedWaves_eq (hround : Run.Throughout (step P) NotWrapped (init P committee) es)
    (hS : Run.Visits (step P) (init P committee) es S) (hA : A ∈ S.nodes) :
    ∃ n, A.consensus.orderedWaves = List.range' 1 n := by
  obtain ⟨i, p, nodeId, hp, hpS, hi, hkey, hrun⟩ := IsRun.exists_node_run hS hA
  have hproposed := Node.proposed hrun (IsRun.node_notWrapped hp hround hpS hi hkey)
  exact ⟨_, hproposed.waves⟩

/-- Outputs of an initial segment of waves come first. -/
lemma flatMap_range'_mono {α : Type*} (f : ℕ → List α) {m n : ℕ} (h : m ≤ n) :
    (List.range' 1 m).flatMap f <+: (List.range' 1 n).flatMap f := by
  obtain ⟨k, rfl⟩ := Nat.exists_eq_add_of_le h
  rw [← List.range'_append_1, List.flatMap_append]
  exact List.prefix_append _ _

/-- **One total order, where commits are alike.** In a run in which any two nodes that call a
wave agree on whether it commits and then hold the same descendants of its oldest leader in
the same order, the sequences that any two nodes have sent, at any two points, are comparable
by prefix. -/
theorem outputs_comparable (h : IsRun P committee es N)
    (hround : Run.Throughout (step P) NotWrapped (init P committee) es)
    (hsame : SameCommits P committee es)
    (hS : Run.Visits (step P) (init P committee) es S)
    (hS' : Run.Visits (step P) (init P committee) es S')
    (hA : A ∈ S.nodes) (hB : B ∈ S'.nodes) :
    A.consensus.vertexOutput <+: B.consensus.vertexOutput ∨
      B.consensus.vertexOutput <+: A.consensus.vertexOutput := by
  obtain ⟨m, hm⟩ := orderedWaves_eq hround hS hA
  obtain ⟨n, hn⟩ := orderedWaves_eq hround hS' hB
  rw [vertexOutput_eq h hround hsame hS hA, vertexOutput_eq h hround hsame hS' hB, hm, hn]
  rcases Nat.le_total m n with hmn | hnm
  · exact Or.inl (flatMap_range'_mono _ hmn)
  · exact Or.inr (flatMap_range'_mono _ hnm)

/-- A run in which all nodes call their waves with one DAG. -/
lemma sameCommits_of_dag_eq (D : Dag)
    (h : Run.Throughout (step P) (fun S => ∀ A ∈ S.nodes,
      A.CallsOrder (A.currentRound / MAX_WAVE) → A.dag = D) (init P committee) es) :
    SameCommits P committee es := by
  intro w S S' A B hS hS' hA hB hcallA hcallB
  have hdag : ∀ {S : Network} {A : Node}, Run.Visits (step P) (init P committee) es S →
      A ∈ S.nodes → A.CallsOrder w → A.consensus.committee = committee ∧ A.dag = D := by
    intro S A hS hA hcall
    obtain ⟨i, p, nodeId, -, -, -, -, hrun⟩ := IsRun.exists_node_run hS hA
    refine ⟨(Node.basic hrun).committee_eq, Run.throughout_iff_visits.mp h S hS A hA ?_⟩
    exact hcall.2.2.2 ▸ hcall
  obtain ⟨hcA, hdA⟩ := hdag hS hA hcallA
  obtain ⟨hcB, hdB⟩ := hdag hS' hB hcallB
  exact Node.sameCommit_of_dag_eq (hcA.trans hcB.symm) (hdA.trans hdB.symm)

/-- The DAG of the first of four nodes after it received three vertices of round `4`. -/
def sharedDag : Dag :=
  (((Run.exec (step Sample.platform) (init Sample.platform Sample.four)
    (Sample.fourNodes [1, 2, 3] [1, 2, 3])).bind fun N => N.nodes[0]?).map Node.dag).getD
      ⟨OrderedMap.empty, 0⟩

/-- Two of four nodes receive the same vertices of round `4` and commit wave `1`. -/
theorem outputs_comparable_four :
    ∃ N A B, IsRun Sample.platform Sample.four (Sample.fourNodes [1, 2, 3] [1, 2, 3]) N ∧
      N.nodes[0]? = some A ∧ N.nodes[1]? = some B ∧ A.consensus.vertexOutput ≠ [] ∧
      (A.consensus.vertexOutput <+: B.consensus.vertexOutput ∨
        B.consensus.vertexOutput <+: A.consensus.vertexOutput) := by
  obtain ⟨N, A, B, h, hA, hB, hout⟩ := exists_isRun Sample.platform Sample.four
    (Sample.fourNodes [1, 2, 3] [1, 2, 3]) 0 1 (fun A _ => A.consensus.vertexOutput ≠ [])
    (by decide) (by decide +kernel)
  have hround : Run.Throughout (step Sample.platform) NotWrapped
      (init Sample.platform Sample.four) (Sample.fourNodes [1, 2, 3] [1, 2, 3]) := by
    decide +kernel
  have hsame : SameCommits Sample.platform Sample.four (Sample.fourNodes [1, 2, 3] [1, 2, 3]) :=
    sameCommits_of_dag_eq sharedDag (by decide +kernel)
  exact ⟨N, A, B, h, hA, hB, hout, outputs_comparable h hround hsame (Run.Visits.last h.exec)
    (Run.Visits.last h.exec) (List.mem_of_getElem? hA) (List.mem_of_getElem? hB)⟩

/-- Two of four nodes receive different vertices of round `4` and commit wave `1`: each sends
the three that it received, and neither sequence is a prefix of the other. -/
theorem outputs_diverge :
    ∃ N A B, IsRun Sample.platform Sample.four (Sample.fourNodes [1, 2, 3] [2, 3, 4]) N ∧
      Run.Throughout (step Sample.platform) NotWrapped (init Sample.platform Sample.four)
        (Sample.fourNodes [1, 2, 3] [2, 3, 4]) ∧
      N.nodes[0]? = some A ∧ N.nodes[1]? = some B ∧
      ¬ (A.consensus.vertexOutput <+: B.consensus.vertexOutput ∨
        B.consensus.vertexOutput <+: A.consensus.vertexOutput) := by
  obtain ⟨N, A, B, h, hA, hB, hout⟩ := exists_isRun Sample.platform Sample.four
    (Sample.fourNodes [1, 2, 3] [2, 3, 4]) 0 1
    (fun A B => ¬ (A.consensus.vertexOutput <+: B.consensus.vertexOutput ∨
      B.consensus.vertexOutput <+: A.consensus.vertexOutput))
    (by decide) (by decide +kernel)
  exact ⟨N, A, B, h, by decide +kernel, hA, hB, hout⟩

end Network

end DagRider
