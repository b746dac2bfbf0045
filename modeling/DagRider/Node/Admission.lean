import DagRider.Node.Membership

set_option relaxedAutoImplicit false
set_option autoImplicit false

/-!
# Which vertices the admission loop keeps

The buffer is a local variable of a pass, and the admission loop scans it once: a vertex that
is not admissible when the loop comes to it is gone. This file follows every vertex from its
arrival to the scan, and says when none is lost.

## Main definitions

* `DagRider.Node.scanned` — what the admission loop decides, as an observer of the steps.
* `DagRider.Node.Scanned` — the verdicts so far, the buffer and the DAG.
* `DagRider.Node.Complete` — a vertex that has all its ancestors among given vertices.
* `DagRider.Node.RejectsForGood` — what is turned away can never be admitted.

## Main results

* `DagRider.Node.scanned_run` — `Scanned` holds after every run.
* `DagRider.Node.admissible_vertices_stored` — when every admissible vertex is stored.
-/

namespace DagRider

namespace Node

variable {P : Platform} {nodeId : NodePublicKey} {committee : Committee}
  {es : List NodeEvent} {nd nd' : Node} {e : NodeEvent}

/-- The verdict of the admission loop on the vertex it takes. -/
def scanned (nd : Node) (e : NodeEvent) : List (Vertex × Bool) :=
  match e, nd.phase, nd.buffer with
  | .scan, .scan, v :: _ => [(v, nd.consensus.isAdmissible v)]
  | _, _, _ => []

/-- The verdicts of the admission loop over a run. -/
abbrev verdicts (P : Platform) (nodeId : NodePublicKey) (committee : Committee)
    (es : List NodeEvent) : List (Vertex × Bool) :=
  Run.trace (step P) scanned (init P nodeId committee) es

/-- The verdicts so far, the buffer and the DAG, after the events `p` of a run with the events
`es`. -/
structure Scanned (P : Platform) (nodeId : NodePublicKey) (committee : Committee)
    (es p : List NodeEvent) (nd : Node) : Prop where
  /-- Between passes there is no buffer. -/
  drained : nd.phase = .drain → nd.buffer = []
  /-- Every vertex received has its verdict or waits in the buffer. -/
  all : (verdicts P nodeId committee p).map Prod.fst ++ nd.buffer =
    p.flatMap NodeEvent.vertices
  /-- What was accepted is stored. -/
  accepted : ∀ v, (v, true) ∈ verdicts P nodeId committee p → v ∈ nd.dag.vertices
  /-- Only accepted vertices and genesis vertices are stored. -/
  known : ∀ v ∈ nd.dag.vertices, v ∈ Vertex.genesis P committee.getNodesKeys ∨
    (v, true) ∈ verdicts P nodeId committee p
  /-- A genesis vertex that is ever received stays stored. -/
  genesis : ∀ v ∈ Vertex.genesis P committee.getNodesKeys, v ∈ es.flatMap NodeEvent.vertices →
    v ∈ nd.dag.vertices

/-- Distinct slots, in the form in which the proofs use them. -/
lemma eq_of_slot
    (hdistinct : ((es.flatMap NodeEvent.vertices).map fun v => (v.round, v.owner)).Nodup)
    {u v : Vertex} (hu : u ∈ es.flatMap NodeEvent.vertices)
    (hv : v ∈ es.flatMap NodeEvent.vertices) (hslot : u.round = v.round ∧ u.owner = v.owner) :
    u = v :=
  List.inj_on_of_nodup_map hdistinct hu hv (Prod.ext hslot.1 hslot.2)

/-- What the beginning of a run receives, the run receives. -/
lemma received_mono {p : List NodeEvent} (h : p <+: es) {v : Vertex}
    (hv : v ∈ p.flatMap NodeEvent.vertices) : v ∈ es.flatMap NodeEvent.vertices := by
  obtain ⟨q, rfl⟩ := h
  rw [List.flatMap_append]
  exact List.mem_append_left _ hv

/-- The verdicts after one more step. -/
lemma verdicts_concat {p : List NodeEvent} (h : run P nodeId committee p = some nd) :
    verdicts P nodeId committee (p ++ [e]) = verdicts P nodeId committee p ++ scanned nd e :=
  Run.trace_concat h

/-- A step hands the head of the buffer over to the verdicts, and what it receives to the
buffer. -/
lemma scanned_append_buffer (hdrained : nd.phase = .drain → nd.buffer = [])
    (h : nd.step P e = some nd') :
    (scanned nd e).map Prod.fst ++ nd'.buffer = nd.buffer ++ e.vertices := by
  rcases step_cases h with ⟨vs, bs, rfl, hphase, rfl⟩ | ⟨v, buffer, rfl, hphase, hbuf, rfl⟩ |
    ⟨fuel, c, rfl, ⟨hphase, hbuf⟩, hc, rfl⟩
  · rw [hdrained hphase]
    rfl
  · simp [scanned, hphase, hbuf, NodeEvent.vertices]
  · simp [scanned, hbuf, NodeEvent.vertices]

/-- **What a step does to the DAG, by its verdict**: it inserts the vertex it accepts. -/
lemma dag_of_verdict (h : nd.step P e = some nd') :
    (nd'.dag = nd.dag ∧ ∀ v, (v, true) ∉ scanned nd e) ∨
    ∃ v, nd'.dag = nd.dag.insertVertex P v ∧ scanned nd e = [(v, true)] := by
  rcases step_cases h with ⟨vs, bs, rfl, -, rfl⟩ | ⟨v, buffer, rfl, hphase, hbuf, rfl⟩ |
    ⟨fuel, c, rfl, -, hc, rfl⟩
  · exact Or.inl ⟨rfl, fun v => List.not_mem_nil⟩
  · rcases Consensus.scanVertex_cases P nd.consensus v with ⟨hadm, ha⟩ | ⟨hadm, ha⟩
    · exact Or.inr ⟨v, by simp [dag, ha], by simp [scanned, hphase, hbuf, hadm]⟩
    · exact Or.inl ⟨by simp [dag, ha], by simp [scanned, hphase, hbuf, hadm]⟩
  · exact Or.inl ⟨(Consensus.advance_frame hc).2.2, fun v => List.not_mem_nil⟩

/-- The scan starts with nothing received and the genesis vertices stored. -/
lemma scanned_init : Scanned P nodeId committee es [] (init P nodeId committee) where
  drained := fun _ => rfl
  all := rfl
  accepted := fun _ hv => absurd hv List.not_mem_nil
  known := fun _ hv => Or.inl (Dag.mem_root_of_mem_new hv)
  genesis := fun _ hv _ =>
    Dag.mem_new_of_mem_root (fun _ hu _ hw => Vertex.genesis_unique hu hw) hv

/-- **`Scanned` holds after every beginning of a run** whose received vertices have distinct
slots.

**Proof sketch.** Induction over the run. The verdicts and the buffer stay the vertices received
(`scanned_append_buffer`), and the DAG changes by the accepted vertices only
(`dag_of_verdict`). A stored vertex that was received is not replaced then, because its slot is
its own. -/
theorem scanned_run
    (hdistinct : ((es.flatMap NodeEvent.vertices).map fun v => (v.round, v.owner)).Nodup)
    {p : List NodeEvent} (hp : p <+: es) (h : run P nodeId committee p = some nd) :
    Scanned P nodeId committee es p nd := by
  refine Run.history_induction
    (J := fun p nd => p <+: es → Scanned P nodeId committee es p nd) (fun _ => scanned_init) ?_ h hp
  intro p nd e nd' hnd ih hstep hpre
  have hI := ih ((List.prefix_append p [e]).trans hpre)
  have htrace : verdicts P nodeId committee (p ++ [e]) =
      verdicts P nodeId committee p ++ scanned nd e := verdicts_concat hnd
  have hdrained : nd'.phase = .drain → nd'.buffer = [] := by
    rcases step_cases hstep with ⟨vs, bs, -, -, rfl⟩ | ⟨v, buffer, -, -, -, rfl⟩ |
      ⟨fuel, c, -, -, -, rfl⟩ <;> simp
  have hall : (verdicts P nodeId committee (p ++ [e])).map Prod.fst ++ nd'.buffer =
      (p ++ [e]).flatMap NodeEvent.vertices := by
    rw [htrace, List.map_append, List.append_assoc, scanned_append_buffer hI.drained hstep,
      ← List.append_assoc, hI.all, List.flatMap_append, List.flatMap_singleton]
  have hreceived : ∀ v b, (v, b) ∈ verdicts P nodeId committee (p ++ [e]) →
      v ∈ es.flatMap NodeEvent.vertices := by
    intro v b hv
    apply received_mono hpre
    rw [← hall]
    exact List.mem_append_left _ (List.mem_map_of_mem hv)
  rcases dag_of_verdict hstep with ⟨hdag, hnone⟩ | ⟨v, hdag, hverdict⟩
  · refine ⟨hdrained, hall, ?_, ?_, ?_⟩
    all_goals rw [hdag]
    · intro u hu
      rw [htrace] at hu
      exact hI.accepted u ((List.mem_append.mp hu).resolve_right (hnone u))
    · intro u hu
      rw [htrace]
      exact (hI.known u hu).imp_right (List.mem_append_left _)
    · exact hI.genesis
  · rw [hverdict] at htrace
    have hslot := (basic hnd).wellSlotted
    have hv : v ∈ es.flatMap NodeEvent.vertices := by
      apply hreceived v true
      rw [htrace]
      exact List.mem_append_right _ (List.mem_singleton_self _)
    -- the new vertex is stored, and the received ones keep their slots
    have hkeep : ∀ u ∈ nd.dag.vertices, u ∈ es.flatMap NodeEvent.vertices →
        u ∈ (nd.dag.insertVertex P v).vertices := by
      intro u hu hes
      rw [Dag.mem_insertVertex hslot]
      by_cases huv : u = v
      · exact Or.inl huv
      · exact Or.inr ⟨hu, fun hs => huv (eq_of_slot hdistinct hes hv hs)⟩
    refine ⟨hdrained, hall, ?_, ?_, ?_⟩
    all_goals rw [hdag]
    · intro u hu
      have hes := hreceived u true hu
      rw [htrace, List.mem_append, List.mem_singleton] at hu
      rcases hu with hu | hu
      · exact hkeep u (hI.accepted u hu) hes
      · rw [(Prod.mk.inj hu).1]
        exact (Dag.mem_insertVertex hslot).mpr (Or.inl rfl)
    · intro u hu
      rw [htrace]
      rcases (Dag.mem_insertVertex hslot).mp hu with rfl | ⟨hu, -⟩
      · exact Or.inr (List.mem_append_right _ (List.mem_singleton_self _))
      · exact (hI.known u hu).imp_right (List.mem_append_left _)
    · exact fun u hu hes => hkeep u (hI.genesis u hu hes) hes

/-- A vertex has one verdict. -/
lemma verdict_unique
    (hdistinct : ((es.flatMap NodeEvent.vertices).map fun v => (v.round, v.owner)).Nodup)
    {p : List NodeEvent} (hp : p <+: es) (hI : Scanned P nodeId committee es p nd) {v : Vertex}
    {a b : Bool} (ha : (v, a) ∈ verdicts P nodeId committee p)
    (hb : (v, b) ∈ verdicts P nodeId committee p) : a = b := by
  have hnodup : (p.flatMap NodeEvent.vertices).Nodup := by
    obtain ⟨q, rfl⟩ := hp
    rw [List.flatMap_append, List.map_append] at hdistinct
    exact List.Nodup.of_map _ (List.nodup_append.mp hdistinct).1
  rw [← hI.all] at hnodup
  have hfst := (List.nodup_append.mp hnodup).1
  exact (Prod.mk.inj (List.inj_on_of_nodup_map hfst ha hb rfl)).2

/-- **What is lost was turned away.** Over a run whose received vertices have distinct rounds and
owners: after every admission loop every vertex received so far that is admissible is stored, if and
only if no vertex that an admission loop turned away, then or before, is admissible after an
admission loop. (A genesis vertex that comes back to the node is stored anyway.)

**Proof sketch.** After an admission loop every vertex received has its verdict, and by
`Scanned` the stored ones are the accepted ones and genesis. So the admissible vertices that
are missing are those turned away. -/
lemma stored_iff_turned_away
    (hdistinct : ((es.flatMap NodeEvent.vertices).map fun v => (v.round, v.owner)).Nodup) :
    (∀ p nd, p <+: es → run P nodeId committee p = some nd → nd.ScanDone →
      ∀ v ∈ p.flatMap NodeEvent.vertices, nd.consensus.isAdmissible v = true →
        v ∈ nd.dag.vertices) ↔
    ∀ p nd, p <+: es → run P nodeId committee p = some nd → nd.ScanDone →
      ∀ v, (v, false) ∈ verdicts P nodeId committee p →
        v ∉ Vertex.genesis P committee.getNodesKeys → nd.consensus.isAdmissible v = false := by
  constructor
  · intro hstored p nd hp hnd hdone v hv hgenesis
    have hI := scanned_run hdistinct hp hnd
    have hreceived : v ∈ p.flatMap NodeEvent.vertices := by
      rw [← hI.all]
      exact List.mem_append_left _ (List.mem_map_of_mem hv)
    by_contra hadm
    rw [Bool.not_eq_false] at hadm
    rcases hI.known v (hstored p nd hp hnd hdone v hreceived hadm) with h | h
    · exact hgenesis h
    · exact absurd (verdict_unique hdistinct hp hI hv h) (by decide)
  · intro hreject p nd hp hnd hdone v hv hadm
    have hI := scanned_run hdistinct hp hnd
    have hall := hI.all
    rw [hdone.2, List.append_nil] at hall
    rw [← hall] at hv
    obtain ⟨⟨v, accepted⟩, hverdict, rfl⟩ := List.mem_map.mp hv
    cases accepted with
    | true => exact hI.accepted v hverdict
    | false =>
      by_cases hgenesis : v ∈ Vertex.genesis P committee.getNodesKeys
      · refine hI.genesis v hgenesis (received_mono hp ?_)
        rw [← hall]
        exact hv
      · have hno := hreject p nd hp hnd hdone v hverdict hgenesis
        rw [hno] at hadm
        exact absurd hadm (by decide)

/-! ## What cannot be admitted any more -/

/-- The scan that turned a vertex away. -/
lemma exists_scan_of_verdict {p : List NodeEvent} (h : run P nodeId committee p = some nd)
    {v : Vertex} (hv : (v, false) ∈ verdicts P nodeId committee p) :
    ∃ p₀ q nd₀ buffer, p = p₀ ++ .scan :: q ∧ run P nodeId committee p₀ = some nd₀ ∧
      nd₀.buffer = v :: buffer ∧ nd₀.consensus.isAdmissible v = false := by
  obtain ⟨p₀, e, q, nd₀, rfl, hnd₀, hscan⟩ := Run.exists_step_of_mem_trace h hv
  unfold scanned at hscan
  split at hscan
  · rename_i u buffer _ hbuf
    obtain ⟨rfl, hadm⟩ := Prod.mk.inj (List.mem_singleton.mp hscan)
    exact ⟨p₀, q, nd₀, buffer, rfl, hnd₀, hbuf, hadm.symm⟩
  · exact absurd hscan List.not_mem_nil

/-- The number of passes that end. -/
def passes (es : List NodeEvent) : ℕ :=
  es.countP fun e => match e with
    | .finish _ => true
    | .drain _ _ | .scan => false

/-- A pass takes a node to the next round at most. -/
lemma currentRound_le {q : List NodeEvent} (h : Run.exec (step P) nd q = some nd') :
    nd'.currentRound ≤ nd.currentRound + passes q := by
  refine Run.history_induction (J := fun q nd' => nd'.currentRound ≤ nd.currentRound + passes q)
    le_rfl ?_ h
  intro q s e s' _ ih hstep
  have hpasses : passes (q ++ [e]) = passes q + passes [e] := List.countP_append
  by_cases hadv : s.Advances e
  · obtain ⟨fuel, rfl⟩ := hadv.1
    have hone : passes [.finish fuel] = 1 := rfl
    have hnext : s.consensus.nextRound ≤ s.currentRound + 1 := Nat.mod_le _ _
    rw [(next_of_advances hadv hstep).1]
    omega
  · rw [round_of_not_advances hadv hstep]
    omega

/-- The vertex has all its ancestors among the vertices of `pool`: its parent entries are the hashes
and rounds of vertices of the pool, which have all their ancestors there. -/
inductive Complete (pool : List Vertex) : Vertex → Prop
  | of_parents {v : Vertex} (parent : VertexHash × ℕ → Vertex)
      (hparent : ∀ e ∈ v.parents.entries,
        parent e ∈ pool ∧ (parent e).hash = e.1 ∧ (parent e).round = e.2)
      (hcomplete : ∀ e ∈ v.parents.entries, Complete pool (parent e)) : Complete pool v

/-- The ancestors of a vertex are those of its parents, and its parents. -/
lemma complete_iff {pool : List Vertex} {v : Vertex} :
    Complete pool v ↔ ∀ e ∈ v.parents.entries,
      ∃ u ∈ pool, u.hash = e.1 ∧ u.round = e.2 ∧ Complete pool u := by
  constructor
  · rintro ⟨parent, hparent, hcomplete⟩ e he
    obtain ⟨hpool, hhash, hround⟩ := hparent e he
    exact ⟨parent e, hpool, hhash, hround, hcomplete e he⟩
  · intro h
    have : Nonempty Vertex := ⟨v⟩
    choose! parent hpool hhash hround hcomplete using h
    exact .of_parents parent (fun e he => ⟨hpool e he, hhash e he, hround e he⟩) hcomplete

/-- What can be admitted next to stored vertices that have all their ancestors has all its own. -/
lemma complete_of_isAdmissible {pool : List Vertex} (hslot : nd.dag.WellSlotted)
    (hpool : ∀ u ∈ nd.dag.vertices, u ∈ pool ∧ Complete pool u) {v : Vertex}
    (hadm : nd.consensus.isAdmissible v = true) : Complete pool v := by
  simp only [Consensus.isAdmissible, Bool.and_eq_true] at hadm
  refine complete_iff.mpr fun e he => ?_
  obtain ⟨u, hu, hhash, hround⟩ := hslot.containsVertices_iff.mp hadm.2 e he
  exact ⟨u, (hpool u hu).1, hhash, hround, (hpool u hu).2⟩

/-- Stored vertices have all their ancestors among the genesis vertices and those that the run
receives. -/
lemma complete_stored {p : List NodeEvent} (hp : p <+: es)
    (h : run P nodeId committee p = some nd) :
    ∀ v ∈ nd.dag.vertices, v ∈ known P committee es ∧ Complete (known P committee es) v := by
  refine Run.history_induction (J := fun p nd => p <+: es → ∀ v ∈ nd.dag.vertices,
    v ∈ known P committee es ∧ Complete (known P committee es) v) ?_ ?_ h hp
  · intro _ v hv
    have hgenesis := Dag.mem_root_of_mem_new hv
    refine ⟨List.mem_append_left _ hgenesis, complete_iff.mpr fun e he => ?_⟩
    rw [(Vertex.of_mem_genesis hgenesis).2.2] at he
    exact absurd he List.not_mem_nil
  · intro p nd e nd' hnd ih hstep hpre
    have hI := ih ((List.prefix_append p [e]).trans hpre)
    have hslot := (basic hnd).wellSlotted
    rcases dag_cases hstep with hdag | ⟨v, buffer, -, -, hbuf, hadm, hdag⟩
    · rw [hdag]
      exact hI
    · rw [hdag]
      intro u hu
      rcases (Dag.mem_insertVertex hslot).mp hu with rfl | ⟨hu, -⟩
      · have hreceived := (stored hnd).buffer u (hbuf ▸ List.mem_cons_self)
        have hmem : u ∈ known P committee p := List.mem_append_right _ hreceived
        exact ⟨known_subset ((List.prefix_append p [e]).trans hpre) hmem,
          complete_of_isAdmissible hslot hI hadm⟩
      · exact hI u hu

/-- What a scan turns away is out for good: a genesis vertex (which is stored), a vertex of which
the whole run does not receive all ancestors, or one of a round that the rest of the passes cannot
lead to. -/
def RejectsForGood (P : Platform) (nodeId : NodePublicKey) (committee : Committee)
    (es : List NodeEvent) : Prop :=
  ∀ p q nd v buffer, es = p ++ .scan :: q → run P nodeId committee p = some nd →
    nd.buffer = v :: buffer → nd.consensus.isAdmissible v = false →
    v ∈ Vertex.genesis P committee.getNodesKeys ∨ ¬ Complete (known P committee es) v ∨
      nd.currentRound + passes q < v.round

/-- **No admissible vertex is lost, where what is turned away is out for good.** In every run of a
node whose received vertices have distinct rounds and owners, and in which each vertex that a scan
comes to is admissible then, or is a genesis vertex, or has an ancestor that the whole run does not
receive, or has a round that the rest of the passes cannot lead to: after every admission loop each
vertex received so far whose round has come and whose parents are stored is itself stored.

**Proof sketch.** Stored vertices have all their ancestors (`complete_stored`), and a pass leads to
the next round at most (`currentRound_le`), so what was turned away is not admissible later. -/
theorem admissible_vertices_stored
    (hdistinct : ((es.flatMap NodeEvent.vertices).map fun v => (v.round, v.owner)).Nodup)
    (hforgood : RejectsForGood P nodeId committee es) :
    ∀ p nd, p <+: es → run P nodeId committee p = some nd → nd.ScanDone →
      ∀ v ∈ p.flatMap NodeEvent.vertices, nd.consensus.isAdmissible v = true →
        v ∈ nd.dag.vertices := by
  refine (stored_iff_turned_away hdistinct).mpr ?_
  intro p nd hp hnd hdone v hv hgenesis
  obtain ⟨p₀, q, nd₀, buffer, rfl, hnd₀, hbuf, hturned⟩ := exists_scan_of_verdict hnd hv
  by_contra hadm
  rw [Bool.not_eq_false] at hadm
  obtain ⟨fs, hfs⟩ := hp
  have hsplit : es = p₀ ++ .scan :: (q ++ fs) := by
    rw [← hfs, List.append_assoc, List.cons_append]
  rcases hforgood p₀ (q ++ fs) nd₀ v buffer hsplit hnd₀ hbuf hturned with
    hmem | hlacks | hround
  · exact hgenesis hmem
  · exact hlacks (complete_of_isAdmissible (basic hnd).wellSlotted
      (complete_stored ⟨fs, hfs⟩ hnd) hadm)
  · obtain ⟨s, hs, hrest⟩ := Run.exec_append_eq_some.mp hnd
    obtain rfl : nd₀ = s := Option.some.inj (hnd₀.symm.trans hs)
    have hle := currentRound_le hrest
    have hscan : passes (.scan :: q) = passes q := rfl
    have hmore : passes (q ++ fs) = passes q + passes fs := List.countP_append
    simp only [Consensus.isAdmissible, Bool.and_eq_true, decide_eq_true_eq] at hadm
    have hcome : v.round ≤ nd.currentRound := hadm.1
    omega

/-- A node of round `3` receives a vertex with a parent that it never receives, and another one. -/
def strayChild : List NodeEvent :=
  Sample.roundTwo [1, 2, 3] ++
    [.drain [Sample.vertex 3 [2, 3, 4] 1, Sample.vertex 3 [1, 2, 3] 2] [], .scan, .scan]

/-- The one is turned away for good, and all that is admissible is stored. -/
theorem admissible_vertices_stored_stray :
    ∃ nd, run Sample.platform 1 Sample.four strayChild = some nd ∧ nd.ScanDone ∧
      nd.consensus.isAdmissible (Sample.vertex 3 [2, 3, 4] 1) = false ∧
      ∀ v ∈ strayChild.flatMap NodeEvent.vertices, nd.consensus.isAdmissible v = true →
        v ∈ nd.dag.vertices := by
  obtain ⟨nd, hnd, hv⟩ : ∃ nd, run Sample.platform 1 Sample.four strayChild = some nd ∧
      decide (nd.ScanDone ∧ nd.consensus.isAdmissible (Sample.vertex 3 [2, 3, 4] 1) = false) =
        true := Run.exists_exec_of_any (by decide +kernel)
  obtain ⟨hdone, hturned⟩ := of_decide_eq_true hv
  have hheads : ∀ p ∈ strayChild.inits, ∀ s ∈ run Sample.platform 1 Sample.four p,
      ∀ v ∈ s.buffer.head?, s.consensus.isAdmissible v = true ∨
        v = Sample.vertex 3 [2, 3, 4] 1 := by decide +kernel
  have hforgood : RejectsForGood Sample.platform 1 Sample.four strayChild := by
    intro p q s v buffer hsplit hs hbuf hrejected
    have hpre : p <+: strayChild := ⟨_, hsplit.symm⟩
    have hhead : v ∈ s.buffer.head? := by
      rw [hbuf]
      exact rfl
    rcases hheads p ((List.mem_inits _ _).mpr hpre) s hs v hhead with hadm | rfl
    · rw [hadm] at hrejected
      exact absurd hrejected (by decide)
    · refine Or.inr (Or.inl fun hcomplete => ?_)
      have hmissing : ∃ e ∈ (Sample.vertex 3 [2, 3, 4] 1).parents.entries,
          ∀ u ∈ known Sample.platform Sample.four strayChild, u.hash ≠ e.1 := by decide +kernel
      obtain ⟨e, he, hnone⟩ := hmissing
      obtain ⟨u, hu, hhash, -⟩ := complete_iff.mp hcomplete e he
      exact hnone u hu hhash
  exact ⟨nd, hnd, hdone, hturned, admissible_vertices_stored (by decide +kernel) hforgood _ nd
    List.prefix_rfl hnd hdone⟩

/-- A node of round `3` receives a vertex before its parent, in one batch. -/
def childFirst : List NodeEvent :=
  Sample.roundTwo [1, 2, 3] ++
    [.drain [Sample.vertex 3 [2, 3, 4] 1, Sample.vertex 2 [1, 2, 3, 4] 4] [], .scan, .scan]

/-- The child is turned away, and when the scan is over it is admissible and not stored. -/
theorem child_before_parent_lost :
    ((childFirst.flatMap NodeEvent.vertices).map fun v => (v.round, v.owner)).Nodup ∧
    ∃ nd, run Sample.platform 1 Sample.four childFirst = some nd ∧ nd.ScanDone ∧
      ∃ v ∈ childFirst.flatMap NodeEvent.vertices, nd.consensus.isAdmissible v = true ∧
        v ∉ nd.dag.vertices := by
  refine ⟨by decide +kernel, ?_⟩
  obtain ⟨nd, hnd, hv⟩ : ∃ nd, run Sample.platform 1 Sample.four childFirst = some nd ∧
      decide ((nd.phase = .scan ∧ nd.buffer = []) ∧
        ∃ v ∈ childFirst.flatMap NodeEvent.vertices, nd.consensus.isAdmissible v = true ∧
          v ∉ nd.dag.vertices) = true := Run.exists_exec_of_any (by decide +kernel)
  obtain ⟨hdone, hlost⟩ := of_decide_eq_true hv
  exact ⟨nd, hnd, hdone, hlost⟩

end Node

end DagRider
