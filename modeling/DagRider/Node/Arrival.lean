import DagRider.Node.Proposals

set_option relaxedAutoImplicit false
set_option autoImplicit false

/-!
# The order in which blocks are proposed

Blocks are appended to those that wait, and `createNewVertex` takes the last of them. So a node
proposes blocks in the order of their arrival as long as no second block waits when it advances; and
if the blocks are distinct, only then.

## Main definitions

* `DagRider.Node.received`, `DagRider.Node.proposedBlocks` — the blocks that came in, and those that
  went out.
* `DagRider.Node.OneWaiting` — no second block waits when the node advances.

## Main results

* `DagRider.Node.blocks_cases` — what a step does to the blocks.
* `DagRider.Node.proposed_in_order` — when blocks are proposed in the order of their arrival.
-/

namespace DagRider

namespace Node

variable {P : Platform} {nodeId : NodePublicKey} {committee : Committee}
  {es : List NodeEvent} {nd nd' : Node} {e : NodeEvent}

/-- The blocks received in a run, in order. -/
def received (es : List NodeEvent) : List Block := es.flatMap NodeEvent.blocks

/-- The blocks of the vertices that the node has broadcast, in order. -/
def proposedBlocks (nd : Node) : List Block := nd.consensus.vertexToBroadcast.map Vertex.block

/-- When the node advances, at most one block is waiting. -/
def OneWaiting (nd : Node) (e : NodeEvent) : Prop :=
  nd.Advances e → nd.consensus.blocksToPropose.length ≤ 1

/-- The blocks received in a run with one more event. -/
lemma received_concat (es : List NodeEvent) (e : NodeEvent) :
    received (es ++ [e]) = received es ++ e.blocks := by
  unfold received
  rw [List.flatMap_append, List.flatMap_singleton]

/-- **What a step does to the blocks**: it adds what it receives to those that wait, or advances and
broadcasts the last of these. -/
lemma blocks_cases (h : nd.step P e = some nd') :
    (¬ nd.Advances e ∧ nd'.proposedBlocks = nd.proposedBlocks ∧
      nd'.consensus.blocksToPropose = nd.consensus.blocksToPropose ++ e.blocks) ∨
    ∃ block, nd.Advances e ∧ e.blocks = [] ∧
      nd'.proposedBlocks = nd.proposedBlocks ++ [block] ∧
      nd.consensus.blocksToPropose = nd'.consensus.blocksToPropose ++ [block] := by
  rcases step_cases h with ⟨vs, bs, rfl, -, rfl⟩ | ⟨v, buffer, rfl, -, -, rfl⟩ |
    ⟨fuel, c, rfl, -, hc, rfl⟩
  · refine Or.inl ⟨?_, rfl, rfl⟩
    rintro ⟨⟨fuel, he⟩, -⟩
    cases he
  · have hscan : (nd.consensus.scanVertex P v).blocksToPropose = nd.consensus.blocksToPropose := by
      rcases Consensus.scanVertex_cases P nd.consensus v with ⟨-, ha⟩ | ⟨-, ha⟩ <;> rw [ha]
    have hsent := (Consensus.quiet_scanVertex P nd.consensus v).vertexToBroadcast
    refine Or.inl ⟨?_, congrArg (List.map Vertex.block) hsent,
      hscan.trans (List.append_nil _).symm⟩
    rintro ⟨⟨fuel, he⟩, -⟩
    cases he
  · rcases Consensus.advance_cases hc with ⟨hnot, rfl⟩ | ⟨hcan, d, block, v, -, hblock, hv, rfl⟩
    · refine Or.inl ⟨?_, rfl, (List.append_nil _).symm⟩
      rintro ⟨-, hcan⟩
      rw [hcan] at hnot
      cases hnot
    · refine Or.inr ⟨block, ⟨⟨fuel, rfl⟩, hcan⟩, rfl, ?_, hblock⟩
      unfold proposedBlocks
      rw [← hv.block_eq]
      exact List.map_append

/-- What was proposed and what waits is what was received, in some order. -/
lemma blocks_perm (h : run P nodeId committee es = some nd) :
    (nd.proposedBlocks ++ nd.consensus.blocksToPropose).Perm (received es) := by
  refine Run.history_induction (J := fun es nd =>
    (nd.proposedBlocks ++ nd.consensus.blocksToPropose).Perm (received es)) List.Perm.nil ?_ h
  intro p nd e nd' _ hI hstep
  rw [received_concat]
  rcases blocks_cases hstep with ⟨-, hsent, hwait⟩ | ⟨block, -, hnil, hsent, hwait⟩
  · rw [hsent, hwait, ← List.append_assoc]
    exact hI.append_right _
  · rw [hwait] at hI
    rw [hnil, List.append_nil, hsent, List.append_assoc]
    refine (List.Perm.append_left _ ?_).trans hI
    exact (List.perm_append_singleton block _).symm

/-- What was proposed stays proposed. -/
lemma proposedBlocks_prefix_step (h : nd.step P e = some nd') :
    nd.proposedBlocks <+: nd'.proposedBlocks := by
  rcases blocks_cases h with ⟨-, hsent, -⟩ | ⟨block, -, -, hsent, -⟩
  · rw [hsent]
  · rw [hsent]
    exact List.prefix_append _ _

/-- **In order, as long as no second block waits.** What was proposed, and then what waits, are the
blocks received, in the order of their arrival. -/
lemma blocks_eq (h : run P nodeId committee es = some nd)
    (hone : Run.Along (step P) OneWaiting (init P nodeId committee) es) :
    nd.proposedBlocks ++ nd.consensus.blocksToPropose = received es := by
  refine hone.induction (J := fun es nd =>
    nd.proposedBlocks ++ nd.consensus.blocksToPropose = received es) rfl ?_ h
  intro p nd e nd' hnd hI hwaiting hstep
  rw [received_concat]
  rcases blocks_cases hstep with ⟨-, hsent, hwait⟩ | ⟨block, hadv, hnil, hsent, hwait⟩
  · rw [hsent, hwait, ← List.append_assoc, hI]
  · have hlen := hwaiting hadv
    rw [hwait, List.length_append, List.length_singleton] at hlen
    have hrest : nd'.consensus.blocksToPropose = [] := List.length_eq_zero_iff.mp (by omega)
    rw [hrest, List.nil_append] at hwait
    rw [hnil, hsent, hrest, List.append_nil, List.append_nil, ← hwait, hI]

/-- Distinct blocks that were proposed in the order of their arrival were proposed one by one, each
before the next came to wait.

**Proof sketch.** Induction on the run. When the last of several waiting blocks is broadcast, it is
not the first of them, which is the next in the order of arrival; and what was broadcast out of
order stays so. -/
lemma oneWaiting_of_begins (h : run P nodeId committee es = some nd)
    (hnodup : (received es).Nodup) (hbegins : nd.proposedBlocks <+: received es) :
    Run.Along (step P) OneWaiting (init P nodeId committee) es := by
  refine Run.history_induction (J := fun es nd => (received es).Nodup →
    nd.proposedBlocks <+: received es →
      Run.Along (step P) OneWaiting (init P nodeId committee) es)
    (fun _ _ => trivial) ?_ h hnodup hbegins
  intro p nd e nd' hnd ih hstep hnodup hbegins
  rw [received_concat] at hnodup hbegins
  have hbefore : nd.proposedBlocks <+: received p := by
    refine List.prefix_of_prefix_length_le ((proposedBlocks_prefix_step hstep).trans hbegins)
      (List.prefix_append _ _) ?_
    rw [← (blocks_perm hnd).length_eq, List.length_append]
    omega
  have hone := ih (List.nodup_append.mp hnodup).1 hbefore
  refine (Run.along_append hnd).mpr ⟨hone, fun hadv => ?_, fun _ _ => trivial⟩
  rcases blocks_cases hstep with ⟨hno, -, -⟩ | ⟨block, -, hnil, hsent, hwait⟩
  · exact absurd hadv hno
  · rw [hnil, List.append_nil] at hnodup hbegins
    rw [← blocks_eq hnd hone] at hnodup hbegins
    rw [hsent, List.prefix_append_right_inj] at hbegins
    have hdistinct := (List.nodup_append.mp hnodup).2.1
    rw [hwait] at hbegins hdistinct ⊢
    cases hrest : nd'.consensus.blocksToPropose with
    | nil => simp
    | cons b rest =>
      -- the first waiting block would be the last one
      rw [hrest] at hbegins hdistinct
      obtain ⟨rfl, -⟩ := List.cons_prefix_cons.mp hbegins
      simp at hdistinct

/-- **When blocks are proposed in the order of their arrival.** In every run of a node, whatever
vertices and blocks it receives and in whatever batches: if no second block waits whenever it
advances, then the blocks it has proposed are a beginning of those received; and for
distinct blocks the converse holds as well. -/
theorem proposed_in_order (h : run P nodeId committee es = some nd) :
    (Run.Along (step P) OneWaiting (init P nodeId committee) es →
      nd.proposedBlocks <+: received es) ∧
    ((received es).Nodup → nd.proposedBlocks <+: received es →
      Run.Along (step P) OneWaiting (init P nodeId committee) es) := by
  refine ⟨fun hone => ?_, fun hnodup hbegins => oneWaiting_of_begins h hnodup hbegins⟩
  rw [← blocks_eq h hone]
  exact List.prefix_append _ _

/-- A block of one transaction. -/
def blockOf (b : UInt8) : Block := ⟨[[b]], 0⟩

/-- Two passes that receive one block each. -/
def oneByOne : List NodeEvent :=
  NodeEvent.pass [] [blockOf 1] 100 ++ NodeEvent.pass [Sample.vertex 2 [1] 1] [blockOf 2] 100

/-- The node proposes both blocks, in their order. -/
theorem proposed_in_order_single :
    ∃ nd, run Sample.platform 1 Sample.single oneByOne = some nd ∧
      nd.proposedBlocks = [blockOf 1, blockOf 2] ∧ nd.proposedBlocks <+: received oneByOne := by
  have hwaiting : Run.Throughout (step Sample.platform)
      (fun nd => nd.consensus.blocksToPropose.length ≤ 1)
      (init Sample.platform 1 Sample.single) oneByOne := by decide +kernel
  obtain ⟨nd, hnd, hblocks⟩ : ∃ nd, run Sample.platform 1 Sample.single oneByOne = some nd ∧
      decide (nd.proposedBlocks = [blockOf 1, blockOf 2]) = true :=
    Run.exists_exec_of_any (by decide +kernel)
  refine ⟨nd, hnd, of_decide_eq_true hblocks, (proposed_in_order hnd).1 ?_⟩
  exact hwaiting.along fun _ e s _ _ hlen _ => hlen

/-- Of two blocks that come in one pass, the second is proposed first. -/
theorem second_block_first :
    ∃ nd, run Sample.platform 1 Sample.single
        (NodeEvent.pass [] [blockOf 1, blockOf 2] 100) = some nd ∧
      nd.proposedBlocks = [blockOf 2] ∧
      ¬ nd.proposedBlocks <+: received (NodeEvent.pass [] [blockOf 1, blockOf 2] 100) := by
  obtain ⟨nd, hnd, hblocks⟩ : ∃ nd, run Sample.platform 1 Sample.single
        (NodeEvent.pass [] [blockOf 1, blockOf 2] 100) = some nd ∧
      decide (nd.proposedBlocks = [blockOf 2]) = true :=
    Run.exists_exec_of_any (by decide +kernel)
  refine ⟨nd, hnd, of_decide_eq_true hblocks, ?_⟩
  rw [of_decide_eq_true hblocks]
  decide

end Node

end DagRider
