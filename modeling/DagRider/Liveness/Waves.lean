import DagRider.Liveness.Commits

set_option relaxedAutoImplicit false
set_option autoImplicit false

/-!
# Every wave ahead can be committed

Wherever a network is, a wave that no node has come near can still be committed by all of them: the
nodes end the passes they are in and then go round by round, the one that is behind first, each on
the complete round below. From then on every vertex names all vertices of the round below it, so the
leader of the wave is named by the whole next round.

## Main definitions

* `DagRider.Network.Paced` — the nodes go round by round, on complete rounds.

## Main results

* `DagRider.Network.Paced.exists_next` — the pace can be kept.
* `DagRider.Network.Paced.supported` — the leader of a wave is supported at this pace.
* `DagRider.Network.waves_committable` — every wave ahead can be committed by all.
-/

namespace DagRider

namespace Network

variable {P : Platform} {committee : Committee} {es : List NetworkEvent} {N : Network}
  {first R w i : ℕ} {nd : Node}

/-- The nodes are between two passes, in round `R` or the next one (or still before round `first`),
and the vertices sent for the rounds after `first` were made on complete rounds. -/
structure Paced (P : Platform) (committee : Committee) (first R : ℕ) (es : List NetworkEvent)
    (N : Network) : Prop where
  reached : Reached P committee es N
  drained : ∀ nd ∈ N.nodes, nd.phase = .drain
  ge : ∀ nd ∈ N.nodes, R ≤ nd.currentRound
  le : ∀ nd ∈ N.nodes, nd.currentRound ≤ max first (R + 1)
  made : ∀ v ∈ N.sent, first < v.round → ∃ c,
    MadeOf P (N.vertices P committee) c v ∧ c.state.currentRound + 1 = v.round

/-- A vertex that was made on a complete round, seen later: nothing was added to that round. -/
lemma MadeOf.mono {U U' : List Vertex} {c : Consensus} {v : Vertex} (h : MadeOf P U c v)
    (hsub : ∀ u ∈ U, u ∈ U') (hnew : ∀ u ∈ U', u.round ≤ c.state.currentRound → u ∈ U) :
    MadeOf P U' c v where
  new := h.new
  wellSlotted := h.wellSlotted
  stored u hu := hsub u (h.stored u hu)
  complete u hu hur := h.complete u (hnew u hu hur) hur

/-- What the network has sent when one node has sent one more vertex. -/
lemma mem_sent_set {nd' : Node} {v x : Vertex} (hi : N.nodes[i]? = some nd)
    (hsent : nd'.consensus.vertexToBroadcast = nd.consensus.vertexToBroadcast ++ [v]) :
    x ∈ sent ⟨N.nodes.set i nd'⟩ ↔ x ∈ N.sent ∨ x = v := by
  have hlen : i < N.nodes.length := (List.getElem?_eq_some_iff.mp hi).1
  rw [mem_sent, mem_sent]
  constructor
  · rintro ⟨j, y, hy, hx⟩
    by_cases hij : i = j
    · subst hij
      rw [List.getElem?_set_self hlen, Option.some.injEq] at hy
      subst hy
      rw [hsent, List.mem_append, List.mem_singleton] at hx
      exact hx.imp_left fun hx => ⟨i, nd, hi, hx⟩
    · rw [List.getElem?_set_ne hij] at hy
      exact Or.inl ⟨j, y, hy, hx⟩
  · rintro (⟨j, y, hy, hx⟩ | rfl)
    · by_cases hij : i = j
      · subst hij
        have hsame : y = nd := Option.some.inj (hy.symm.trans hi)
        subst hsame
        exact ⟨i, nd', List.getElem?_set_self hlen, hsent ▸ List.mem_append_left _ hx⟩
      · exact ⟨j, y, (List.getElem?_set_ne hij).trans hy, hx⟩
    · exact ⟨i, nd', List.getElem?_set_self hlen, hsent ▸ List.mem_append_right _ (by simp)⟩

/-- **The pace can be kept**: a node of round `R` comes to the next one, with a vertex made on the
complete round. -/
lemma Paced.exists_next (h : Paced P committee first R es N) (hi : N.nodes[i]? = some nd)
    (hR : nd.currentRound = R) (hlt : R + 1 < 2 ^ 32) :
    ∃ fs nd', Paced P committee first R (es ++ fs) ⟨N.nodes.set i nd'⟩ ∧
      nd'.currentRound = R + 1 := by
  have hmem : nd ∈ N.nodes := List.mem_of_getElem? hi
  obtain ⟨fs, nd', c, v, h', hphase, hround, hsent, hc, hmade⟩ :=
    h.reached.exists_advanced hi (h.drained nd hmem) (fun x hx => hR ▸ h.ge x hx) (by omega)
  have hv : v.round = R + 1 := by
    obtain ⟨block, hnew⟩ := hmade.new
    rw [hnew.round_eq, Consensus.nextRound, hc, hR]
    exact Nat.mod_eq_of_lt hlt
  have hvertices : ∀ x, x ∈ vertices P committee ⟨N.nodes.set i nd'⟩ ↔
      x ∈ N.vertices P committee ∨ x = v := by
    intro x
    unfold vertices
    rw [List.mem_append, List.mem_append, mem_sent_set hi hsent, or_assoc]
  -- what was made before was made on rounds up to `R`, and the new vertex is of the next one
  have hlift : ∀ {c' : Consensus} {x : Vertex}, MadeOf P (N.vertices P committee) c' x →
      c'.state.currentRound ≤ R →
      MadeOf P (vertices P committee ⟨N.nodes.set i nd'⟩) c' x := by
    intro c' x hx hle
    refine hx.mono (fun u hu => (hvertices u).mpr (Or.inl hu)) fun u hu hur => ?_
    rcases (hvertices u).mp hu with hu | rfl
    · exact hu
    · omega
  refine ⟨fs, nd', ⟨h', fun x hx => ?_, fun x hx => ?_, fun x hx => ?_, fun x hx hlate => ?_⟩,
    by omega⟩
  · rcases List.mem_or_eq_of_mem_set hx with hx | rfl
    · exact h.drained x hx
    · exact hphase
  · rcases List.mem_or_eq_of_mem_set hx with hx | rfl
    · exact h.ge x hx
    · omega
  · rcases List.mem_or_eq_of_mem_set hx with hx | rfl
    · exact h.le x hx
    · have := le_max_right first (R + 1)
      omega
  · rcases (mem_sent_set hi hsent).mp hx with hx | rfl
    · obtain ⟨c', hmade', hc'⟩ := h.made x hx hlate
      obtain ⟨j, y, hy, hxy⟩ := mem_sent.mp hx
      obtain ⟨_, -, hm⟩ := h.reached.member hy
      have hxle := (hm.sent_round x hxy).2
      have hyle := h.le y (List.mem_of_getElem? hy)
      exact ⟨c', hlift hmade' (by omega), hc'⟩
    · exact ⟨c, hlift hmade (by omega), by omega⟩

/-- Round by round the nodes come to any later round. -/
lemma Paced.exists_round (h : Paced P committee first 0 es N) (hR : R < 2 ^ 32) :
    ∃ fs N', Paced P committee first R (es ++ fs) N' := by
  induction R with
  | zero => exact ⟨[], N, by rwa [List.append_nil]⟩
  | succ R ih =>
    obtain ⟨fs, N₁, h₁⟩ := ih (by omega)
    have hstep : ∀ es' N' i nd, Paced P committee first R es' N' → N'.nodes[i]? = some nd →
        ¬ R + 1 ≤ nd.currentRound →
        ∃ fs' nd', Paced P committee first R (es' ++ fs') ⟨N'.nodes.set i nd'⟩ ∧
          R + 1 ≤ nd'.currentRound := by
      intro es' N' i nd h' hi hnot
      have hge := h'.ge nd (List.mem_of_getElem? hi)
      obtain ⟨fs', nd', hnext, hround⟩ := h'.exists_next hi (by omega) hR
      exact ⟨fs', nd', hnext, hround.ge⟩
    obtain ⟨gs, N₂, h₂, -, hge⟩ := one_by_one hstep h₁
    refine ⟨fs ++ gs, N₂, ?_⟩
    rw [← List.append_assoc]
    refine ⟨h₂.reached, h₂.drained, hge, fun nd hnd => (h₂.le nd hnd).trans ?_, h₂.made⟩
    exact max_le_max_left first (by omega)

/-- All nodes can end the passes they are in. -/
lemma Reached.exists_paced (h : Reached P committee es N)
    (hfirst : ∀ nd ∈ N.nodes, nd.currentRound + 1 ≤ first) (hlt : first < 2 ^ 32) :
    ∃ fs N', Paced P committee first 0 (es ++ fs) N' := by
  let I : List NetworkEvent → Network → Prop := fun es' N' => Reached P committee es' N' ∧
    ∀ nd ∈ N'.nodes, nd.currentRound ≤ first ∧ (nd.phase ≠ .drain → nd.currentRound + 1 ≤ first)
  have hstart : I es N := by
    refine ⟨h, fun nd hnd => ?_⟩
    have := hfirst nd hnd
    exact ⟨by omega, fun _ => this⟩
  have hstep : ∀ es' N' i nd, I es' N' → N'.nodes[i]? = some nd → ¬ nd.phase = .drain →
      ∃ fs nd', I (es' ++ fs) ⟨N'.nodes.set i nd'⟩ ∧ nd'.phase = .drain := by
    rintro es' N' i nd ⟨h', hround⟩ hi hphase
    have hle := (hround nd (List.mem_of_getElem? hi)).2 hphase
    obtain ⟨fs, nd', h'', hphase', -, hnext⟩ := h'.exists_drained hi (by omega)
    refine ⟨fs, nd', ⟨h'', fun x hx => ?_⟩, hphase'⟩
    rcases List.mem_or_eq_of_mem_set hx with hx | rfl
    · exact hround x hx
    · exact ⟨by omega, fun hne => absurd hphase' hne⟩
  obtain ⟨fs, N', ⟨h', hround⟩, -, hphase⟩ := one_by_one hstep hstart
  refine ⟨fs, N', h', hphase, fun _ _ => Nat.zero_le _, fun nd hnd => ?_, fun v hv hlate => ?_⟩
  · exact (hround nd hnd).1.trans (le_max_left _ _)
  · obtain ⟨i, nd, hi, hv⟩ := mem_sent.mp hv
    obtain ⟨_, -, hm⟩ := h'.member hi
    have hle := (hm.sent_round v hv).2
    have hfirst := (hround nd (List.mem_of_getElem? hi)).1
    omega

/-- **At this pace the leader of a wave is supported**: every vertex of the next round names it.

**Proof sketch.** A vertex of the wave's second round was made on a complete round, so the leader
was stored at its node and became a strong parent. -/
lemma Paced.supported (h : Paced P committee (4 * w - 3) R es N) (hw : 1 ≤ w) (hR : 4 * w ≤ R)
    (hbound : R < 2 ^ 32) (hpos : 0 < committee.size)
    (hinj : Vertex.HashesInjective (N.vertices P committee)) :
    ∃ l, Supported committee (N.vertices P committee) w l := by
  have hall : ∀ r, 1 ≤ r → r ≤ R → ∀ k ∈ committee.getNodesKeys,
      ∃ v ∈ N.vertices P committee, v.round = r ∧ v.owner = k :=
    fun r h1 hr k hk => h.reached.owner_of_round h1 (fun nd hnd => hr.trans (h.ge nd hnd)) hk
  -- the key that leads the wave
  have hlen : (committee.getNodesKeys.insertionSort (· ≤ ·)).length = committee.size := by
    rw [List.length_insertionSort, Committee.length_getNodesKeys]
  have hindex : Consensus.getRoundForWave w 1 % committee.size <
      (committee.getNodesKeys.insertionSort (· ≤ ·)).length := by
    rw [hlen]
    exact Nat.mod_lt _ hpos
  obtain ⟨l, hl, hlr, hlo⟩ := hall (4 * w - 3) (by omega) (by omega) _
    ((List.mem_insertionSort _).mp (List.getElem_mem hindex))
  refine ⟨l, ⟨hl, hlr, ?_⟩, ?_⟩
  · rw [hlo]
    exact List.getElem?_eq_getElem hindex
  let Q := (N.vertices P committee).toFinset.filter fun v => v.round = 4 * w - 2
  have hQ : ∀ v ∈ Q, v ∈ N.vertices P committee ∧ v.round = 4 * w - 2 := by
    intro v hv
    obtain ⟨hv, hvr⟩ := Finset.mem_filter.mp hv
    exact ⟨List.mem_toFinset.mp hv, hvr⟩
  refine ⟨Q, ?_, fun v hv => ?_⟩
  · have hsub : committee.getNodesKeys.toFinset ⊆ Q.image Vertex.owner := by
      intro k hk
      obtain ⟨v, hv, hvr, rfl⟩ := hall (4 * w - 2) (by omega) (by omega) k (List.mem_toFinset.mp hk)
      exact Finset.mem_image_of_mem _ (Finset.mem_filter.mpr ⟨List.mem_toFinset.mpr hv, hvr⟩)
    have hcard := (Finset.card_le_card hsub).trans Finset.card_image_le
    rw [List.toFinset_card_of_nodup h.reached.distinctKeys, Committee.length_getNodesKeys] at hcard
    unfold Committee.quorumThreshold
    omega
  · obtain ⟨hv, hvr⟩ := hQ v hv
    have hsent : v ∈ N.sent := by
      refine (List.mem_append.mp hv).resolve_left fun hgenesis => ?_
      have hone := (Vertex.of_mem_genesis hgenesis).1
      omega
    obtain ⟨c, hmade, hc⟩ := h.made v hsent (by omega)
    obtain ⟨block, hnew⟩ := hmade.new
    have hnext : c.nextRound = c.state.currentRound + 1 := Nat.mod_eq_of_lt (by omega)
    have hstrong := Node.mem_getStrongParents_of_isNewVertex (by omega) hnext hmade.wellSlotted
      hmade.stored hinj (fun e he => (h.reached.named hv he).2) hnew
      (hmade.complete l hl (by omega)) (by omega)
    exact ⟨hv, hvr, (Vertex.mem_getStrongParents.mp hstrong).1⟩

/-- **Every wave ahead can be committed by all.** From every state that a network reaches before a
counter wraps, and for every wave that begins after the rounds its nodes are in, some continuation
brings all nodes past the wave; and if the digest has no collision on the vertices of this
continuation, then every node has decided the wave or a later one.

**Proof sketch.** The nodes end their passes (`Reached.exists_paced`) and go round by round
(`Paced.exists_round`). At the end the leader of the wave is supported (`Paced.supported`), and all
that left the wave decided it (`decided_of_supported`). -/
theorem waves_committable (hkeys : committee.getNodesKeys.Nodup)
    (h : Run.exec (step P) (init P committee) es = some N)
    (hround : Run.Throughout (step P) NotWrapped (init P committee) es)
    (hsize : committee.size < 2 ^ 32) (hw : ∀ nd ∈ N.nodes, nd.currentRound + 4 ≤ 4 * w)
    (hlast : 4 * w + 1 < 2 ^ 32) :
    ∃ fs N', Run.exec (step P) N fs = some N' ∧
      Run.Throughout (step P) NotWrapped (init P committee) (es ++ fs) ∧
      (∀ nd ∈ N'.nodes, 4 * w < nd.currentRound) ∧
      (Vertex.HashesInjective (N'.vertices P committee) →
        ∀ nd ∈ N'.nodes, w ≤ nd.consensus.decidedWave) := by
  have hN : Reached P committee es N := reached hkeys h hround
  obtain ⟨fs, N₁, h₁⟩ : ∃ fs N₁, Paced P committee (4 * w - 3) 0 (es ++ fs) N₁ :=
    hN.exists_paced (fun nd hnd => by have := hw nd hnd; omega) (by omega)
  obtain ⟨gs, N', h'⟩ := h₁.exists_round (R := 4 * w + 1) hlast
  have hexec := h'.reached.exec
  rw [List.append_assoc] at hexec
  obtain ⟨S, hS, hrun⟩ := Run.exec_append_eq_some.mp hexec
  have hSN : S = N := Option.some.inj (hS.symm.trans h)
  subst hSN
  have hnot := h'.reached.notWrapped
  refine ⟨fs ++ gs, N', hrun, by rwa [← List.append_assoc], fun nd hnd => h'.ge nd hnd,
    fun hinj nd hnd => ?_⟩
  have hisRun : IsRun P committee (es ++ fs ++ gs) N' := ⟨hkeys, h'.reached.exec, hinj⟩
  have hlen : N'.nodes.length = S.nodes.length := nodes_length hrun
  have hpos : 0 < S.nodes.length := hlen ▸ List.length_pos_of_mem hnd
  have hw1 := hw _ (List.getElem_mem hpos)
  have hsizepos : 0 < committee.size := by
    have hinit := nodes_length h
    rw [show (init P committee).nodes.length = committee.size by simp [init]] at hinit
    omega
  obtain ⟨l, hsup⟩ := h'.supported (by omega) (by omega) hlast hsizepos hinj
  exact decided_of_supported hisRun hnot hsize (by omega) hsup (Run.Visits.last hisRun.exec) hnd
    (h'.ge nd hnd)

/-- After two nodes of four have committed wave `1`, all four can come past wave `3`. -/
theorem waves_committable_four : ∃ N fs N', Run.exec (step Sample.platform)
      (init Sample.platform Sample.four) (Sample.fourNodes [1, 2, 3] [2, 3, 4]) = some N ∧
    Run.exec (step Sample.platform) N fs = some N' ∧
    (∀ nd ∈ N'.nodes, 4 * 3 < nd.currentRound) ∧
    (Vertex.HashesInjective (N'.vertices Sample.platform Sample.four) →
      ∀ nd ∈ N'.nodes, 3 ≤ nd.consensus.decidedWave) := by
  obtain ⟨N, h, hp⟩ : ∃ N, Run.exec (step Sample.platform) (init Sample.platform Sample.four)
        (Sample.fourNodes [1, 2, 3] [2, 3, 4]) = some N ∧
      decide (∀ nd ∈ N.nodes, nd.currentRound + 4 ≤ 4 * 3) = true :=
    Run.exists_exec_of_any (by decide +kernel)
  obtain ⟨fs, N', hfs, -, hleft, hdecided⟩ := waves_committable (by decide) h
    (by decide +kernel) (by decide) (of_decide_eq_true hp) (by decide)
  exact ⟨N, fs, N', h, hfs, hleft, hdecided⟩

end Network

end DagRider
