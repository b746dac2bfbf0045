import Mathlib.Data.Finset.Card
import Mathlib.Data.Set.Function
import Mathlib.Logic.Relation
import Mathlib.Order.Monotone.Defs

set_option relaxedAutoImplicit false
set_option autoImplicit false

/-!
# Causal graphs, their views, and chains of leaders

Vertices with a round and an author, joined to their parents in lower rounds, one for each
round and author. A view is a set of vertices closed under parents: what one observer has
seen. Reachability from a vertex of a view does not depend on the view; a vertex that a
quorum of one round reaches is reached from every later round; and two observers that walk
down the same sequence of leaders, each skipping the leaders it has not seen or does not
reach, agree on the leaders below one that a quorum reaches.

## Main definitions

* `CausalGraph`, `CausalGraph.Reaches`, `CausalGraph.IsView`.
* `CausalGraph.Quorate` — every vertex has a quorum of parents in the round below.
* `CausalGraph.chain` — the leaders met on a walk down a sequence of leaders.
* `CausalGraph.Schedule`, `CausalGraph.Sees` — the leader of each wave, and which of them an
  observer sees.

## Main results

* `Quorum.exists_common_of_card` — sets that are large enough have a common label.
* `CausalGraph.IsView.reaches_iff` — reachability inside a view.
* `CausalGraph.Quorate.support_spreads` — a supported vertex is reached from all later rounds.
* `CausalGraph.chain_agree` — observers agree on the chain below a supported leader.
-/

/-! ## Quorums -/

namespace Quorum

variable {α β : Type*} [DecidableEq α]

/-- Two subsets of a set overlap in at least the excess of their sizes. -/
lemma card_add_card_le {A B S : Finset α} (hA : A ⊆ S) (hB : B ⊆ S) :
    A.card + B.card ≤ (A ∩ B).card + S.card := by
  have hunion : (A ∪ B).card ≤ S.card := Finset.card_le_card (Finset.union_subset hA hB)
  have hsum := Finset.card_union_add_card_inter A B
  omega

/-- Two sets whose elements have distinct labels in a set overlap in labels. -/
lemma card_add_card_le_image {f : β → α} {A B : Finset β} {S : Finset α}
    (hA : ∀ a ∈ A, f a ∈ S) (hB : ∀ b ∈ B, f b ∈ S)
    (hfA : Set.InjOn f (A : Set β)) (hfB : Set.InjOn f (B : Set β)) :
    A.card + B.card ≤ (A.image f ∩ B.image f).card + S.card := by
  rw [← Finset.card_image_of_injOn hfA, ← Finset.card_image_of_injOn hfB]
  apply card_add_card_le
  · exact Finset.image_subset_iff.mpr hA
  · exact Finset.image_subset_iff.mpr hB

/-- Two sets whose sizes together exceed that of the set of labels share a label. -/
lemma exists_common_of_card {f : β → α} {A B : Finset β} {S : Finset α}
    (hcard : S.card < A.card + B.card) (hA : ∀ a ∈ A, f a ∈ S) (hB : ∀ b ∈ B, f b ∈ S)
    (hfA : Set.InjOn f (A : Set β)) (hfB : Set.InjOn f (B : Set β)) :
    ∃ a ∈ A, ∃ b ∈ B, f a = f b := by
  have hinter := card_add_card_le_image hA hB hfA hfB
  have hpos : 0 < (A.image f ∩ B.image f).card := by omega
  obtain ⟨x, hx⟩ := Finset.card_pos.mp hpos
  rw [Finset.mem_inter] at hx
  obtain ⟨a, ha, hax⟩ := Finset.mem_image.mp hx.1
  obtain ⟨b, hb, hbx⟩ := Finset.mem_image.mp hx.2
  exact ⟨a, ha, b, hb, hax.trans hbx.symm⟩

end Quorum

/-! ## Causal graphs and views -/

/-- Vertices with rounds and authors, each joined to its parents. -/
structure CausalGraph (V A : Type*) where
  /-- The vertices of the graph. -/
  carrier : Set V
  /-- `parent v u`: `u` is a parent of `v`. -/
  parent : V → V → Prop
  /-- The round of a vertex. -/
  round : V → ℕ
  /-- The author of a vertex. -/
  author : V → A
  /-- Parents join vertices of the graph. -/
  parent_mem : ∀ {v u}, parent v u → v ∈ carrier ∧ u ∈ carrier
  /-- Parents are in lower rounds. -/
  round_lt : ∀ {v u}, parent v u → round u < round v
  /-- There is at most one vertex of a round and an author. -/
  slot_unique : ∀ {u v}, u ∈ carrier → v ∈ carrier → round u = round v →
    author u = author v → u = v

namespace CausalGraph

open Relation

variable {V A : Type*} {G : CausalGraph V A}

/-- `u` is an ancestor of `v`. -/
def Reaches (G : CausalGraph V A) (v u : V) : Prop := TransGen G.parent v u

/-- Ancestors of ancestors are ancestors. -/
lemma Reaches.trans {v u w : V} (h : G.Reaches v u) (h' : G.Reaches u w) : G.Reaches v w :=
  TransGen.trans h h'

/-- Ancestors are in lower rounds. -/
lemma Reaches.round_lt {v u : V} (h : G.Reaches v u) : G.round u < G.round v := by
  induction h with
  | single h => exact G.round_lt h
  | tail _ h ih => exact (G.round_lt h).trans ih

/-- A set of vertices that is closed under parents. -/
structure IsView (G : CausalGraph V A) (S : Set V) : Prop where
  subset : ∀ v ∈ S, v ∈ G.carrier
  closed : ∀ v ∈ S, ∀ u, G.parent v u → u ∈ S

variable {S T : Set V}

/-- A view is closed under ancestors. -/
lemma IsView.mem_of_reaches (hS : G.IsView S) {v u : V} (hv : v ∈ S) (h : G.Reaches v u) :
    u ∈ S := by
  induction h with
  | single h => exact hS.closed v hv _ h
  | tail _ h ih => exact hS.closed _ ih _ h

/-- **Reachability does not depend on the view**: a path inside a view is a path, and every
path from a vertex of the view stays inside. -/
theorem IsView.reaches_iff (hS : G.IsView S) {v u : V} (hv : v ∈ S) :
    TransGen (fun a b => b ∈ S ∧ G.parent a b) v u ↔ G.Reaches v u := by
  constructor
  · exact TransGen.mono (fun a b hab => hab.2) v u
  · intro h
    induction h with
    | single h => exact TransGen.single ⟨hS.closed v hv _ h, h⟩
    | tail hvb h ih => exact ih.tail ⟨hS.closed _ (hS.mem_of_reaches hv hvb) _ h, h⟩

/-! ## Support -/

/-- The authors are members, fewer than twice the quorum, and every vertex of a round from
`2` on has a quorum of parents in the round below. -/
structure Quorate (G : CausalGraph V A) (q : ℕ) (members : Finset A) : Prop where
  card_lt : members.card < 2 * q
  author_mem : ∀ v ∈ G.carrier, G.author v ∈ members
  exists_parents : ∀ v ∈ G.carrier, 2 ≤ G.round v →
    ∃ Q : Finset V, q ≤ Q.card ∧ ∀ u ∈ Q, G.parent v u ∧ G.round u + 1 = G.round v

/-- Vertices of one round have distinct authors. -/
lemma injOn_author {r : ℕ} {Q : Finset V} (hQ : ∀ u ∈ Q, u ∈ G.carrier ∧ G.round u = r) :
    Set.InjOn G.author (Q : Set V) := by
  intro u hu v hv huv
  obtain ⟨hu, hur⟩ := hQ u hu
  obtain ⟨hv, hvr⟩ := hQ v hv
  exact G.slot_unique hu hv (hur.trans hvr.symm) huv

/-- **A vertex with enough support is reached from every later round.** If so many vertices of
round `r` reach `l` that every quorum of the round has one of them, every vertex of a later round
reaches `l`.

**Proof sketch.** Induction on the distance from `r`. A vertex of round `r + 1` has a quorum
of parents in round `r`, one of which is a supporter; a vertex of a later round has a parent in
the round below. -/
theorem Quorate.blocking_support_spreads [DecidableEq A] {q : ℕ} {members : Finset A}
    (hG : G.Quorate q members) {l : V} {r : ℕ} {Q : Finset V}
    (hcard : members.card < q + Q.card) (hpos : 1 ≤ r)
    (hQ : ∀ u ∈ Q, u ∈ G.carrier ∧ G.round u = r ∧ G.Reaches u l) {v : V}
    (hv : v ∈ G.carrier) (hr : r < G.round v) : G.Reaches v l := by
  have hq : 0 < q := by
    have := hG.card_lt
    omega
  obtain ⟨d, hd⟩ : ∃ d, G.round v = r + 1 + d := ⟨G.round v - (r + 1), by omega⟩
  induction d generalizing v with
  | zero =>
    obtain ⟨R, hR, hparent⟩ := hG.exists_parents v hv (by omega)
    have hRround : ∀ u ∈ R, u ∈ G.carrier ∧ G.round u = r := by
      intro u hu
      obtain ⟨hvu, hround⟩ := hparent u hu
      exact ⟨(G.parent_mem hvu).2, by omega⟩
    have hQround : ∀ u ∈ Q, u ∈ G.carrier ∧ G.round u = r := fun u hu =>
      ⟨(hQ u hu).1, (hQ u hu).2.1⟩
    -- a parent of `v` and a supporter of `l` in round `r` by the same author
    obtain ⟨a, ha, b, hb, hab⟩ := Quorum.exists_common_of_card (A := R) (B := Q) (by omega)
      (fun u hu => hG.author_mem u (hRround u hu).1)
      (fun u hu => hG.author_mem u (hQround u hu).1)
      (injOn_author hRround) (injOn_author hQround)
    have heq : a = b := G.slot_unique (hRround a ha).1 (hQround b hb).1
      ((hRround a ha).2.trans (hQround b hb).2.symm) hab
    have hal : G.Reaches a l := heq ▸ (hQ b hb).2.2
    exact TransGen.head (hparent a ha).1 hal
  | succ d ih =>
    obtain ⟨R, hR, hparent⟩ := hG.exists_parents v hv (by omega)
    obtain ⟨u, hu⟩ := Finset.card_pos.mp (hq.trans_le hR)
    obtain ⟨hvu, hround⟩ := hparent u hu
    have hul : G.Reaches u l := ih (G.parent_mem hvu).2 (by omega) (by omega)
    exact TransGen.head hvu hul

/-- **A supported vertex is reached from every later round.** If a quorum of vertices of round
`r` reach `l`, every vertex of a later round does. -/
theorem Quorate.support_spreads [DecidableEq A] {q : ℕ} {members : Finset A}
    (hG : G.Quorate q members) {l : V} {r : ℕ} {Q : Finset V} (hcard : q ≤ Q.card)
    (hQ : ∀ u ∈ Q, u ∈ G.carrier ∧ G.round u = r ∧ G.Reaches u l) {v : V}
    (hv : v ∈ G.carrier) (hr : r < G.round v) : G.Reaches v l := by
  have hlt := hG.card_lt
  have hpos : 1 ≤ r := by
    obtain ⟨u, hu⟩ := Finset.card_pos.mp (show 0 < Q.card by omega)
    obtain ⟨-, hur, hul⟩ := hQ u hu
    have := hul.round_lt
    omega
  exact hG.blocking_support_spreads (by omega) hpos hQ hv hr

/-! ## Chains of leaders -/

open Classical in
/-- The leaders met on a walk down the waves from `l`: at each wave the walk moves to the
wave's leader, if there is one and the current leader reaches it. -/
noncomputable def chain (G : CausalGraph V A) (lead : ℕ → Option V) : ℕ → V → List V
  | 0, l => [l]
  | w + 1, l =>
    match lead (w + 1) with
    | none => chain G lead w l
    | some x => if G.Reaches l x then l :: chain G lead w x else chain G lead w l

section Chain

variable {lead lead' : ℕ → Option V} {w : ℕ} {l x : V}

/-- A wave without a leader, or with one that is not reached, is skipped. -/
lemma chain_skip (h : ∀ x, lead (w + 1) = some x → ¬ G.Reaches l x) :
    G.chain lead (w + 1) l = G.chain lead w l := by
  rw [chain]
  cases hl : lead (w + 1) with
  | none => rfl
  | some x => exact if_neg (h x hl)

/-- At a wave whose leader is reached, the walk moves to it. -/
lemma chain_move (hl : lead (w + 1) = some x) (h : G.Reaches l x) :
    G.chain lead (w + 1) l = l :: G.chain lead w x := by
  rw [chain, hl]
  exact if_pos h

/-- Every wave either is skipped or moves the walk. -/
lemma skip_or_move (G : CausalGraph V A) (lead : ℕ → Option V) (w : ℕ) (l : V) :
    (∀ x, lead (w + 1) = some x → ¬ G.Reaches l x) ∨
      ∃ x, lead (w + 1) = some x ∧ G.Reaches l x := by
  by_cases h : ∃ x, lead (w + 1) = some x ∧ G.Reaches l x
  · exact Or.inr h
  · exact Or.inl fun x hx hlx => h ⟨x, hx, hlx⟩

/-- The members of a chain are its first leader and leaders of lower waves that it reaches. -/
lemma mem_chain (h : x ∈ G.chain lead w l) :
    x = l ∨ G.Reaches l x ∧ ∃ k, 1 ≤ k ∧ k ≤ w ∧ lead k = some x := by
  induction w generalizing l with
  | zero => exact Or.inl (List.mem_singleton.mp h)
  | succ w ih =>
    have hlow : ∀ {y}, (∃ k, 1 ≤ k ∧ k ≤ w ∧ lead k = some y) →
        ∃ k, 1 ≤ k ∧ k ≤ w + 1 ∧ lead k = some y := by
      intro y hy
      obtain ⟨k, h1, hk, hkl⟩ := hy
      exact ⟨k, h1, Nat.le_succ_of_le hk, hkl⟩
    rcases skip_or_move G lead w l with hskip | ⟨y, hy, hly⟩
    · rw [chain_skip hskip] at h
      rcases ih h with rfl | ⟨hlx, hk⟩
      · exact Or.inl rfl
      · exact Or.inr ⟨hlx, hlow hk⟩
    · rw [chain_move hy hly] at h
      rcases List.mem_cons.mp h with rfl | h
      · exact Or.inl rfl
      · rcases ih h with rfl | ⟨hyx, hk⟩
        · exact Or.inr ⟨hly, w + 1, by omega, le_rfl, hy⟩
        · exact Or.inr ⟨hly.trans hyx, hlow hk⟩

/-- A chain starts with its first leader. -/
lemma head_mem_chain : l ∈ G.chain lead w l := by
  induction w generalizing l with
  | zero => exact List.mem_singleton_self l
  | succ w ih =>
    rcases skip_or_move G lead w l with hskip | ⟨y, hy, hly⟩
    · rw [chain_skip hskip]
      exact ih
    · rw [chain_move hy hly]
      exact List.mem_cons_self

/-- The last leader of a chain is an ancestor of the others. -/
lemma exists_bottom (G : CausalGraph V A) (lead : ℕ → Option V) (w : ℕ) (l : V) :
    ∃ b rest, G.chain lead w l = rest ++ [b] ∧ ∀ x ∈ rest, G.Reaches x b := by
  induction w generalizing l with
  | zero => exact ⟨l, [], rfl, by simp⟩
  | succ w ih =>
    rcases skip_or_move G lead w l with hskip | ⟨y, hy, hly⟩
    · rw [chain_skip hskip]
      exact ih l
    · rw [chain_move hy hly]
      obtain ⟨b, rest, hchain, hrest⟩ := ih y
      refine ⟨b, l :: rest, by rw [hchain]; rfl, ?_⟩
      intro x hx
      rcases List.mem_cons.mp hx with rfl | hx
      · have hymem : y ∈ rest ++ [b] := hchain ▸ head_mem_chain
        rcases List.mem_append.mp hymem with hymem | hymem
        · exact hly.trans (hrest y hymem)
        · exact List.mem_singleton.mp hymem ▸ hly
      · exact hrest x hx

/-- Two sequences with the same leaders among the ancestors of `l` give the same chain. -/
lemma chain_congr
    (h : ∀ k, 1 ≤ k → k ≤ w → ∀ x, G.Reaches l x → (lead k = some x ↔ lead' k = some x)) :
    G.chain lead w l = G.chain lead' w l := by
  induction w generalizing l with
  | zero => rfl
  | succ w ih =>
    have hlow : ∀ k, 1 ≤ k → k ≤ w → ∀ x, G.Reaches l x →
        (lead k = some x ↔ lead' k = some x) := fun k h1 hk => h k h1 (Nat.le_succ_of_le hk)
    have hw := h (w + 1) (by omega) le_rfl
    rcases skip_or_move G lead w l with hskip | ⟨y, hy, hly⟩
    · have hskip' : ∀ x, lead' (w + 1) = some x → ¬ G.Reaches l x := fun x hx hlx =>
        hskip x ((hw x hlx).mpr hx) hlx
      rw [chain_skip hskip, chain_skip hskip']
      exact ih hlow
    · rw [chain_move hy hly, chain_move ((hw y hly).mp hy) hly]
      rw [ih fun k h1 hk x hyx => hlow k h1 hk x (hly.trans hyx)]

/-- **A walk passes through a leader that all later leaders reach**: below it, the walk is the
walk from it.

**Proof sketch.** Induction on the wave. Above wave `j + 1` every leader the walk is at reaches
`x`; at wave `j + 1` it moves to `x`. -/
theorem chain_through {j : ℕ} (hx : lead (j + 1) = some x) (hjw : j + 1 ≤ w)
    (hlx : G.Reaches l x)
    (hmid : ∀ k, j + 1 < k → k ≤ w → ∀ y, lead k = some y → G.Reaches y x) :
    ∃ pre, G.chain lead w l = pre ++ G.chain lead j x ∧
      ∀ y ∈ pre, y = l ∨ ∃ k, j + 1 < k ∧ k ≤ w ∧ lead k = some y := by
  induction w generalizing l with
  | zero => omega
  | succ w ih =>
    by_cases hj : j = w
    · subst hj
      refine ⟨[l], chain_move hx hlx, fun y hy => ?_⟩
      exact Or.inl (List.mem_singleton.mp hy)
    · have hjw' : j + 1 ≤ w := by omega
      have hmid' : ∀ k, j + 1 < k → k ≤ w → ∀ y, lead k = some y → G.Reaches y x :=
        fun k h1 hk => hmid k h1 (Nat.le_succ_of_le hk)
      have hlow : ∀ {y}, (∃ k, j + 1 < k ∧ k ≤ w ∧ lead k = some y) →
          ∃ k, j + 1 < k ∧ k ≤ w + 1 ∧ lead k = some y := by
        intro y hy
        obtain ⟨k, h1, hk, hkl⟩ := hy
        exact ⟨k, h1, Nat.le_succ_of_le hk, hkl⟩
      rcases skip_or_move G lead w l with hskip | ⟨y, hy, hly⟩
      · rw [chain_skip hskip]
        obtain ⟨pre, hpre, hmem⟩ := ih hjw' hlx hmid'
        exact ⟨pre, hpre, fun z hz => (hmem z hz).imp_right hlow⟩
      · have hyx : G.Reaches y x := hmid (w + 1) (by omega) le_rfl y hy
        obtain ⟨pre, hpre, hmem⟩ := ih hjw' hyx hmid'
        refine ⟨l :: pre, by rw [chain_move hy hly, hpre]; rfl, fun z hz => ?_⟩
        rcases List.mem_cons.mp hz with rfl | hz
        · exact Or.inl rfl
        · rcases hmem z hz with rfl | hk
          · exact Or.inr ⟨w + 1, by omega, le_rfl, hy⟩
          · exact Or.inr (hlow hk)

end Chain

/-! ## Agreement of observers -/

/-- Which vertices lead the waves, and the round of the leader of each wave. -/
structure Schedule (G : CausalGraph V A) where
  /-- `isLeader w x`: `x` leads wave `w`. -/
  isLeader : ℕ → V → Prop
  /-- The round that the leader of a wave has. -/
  firstRound : ℕ → ℕ
  /-- Later waves have leaders in later rounds. -/
  strictMono : StrictMono firstRound
  /-- A leader is in the round for its wave. -/
  round_eq : ∀ {w x}, isLeader w x → G.round x = firstRound w
  /-- A wave has one leader. -/
  unique : ∀ {w x y}, isLeader w x → isLeader w y → x = y

variable {L : G.Schedule} {lead lead' : ℕ → Option V} {n n' w w' : ℕ} {l l' x : V}

/-- Up to wave `n`, an observer finds exactly the leaders in its view. -/
def Sees (L : G.Schedule) (S : Set V) (lead : ℕ → Option V) (n : ℕ) : Prop :=
  ∀ k, 1 ≤ k → k ≤ n → ∀ x, lead k = some x ↔ L.isLeader k x ∧ x ∈ S

/-- Observers that see a leader find the same chain below it. -/
lemma chain_eq_of_mem (hS : G.IsView S) (hT : G.IsView T) (hlead : Sees L S lead n)
    (hlead' : Sees L T lead' n') (hl : l ∈ S) (hl' : l ∈ T) (hn : w ≤ n) (hn' : w ≤ n') :
    G.chain lead w l = G.chain lead' w l := by
  refine chain_congr fun k h1 hk x hlx => ?_
  rw [hlead k h1 (hk.trans hn), hlead' k h1 (hk.trans hn')]
  have hxS : x ∈ S := hS.mem_of_reaches hl hlx
  have hxT : x ∈ T := hT.mem_of_reaches hl' hlx
  simp [hxS, hxT]

/-- A chain has no leaders of rounds after the one it starts at. -/
lemma filter_chain (hl : L.isLeader w l) {m : ℕ} :
    (G.chain lead m l).filter (fun x => G.round x ≤ L.firstRound w) = G.chain lead m l := by
  rw [List.filter_eq_self]
  intro x hx
  apply decide_eq_true
  rcases mem_chain hx with rfl | ⟨hlx, -⟩
  · exact (L.round_eq hl).le
  · exact (hlx.round_lt.trans_le (L.round_eq hl).le).le

/-- **A walk from a later leader passes through a supported one**, after leaders of later
waves only.

**Proof sketch.** The leaders of all later waves reach the supported one, so it is in the view
and the walk comes to it (`chain_through`). -/
theorem chain_passes (hT : G.IsView T) (hlead : Sees L T lead n) (hl : L.isLeader w l)
    (hl' : L.isLeader w' l') (hlT : l' ∈ T) (hw : 1 ≤ w) (hww' : w < w') (hn : w' ≤ n)
    (hspread : ∀ v ∈ G.carrier, L.firstRound (w + 1) ≤ G.round v → G.Reaches v l) :
    l ∈ T ∧ ∃ pre, G.chain lead (w' - 1) l' = pre ++ G.chain lead (w - 1) l ∧
      ∀ y ∈ pre, L.firstRound w < G.round y := by
  have hlater : ∀ k, w < k → ∀ y, L.isLeader k y → y ∈ G.carrier → G.Reaches y l := by
    intro k hk y hy hyG
    apply hspread y hyG
    rw [L.round_eq hy]
    exact L.strictMono.monotone hk
  have hreach : G.Reaches l' l := hlater w' hww' l' hl' (hT.subset l' hlT)
  have hlT' : l ∈ T := hT.mem_of_reaches hlT hreach
  obtain ⟨j, rfl⟩ : ∃ j, w = j + 1 := ⟨w - 1, by omega⟩
  have hfound : lead (j + 1) = some l := (hlead (j + 1) hw (by omega) l).mpr ⟨hl, hlT'⟩
  have hmid : ∀ k, j + 1 < k → k ≤ w' - 1 → ∀ y, lead k = some y → G.Reaches y l := by
    intro k hk hkw y hy
    obtain ⟨hyk, hyT⟩ := (hlead k (by omega) (by omega) y).mp hy
    exact hlater k hk y hyk (hT.subset y hyT)
  obtain ⟨pre, hpre, hmem⟩ := chain_through (w := w' - 1) hfound (by omega) hreach hmid
  refine ⟨hlT', pre, hpre, fun y hy => ?_⟩
  rcases hmem y hy with rfl | ⟨k, hk, hkw, hky⟩
  · rw [L.round_eq hl']
    exact L.strictMono hww'
  · obtain ⟨hyk, -⟩ := (hlead k (by omega) (by omega) y).mp hky
    rw [L.round_eq hyk]
    exact L.strictMono hk

/-- **Observers agree on the chain below a supported leader.** Let one observer start its
walk at the leader `l` of wave `w`, which every vertex from the next wave's first round on
reaches, and another at the leader `l'` of a wave `w' ≥ w`. Without the leaders of the waves
after `w`, the chain of the second is the chain of the first.

**Proof sketch.** For `w' = w` both start at the same leader and `chain_eq_of_mem` applies. For
`w' > w` the second walk passes through `l` (`chain_passes`); the leaders before `l` are of
waves after `w`, and below it `chain_eq_of_mem` applies again. -/
theorem chain_agree (hS : G.IsView S) (hT : G.IsView T) (hlead : Sees L S lead n)
    (hlead' : Sees L T lead' n') (hl : L.isLeader w l) (hl' : L.isLeader w' l')
    (hlS : l ∈ S) (hlT : l' ∈ T) (hw : 1 ≤ w) (hww' : w ≤ w') (hn : w ≤ n) (hn' : w' ≤ n')
    (hspread : ∀ v ∈ G.carrier, L.firstRound (w + 1) ≤ G.round v → G.Reaches v l) :
    (G.chain lead' (w' - 1) l').filter (fun x => G.round x ≤ L.firstRound w) =
        G.chain lead (w - 1) l ∧
      l ∈ G.chain lead' (w' - 1) l' := by
  have hsame : l ∈ T → G.chain lead' (w - 1) l = G.chain lead (w - 1) l := fun hlT' =>
    chain_eq_of_mem hT hS hlead' hlead hlT' hlS (by omega) (by omega)
  rcases Nat.eq_or_lt_of_le hww' with rfl | hlt
  · have heq : l = l' := L.unique hl hl'
    subst heq
    rw [hsame hlT]
    exact ⟨filter_chain hl, head_mem_chain⟩
  · obtain ⟨hlT', pre, hpre, hafter⟩ := chain_passes hT hlead' hl hl' hlT hw hlt hn' hspread
    have hdrop : pre.filter (fun x => G.round x ≤ L.firstRound w) = [] := by
      rw [List.filter_eq_nil_iff]
      exact fun y hy => by simpa using hafter y hy
    rw [hpre, hsame hlT', List.filter_append, hdrop, List.nil_append]
    exact ⟨filter_chain hl, List.mem_append_right pre head_mem_chain⟩

end CausalGraph
