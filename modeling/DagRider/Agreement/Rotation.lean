import DagRider.Agreement.Leaders
import DagRider.Lib.Stride
import Mathlib.Data.Nat.Prime.Basic

set_option relaxedAutoImplicit false
set_option autoImplicit false

/-!
# The rotation of the leaders

The coin of a wave is the number of its first round, so from one wave to the next the index of the
leader moves by the four rounds of a wave, around the sorted keys of the committee. The leaders of
as many waves in a row as there are members are all of the members if and only if that number is
odd.

## Main results

* `DagRider.Consensus.leaders_rotate_iff` — when leadership rotates over the whole committee.
-/

namespace DagRider

namespace Consensus

variable {c : Consensus} {w i : ℕ}

/-- The keys of the committee in order. -/
def sortedKeys (c : Consensus) : List NodePublicKey :=
  c.committee.getNodesKeys.insertionSort (· ≤ ·)

/-- The sorted keys are those of the committee. -/
lemma perm_sortedKeys (c : Consensus) : c.sortedKeys.Perm c.committee.getNodesKeys :=
  List.perm_insertionSort _ _

/-- There is one for each member. -/
lemma length_sortedKeys (c : Consensus) : c.sortedKeys.length = c.committee.size := by
  rw [c.perm_sortedKeys.length_eq, Committee.length_getNodesKeys]

/-- The leader of the wave `i` after `w` is `4 * i` places further on. -/
lemma getWaveLeader_add (h1 : 1 ≤ w) (h2 : w + i ≤ 2 ^ 30) :
    c.getWaveLeader (w + i) = c.sortedKeys[(4 * i + (4 * w - 3)) % c.committee.size]? := by
  have hround : getRoundForWave (w + i) 1 = 4 * i + (4 * w - 3) := by
    rw [getRoundForWave_eq (by omega) h2]
    omega
  unfold getWaveLeader
  rw [hround]
  rfl

/-- The leaders of consecutive waves are the keys at places one stride apart. -/
lemma leaders_eq (h1 : 1 ≤ w) (h2 : 4 * (w + c.committee.size - 2) < 2 ^ 32) :
    (List.range' w c.committee.size).map c.getWaveLeader =
      ((List.range c.committee.size).map fun i =>
        (4 * i + (4 * w - 3)) % c.committee.size).map fun i => c.sortedKeys[i]? := by
  rw [List.range'_eq_map_range, List.map_map, List.map_map]
  refine List.map_congr_left fun i hi => ?_
  have hlt : i < c.committee.size := List.mem_range.mp hi
  exact getWaveLeader_add h1 (by omega)

/-- **Leadership rotates over the whole committee exactly where the committee is odd.** For a
committee of `n ≥ 1` members with distinct keys and `n` consecutive waves from `w ≥ 1` on, without
overflow, the leaders of these waves are the keys of the committee, each once, if and only if `n` is
odd.

**Proof sketch.** A stride of `4` around `n` places comes to every place if and only if `4` and `n`
are coprime (`Stride.perm_range`, `Stride.exists_missed`). -/
theorem leaders_rotate_iff (hkeys : c.committee.getNodesKeys.Nodup) (hn : 1 ≤ c.committee.size)
    (h1 : 1 ≤ w) (h2 : 4 * (w + c.committee.size - 2) < 2 ^ 32) :
    ((List.range' w c.committee.size).map c.getWaveLeader).Perm
        (c.committee.getNodesKeys.map some) ↔ Odd c.committee.size := by
  have hcoprime : Nat.Coprime 4 c.committee.size ↔ Odd c.committee.size := by
    show Nat.Coprime (2 ^ 2) c.committee.size ↔ _
    rw [Nat.coprime_pow_left_iff (by decide)]
    exact Nat.coprime_two_left
  rw [leaders_eq h1 h2, ← hcoprime]
  constructor
  · intro hperm
    by_contra hnot
    obtain ⟨r, hr, hmissed⟩ := Stride.exists_missed (b := 4 * w - 3) hnot hn
    have hlen : r < c.sortedKeys.length := hr.trans_eq c.length_sortedKeys.symm
    -- the key at the place that is missed leads some wave
    have hmem : some c.sortedKeys[r] ∈ c.committee.getNodesKeys.map some :=
      List.mem_map_of_mem (c.perm_sortedKeys.mem_iff.mp (List.getElem_mem hlen))
    obtain ⟨j, hj, hkey⟩ := List.mem_map.mp (hperm.mem_iff.mpr hmem)
    obtain ⟨i, -, rfl⟩ := List.mem_map.mp hj
    obtain ⟨hjlen, heq⟩ := List.getElem?_eq_some_iff.mp hkey
    have hnodup : c.sortedKeys.Nodup := c.perm_sortedKeys.nodup_iff.mpr hkeys
    exact hmissed i ((List.Nodup.getElem_inj_iff hnodup).mp heq)
  · intro hcop
    have hall : (List.range c.committee.size).map (fun i => c.sortedKeys[i]?) =
        c.sortedKeys.map some := by
      rw [← c.length_sortedKeys]
      refine List.ext_getElem (by simp) fun i hi hi' => ?_
      simp
    have hplaces := (Stride.perm_range (b := 4 * w - 3) hcop hn).map fun i => c.sortedKeys[i]?
    rw [hall] at hplaces
    exact hplaces.trans (c.perm_sortedKeys.map some)

/-- A node of a committee of three. -/
def nodeOfThree : Consensus :=
  spawn Sample.platform 1
    ⟨⟨[(1, Sample.validator 1), (2, Sample.validator 2), (3, Sample.validator 3)], by decide⟩⟩

/-- Each of three members leads one of the first three waves. -/
theorem leaders_rotate_iff_three :
    ((List.range' 1 3).map nodeOfThree.getWaveLeader).Perm
      (nodeOfThree.committee.getNodesKeys.map some) :=
  (leaders_rotate_iff (c := nodeOfThree) (by decide) (by decide) le_rfl (by decide)).mpr
    (by decide)

/-- In a committee of four one member leads all of the first four waves, and the leaders are not the
members. -/
theorem one_of_four_leads :
    (∀ w ∈ List.range' 1 4, (spawn Sample.platform 1 Sample.four).getWaveLeader w = some 2) ∧
      ¬ ((List.range' 1 4).map (spawn Sample.platform 1 Sample.four).getWaveLeader).Perm
        ((spawn Sample.platform 1 Sample.four).committee.getNodesKeys.map some) := by
  have hleader : ∀ w ∈ List.range' 1 4,
      (spawn Sample.platform 1 Sample.four).getWaveLeader w = some 2 := by decide +kernel
  refine ⟨hleader, fun hperm => ?_⟩
  have hone : some 1 ∈ (List.range' 1 4).map (spawn Sample.platform 1 Sample.four).getWaveLeader :=
    hperm.mem_iff.mpr (by decide +kernel)
  obtain ⟨w, hw, heq⟩ := List.mem_map.mp hone
  rw [hleader w hw] at heq
  exact absurd heq (by decide)

end Consensus

end DagRider
