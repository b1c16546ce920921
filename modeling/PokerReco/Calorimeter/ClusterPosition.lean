/-
  PokerReco.Calorimeter.ClusterPosition
  ─────────────────────────────────────
  **THE POSITION OF A CLUSTER** (`CalorimeterCluster_factory::setCluster`).

  A hit weighs `max(0, W0 + log(E/Etot))`, which is 0 unless the hit has more
  than a share `exp(-W0)` of the energy.  Over the real numbers a cluster has a
  position inside its hits exactly when one hit has that share.

      hasPosition_iff              when there is a position
      hasPosition_of_length_le     22 hits always have one with W0 = 3.1
      no_position_of_equal_shares  23 equal hits have none
-/
import Mathlib.Analysis.Complex.ExponentialBounds
import PokerReco.Calorimeter.CalorimeterClusterFactory
import PokerReco.Library.WeightedMean

namespace PokerReco.Calorimeter

open PokerReco.Library PokerReco.TT

/-! ## §1. A position inside the cluster. -/

/-- The coordinate is a number between the coordinates of two hits. -/
def Between (hits : List (ClusterHit ℝ)) (position : CaloIndex → Int8) (coordinate : Option ℝ) :
    Prop :=
  ∃ value, coordinate = some value
    ∧ (∃ hit ∈ hits, ((position hit.m_channel).toInt : ℝ) ≤ value)
    ∧ ∃ hit ∈ hits, value ≤ ((position hit.m_channel).toInt : ℝ)

namespace CalorimeterClusterFactory

/-- The weights do not cancel, and the position is inside the hits. -/
structure HasPosition (f : CalorimeterClusterFactory ℝ) (seed : ClusterHit ℝ)
    (hits : List (ClusterHit ℝ)) : Prop where
  den : 0 < (f.weights Real.log hits (f.setCluster Real.log seed hits).E).den
  x : Between hits (·.x) (f.setCluster Real.log seed hits).x
  y : Between hits (·.y) (f.setCluster Real.log seed hits).y

/-! ## §2. The weights. -/

section

variable {K : Type} [Field K] [LinearOrder K] (f : CalorimeterClusterFactory K) (log : K → K)

/-- What the second loop adds up: the weights, and the weighted places of
the hits. -/
theorem foldl_addWeight (Etot : K) (hits : List (ClusterHit K)) (s : Weights K) :
    hits.foldl (f.addWeight log Etot) s =
      { den := s.den + (hits.map fun hit => f.pos_weight log hit.E Etot).sum
        Xnum := s.Xnum + (hits.map fun hit =>
          (hit.m_channel.x.toInt : K) * f.pos_weight log hit.E Etot).sum
        Ynum := s.Ynum + (hits.map fun hit =>
          (hit.m_channel.y.toInt : K) * f.pos_weight log hit.E Etot).sum } := by
  induction hits generalizing s with
  | nil => simp only [List.foldl_nil, List.map_nil, List.sum_nil, add_zero]
  | cons hit hits ih =>
      rw [List.foldl_cons, ih]
      simp only [addWeight, List.map_cons, List.sum_cons, add_assoc]

/-- No hit has a weight below 0. -/
theorem pos_weight_nonneg (E Etot : K) : 0 ≤ f.pos_weight log E Etot := by
  unfold pos_weight
  split
  · exact le_max_left 0 _
  · exact le_refl 0

/-- The energy of a cluster is the sum of those of its hits. -/
theorem setCluster_E (seed : ClusterHit K) (hits : List (ClusterHit K)) :
    (f.setCluster log seed hits).E = (hits.map (·.E)).sum := by
  simp only [setCluster, foldl_addHit]
  exact zero_add _

end

variable {f : CalorimeterClusterFactory ℝ}

/-- A hit weighs something exactly when it has more than the share `exp(-W0)`. -/
theorem pos_weight_pos_iff {E Etot : ℝ} (hE : 0 < E) (hEtot : 0 < Etot) :
    0 < f.pos_weight Real.log E Etot ↔ Real.exp (-f.m_CLUSTER_POS_W0) * Etot < E := by
  unfold pos_weight
  rw [if_pos (div_pos hE hEtot), lt_max_iff, or_iff_right (lt_irrefl _), ← neg_lt_iff_pos_add',
    Real.lt_log_iff_exp_lt (div_pos hE hEtot), lt_div_iff₀ hEtot]

/-! ## §3. When there is a position. -/

/-- Hits with energy have an energy in all. -/
theorem sum_E_pos {hits : List (ClusterHit ℝ)} (hne : hits ≠ []) (hE : ∀ hit ∈ hits, 0 < hit.E) :
    0 < (hits.map (·.E)).sum := by
  obtain ⟨hit, hmem⟩ := List.exists_mem_of_ne_nil hits hne
  exact (sum_pos_iff_exists fun hit hmem => le_of_lt (hE hit hmem)).mpr ⟨hit, hmem, hE hit hmem⟩

/-- A coordinate that is a mean of the hits is between two of them. -/
theorem between_of_weights {hits : List (ClusterHit ℝ)} {Etot : ℝ} (hEtot : Etot ≠ 0)
    (hden : 0 < (hits.map fun hit => f.pos_weight Real.log hit.E Etot).sum)
    (position : CaloIndex → Int8) :
    Between hits position (coordinate Etot
      (hits.map fun hit =>
        ((position hit.m_channel).toInt : ℝ) * f.pos_weight Real.log hit.E Etot).sum
      (hits.map fun hit => f.pos_weight Real.log hit.E Etot).sum) := by
  unfold coordinate
  rw [if_neg (not_or.mpr ⟨hEtot, hden.ne'⟩)]
  have hbetween := weightedMean_between (l := hits)
    (fun hit => ((position hit.m_channel).toInt : ℝ))
    (fun hit _ => f.pos_weight_nonneg Real.log hit.E Etot) hden
  exact ⟨_, rfl, hbetween⟩

/-- The sum of the weights is positive when one hit has the share. -/
theorem den_pos_iff (seed : ClusterHit ℝ) {hits : List (ClusterHit ℝ)} (hne : hits ≠ [])
    (hE : ∀ hit ∈ hits, 0 < hit.E) :
    0 < (f.weights Real.log hits (f.setCluster Real.log seed hits).E).den
      ↔ ∃ hit ∈ hits, Real.exp (-f.m_CLUSTER_POS_W0) * (hits.map (·.E)).sum < hit.E := by
  have hEtot := sum_E_pos hne hE
  unfold weights
  rw [foldl_addWeight, setCluster_E]
  simp only [zero_add]
  rw [sum_pos_iff_exists fun hit _ => f.pos_weight_nonneg Real.log hit.E _]
  exact exists_congr fun hit => and_congr_right fun hmem => pos_weight_pos_iff (hE hit hmem) hEtot

/-- With a positive sum of weights both coordinates are means. -/
theorem hasPosition_of_share (seed : ClusterHit ℝ) {hits : List (ClusterHit ℝ)} (hne : hits ≠ [])
    (hE : ∀ hit ∈ hits, 0 < hit.E)
    (h : ∃ hit ∈ hits, Real.exp (-f.m_CLUSTER_POS_W0) * (hits.map (·.E)).sum < hit.E) :
    f.HasPosition seed hits := by
  have hEtot := sum_E_pos hne hE
  have hden := (den_pos_iff seed hne hE).mpr h
  have hpos := hden
  unfold weights at hpos
  rw [foldl_addWeight, setCluster_E] at hpos
  simp only [zero_add] at hpos
  refine ⟨hden, ?_, ?_⟩
  · simp only [setCluster, weights, foldl_addHit, foldl_addWeight, zero_add]
    exact between_of_weights hEtot.ne' hpos (·.x)
  · simp only [setCluster, weights, foldl_addHit, foldl_addWeight, zero_add]
    exact between_of_weights hEtot.ne' hpos (·.y)

/-- **A cluster has a position** exactly when one of its hits has more than the
share `exp(-W0)` of its energy. -/
theorem hasPosition_iff (f : CalorimeterClusterFactory ℝ) (seed : ClusterHit ℝ)
    (hits : List (ClusterHit ℝ)) (hne : hits ≠ []) (hE : ∀ hit ∈ hits, 0 < hit.E) :
    f.HasPosition seed hits
      ↔ ∃ hit ∈ hits, Real.exp (-f.m_CLUSTER_POS_W0) * (hits.map (·.E)).sum < hit.E := by
  constructor
  · intro h
    exact (den_pos_iff seed hne hE).mp h.den
  · intro h
    exact hasPosition_of_share seed hne hE h

/-- Hits of these energies, side by side in one sector. -/
def rowOfHits (energies : List ℝ) : List (ClusterHit ℝ) :=
  energies.zipIdx.map fun (E, k) => ⟨⟨0, Int8.ofNat k, 1, 0⟩, E, k⟩

/-- The hits of the row have the energies that it is made for, in their order. -/
@[simp] theorem map_E_rowOfHits (energies : List ℝ) :
    (rowOfHits energies).map (·.E) = energies := by
  have hfst : ClusterHit.E ∘ (fun (E, k) => (⟨⟨0, Int8.ofNat k, 1, 0⟩, E, k⟩ : ClusterHit ℝ))
      = Prod.fst := rfl
  rw [rowOfHits, List.map_map, hfst, List.zipIdx_map_fst]

/-- The energy of a hit of the row is one of them. -/
theorem E_mem_of_mem_rowOfHits {energies : List ℝ} {hit : ClusterHit ℝ}
    (hmem : hit ∈ rowOfHits energies) : hit.E ∈ energies := by
  rw [← map_E_rowOfHits energies]
  exact List.mem_map_of_mem hmem

/-- Three hits, one of which has about a half of the energy, have a position. -/
theorem three_hits_hasPosition :
    (default : CalorimeterClusterFactory ℝ).HasPosition ⟨⟨0, 0, 1, 0⟩, 50, 0⟩
      (rowOfHits [50, 30, 21]) := by
  have hE : ∀ hit ∈ rowOfHits [50, 30, 21], 0 < hit.E :=
    List.forall_mem_cons.mpr ⟨by norm_num, List.forall_mem_cons.mpr ⟨by norm_num,
      List.forall_mem_singleton.mpr (by norm_num)⟩⟩
  have hexp : Real.exp (-(31 / 10)) < 1 / 4 := by
    rw [Real.exp_neg, inv_eq_one_div]
    exact one_div_lt_one_div_of_lt (by norm_num)
      (lt_of_lt_of_le (by norm_num) (Real.add_one_le_exp _))
  refine (hasPosition_iff default _ (rowOfHits [50, 30, 21]) (List.cons_ne_nil _ _) hE).mpr
    ⟨⟨⟨0, 0, 1, 0⟩, 50, 0⟩, List.mem_cons_self, ?_⟩
  -- the first hit has about a half of the energy, and `exp(-3.1)` is below a quarter
  have hsum : ((rowOfHits [50, 30, 21]).map (·.E)).sum = (101 : ℝ) := by
    rw [map_E_rowOfHits]
    norm_num
  rw [hsum]
  calc Real.exp (-(31 / 10)) * 101 < 1 / 4 * 101 := by gcongr
    _ < 50 := by norm_num

/-! ## §4. The setting of the constructor. -/

/-- `exp(3.1)` is between 22 and 23. -/
theorem exp_W0_mem : Real.exp (31 / 10) ∈ Set.Ioo (22 : ℝ) 23 := by
  have hsplit : Real.exp (31 / 10) = Real.exp 1 ^ 3 * Real.exp (1 / 10) := by
    rw [← Real.exp_nat_mul, ← Real.exp_add]
    norm_num
  have hlow : (2.7182818283 : ℝ) ≤ Real.exp 1 := Real.exp_one_gt_d9.le
  have hhigh : Real.exp 1 ≤ 2.7182818286 := Real.exp_one_lt_d9.le
  have htenth : (1 + 1 / 10 + (1 / 10) ^ 2 / 2 : ℝ) ≤ Real.exp (1 / 10) :=
    Real.quadratic_le_exp_of_nonneg (by norm_num)
  have htenth' : Real.exp (1 / 10) ≤ 1 / (1 - 1 / 10) :=
    Real.exp_bound_div_one_sub_of_interval (by norm_num) (by norm_num)
  rw [hsplit]
  constructor
  · calc (22 : ℝ) < 2.7182818283 ^ 3 * (1 + 1 / 10 + (1 / 10) ^ 2 / 2) := by norm_num
      _ ≤ Real.exp 1 ^ 3 * Real.exp (1 / 10) := by gcongr
  · calc Real.exp 1 ^ 3 * Real.exp (1 / 10) ≤ 2.7182818286 ^ 3 * (1 / (1 - 1 / 10)) := by gcongr
      _ < 23 := by norm_num

/-- Hits that are few enough always have a position. -/
theorem hasPosition_of_length_le (f : CalorimeterClusterFactory ℝ)
    (hW0 : f.m_CLUSTER_POS_W0 = 31 / 10) (seed : ClusterHit ℝ) (hits : List (ClusterHit ℝ))
    (hne : hits ≠ []) (hE : ∀ hit ∈ hits, 0 < hit.E) (hlength : hits.length ≤ 22) :
    f.HasPosition seed hits := by
  refine hasPosition_of_share seed hne hE ?_
  by_contra hnone
  push Not at hnone
  rw [hW0, Real.exp_neg] at hnone
  have hEtot := sum_E_pos hne hE
  have hpos : 0 < Real.exp (31 / 10) := Real.exp_pos _
  -- no share is above `exp(-3.1)`, so the shares do not add up to 1
  have hle : (hits.map (·.E)).sum
      ≤ hits.length • ((Real.exp (31 / 10))⁻¹ * (hits.map (·.E)).sum) := by
    have hsum := List.sum_le_card_nsmul (hits.map (·.E)) _ fun E hmem => by
      obtain ⟨hit, hhit, rfl⟩ := List.mem_map.mp hmem
      exact hnone hit hhit
    rwa [List.length_map] at hsum
  have hlength' : (hits.length : ℝ) ≤ 22 := by exact_mod_cast hlength
  rw [nsmul_eq_mul, ← mul_assoc, ← div_eq_mul_inv] at hle
  have hshare : (hits.length : ℝ) / Real.exp (31 / 10) < 1 := by
    rw [div_lt_one hpos]
    exact lt_of_le_of_lt hlength' exp_W0_mem.1
  exact absurd hle (not_le.mpr (mul_lt_of_lt_one_left hEtot hshare))

/-- Twenty-three hits of one energy have no position: every weight is cut to 0. -/
theorem no_position_of_equal_shares :
    ¬ (default : CalorimeterClusterFactory ℝ).HasPosition ⟨⟨0, 0, 1, 0⟩, 30, 0⟩
      (rowOfHits (List.replicate 23 30)) := by
  intro hposition
  have hE : ∀ hit ∈ rowOfHits (List.replicate 23 30), hit.E = 30 := fun hit hmem =>
    (List.mem_replicate.mp (E_mem_of_mem_rowOfHits hmem)).2
  have hpositive : ∀ hit ∈ rowOfHits (List.replicate 23 30), 0 < hit.E := by
    intro hit hmem
    rw [hE hit hmem]
    norm_num
  have hne : rowOfHits (List.replicate 23 30) ≠ [] := List.cons_ne_nil _ _
  obtain ⟨hit, hmem, hshare⟩ := (den_pos_iff _ hne hpositive).mp hposition.den
  rw [hE hit hmem, map_E_rowOfHits, List.sum_replicate, nsmul_eq_mul] at hshare
  have hpos : 0 < Real.exp (31 / 10) := Real.exp_pos _
  have hlt : Real.exp (31 / 10) < 23 := exp_W0_mem.2
  rw [show (default : CalorimeterClusterFactory ℝ).m_CLUSTER_POS_W0 = 31 / 10 from rfl,
    Real.exp_neg, inv_mul_lt_iff₀ hpos] at hshare
  norm_num at hshare
  linarith

end CalorimeterClusterFactory

end PokerReco.Calorimeter
