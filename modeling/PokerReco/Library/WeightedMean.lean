/-
  PokerReco.Library.WeightedMean
  ──────────────────────────────
  **WEIGHTED MEANS.**

  Weights that are not negative have a positive sum when one of them is
  positive, and the mean of values with such weights lies between two of the
  values.

      sum_pos_iff_exists     when the sum of the weights is positive
      weightedMean_between   the mean is between two values
-/
import Mathlib.Algebra.BigOperators.Ring.List
import Mathlib.Algebra.Order.BigOperators.Group.List
import Mathlib.Algebra.Order.Field.Basic

namespace PokerReco.Library

variable {ι K : Type*} [Field K] [LinearOrder K] [IsStrictOrderedRing K]
variable {weight : ι → K} {l : List ι}

theorem sum_pos_iff_exists (hweight : ∀ a ∈ l, 0 ≤ weight a) :
    0 < (l.map weight).sum ↔ ∃ a ∈ l, 0 < weight a := by
  have hzero : (l.map fun _ : ι => (0 : K)).sum = 0 := by
    rw [List.map_const', List.sum_replicate, nsmul_zero]
  constructor
  · intro h
    rw [← hzero] at h
    exact List.exists_lt_of_sum_lt _ _ h
  · intro h
    rw [← hzero]
    exact List.sum_lt_sum _ _ hweight h

/-- A mean that is below all values would have too small a sum. -/
theorem exists_le_weightedMean (value : ι → K) (hweight : ∀ a ∈ l, 0 ≤ weight a)
    (hpos : 0 < (l.map weight).sum) :
    ∃ a ∈ l, value a ≤ (l.map fun a => value a * weight a).sum / (l.map weight).sum := by
  by_contra hnone
  push Not at hnone
  obtain ⟨a, ha, hpositive⟩ := (sum_pos_iff_exists hweight).mp hpos
  have hmean : (l.map fun b => (l.map fun a => value a * weight a).sum / (l.map weight).sum
      * weight b).sum = (l.map fun a => value a * weight a).sum := by
    rw [List.sum_map_mul_left, div_mul_cancel₀ _ hpos.ne']
  have hlt := List.sum_lt_sum
    (fun b => (l.map fun a => value a * weight a).sum / (l.map weight).sum * weight b)
    (fun b => value b * weight b)
    (fun b hb => mul_le_mul_of_nonneg_right (le_of_lt (hnone b hb)) (hweight b hb))
    ⟨a, ha, mul_lt_mul_of_pos_right (hnone a ha) hpositive⟩
  rw [hmean] at hlt
  exact lt_irrefl _ hlt

/-- **The mean is between two values.** -/
theorem weightedMean_between (value : ι → K) (hweight : ∀ a ∈ l, 0 ≤ weight a)
    (hpos : 0 < (l.map weight).sum) :
    (∃ a ∈ l, value a ≤ (l.map fun a => value a * weight a).sum / (l.map weight).sum)
      ∧ ∃ a ∈ l, (l.map fun a => value a * weight a).sum / (l.map weight).sum ≤ value a := by
  refine ⟨exists_le_weightedMean value hweight hpos, ?_⟩
  -- the upper bound is the lower bound for the negated values
  obtain ⟨a, ha, hle⟩ := exists_le_weightedMean (fun a => -value a) hweight hpos
  have hneg : (l.map fun a => -value a * weight a).sum
      = -(l.map fun a => value a * weight a).sum := by
    rw [← neg_one_mul, ← List.sum_map_mul_left]
    simp only [neg_mul, one_mul]
  refine ⟨a, ha, ?_⟩
  rw [hneg, neg_div] at hle
  exact neg_le_neg_iff.mp hle

end PokerReco.Library
