import Mathlib.Algebra.Order.Field.Basic
import Mathlib.Algebra.Order.BigOperators.Group.List
import Mathlib.Tactic

/-!
# Means and imbalances

A mean with weights that are not negative lies between any bounds of its values, and strictly
between two values that both have weight. The relative difference of two such weights lies between
`-1` and `1`.
-/

namespace WeightedMean

variable {K : Type*} [Field K] [LinearOrder K] [IsStrictOrderedRing K]

/-- The sum of the values, each times its weight. -/
def weightedSum (l : List (K × K)) : K := (l.map fun x => x.1 * x.2).sum

def weight (l : List (K × K)) : K := (l.map Prod.snd).sum

theorem mean_mem_Icc {l : List (K × K)} {lo hi : K} (hvalues : ∀ x ∈ l, x.1 ∈ Set.Icc lo hi)
    (hweights : ∀ x ∈ l, 0 ≤ x.2) (hpos : 0 < weight l) :
    weightedSum l / weight l ∈ Set.Icc lo hi := by
  have hscale : ∀ c : K, (l.map fun x => c * x.2).sum = c * weight l := fun c =>
    List.sum_map_mul_left l Prod.snd c
  constructor
  · rw [le_div_iff₀ hpos, ← hscale]
    refine List.sum_le_sum fun x hx => ?_
    exact mul_le_mul_of_nonneg_right (hvalues x hx).1 (hweights x hx)
  · rw [div_le_iff₀ hpos, ← hscale]
    refine List.sum_le_sum fun x hx => ?_
    exact mul_le_mul_of_nonneg_right (hvalues x hx).2 (hweights x hx)

theorem mean_two_mem_Ioo {a b u v : K} (hu : 0 < u) (hv : 0 < v) (hab : a < b) :
    (a * u + b * v) / (u + v) ∈ Set.Ioo a b := by
  have hpos : 0 < u + v := add_pos hu hv
  constructor
  · rw [lt_div_iff₀ hpos, mul_add]
    exact add_lt_add_right (mul_lt_mul_of_pos_right hab hv) _
  · rw [div_lt_iff₀ hpos, mul_add]
    exact add_lt_add_left (mul_lt_mul_of_pos_right hab hu) _

theorem sub_div_add_mem_Icc {a b : K} (ha : 0 ≤ a) (hb : 0 ≤ b) (hpos : 0 < a + b) :
    (a - b) / (a + b) ∈ Set.Icc (-1) 1 := by
  constructor
  · rw [le_div_iff₀ hpos]
    linarith
  · rw [div_le_iff₀ hpos]
    linarith

end WeightedMean
