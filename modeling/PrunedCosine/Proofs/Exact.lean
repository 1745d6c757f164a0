import Mathlib.Data.List.GetD
import PrunedCosine.Proofs.Cosine
import PrunedCosine.Proofs.Table
import PrunedCosine.Reference

/-! The real numbers as scalars. In exact arithmetic the reference transform is the cosine sum
times its norm, and the two output scales are the norms. -/

namespace PrunedCosine

noncomputable instance : Scalar ℝ where
  ofNat := Nat.cast
  pi := Real.pi
  cos := Real.cos
  sqrt := Real.sqrt
  exp2 := Real.rpow (Nat.cast 2)
  abs := abs
  max := max
  less first second := decide (first < second)
  undefined := 0

namespace Reference

theorem sum_mapIdx (values : List ℝ) (term : Nat → ℝ → ℝ) :
    sum (values.mapIdx term) = ∑ m ∈ Finset.range values.length, term m (values.getD m 0) := by
  induction values using List.reverseRecOn with
  | nil =>
    change -((0 : Nat) : ℝ) = 0
    rw [Nat.cast_zero, neg_zero]
  | append_singleton values last ih =>
    have earlier : ∀ m ∈ Finset.range values.length,
        term m ((values ++ [last]).getD m 0) = term m (values.getD m 0) := by
      intro m inside
      rw [List.getD_append _ _ _ _ (Finset.mem_range.mp inside)]
    have newest : (values ++ [last]).getD values.length 0 = last := by
      simp
    rw [sum] at ih ⊢
    rw [List.mapIdx_concat, List.foldl_append, ih, List.length_append, List.length_singleton,
      Finset.sum_range_succ, Finset.sum_congr rfl earlier, newest]
    rfl

theorem angle_eq (order k m : Nat) : (angle (blockSize order) k m : ℝ) = cosineAngle order k m := by
  change Real.pi * ((2 * m + 1 : Nat) : ℝ) * k / ((2 : Nat) * blockSize order) = _
  rw [cosineAngle]
  push_cast
  rfl

theorem norm_eq (order k : Nat) : (norm (blockSize order) k : ℝ) = cosineNorm order k := by
  change Real.sqrt (((if k = 0 then 1 else 2 : Nat) : ℝ) / blockSize order) = _
  rw [cosineNorm]
  split <;> norm_num

theorem coefficient_eq_sum (values : List ℝ) (k : Nat) :
    coefficient values k =
      (∑ m ∈ Finset.range values.length,
        values.getD m 0 * Real.cos (angle values.length k m)) * norm values.length k := by
  rw [← sum_mapIdx values fun m value => value * Real.cos (angle values.length k m)]
  rfl

theorem coefficient_eq {order : Nat} {values : List ℝ} (length : values.length = blockSize order)
    (k : Nat) :
    coefficient values k = cosineCoefficient order (fun m => values.getD m 0) k := by
  rw [coefficient_eq_sum, length, norm_eq, cosineCoefficient_eq, cosineSum]
  simp only [angle_eq]

theorem leading_eq {order count : Nat} {values : List ℝ}
    (length : values.length = blockSize order) (few : count ≤ blockSize order) :
    leading values count =
      (List.range count).map (cosineCoefficient order fun m => values.getD m 0) := by
  rw [leading, length, Nat.min_eq_left few]
  apply List.map_congr_left
  intro k _
  exact coefficient_eq length k

end Reference

namespace ScaleKind

theorem quarterCosine_value : (quarterCosine.value : ℝ) = cosineScale 0 0 := by
  rw [cosineScale_pair, ← Nat.cast_ofNat]
  rfl

theorem inverseCosine_value (half k : Nat) :
    ((inverseCosine k (2 * blockSize (half + 1))).value : ℝ) = cosineScale half k := by
  change ((1 : Nat) : ℝ) / ((2 : Nat) : ℝ) /
    Real.cos (Real.pi * ((2 * k + 1 : Nat) : ℝ) / ((2 * blockSize (half + 1) : Nat) : ℝ)) = _
  rw [cosineScale, cosineAngle]
  push_cast
  rw [mul_one]

theorem dc_value (order : Nat) : ((dc order).value : ℝ) = cosineNorm order 0 := by
  rw [cosineNorm_first, ← Nat.cast_ofNat]
  rfl

theorem ac_value (order : Nat) {k : Nat} (later : k ≠ 0) :
    ((ac order).value : ℝ) = cosineNorm order k := by
  rw [cosineNorm_later order later, ← Nat.cast_ofNat, ← Nat.cast_one]
  rfl

end ScaleKind

theorem ScaleTable.value_output (half k : Nat) :
    (ofOrder (half + 1) : ScaleTable ℝ).value
        (if k = 0 then (ofOrder (half + 1) : ScaleTable ℝ).dc
          else (ofOrder (half + 1) : ScaleTable ℝ).ac) = cosineNorm (half + 1) k := by
  by_cases first : k = 0
  · rw [if_pos first, value_dc, ScaleKind.dc_value, first]
  · rw [if_neg first, value_ac, ScaleKind.ac_value _ first]

end PrunedCosine
