import Mathlib.Algebra.BigOperators.Intervals
import Mathlib.Analysis.SpecialFunctions.Pow.Real
import Mathlib.Analysis.SpecialFunctions.Trigonometric.Complex
import PrunedCosine.Size

/-! The cosine transform over the real numbers, and how that of a block comes from those of its
halves. The even coefficients are those of the sums of mirror images. The odd ones are sums of
two neighbouring coefficients of the scaled differences, and the neighbour beyond the last
coefficient is zero. -/

namespace PrunedCosine

/-- Coefficient `k` of the orthonormal cosine transform of `2 ^ order` values. -/
noncomputable def cosineCoefficient (order : Nat) (values : Nat → ℝ) (k : Nat) : ℝ :=
  Real.sqrt ((if k = 0 then 1 else 2) / 2 ^ order) *
    ∑ m ∈ Finset.range (2 ^ order),
      values m * Real.cos (Real.pi * (2 * m + 1) * k / (2 * 2 ^ order))

noncomputable def cosineNorm (order k : Nat) : ℝ :=
  Real.sqrt ((if k = 0 then 1 else 2) / blockSize order)

noncomputable def cosineAngle (order k m : Nat) : ℝ :=
  Real.pi * (2 * m + 1) * k / (2 * blockSize order)

noncomputable def cosineSum (order : Nat) (values : Nat → ℝ) (k : Nat) : ℝ :=
  ∑ m ∈ Finset.range (blockSize order), values m * Real.cos (cosineAngle order k m)

noncomputable def scaleAngle (order k : Nat) : ℝ := Real.pi * (2 * k + 1) / 2 ^ (order + 1)

noncomputable def cosineScale (half m : Nat) : ℝ := 1 / 2 / Real.cos (cosineAngle (half + 1) 1 m)

def mirrorSum (half : Nat) (values : Nat → ℝ) (m : Nat) : ℝ :=
  values m + values (2 * blockSize half - 1 - m)

noncomputable def mirrorDifference (half : Nat) (values : Nat → ℝ) (m : Nat) : ℝ :=
  (values m - values (2 * blockSize half - 1 - m)) * cosineScale half m

theorem blockSize_eq_pow (order : Nat) : blockSize order = 2 ^ order := by
  induction order with
  | zero => rfl
  | succ order ih => rw [blockSize_succ, ih, pow_succ']

theorem cast_blockSize (order : Nat) : (blockSize order : ℝ) = 2 ^ order := by
  rw [blockSize_eq_pow, Nat.cast_pow, Nat.cast_ofNat]

theorem cosineCoefficient_eq (order : Nat) (values : Nat → ℝ) (k : Nat) :
    cosineCoefficient order values k = cosineSum order values k * cosineNorm order k := by
  simp only [cosineCoefficient, cosineNorm, cosineSum, cosineAngle, cast_blockSize]
  rw [blockSize_eq_pow, mul_comm]

section Norms

theorem two_rpow_half (power : ℝ) : (2 : ℝ) ^ (power / 2) = Real.sqrt (2 ^ power) := by
  rw [Real.sqrt_eq_rpow, ← Real.rpow_mul two_pos.le, mul_one_div]

theorem cosineNorm_first (order : Nat) : cosineNorm order 0 = (2 : ℝ) ^ (-(order : ℝ) / 2) := by
  calc
    _ = Real.sqrt (1 / 2 ^ order) := by rw [cosineNorm, if_pos rfl, cast_blockSize]
    _ = Real.sqrt (2 ^ (-(order : ℝ))) := by
      rw [Real.rpow_neg two_pos.le, Real.rpow_natCast, one_div]
    _ = _ := (two_rpow_half _).symm

theorem cosineNorm_later (order : Nat) {k : Nat} (later : k ≠ 0) :
    cosineNorm order k = (2 : ℝ) ^ ((1 - (order : ℝ)) / 2) := by
  calc
    _ = Real.sqrt (2 / 2 ^ order) := by rw [cosineNorm, if_neg later, cast_blockSize]
    _ = Real.sqrt (2 ^ (1 - (order : ℝ))) := by
      rw [Real.rpow_sub two_pos, Real.rpow_one, Real.rpow_natCast]
    _ = _ := (two_rpow_half _).symm

end Norms

theorem cosineSum_congr {order : Nat} {first second : Nat → ℝ} (k : Nat)
    (same : ∀ m < blockSize order, first m = second m) :
    cosineSum order first k = cosineSum order second k := by
  apply Finset.sum_congr rfl
  intro m inside
  rw [same m (Finset.mem_range.mp inside)]

theorem cast_blockSize_succ (half : Nat) : (blockSize (half + 1) : ℝ) = 2 * blockSize half := by
  rw [blockSize_succ, Nat.cast_mul, Nat.cast_ofNat]

theorem cast_blockSize_ne (order : Nat) : (blockSize order : ℝ) ≠ 0 :=
  Nat.cast_ne_zero.mpr (blockSize_pos order).ne'

section Angles

variable (half : Nat)

theorem cosineAngle_mirror (k : Nat) {m : Nat} (inside : m < blockSize half) :
    cosineAngle (half + 1) k (2 * blockSize half - 1 - m) =
      k * Real.pi - cosineAngle (half + 1) k m := by
  have size := cast_blockSize_ne half
  have place : ((2 * blockSize half - 1 - m : Nat) : ℝ) = 2 * blockSize half - 1 - m := by
    rw [Nat.cast_sub (by omega), Nat.cast_sub (by omega)]
    push_cast
    ring
  unfold cosineAngle
  rw [cast_blockSize_succ, place]
  field_simp
  ring

theorem cos_mirror (k : Nat) {m : Nat} (inside : m < blockSize half) :
    Real.cos (cosineAngle (half + 1) k (2 * blockSize half - 1 - m)) =
      (-1) ^ k * Real.cos (cosineAngle (half + 1) k m) := by
  rw [cosineAngle_mirror half k inside, Real.cos_nat_mul_pi_sub]

theorem cosineAngle_even (j m : Nat) :
    cosineAngle (half + 1) (2 * j) m = cosineAngle half j m := by
  have size := cast_blockSize_ne half
  unfold cosineAngle
  rw [cast_blockSize_succ]
  push_cast
  field_simp

/-- Two neighbouring angles of the half lie on both sides of an odd angle, equally far away. -/
theorem cos_neighbours (j m : Nat) :
    Real.cos (cosineAngle half j m) + Real.cos (cosineAngle half (j + 1) m) =
      2 * Real.cos (cosineAngle (half + 1) (2 * j + 1) m) *
        Real.cos (cosineAngle (half + 1) 1 m) := by
  have below : cosineAngle half j m =
      cosineAngle (half + 1) (2 * j + 1) m - cosineAngle (half + 1) 1 m := by
    rw [← cosineAngle_even]
    unfold cosineAngle
    push_cast
    ring
  have above : cosineAngle half (j + 1) m =
      cosineAngle (half + 1) (2 * j + 1) m + cosineAngle (half + 1) 1 m := by
    rw [← cosineAngle_even]
    unfold cosineAngle
    push_cast
    ring
  rw [below, above, Real.two_mul_cos_mul_cos]

theorem cos_first_ne {m : Nat} (inside : m < blockSize half) :
    Real.cos (cosineAngle (half + 1) 1 m) ≠ 0 := by
  have size : (0 : ℝ) < blockSize half := Nat.cast_pos.mpr (blockSize_pos half)
  have small : (m : ℝ) + 1 ≤ blockSize half := by exact_mod_cast inside
  have pi := Real.pi_pos
  have angle : cosineAngle (half + 1) 1 m = Real.pi / 2 * ((2 * m + 1) / (2 * blockSize half)) := by
    unfold cosineAngle
    rw [cast_blockSize_succ]
    push_cast
    field_simp
  have fraction : (2 * (m : ℝ) + 1) / (2 * blockSize half) < 1 := by
    rw [div_lt_one (by linarith)]
    linarith
  have positive : 0 < (2 * (m : ℝ) + 1) / (2 * blockSize half) := by positivity
  apply ne_of_gt
  apply Real.cos_pos_of_mem_Ioo
  rw [angle]
  constructor
  · nlinarith
  · nlinarith

theorem cos_scaleAngle_ne {k : Nat} (inside : k < 2 ^ half) :
    Real.cos (scaleAngle (half + 1) k) ≠ 0 := by
  rw [← blockSize_eq_pow] at inside
  have angle : cosineAngle (half + 1) 1 k = scaleAngle (half + 1) k := by
    rw [cosineAngle, cast_blockSize, Nat.cast_one, mul_one, ← pow_succ', scaleAngle]
  rw [← angle]
  exact cos_first_ne half inside

theorem cos_beyond (m : Nat) : Real.cos (cosineAngle half (blockSize half) m) = 0 := by
  have size := cast_blockSize_ne half
  rw [Real.cos_eq_zero_iff]
  refine ⟨m, ?_⟩
  unfold cosineAngle
  push_cast
  field_simp

end Angles

theorem cosineScale_pair : cosineScale 0 0 = Real.cos (Real.pi / 4) := by
  have angle : cosineAngle (0 + 1) 1 0 = Real.pi / 4 := by
    rw [cosineAngle, cast_blockSize]
    push_cast
    ring
  have root : Real.sqrt 2 ≠ 0 := by positivity
  rw [cosineScale, angle, Real.cos_pi_div_four]
  field_simp
  rw [Real.sq_sqrt two_pos.le]

section Halves

variable (half : Nat) (values : Nat → ℝ)

/-- Each value is taken together with its mirror image. -/
theorem cosineSum_fold (k : Nat) :
    cosineSum (half + 1) values k =
      ∑ m ∈ Finset.range (blockSize half),
        (values m + (-1) ^ k * values (2 * blockSize half - 1 - m)) *
          Real.cos (cosineAngle (half + 1) k m) := by
  have second : ∑ m ∈ Finset.range (blockSize half), values (blockSize half + m) *
        Real.cos (cosineAngle (half + 1) k (blockSize half + m)) =
      ∑ m ∈ Finset.range (blockSize half), (-1) ^ k * values (2 * blockSize half - 1 - m) *
        Real.cos (cosineAngle (half + 1) k m) := by
    rw [← Finset.sum_range_reflect]
    apply Finset.sum_congr rfl
    intro m inside
    have low := Finset.mem_range.mp inside
    rw [show blockSize half + (blockSize half - 1 - m) = 2 * blockSize half - 1 - m by omega,
      cos_mirror half k low]
    ring
  calc
    _ = ∑ m ∈ Finset.range (blockSize half),
          values m * Real.cos (cosineAngle (half + 1) k m) +
        ∑ m ∈ Finset.range (blockSize half), values (blockSize half + m) *
          Real.cos (cosineAngle (half + 1) k (blockSize half + m)) := by
      rw [cosineSum, blockSize_succ, two_mul, Finset.sum_range_add]
    _ = ∑ m ∈ Finset.range (blockSize half),
        (values m * Real.cos (cosineAngle (half + 1) k m) +
          (-1) ^ k * values (2 * blockSize half - 1 - m) *
            Real.cos (cosineAngle (half + 1) k m)) := by
      rw [second, Finset.sum_add_distrib]
    _ = _ := by simp only [add_mul]

theorem cosineSum_even (j : Nat) :
    cosineSum (half + 1) values (2 * j) = cosineSum half (mirrorSum half values) j := by
  rw [cosineSum_fold]
  apply Finset.sum_congr rfl
  intro m _
  rw [cosineAngle_even, pow_mul, neg_one_sq, one_pow, one_mul, mirrorSum]

theorem cosineSum_odd (j : Nat) :
    cosineSum (half + 1) values (2 * j + 1) =
      cosineSum half (mirrorDifference half values) j +
        cosineSum half (mirrorDifference half values) (j + 1) := by
  rw [cosineSum_fold]
  unfold cosineSum
  rw [← Finset.sum_add_distrib]
  apply Finset.sum_congr rfl
  intro m inside
  have scale := cos_first_ne half (Finset.mem_range.mp inside)
  rw [← mul_add, cos_neighbours, mirrorDifference, cosineScale, pow_succ, pow_mul, neg_one_sq,
    one_pow]
  field_simp
  ring

theorem cosineSum_beyond : cosineSum half values (blockSize half) = 0 := by
  apply Finset.sum_eq_zero
  intro m _
  rw [cos_beyond, mul_zero]

theorem cosineSum_last :
    cosineSum (half + 1) values (2 * blockSize half - 1) =
      cosineSum half (mirrorDifference half values) (blockSize half - 1) := by
  have positive := blockSize_pos half
  rw [show 2 * blockSize half - 1 = 2 * (blockSize half - 1) + 1 by omega, cosineSum_odd,
    Nat.sub_add_cancel positive, cosineSum_beyond, add_zero]

end Halves

theorem cosineSum_single (values : Nat → ℝ) : cosineSum 0 values 0 = values 0 := by
  have angle : cosineAngle 0 0 0 = 0 := by
    rw [cosineAngle, Nat.cast_zero, mul_zero, zero_div]
  rw [cosineSum, blockSize_zero, Finset.sum_range_one, angle, Real.cos_zero, mul_one]

end PrunedCosine
