import Mathlib.Algebra.BigOperators.Field
import PrunedCosine.Proofs.Exact

/-! The reference transform keeps inner products, whatever the number of values. The cosines of
two values, multiplied and added up over all coefficients, are two kernels: sums of the cosines of
the multiples of one angle, the first of which counts once and the others twice. -/

namespace PrunedCosine

namespace Reference

/-- How often coefficient `k` counts: the square of its norm, times the number of values. -/
def weight (k : Nat) : Nat := if k = 0 then 1 else 2

noncomputable def kernel (n : Nat) (angle : ℝ) : ℝ :=
  ∑ k ∈ Finset.range n, weight k * Real.cos (k * angle)

/-- The angle between two neighbouring coefficients at value `m` of `n`. -/
noncomputable def pitch (n m : Nat) : ℝ := Real.pi * (2 * m + 1 : Nat) / (2 * n : Nat)

section Kernel

theorem kernel_zero_angle (n : Nat) : kernel (n + 1) 0 = 2 * n + 1 := by
  unfold kernel
  simp only [mul_zero, Real.cos_zero, mul_one]
  induction n with
  | zero => simp [weight]
  | succ n ih =>
    rw [Finset.sum_range_succ, ih, weight, if_neg n.succ_ne_zero]
    push_cast
    ring

theorem sin_mul_kernel (n : Nat) (angle : ℝ) :
    Real.sin (angle / 2) * kernel (n + 1) angle = Real.sin ((n + 1) * angle - angle / 2) := by
  induction n with
  | zero =>
    rw [kernel, Finset.sum_range_one, weight, if_pos rfl, Nat.cast_one, Nat.cast_zero, zero_mul,
      Real.cos_zero, one_mul, mul_one]
    congr 1
    ring
  | succ n ih =>
    have next : 2 * Real.sin (angle / 2) * Real.cos ((n + 1 : Nat) * angle) =
        Real.sin ((n + 1 + 1) * angle - angle / 2) - Real.sin ((n + 1) * angle - angle / 2) := by
      rw [Real.two_mul_sin_mul_cos, show angle / 2 - (n + 1 : Nat) * angle =
        -((n + 1) * angle - angle / 2) by push_cast; ring, Real.sin_neg]
      rw [show angle / 2 + (n + 1 : Nat) * angle = (n + 1 + 1) * angle - angle / 2 by
        push_cast; ring]
      ring
    calc
      _ = Real.sin (angle / 2) * kernel (n + 1) angle +
          2 * Real.sin (angle / 2) * Real.cos ((n + 1 : Nat) * angle) := by
        unfold kernel
        rw [Finset.sum_range_succ _ (n + 1), weight, if_neg n.succ_ne_zero, Nat.cast_two]
        ring
      _ = _ := by
        rw [ih, next]
        push_cast
        ring

theorem sin_half_ne {n : Nat} {turns : ℤ} (positive : 0 < n) (nonzero : turns ≠ 0)
    (above : -(2 * n : ℤ) < turns) (below : turns < 2 * n) :
    Real.sin (Real.pi * turns / n / 2) ≠ 0 := by
  have size : (0 : ℝ) < 2 * n := by positivity
  have least : -(2 * n : ℝ) < turns := by exact_mod_cast above
  have most : (turns : ℝ) < 2 * n := by exact_mod_cast below
  have angle : Real.pi * turns / n / 2 = Real.pi * (turns / (2 * n)) := by
    field_simp
  have within : -1 < turns / (2 * n : ℝ) ∧ turns / (2 * n : ℝ) < 1 := by
    rw [lt_div_iff₀ size, div_lt_one size]
    constructor
    · linarith
    · exact most
  have pi := Real.pi_pos
  rw [angle, Ne, Real.sin_eq_zero_iff_of_lt_of_lt (by nlinarith) (by nlinarith)]
  simp [Real.pi_ne_zero, nonzero, positive.ne']

/-- At a multiple of the `n`th part of half a turn, the kernel of `n` terms is a sign. -/
theorem kernel_of_turns {n : Nat} {turns : ℤ} (positive : 0 < n) (nonzero : turns ≠ 0)
    (above : -(2 * n : ℤ) < turns) (below : turns < 2 * n) :
    kernel n (Real.pi * turns / n) = -(-1) ^ turns := by
  have sine := sin_half_ne positive nonzero above below
  obtain ⟨last, rfl⟩ := Nat.exists_eq_add_of_le' positive
  have whole : ((last : ℝ) + 1) * (Real.pi * turns / (last + 1 : Nat)) = turns * Real.pi := by
    push_cast
    field_simp
  apply mul_left_cancel₀ sine
  rw [sin_mul_kernel, whole, Real.sin_int_mul_pi_sub]
  ring

end Kernel

section Basis

noncomputable def basis (n k m : Nat) : ℝ := Real.cos (k * pitch n m) * norm n k

theorem angle_eq_pitch (n k m : Nat) : (angle n k m : ℝ) = k * pitch n m := by
  change Real.pi * ((2 * m + 1 : Nat) : ℝ) * k / ((2 : Nat) * n) = _
  unfold pitch
  push_cast
  ring

theorem norm_mul_self (n k : Nat) : (norm n k : ℝ) * norm n k = weight k / n := by
  change Real.sqrt (((if k = 0 then 1 else 2 : Nat) : ℝ) / n) *
    Real.sqrt (((if k = 0 then 1 else 2 : Nat) : ℝ) / n) = _
  exact Real.mul_self_sqrt (by positivity)

theorem coefficient_eq_sum_basis (values : List ℝ) (k : Nat) :
    coefficient values k =
      ∑ m ∈ Finset.range values.length, values.getD m 0 * basis values.length k m := by
  rw [coefficient_eq_sum, Finset.sum_mul]
  simp only [basis, angle_eq_pitch, mul_assoc]

/-- The cosines of two values, multiplied and added up, are the kernels of the difference and of
the sum of their angles. -/
theorem sum_cos_mul_cos (n : Nat) (first second : ℝ) :
    ∑ k ∈ Finset.range n, weight k * (Real.cos (k * first) * Real.cos (k * second)) =
      (kernel n (first - second) + kernel n (first + second)) / 2 := by
  unfold kernel
  rw [← Finset.sum_add_distrib, Finset.sum_div]
  apply Finset.sum_congr rfl
  intro k _
  have product := Real.two_mul_cos_mul_cos (k * first) (k * second)
  rw [← mul_sub, ← mul_add] at product
  linear_combination weight k / 2 * product

/-- The two signs cancel: the sum and the difference of two places are of different parity. -/
theorem sign_add_sign (m l : Nat) :
    -(-1 : ℝ) ^ (m - l : ℤ) + -(-1) ^ (m + l + 1 : ℤ) = 0 := by
  have parts : (m + l + 1 : ℤ) = (m - l) + 2 * l + 1 := by ring
  have nonzero : (-1 : ℝ) ≠ 0 := by norm_num
  rw [parts, zpow_add₀ nonzero, zpow_add₀ nonzero, zpow_mul, zpow_one]
  norm_num

theorem sum_basis_mul_basis {n m l : Nat} (first : m < n) (second : l < n) :
    ∑ k ∈ Finset.range n, basis n k m * basis n k l = if m = l then 1 else 0 := by
  have positive : 0 < n := by omega
  have size : (n : ℝ) ≠ 0 := Nat.cast_ne_zero.mpr positive.ne'
  have difference : pitch n m - pitch n l = Real.pi * ((m - l : ℤ) : ℝ) / n := by
    unfold pitch
    push_cast
    field_simp
    ring
  have sum : pitch n m + pitch n l = Real.pi * ((m + l + 1 : ℤ) : ℝ) / n := by
    unfold pitch
    push_cast
    field_simp
    ring
  -- the sum of two places lies strictly between the multiples of `2 * n`, also where `m = l`
  have outer : kernel n (Real.pi * ((m + l + 1 : ℤ) : ℝ) / n) = -(-1) ^ (m + l + 1 : ℤ) :=
    kernel_of_turns positive (by omega) (by omega) (by omega)
  have kernels : ∑ k ∈ Finset.range n, basis n k m * basis n k l =
      (kernel n (pitch n m - pitch n l) + -(-1) ^ (m + l + 1 : ℤ)) / 2 / n := by
    calc
      _ = (∑ k ∈ Finset.range n,
            weight k * (Real.cos (k * pitch n m) * Real.cos (k * pitch n l))) / n := by
        rw [Finset.sum_div]
        apply Finset.sum_congr rfl
        intro k _
        unfold basis
        linear_combination
          (Real.cos (k * pitch n m) * Real.cos (k * pitch n l)) * norm_mul_self n k
      _ = _ := by rw [sum_cos_mul_cos, sum, outer]
  rw [kernels]
  by_cases same : m = l
  · obtain ⟨last, rfl⟩ := Nat.exists_eq_add_of_le' positive
    have odd : (-1 : ℝ) ^ (l + l + 1 : ℤ) = -1 := Odd.neg_one_zpow ⟨l, by ring⟩
    rw [if_pos same, same, sub_self, kernel_zero_angle, odd]
    push_cast at size ⊢
    field_simp
    ring
  · have inner : kernel n (Real.pi * ((m - l : ℤ) : ℝ) / n) = -(-1) ^ (m - l : ℤ) :=
      kernel_of_turns positive (by omega) (by omega) (by omega)
    rw [if_neg same, difference, inner, sign_add_sign, zero_div, zero_div]

theorem sum_coefficient_mul_coefficient {first second : List ℝ}
    (length : first.length = second.length) :
    ∑ k ∈ Finset.range first.length, coefficient first k * coefficient second k =
      ∑ m ∈ Finset.range first.length, first.getD m 0 * second.getD m 0 := by
  have value (m : Nat) (inside : m ∈ Finset.range first.length) :
      ∑ l ∈ Finset.range first.length, ∑ k ∈ Finset.range first.length,
          first.getD m 0 * basis first.length k m * (second.getD l 0 * basis first.length k l) =
        first.getD m 0 * second.getD m 0 := by
    calc
      _ = ∑ l ∈ Finset.range first.length,
          first.getD m 0 * second.getD l 0 * if m = l then 1 else 0 := by
        apply Finset.sum_congr rfl
        intro l other
        rw [← sum_basis_mul_basis (Finset.mem_range.mp inside) (Finset.mem_range.mp other),
          Finset.mul_sum]
        apply Finset.sum_congr rfl
        intro k _
        ring
      _ = _ := by simp only [mul_ite, mul_one, mul_zero, Finset.sum_ite_eq, if_pos inside]
  calc
    _ = ∑ k ∈ Finset.range first.length, ∑ m ∈ Finset.range first.length,
        ∑ l ∈ Finset.range first.length,
          first.getD m 0 * basis first.length k m * (second.getD l 0 * basis first.length k l) := by
      simp only [coefficient_eq_sum_basis, ← length, Finset.sum_mul_sum]
    _ = ∑ m ∈ Finset.range first.length, ∑ l ∈ Finset.range first.length,
        ∑ k ∈ Finset.range first.length,
          first.getD m 0 * basis first.length k m * (second.getD l 0 * basis first.length k l) := by
      rw [Finset.sum_comm]
      apply Finset.sum_congr rfl
      intro m _
      rw [Finset.sum_comm]
    _ = _ := Finset.sum_congr rfl value

end Basis

theorem length_transform (values : List ℝ) : (transform values).length = values.length := by
  rw [transform, leading, List.length_map, List.length_range, Nat.min_self]

theorem getD_transform {values : List ℝ} {k : Nat} (inside : k < values.length) :
    (transform values).getD k 0 = coefficient values k := by
  rw [List.getD_eq_getElem _ _ (by rwa [length_transform])]
  simp only [transform, leading, List.getElem_map, List.getElem_range]

end Reference

def innerProduct (first second : List ℝ) : ℝ := (List.zipWith (· * ·) first second).sum

theorem innerProduct_eq_sum {first second : List ℝ} (length : first.length = second.length) :
    innerProduct first second =
      ∑ m ∈ Finset.range first.length, first.getD m 0 * second.getD m 0 := by
  unfold innerProduct
  induction first generalizing second with
  | nil => simp
  | cons value rest ih =>
    cases second with
    | nil => cases length
    | cons other others =>
      rw [List.zipWith_cons_cons, List.sum_cons, ih (Nat.succ.inj length), List.length_cons,
        Finset.sum_range_succ', add_comm]
      simp only [List.getD_cons_zero, List.getD_cons_succ]

theorem sum_squares (values : List ℝ) : (values.map (· ^ 2)).sum = innerProduct values values := by
  unfold innerProduct
  simp only [List.zipWith_self, pow_two]

theorem innerProduct_transform {first second : List ℝ} (length : first.length = second.length) :
    innerProduct (Reference.transform first) (Reference.transform second) =
      innerProduct first second := by
  calc
    _ = ∑ k ∈ Finset.range first.length,
        (Reference.transform first).getD k 0 * (Reference.transform second).getD k 0 := by
      rw [innerProduct_eq_sum (by rwa [Reference.length_transform, Reference.length_transform]),
        Reference.length_transform]
    _ = ∑ k ∈ Finset.range first.length,
        Reference.coefficient first k * Reference.coefficient second k := by
      apply Finset.sum_congr rfl
      intro k member
      have inside := Finset.mem_range.mp member
      rw [Reference.getD_transform inside, Reference.getD_transform (length ▸ inside)]
    _ = _ := by
      rw [Reference.sum_coefficient_mul_coefficient length, innerProduct_eq_sum length]

/-- The transform keeps the number of values and their inner products: the sum of the products of
the coefficients is that of the values, and so it is with the squares. -/
theorem transform_orthonormal {first second : List ℝ} (length : first.length = second.length) :
    (Reference.transform first).length = first.length ∧
      (Reference.transform second).length = second.length ∧
      innerProduct (Reference.transform first) (Reference.transform second) =
        innerProduct first second ∧
      ((Reference.transform first).map (· ^ 2)).sum = (first.map (· ^ 2)).sum := by
  refine ⟨Reference.length_transform first, Reference.length_transform second,
    innerProduct_transform length, ?_⟩
  rw [sum_squares, sum_squares, innerProduct_transform rfl]

theorem transform_orthonormal_three :
    ([1, 2, 3] : List ℝ).length = ([4, -5, 6] : List ℝ).length ∧
      innerProduct (Reference.transform [1, 2, 3]) (Reference.transform [4, -5, 6]) = 12 ∧
      ((Reference.transform ([1, 2, 3] : List ℝ)).map (· ^ 2)).sum = 14 := by
  obtain ⟨_, _, products, squares⟩ :=
    transform_orthonormal (show ([1, 2, 3] : List ℝ).length = ([4, -5, 6] : List ℝ).length from rfl)
  refine ⟨rfl, products.trans ?_, squares.trans ?_⟩
  · norm_num [innerProduct]
  · norm_num

end PrunedCosine
