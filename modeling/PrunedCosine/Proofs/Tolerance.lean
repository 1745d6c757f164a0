import Mathlib
import PrunedCosine.Accuracy
import PrunedCosine.Proofs.Exact
import PrunedCosine.Proofs.Homomorphism
import PrunedCosine.Proofs.RoutineRun
import PrunedCosine.Proofs.Transform

/-! What a numeric check of a plan tells. It is read in exact arithmetic with one more value, for
what has none, such as a scale that the table does not have. A plan passes exactly if every
coefficient that is a number is close to the expected one. A coefficient that is undefined passes
as well, because the largest error leaves it out; there is none where all scales are in the table. -/

namespace PrunedCosine

inductive PartialReal where
  | number (value : ℝ)
  | undefined

namespace PartialReal

/-- What an operation on real numbers gives on values that may be undefined. -/
def combine (operation : ℝ → ℝ → PartialReal) : PartialReal → PartialReal → PartialReal
  | number left, number right => operation left right
  | number _, undefined | undefined, _ => undefined

def apply (operation : ℝ → PartialReal) : PartialReal → PartialReal
  | number value => operation value
  | undefined => undefined

noncomputable def larger : PartialReal → PartialReal → PartialReal
  | number left, number right => number (max left right)
  | number left, undefined => number left
  | undefined, right => right

noncomputable def isLess : PartialReal → PartialReal → Bool
  | number left, number right => decide (left < right)
  | number _, undefined | undefined, _ => false

noncomputable instance : Scalar PartialReal where
  add := combine fun left right => number (left + right)
  sub := combine fun left right => number (left - right)
  mul := combine fun left right => number (left * right)
  div := combine fun left right => if right = 0 then undefined else number (left / right)
  neg := apply fun value => number (-value)
  ofNat count := number (Scalar.ofNat count)
  pi := number Scalar.pi
  cos := apply fun value => number (Scalar.cos value)
  sqrt := apply fun value => if value < 0 then undefined else number (Scalar.sqrt value)
  exp2 := apply fun value => number (Scalar.exp2 value)
  abs := apply fun value => number (Scalar.abs value)
  max := larger
  less := isLess
  undefined := undefined

theorem keepsArithmetic_number : KeepsArithmetic number where
  add _ _ := rfl
  sub _ _ := rfl
  mul _ _ := rfl

theorem number_div {left right : ℝ} (defined : right ≠ 0) :
    number left / number right = number (left / right) := if_neg defined

theorem sqrt_number {value : ℝ} (defined : 0 ≤ value) :
    Scalar.sqrt (number value) = number (Scalar.sqrt value) := if_neg (not_lt.mpr defined)

/-- An undefined number of the list does not count for the largest. -/
theorem exists_foldl_max (terms : List PartialReal) (start : ℝ) :
    ∃ largest, terms.foldl Scalar.max (number start) = number largest ∧
      ∀ bound, largest ≤ bound ↔ start ≤ bound ∧ ∀ value, number value ∈ terms → value ≤ bound := by
  induction terms generalizing start with
  | nil => exact ⟨start, rfl, fun bound => by simp⟩
  | cons term rest ih =>
    cases term with
    | undefined =>
      obtain ⟨largest, found, least⟩ := ih start
      refine ⟨largest, found, fun bound => ?_⟩
      rw [least]
      simp
    | number value =>
      obtain ⟨largest, found, least⟩ := ih (max start value)
      refine ⟨largest, found, fun bound => ?_⟩
      rw [least, max_le_iff, and_assoc]
      simp

end PartialReal

open PartialReal

theorem magnitude_number (values : List ℝ) :
    magnitude (values.map number) = number (magnitude values) := by
  rw [magnitude, List.foldl_map]
  exact List.foldl_hom number fun _ _ => rfl

theorem one_le_magnitude (values : List ℝ) : 1 ≤ magnitude values := by
  have grows (start : ℝ) : start ≤ values.foldl
      (fun largest value => Scalar.max largest (Scalar.abs value)) start := by
    induction values generalizing start with
    | nil => exact le_rfl
    | cons value rest ih => exact (le_max_left start |value|).trans (ih _)
  calc
    (1 : ℝ) = Scalar.ofNat 1 := Nat.cast_one.symm
    _ ≤ magnitude values := grows _

theorem exists_maxError (found : List PartialReal) (expected : List ℝ) :
    ∃ largest, maxError found (expected.map number) = number largest ∧
      ∀ bound, 0 ≤ bound → (largest ≤ bound ↔ ∀ (k : Nat) (x y : ℝ),
        found[k]? = some (number x) → expected[k]? = some y → |x - y| ≤ bound) := by
  obtain ⟨largest, folded, least⟩ := exists_foldl_max
    (List.zipWith (fun left right => Scalar.abs (left - right)) found (expected.map number)) 0
  refine ⟨largest, ?_, fun bound nonneg => ?_⟩
  · rw [← folded, ← Nat.cast_zero]
    rfl
  rw [least, and_iff_right nonneg]
  constructor
  · intro bounded k x y value wanted
    apply bounded
    apply List.mem_of_getElem? (i := k)
    rw [List.getElem?_zipWith, value, List.getElem?_map, wanted]
    rfl
  · intro bounded value member
    obtain ⟨k, there⟩ := List.mem_iff_getElem?.mp member
    rw [List.getElem?_zipWith, List.getElem?_map] at there
    cases value : found[k]? with
    | none => simp [value] at there
    | some left =>
      cases wanted : expected[k]? with
      | none => simp [wanted] at there
      | some y =>
        rw [value, wanted] at there
        cases left with
        | undefined => cases there
        | number x =>
          cases there
          exact bounded k x y value wanted

namespace Reference

theorem sum_number (terms : List ℝ) : sum (terms.map number) = number (sum terms) := by
  rw [sum, List.foldl_map]
  exact List.foldl_hom number fun _ _ => rfl

theorem angle_number {n : Nat} (positive : 0 < n) (k m : Nat) :
    (angle n k m : PartialReal) = number (angle n k m) := by
  have size : (Nat.cast 2 : ℝ) * Nat.cast n ≠ 0 := by positivity
  exact number_div size

theorem norm_number {n : Nat} (positive : 0 < n) (k : Nat) :
    (norm n k : PartialReal) = number (norm n k) := by
  have size : (Nat.cast n : ℝ) ≠ 0 := by positivity
  have square : (0 : ℝ) ≤ Nat.cast (if k = 0 then 1 else 2) / Nat.cast n := by positivity
  have quotient : (Scalar.ofNat (if k = 0 then 1 else 2) / Scalar.ofNat n : PartialReal) =
      number (Nat.cast (if k = 0 then 1 else 2) / Nat.cast n) := number_div size
  rw [norm, quotient, sqrt_number square]
  rfl

theorem coefficient_number {values : List ℝ} (positive : 0 < values.length) (k : Nat) :
    coefficient (values.map number) k = number (coefficient values k) := by
  have terms : (values.map number).mapIdx (fun m value =>
        value * Scalar.cos (angle values.length k m : PartialReal)) =
      (values.mapIdx fun m value =>
        value * Scalar.cos (angle values.length k m)).map number := by
    apply List.ext_getElem?
    intro m
    rw [List.getElem?_mapIdx, List.getElem?_map, List.getElem?_map, List.getElem?_mapIdx,
      Option.map_map, Option.map_map, angle_number positive]
    rfl
  rw [coefficient, coefficient, List.length_map, terms, sum_number, norm_number positive]
  rfl

theorem leading_number (values : List ℝ) (count : Nat) :
    leading (values.map number) count = (leading values count).map number := by
  rw [leading, leading, List.length_map, List.map_map]
  apply List.map_congr_left
  intro k inside
  have positive : 0 < values.length := by
    have := List.mem_range.mp inside
    omega
  exact coefficient_number positive k

end Reference

namespace ScaleTable

theorem exists_block {order k period : Nat} (member : .inverseCosine k period ∈ kinds order) :
    ∃ half, k < blockSize half ∧ period = 2 * blockSize (half + 1) := by
  have level : .inverseCosine k period ∈ (List.range' 2 (order - 1)).flatMap levelKinds := by
    simpa [kinds] using member
  obtain ⟨level, range, inside⟩ := List.mem_flatMap.mp level
  obtain ⟨half, rfl⟩ : ∃ half, level = half + 1 :=
    ⟨level - 1, by have := (List.mem_range'_1.mp range).1; omega⟩
  rw [levelKinds_succ] at inside
  obtain ⟨place, low, same⟩ := List.mem_map.mp inside
  cases same
  exact ⟨half, List.mem_range.mp low, rfl⟩

theorem inverseCosine_number {k period : Nat} (size : (period : ℝ) ≠ 0)
    (cosine : Real.cos (Real.pi * ((2 * k + 1 : Nat) : ℝ) / period) ≠ 0) :
    ((ScaleKind.inverseCosine k period).value : PartialReal) =
      number (ScaleKind.inverseCosine k period).value := by
  have two : (Nat.cast 2 : ℝ) ≠ 0 := by norm_num
  change number (Nat.cast 1) / number (Nat.cast 2) /
    Scalar.cos (number (Real.pi * ((2 * k + 1 : Nat) : ℝ)) / number (period : ℝ)) = _
  rw [number_div two, number_div size]
  exact number_div cosine

theorem kind_value_number {order : Nat} {kind : ScaleKind} (member : kind ∈ kinds order) :
    (kind.value : PartialReal) = number kind.value := by
  have two : (Nat.cast 2 : ℝ) ≠ 0 := by norm_num
  cases kind with
  | quarterCosine =>
    have four : (Nat.cast 4 : ℝ) ≠ 0 := by norm_num
    exact congrArg Scalar.cos (number_div four)
  | dc order => exact congrArg Scalar.exp2 (number_div two)
  | ac order => exact congrArg Scalar.exp2 (number_div two)
  | inverseCosine k period =>
    obtain ⟨half, inside, rfl⟩ := exists_block member
    have angle : Real.pi * ((2 * k + 1 : Nat) : ℝ) / ((2 * blockSize (half + 1) : Nat) : ℝ) =
        cosineAngle (half + 1) 1 k := by
      rw [cosineAngle]
      push_cast
      rw [mul_one]
    apply inverseCosine_number
    · have := blockSize_pos (half + 1)
      positivity
    · rw [angle]
      exact cos_first_ne half inside

theorem value_number {order : Nat} {id : ScaleId}
    (inside : id.index < (ofOrder order : ScaleTable ℝ).size) :
    (ofOrder order : ScaleTable PartialReal).value id =
      number ((ofOrder order : ScaleTable ℝ).value id) := by
  rw [size_eq_length] at inside
  have there : (kinds order)[id.index]? = some (kinds order)[id.index] :=
    List.getElem?_eq_getElem inside
  have partialFound : (ofOrder order : ScaleTable PartialReal).get? id = _ := get?_ofOrder order id
  have found : (ofOrder order : ScaleTable ℝ).get? id = _ := get?_ofOrder order id
  rw [there] at partialFound found
  rw [value_of_get? partialFound, value_of_get? found]
  exact kind_value_number (List.getElem_mem inside)

end ScaleTable

namespace Plan

def ScalesInside (plan : Plan) : Prop :=
  ∀ assignment ∈ plan.assignments, ∀ id ∈ assignment.scale,
    id.index < (ScaleTable.ofOrder plan.order : ScaleTable ℝ).size

noncomputable def partialRun (plan : Plan) (values : List ℝ) : Except Error (List PartialReal) :=
  plan.run (ScaleTable.ofOrder plan.order) (values.map number)

noncomputable def expected (plan : Plan) (values : List ℝ) : List ℝ :=
  Reference.leading (values.drop plan.base) plan.outputCount

/-- The numeric check of the plan comes to an end and finds no error above the tolerance. -/
def Passes (plan : Plan) (values : List ℝ) (tolerance : ℝ) : Prop :=
  ∃ error, plan.relativeError (ScaleTable.ofOrder plan.order) (values.map number) = .ok error ∧
    Scalar.less (number tolerance) error = false

variable {plan : Plan} {values : List ℝ}

/-- Where all scales are in the table nothing is undefined: the run is that on real numbers. -/
theorem partialRun_eq (inside : plan.ScalesInside) :
    plan.partialRun values =
      (plan.run (ScaleTable.ofOrder plan.order) values).map (List.map number) := by
  have size : (ScaleTable.ofOrder plan.order : ScaleTable PartialReal).size =
      (ScaleTable.ofOrder plan.order : ScaleTable ℝ).size := by
    rw [ScaleTable.size_eq_length, ScaleTable.size_eq_length]
  have two := @ScaleTable.two_le_size ℝ _ plan.order
  refine run_map keepsArithmetic_number ?dc ?ac ?differences values
  case dc =>
    rw [ScaleTable.dc, size]
    exact ScaleTable.value_number (show _ - 2 < _ by omega)
  case ac =>
    rw [ScaleTable.ac, size]
    exact ScaleTable.value_number (show _ - 1 < _ by omega)
  case differences =>
    intro assignment member id scaled
    exact ScaleTable.value_number (inside assignment member id scaled)

theorem relativeError_eq :
    plan.relativeError (ScaleTable.ofOrder plan.order) (values.map number) =
      (plan.partialRun values).map fun found =>
        maxError found ((plan.expected values).map number) /
          number (magnitude (plan.expected values)) := by
  have matched : plan.matchTable (ScaleTable.ofOrder plan.order : ScaleTable PartialReal) = .ok () :=
    if_pos rfl
  rw [relativeError, matched]
  change (plan.partialRun values >>= _) = _
  cases ran : plan.partialRun values with
  | error cause => rfl
  | ok found =>
    have count : found.length = plan.outputCount := (exists_final ran).2.1
    have direct : Reference.leading ((values.map number).drop plan.base) found.length =
        (plan.expected values).map number := by
      rw [← List.map_drop, Reference.leading_number, count, expected]
    change Except.ok (_ / _) = Except.ok (_ / _)
    rw [direct, magnitude_number]

theorem length_expected {found : List PartialReal} (ran : plan.partialRun values = .ok found) :
    (plan.expected values).length = found.length := by
  obtain ⟨length, count, final, finished, read⟩ := exists_final ran
  have bounded := outputCount_le_of_reads length finished fun k inside =>
    (read k (Nat.lt_min.mp inside).1).imp fun _ => And.left
  rw [List.length_map, bufferLength] at length
  rw [expected, Reference.leading, List.length_map, List.length_range, List.length_drop, count]
  omega

/-- Every coefficient that is a number is within the bound of the one it is compared with. -/
def NumbersClose (plan : Plan) (values : List ℝ) (found : List PartialReal) (bound : ℝ) : Prop :=
  ∀ (k : Nat) (x : ℝ), found[k]? = some (number x) →
    ∃ y, (plan.expected values)[k]? = some y ∧ |x - y| ≤ bound

theorem passes_iff {tolerance : ℝ} (nonneg : 0 ≤ tolerance) :
    plan.Passes values tolerance ↔ ∃ found, plan.partialRun values = .ok found ∧
      plan.NumbersClose values found (tolerance * magnitude (plan.expected values)) := by
  have size := one_le_magnitude (plan.expected values)
  have bound : 0 ≤ tolerance * magnitude (plan.expected values) :=
    mul_nonneg nonneg (zero_le_one.trans size)
  rw [Passes, relativeError_eq]
  cases ran : plan.partialRun values with
  | error cause => simp [Except.map]
  | ok found =>
    obtain ⟨largest, most, least⟩ := exists_maxError found (plan.expected values)
    have quotient : number largest / number (magnitude (plan.expected values)) =
        number (largest / magnitude (plan.expected values)) :=
      number_div (zero_lt_one.trans_le size).ne'
    have verdict : Scalar.less (number tolerance)
        (number (largest / magnitude (plan.expected values))) = false ↔
        largest ≤ tolerance * magnitude (plan.expected values) := by
      rw [← div_le_iff₀ (zero_lt_one.trans_le size), ← not_lt]
      exact decide_eq_false_iff_not
    simp only [Except.map, most, quotient, Except.ok.injEq, exists_eq_left', verdict]
    rw [least _ bound]
    constructor
    · intro close k x there
      have inside : k < (plan.expected values).length := by
        rw [length_expected ran]
        exact (List.getElem?_eq_some_iff.mp there).1
      exact ⟨_, List.getElem?_eq_getElem inside,
        close k x _ there (List.getElem?_eq_getElem inside)⟩
    · intro close k x y there wanted
      obtain ⟨z, same, near⟩ := close k x there
      cases same.symm.trans wanted
      exact near

/-- In exact arithmetic the plans that planning gives pass without any tolerance. -/
theorem canonical_passes {half base truncation : Nat} (bound : truncation < blockSize (half + 1))
    (length : values.length = base + blockSize (half + 1)) :
    (canonical (half + 1) base (some truncation)).Passes values 0 := by
  have inside : (canonical (half + 1) base (some truncation)).ScalesInside :=
    canonical_scales base (some truncation) (Nat.le_add_left 1 half)
  have sliced : (values.drop base).length = blockSize (half + 1) := by
    rw [List.length_drop]
    omega
  have wanted : (canonical (half + 1) base (some truncation)).expected values =
      (List.range (truncation + 1)).map
        (cosineCoefficient (half + 1) fun m => values.getD (base + m) 0) := by
    have count : (canonical (half + 1) base (some truncation)).outputCount = truncation + 1 :=
      if_pos bound
    rw [expected, count]
    exact (Reference.leading_eq sliced bound).trans (by simp [List.getD_eq_getElem?_getD])
  refine (passes_iff le_rfl).mpr ⟨((canonical (half + 1) base (some truncation)).expected
    values).map number, ?_, fun k x there => ?_⟩
  · rw [partialRun_eq inside, wanted]
    exact congrArg (Except.map (List.map number)) (run_eq_coefficients bound length)
  · rw [List.getElem?_map, Option.map_eq_some_iff] at there
    obtain ⟨y, found, same⟩ := there
    cases same
    exact ⟨x, found, by simp⟩

end Plan

/-- A plan passes exactly if it runs and every coefficient that is a number is within the
tolerance, which counts from the largest expected coefficient or from one. Where all scales are in
the table nothing is undefined, so then that is every coefficient. -/
theorem passes_iff_numbersClose (plan : Plan) (values : List ℝ) {tolerance : ℝ}
    (nonneg : 0 ≤ tolerance) :
    (plan.Passes values tolerance ↔ ∃ found, plan.partialRun values = .ok found ∧
      plan.NumbersClose values found (tolerance * magnitude (plan.expected values))) ∧
    (plan.ScalesInside → plan.partialRun values =
      (plan.run (ScaleTable.ofOrder plan.order) values).map (List.map number)) :=
  ⟨Plan.passes_iff nonneg, Plan.partialRun_eq⟩

theorem passes_iff_numbersClose_canonical :
    (0 : ℝ) ≤ 0 ∧ (Plan.canonical 3 1 (some 4)).Passes [9, 1, 2, 3, 4, 5, 6, 7, 8] 0 ∧
      ∃ found, (Plan.canonical 3 1 (some 4)).partialRun [9, 1, 2, 3, 4, 5, 6, 7, 8] = .ok found ∧
        (Plan.canonical 3 1 (some 4)).NumbersClose [9, 1, 2, 3, 4, 5, 6, 7, 8] found
          (0 * magnitude ((Plan.canonical 3 1 (some 4)).expected [9, 1, 2, 3, 4, 5, 6, 7, 8])) := by
  have passed : (Plan.canonical 3 1 (some 4)).Passes [9, 1, 2, 3, 4, 5, 6, 7, 8] 0 :=
    Plan.canonical_passes (by decide) rfl
  exact ⟨le_rfl, passed, (passes_iff_numbersClose _ _ le_rfl).1.mp passed⟩

/-- The difference is scaled by a scale that the table of pairs does not have. -/
def strayScalePlan : Plan where
  order := 1
  base := 0
  truncation := some 0
  live := .ofList [0, 1]
  assignments :=
    [{ destination := ⟨.work, 0⟩,
       expression := .combine .minus ⟨.input, 0⟩ ⟨.input, 1⟩ (some ⟨9⟩),
       order := 1,
       stage := .butterfly }]

theorem partialRun_strayScalePlan : strayScalePlan.partialRun [1, 2] = .ok [.undefined] := by
  rfl

/-- The only coefficient is undefined, and the plan passes without any tolerance. -/
theorem passes_with_undefined :
    strayScalePlan.Passes [1, 2] 0 ∧ strayScalePlan.partialRun [1, 2] = .ok [.undefined] := by
  refine ⟨(Plan.passes_iff le_rfl).mpr ⟨_, partialRun_strayScalePlan, ?_⟩, partialRun_strayScalePlan⟩
  intro k x there
  cases k with
  | zero => cases there
  | succ k => cases there

end PrunedCosine
