import PrunedCosine.Proofs.Interleave
import PrunedCosine.Statistics

/-! What a plan costs. Each further coefficient takes at least one assignment more: it is one more
output of the last layer, and the halves never get by with less for more. The full plan and the
plan of the first coefficient alone are counted kind by kind, along the halves. -/

namespace PrunedCosine

namespace Expression

def isSum : Expression → Bool
  | combine .plus _ _ none => true
  | combine .plus _ _ (some _) | combine .minus _ _ _ | copy _ => false

def isScaledDifference : Expression → Bool
  | combine .minus _ _ (some _) => true
  | combine .minus _ _ none | combine .plus _ _ _ | copy _ => false

end Expression

/-- So many of the assignments are sums, differences, all of them scaled, and copies, and there are
no others. -/
structure Costs (assignments : List Assignment) (sums differences copies : Nat) : Prop where
  sumCount : (assignments.countP fun assignment => assignment.expression.isSum) = sums
  differenceCount :
    (assignments.countP fun assignment => assignment.expression.isScaledDifference) = differences
  copyCount : assignments.countP Statistics.isCopy = copies
  scaled : ∀ assignment ∈ assignments,
    assignment.expression.isDifference = assignment.expression.isScaledDifference
  count : assignments.length = sums + differences + copies

namespace Costs

theorem append {first second : List Assignment} {sums differences copies moreSums moreDifferences
    moreCopies : Nat} (left : Costs first sums differences copies)
    (right : Costs second moreSums moreDifferences moreCopies) :
    Costs (first ++ second) (sums + moreSums) (differences + moreDifferences)
      (copies + moreCopies) where
  sumCount := by rw [List.countP_append, left.sumCount, right.sumCount]
  differenceCount := by
    rw [List.countP_append, left.differenceCount, right.differenceCount]
  copyCount := by rw [List.countP_append, left.copyCount, right.copyCount]
  scaled := List.forall_mem_append.mpr ⟨left.scaled, right.scaled⟩
  count := by
    rw [List.length_append, left.count, right.count]
    omega

theorem cast {assignments : List Assignment} {sums differences copies otherSums otherDifferences
    otherCopies : Nat} (costs : Costs assignments sums differences copies)
    (sameSums : sums = otherSums) (sameDifferences : differences = otherDifferences)
    (sameCopies : copies = otherCopies) :
    Costs assignments otherSums otherDifferences otherCopies :=
  sameSums ▸ sameDifferences ▸ sameCopies ▸ costs

theorem nil : Costs [] 0 0 0 := ⟨rfl, rfl, rfl, List.forall_mem_nil _, rfl⟩

theorem sum {assignment : Assignment} {left right : Slot}
    (made : assignment.expression = .combine .plus left right none) : Costs [assignment] 1 0 0 := by
  constructor <;> simp [made, Expression.isSum, Expression.isDifference,
    Expression.isScaledDifference, Statistics.isCopy, Expression.isCombine]

theorem difference {assignment : Assignment} {left right : Slot} {scale : ScaleId}
    (made : assignment.expression = .combine .minus left right (some scale)) :
    Costs [assignment] 0 1 0 := by
  constructor <;> simp [made, Expression.isSum, Expression.isDifference,
    Expression.isScaledDifference, Statistics.isCopy, Expression.isCombine]

theorem copy {assignment : Assignment} {source : Slot}
    (made : assignment.expression = .copy source) : Costs [assignment] 0 0 1 := by
  constructor <;> simp [made, Expression.isSum, Expression.isDifference,
    Expression.isScaledDifference, Statistics.isCopy, Expression.isCombine]

theorem no_difference {assignments : List Assignment} {sums copies : Nat}
    (costs : Costs assignments sums 0 copies) {assignment : Assignment}
    (member : assignment ∈ assignments) : assignment.expression.isDifference = false := by
  rw [costs.scaled assignment member]
  exact Bool.eq_false_of_not_eq_true (List.countP_eq_zero.mp costs.differenceCount _ member)

theorem flatMap {make : Nat → List Assignment} {places : List Nat} {sums differences copies : Nat}
    (each : ∀ place ∈ places, Costs (make place) sums differences copies) :
    Costs (places.flatMap make) (places.length * sums) (places.length * differences)
      (places.length * copies) := by
  induction places with
  | nil => simpa using nil
  | cons place rest ih =>
    obtain ⟨here, later⟩ := List.forall_mem_cons.mp each
    refine (here.append (ih later)).cast ?_ ?_ ?_ <;>
      rw [List.length_cons, Nat.succ_mul, Nat.add_comm]

theorem map {make : Nat → Assignment} {places : List Nat} {sums differences copies : Nat}
    (each : ∀ place ∈ places, Costs [make place] sums differences copies) :
    Costs (places.map make) (places.length * sums) (places.length * differences)
      (places.length * copies) := by
  rw [List.map_eq_flatMap]
  exact flatMap each

end Costs

namespace Block

section Growth

theorem length_opening (half base : Nat) (odd : Option Nat) (source : Buffer) :
    (opening half base odd source).length = openingCount half odd := by
  rw [opening, List.length_append, List.length_map, List.length_map, List.length_range,
    openingCount]

theorem length_interleave {order truncation : Nat} (bound : truncation < blockSize order)
    (base : Nat) (source : Buffer) :
    (interleave order base truncation source).length = truncation + 1 := by
  rw [interleave, List.length_map, List.length_range, Nat.min_eq_left bound]

theorem openingCount_mono (half : Nat) {fewer more : Option Nat} (smaller : fewer ≤ more) :
    openingCount half fewer ≤ openingCount half more := by
  cases fewer with
  | none => exact Nat.le_add_right _ _
  | some last =>
    cases more with
    | none => exact absurd smaller (by simp)
    | some larger => exact Nat.le_refl _

theorem length_listing_lt (half base : Nat) (source : Buffer) {truncation larger : Nat}
    (smaller : truncation < larger) (bound : larger < blockSize (half + 1)) :
    (listing (half + 1) base truncation source).length <
      (listing (half + 1) base larger source).length := by
  induction half generalizing base source truncation larger with
  | zero =>
    have two : blockSize (0 + 1) = 2 := rfl
    obtain rfl : truncation = 0 := by omega
    obtain rfl : larger = 1 := by omega
    exact Nat.one_lt_two
  | succ half ih =>
    change larger < blockSize (half + 2) at bound
    obtain ⟨evenBound, oddBound⟩ := childTruncations_bounds bound
    obtain ⟨evenSmaller, oddSmaller⟩ := childTruncations_mono smaller.le bound
    -- what holds of fewer coefficients holds as well of no more
    have grows (base : Nat) {truncation larger : Nat} (smaller : truncation ≤ larger)
        (bound : larger < blockSize (half + 1)) :
        (listing (half + 1) base truncation source.other).length ≤
          (listing (half + 1) base larger source.other).length := by
      rcases smaller.eq_or_lt with rfl | less
      · exact Nat.le_refl _
      · exact (ih base source.other less bound).le
    have even := grows base evenSmaller evenBound
    have odd : (listingOf (half + 1) (base + blockSize (half + 1))
          (childTruncations (blockSize (half + 2)) truncation).2 source.other).length ≤
        (listingOf (half + 1) (base + blockSize (half + 1))
          (childTruncations (blockSize (half + 2)) larger).2 source.other).length := by
      generalize (childTruncations (blockSize (half + 2)) truncation).2 = fewer at *
      generalize (childTruncations (blockSize (half + 2)) larger).2 = more at *
      cases fewer with
      | none => exact Nat.zero_le _
      | some last =>
        cases more with
        | none => exact absurd oddSmaller (by simp)
        | some other =>
          exact grows _ (Option.some_le_some.mp oddSmaller) (oddBound other rfl)
    have opened := openingCount_mono (half + 1) oddSmaller
    rw [listing_succ, listing_succ]
    simp only [List.length_append, length_opening, length_interleave bound,
      length_interleave (smaller.trans bound)]
    omega

end Growth

section Kinds

theorem costs_opening (half base : Nat) (odd : Option Nat) (source : Buffer) :
    Costs (opening half base odd source) (blockSize half) (inputPlaces half odd).length 0 := by
  have sum : ∀ place ∈ List.range (blockSize half),
      Costs [openingSum (half + 1) base source place] 1 0 0 := by
    intro place inside
    apply Costs.sum
    rw [openingSum_eq (List.mem_range.mp inside)]
  have difference : ∀ place ∈ inputPlaces half odd,
      Costs [openingDifference (half + 1) base source place] 0 1 0 := by
    intro place inside
    apply Costs.difference
    rw [openingDifference_eq (mem_inputPlaces.mp inside).2]
  refine ((Costs.map sum).append (Costs.map difference)).cast ?_ ?_ ?_ <;> simp

theorem costs_turns (order base : Nat) (source : Buffer) (count : Nat) :
    Costs (turns order base source count) count 0 count := by
  have turn (j : Nat) :
      Costs [evenOutput order base source j, oddOutput order base source j] 1 0 1 :=
    (Costs.copy rfl).append (Costs.sum rfl)
  refine (Costs.flatMap fun j _ => turn j).cast ?_ ?_ ?_ <;> simp

theorem costs_interleave_full (half base : Nat) (source : Buffer) :
    Costs (interleave (half + 1) base (blockSize (half + 1) - 1) source) (blockSize half - 1) 0
      (blockSize half + 1) := by
  have positive := blockSize_pos half
  have ending : Costs (boundary (half + 1) base source (blockSize (half + 1) - 1)) 0 0 2 := by
    unfold boundary
    rw [if_neg (by omega), if_neg (lt_irrefl _)]
    exact (Costs.copy rfl).append (Costs.copy rfl)
  rw [interleave_eq_turns, take_turns base source (by omega)]
  exact ((costs_turns _ base source _).append ending).cast rfl rfl (by omega)

theorem costs_interleave_first (half base : Nat) (source : Buffer) :
    Costs (interleave (half + 1) base 0 source) 0 0 1 := by
  have one : min (0 + 1) (blockSize (half + 1)) = 1 := Nat.min_eq_left (blockSize_pos _)
  rw [interleave, one]
  exact Costs.copy (merge_even half base 0 source)

theorem childTruncations_full (half : Nat) :
    childTruncations (blockSize (half + 2)) (blockSize (half + 2) - 1) =
      (blockSize (half + 1) - 1, some (blockSize (half + 1) - 1)) := by
  have positive := blockSize_pos half
  have even : blockSize (half + 1) = 2 * blockSize half := rfl
  have double : blockSize (half + 2) = 2 * blockSize (half + 1) := rfl
  rw [childTruncations_of_lt (by omega), if_neg (by omega)]
  congr 2 <;> omega

theorem costs_pair_first (base : Nat) (source : Buffer) : Costs (pair base 0 source) 1 0 0 :=
  Costs.sum rfl

theorem costs_pair_full (base : Nat) (source : Buffer) : Costs (pair base 1 source) 1 1 0 :=
  (costs_pair_first base source).append (Costs.difference rfl)

/-- All the coefficients: both halves are in full as well. -/
theorem costs_full (half base : Nat) (source : Buffer) :
    Costs (listing (half + 1) base (blockSize (half + 1) - 1) source)
      (half * blockSize (half + 1) + 1) ((half + 1) * blockSize half)
      ((half + 1) * blockSize half - 1) := by
  induction half generalizing base source with
  | zero => exact costs_pair_full base source
  | succ half ih =>
    have positive := blockSize_pos half
    have even : blockSize (half + 1) = 2 * blockSize half := rfl
    have double : blockSize (half + 2) = 2 * blockSize (half + 1) := rfl
    have opened := costs_opening (half + 1) base (some (blockSize (half + 1) - 1)) source
    have closed := costs_interleave_full (half + 1) base source
    rw [listing_succ, childTruncations_full]
    refine (opened.append ((ih base source.other).append
      ((ih _ source.other).append closed))).cast ?_ ?_ ?_
    · rw [double]
      grind
    · rw [inputPlaces, List.length_range, even]
      grind
    · rw [even]
      have : 1 ≤ (half + 1) * blockSize half := Nat.mul_pos half.succ_pos positive
      grind

/-- The first coefficient alone: no layer needs its odd half, so there are no differences. -/
theorem costs_first (half base : Nat) (source : Buffer) :
    Costs (listing (half + 1) base 0 source) (blockSize (half + 1) - 1) 0 half := by
  induction half generalizing base source with
  | zero => exact costs_pair_first base source
  | succ half ih =>
    have positive := blockSize_pos (half + 1)
    have double : blockSize (half + 1 + 1) = 2 * blockSize (half + 1) := rfl
    have opened := costs_opening (half + 1) base none source
    have closed := costs_interleave_first (half + 1) base source
    rw [listing_succ, childTruncations_first]
    refine (opened.append ((ih base source.other).append
      (Costs.nil.append closed))).cast ?_ rfl ?_ <;> omega

end Kinds

end Block

/-- Fewer coefficients cost fewer assignments, and what the most and the fewest cost is known
exactly. -/
theorem pruning_pays {order : Nat} (positive : 1 ≤ order) (base : Nat) :
    (∀ truncation larger short long, truncation < larger → larger < 2 ^ order →
      Plan.Obtained order base (some truncation) short →
      Plan.Obtained order base (some larger) long →
        short.assignments.length < long.assignments.length) ∧
    (∀ full, Plan.Obtained order base (some (2 ^ order - 1)) full →
      (full.assignments.countP fun assignment => assignment.expression.isSum) =
          (order - 1) * 2 ^ order + 1 ∧
        (full.assignments.countP fun assignment => assignment.expression.isScaledDifference) =
          order * 2 ^ (order - 1) ∧
        full.assignments.countP Statistics.isCopy = order * 2 ^ (order - 1) - 1 ∧
        full.assignments.length = (2 * order - 1) * 2 ^ order) ∧
    ∀ first, Plan.Obtained order base (some 0) first →
      (first.assignments.countP fun assignment => assignment.expression.isSum) = 2 ^ order - 1 ∧
        (∀ assignment ∈ first.assignments, assignment.expression.isDifference = false) ∧
        first.assignments.countP Statistics.isCopy = order - 1 ∧
        first.assignments.length = 2 ^ order - 1 + (order - 1) := by
  obtain ⟨half, rfl⟩ := Nat.exists_eq_add_of_le' positive
  rw [Nat.add_sub_cancel]
  simp only [← blockSize_eq_pow]
  refine ⟨fun truncation larger short long smaller bound shortPlan longPlan => ?_,
    fun full plan => ?_, fun first plan => ?_⟩
  · rw [shortPlan.eq_canonical positive, longPlan.eq_canonical positive]
    exact Block.length_listing_lt half base .input smaller bound
  · have costs := Block.costs_full half base .input
    rw [plan.eq_canonical positive]
    refine ⟨costs.sumCount, costs.differenceCount, costs.copyCount, costs.count.trans ?_⟩
    have copies : 1 ≤ (half + 1) * blockSize half := Nat.mul_pos half.succ_pos (blockSize_pos half)
    rw [blockSize_succ]
    grind
  · have costs := Block.costs_first half base .input
    rw [plan.eq_canonical positive]
    exact ⟨costs.sumCount, fun _ => costs.no_difference, costs.copyCount, costs.count⟩

theorem pruning_pays_eight :
    1 ≤ 3 ∧ 2 < 5 ∧ 5 < 2 ^ 3 ∧
      Plan.Obtained 3 1 (some 2) (Plan.build 3 1 (some 2) ((plan 4 0 9).run .fresh).2).1 ∧
      Plan.Obtained 3 1 (some 5) (Plan.build 3 1 (some 5) .fresh).1 ∧
      Plan.Obtained 3 1 (some (2 ^ 3 - 1)) (Plan.build 3 1 (some (2 ^ 3 - 1)) .fresh).1 ∧
      Plan.Obtained 3 1 (some 0) (Plan.build 3 1 (some 0) .fresh).1 ∧
      (Plan.build 3 1 (some 2) ((plan 4 0 9).run .fresh).2).1.assignments.length <
        (Plan.build 3 1 (some 5) .fresh).1.assignments.length ∧
      (Plan.build 3 1 (some (2 ^ 3 - 1)) .fresh).1.assignments.length = (2 * 3 - 1) * 2 ^ 3 ∧
      (Plan.build 3 1 (some 0) .fresh).1.assignments.length = 2 ^ 3 - 1 + (3 - 1) := by
  obtain ⟨grows, full, first⟩ := pruning_pays (show 1 ≤ 3 by decide) 1
  have short : Plan.Obtained 3 1 (some 2)
      (Plan.build 3 1 (some 2) ((plan 4 0 9).run .fresh).2).1 := .build (.plan 4 0 9 .fresh)
  have obtained (last : Nat) :
      Plan.Obtained 3 1 (some last) (Plan.build 3 1 (some last) .fresh).1 := .build .fresh
  exact ⟨by decide, by decide, by decide, short, obtained 5, obtained (2 ^ 3 - 1), obtained 0,
    grows 2 5 _ _ (by decide) (by decide) short (obtained 5), (full _ (obtained _)).2.2.2,
    (first _ (obtained 0)).2.2.2⟩

end PrunedCosine
