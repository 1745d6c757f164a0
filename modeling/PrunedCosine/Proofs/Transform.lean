import PrunedCosine.Proofs.Exact
import PrunedCosine.Proofs.Soundness

/-! In exact arithmetic a plan computes the cosine transform. A block leaves the cosine sums of
the values it reads in the other buffer: its halves leave those of the sums and differences of
mirror images, and the closing layer puts them together. -/

namespace PrunedCosine

namespace Block

variable {top : Nat}

/-- Running a block leaves its coefficients up to the truncation in the buffer it writes. -/
def Transforms (top order : Nat) : Prop :=
  ∀ (memory : Memory ℝ) (base truncation : Nat) (source : Buffer), truncation < blockSize order →
    ∀ k ≤ truncation,
      memory.run (.ofOrder top) (listing order base truncation source) ⟨source.other, base + k⟩ =
        cosineSum order (fun m => memory ⟨source, base + m⟩) k

section Layers

variable (memory : Memory ℝ) (base : Nat) (source : Buffer)

theorem run_opening_sum {half place : Nat} (odd : Option Nat) (inside : place < blockSize half) :
    memory.run (.ofOrder top) (opening half base odd source) ⟨source.other, base + place⟩ =
      mirrorSum half (fun m => memory ⟨source, base + m⟩) place := by
  have member : openingSum (half + 1) base source place ∈ opening half base odd source :=
    mem_opening.mpr ⟨place, inside, Or.inl rfl⟩
  have written := Memory.run_parallel (.ofOrder top) memory
    (opening_layer half base odd source).parallel member
  have mirror : base + 2 * blockSize half - 1 - place = base + (2 * blockSize half - 1 - place) := by
    omega
  rw [openingSum_eq inside, mirror] at written
  exact written

theorem run_opening_difference {half place : Nat} {odd : Option Nat} (wanted : odd.isSome)
    (covered : half + 2 ≤ top) (inside : place < blockSize (half + 1)) :
    memory.run (.ofOrder top) (opening (half + 1) base odd source)
        ⟨source.other, base + blockSize (half + 1) + place⟩ =
      mirrorDifference (half + 1) (fun m => memory ⟨source, base + m⟩) place := by
  have member : openingDifference (half + 2) base source place ∈
      opening (half + 1) base odd source :=
    mem_opening.mpr ⟨place, inside, Or.inr ⟨wanted, rfl⟩⟩
  have written := Memory.run_parallel (.ofOrder top) memory
    (opening_layer (half + 1) base odd source).parallel member
  have mirror : base + 2 * blockSize (half + 1) - 1 - place =
      base + (2 * blockSize (half + 1) - 1 - place) := by
    omega
  rw [openingDifference_eq inside, mirror] at written
  rw [written, Memory.value, ScaleTable.value_difference covered inside,
    ScaleKind.inverseCosine_value]
  rfl

theorem run_interleave {half truncation k : Nat} (wanted : k ≤ truncation)
    (inside : k < blockSize (half + 1)) :
    memory.run (.ofOrder top) (interleave (half + 1) base truncation source)
        ⟨source.other, base + k⟩ =
      memory.value (.ofOrder top) (merge (half + 1) base source k).expression :=
  Memory.run_parallel (.ofOrder top) memory (interleave_layer half base truncation source).parallel
    (mem_interleave.mpr ⟨k, wanted, inside, rfl⟩)

theorem run_outside {order truncation : Nat} {slot : Slot}
    (outside : ¬slot.Within base (blockSize order)) :
    memory.run (.ofOrder top) (listing order base truncation source) slot = memory slot := by
  apply Memory.run_frame
  intro assignment member same
  exact outside (same ▸ (listing_within order base truncation source assignment member).1)

end Layers

theorem transforms_one : Transforms top 1 := by
  intro memory base truncation source bound k wanted
  have two : blockSize 1 = 2 := rfl
  have parallel := (pair_layer base truncation source).parallel
  obtain rfl | rfl : k = 0 ∨ k = 1 := by omega
  · obtain ⟨sum, member, written, read⟩ : ∃ sum ∈ pair base truncation source,
        sum.destination = ⟨source.other, base⟩ ∧
          sum.expression = .combine .plus ⟨source, base⟩ ⟨source, base + 1⟩ none := by
      rw [pair]
      split <;> exact ⟨_, List.mem_cons_self .., rfl, rfl⟩
    have result := Memory.run_parallel (.ofOrder top) memory parallel member
    have first := cosineSum_even 0 (fun m => memory ⟨source, base + m⟩) 0
    rw [written, read] at result
    rw [listing, first, cosineSum_single]
    exact result
  · obtain ⟨difference, member, written, read⟩ : ∃ difference ∈ pair base truncation source,
        difference.destination = ⟨source.other, base + 1⟩ ∧
          difference.expression =
            .combine .minus ⟨source, base⟩ ⟨source, base + 1⟩ (some .quarterCosine) := by
      rw [pair, if_neg (by omega)]
      exact ⟨_, List.mem_cons_of_mem _ (List.mem_cons_self ..), rfl, rfl⟩
    have result := Memory.run_parallel (.ofOrder top) memory parallel member
    have last := cosineSum_last 0 fun m => memory ⟨source, base + m⟩
    change cosineSum 1 _ 1 = cosineSum 0 _ 0 at last
    rw [written, read] at result
    rw [listing, result, last, cosineSum_single, Memory.value, ScaleTable.value_quarterCosine,
      ScaleKind.quarterCosine_value]
    rfl

theorem run_halves {half : Nat} (ih : Transforms top half) (memory : Memory ℝ) (base : Nat)
    (source : Buffer) {evenLast : Nat} {oddLast : Option Nat} (evenBound : evenLast < blockSize half)
    (oddBound : ∀ last ∈ oddLast, last < blockSize half) :
    (∀ j ≤ evenLast,
      (memory.run (.ofOrder top) (listing half base evenLast source)).run (.ofOrder top)
          (listingOf half (base + blockSize half) oddLast source) ⟨source.other, base + j⟩ =
        cosineSum half (fun m => memory ⟨source, base + m⟩) j) ∧
    ∀ last ∈ oddLast, ∀ j ≤ last,
      (memory.run (.ofOrder top) (listing half base evenLast source)).run (.ofOrder top)
          (listingOf half (base + blockSize half) oddLast source)
          ⟨source.other, base + blockSize half + j⟩ =
        cosineSum half (fun m => memory ⟨source, base + blockSize half + m⟩) j := by
  have even (j : Nat) (wanted : j ≤ evenLast) := ih memory base evenLast source evenBound j wanted
  cases oddLast with
  | none => exact ⟨even, fun last same => absurd same (Option.not_mem_none last)⟩
  | some oddLast =>
    have bound := oddBound oddLast rfl
    constructor
    · intro j wanted
      rw [listingOf, run_outside, even j wanted]
      intro within
      have least := (Slot.within_mk.mp within).1
      omega
    · intro last same j wanted
      cases same
      rw [listingOf, ih _ _ _ _ bound j wanted]
      apply cosineSum_congr
      intro m inside
      apply run_outside
      intro within
      have most := (Slot.within_mk.mp within).2
      omega

theorem value_merge {half truncation k base : Nat} {source : Buffer} {values : Nat → ℝ}
    {memory : Memory ℝ} (wanted : k ≤ truncation) (bound : truncation < blockSize (half + 1))
    (even : ∀ j ≤ truncation / 2,
      memory ⟨source, base + j⟩ = cosineSum half (mirrorSum half values) j)
    (odd : truncation ≠ 0 → ∀ j ≤ min ((truncation + 1) / 2) (blockSize half - 1),
      memory ⟨source, base + blockSize half + j⟩ =
        cosineSum half (mirrorDifference half values) j) :
    memory.value (.ofOrder top) (merge (half + 1) base source k).expression =
      cosineSum (half + 1) values k := by
  have positive := blockSize_pos half
  rw [blockSize_succ] at bound
  by_cases parity : k % 2 = 0
  · obtain ⟨j, rfl⟩ : ∃ j, k = 2 * j := ⟨k / 2, by omega⟩
    rw [merge_even, cosineSum_even]
    exact even j (by omega)
  · by_cases last : k + 1 = 2 * blockSize half
    · obtain rfl : k = 2 * blockSize half - 1 := by omega
      rw [merge_last, cosineSum_last]
      exact odd (by omega) _ (by omega)
    · obtain ⟨j, rfl⟩ : ∃ j, k = 2 * j + 1 := ⟨k / 2, by omega⟩
      rw [merge_odd base source (by omega), cosineSum_odd, ← odd (by omega) j (by omega),
        ← odd (by omega) (j + 1) (by omega)]
      rfl

theorem transforms_succ {half : Nat} (covered : half + 2 ≤ top) (ih : Transforms top (half + 1)) :
    Transforms top (half + 2) := by
  intro memory base truncation source bound k wanted
  have halved : blockSize (half + 2) / 2 = blockSize (half + 1) := by
    rw [blockSize_succ]
    omega
  obtain ⟨evenBound, oddBound⟩ := childTruncations_bounds bound
  rw [listing_succ, Memory.run_append, Memory.run_append, Memory.run_append,
    run_interleave _ base source wanted (wanted.trans_lt bound)]
  rw [childTruncations_of_lt bound, halved] at evenBound oddBound ⊢
  dsimp only at evenBound oddBound ⊢
  generalize oddWanted : (if truncation = 0 then none
    else some (min ((truncation + 1) / 2) (blockSize (half + 1) - 1))) = oddLast at oddBound ⊢
  obtain ⟨even, odd⟩ := run_halves ih (memory.run (.ofOrder top)
    (opening (half + 1) base oddLast source)) base source.other evenBound oddBound
  rw [Buffer.other_other] at even odd
  -- the closing layer sees what both halves left, and they saw what the opening layer left
  apply value_merge wanted bound
  · intro j low
    rw [even j low]
    apply cosineSum_congr
    intro m inside
    exact run_opening_sum memory base source oddLast inside
  · intro later j low
    rw [if_neg later] at oddWanted
    subst oddWanted
    rw [odd _ rfl j low]
    apply cosineSum_congr
    intro m inside
    exact run_opening_difference memory base source rfl covered inside

theorem transforms {order : Nat} (covered : order + 1 ≤ top) : Transforms top (order + 1) := by
  induction order with
  | zero => exact transforms_one
  | succ half ih => exact transforms_succ covered (ih (Nat.le_of_succ_le covered))

end Block

theorem Plan.run_eq_coefficients {half base truncation : Nat}
    (bound : truncation < blockSize (half + 1)) {input : List ℝ}
    (length : input.length = base + blockSize (half + 1)) :
    (canonical (half + 1) base (some truncation)).run (.ofOrder (half + 1)) input =
      .ok ((List.range (truncation + 1)).map
        (cosineCoefficient (half + 1) fun m => input.getD (base + m) 0)) := by
  obtain ⟨memory, starts⟩ := Memory.exists_starts length
  rw [run_canonical base _ (Nat.le_add_left 1 half) (some_lt bound) length starts, wantedCount]
  congr 1
  apply List.map_congr_left
  intro k inside
  have wanted : k ≤ truncation := Nat.lt_succ_iff.mp (List.mem_range.mp inside)
  have values : ∀ m < blockSize (half + 1), memory ⟨.input, base + m⟩ = input.getD (base + m) 0 := by
    intro m low
    apply starts
    rw [List.getD_eq_getElem _ _ (by omega), List.getElem?_eq_getElem]
  have transformed := Block.transforms le_rfl memory base truncation .input bound k wanted
  rw [Block.listingOf, ScaleTable.value_output, cosineCoefficient_eq, ← cosineSum_congr k values,
    ← transformed]
  rfl

/-- In exact arithmetic every plan gives the first coefficients of the orthonormal cosine
transform of the values at its base, whatever its order. -/
theorem run_eq_transform {order base truncation : Nat} {result : Plan} (positive : 1 ≤ order)
    (bound : truncation < 2 ^ order) (obtained : Plan.Obtained order base (some truncation) result)
    {input : List ℝ} (length : input.length = base + 2 ^ order) :
    result.matchTable (ScaleTable.ofOrder order : ScaleTable ℝ) = .ok () ∧
      result.run (ScaleTable.ofOrder order) input =
        .ok (Reference.leading (input.extract base (base + 2 ^ order)) (truncation + 1)) ∧
      Reference.leading (input.extract base (base + 2 ^ order)) (truncation + 1) =
        (List.range (truncation + 1)).map
          (cosineCoefficient order fun m => input.getD (base + m) 0) := by
  obtain ⟨half, rfl⟩ : ∃ half, order = half + 1 := ⟨order - 1, by omega⟩
  rw [obtained.eq_canonical positive]
  rw [← blockSize_eq_pow] at bound length ⊢
  have slice : input.extract base (base + blockSize (half + 1)) = input.drop base := by
    rw [List.extract_eq_take_drop, Nat.add_sub_cancel_left, List.take_of_length_le]
    rw [List.length_drop]
    omega
  have sliced : (input.drop base).length = blockSize (half + 1) := by
    rw [List.length_drop]
    omega
  have shifted (m : Nat) : (input.drop base).getD m 0 = input.getD (base + m) 0 := by
    rw [List.getD_eq_getElem?_getD, List.getD_eq_getElem?_getD, List.getElem?_drop]
  have leading := Reference.leading_eq sliced (show truncation + 1 ≤ blockSize (half + 1) from bound)
  simp only [shifted] at leading
  rw [slice, leading]
  exact ⟨if_pos rfl, Plan.run_eq_coefficients bound length, rfl⟩

theorem run_eq_transform_eight :
    1 ≤ 3 ∧ 4 < 2 ^ 3 ∧
      Plan.Obtained 3 1 (some 4) (Plan.build 3 1 (some 4) ((plan 3 0 7).run .fresh).2).1 ∧
      ([9, 1, 2, 3, 4, 5, 6, 7, 8] : List ℝ).length = 1 + 2 ^ 3 ∧
      (Plan.build 3 1 (some 4) ((plan 3 0 7).run .fresh).2).1.run (ScaleTable.ofOrder 3)
          ([9, 1, 2, 3, 4, 5, 6, 7, 8] : List ℝ) =
        .ok (Reference.leading [1, 2, 3, 4, 5, 6, 7, 8] 5) :=
  ⟨by decide, by decide, .build (.plan 3 0 7 .fresh), rfl,
    (run_eq_transform (by decide) (by decide) (.build (.plan 3 0 7 .fresh)) rfl).2.1⟩

end PrunedCosine
