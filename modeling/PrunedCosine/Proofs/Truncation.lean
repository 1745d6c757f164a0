import PrunedCosine.Proofs.Soundness

/-! Truncating a plan changes no coefficient. The shorter plan is what the walk keeps of the
longer one, so it computes the same coefficients by the same operations on the same values;
no law of arithmetic is used, and the numbers may be any numbers. -/

namespace PrunedCosine

section Truncation

variable {α : Type} [Add α] [Sub α] [Mul α] (table : ScaleTable α)
variable {order truncation larger : Nat}

theorem Block.run_truncated (memory : Memory α) (base : Nat) (positive : 1 ≤ order)
    (smaller : truncation ≤ larger) (bound : larger < blockSize order) {k : Nat}
    (wanted : k ≤ truncation) :
    memory.run table (listing order base larger .input) ⟨.work, base + k⟩ =
      memory.run table (listing order base truncation .input) ⟨.work, base + k⟩ := by
  obtain ⟨_, kept⟩ := walk_plan base positive smaller bound
  rw [← kept]
  apply Memory.run_kept table (fun _ _ => rfl)
  exact mem_span_mk.mpr (by omega)

/-- A plan for fewer coefficients gives the first of the coefficients that a plan for more of
them gives. -/
theorem run_of_truncated {base : Nat} {short long : Plan} (positive : 1 ≤ order)
    (smaller : truncation ≤ larger) (bound : larger < blockSize order)
    (shortPlan : Plan.Obtained order base (some truncation) short)
    (longPlan : Plan.Obtained order base (some larger) long)
    {input : List α} (length : input.length = base + blockSize order) :
    ∃ values, long.run table input = .ok values ∧ values.length = larger + 1 ∧
      short.run table input = .ok (values.take (truncation + 1)) := by
  obtain ⟨memory, starts⟩ := Memory.exists_starts length
  have runs {last : Nat} (small : last < blockSize order) :=
    Plan.run_canonical base table positive (some_lt small) length starts
  rw [shortPlan.eq_canonical positive, longPlan.eq_canonical positive]
  refine ⟨_, runs bound, ?_, ?_⟩
  · rw [List.length_map, List.length_range, wantedCount]
  · rw [runs (smaller.trans_lt bound), ← List.map_take, List.take_range, wantedCount, wantedCount,
      Nat.min_eq_left (by omega)]
    congr 1
    apply List.map_congr_left
    intro k inside
    have wanted : k ≤ truncation := Nat.lt_succ_iff.mp (List.mem_range.mp inside)
    have same := Block.run_truncated table memory base positive smaller bound wanted
    rw [Block.listingOf, Block.listingOf, same]

end Truncation

theorem run_of_truncated_eight :
    1 ≤ 3 ∧ 2 ≤ 6 ∧ 6 < blockSize 3 ∧
      Plan.Obtained 3 1 (some 2) (Plan.build 3 1 (some 2) ((plan 3 0 7).run .fresh).2).1 ∧
      Plan.Obtained 3 1 (some 6) (Plan.build 3 1 (some 6) .fresh).1 ∧
      [9, 1, 2, 3, 4, 5, 6, 7, 8].length = 1 + blockSize 3 ∧
      ∃ values, (Plan.build 3 1 (some 6) .fresh).1.run (ScaleTable.ofOrder 3)
            ([9, 1, 2, 3, 4, 5, 6, 7, 8] : List Float) = .ok values ∧ values.length = 7 ∧
        (Plan.build 3 1 (some 2) ((plan 3 0 7).run .fresh).2).1.run (ScaleTable.ofOrder 3)
            [9, 1, 2, 3, 4, 5, 6, 7, 8] = .ok (values.take 3) :=
  ⟨by decide, by decide, by decide, .build (.plan 3 0 7 .fresh), .build .fresh, rfl,
    run_of_truncated _ (by decide) (by decide) (by decide) (.build (.plan 3 0 7 .fresh))
      (.build .fresh) rfl⟩

end PrunedCosine
