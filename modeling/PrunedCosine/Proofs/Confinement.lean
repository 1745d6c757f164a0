import PrunedCosine.Proofs.Cosine
import PrunedCosine.Proofs.Frame
import PrunedCosine.Proofs.Soundness

/-! Where the assignments of a plan belong. The blocks of one order that a block is made of stand
side by side, and all of them read the same buffer. Each assignment belongs to one of them: it
stays on the indices of that block and goes from the buffer that the block reads to the other. -/

namespace PrunedCosine

def Buffer.inside (source : Buffer) : (depth : Nat) → Buffer
  | 0 => source
  | depth + 1 => source.other.inside depth

theorem Buffer.inside_eq (source : Buffer) (depth : Nat) :
    source.inside depth = if Even depth then source else source.other := by
  induction depth generalizing source with
  | zero => rfl
  | succ depth ih =>
    rw [inside, ih, other_other]
    by_cases even : Even depth
    · rw [if_pos even, if_neg (Nat.even_add_one.not.mpr (not_not.mpr even))]
    · rw [if_neg even, if_pos (Nat.even_add_one.mpr even)]

theorem blockSize_add (first second : Nat) :
    blockSize (first + second) = blockSize first * blockSize second := by
  rw [blockSize_eq_pow, blockSize_eq_pow, blockSize_eq_pow, pow_add]

namespace Block

/-- The assignments that a block makes itself, before and after its halves. -/
def own : (order base truncation : Nat) → (source : Buffer) → List Assignment
  | 0, _, _, _ => []
  | 1, base, truncation, source => pair base truncation source
  | half + 2, base, truncation, source =>
      opening (half + 1) base (childTruncations (blockSize (half + 2)) truncation).2 source ++
        interleave (half + 2) base truncation source

section Own

variable {order base truncation : Nat} {source : Buffer} {assignment : Assignment}

theorem order_of_mem_own (member : assignment ∈ own order base truncation source) :
    1 ≤ order ∧ assignment.order = order := by
  obtain _ | _ | half := order
  · simp [own] at member
  · exact ⟨le_rfl, order_of_mem_pair member⟩
  · refine ⟨Nat.le_add_left 1 (half + 1), ?_⟩
    rcases List.mem_append.mp member with opened | closed
    · exact (order_of_mem_opening opened).1
    · exact (order_of_mem_interleave closed).1

theorem within_of_mem_own (member : assignment ∈ own order base truncation source) :
    assignment.Within base (blockSize order) := by
  obtain _ | _ | half := order
  · simp [own] at member
  · exact pair_within base truncation source assignment member
  · rcases List.mem_append.mp member with opened | closed
    · exact opening_within (half + 1) base _ source assignment opened
    · exact interleave_within (half + 1) base truncation source assignment closed

/-- All that a block makes itself lies in one of three layers, each of which reads `source`. -/
theorem buffers_of_mem_own (member : assignment ∈ own order base truncation source) :
    assignment.destination.buffer = source.other ∧
      ∀ slot ∈ assignment.sources, slot.buffer = source := by
  have layered {start count : Nat} {assignments : List Assignment}
      (layer : Layer source start count assignments) (inLayer : assignment ∈ assignments) :
      assignment.destination.buffer = source.other ∧
        ∀ slot ∈ assignment.sources, slot.buffer = source := by
    obtain ⟨place, _, written⟩ := layer.exists_place inLayer
    exact ⟨by rw [written], layer.reads assignment inLayer⟩
  obtain _ | _ | half := order
  · simp [own] at member
  · exact layered (pair_layer base truncation source) member
  · rcases List.mem_append.mp member with opened | closed
    · exact layered (opening_layer (half + 1) base _ source) opened
    · exact layered (interleave_layer (half + 1) base truncation source) closed

end Own

/-- Each assignment of a block is one that some block makes itself: one of those of its order that
stand side by side inside the outer block. -/
theorem exists_owner (order base truncation : Nat) (source : Buffer) :
    ∀ assignment ∈ listing order base truncation source,
      1 ≤ assignment.order ∧ assignment.order ≤ order ∧
        ∃ m < blockSize (order - assignment.order), ∃ last,
          assignment ∈ own assignment.order (base + m * blockSize assignment.order) last
            (source.inside (order - assignment.order)) := by
  have itself {order base truncation : Nat} {source : Buffer} {assignment : Assignment}
      (member : assignment ∈ own order base truncation source) :
      1 ≤ assignment.order ∧ assignment.order ≤ order ∧
        ∃ m < blockSize (order - assignment.order), ∃ last,
          assignment ∈ own assignment.order (base + m * blockSize assignment.order) last
            (source.inside (order - assignment.order)) := by
    obtain ⟨positive, same⟩ := order_of_mem_own member
    rw [same, Nat.sub_self, blockSize_zero]
    refine ⟨positive, le_rfl, 0, Nat.one_pos, truncation, ?_⟩
    rw [Nat.zero_mul, Nat.add_zero]
    exact member
  induction order using Nat.twoStepInduction generalizing base truncation source with
  | zero => simp [listing]
  | one => exact fun assignment member => itself member
  | more half _ ih =>
    -- the blocks inside the even half come first, those inside the odd half after them
    have deeper {order : Nat} (small : order ≤ half + 1) :
        half + 2 - order = half + 1 - order + 1 := Nat.succ_sub small
    intro assignment member
    rw [listing_succ, List.mem_append, List.mem_append, List.mem_append] at member
    rcases member with opened | inEven | inOdd | closed
    · exact itself (List.mem_append_left _ opened)
    · obtain ⟨positive, small, m, inside, last, made⟩ := ih _ _ _ assignment inEven
      rw [deeper small, blockSize_succ]
      exact ⟨positive, small.trans (Nat.le_succ _), m, by omega, last, made⟩
    · cases wanted : (childTruncations (blockSize (half + 2)) truncation).2 with
      | none => simp [wanted, listingOf] at inOdd
      | some other =>
        rw [wanted] at inOdd
        obtain ⟨positive, small, m, inside, last, made⟩ := ih _ _ _ assignment inOdd
        have start : base + blockSize (half + 1) + m * blockSize assignment.order =
            base + (blockSize (half + 1 - assignment.order) + m) * blockSize assignment.order := by
          rw [Nat.add_mul, ← blockSize_add, Nat.sub_add_cancel small, Nat.add_assoc]
        rw [start] at made
        rw [deeper small, blockSize_succ]
        exact ⟨positive, small.trans (Nat.le_succ _), _, by omega, last, made⟩
    · exact itself (List.mem_append_right _ closed)

end Block

/-- An assignment of a plan of this order at this base keeps to one of the blocks of its own order
and to one direction: blocks an even number of levels inside the plan write the work buffer. -/
structure Assignment.Confined (order base : Nat) (assignment : Assignment) : Prop where
  positive : 1 ≤ assignment.order
  covered : assignment.order ≤ order
  block : ∃ m < 2 ^ (order - assignment.order),
    assignment.Within (base + m * 2 ^ assignment.order) (2 ^ assignment.order)
  side : assignment.destination.buffer = .work ↔ Even (order - assignment.order)
  across : ∀ slot ∈ assignment.sources, slot.buffer = assignment.destination.buffer.other

theorem Assignment.Confined.within {order base : Nat} {assignment : Assignment}
    (confined : assignment.Confined order base) : assignment.Within base (2 ^ order) := by
  obtain ⟨m, inside, within⟩ := confined.block
  apply within.widen (Nat.le_add_right _ _)
  calc
    _ = base + (m + 1) * 2 ^ assignment.order := by rw [Nat.succ_mul, Nat.add_assoc]
    _ ≤ base + 2 ^ (order - assignment.order) * 2 ^ assignment.order :=
      Nat.add_le_add_left (Nat.mul_le_mul_right _ inside) _
    _ = _ := by rw [← pow_add, Nat.sub_add_cancel confined.covered]

theorem Block.confined_of_mem_listing (order base truncation : Nat) :
    ∀ assignment ∈ listing order base truncation .input, assignment.Confined order base := by
  intro assignment member
  obtain ⟨positive, covered, m, inside, last, made⟩ := exists_owner _ _ _ _ assignment member
  obtain ⟨written, read⟩ := buffers_of_mem_own made
  have within := within_of_mem_own made
  simp only [blockSize_eq_pow] at inside within
  refine ⟨positive, covered, ⟨m, inside, within⟩, ?_, fun slot source => ?_⟩
  · rw [written, Buffer.inside_eq]
    split
    · exact iff_of_true rfl ‹_›
    · exact iff_of_false (by decide) ‹_›
  · rw [read slot source, written, Buffer.other_other]

theorem Plan.canonical_confined (order base : Nat) (truncation : Option Nat) :
    ∀ assignment ∈ (canonical order base truncation).assignments,
      assignment.Confined order base := by
  cases truncation with
  | none => simp [canonical, Block.listingOf]
  | some last => exact Block.confined_of_mem_listing order base last

theorem Buffers.cell_of_confined {α : Type} [Add α] [Sub α] [Mul α] {table : ScaleTable α}
    {order base : Nat} {assignments : List Assignment}
    (confined : ∀ assignment ∈ assignments, assignment.Confined order base)
    {buffers final : Buffers α} (ran : buffers.steps table assignments = .ok final) {slot : Slot}
    (outside : ¬slot.Within base (2 ^ order)) : final.cell slot = buffers.cell slot :=
  cell_of_steps table ran fun assignment member same =>
    outside (same ▸ (confined assignment member).within.1)

/-- Every assignment of a plan is confined to one block of its order and to the direction of that
block. So an evaluation of the plan, which always comes to its end, leaves all slots outside the
indices of the plan as they were. -/
theorem plan_confined {order base : Nat} {truncation : Option Nat} {result : Plan}
    (positive : 1 ≤ order) (bound : ∀ last ∈ truncation, last < 2 ^ order)
    (obtained : Plan.Obtained order base truncation result) :
    (∀ assignment ∈ result.assignments, assignment.Confined order base) ∧
    ∀ {α : Type} [Add α] [Sub α] [Mul α] (table : ScaleTable α),
      (∀ buffers final : Buffers α, buffers.steps table result.assignments = .ok final →
        ∀ slot, ¬slot.Within base (2 ^ order) → final.cell slot = buffers.cell slot) ∧
      ∀ input : List α, input.length = base + 2 ^ order →
        ∃ final, result.execute table input = .ok final ∧
          ∀ slot, ¬slot.Within base (2 ^ order) →
            final.cell slot = (Buffers.ofInput input).cell slot := by
  cases obtained.eq_canonical positive
  have confined := Plan.canonical_confined order base truncation
  simp only [← blockSize_eq_pow] at bound
  refine ⟨confined, fun table => ⟨fun buffers final ran slot outside =>
    Buffers.cell_of_confined confined ran outside, fun input length => ?_⟩⟩
  rw [← blockSize_eq_pow] at length
  obtain ⟨memory, starts⟩ := Memory.exists_starts length
  obtain ⟨final, executed, _⟩ :=
    ok_of_bind (Plan.run_canonical base table positive bound length starts)
  have ran : (Buffers.ofInput input).steps table (Plan.canonical order base truncation).assignments =
      .ok final := (if_pos length).symm.trans executed
  exact ⟨final, executed, fun slot outside => Buffers.cell_of_confined confined ran outside⟩

theorem plan_confined_eight :
    1 ≤ 3 ∧ (∀ last ∈ some 4, last < 2 ^ 3) ∧
      Plan.Obtained 3 2 (some 4) (Plan.build 3 2 (some 4) ((plan 4 0 9).run .fresh).2).1 ∧
      (∀ assignment ∈ (Plan.build 3 2 (some 4) ((plan 4 0 9).run .fresh).2).1.assignments,
        assignment.Confined 3 2) ∧
      ∃ final, (Plan.build 3 2 (some 4) ((plan 4 0 9).run .fresh).2).1.execute (.ofOrder 3)
          ([7, 9, 1, 2, 3, 4, 5, 6, 7, 8] : List Float) = .ok final ∧
        ∀ slot, ¬slot.Within 2 8 →
          final.cell slot = (Buffers.ofInput [7, 9, 1, 2, 3, 4, 5, 6, 7, 8]).cell slot := by
  have obtained : Plan.Obtained 3 2 (some 4)
      (Plan.build 3 2 (some 4) ((plan 4 0 9).run .fresh).2).1 := .build (.plan 4 0 9 .fresh)
  have bound : ∀ last ∈ some 4, last < 2 ^ 3 := some_lt (by decide)
  obtain ⟨confined, runs⟩ := plan_confined (by decide) bound obtained
  exact ⟨by decide, bound, obtained, confined, (runs (.ofOrder 3)).2 _ rfl⟩

end PrunedCosine
