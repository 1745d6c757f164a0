import PrunedCosine.Proofs.Soundness

/-! Where a block stands makes no difference to what it does. The assignments of a block at some
base, reading some buffer, are those of the block at index zero that reads the input, with every
slot moved; and moved assignments compute on moved slots what the original ones compute. -/

namespace PrunedCosine

/-- The buffer that takes the place of `buffer` in a block that reads `source` instead of the
input. -/
def Buffer.facing (source buffer : Buffer) : Buffer :=
  match source with
  | .input => buffer
  | .work => buffer.other

theorem Buffer.facing_other (source buffer : Buffer) :
    source.facing buffer.other = (source.facing buffer).other := by
  cases source <;> rfl

theorem Buffer.facing_input (source : Buffer) : source.facing .input = source := by
  cases source <;> rfl

theorem Buffer.facing_injective {source first second : Buffer}
    (same : source.facing first = source.facing second) : first = second := by
  cases source <;> cases first <;> cases second <;> simp_all [facing, other]

def Slot.placed (base : Nat) (source : Buffer) (slot : Slot) : Slot :=
  ⟨source.facing slot.buffer, base + slot.index⟩

theorem Slot.placed_injective (base : Nat) (source : Buffer) :
    Function.Injective (Slot.placed base source) := by
  intro first second same
  obtain ⟨buffers, indices⟩ := (Slot.mk.injEq ..).mp same
  rcases first with ⟨firstBuffer, firstIndex⟩
  rcases second with ⟨secondBuffer, secondIndex⟩
  cases Buffer.facing_injective buffers
  cases Nat.add_left_cancel indices
  rfl

def Expression.rename (move : Slot → Slot) : Expression → Expression
  | .combine sign left right scale => .combine sign (move left) (move right) scale
  | .copy source => .copy (move source)

def Assignment.rename (move : Slot → Slot) (assignment : Assignment) : Assignment :=
  { assignment with
    destination := move assignment.destination,
    expression := assignment.expression.rename move }

namespace Block

variable (base start : Nat) (side source : Buffer)

theorem opening_placed (half : Nat) (odd : Option Nat) :
    opening half (base + start) odd (side.facing source) =
      (opening half start odd source).map (Assignment.rename (Slot.placed base side)) := by
  have move {index : Nat} (buffer : Buffer) :
      Slot.placed base side ⟨buffer, index⟩ = ⟨side.facing buffer, base + index⟩ := rfl
  rw [opening, opening, List.map_append, List.map_map, List.map_map]
  congr 1
  · apply List.map_congr_left
    intro place inside
    have low := List.mem_range.mp inside
    rw [Function.comp_apply, openingSum_eq low, openingSum_eq low]
    simp only [Assignment.rename, Expression.rename, move, Buffer.facing_other]
    rw [show base + start + place = base + (start + place) by omega,
      show base + start + 2 * blockSize half - 1 - place =
        base + (start + 2 * blockSize half - 1 - place) by omega]
  · apply List.map_congr_left
    intro place inside
    have low := (mem_inputPlaces.mp inside).2
    rw [Function.comp_apply, openingDifference_eq low, openingDifference_eq low]
    simp only [Assignment.rename, Expression.rename, move, Buffer.facing_other]
    rw [show base + start + blockSize half + place = base + (start + blockSize half + place) by
        omega, show base + start + place = base + (start + place) by omega,
      show base + start + 2 * blockSize half - 1 - place =
        base + (start + 2 * blockSize half - 1 - place) by omega]

theorem interleave_placed (order truncation : Nat) :
    interleave order (base + start) truncation (side.facing source) =
      (interleave order start truncation source).map (Assignment.rename (Slot.placed base side)) := by
  rw [interleave, interleave, List.map_map]
  apply List.map_congr_left
  intro index _
  simp only [Function.comp_apply, merge, Assignment.rename, Slot.placed, Buffer.facing_other,
    Nat.add_assoc]
  split
  · rfl
  · split <;> rfl

theorem pair_placed (truncation : Nat) :
    pair (base + start) truncation (side.facing source) =
      (pair start truncation source).map (Assignment.rename (Slot.placed base side)) := by
  rw [pair, pair]
  split <;> simp [Assignment.rename, Expression.rename, Slot.placed, Buffer.facing_other,
    Nat.add_assoc]

/-- A block moved to another place and another buffer has the moved assignments. The halves take
the step with it: they stand at a place of the block and face the other buffer. -/
theorem listing_placed (order truncation : Nat) :
    listing order (base + start) truncation (side.facing source) =
      (listing order start truncation source).map (Assignment.rename (Slot.placed base side)) := by
  induction order using Nat.twoStepInduction generalizing start truncation source with
  | zero => rfl
  | one => exact pair_placed base start side source truncation
  | more half _ ih =>
    have odd (wanted : Option Nat) :
        listingOf (half + 1) (base + start + blockSize (half + 1)) wanted
            (side.facing source).other =
          (listingOf (half + 1) (start + blockSize (half + 1)) wanted source.other).map
            (Assignment.rename (Slot.placed base side)) := by
      cases wanted with
      | none => rfl
      | some last => rw [listingOf, listingOf, ← Buffer.facing_other, Nat.add_assoc, ih]
    rw [listing_succ, listing_succ, List.map_append, List.map_append, List.map_append,
      opening_placed, interleave_placed, odd, ← Buffer.facing_other, ih]

theorem listing_eq_placed (order truncation : Nat) :
    listing order base truncation source =
      (listing order 0 truncation .input).map (Assignment.rename (Slot.placed base source)) := by
  have placed := listing_placed base 0 source .input order truncation
  rwa [Buffer.facing_input, Nat.add_zero] at placed

theorem listingOf_eq_placed (order : Nat) (truncation : Option Nat) :
    listingOf order base truncation source =
      (listingOf order 0 truncation .input).map (Assignment.rename (Slot.placed base source)) := by
  cases truncation with
  | none => rfl
  | some last => exact listing_eq_placed base source order last

end Block

namespace Memory

variable {α : Type} [Add α] [Sub α] [Mul α] (table : ScaleTable α) {move : Slot → Slot}

theorem value_rename (memory : Memory α) (expression : Expression) :
    memory.value table (expression.rename move) =
      Memory.value table (memory ∘ move) expression := by
  cases expression with
  | combine sign left right scale => cases scale <;> rfl
  | copy source => rfl

theorem run_rename (injective : Function.Injective move) (memory : Memory α)
    (assignments : List Assignment) :
    memory.run table (assignments.map (Assignment.rename move)) ∘ move =
      Memory.run table (memory ∘ move) assignments := by
  induction assignments generalizing memory with
  | nil => rfl
  | cons assignment rest ih =>
    have stepped : memory.step table (assignment.rename move) ∘ move =
        Memory.step table (memory ∘ move) assignment := by
      rw [step, step, ← value_rename]
      exact Function.update_comp_eq_of_injective _ injective _ _
    rw [List.map_cons, run_cons, run_cons, ih, stepped]

end Memory

theorem Memory.Starts.placed {α : Type} {memory : Memory α} {input : List α} (base : Nat)
    (starts : memory.Starts input) :
    Memory.Starts (memory ∘ Slot.placed base .input) (input.drop base) := by
  intro index value found
  rw [List.getElem?_drop] at found
  exact starts (base + index) value found

namespace Plan

theorem validate_zero {order base : Nat} {truncation : Int} {wanted : Option Nat}
    (accepted : validate order base truncation = .ok wanted) :
    validate order 0 truncation = .ok wanted := by
  unfold validate at accepted ⊢
  cases orderChecked : checkOrder order with
  | error cause => simp [orderChecked] at accepted
  | ok _ =>
    simp only [orderChecked] at accepted ⊢
    split at accepted
    · cases accepted
    · rw [if_neg (by omega)]
      exact accepted

theorem run_placed {α : Type} [Add α] [Sub α] [Mul α] (table : ScaleTable α) {order base : Nat}
    {truncation : Option Nat} (positive : 1 ≤ order)
    (bound : ∀ last ∈ truncation, last < blockSize order) {input : List α}
    (length : input.length = base + blockSize order) :
    ∃ values, (canonical order base truncation).run table input = .ok values ∧
      (canonical order 0 truncation).run table (input.drop base) = .ok values := by
  obtain ⟨memory, starts⟩ := Memory.exists_starts length
  have rest : (input.drop base).length = 0 + blockSize order := by
    rw [List.length_drop]
    omega
  refine ⟨_, run_canonical base table positive bound length starts, ?_⟩
  rw [run_canonical 0 table positive bound rest (starts.placed base)]
  congr 1
  apply List.map_congr_left
  intro k _
  have moved := congrFun (Memory.run_rename table (Slot.placed_injective base .input) memory
    (Block.listingOf order 0 truncation .input)) ⟨.work, k⟩
  rw [← Block.listingOf_eq_placed base .input order truncation] at moved
  rw [Nat.zero_add, ← moved]
  rfl

end Plan

/-- In sessions whose memo was filled by planning, a block that stands anywhere and reads either
buffer has the assignments of the block at index zero that reads the input, moved; so a plan
gives what the plan at index zero gives on the input without what comes before its base. -/
theorem plan_placed {α : Type} [Add α] [Sub α] [Mul α] (table : ScaleTable α)
    {session other : Session} (planned : session.Planned) (otherPlanned : other.Planned)
    {order : Nat} (positive : 1 ≤ order) :
    (∀ base truncation source,
      (Block.assignments order base truncation source session).1 =
        (Block.assignments order 0 truncation .input other).1.map
          (Assignment.rename (Slot.placed base source))) ∧
    ∀ base truncation wanted, Plan.validate order base truncation = .ok wanted →
      ∃ moved original, ((plan order base truncation).run session).1 = .ok moved ∧
        ((plan order 0 truncation).run other).1 = .ok original ∧
        ∀ input : List α, input.length = base + blockSize order →
          ∃ values, moved.run table input = .ok values ∧
            original.run table (input.drop base) = .ok values ∧
            ∀ front : List α, front.length = base →
              moved.run table (front ++ input.drop base) = .ok values := by
  constructor
  · intro base truncation source
    obtain ⟨half, rfl⟩ := Nat.exists_eq_add_of_le' positive
    rw [(Block.gives_assignments half base truncation source session planned.complete).1,
      (Block.gives_assignments half 0 truncation .input other otherPlanned.complete).1,
      Block.listing_eq_placed]
  · intro base truncation wanted accepted
    have bound := Plan.validate_bounds accepted
    refine ⟨Plan.canonical order base wanted, Plan.canonical order 0 wanted, ?_, ?_, ?_⟩
    · rw [Session.plan_of_accepted accepted, planned.build_eq positive]
    · rw [Session.plan_of_accepted (Plan.validate_zero accepted), otherPlanned.build_eq positive]
    · intro input length
      obtain ⟨values, ran, original⟩ := Plan.run_placed table positive bound length
      refine ⟨values, ran, original, fun front sameBase => ?_⟩
      have replaced : (front ++ input.drop base).length = base + blockSize order := by
        rw [List.length_append, List.length_drop]
        omega
      obtain ⟨others, again, sameRest⟩ := Plan.run_placed table positive bound replaced
      rw [List.drop_left' sameBase, original] at sameRest
      rw [again, sameRest]

theorem plan_placed_eight :
    Session.Planned ((plan 4 0 9).run .fresh).2 ∧ Session.Planned .fresh ∧ 1 ≤ 3 ∧
      Plan.validate 3 2 4 = .ok (some 4) ∧
      ([7, 9, 1, 2, 3, 4, 5, 6, 7, 8] : List Float).length = 2 + blockSize 3 ∧
      (Block.assignments 3 5 4 .work ((plan 4 0 9).run .fresh).2).1 =
        (Block.assignments 3 0 4 .input .fresh).1.map (Assignment.rename (Slot.placed 5 .work)) ∧
      ∃ moved original, ((plan 3 2 4).run ((plan 4 0 9).run .fresh).2).1 = .ok moved ∧
        ((plan 3 0 4).run .fresh).1 = .ok original ∧
        ∃ values, moved.run (.ofOrder 3) ([7, 9, 1, 2, 3, 4, 5, 6, 7, 8] : List Float) =
            .ok values ∧
          original.run (.ofOrder 3) [1, 2, 3, 4, 5, 6, 7, 8] = .ok values := by
  have planned : Session.Planned ((plan 4 0 9).run .fresh).2 := .plan 4 0 9 .fresh
  have placed := plan_placed (.ofOrder 3 : ScaleTable Float) planned .fresh
    (show 1 ≤ 3 by decide)
  obtain ⟨moved, original, first, second, runs⟩ := placed.2 2 4 (some 4) rfl
  obtain ⟨values, ran, same, _⟩ := runs [7, 9, 1, 2, 3, 4, 5, 6, 7, 8] rfl
  exact ⟨planned, .fresh, by decide, rfl, rfl, placed.1 5 4 .work, moved, original, first, second,
    values, ran, same⟩

end PrunedCosine
