import PrunedCosine.Proofs.Listing
import Mathlib.Data.List.Nodup

/-! The layers of a block. What opens a block and what closes it are layers: they read one
buffer and write consecutive slots of the other, so their assignments could all be made at
once. Everything a block reads or writes lies within its own indices. -/

namespace PrunedCosine

/-- Assignments that could all be made at once: each writes a slot of its own, and none reads
what another writes. -/
structure Parallel (assignments : List Assignment) : Prop where
  once : (assignments.map Assignment.destination).Nodup
  apart : ∀ first ∈ assignments, ∀ second ∈ assignments, second.destination ∉ first.sources

theorem Parallel.tail {first : Assignment} {rest : List Assignment}
    (parallel : Parallel (first :: rest)) : Parallel rest where
  once := (List.nodup_cons.mp parallel.once).2
  apart := fun _ left _ right =>
    parallel.apart _ (List.mem_cons_of_mem _ left) _ (List.mem_cons_of_mem _ right)

theorem Parallel.head_fresh {first : Assignment} {rest : List Assignment}
    (parallel : Parallel (first :: rest)) :
    ∀ other ∈ rest, other.destination ≠ first.destination := by
  intro other member same
  exact (List.nodup_cons.mp parallel.once).1
    (same ▸ List.mem_map_of_mem (f := Assignment.destination) member)

/-- A layer reads `source` and writes the first `count` slots from `base` of the other buffer,
in order. -/
structure Layer (source : Buffer) (base count : Nat) (assignments : List Assignment) : Prop where
  destinations : assignments.map Assignment.destination =
    (List.range count).map fun place => ⟨source.other, base + place⟩
  reads : ∀ assignment ∈ assignments, ∀ slot ∈ assignment.sources, slot.buffer = source

namespace Layer

variable {source : Buffer} {base count : Nat} {assignments : List Assignment}

theorem exists_place (layer : Layer source base count assignments) {assignment : Assignment}
    (member : assignment ∈ assignments) :
    ∃ place < count, assignment.destination = ⟨source.other, base + place⟩ := by
  have written := List.mem_map_of_mem (f := Assignment.destination) member
  rw [layer.destinations] at written
  obtain ⟨place, inside, same⟩ := List.mem_map.mp written
  exact ⟨place, List.mem_range.mp inside, same.symm⟩

theorem exists_writer (layer : Layer source base count assignments) {place : Nat}
    (inside : place < count) :
    ∃ assignment ∈ assignments, assignment.destination = ⟨source.other, base + place⟩ := by
  apply List.mem_map.mp
  rw [layer.destinations]
  exact List.mem_map_of_mem (List.mem_range.mpr inside)

theorem parallel (layer : Layer source base count assignments) : Parallel assignments where
  once := by
    rw [layer.destinations]
    apply List.nodup_range.map
    intro first second same
    simpa using same
  apart := by
    intro first left second right read
    obtain ⟨place, _, written⟩ := layer.exists_place right
    have buffer := layer.reads first left _ read
    rw [written] at buffer
    exact source.other_ne buffer

end Layer

def Slot.Within (base count : Nat) (slot : Slot) : Prop :=
  base ≤ slot.index ∧ slot.index < base + count

theorem Slot.within_mk {buffer : Buffer} {base count index : Nat} :
    Slot.Within base count ⟨buffer, index⟩ ↔ base ≤ index ∧ index < base + count := Iff.rfl

def Assignment.Within (base count : Nat) (assignment : Assignment) : Prop :=
  assignment.destination.Within base count ∧ ∀ slot ∈ assignment.sources, slot.Within base count

theorem Slot.Within.widen {base count outerBase outerCount : Nat} {slot : Slot}
    (within : slot.Within base count) (least : outerBase ≤ base)
    (most : base + count ≤ outerBase + outerCount) : slot.Within outerBase outerCount :=
  ⟨least.trans within.1, within.2.trans_le most⟩

theorem Assignment.Within.widen {base count outerBase outerCount : Nat} {assignment : Assignment}
    (within : assignment.Within base count) (least : outerBase ≤ base)
    (most : base + count ≤ outerBase + outerCount) : assignment.Within outerBase outerCount :=
  ⟨within.1.widen least most, fun slot read => (within.2 slot read).widen least most⟩

theorem childTruncations_of_lt {size truncation : Nat} (bound : truncation < size) :
    childTruncations size truncation =
      (truncation / 2,
        if truncation = 0 then none else some (min ((truncation + 1) / 2) (size / 2 - 1))) := by
  rw [childTruncations, if_pos bound]

theorem childTruncations_first (half : Nat) :
    childTruncations (blockSize (half + 2)) 0 = (0, none) :=
  childTruncations_of_lt (blockSize_pos _)

theorem childTruncations_bounds {half truncation : Nat}
    (bound : truncation < blockSize (half + 1)) :
    (childTruncations (blockSize (half + 1)) truncation).1 < blockSize half ∧
      ∀ last ∈ (childTruncations (blockSize (half + 1)) truncation).2, last < blockSize half := by
  have double := blockSize_succ half
  have positive := blockSize_pos half
  rw [childTruncations_of_lt bound]
  constructor
  · dsimp only
    omega
  · intro last wanted
    dsimp only at wanted
    split at wanted
    · cases wanted
    · cases wanted
      omega

namespace Block

theorem openingSum_eq {half place : Nat} (inside : place < blockSize half) (base : Nat)
    (source : Buffer) :
    openingSum (half + 1) base source place =
      { destination := ⟨source.other, base + place⟩,
        expression := .combine .plus ⟨source, base + place⟩
          ⟨source, base + 2 * blockSize half - 1 - place⟩ none,
        order := half + 1,
        stage := .butterfly } := by
  simp only [openingSum, forward, backward, Nat.add_sub_cancel, if_pos inside]

theorem openingDifference_eq {half place : Nat} (inside : place < blockSize half) (base : Nat)
    (source : Buffer) :
    openingDifference (half + 1) base source place =
      { destination := ⟨source.other, base + blockSize half + place⟩,
        expression := .combine .minus ⟨source, base + place⟩
          ⟨source, base + 2 * blockSize half - 1 - place⟩
          (some ⟨blockSize half - 1 + place⟩),
        order := half + 1,
        stage := .butterfly } := by
  have halved : 2 * blockSize half / 2 = blockSize half := by omega
  simp only [openingDifference, forward, backward, Nat.add_sub_cancel, if_pos inside,
    ScaleId.ofDifference, halved]

def openingCount (half : Nat) (odd : Option Nat) : Nat :=
  blockSize half + (inputPlaces half odd).length

theorem mem_inputPlaces {half place : Nat} {odd : Option Nat} :
    place ∈ inputPlaces half odd ↔ odd.isSome ∧ place < blockSize half := by
  cases odd <;> simp [inputPlaces]

theorem mem_opening {half base : Nat} {odd : Option Nat} {source : Buffer}
    {assignment : Assignment} :
    assignment ∈ opening half base odd source ↔
      ∃ place < blockSize half, assignment = openingSum (half + 1) base source place ∨
        (odd.isSome ∧ assignment = openingDifference (half + 1) base source place) := by
  simp only [opening, List.mem_append, List.mem_map, List.mem_range, mem_inputPlaces]
  constructor
  · intro written
    rcases written with ⟨place, inside, rfl⟩ | ⟨place, ⟨wanted, inside⟩, rfl⟩
    · exact ⟨place, inside, Or.inl rfl⟩
    · exact ⟨place, inside, Or.inr ⟨wanted, rfl⟩⟩
  · intro made
    obtain ⟨place, inside, rfl | ⟨wanted, rfl⟩⟩ := made
    · exact Or.inl ⟨place, inside, rfl⟩
    · exact Or.inr ⟨place, ⟨wanted, inside⟩, rfl⟩

theorem opening_sources {half base : Nat} {odd : Option Nat} {source : Buffer}
    {assignment : Assignment} (member : assignment ∈ opening half base odd source) :
    ∃ place < blockSize half, assignment.sources =
      [⟨source, base + place⟩, ⟨source, base + 2 * blockSize half - 1 - place⟩] := by
  obtain ⟨place, inside, rfl | ⟨_, rfl⟩⟩ := mem_opening.mp member
  · exact ⟨place, inside, by rw [openingSum_eq inside]; rfl⟩
  · exact ⟨place, inside, by rw [openingDifference_eq inside]; rfl⟩

theorem opening_layer (half base : Nat) (odd : Option Nat) (source : Buffer) :
    Layer source base (openingCount half odd) (opening half base odd source) where
  destinations := by
    have sums : (List.range (blockSize half)).map
          (Assignment.destination ∘ openingSum (half + 1) base source) =
        (List.range (blockSize half)).map fun place => ⟨source.other, base + place⟩ := by
      apply List.map_congr_left
      intro place inside
      rw [Function.comp_apply, openingSum_eq (List.mem_range.mp inside)]
    have differences : (inputPlaces half odd).map
          (Assignment.destination ∘ openingDifference (half + 1) base source) =
        (List.range (inputPlaces half odd).length).map
          fun place => ⟨source.other, base + (blockSize half + place)⟩ := by
      cases odd with
      | none => rfl
      | some _ =>
        simp only [inputPlaces, List.length_range]
        apply List.map_congr_left
        intro place inside
        rw [Function.comp_apply, openingDifference_eq (List.mem_range.mp inside), Nat.add_assoc]
    rw [opening, List.map_append, List.map_map, List.map_map, sums, differences, openingCount,
      List.range_add, List.map_append, List.map_map]
    rfl
  reads := by
    intro assignment member slot read
    obtain ⟨place, _, sources⟩ := opening_sources member
    rw [sources] at read
    rcases List.mem_pair.mp read with rfl | rfl <;> rfl

theorem mem_interleave {order base truncation : Nat} {source : Buffer} {assignment : Assignment} :
    assignment ∈ interleave order base truncation source ↔
      ∃ index, index ≤ truncation ∧ index < blockSize order ∧
        assignment = merge order base source index := by
  simp only [interleave, List.mem_map, List.mem_range, Nat.lt_min, Nat.lt_succ_iff, and_assoc,
    eq_comm]

theorem merge_sources (half base index : Nat) (source : Buffer) :
    (merge (half + 1) base source index).sources =
      if index % 2 = 0 then [⟨source, base + index / 2⟩]
      else if index + 1 = 2 * blockSize half then [⟨source, base + index⟩]
      else [⟨source, base + blockSize half + index / 2⟩,
        ⟨source, base + blockSize half + index / 2 + 1⟩] := by
  simp only [merge, Assignment.sources, Nat.add_sub_cancel]
  split
  · rfl
  · split <;> rfl

theorem merge_even (half base j : Nat) (source : Buffer) :
    (merge (half + 1) base source (2 * j)).expression = .copy ⟨source, base + j⟩ := by
  have halved : 2 * j / 2 = j := by omega
  simp only [merge, Nat.mul_mod_right, if_pos, halved]

theorem merge_odd {half j : Nat} (base : Nat) (source : Buffer) (inner : j + 1 < blockSize half) :
    (merge (half + 1) base source (2 * j + 1)).expression =
      .combine .plus ⟨source, base + blockSize half + j⟩ ⟨source, base + blockSize half + (j + 1)⟩
        none := by
  have halved : (2 * j + 1) / 2 = j := by omega
  simp only [merge, Nat.add_sub_cancel, halved]
  rw [if_neg (by omega), if_neg (by omega)]
  rfl

theorem merge_last (half base : Nat) (source : Buffer) :
    (merge (half + 1) base source (2 * blockSize half - 1)).expression =
      .copy ⟨source, base + blockSize half + (blockSize half - 1)⟩ := by
  have positive := blockSize_pos half
  have place : base + (2 * blockSize half - 1) = base + blockSize half + (blockSize half - 1) := by
    omega
  simp only [merge, Nat.add_sub_cancel, place]
  rw [if_neg (by omega), if_pos (by omega)]

theorem interleave_layer (half base truncation : Nat) (source : Buffer) :
    Layer source base (min (truncation + 1) (blockSize (half + 1)))
      (interleave (half + 1) base truncation source) where
  destinations := by
    rw [interleave, List.map_map]
    rfl
  reads := by
    intro assignment member slot read
    obtain ⟨index, _, _, rfl⟩ := mem_interleave.mp member
    rw [merge_sources] at read
    split at read
    · rw [List.mem_singleton.mp read]
    · split at read
      · rw [List.mem_singleton.mp read]
      · rcases List.mem_pair.mp read with rfl | rfl <;> rfl

theorem pair_layer (base truncation : Nat) (source : Buffer) :
    Layer source base (min (truncation + 1) 2) (pair base truncation source) where
  destinations := by
    rcases truncation with _ | truncation
    · rfl
    · rw [show min (truncation + 1 + 1) 2 = 2 by omega]
      rfl
  reads := by
    intro assignment member slot read
    rw [pair] at member
    split at member
    · rw [List.mem_singleton.mp member] at read
      rcases List.mem_pair.mp read with rfl | rfl <;> rfl
    · rcases List.mem_pair.mp member with rfl | rfl <;>
        rcases List.mem_pair.mp read with rfl | rfl <;> rfl

theorem openingCount_le (half : Nat) (odd : Option Nat) :
    openingCount half odd ≤ 2 * blockSize half := by
  cases odd <;> simp only [openingCount, inputPlaces, List.length_nil, List.length_range] <;> omega

theorem opening_within (half base : Nat) (odd : Option Nat) (source : Buffer) :
    ∀ assignment ∈ opening half base odd source,
      assignment.Within base (blockSize (half + 1)) := by
  intro assignment member
  rw [blockSize_succ]
  constructor
  · obtain ⟨place, inside, written⟩ := (opening_layer half base odd source).exists_place member
    have room := openingCount_le half odd
    rw [written]
    exact Slot.within_mk.mpr (by omega)
  · obtain ⟨place, inside, sources⟩ := opening_sources member
    intro slot read
    rw [sources] at read
    rcases List.mem_pair.mp read with rfl | rfl <;> exact Slot.within_mk.mpr (by omega)

theorem interleave_within (half base truncation : Nat) (source : Buffer) :
    ∀ assignment ∈ interleave (half + 1) base truncation source,
      assignment.Within base (blockSize (half + 1)) := by
  intro assignment member
  obtain ⟨index, _, inside, rfl⟩ := mem_interleave.mp member
  rw [blockSize_succ] at inside ⊢
  constructor
  · exact Slot.within_mk.mpr (by omega)
  · intro slot read
    rw [merge_sources] at read
    split at read
    · rw [List.mem_singleton.mp read]
      exact Slot.within_mk.mpr (by omega)
    · split at read
      · rw [List.mem_singleton.mp read]
        exact Slot.within_mk.mpr (by omega)
      · rcases List.mem_pair.mp read with rfl | rfl <;> exact Slot.within_mk.mpr (by omega)

theorem pair_within (base truncation : Nat) (source : Buffer) :
    ∀ assignment ∈ pair base truncation source, assignment.Within base 2 := by
  intro assignment member
  constructor
  · obtain ⟨place, inside, written⟩ := (pair_layer base truncation source).exists_place member
    rw [written]
    exact Slot.within_mk.mpr (by omega)
  · intro slot read
    have sources : assignment.sources = [⟨source, base⟩, ⟨source, base + 1⟩] := by
      rw [pair] at member
      split at member
      · rw [List.mem_singleton.mp member]
        rfl
      · rcases List.mem_pair.mp member with rfl | rfl <;> rfl
    rw [sources] at read
    rcases List.mem_pair.mp read with rfl | rfl <;> exact Slot.within_mk.mpr (by omega)

/-- What holds of the assignments that a block makes itself, and holds in a block where it holds
in one of the halves, holds of all assignments of a block. -/
theorem forall_mem_listing {motive : Nat → Nat → Assignment → Prop}
    (made : ∀ base truncation source, ∀ assignment ∈ pair base truncation source,
      motive 1 base assignment)
    (opened : ∀ half base odd source, ∀ assignment ∈ opening (half + 1) base odd source,
      motive (half + 2) base assignment)
    (closed : ∀ half base truncation source,
      ∀ assignment ∈ interleave (half + 2) base truncation source,
        motive (half + 2) base assignment)
    (even : ∀ half base assignment, motive (half + 1) base assignment →
      motive (half + 2) base assignment)
    (odd : ∀ half base assignment, motive (half + 1) (base + blockSize (half + 1)) assignment →
      motive (half + 2) base assignment)
    (order base truncation : Nat) (source : Buffer) :
    ∀ assignment ∈ listing order base truncation source, motive order base assignment := by
  induction order using Nat.twoStepInduction generalizing base truncation source with
  | zero => simp [listing]
  | one => exact made base truncation source
  | more half _ ih =>
    intro assignment member
    rw [listing_succ, List.mem_append, List.mem_append, List.mem_append] at member
    rcases member with first | inEven | inOdd | last
    · exact opened half base _ source assignment first
    · exact even half base assignment (ih base _ _ assignment inEven)
    · cases wanted : (childTruncations (blockSize (half + 2)) truncation).2 with
      | none => simp [wanted, listingOf] at inOdd
      | some other =>
        rw [wanted] at inOdd
        exact odd half base assignment (ih _ other _ assignment inOdd)
    · exact closed half base truncation source assignment last

theorem listing_within (order base truncation : Nat) (source : Buffer) :
    ∀ assignment ∈ listing order base truncation source,
      assignment.Within base (blockSize order) := by
  have double (half : Nat) : blockSize (half + 2) = 2 * blockSize (half + 1) := rfl
  refine forall_mem_listing (motive := fun order base assignment =>
      assignment.Within base (blockSize order)) pair_within (fun half => opening_within (half + 1))
    (fun half => interleave_within (half + 1)) (fun half base assignment within => ?_)
    (fun half base assignment within => ?_) order base truncation source
  · exact within.widen (Nat.le_refl _) (by rw [double]; omega)
  · exact within.widen (Nat.le_add_right _ _) (by rw [double]; omega)

theorem listingOf_within (order base : Nat) (truncation : Option Nat) (source : Buffer) :
    ∀ assignment ∈ listingOf order base truncation source,
      assignment.Within base (blockSize order) := by
  cases truncation with
  | none => simp [listingOf]
  | some last => exact listing_within order base last source

end Block

end PrunedCosine
