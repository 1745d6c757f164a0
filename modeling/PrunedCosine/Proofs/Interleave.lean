import PrunedCosine.Proofs.Cosine
import PrunedCosine.Proofs.Pruning

/-! The last layer of a block, output after output. Pairs of an even and an odd output are made in
turn, and the first output that is not wanted ends the layer. The two outputs at the boundary have
a turn of their own after all the others. What the layer reads is what the halves were asked for. -/

namespace PrunedCosine

theorem range_cut (count cut : Nat) :
    List.range (min count cut) ++ List.range' cut (count - cut) = List.range count := by
  rcases Nat.le_total count cut with short | long
  · rw [Nat.min_eq_left short, Nat.sub_eq_zero_of_le short, List.range'_zero, List.append_nil]
  · obtain ⟨rest, rfl⟩ := Nat.exists_eq_add_of_le long
    rw [Nat.min_eq_right long, Nat.add_sub_cancel_left, List.range_eq_range',
      List.range_eq_range', ← List.range'_append_1, Nat.zero_add]

namespace Block

section Outputs

variable (order base : Nat) (source : Buffer)

def evenOutput (j : Nat) : Assignment :=
  { destination := ⟨source.other, base + 2 * j⟩,
    expression := .copy ⟨source, base + j⟩,
    order := order,
    stage := .interleave }

def oddOutput (j : Nat) : Assignment :=
  let middle := base + blockSize (order - 1)
  { destination := ⟨source.other, base + (2 * j + 1)⟩,
    expression := .combine .plus ⟨source, middle + j⟩ ⟨source, middle + (j + 1)⟩ none,
    order := order,
    stage := .interleave }

def lastOutput : Assignment :=
  { destination := ⟨source.other, base + (blockSize order - 1)⟩,
    expression := .copy ⟨source, base + (blockSize order - 1)⟩,
    order := order,
    stage := .interleave }

def boundary (truncation : Nat) : List Assignment :=
  if truncation < blockSize order - 2 then []
  else
    evenOutput order base source (blockSize (order - 1) - 1) ::
      if truncation < blockSize order - 1 then [] else [lastOutput order base source]

/-- The outputs of `count` turns from turn `j` on, and then the boundary. The first output that is
not wanted ends all of it. -/
def outputsFrom (truncation : Nat) : (j count : Nat) → List Assignment
  | _, 0 => boundary order base source truncation
  | j, count + 1 =>
      if truncation < 2 * j then []
      else
        evenOutput order base source j ::
          if truncation < 2 * j + 1 then []
          else oddOutput order base source j :: outputsFrom truncation (j + 1) count

/-- The outputs of that many turns, where none of them is cut short. -/
def turns (count : Nat) : List Assignment :=
  (List.range count).flatMap fun j =>
    [evenOutput order base source j, oddOutput order base source j]

end Outputs

section Merge

variable {half : Nat} (base : Nat) (source : Buffer)

theorem merge_eq {index : Nat} {expression : Expression}
    (made : (merge (half + 1) base source index).expression = expression) :
    merge (half + 1) base source index =
      { destination := ⟨source.other, base + index⟩,
        expression := expression,
        order := half + 1,
        stage := .interleave } := by
  rw [← made]
  rfl

theorem merge_eq_evenOutput (j : Nat) :
    merge (half + 1) base source (2 * j) = evenOutput (half + 1) base source j :=
  merge_eq base source (merge_even half base j source)

theorem merge_eq_oddOutput {j : Nat} (inner : j + 1 < blockSize half) :
    merge (half + 1) base source (2 * j + 1) = oddOutput (half + 1) base source j :=
  merge_eq base source (merge_odd base source inner)

theorem merge_eq_lastOutput :
    merge (half + 1) base source (2 * blockSize half - 1) = lastOutput (half + 1) base source := by
  have positive := blockSize_pos half
  have place : base + blockSize half + (blockSize half - 1) = base + (2 * blockSize half - 1) := by
    omega
  rw [merge_eq base source (merge_last half base source), place]
  rfl

end Merge

section Turns

variable {half : Nat} (base truncation : Nat) (source : Buffer)

theorem boundary_eq :
    boundary (half + 1) base source truncation =
      (List.range' (2 * (blockSize half - 1))
        (min (truncation + 1) (2 * blockSize half) - 2 * (blockSize half - 1))).map
          (merge (half + 1) base source) := by
  have positive := blockSize_pos half
  unfold boundary
  rw [blockSize_succ, Nat.add_sub_cancel]
  by_cases before : truncation < 2 * blockSize half - 2
  · rw [if_pos before,
      show min (truncation + 1) (2 * blockSize half) - 2 * (blockSize half - 1) = 0 by omega]
    rfl
  · rw [if_neg before, ← merge_eq_evenOutput]
    by_cases last : truncation < 2 * blockSize half - 1
    · rw [if_pos last,
        show min (truncation + 1) (2 * blockSize half) - 2 * (blockSize half - 1) = 1 by omega]
      rfl
    · rw [if_neg last, ← merge_eq_lastOutput,
        show min (truncation + 1) (2 * blockSize half) - 2 * (blockSize half - 1) = 2 by omega,
        show 2 * blockSize half - 1 = 2 * (blockSize half - 1) + 1 by omega]
      rfl

/-- From each turn on, the outputs still wanted are made, and no others. -/
theorem outputsFrom_eq {j count : Nat} (rest : j + count + 1 = blockSize half) :
    outputsFrom (half + 1) base source truncation j count =
      (List.range' (2 * j) (min (truncation + 1) (2 * blockSize half) - 2 * j)).map
        (merge (half + 1) base source) := by
  induction count generalizing j with
  | zero =>
    obtain rfl : j = blockSize half - 1 := by omega
    exact boundary_eq base truncation source
  | succ count ih =>
    unfold outputsFrom
    by_cases before : truncation < 2 * j
    · rw [if_pos before, show min (truncation + 1) (2 * blockSize half) - 2 * j = 0 by omega]
      rfl
    · rw [if_neg before, ← merge_eq_evenOutput]
      by_cases last : truncation < 2 * j + 1
      · rw [if_pos last, show min (truncation + 1) (2 * blockSize half) - 2 * j = 1 by omega]
        rfl
      · rw [if_neg last, ih (by omega), ← merge_eq_oddOutput base source (by omega),
          show min (truncation + 1) (2 * blockSize half) - 2 * j =
            min (truncation + 1) (2 * blockSize half) - 2 * (j + 1) + 2 by omega]
        rfl

theorem interleave_eq_outputsFrom :
    interleave (half + 1) base truncation source =
      outputsFrom (half + 1) base source truncation 0 (blockSize half - 1) := by
  have positive := blockSize_pos half
  rw [outputsFrom_eq base truncation source (by omega), interleave, List.range_eq_range',
    blockSize_succ]
  rfl

theorem turns_eq {count : Nat} (inner : count < blockSize half) :
    turns (half + 1) base source count =
      (List.range (2 * count)).map (merge (half + 1) base source) := by
  unfold turns
  induction count with
  | zero => rfl
  | succ count ih =>
    rw [List.range_succ, List.flatMap_append, ih (by omega), Nat.mul_succ, List.range_succ,
      List.range_succ, List.map_append, List.map_append, List.flatMap_singleton,
      List.append_assoc, List.map_singleton, List.map_singleton, merge_eq_evenOutput,
      merge_eq_oddOutput base source inner]
    rfl

/-- The turns are cut short where the outputs wanted end; the boundary comes after all of them. -/
theorem interleave_eq_turns :
    interleave (half + 1) base truncation source =
      (turns (half + 1) base source (blockSize half - 1)).take (truncation + 1) ++
        boundary (half + 1) base source truncation := by
  have positive := blockSize_pos half
  rw [turns_eq base source (by omega), boundary_eq, ← List.map_take, List.take_range,
    ← List.map_append, interleave, blockSize_succ]
  have inner : min (truncation + 1) (2 * (blockSize half - 1)) =
      min (min (truncation + 1) (2 * blockSize half)) (2 * (blockSize half - 1)) := by
    omega
  rw [inner, range_cut]

theorem boundary_eq_nil_iff :
    boundary (half + 1) base source truncation = [] ↔ truncation < blockSize (half + 1) - 2 := by
  unfold boundary
  split
  · simp [*]
  · simp [*]

theorem take_turns {truncation : Nat} (late : blockSize (half + 1) - 2 ≤ truncation) :
    (turns (half + 1) base source (blockSize half - 1)).take (truncation + 1) =
      turns (half + 1) base source (blockSize half - 1) := by
  have positive := blockSize_pos half
  have length : (turns (half + 1) base source (blockSize half - 1)).length =
      2 * (blockSize half - 1) := by
    rw [turns_eq base source (by omega), List.length_map, List.length_range]
  rw [blockSize_succ] at late
  apply List.take_of_length_le
  omega

end Turns

section Reads

theorem mem_span_succ {buffer : Buffer} {base last : Nat} {slot : Slot} :
    slot ∈ span buffer base (last + 1) ↔ ∃ j ≤ last, slot = ⟨buffer, base + j⟩ := by
  unfold span
  simp only [Finset.mem_image, Finset.mem_range, Nat.lt_succ_iff, eq_comm]

theorem mem_merged {half base truncation : Nat} {source : Buffer} {slot : Slot} :
    slot ∈ merged half base truncation source ↔
      (∃ j ≤ truncation / 2, slot = ⟨source, base + j⟩) ∨
        ∃ last ∈ (childTruncations (blockSize (half + 2)) truncation).2, ∃ j ≤ last,
          slot = ⟨source, base + blockSize (half + 1) + j⟩ := by
  unfold merged
  rw [Finset.mem_union, mem_span_succ]
  cases (childTruncations (blockSize (half + 2)) truncation).2 with
  | none => simp [wantedCount, span_zero]
  | some last => simp [wantedCount, mem_span_succ]

def readSlots (assignments : List Assignment) : Set Slot :=
  {slot | ∃ assignment ∈ assignments, slot ∈ assignment.sources}

theorem readSlots_interleave {half truncation : Nat} (bound : truncation < blockSize (half + 2))
    (base : Nat) (source : Buffer) :
    readSlots (interleave (half + 2) base truncation source) =
      {slot | slot ∈ merged half base truncation source} := by
  ext slot
  constructor
  · rintro ⟨assignment, member, read⟩
    obtain ⟨index, wanted, _, rfl⟩ := mem_interleave.mp member
    exact merged_of_sources source bound wanted read
  · intro member
    obtain ⟨index, wanted, read⟩ := sources_of_merged source bound member
    exact ⟨_, mem_interleave.mpr ⟨index, wanted, by omega, rfl⟩, read⟩

end Reads

end Block

open Block in
/-- The last layer of a block of four or more values writes the outputs that are wanted, each once
and in order, and reads just what the halves were asked for. It makes its outputs in turns, the
first that is not wanted ends it, and so the two outputs at the boundary are only made where they
are wanted themselves and no turn was cut short. -/
theorem interleave_consumes_halves {order truncation : Nat} (large : 2 ≤ order)
    (bound : truncation < 2 ^ order) (base : Nat) (source : Buffer) :
    let halves := childTruncations (2 ^ order) truncation
    let even : Set Slot := {slot | ∃ j ≤ halves.1, slot = ⟨source, base + j⟩}
    let odd : Set Slot :=
      {slot | ∃ last ∈ halves.2, ∃ j ≤ last, slot = ⟨source, base + 2 ^ (order - 1) + j⟩}
    let outputs := interleave order base truncation source
    let loop := turns order base source (2 ^ (order - 1) - 1)
    let ending := boundary order base source truncation
    outputs.map Assignment.destination =
        (List.range (truncation + 1)).map (fun k => ⟨source.other, base + k⟩) ∧
      readSlots outputs = even ∪ odd ∧ (odd = ∅ ↔ halves.2 = none) ∧
      outputs = outputsFrom order base source truncation 0 (2 ^ (order - 1) - 1) ∧
      outputs = loop.take (truncation + 1) ++ ending ∧
      (ending = [] ↔ truncation < 2 ^ order - 2) ∧
      (ending ≠ [] → loop.take (truncation + 1) = loop) := by
  obtain ⟨half, rfl⟩ := Nat.exists_eq_add_of_le' large
  simp only [← blockSize_eq_pow] at bound ⊢
  refine ⟨?_, ?_, ?_, interleave_eq_outputsFrom base truncation source,
    interleave_eq_turns base truncation source, boundary_eq_nil_iff base truncation source, ?_⟩
  · have room : min (truncation + 1) (blockSize (half + 1 + 1)) = truncation + 1 :=
      Nat.min_eq_left bound
    have layer := interleave_layer (half + 1) base truncation source
    rw [room] at layer
    exact layer.destinations
  · rw [readSlots_interleave bound]
    ext slot
    exact mem_merged
  · cases (childTruncations (blockSize (half + 2)) truncation).2 with
    | none => simp
    | some last =>
      have first : (⟨source, base + blockSize (half + 1) + 0⟩ : Slot) ∈
          {slot : Slot | ∃ other ∈ some last, ∃ j ≤ other,
            slot = ⟨source, base + blockSize (half + 1) + j⟩} :=
        ⟨last, rfl, 0, Nat.zero_le _, rfl⟩
      constructor
      · intro empty
        exact absurd first (Set.eq_empty_iff_forall_notMem.mp empty _)
      · intro absent
        cases absent
  · intro reached
    apply take_turns base source
    rw [Ne, boundary_eq_nil_iff] at reached
    exact Nat.not_lt.mp reached

theorem interleave_consumes_halves_eight :
    2 ≤ 3 ∧ 6 < 2 ^ 3 ∧ childTruncations (2 ^ 3) 6 = (3, some 3) ∧
      (Block.interleave 3 5 6 .work).map Assignment.destination =
        (List.range 7).map (fun k => ⟨.input, 5 + k⟩) ∧
      Block.interleave 3 5 6 .work =
        Block.turns 3 5 .work 3 ++ [Block.evenOutput 3 5 .work 3] := by
  obtain ⟨destinations, _, _, _, made, _, whole⟩ :=
    interleave_consumes_halves (show 2 ≤ 3 by decide) (show 6 < 2 ^ 3 by decide) 5 .work
  rw [whole (by decide)] at made
  exact ⟨by decide, by decide, by decide, destinations, made⟩

end PrunedCosine
