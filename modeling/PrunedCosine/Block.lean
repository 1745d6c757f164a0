import PrunedCosine.Pruning

/-! The assignments of one block. A block of order `p` at a base reads one buffer and
writes the other, on the same `2 ^ p` indices. It opens with sums and scaled differences
of mirror images, hands the first half of the indices to the even coefficients and the
second to the odd ones, and interleaves what they give. -/

namespace PrunedCosine.Block

/-- The index `place` places after `base`, in a half of `half` values. Indices are 64-bit
words, so one beyond the half is reduced modulo `wordCount`. -/
def forward (half base place : Nat) : Nat :=
  if place < half then base + place else (base + place) % wordCount

/-- The mirror image of `forward half base place` in the block of `2 * half` values. -/
def backward (half base place : Nat) : Nat :=
  if place < half then base + 2 * half - 1 - place
  else (base + 2 * half + (wordCount - 1) - place) % wordCount

def openingSum (order base : Nat) (source : Buffer) (place : Nat) : Assignment :=
  let half := blockSize (order - 1)
  { destination := ⟨source.other, forward half base place⟩,
    expression := .combine .plus ⟨source, forward half base place⟩
      ⟨source, backward half base place⟩ none,
    order := order,
    stage := .butterfly }

def openingDifference (order base : Nat) (source : Buffer) (place : Nat) : Assignment :=
  let half := blockSize (order - 1)
  { destination := ⟨source.other, forward half (base + half) place⟩,
    expression := .combine .minus ⟨source, forward half base place⟩
      ⟨source, backward half base place⟩ (some (.ofDifference (2 * half) place)),
    order := order,
    stage := .butterfly }

def pair (base truncation : Nat) (source : Buffer) : List Assignment :=
  let sum : Assignment :=
    { destination := ⟨source.other, base⟩,
      expression := .combine .plus ⟨source, base⟩ ⟨source, base + 1⟩ none,
      order := 1,
      stage := .butterfly }
  let difference : Assignment :=
    { destination := ⟨source.other, base + 1⟩,
      expression := .combine .minus ⟨source, base⟩ ⟨source, base + 1⟩ (some .quarterCosine),
      order := 1,
      stage := .butterfly }
  if truncation = 0 then [sum] else [sum, difference]

/-- How output `index` of a block is made from the halves: an even output is a copy, an odd
one the sum of two neighbours, and the last, which has no second neighbour, a copy again. -/
def merge (order base : Nat) (source : Buffer) (index : Nat) : Assignment :=
  let half := blockSize (order - 1)
  { destination := ⟨source.other, base + index⟩,
    expression :=
      if index % 2 = 0 then .copy ⟨source, base + index / 2⟩
      else if index + 1 = 2 * half then .copy ⟨source, base + index⟩
      else .combine .plus ⟨source, base + half + index / 2⟩
        ⟨source, base + half + index / 2 + 1⟩ none,
    order := order,
    stage := .interleave }

def interleave (order base truncation : Nat) (source : Buffer) : List Assignment :=
  (List.range (min (truncation + 1) (blockSize order))).map (merge order base source)

def assignments : (order base truncation : Nat) → (source : Buffer) →
    StateM Session (List Assignment)
  | 0, _, _, _ => pure []
  | 1, base, truncation, source => do
      Session.note (.blockOpened 1 base truncation source)
      pure (pair base truncation source)
  | half + 2, base, truncation, source => do
      Session.note (.blockOpened (half + 2) base truncation source)
      let truncations := childTruncations (blockSize (half + 2)) truncation
      let evenPlaces ← requiredInputs (half + 1) (some truncations.1)
      let oddPlaces ← requiredInputs (half + 1) truncations.2
      let even ← assignments (half + 1) base truncations.1 source.other
      let odd ← match truncations.2 with
        | some last => assignments (half + 1) (base + blockSize (half + 1)) last source.other
        | none => pure []
      pure (evenPlaces.map (openingSum (half + 2) base source) ++
        (oddPlaces.map (openingDifference (half + 2) base source) ++
          (even ++ (odd ++ interleave (half + 2) base truncation source))))

end PrunedCosine.Block
