import PrunedCosine.Session
import PrunedCosine.SlotSet

/-! Which inputs a block reads. A block of order `p` that must give coefficients
`0..t` opens with sums for its even half and differences for its odd half; a half that
reads place `k` makes the block read `k` and its mirror image. -/

namespace PrunedCosine

/-- The truncations handed to the two halves of a block of `size` values. The odd half is
left out when only coefficient zero is wanted. Truncations are 64-bit words, so the
successor of one beyond the block is reduced modulo `wordCount`. -/
def childTruncations (size truncation : Nat) : Nat × Option Nat :=
  let next := if truncation < size then truncation + 1 else (truncation + 1) % wordCount
  (truncation / 2, if truncation = 0 then none else some (min (next / 2) (size / 2 - 1)))

def mirrored (size : Nat) (places : List Nat) : SlotSet :=
  (SlotSet.withCapacity size).insertAll (places.flatMap fun place => [place, size - 1 - place])

/-- The inputs, counted from its base, that a block of size `2 ^ order` reads to give the
coefficients up to `truncation`. Answers are kept in the session's memo and a stored
answer is taken as it is; for a block of one value there is no other. -/
def requiredInputs : (order : Nat) → (truncation : Option Nat) → StateM Session (List Nat)
  | _, none => pure []
  | 0, some truncation => do
      let stored ← Session.lookUp 0 truncation
      pure (stored.getD [])
  | 1, some _ => pure [0, 1]
  | half + 2, some truncation => do
      match ← Session.lookUp (half + 2) truncation with
      | some places => pure places
      | none =>
          let size := blockSize (half + 2)
          let truncations := childTruncations size truncation
          let even ← requiredInputs (half + 1) (some truncations.1)
          let odd ← requiredInputs (half + 1) truncations.2
          let live := (mirrored size even).union (mirrored size odd)
          let places := live.toList
          Session.note (.inputsRequired (half + 2) truncation places.length size)
          Session.store (half + 2) truncation places
          pure places

end PrunedCosine
