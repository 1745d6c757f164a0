/-! The sizes of blocks, and the words in which lengths, indices and ids are kept. -/

namespace PrunedCosine

def blockSize : (order : Nat) → Nat
  | 0 => 1
  | order + 1 => 2 * blockSize order

@[simp] theorem blockSize_zero : blockSize 0 = 1 := rfl

theorem blockSize_succ (order : Nat) : blockSize (order + 1) = 2 * blockSize order := rfl

theorem blockSize_pos (order : Nat) : 0 < blockSize order := by
  induction order with
  | zero => exact Nat.one_pos
  | succ order ih =>
    rw [blockSize_succ]
    omega

/-- How many 64-bit words there are. Lengths, indices and truncations are such words. -/
def wordCount : Nat := 18446744073709551616

/-- How many 32-bit words there are. Orders and ids are such words. -/
def shortWordCount : Nat := 4294967296

def largestSigned : Nat := 9223372036854775807

end PrunedCosine
