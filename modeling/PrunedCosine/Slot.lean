/-! The scalars of a transform. Two buffers of equal length take turns: each level of
the recursion reads one and writes the other. A slot is one place in one buffer. -/

namespace PrunedCosine

/-- The buffer that the caller fills, or the one that ends up with the coefficients. -/
inductive Buffer where
  | input
  | work
deriving DecidableEq

namespace Buffer

def other : Buffer → Buffer
  | input => work
  | work => input

def name : Buffer → String
  | input => "X"
  | work => "Y"

def rank : Buffer → Nat
  | input => 0
  | work => 1

@[simp] theorem other_other (buffer : Buffer) : buffer.other.other = buffer := by
  cases buffer <;> rfl

theorem other_ne (buffer : Buffer) : buffer.other ≠ buffer := by
  cases buffer <;> decide

theorem rank_injective {first second : Buffer} (same : first.rank = second.rank) :
    first = second := by
  cases first <;> cases second <;> simp_all [rank]

end Buffer

structure Slot where
  buffer : Buffer
  index : Nat
deriving DecidableEq

namespace Slot

def flipped (slot : Slot) : Slot := { slot with buffer := slot.buffer.other }

def text (slot : Slot) : String := s!"{slot.buffer.name}[{slot.index}]"

/-- Input slots come before work slots; within a buffer the lower index comes first. -/
def compare : Slot → Slot → Ordering :=
  compareLex (compareOn fun slot => slot.buffer.rank) (compareOn fun slot => slot.index)

instance : Ord Slot := ⟨compare⟩

instance : Std.TransCmp compare :=
  inferInstanceAs (Std.TransCmp (compareLex (compareOn fun slot : Slot => slot.buffer.rank)
    (compareOn fun slot : Slot => slot.index)))

theorem eq_of_compare {first second : Slot} (same : compare first second = .eq) :
    first = second := by
  simp only [compare, compareLex, compareOn, Ordering.then_eq_eq, Std.compare_eq_iff_eq] at same
  cases first
  cases second
  obtain ⟨ranks, indices⟩ := same
  cases Buffer.rank_injective ranks
  cases indices
  rfl

instance : Std.LawfulEqCmp compare where
  eq_of_compare := eq_of_compare

def sorted (slots : List Slot) : List Slot :=
  slots.mergeSort fun first second => (compare first second).isLE

@[simp] theorem flipped_flipped (slot : Slot) : slot.flipped.flipped = slot := by
  simp [flipped]

end Slot

end PrunedCosine
