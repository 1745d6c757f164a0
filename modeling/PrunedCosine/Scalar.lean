/-! The numbers that a plan runs on. Everything numeric in this library is stated over
this interface, so the same definitions run on 64-bit floats and speak of real numbers. -/

namespace PrunedCosine

/-- Arithmetic, the functions of the cosine transform, and a value for what has none. -/
class Scalar (α : Type) extends Add α, Sub α, Mul α, Div α, Neg α where
  ofNat : Nat → α
  pi : α
  cos : α → α
  sqrt : α → α
  exp2 : α → α
  abs : α → α
  /-- The larger of two values; an undefined value counts for nothing. -/
  max : α → α → α
  /-- Strictly less; false when either side is undefined. -/
  less : α → α → Bool
  undefined : α

namespace Scalar

def floatMax (first second : Float) : Float :=
  if first.isNaN then second
  else if second.isNaN then first
  else if first < second then second else first

instance : Scalar Float where
  ofNat := Float.ofNat
  pi := 3.141592653589793
  cos := Float.cos
  sqrt := Float.sqrt
  exp2 := Float.pow 2
  abs := Float.abs
  max := floatMax
  less first second := first < second
  undefined := 0 / 0

end Scalar

end PrunedCosine
