import PrunedCosine.Scalar

/-! The cosine transform by direct summation. -/

namespace PrunedCosine.Reference

variable {α : Type} [Scalar α]

def angle (n k m : Nat) : α :=
  Scalar.pi * Scalar.ofNat (2 * m + 1) * Scalar.ofNat k / (Scalar.ofNat 2 * Scalar.ofNat n)

/-- The terms added from the left, starting from negative zero. -/
def sum (terms : List α) : α := terms.foldl (· + ·) (-Scalar.ofNat 0)

def norm (n k : Nat) : α :=
  Scalar.sqrt (Scalar.ofNat (if k = 0 then 1 else 2) / Scalar.ofNat n)

def coefficient (values : List α) (k : Nat) : α :=
  let n := values.length
  sum (values.mapIdx fun m value => value * Scalar.cos (angle n k m)) * norm n k

def leading (values : List α) (count : Nat) : List α :=
  (List.range (min count values.length)).map (coefficient values)

def transform (values : List α) : List α := leading values values.length

end PrunedCosine.Reference
