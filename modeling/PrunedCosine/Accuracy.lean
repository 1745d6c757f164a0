import PrunedCosine.Evaluate
import PrunedCosine.Reference

/-! How far the coefficients of a plan are from those of the direct transform. -/

namespace PrunedCosine

variable {α : Type} [Scalar α]

def maxError (first second : List α) : α :=
  (List.zipWith (fun left right => Scalar.abs (left - right)) first second).foldl Scalar.max
    (Scalar.ofNat 0)

def magnitude (values : List α) : α :=
  values.foldl (fun largest value => Scalar.max largest (Scalar.abs value)) (Scalar.ofNat 1)

/-- The largest error of the plan's coefficients on `input`, relative to the largest
coefficient of the direct transform, or absolute if that is below one. -/
def Plan.relativeError (plan : Plan) (table : ScaleTable α) (input : List α) :
    Except Error α := do
  plan.matchTable table
  let found ← plan.run table input
  let expected := Reference.leading (input.drop plan.base) found.length
  pure (maxError found expected / magnitude expected)

def probeSignal (length : Nat) : List Float :=
  (List.range length).map fun index =>
    let i := Float.ofNat index
    Float.sin (0.7 * i) + 0.25 * Float.cos (1.3 * i + 0.5) - 0.01 * i

end PrunedCosine
