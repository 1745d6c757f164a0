import PrunedCosine.Block
import PrunedCosine.Scale.Table
import Std.Data.TreeSet

/-! A plan: the assignments that compute the first coefficients of a transform of
`2 ^ order` values which start at index `base` of the input buffer. The coefficients end
up, unscaled, at the same indices of the work buffer. -/

namespace PrunedCosine

structure Plan where
  order : Nat
  base : Nat
  /-- The last coefficient wanted, if any is wanted. -/
  truncation : Option Nat
  /-- The indices of the input buffer that the plan reads. -/
  live : SlotSet
  assignments : List Assignment

namespace Plan

def size (plan : Plan) : Nat := blockSize plan.order

def bufferLength (plan : Plan) : Nat := plan.base + plan.size

/-- The number of coefficients. Truncations are 64-bit words, so the successor of one
beyond the transform is reduced modulo `wordCount`. -/
def outputCount (plan : Plan) : Nat :=
  match plan.truncation with
  | none => 0
  | some last => if last < plan.size then last + 1 else (last + 1) % wordCount

def output (plan : Plan) (k : Nat) : Slot := ⟨.work, plan.base + k⟩

def usedScales (plan : Plan) : Std.TreeSet Nat :=
  .ofList ((plan.assignments.filterMap Assignment.scale).map ScaleId.index) _

def scaleIds (plan : Plan) : List ScaleId := plan.usedScales.toList.map ScaleId.mk

def combineCount (plan : Plan) : Nat :=
  plan.assignments.countP fun assignment => assignment.expression.isCombine

/-- The truncation as the last coefficient wanted; `-1` asks for none. -/
def validate (order base : Nat) (truncation : Int) : Except Error (Option Nat) :=
  match checkOrder order with
  | .error cause => .error cause
  | .ok () =>
      if base + blockSize order ≥ wordCount then
        .error (.invalidParameter "base_offset" (Nat.min base largestSigned) .lengthOverflow)
      else if truncation = -1 then .ok none
      else if truncation < -1 then
        .error (.invalidParameter "truncation" truncation (.atLeast (-1)))
      else if truncation ≥ blockSize order then
        .error (.invalidParameter "truncation" truncation (.belowSize (blockSize order)))
      else .ok (some truncation.toNat)

/-- Plans with parameters that are known to be good. -/
def build (order base : Nat) (truncation : Option Nat) : StateM Session Plan := do
  let places ← requiredInputs order truncation
  let assignments ← match truncation with
    | some last => Block.assignments order base last .input
    | none => pure []
  let live := (SlotSet.ofList places).shifted base
  Session.recordPlan order truncation assignments
  Session.note (.planned order base truncation assignments.length live.size)
  pure { order, base, truncation, live, assignments }

end Plan

def plan (order base : Nat) (truncation : Int) : Planning Plan :=
  match Plan.validate order base truncation with
  | .error cause => throw cause
  | .ok truncation => ExceptT.lift (Plan.build order base truncation)

end PrunedCosine
