import PrunedCosine.Plan
import Std.Data.TreeSet

/-! Structural checks of a plan: every read sees a value, every write is used on the way
to a coefficient, and the final stage writes each coefficient once and nothing else. -/

namespace PrunedCosine

inductive Defect where
  | unwrittenSource (position : Nat) (slot : Slot)
  | deadAssignment (position : Nat) (slot : Slot)
  /-- A value needed at the start is no input. -/
  | missingInput (slot : Slot)
  | outputCoverage (coefficient writes : Nat)
  | extraOutput (coefficient : Nat)
deriving DecidableEq

def Defect.text : Defect → String
  | unwrittenSource position slot => s!"op #{position} reads unwritten slot {slot.text}"
  | deadAssignment position slot => s!"op #{position} writes {slot.text} which is never used"
  | missingInput slot => s!"{slot.text} is needed but never provided"
  | outputCoverage coefficient writes =>
      s!"coefficient {coefficient} written {writes} times by the final stage"
  | extraOutput coefficient =>
      s!"final stage writes coefficient {coefficient} beyond the truncation"

abbrev Slots := Std.TreeSet Slot Slot.compare

namespace Plan

def isInput (plan : Plan) (slot : Slot) : Bool :=
  slot.buffer == .input && decide (plan.base ≤ slot.index ∧ slot.index < plan.bufferLength)

def dependencyStep (plan : Plan) (state : Slots × Array Defect) (entry : Assignment × Nat) :
    Slots × Array Defect :=
  let unwritten := entry.1.sources.filter fun slot => !(plan.isInput slot || state.1.contains slot)
  (state.1.insert entry.1.destination,
    state.2 ++ (unwritten.map (Defect.unwrittenSource entry.2)).toArray)

def dependencyDefects (plan : Plan) : List Defect :=
  (plan.assignments.zipIdx.foldl plan.dependencyStep (.empty, #[])).2.toList

def outputSlots (plan : Plan) : Slots :=
  .ofList ((List.range plan.outputCount).map plan.output) _

/-- One step of the walk from the last assignment to the first, with the slots needed later:
a destination that is not needed is dead, any other stops being needed and its sources
become needed. -/
def livenessStep (entry : Assignment × Nat) (state : Slots × Array Defect) :
    Slots × Array Defect :=
  if state.1.contains entry.1.destination then
    ((state.1.erase entry.1.destination).insertMany entry.1.sources, state.2)
  else (state.1, state.2.push (.deadAssignment entry.2 entry.1.destination))

/-- The assignments that are never used, last first, and then the slots that must hold a
value at the start and do not. -/
def livenessDefects (plan : Plan) : List Defect :=
  let final := plan.assignments.zipIdx.foldr livenessStep (plan.outputSlots, #[])
  final.2.toList ++ (final.1.toList.filter (!plan.isInput ·)).map .missingInput

def finalStage (plan : Plan) : List Assignment :=
  plan.assignments.filter fun assignment =>
    assignment.order == plan.order && (plan.order == 1 || assignment.stage == .interleave)

def extraOutput? (plan : Plan) (slot : Slot) : Option Defect :=
  if slot.index < plan.base then some (.extraOutput slot.index)
  else if plan.outputCount ≤ slot.index - plan.base then
    some (.extraOutput (slot.index - plan.base))
  else none

def countWrite (plan : Plan) (writes : Array Nat) (slot : Slot) : Array Nat :=
  if slot.buffer = .work ∧ plan.base ≤ slot.index then
    writes.modify (slot.index - plan.base) (· + 1)
  else writes

def outputWrites (plan : Plan) : Array Nat :=
  (plan.finalStage.map Assignment.destination).foldl plan.countWrite
    (Array.replicate (min plan.size plan.outputCount) 0)

def coverageDefects (plan : Plan) : List Defect :=
  plan.finalStage.filterMap (fun assignment => plan.extraOutput? assignment.destination) ++
    plan.outputWrites.toList.zipIdx.filterMap fun (writes, coefficient) =>
      if writes = 1 then none else some (.outputCoverage coefficient writes)

def defects (plan : Plan) : List Defect :=
  plan.dependencyDefects ++ plan.livenessDefects ++ plan.coverageDefects

end Plan

def inspect (plan : Plan) : StateM Session (List Defect) := do
  let defects := plan.defects
  if !defects.isEmpty then Session.note (.defectsFound plan.order defects.length)
  pure defects

end PrunedCosine
