import PrunedCosine.Routine.Target

/-! From parameters to the text of a routine. -/

namespace PrunedCosine

def scaleTable (order : Nat) : Planning (ScaleTable Float) :=
  match checkOrder order with
  | .error cause => throw cause
  | .ok () => do
      let table : ScaleTable Float := .ofOrder order
      Session.note (.tableBuilt order table.size)
      pure table

def writeRoutine (plan : Plan) (table : ScaleTable Float) (target : Target)
    (options : RoutineOptions) : Planning String :=
  match plan.matchTable table with
  | .error cause => throw cause
  | .ok () => do
      let text := target.text (plan.routine table options)
      Session.note (.routineWritten target.name (plan.routineName options)
        plan.assignments.length text.utf8ByteSize)
      pure text

def generate (order : Nat) (truncation : Int) (target : Target) (options : RoutineOptions) :
    Planning String := do
  let plan ← plan order 0 truncation
  let table ← scaleTable order
  writeRoutine plan table target options

end PrunedCosine
