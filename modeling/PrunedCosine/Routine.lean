import PrunedCosine.Evaluate

/-! A plan as a routine to be written in some language: the scales to declare and the
statements to carry out. What a routine does is fixed here; a target only chooses how it
is spelled. -/

namespace PrunedCosine

inductive Statement where
  | assign (destination : Slot) (expression : Expression)
  /-- Coefficient `coefficient` is the scaled value at `index` of the work buffer. -/
  | output (coefficient index : Nat) (scale : ScaleId)
deriving DecidableEq

structure ArrayNames where
  input : String
  work : String
  output : String

namespace ArrayNames

def upper : ArrayNames := ⟨"X", "Y", "Z"⟩

def lower : ArrayNames := ⟨"x", "y", "z"⟩

def slot (names : ArrayNames) (slot : Slot) : String :=
  match slot.buffer with
  | .input => s!"{names.input}[{slot.index}]"
  | .work => s!"{names.work}[{slot.index}]"

end ArrayNames

def Statement.render (names : ArrayNames) (scaleText : ScaleId → String) : Statement → String
  | assign destination expression =>
      s!"{names.slot destination} = {expression.render names.slot scaleText}"
  | output coefficient index scale =>
      s!"{names.output}[{coefficient}] = {names.work}[{index}] * {scaleText scale}"

structure RoutineOptions where
  name : Option String := none
  /-- Whether to declare the whole table and not only what the routine uses. -/
  allScales : Bool := false

structure Routine (α : Type) where
  name : String
  size : Nat
  outputCount : Nat
  bufferLength : Nat
  scales : List (Scale α)
  assignments : List Statement
  outputs : List Statement
  scaleText : ScaleId → String

namespace Plan

def routineName (plan : Plan) (options : RoutineOptions) : String :=
  options.name.getD s!"fdct{plan.size}_{plan.outputCount}"

def declaredScales {α : Type} (plan : Plan) (table : ScaleTable α) (options : RoutineOptions) :
    List (Scale α) :=
  if options.allScales then table.entries.toList
  else
    let used := plan.usedScales
    table.entries.toList.filter fun scale =>
      used.contains scale.id.index ||
        (scale.id == table.dc && decide (1 ≤ plan.outputCount)) ||
        (scale.id == table.ac && decide (2 ≤ plan.outputCount))

def assignStatements (plan : Plan) : List Statement :=
  plan.assignments.map fun assignment => .assign assignment.destination assignment.expression

def outputStatements {α : Type} (plan : Plan) (table : ScaleTable α) : List Statement :=
  (List.range plan.outputCount).map fun k =>
    .output k (plan.output k).index (if k = 0 then table.dc else table.ac)

def routine {α : Type} (plan : Plan) (table : ScaleTable α) (options : RoutineOptions) :
    Routine α where
  name := plan.routineName options
  size := plan.size
  outputCount := plan.outputCount
  bufferLength := plan.bufferLength
  scales := plan.declaredScales table options
  assignments := plan.assignStatements
  outputs := plan.outputStatements table
  scaleText := table.nameOf

end Plan

namespace Routine

variable {α : Type} (routine : Routine α)

def summary : String :=
  s!"Compute the first {routine.outputCount} coefficients of the " ++
    s!"{routine.size}-element DCT-II."

def isIdle : Bool := routine.assignments.isEmpty

def statements : List Statement := routine.assignments ++ routine.outputs

/-- The statements, of which an idle routine has none. -/
def activeStatements : List Statement := if routine.isIdle then [] else routine.statements

def line (indent : String) (names : ArrayNames) (statement : Statement) : String :=
  s!"{indent}{statement.render names routine.scaleText};"

end Routine

end PrunedCosine
