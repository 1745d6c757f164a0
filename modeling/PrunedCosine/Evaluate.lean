import PrunedCosine.Plan

/-! Running a plan on numbers. Reading a slot that holds no value yet, or one that the
buffers do not have, stops the run. Only sums, differences and products are used, so any
numbers will do. -/

namespace PrunedCosine

/-- The contents of the two buffers; a slot that was never written holds nothing. -/
structure Buffers (α : Type) where
  input : Array (Option α)
  work : Array (Option α)

namespace Buffers

variable {α : Type}

def ofInput (values : List α) : Buffers α :=
  { input := (values.map some).toArray, work := Array.replicate values.length none }

def contents (buffers : Buffers α) : Buffer → Array (Option α)
  | .input => buffers.input
  | .work => buffers.work

def read (buffers : Buffers α) (slot : Slot) : Except Error α :=
  match (buffers.contents slot.buffer)[slot.index]? with
  | none => .error (.missingSlot slot)
  | some none => .error (.unwrittenSlot slot)
  | some (some value) => .ok value

def write (buffers : Buffers α) (slot : Slot) (value : α) : Except Error (Buffers α) :=
  match slot.buffer with
  | .input =>
      if slot.index < buffers.input.size then
        .ok { buffers with input := buffers.input.setIfInBounds slot.index (some value) }
      else .error (.missingSlot slot)
  | .work =>
      if slot.index < buffers.work.size then
        .ok { buffers with work := buffers.work.setIfInBounds slot.index (some value) }
      else .error (.missingSlot slot)

variable [Add α] [Sub α] [Mul α]

def value (table : ScaleTable α) (buffers : Buffers α) : Expression → Except Error α
  | .combine sign left right scale => do
      let first ← buffers.read left
      let second ← buffers.read right
      let combined := sign.apply first second
      match scale with
      | some id => pure (combined * table.value id)
      | none => pure combined
  | .copy source => buffers.read source

def step (table : ScaleTable α) (buffers : Buffers α) (assignment : Assignment) :
    Except Error (Buffers α) := do
  let value ← buffers.value table assignment.expression
  buffers.write assignment.destination value

def steps (table : ScaleTable α) (buffers : Buffers α) (assignments : List Assignment) :
    Except Error (Buffers α) :=
  assignments.foldlM (step table) buffers

end Buffers

namespace Plan

variable {α : Type}

def matchTable (plan : Plan) (table : ScaleTable α) : Except Error Unit :=
  if table.order = plan.order then .ok ()
  else .error (.invalidParameter "constants" table.order (.tableOrder plan.order))

variable [Add α] [Sub α] [Mul α]

def execute (plan : Plan) (table : ScaleTable α) (input : List α) : Except Error (Buffers α) :=
  if input.length = plan.bufferLength then
    (Buffers.ofInput input).steps table plan.assignments
  else .error (.invalidParameter "input_len" input.length (.valueCount plan.bufferLength))

def runUnscaled (plan : Plan) (table : ScaleTable α) (input : List α) :
    Except Error (Array (Option α)) := do
  let final ← plan.execute table input
  pure final.work

def coefficient (plan : Plan) (table : ScaleTable α) (final : Buffers α) (k : Nat) :
    Except Error α := do
  let value ← final.read (plan.output k)
  pure (value * table.value (if k = 0 then table.dc else table.ac))

/-- The scaled coefficients. A plan that asks for more of them than the transform has
stops at the first one beyond. -/
def run (plan : Plan) (table : ScaleTable α) (input : List α) : Except Error (List α) := do
  let final ← plan.execute table input
  (List.range (min plan.outputCount (plan.size + 1))).mapM (plan.coefficient table final)

end Plan

end PrunedCosine
