import PrunedCosine.Scale
import PrunedCosine.Slot

/-! One step of a plan: a slot receives the sum or difference of two slots, perhaps
scaled, or the copy of one. -/

namespace PrunedCosine

inductive Sign where
  | plus
  | minus
deriving DecidableEq

namespace Sign

def symbol : Sign → String
  | plus => "+"
  | minus => "-"

def apply {α : Type} [Add α] [Sub α] : Sign → α → α → α
  | plus, left, right => left + right
  | minus, left, right => left - right

end Sign

inductive Stage where
  /-- The sums and differences that open a block. -/
  | butterfly
  /-- The merging of the two halves. -/
  | interleave
deriving DecidableEq

inductive Expression where
  | combine (sign : Sign) (left right : Slot) (scale : Option ScaleId)
  | copy (source : Slot)
deriving DecidableEq

namespace Expression

/-- The slots read, in the order in which they are read. -/
def sources : Expression → List Slot
  | combine _ left right _ => [left, right]
  | copy source => [source]

def scale : Expression → Option ScaleId
  | combine _ _ _ scale => scale
  | copy _ => none

def isCombine : Expression → Bool
  | combine _ _ _ _ => true
  | copy _ => false

def isDifference : Expression → Bool
  | combine .minus _ _ _ => true
  | combine .plus _ _ _ | copy _ => false

def render (slotText : Slot → String) (scaleText : ScaleId → String) : Expression → String
  | combine sign left right (some scale) =>
      s!"({slotText left} {sign.symbol} {slotText right}) * {scaleText scale}"
  | combine sign left right none => s!"{slotText left} {sign.symbol} {slotText right}"
  | copy source => slotText source

end Expression

structure Assignment where
  destination : Slot
  expression : Expression
  /-- The order of the block that the assignment belongs to. -/
  order : Nat
  stage : Stage
deriving DecidableEq

namespace Assignment

def sources (assignment : Assignment) : List Slot := assignment.expression.sources

def scale (assignment : Assignment) : Option ScaleId := assignment.expression.scale

def render (slotText : Slot → String) (scaleText : ScaleId → String)
    (assignment : Assignment) : String :=
  s!"{slotText assignment.destination} = {assignment.expression.render slotText scaleText}"

def text (assignment : Assignment) : String := assignment.render Slot.text ScaleId.text

end Assignment

end PrunedCosine
