import PrunedCosine.Slot

/-! What can go wrong, and how each cause is worded. -/

namespace PrunedCosine

inductive Reason where
  | atLeast (least : Int)
  | atMost (most : Nat)
  | belowSize (size : Nat)
  | lengthOverflow
  | tableOrder (planOrder : Nat)
  | valueCount (expected : Nat)
  | tooLarge
  | other (text : String)
deriving DecidableEq

def Reason.text : Reason → String
  | atLeast least => s!"must be at least {least}"
  | atMost most => s!"must not exceed {most}"
  | belowSize size => s!"must be below the transform size {size}"
  | lengthOverflow => "buffer length overflows"
  | tableOrder planOrder => s!"table order does not match plan order {planOrder}"
  | valueCount expected => s!"expected {expected} values"
  | tooLarge => "too large"
  | other text => text

inductive Error where
  | invalidParameter (name : String) (value : Int) (reason : Reason)
  | unwrittenSlot (slot : Slot)
  /-- A slot that neither buffer has was read or written. -/
  | missingSlot (slot : Slot)
  | format
  | file (cause : String)
deriving DecidableEq

namespace Error

def message : Error → String
  | invalidParameter name value reason => s!"Invalid parameter {name} = {value}: {reason.text}"
  | unwrittenSlot slot => s!"Read of unwritten slot {slot.text}"
  | missingSlot slot => s!"Slot {slot.text} lies outside the buffers"
  | format => "Formatting generated source failed"
  | file cause => s!"I/O error: {cause}"

def isInvalidParameter : Error → Bool
  | invalidParameter _ _ _ => true
  | unwrittenSlot _ | missingSlot _ | format | file _ => false

end Error

end PrunedCosine
