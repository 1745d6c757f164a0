import PrunedCosine.Assignment
import PrunedCosine.Size

/-! Counts over all the plans of a session, and the lines in which they are told. -/

namespace PrunedCosine

def textOfLines (lines : List String) : String := String.join (lines.map (· ++ "\n"))

structure Statistics where
  plans : Nat := 0
  assignments : Nat := 0
  plainCombines : Nat := 0
  scaledCombines : Nat := 0
  copies : Nat := 0
  largest : Nat := 0
  /-- The name of the first plan of that size. -/
  largestName : String := ""
  hits : Nat := 0
  misses : Nat := 0
deriving DecidableEq

namespace Statistics

def isPlainCombine (assignment : Assignment) : Bool :=
  assignment.expression.isCombine && assignment.scale.isNone

def isScaledCombine (assignment : Assignment) : Bool :=
  assignment.expression.isCombine && assignment.scale.isSome

def isCopy (assignment : Assignment) : Bool := !assignment.expression.isCombine

/-- The name of a plan gives its size and its number of coefficients, both as 64-bit words. -/
def planName (order : Nat) (truncation : Option Nat) : String :=
  let outputs := match truncation with
    | some last => (last + 1) % wordCount
    | none => 0
  s!"fdct{blockSize (order % 64)}_{outputs}"

def recordLookup (statistics : Statistics) (found : Bool) : Statistics :=
  if found then { statistics with hits := statistics.hits + 1 }
  else { statistics with misses := statistics.misses + 1 }

def recordPlan (statistics : Statistics) (order : Nat) (truncation : Option Nat)
    (assignments : List Assignment) : Statistics :=
  let counted : Statistics := { statistics with
    plans := statistics.plans + 1,
    assignments := statistics.assignments + assignments.length,
    plainCombines := statistics.plainCombines + assignments.countP isPlainCombine,
    scaledCombines := statistics.scaledCombines + assignments.countP isScaledCombine,
    copies := statistics.copies + assignments.countP isCopy }
  if statistics.largest < assignments.length then
    { counted with largest := assignments.length, largestName := planName order truncation }
  else counted

def lines (statistics : Statistics) : List String :=
  ["Planning Session Statistics:",
    s!"  Plans built: {statistics.plans}",
    s!"  Operations emitted: {statistics.assignments}",
    s!"    plain combines: {statistics.plainCombines}",
    s!"    scaled combines: {statistics.scaledCombines}",
    s!"    copies: {statistics.copies}",
    s!"  Liveness memo: {statistics.hits} hits, {statistics.misses} misses"] ++
  if statistics.largestName.isEmpty then []
  else [s!"  Largest plan: {statistics.largestName} ({statistics.largest} ops)"]

def text (statistics : Statistics) : String := textOfLines statistics.lines

end Statistics

end PrunedCosine
