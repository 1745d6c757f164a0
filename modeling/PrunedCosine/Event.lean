import PrunedCosine.Slot

/-! What the library reports about its work, and how each report is worded. -/

namespace PrunedCosine

inductive Severity where
  | trace
  | debug
  | info
  | warn
  | error
deriving DecidableEq

namespace Severity

def rank : Severity → Nat
  | trace => 0
  | debug => 1
  | info => 2
  | warn => 3
  | error => 4

def name : Severity → String
  | trace => "TRACE"
  | debug => "DEBUG"
  | info => "INFO"
  | warn => "WARN"
  | error => "ERROR"

end Severity

inductive Event where
  | blockOpened (order base truncation : Nat) (source : Buffer)
  | inputsRequired (order truncation count size : Nat)
  | planned (order base : Nat) (truncation : Option Nat) (assignments live : Nat)
  | tableBuilt (order entries : Nat)
  | defectsFound (order count : Nat)
  | routineWritten (target name : String) (assignments bytes : Nat)
deriving DecidableEq

namespace Event

def severity : Event → Severity
  | blockOpened .. | inputsRequired .. | tableBuilt .. => .trace
  | planned .. => .debug
  | routineWritten .. => .info
  | defectsFound .. => .warn

def optionText : Option Nat → String
  | some value => s!"Some({value})"
  | none => "None"

def message : Event → String
  | blockOpened order base truncation source =>
      s!"instance order={order} base={base} t={truncation} {source.name}->{source.other.name}"
  | inputsRequired order truncation count size =>
      s!"required inputs order={order} t={truncation}: {count} of {size} slots"
  | planned order base truncation assignments live =>
      s!"planned order={order} base={base} t={optionText truncation}: " ++
        s!"{assignments} ops, {live} live inputs"
  | tableBuilt order entries => s!"constant table for order {order}: {entries} entries"
  | defectsFound order count => s!"plan for order {order} failed {count} checks"
  | routineWritten target name assignments bytes =>
      s!"emitted {target} routine {name} ({assignments} ops, {bytes} bytes)"

def text (event : Event) : String := s!"{event.severity.name} {event.message}"

def texts (least : Severity) (events : List Event) : List String :=
  (events.filter fun event => decide (least.rank ≤ event.severity.rank)).map text

end Event

end PrunedCosine
