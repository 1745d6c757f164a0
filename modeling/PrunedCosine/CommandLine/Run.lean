import PrunedCosine.Accuracy
import PrunedCosine.CommandLine.Settings
import PrunedCosine.Defect
import PrunedCosine.Generate

/-! The command line: from settings to what is written where. Only the writing of a file
is left to the caller, who says how it went. -/

namespace PrunedCosine.CommandLine

def tolerance : Float := 1e-9

structure Outcome where
  exitCode : Nat
  stdout : String
  stderr : String
  /-- The path and text of the file that was written. -/
  file : Option (String × String)

/-- Why a run ends without a routine, after the lines already on standard error. -/
structure Failure where
  notes : List String
  message : String

namespace Failure

def ofError (error : Error) : Failure := ⟨[], error.message⟩

def outcome (failure : Failure) : Outcome where
  exitCode := 1
  stdout := ""
  stderr := textOfLines (failure.notes ++ [s!"Error: {failure.message}"])
  file := none

end Failure

structure Delivery where
  notes : List String
  text : String
  output : Option String
  /-- What is said on standard error once the routine is delivered. -/
  closing : String

namespace Delivery

/-- The outcome when the file, if one is asked for, fails to be written for this cause. -/
def finish (delivery : Delivery) (fault : Option String) : Outcome :=
  match delivery.output, fault with
  | none, _ => ⟨0, delivery.text, textOfLines delivery.notes ++ delivery.closing, none⟩
  | some path, none =>
      ⟨0, "", textOfLines delivery.notes ++ delivery.closing, some (path, delivery.text)⟩
  | some _, some cause => Failure.outcome ⟨delivery.notes, (Error.file cause).message⟩

end Delivery

abbrev Job := ExceptT Failure (StateM Session)

def Job.ofPlanning {α : Type} (task : Planning α) : Job α := ExceptT.adapt Failure.ofError task

def lastCoefficient (count : Nat) : Except Error Int :=
  if count > largestSigned then
    .error (.invalidParameter "coefficients" largestSigned .tooLarge)
  else .ok ((count : Int) - 1)

abbrev Measure := Plan → ScaleTable Float → Except Error Float

def probeError : Measure := fun plan table =>
  plan.relativeError table (probeSignal plan.bufferLength)

def verdict (plan : Plan) : Except Error Float → Except Failure String
  | .error cause => .error (.ofError cause)
  | .ok error =>
      let errorText := Decimal.scientificText error
      if Scalar.less tolerance error then
        .error ⟨[], s!"numeric check failed: relative error {errorText}"⟩
      else
        .ok s!"check: ok ({plan.assignments.length} ops, max relative error {errorText})"

def examine (measure : Measure) (plan : Plan) (table : ScaleTable Float) : Job String := do
  let defects ← (inspect plan : StateM Session (List Defect))
  if !defects.isEmpty then
    throw ⟨defects.map fun defect => s!"check: {defect.text}",
      s!"{defects.length} structural check(s) failed"⟩
  MonadExcept.ofExcept (verdict plan (measure plan table))

def report (measure : Measure) (settings : Settings) (plan : Plan) (table : ScaleTable Float) :
    Job (List String) :=
  if settings.check then (fun line => [line]) <$> examine measure plan table else pure []

def prepare (measure : Measure) (settings : Settings) : Job Delivery := do
  let last ← MonadExcept.ofExcept ((lastCoefficient settings.count).mapError Failure.ofError)
  let plan ← Job.ofPlanning (plan settings.transformOrder 0 last)
  let table ← Job.ofPlanning (scaleTable settings.transformOrder)
  let notes ← report measure settings plan table
  let text ← Job.ofPlanning (writeRoutine plan table settings.language settings.options)
  let session ← (get : StateM Session Session)
  let closing := if settings.stats then session.statistics.text else ""
  pure { notes, text, output := settings.output, closing }

/-- What a run leaves behind when `fault?` tells why a path cannot be written. -/
def run (measure : Measure) (fault? : String → Option String) (settings : Settings) : Outcome :=
  match ((prepare measure settings).run Session.fresh).1 with
  | .error failure => failure.outcome
  | .ok delivery => delivery.finish (delivery.output.bind fault?)

def versionText : String := "dctgen 0.1.0\n"

def usageText : String := textOfLines
  ["Usage: dctgen [OPTIONS]",
    "",
    "  -p, --order <ORDER>                the input size is 2^order",
    "  -n, --coefficients <COEFFICIENTS>  leading coefficients to compute",
    "      --target <TARGET>              javascript, rust or c",
    "      --name <NAME>                  name of the routine",
    "      --all-constants                declare every constant",
    "  -o, --output <OUTPUT>              file to write",
    "      --check                        check the plan first",
    "      --stats                        print planning statistics",
    "  -h, --help                         print this text",
    "  -V, --version                      print the version"]

def answer (fault? : String → Option String) : Request → Outcome
  | .run settings => run probeError fault? settings
  | .help => ⟨0, usageText, "", none⟩
  | .version => ⟨0, versionText, "", none⟩
  | .misuse => ⟨2, "", usageText, none⟩

end PrunedCosine.CommandLine
