import PrunedCosine.CommandLine.Folder
import PrunedCosine.CommandLine.Run

/-! The program: reads the arguments, writes the streams and the file. -/

open PrunedCosine CommandLine

def writeFault (error : IO.Error) : String :=
  match error with
  | .noFileOrDirectory .. => FileFault.notFound.text
  | .permissionDenied .. => FileFault.denied.text
  | .inappropriateType .. => FileFault.isFolder.text
  | other => toString other

def deliverFile (delivery : Delivery) : IO (Option String) := do
  match delivery.output with
  | none => pure none
  | some path =>
      try
        IO.FS.writeFile path delivery.text
        pure none
      catch error => pure (some (writeFault error))

def outcomeOf (request : Request) : IO Outcome := do
  match request with
  | .run settings =>
      match ((prepare probeError settings).run Session.fresh).1 with
      | .error failure => pure failure.outcome
      | .ok delivery => pure (delivery.finish (← deliverFile delivery))
  | other => pure (answer (fun _ => none) other)

def main (arguments : List String) : IO UInt32 := do
  let outcome ← outcomeOf (Request.ofStrings arguments)
  IO.print outcome.stdout
  IO.eprint outcome.stderr
  pure (UInt32.ofNat outcome.exitCode)
