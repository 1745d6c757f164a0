import PrunedCosine.Decimal.Notation
import PrunedCosine.Routine

/-! Routines in C: scales at file scope and one function with a local work array that is not
initialised. -/

namespace PrunedCosine.C

def declaration (scale : Scale Float) : String :=
  s!"static const double {scale.name} = {Decimal.plainText scale.value}; " ++
    s!"/* {scale.kind.formula} */"

/-- The lines before the statements. An idle routine only marks its parameters as used. -/
def opening (routine : Routine Float) : List String :=
  [s!"/* {routine.summary} X is used as scratch and is overwritten. */"] ++
    routine.scales.map declaration ++
    ["",
      s!"void {routine.name}(double *X, double *Z)",
      "\x7b"] ++
    if routine.isIdle then ["    (void)X;", "    (void)Z;"]
    else [s!"    double Y[{routine.bufferLength}];"]

def closing : List String := ["\x7d"]

end PrunedCosine.C
