import PrunedCosine.Routine

/-! Routines in JavaScript: a strict function that declares the scales and the work array
once and gives back the transform. The language computes the scales itself. -/

namespace PrunedCosine.JavaScript

/-- The value of a scale as an expression. Exponents always have a fraction. -/
def valueText : ScaleKind → String
  | .quarterCosine => "Math.cos(Math.PI / 4)"
  | .inverseCosine k period => s!"0.5 / Math.cos(Math.PI * {2 * k + 1} / {period})"
  | .dc order => "2 ** " ++ ScaleKind.halfText ".0" (-order)
  | .ac order => "2 ** " ++ ScaleKind.halfText ".0" (1 - order)

def declaration (scale : Scale Float) : String :=
  s!"    const {scale.name} = {valueText scale.kind};"

def opening (routine : Routine Float) : List String :=
  ["\"use strict\";",
    "",
    s!"/** {routine.summary} */",
    s!"const {routine.name} = function() " ++ "\x7b"] ++
    routine.scales.map declaration ++
    ["",
      s!"    const Y = new Float64Array({routine.bufferLength});",
      "",
      s!"    return function {routine.name}(X, Z) " ++ "\x7b"]

def closing : List String := ["    \x7d;", "\x7d();"]

end PrunedCosine.JavaScript
