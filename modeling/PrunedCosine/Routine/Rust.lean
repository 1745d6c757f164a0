import PrunedCosine.Decimal.Notation
import PrunedCosine.Routine

/-! Routines in Rust: one function that declares its scales and work array inside. -/

namespace PrunedCosine.Rust

def declaration (scale : Scale Float) : String :=
  s!"    const {scale.name}: f64 = {Decimal.plainText scale.value}; // {scale.kind.formula}"

/-- The lines before the statements. An idle routine only marks its parameters as used. -/
def opening (routine : Routine Float) : List String :=
  ["// Generated by dctgen.",
    "",
    s!"/// {routine.summary}",
    "///",
    "/// `x` is used as scratch space and is overwritten.",
    "#[allow(dead_code, clippy::approx_constant, clippy::excessive_precision)]",
    s!"pub fn {routine.name}(x: &mut [f64; {routine.bufferLength}], z: &mut [f64]) " ++ "\x7b"] ++
    routine.scales.map declaration ++
    if routine.isIdle then ["    let _ = (x, z);"]
    else [s!"    let mut y = [0.0f64; {routine.bufferLength}];"]

def closing : List String := ["\x7d"]

end PrunedCosine.Rust
