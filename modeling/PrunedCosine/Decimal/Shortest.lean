/-! The fewest decimal digits that read back to a 64-bit binary float. The reals that round
to a float form an interval; among the decimal grids `10 ^ e` the coarsest one with a
point in that interval gives the fewest digits. All arithmetic is exact. -/

namespace PrunedCosine

structure Decimal where
  digits : Nat
  exponent : Int
deriving DecidableEq

namespace Decimal

structure Binary where
  mantissa : Nat
  exponent : Int
  /-- Whether the float below is only half as far away as the float above. -/
  narrow : Bool

namespace Binary

def ofBits (bits : UInt64) : Binary :=
  let exponent := ((bits >>> 52) &&& 0x7ff).toNat
  let fraction := (bits &&& 0xfffffffffffff).toNat
  if exponent = 0 then ⟨fraction, -1074, false⟩
  else ⟨0x10000000000000 + fraction, exponent - 1075, fraction == 0 && decide (1 < exponent)⟩

/-- The float and the ends of its interval, all in one unit in which the points of a decimal
grid are whole multiples of `spacing`. -/
structure Interval where
  low : Nat
  value : Nat
  high : Nat
  spacing : Nat
  closed : Bool

def interval (binary : Binary) (grid : Int) : Interval :=
  let quarter := Nat.pow 2 (binary.exponent - 2).toNat * Nat.pow 10 (-grid).toNat
  { low := (4 * binary.mantissa - if binary.narrow then 1 else 2) * quarter,
    value := 4 * binary.mantissa * quarter,
    high := (4 * binary.mantissa + 2) * quarter,
    spacing := Nat.pow 2 (2 - binary.exponent).toNat * Nat.pow 10 grid.toNat,
    closed := binary.mantissa % 2 == 0 }

namespace Interval

def holds (interval : Interval) (point : Nat) : Bool :=
  let scaled := point * interval.spacing
  if interval.closed then decide (interval.low ≤ scaled ∧ scaled ≤ interval.high)
  else decide (interval.low < scaled ∧ scaled < interval.high)

/-- The point of the grid in the interval that is nearest to the value; of two equally near
the upper one. -/
def nearest? (interval : Interval) : Option Nat :=
  let below := interval.value / interval.spacing
  match interval.holds below, interval.holds (below + 1) with
  | true, true =>
      if 2 * interval.value < (2 * below + 1) * interval.spacing then some below
      else some (below + 1)
  | true, false => some below
  | false, true => some (below + 1)
  | false, false => none

end Interval

def finest (binary : Binary) : Int := (binary.exponent - 1) * 1233 / 4096 - 1

def exact (binary : Binary) : Decimal :=
  ⟨binary.mantissa * Nat.pow 2 binary.exponent.toNat * Nat.pow 5 (-binary.exponent).toNat,
    min binary.exponent 0⟩

/-- Coarser grids as long as they have a point in the interval. A grid holds all points of
the coarser ones, so the last to have one is the coarsest that has. -/
def coarsen (binary : Binary) : (steps : Nat) → Decimal → Decimal
  | 0, found => found
  | steps + 1, found =>
      match (binary.interval (found.exponent + 1)).nearest? with
      | some point => coarsen binary steps ⟨point, found.exponent + 1⟩
      | none => found

/-- A float has fewer than twenty digits between its finest grid and its first digit. -/
def shortest (binary : Binary) : Decimal :=
  match (binary.interval binary.finest).nearest? with
  | some point => coarsen binary 24 ⟨point, binary.finest⟩
  | none => binary.exact

end Binary

end Decimal

end PrunedCosine
