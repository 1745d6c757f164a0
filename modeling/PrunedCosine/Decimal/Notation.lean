import PrunedCosine.Decimal.Shortest

/-! Floats as text: positional with at least one digit after the point, or scientific. -/

namespace PrunedCosine.Decimal

def digitList (decimal : Decimal) : List Char := Nat.toDigits 10 decimal.digits

/-- The number of digits before the decimal point in positional notation; not positive
when the number is below one tenth. -/
def point (decimal : Decimal) : Int := decimal.digitList.length + decimal.exponent

def zeros (count : Nat) : List Char := List.replicate count '0'

def positional (decimal : Decimal) : String :=
  let digits := decimal.digitList
  let point := decimal.point
  String.ofList <|
    if point ≤ 0 then '0' :: '.' :: zeros (-point).toNat ++ digits
    else if point < digits.length then
      digits.take point.toNat ++ '.' :: digits.drop point.toNat
    else digits ++ zeros (point.toNat - digits.length) ++ ['.', '0']

def scientific (decimal : Decimal) : String :=
  let mantissa := match decimal.digitList with
    | [] => []
    | [digit] => [digit]
    | digit :: rest => digit :: '.' :: rest
  s!"{String.ofList mantissa}e{decimal.point - 1}"

def floatText (zero : String) (layout : Decimal → String) (value : Float) : String :=
  if value.isNaN then "NaN"
  else
    let magnitude := value.toBits &&& 0x7fffffffffffffff
    let sign := if value.toBits == magnitude then "" else "-"
    sign ++
      if value.isInf then "inf"
      else if magnitude == 0 then zero
      else layout (Binary.ofBits magnitude).shortest

/-- Positional from a ten-thousandth up to `10 ^ 16`, scientific beyond. -/
def plainText : Float → String :=
  floatText "0.0" fun decimal =>
    if -3 ≤ decimal.point ∧ decimal.point ≤ 16 then decimal.positional else decimal.scientific

def scientificText : Float → String := floatText "0e0" scientific

end PrunedCosine.Decimal
