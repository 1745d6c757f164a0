import PrunedCosine.Scalar
import PrunedCosine.Size

/-! The scales of the transform: the cosine factors of the butterfly differences and the
two factors that make the result orthonormal. A scale has a kind, which fixes its value,
and an id, which is its place in the table of its order. -/

namespace PrunedCosine

structure ScaleId where
  index : Nat
deriving DecidableEq

namespace ScaleId

def quarterCosine : ScaleId := ⟨0⟩

/-- The scale of difference `k` in a block of `size` values: the blocks of each size have
half as many differences, and their ids follow those of the smaller sizes. Ids are
32-bit words, so a `k` beyond the block is reduced modulo `shortWordCount`. -/
def ofDifference (size k : Nat) : ScaleId :=
  if k < size / 2 then ⟨size / 2 - 1 + k⟩
  else ⟨(size / 2 + k + (shortWordCount - 1)) % shortWordCount⟩

def word (id : ScaleId) : Nat := id.index % shortWordCount

def text (id : ScaleId) : String := s!"C{id.index}"

end ScaleId

inductive ScaleKind where
  /-- `cos (π / 4)` -/
  | quarterCosine
  /-- `0.5 / cos (π (2 k + 1) / period)` -/
  | inverseCosine (k period : Nat)
  /-- `2 ^ (-order / 2)`, for coefficient zero -/
  | dc (order : Nat)
  /-- `2 ^ ((1 - order) / 2)`, for the other coefficients -/
  | ac (order : Nat)
deriving DecidableEq

namespace ScaleKind

def value {α : Type} [Scalar α] : ScaleKind → α
  | quarterCosine => Scalar.cos (Scalar.pi / Scalar.ofNat 4)
  | inverseCosine k period =>
      Scalar.ofNat 1 / Scalar.ofNat 2 /
        Scalar.cos (Scalar.pi * Scalar.ofNat (2 * k + 1) / Scalar.ofNat period)
  | dc order => Scalar.exp2 (-Scalar.ofNat order / Scalar.ofNat 2)
  | ac order => Scalar.exp2 ((Scalar.ofNat 1 - Scalar.ofNat order) / Scalar.ofNat 2)

def isOutputScale : ScaleKind → Bool
  | dc _ | ac _ => true
  | quarterCosine | inverseCosine _ _ => false

/-- Half of an integer in decimal. A whole result ends in `whole`. -/
def halfText (whole : String) (twice : Int) : String :=
  let sign := if twice < 0 then "-" else ""
  let rest := if twice % 2 = 0 then whole else ".5"
  s!"{sign}{twice.natAbs / 2}{rest}"

def formula : ScaleKind → String
  | quarterCosine => "cos(pi / 4)"
  | inverseCosine k period => s!"0.5 / cos(pi * {2 * k + 1} / {period})"
  | dc order => "2 ** " ++ halfText "" (-order)
  | ac order => "2 ** " ++ halfText "" (1 - order)

end ScaleKind

structure Scale (α : Type) where
  id : ScaleId
  kind : ScaleKind
  value : α

namespace Scale

def name {α : Type} (scale : Scale α) : String :=
  match scale.kind with
  | .dc _ => "D0"
  | .ac _ => "D1"
  | .quarterCosine | .inverseCosine _ _ => scale.id.text

def text {α : Type} (scale : Scale α) : String := s!"{scale.name} = {scale.kind.formula}"

end Scale

end PrunedCosine
