import PrunedCosine.Error
import PrunedCosine.Scale

/-! All scales of one order. The table is laid out before any planning: first the scales
of the differences, smallest blocks first, then the two output scales. The id of a scale
is its position. -/

namespace PrunedCosine

def maxOrder : Nat := 20

def checkOrder (order : Nat) : Except Error Unit :=
  if order < 1 then .error (.invalidParameter "order" order (.atLeast 1))
  else if order > maxOrder then .error (.invalidParameter "order" order (.atMost maxOrder))
  else .ok ()

structure ScaleTable (α : Type) where
  order : Nat
  entries : Array (Scale α)
  /-- What an id outside the table stands for. -/
  outside : α

namespace ScaleTable

def levelKinds (level : Nat) : List ScaleKind :=
  (List.range (blockSize level / 2)).map fun k => .inverseCosine k (2 * blockSize level)

def kinds (order : Nat) : List ScaleKind :=
  .quarterCosine :: (List.range' 2 (order - 1)).flatMap levelKinds ++ [.dc order, .ac order]

def ofOrder {α : Type} [Scalar α] (order : Nat) : ScaleTable α where
  order := order
  entries := (kinds order).toArray.mapIdx fun index kind => ⟨⟨index⟩, kind, kind.value⟩
  outside := Scalar.undefined

variable {α : Type}

def size (table : ScaleTable α) : Nat := table.entries.size

def isEmpty (table : ScaleTable α) : Bool := table.entries.isEmpty

def dc (table : ScaleTable α) : ScaleId := ⟨table.size - 2⟩

def ac (table : ScaleTable α) : ScaleId := ⟨table.size - 1⟩

def get? (table : ScaleTable α) (id : ScaleId) : Option (Scale α) := table.entries[id.index]?

def value (table : ScaleTable α) (id : ScaleId) : α :=
  match table.get? id with
  | some scale => scale.value
  | none => table.outside

/-- The name that stands for an id in a routine; an id outside the table is named like
the scale of a difference. -/
def nameOf (table : ScaleTable α) (id : ScaleId) : String :=
  match table.get? id with
  | some scale => scale.name
  | none => id.text

end ScaleTable

end PrunedCosine
