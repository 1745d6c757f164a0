/-! Finite sets of slot indices, kept as bits in 64-bit words. The view of a set is
`contains`; `toList` gives the members in ascending order. -/

namespace PrunedCosine

structure SlotSet where
  words : Array UInt64

namespace SlotSet

def bit (place : Nat) : UInt64 := 1 <<< UInt64.ofNat place

def wordContains (word : UInt64) (place : Nat) : Bool := word &&& bit place != 0

/-- The place of the lowest bit that is set in a word, 64 if there is none. -/
def lowestPlace (word : UInt64) : Nat := ((List.range 64).find? (wordContains word)).getD 64

def lowestPlaces : (count : Nat) → (word : UInt64) → List Nat
  | 0, _ => []
  | count + 1, word =>
      if word == 0 then []
      else lowestPlace word :: lowestPlaces count (word &&& (word - 1))

def wordPlaces (word : UInt64) : List Nat := lowestPlaces 64 word

def wordSize (word : UInt64) : Nat := (List.range 64).countP (wordContains word)

def withCapacity (capacity : Nat) : SlotSet := ⟨Array.replicate ((capacity + 63) / 64) 0⟩

def empty : SlotSet := ⟨#[]⟩

def contains (set : SlotSet) (index : Nat) : Bool :=
  match set.words[index / 64]? with
  | some word => wordContains word (index % 64)
  | none => false

def grown (words : Array UInt64) (size : Nat) : Array UInt64 :=
  if size ≤ words.size then words else words ++ Array.replicate (size - words.size) 0

/-- Inserts an index and tells whether it was absent before. -/
def add (set : SlotSet) (index : Nat) : Bool × SlotSet :=
  let words := grown set.words (index / 64 + 1)
  (!wordContains (words.getD (index / 64) 0) (index % 64),
    ⟨words.modify (index / 64) (· ||| bit (index % 64))⟩)

def insert (set : SlotSet) (index : Nat) : SlotSet := (set.add index).2

def insertAll (set : SlotSet) (indices : List Nat) : SlotSet := indices.foldl insert set

def ofList (indices : List Nat) : SlotSet := empty.insertAll indices

def union (first second : SlotSet) : SlotSet :=
  ⟨(grown first.words second.words.size).mapIdx fun place word =>
    word ||| second.words.getD place 0⟩

def membersFrom (start : Nat) : List UInt64 → List Nat
  | [] => []
  | word :: rest =>
      if word == 0 then membersFrom (start + 64) rest
      else (wordPlaces word).map (start + ·) ++ membersFrom (start + 64) rest

def toList (set : SlotSet) : List Nat := membersFrom 0 set.words.toList

def bitCount : List UInt64 → Nat
  | [] => 0
  | word :: rest => wordSize word + bitCount rest

def size (set : SlotSet) : Nat := bitCount set.words.toList

def isEmpty (set : SlotSet) : Bool := set.words.all (· == 0)

def shifted (set : SlotSet) (offset : Nat) : SlotSet := ofList (set.toList.map (· + offset))

/-- Sets are equal when they have the same members, whatever room they have. -/
def same (first second : SlotSet) : Bool := first.toList == second.toList

def text (set : SlotSet) : String :=
  "\x7b" ++ String.intercalate ", " (set.toList.map toString) ++ "\x7d"

end SlotSet

end PrunedCosine
