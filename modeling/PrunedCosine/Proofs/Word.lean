import PrunedCosine.Proofs.Cosine
import PrunedCosine.Proofs.Execution
import PrunedCosine.Proofs.Interleave

/-! Planning in words. Here every index, size and id is worked out by operations that have no
result where a word would overflow or fall below zero. Sets of places and the assignments of a
block come out as they do without words, as long as the block ends before the last word. -/

namespace PrunedCosine

namespace Word

def add (first second : Nat) : Option Nat :=
  if first + second < wordCount then some (first + second) else none

def mul (first second : Nat) : Option Nat :=
  if first * second < wordCount then some (first * second) else none

def sub (first second : Nat) : Option Nat :=
  if second ≤ first then some (first - second) else none

def shift (places : Nat) : Option Nat := if places < 64 then some (blockSize places) else none

/-- The value as a 32-bit word, if it is one. -/
def narrow (value : Nat) : Option Nat := if value < shortWordCount then some value else none

theorem add_eq {first second : Nat} (fits : first + second < wordCount) :
    add first second = some (first + second) := if_pos fits

theorem mul_eq {first second : Nat} (fits : first * second < wordCount) :
    mul first second = some (first * second) := if_pos fits

theorem sub_eq {first second : Nat} (below : second ≤ first) :
    sub first second = some (first - second) := if_pos below

theorem shift_eq {places : Nat} (fits : places < 64) : shift places = some (blockSize places) :=
  if_pos fits

theorem places_lt {places : Nat} (fits : blockSize places < wordCount) : places < 64 := by
  rw [blockSize_eq_pow] at fits
  exact (Nat.pow_lt_pow_iff_right (by decide)).mp (fits : 2 ^ places < 2 ^ 64)

theorem shift_size {places : Nat} (fits : blockSize places < wordCount) :
    shift places = some (blockSize places) :=
  shift_eq (places_lt fits)

theorem narrow_eq {value : Nat} (fits : value < shortWordCount) : narrow value = some value :=
  if_pos fits

end Word

theorem foldlM_eq_some {ι σ : Type} {list : List ι} {step : σ → ι → Option σ} {next : σ → ι → σ}
    (steps : ∀ item ∈ list, ∀ state, step state item = some (next state item)) (start : σ) :
    list.foldlM step start = some (list.foldl next start) := by
  induction list generalizing start with
  | nil => rfl
  | cons first rest ih =>
    obtain ⟨here, later⟩ := List.forall_mem_cons.mp steps
    rw [List.foldlM_cons, here]
    exact ih later _

namespace Guarded

section Sets

/-- Inserts an index. The set must have words up to the one that holds it, and the index is a
place in that word. -/
def insert (set : SlotSet) (index : Nat) : Option SlotSet := do
  let _ ← Word.add (index / 64) 1
  let _ ← Word.shift (index % 64)
  pure (set.insert index)

def ofList (indices : List Nat) : Option SlotSet := indices.foldlM insert .empty

def membersFrom (position : Nat) : List UInt64 → Option (List Nat)
  | [] => pure []
  | word :: rest => do
      let here ← (SlotSet.wordPlaces word).mapM fun place => do
        let start ← Word.mul position 64
        Word.add start place
      let others ← membersFrom (position + 1) rest
      pure (here ++ others)

def toList (set : SlotSet) : Option (List Nat) := membersFrom 0 set.words.toList

def shifted (set : SlotSet) (offset : Nat) : Option SlotSet := do
  let members ← toList set
  let moved ← members.mapM fun index => Word.add index offset
  ofList moved

theorem insert_eq {index : Nat} (word : index < wordCount) (set : SlotSet) :
    insert set index = some (set.insert index) := by
  have room : index / 64 + 1 < wordCount := by
    unfold wordCount at word ⊢
    omega
  rw [insert, Word.add_eq room, Word.shift_eq (Nat.mod_lt _ (by decide))]
  rfl

theorem ofList_eq {indices : List Nat} (words : ∀ index ∈ indices, index < wordCount) :
    ofList indices = some (.ofList indices) :=
  foldlM_eq_some (fun index member set => insert_eq (words index member) set) .empty

theorem membersFrom_eq {position : Nat} {list : List UInt64}
    (words : ∀ index ∈ SlotSet.membersFrom (64 * position) list, index < wordCount) :
    membersFrom position list = some (SlotSet.membersFrom (64 * position) list) := by
  induction list generalizing position with
  | nil => rfl
  | cons word rest ih =>
    rw [SlotSet.membersFrom_cons] at words ⊢
    rw [List.forall_mem_append] at words
    have here : ((SlotSet.wordPlaces word).mapM fun place => do
        let start ← Word.mul position 64
        Word.add start place) =
          some ((SlotSet.wordPlaces word).map (64 * position + ·)) := by
      apply mapM_eq_pure
      intro place member
      have fits := words.1 _ (List.mem_map_of_mem member)
      rw [Word.mul_eq (by omega), Nat.mul_comm position 64]
      exact Word.add_eq fits
    have others := @ih (position + 1) words.2
    rw [membersFrom, here, others]
    rfl

theorem toList_eq {set : SlotSet} (words : ∀ index ∈ set.toList, index < wordCount) :
    toList set = some set.toList :=
  membersFrom_eq words

theorem shifted_eq {set : SlotSet} {offset : Nat}
    (words : ∀ index ∈ set.toList, index + offset < wordCount) :
    shifted set offset = some (set.shifted offset) := by
  have members := toList_eq fun index member =>
    (Nat.le_add_right index offset).trans_lt (words index member)
  have moved : (set.toList.mapM fun index => Word.add index offset) =
      some (set.toList.map (· + offset)) :=
    mapM_eq_pure fun index member => Word.add_eq (words index member)
  rw [shifted, members]
  show ((set.toList.mapM fun index => Word.add index offset) >>= ofList) = _
  rw [moved]
  apply ofList_eq
  intro index member
  obtain ⟨place, inside, rfl⟩ := List.mem_map.mp member
  exact words place inside

def mirrored (size : Nat) (places : List Nat) : Option SlotSet :=
  places.foldlM (fun set place => do
    let set ← insert set place
    let top ← Word.sub size 1
    let image ← Word.sub top place
    insert set image) (SlotSet.withCapacity size)

theorem mirrored_eq {size : Nat} (word : size < wordCount) {places : List Nat}
    (inside : ∀ place ∈ places, place < size) :
    mirrored size places = some (PrunedCosine.mirrored size places) := by
  rw [PrunedCosine.mirrored, SlotSet.insertAll, List.foldl_flatMap]
  apply foldlM_eq_some
  intro place member set
  have small := inside place member
  rw [insert_eq (by omega), Word.sub_eq (by omega)]
  show (Word.sub (size - 1) place >>= insert (set.insert place)) = _
  rw [Word.sub_eq (by omega)]
  exact insert_eq (by omega) _

end Sets

def childTruncations (size truncation : Nat) : Option (Nat × Option Nat) := do
  let half := size / 2
  if truncation < 1 then pure (truncation / 2, none)
  else
    let next ← Word.add truncation 1
    let most ← Word.sub half 1
    pure (truncation / 2, some (min (next / 2) most))

theorem childTruncations_eq {half truncation : Nat} (word : blockSize (half + 1) < wordCount)
    (bound : truncation < blockSize (half + 1)) :
    childTruncations (blockSize (half + 1)) truncation =
      some (PrunedCosine.childTruncations (blockSize (half + 1)) truncation) := by
  have positive := blockSize_pos half
  rw [childTruncations_of_lt bound, childTruncations]
  rw [blockSize_succ] at word bound ⊢
  by_cases none : truncation = 0
  · rw [if_pos none, none]
    rfl
  · rw [if_neg none, Word.add_eq (by omega), Word.sub_eq (by omega)]
    exact if_neg (by omega)

section Block

def backward (base size place : Nat) : Option Nat := do
  let stop ← Word.add base size
  let last ← Word.sub stop 1
  Word.sub last place

def ofDifference (size k : Nat) : Option ScaleId := do
  let start ← Word.sub (size / 2) 1
  let index ← Word.add start k
  let id ← Word.narrow index
  pure ⟨id⟩

def openingSum (order base size : Nat) (source : Buffer) (place : Nat) : Option Assignment := do
  let first ← Word.add base place
  let last ← backward base size place
  pure
    { destination := ⟨source.other, first⟩,
      expression := .combine .plus ⟨source, first⟩ ⟨source, last⟩ none,
      order := order,
      stage := .butterfly }

def openingDifference (order base size : Nat) (source : Buffer) (place : Nat) :
    Option Assignment := do
  let middle ← Word.add base (size / 2)
  let target ← Word.add middle place
  let first ← Word.add base place
  let last ← backward base size place
  let scale ← ofDifference size place
  pure
    { destination := ⟨source.other, target⟩,
      expression := .combine .minus ⟨source, first⟩ ⟨source, last⟩ (some scale),
      order := order,
      stage := .butterfly }

def pair (base truncation : Nat) (source : Buffer) : Option (List Assignment) := do
  let second ← Word.add base 1
  let sum : Assignment :=
    { destination := ⟨source.other, base⟩,
      expression := .combine .plus ⟨source, base⟩ ⟨source, second⟩ none,
      order := 1,
      stage := .butterfly }
  let difference : Assignment :=
    { destination := ⟨source.other, second⟩,
      expression := .combine .minus ⟨source, base⟩ ⟨source, second⟩ (some .quarterCosine),
      order := 1,
      stage := .butterfly }
  if truncation < 1 then pure [sum] else pure [sum, difference]

def copyOf (order : Nat) (source : Buffer) (target index : Nat) : Assignment :=
  { destination := ⟨source.other, target⟩,
    expression := .copy ⟨source, index⟩,
    order := order,
    stage := .interleave }

def interleaveEnd (order base truncation size : Nat) (source : Buffer) :
    Option (List Assignment) := do
  let beforeLast ← Word.sub size 2
  if truncation < beforeLast then pure []
  else
    let stop ← Word.add base size
    let target ← Word.sub stop 2
    let middle ← Word.add base (size / 2)
    let index ← Word.sub middle 1
    let copy := copyOf order source target index
    let last ← Word.sub size 1
    if truncation < last then pure [copy]
    else
      let target ← Word.sub stop 1
      pure [copy, copyOf order source target target]

def interleaveFrom (order base truncation size : Nat) (source : Buffer) :
    (j count : Nat) → Option (List Assignment)
  | _, 0 => interleaveEnd order base truncation size source
  | j, count + 1 => do
      let even ← Word.mul 2 j
      if truncation < even then pure []
      else
        let target ← Word.add base even
        let index ← Word.add base j
        let copy := copyOf order source target index
        let odd ← Word.add even 1
        if truncation < odd then pure [copy]
        else
          let next ← Word.add target 1
          let middle ← Word.add base (size / 2)
          let left ← Word.add middle j
          let right ← Word.add left 1
          let sum : Assignment :=
            { destination := ⟨source.other, next⟩,
              expression := .combine .plus ⟨source, left⟩ ⟨source, right⟩ none,
              order := order,
              stage := .interleave }
          let rest ← interleaveFrom order base truncation size source (j + 1) count
          pure (copy :: sum :: rest)

def interleave (order base truncation : Nat) (source : Buffer) : Option (List Assignment) := do
  let size ← Word.shift order
  let count ← Word.sub (size / 2) 1
  interleaveFrom order base truncation size source 0 count

theorem blockSize_half (half : Nat) : blockSize (half + 1) / 2 = blockSize half := by
  rw [blockSize_succ]
  omega

variable {half base : Nat} (fits : base + blockSize (half + 1) < wordCount)

include fits

theorem backward_eq {place : Nat} (inside : place < blockSize half) :
    backward base (blockSize (half + 1)) place = some (base + 2 * blockSize half - 1 - place) := by
  rw [blockSize_succ] at fits ⊢
  rw [backward, Word.add_eq fits, Option.bind_eq_bind, Option.bind_some, Word.sub_eq (by omega),
    Option.bind_some]
  exact Word.sub_eq (by omega)

omit fits in
-- a block that ends beyond the last word
example : backward (wordCount - 4) 8 0 = none := by decide

theorem openingSum_eq {place : Nat} (inside : place < blockSize half) (source : Buffer) :
    openingSum (half + 1) base (blockSize (half + 1)) source place =
      some (Block.openingSum (half + 1) base source place) := by
  have last := backward_eq fits inside
  rw [blockSize_succ] at fits
  rw [Block.openingSum_eq inside, openingSum, Word.add_eq (by omega), last]
  rfl

theorem openingDifference_eq {place : Nat} (inside : place < blockSize half)
    (short : blockSize half ≤ shortWordCount / 2) (source : Buffer) :
    openingDifference (half + 1) base (blockSize (half + 1)) source place =
      some (Block.openingDifference (half + 1) base source place) := by
  have last := backward_eq fits inside
  have scale : ofDifference (blockSize (half + 1)) place =
      some ⟨blockSize half - 1 + place⟩ := by
    have limit : shortWordCount < wordCount := by decide
    rw [ofDifference, blockSize_half, Word.sub_eq (by omega), Option.bind_eq_bind, Option.bind_some,
      Word.add_eq (by omega), Option.bind_some, Word.narrow_eq (by omega)]
    rfl
  rw [blockSize_succ] at fits
  rw [Block.openingDifference_eq inside, openingDifference, blockSize_half, Word.add_eq (by omega),
    Option.bind_eq_bind, Option.bind_some, Word.add_eq (by omega), Word.add_eq (by omega), last,
    scale]
  rfl

theorem interleaveEnd_eq (truncation : Nat) (source : Buffer) :
    interleaveEnd (half + 1) base truncation (blockSize (half + 1)) source =
      some (Block.boundary (half + 1) base source truncation) := by
  have positive := blockSize_pos half
  rw [blockSize_succ] at fits
  have target : base + 2 * blockSize half - 2 = base + 2 * (blockSize half - 1) := by omega
  have index : base + blockSize half - 1 = base + (blockSize half - 1) := by omega
  have stop : base + 2 * blockSize half - 1 = base + (2 * blockSize half - 1) := by omega
  rw [interleaveEnd, Block.boundary, blockSize_half, blockSize_succ, Word.sub_eq (by omega),
    Option.bind_eq_bind, Option.bind_some]
  by_cases before : truncation < 2 * blockSize half - 2
  · rw [if_pos before, if_pos before]
    rfl
  · rw [if_neg before, if_neg before, Word.add_eq fits, Option.bind_some, Word.sub_eq (by omega),
      Option.bind_some, Word.add_eq (by omega), Option.bind_some, Word.sub_eq (by omega),
      Option.bind_some, Word.sub_eq (by omega), Option.bind_some, target, index]
    by_cases last : truncation < 2 * blockSize half - 1
    · rw [if_pos last, if_pos last]
      rfl
    · rw [if_neg last, if_neg last, Word.sub_eq (by omega), Option.bind_some, stop]
      rfl

theorem interleaveFrom_eq (truncation : Nat) (source : Buffer) {j count : Nat}
    (rest : j + count + 1 = blockSize half) :
    interleaveFrom (half + 1) base truncation (blockSize (half + 1)) source j count =
      some (Block.outputsFrom (half + 1) base source truncation j count) := by
  induction count generalizing j with
  | zero => exact interleaveEnd_eq fits truncation source
  | succ count ih =>
    have later := @ih (j + 1) (by omega)
    rw [blockSize_succ] at fits
    rw [interleaveFrom, Block.outputsFrom, Word.mul_eq (by omega), Option.bind_eq_bind,
      Option.bind_some]
    by_cases before : truncation < 2 * j
    · rw [if_pos before, if_pos before]
      rfl
    · rw [if_neg before, if_neg before, Word.add_eq (by omega), Option.bind_some,
        Word.add_eq (by omega), Option.bind_some, Word.add_eq (by omega), Option.bind_some]
      by_cases last : truncation < 2 * j + 1
      · rw [if_pos last, if_pos last]
        rfl
      · rw [if_neg last, if_neg last, blockSize_half, Word.add_eq (by omega), Option.bind_some,
          Word.add_eq (by omega), Option.bind_some, Word.add_eq (by omega), Option.bind_some,
          Word.add_eq (by omega), Option.bind_some, later]
        rfl

theorem interleave_eq (truncation : Nat) (source : Buffer) :
    interleave (half + 1) base truncation source =
      some (Block.interleave (half + 1) base truncation source) := by
  have positive := blockSize_pos half
  rw [interleave, Word.shift_size (by omega), Option.bind_eq_bind, Option.bind_some,
    blockSize_half, Word.sub_eq positive, Option.bind_some,
    interleaveFrom_eq fits truncation source (by omega), Block.interleave_eq_outputsFrom]

omit fits in
theorem pair_eq (fits : base + 2 < wordCount) (truncation : Nat) (source : Buffer) :
    pair base truncation source = some (Block.pair base truncation source) := by
  rw [pair, Word.add_eq (by omega), Block.pair, Option.bind_eq_bind, Option.bind_some]
  by_cases none : truncation = 0
  · rw [if_pos none, if_pos (by omega)]
    rfl
  · rw [if_neg none, if_neg (by omega)]
    rfl

end Block

end Guarded

end PrunedCosine
