import PrunedCosine.Plan
import PrunedCosine.Proofs.SlotSet

/-! The memo does not show in what planning gives. A memo filled by planning holds only
lists of whole blocks, and with such a memo every block reads all of its inputs. -/

namespace PrunedCosine

def Memo.Complete (memo : Memo) : Prop :=
  ∀ order truncation places, memo.find? order truncation = some places →
    places = List.range (blockSize order)

theorem Memo.complete_empty : Memo.empty.Complete := by
  intro order truncation places found
  simp [Memo.find?, Memo.empty] at found

theorem Memo.find?_insert (memo : Memo) (order truncation : Nat) (places : List Nat)
    (otherOrder otherTruncation : Nat) :
    (memo.insert order truncation places).find? otherOrder otherTruncation =
      if otherOrder = order ∧ otherTruncation = truncation then some places
      else memo.find? otherOrder otherTruncation := by
  by_cases same : otherOrder = order ∧ otherTruncation = truncation
  · rw [if_pos same, same.1, same.2]
    simp [Memo.find?, Memo.insert]
  · have keys : ((otherOrder, otherTruncation) == (order, truncation)) = false := by
      simpa only [beq_eq_false_iff_ne, ne_eq, Prod.mk.injEq] using same
    rw [if_neg same, Memo.find?, Memo.insert, List.lookup_cons, keys]
    simp only [Memo.find?]
    induction memo.entries with
    | nil => rfl
    | cons entry rest ih =>
      by_cases replaced : entry.1 = (order, truncation)
      · rw [List.filter_cons_of_neg (by simpa using replaced), ih, List.lookup_cons, replaced, keys]
      · rw [List.filter_cons_of_pos (by simpa using replaced), List.lookup_cons, List.lookup_cons,
          ih]

theorem Memo.complete_insert {memo : Memo} (complete : memo.Complete) (order truncation : Nat) :
    (memo.insert order truncation (List.range (blockSize order))).Complete := by
  intro otherOrder otherTruncation places found
  rw [Memo.find?_insert] at found
  split at found
  · rename_i same
    rw [same.1]
    exact (Option.some.inj found).symm
  · exact complete _ _ _ found

namespace Session

/-- The action gives this value in every session with a complete memo, and leaves the memo
complete. -/
def Gives {α : Type} (action : StateM Session α) (value : α) : Prop :=
  ∀ session : Session, session.memo.Complete →
    (action session).1 = value ∧ (action session).2.memo.Complete

theorem gives_pure {α : Type} (value : α) : Gives (pure value) value :=
  fun _ complete => ⟨rfl, complete⟩

theorem Gives.bind {α β : Type} {action : StateM Session α} {next : α → StateM Session β}
    {value : α} {result : β} (first : Gives action value) (second : Gives (next value) result) :
    Gives (action >>= next) result := by
  intro session complete
  have reached := first session complete
  have finished := second (action session).2 reached.2
  rw [← reached.1] at finished
  exact finished

theorem gives_note (event : Event) : Gives (note event) () := fun _ complete => ⟨rfl, complete⟩

theorem gives_recordPlan (order : Nat) (truncation : Option Nat) (assignments : List Assignment) :
    Gives (recordPlan order truncation assignments) () := fun _ complete => ⟨rfl, complete⟩

theorem gives_store (order truncation : Nat) :
    Gives (store order truncation (List.range (blockSize order))) () :=
  fun _ complete => ⟨rfl, Memo.complete_insert complete order truncation⟩

end Session

open Session

theorem contains_mirrored (size : Nat) (places : List Nat) (index : Nat) :
    (mirrored size places).contains index =
      decide (∃ place ∈ places, index = place ∨ index = size - 1 - place) := by
  rw [mirrored, SlotSet.contains_insertAll, SlotSet.contains_withCapacity, Bool.or_false,
    decide_eq_decide, List.mem_flatMap]
  simp

/-- The inputs a block reads: all of them, or none if nothing is wanted. -/
def inputPlaces (order : Nat) : Option Nat → List Nat
  | none => []
  | some _ => List.range (blockSize order)

theorem mirrored_union_toList (half truncation : Nat) (odd : Option Nat) :
    ((mirrored (blockSize (half + 1)) (inputPlaces half (some truncation))).union
      (mirrored (blockSize (half + 1)) (inputPlaces half odd))).toList =
        List.range (blockSize (half + 1)) := by
  have positive := blockSize_pos half
  apply SlotSet.toList_eq_range
  intro index
  rw [SlotSet.contains_union, contains_mirrored, contains_mirrored, ← Bool.decide_or,
    decide_eq_decide]
  simp only [inputPlaces, List.mem_range, blockSize_succ]
  constructor
  · intro reached
    rcases reached with ⟨place, small, rfl | rfl⟩ | ⟨place, member, either⟩
    · omega
    · omega
    · have small : place < blockSize half := by
        cases odd with
        | none => simp at member
        | some _ => simpa [inputPlaces] using member
      omega
  · intro inside
    by_cases low : index < blockSize half
    · exact Or.inl ⟨index, low, Or.inl rfl⟩
    · exact Or.inl ⟨2 * blockSize half - 1 - index, by omega, Or.inr (by omega)⟩

theorem gives_requiredInputs (order : Nat) (truncation : Option Nat) :
    Gives (requiredInputs (order + 1) truncation) (inputPlaces (order + 1) truncation) := by
  induction order generalizing truncation with
  | zero =>
    cases truncation with
    | none => exact gives_pure []
    | some _ => exact gives_pure [0, 1]
  | succ order ih =>
    cases truncation with
    | none => exact gives_pure []
    | some last =>
      intro session complete
      rcases truncations : childTruncations (blockSize (order + 2)) last with ⟨even, odd⟩
      have computed : Gives (do
          let evenPlaces ← requiredInputs (order + 1) (some even)
          let oddPlaces ← requiredInputs (order + 1) odd
          let live := (mirrored (blockSize (order + 2)) evenPlaces).union
            (mirrored (blockSize (order + 2)) oddPlaces)
          note (.inputsRequired (order + 2) last live.toList.length (blockSize (order + 2)))
          store (order + 2) last live.toList
          pure live.toList) (List.range (blockSize (order + 2))) := by
        refine (ih _).bind ((ih _).bind ?_)
        dsimp only
        rw [mirrored_union_toList (order + 1) even odd]
        exact (gives_note _).bind ((gives_store _ _).bind (gives_pure _))
      cases found : session.memo.find? (order + 2) last with
      | some places =>
        have whole := complete _ _ _ found
        rw [requiredInputs]
        simp only [bind, StateT.bind, lookUp, found]
        exact ⟨whole, complete⟩
      | none =>
        rw [requiredInputs]
        simp only [bind, StateT.bind, lookUp, found, truncations]
        exact computed _ complete

end PrunedCosine
