import PrunedCosine.Proofs.SlotSet
import Mathlib.Data.Finset.Card
import Mathlib.Data.Finset.Image
import Mathlib.Logic.Function.Basic

/-! Slot sets are finite sets of indices. A history of named sets makes them, adds to them, unites
them and shifts them. Each step does to the sets what it means for the finite sets that they denote,
and every question about a set has the answer that its finite set gives, whatever its words. -/

namespace PrunedCosine

inductive SetStep (Name : Type) where
  | withCapacity (name : Name) (capacity : Nat)
  | ofList (name : Name) (indices : List Nat)
  | insert (name : Name) (index : Nat)
  /-- The second set goes into the first. -/
  | union (name other : Name)
  /-- The first name is given to the second set, shifted. -/
  | shifted (name other : Name) (offset : Nat)

namespace SetStep

variable {Name : Type}

def name : SetStep Name → Name
  | withCapacity name _ | ofList name _ | insert name _ | union name _ | shifted name _ _ => name

def result (sets : Name → SlotSet) : SetStep Name → SlotSet
  | withCapacity _ capacity => .withCapacity capacity
  | ofList _ indices => .ofList indices
  | insert name index => ((sets name).add index).2
  | union name other => (sets name).union (sets other)
  | shifted _ other offset => (sets other).shifted offset

def meaning (members : Name → Finset Nat) : SetStep Name → Finset Nat
  | withCapacity _ _ => ∅
  | ofList _ indices => indices.toFinset
  | insert name index => Insert.insert index (members name)
  | union name other => members name ∪ members other
  | shifted _ other offset => (members other).image (· + offset)

variable [DecidableEq Name]

def perform (sets : Name → SlotSet) (step : SetStep Name) : Name → SlotSet :=
  Function.update sets step.name (step.result sets)

def record (members : Name → Finset Nat) (step : SetStep Name) : Name → Finset Nat :=
  Function.update members step.name (step.meaning members)

def sets (steps : List (SetStep Name)) : Name → SlotSet := steps.foldl perform fun _ => .empty

def members (steps : List (SetStep Name)) : Name → Finset Nat := steps.foldl record fun _ => ∅

end SetStep

namespace SlotSet

def Denotes (set : SlotSet) (members : Finset Nat) : Prop :=
  ∀ index, set.contains index ↔ index ∈ members

namespace Denotes

variable {set other : SlotSet} {members otherMembers : Finset Nat}

theorem withCapacity (capacity : Nat) : (SlotSet.withCapacity capacity).Denotes ∅ := by
  intro index
  simp [contains_withCapacity]

theorem empty : SlotSet.empty.Denotes ∅ := withCapacity 0

theorem ofList (indices : List Nat) : (SlotSet.ofList indices).Denotes indices.toFinset := by
  intro index
  rw [contains_ofList, decide_eq_true_eq, List.mem_toFinset]

theorem insert (denotes : set.Denotes members) (added : Nat) :
    (set.insert added).Denotes (Insert.insert added members) := by
  intro index
  rw [contains_insert, Bool.or_eq_true, decide_eq_true_eq, denotes index, Finset.mem_insert]

theorem union (denotes : set.Denotes members) (otherDenotes : other.Denotes otherMembers) :
    (set.union other).Denotes (members ∪ otherMembers) := by
  intro index
  rw [contains_union, Bool.or_eq_true, denotes index, otherDenotes index, Finset.mem_union]

theorem shifted (denotes : set.Denotes members) (offset : Nat) :
    (set.shifted offset).Denotes (members.image (· + offset)) := by
  intro index
  rw [contains_shifted, Finset.mem_image]
  exact exists_congr fun member => and_congr_left' (denotes member)

theorem add_fst (denotes : set.Denotes members) (index : Nat) :
    (set.add index).1 ↔ index ∉ members := by
  rw [SlotSet.add_fst, Bool.not_eq_true', ← Bool.not_eq_true, denotes index]

theorem mem_toList (denotes : set.Denotes members) (index : Nat) :
    index ∈ set.toList ↔ index ∈ members :=
  (SlotSet.mem_toList set index).trans (denotes index)

theorem size_eq_card (denotes : set.Denotes members) : set.size = members.card := by
  have nodup : set.toList.Nodup := set.toList_ascending.imp Nat.ne_of_lt
  have listed : set.toList.toFinset = members := by
    ext index
    rw [List.mem_toFinset, denotes.mem_toList]
  rw [size_eq_length, ← List.toFinset_card_of_nodup nodup, listed]

theorem isEmpty_iff (denotes : set.Denotes members) : set.isEmpty ↔ members = ∅ := by
  rw [SlotSet.isEmpty_iff, Finset.eq_empty_iff_forall_notMem]
  refine forall_congr' fun index => ?_
  rw [← denotes index, Bool.not_eq_true]

/-- Sets are the same if they denote the same finite set: a list that ascends has no other order. -/
theorem same_iff (denotes : set.Denotes members) (otherDenotes : other.Denotes otherMembers) :
    set.same other ↔ members = otherMembers := by
  rw [same, beq_iff_eq]
  constructor
  · intro listed
    ext index
    rw [← denotes.mem_toList, ← otherDenotes.mem_toList, listed]
  · rintro rfl
    exact set.toList_ascending.eq_of_mem_iff other.toList_ascending fun index =>
      (denotes.mem_toList index).trans (otherDenotes.mem_toList index).symm

end Denotes

end SlotSet

namespace SetStep

variable {Name : Type}

theorem denotes_result {sets : Name → SlotSet} {members : Name → Finset Nat}
    (denote : ∀ name, (sets name).Denotes (members name)) (step : SetStep Name) :
    (step.result sets).Denotes (step.meaning members) := by
  cases step with
  | withCapacity name capacity => exact .withCapacity capacity
  | ofList name indices => exact .ofList indices
  | insert name index => exact (denote name).insert index
  | union name other => exact (denote name).union (denote other)
  | shifted name other offset => exact (denote other).shifted offset

variable [DecidableEq Name]

theorem denotes_perform {sets : Name → SlotSet} {members : Name → Finset Nat}
    (denote : ∀ name, (sets name).Denotes (members name)) (step : SetStep Name) (name : Name) :
    (perform sets step name).Denotes (record members step name) := by
  rw [perform, record]
  by_cases same : name = step.name
  · subst same
    rw [Function.update_self, Function.update_self]
    exact denotes_result denote step
  · rw [Function.update_of_ne same, Function.update_of_ne same]
    exact denote name

theorem denotes_foldl (steps : List (SetStep Name)) {sets : Name → SlotSet}
    {members : Name → Finset Nat} (denote : ∀ name, (sets name).Denotes (members name))
    (name : Name) : (steps.foldl perform sets name).Denotes (steps.foldl record members name) := by
  induction steps generalizing sets members with
  | nil => exact denote name
  | cons step rest ih => exact ih (denotes_perform denote step)

theorem denotes_sets (steps : List (SetStep Name)) (name : Name) :
    (sets steps name).Denotes (members steps name) :=
  denotes_foldl steps (fun _ => .empty) name

end SetStep

/-- After any history a set is the finite set that the history means, for every question that it
answers. -/
theorem slot_sets_are_finite_sets {Name : Type} [DecidableEq Name] (steps : List (SetStep Name))
    (name : Name) :
    (∀ index, (SetStep.sets steps name).contains index ↔ index ∈ SetStep.members steps name) ∧
    (∀ index, ((SetStep.sets steps name).add index).1 ↔ index ∉ SetStep.members steps name) ∧
    (SetStep.sets steps name).size = (SetStep.members steps name).card ∧
    ((SetStep.sets steps name).isEmpty ↔ SetStep.members steps name = ∅) ∧
    (SetStep.sets steps name).toList.Pairwise (· < ·) ∧
    (∀ index, index ∈ (SetStep.sets steps name).toList ↔ index ∈ SetStep.members steps name) ∧
    ∀ (others : List (SetStep Name)) (other : Name),
      (SetStep.sets steps name).same (SetStep.sets others other) ↔
        SetStep.members steps name = SetStep.members others other := by
  have denotes := SetStep.denotes_sets steps name
  exact ⟨denotes, denotes.add_fst, denotes.size_eq_card, denotes.isEmpty_iff,
    (SetStep.sets steps name).toList_ascending, denotes.mem_toList,
    fun others other => denotes.same_iff (SetStep.denotes_sets others other)⟩

end PrunedCosine
