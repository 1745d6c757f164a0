import PrunedCosine.Proofs.Checked

/-! The dependency check and the run look for the same thing. Where a list of assignments is not
grounded, it has a first read of an unknown slot: the check reports that read before all others,
and the run stops at it. -/

namespace PrunedCosine

/-- The first read of a slot that is not known, neither from the start nor from an earlier write,
is that of `slot`. -/
def FirstUnknown (slot : Slot) : List Assignment → Set Slot → Prop
  | [], _ => False
  | assignment :: rest, known =>
      (∃ earlier later, assignment.sources = earlier ++ slot :: later ∧
        (∀ other ∈ earlier, other ∈ known) ∧ slot ∉ known) ∨
      (∀ other ∈ assignment.sources, other ∈ known) ∧
        FirstUnknown slot rest (insert assignment.destination known)

theorem exists_first_outside {slots : List Slot} {known : Set Slot}
    (outside : ¬∀ slot ∈ slots, slot ∈ known) :
    ∃ earlier slot later, slots = earlier ++ slot :: later ∧
      (∀ other ∈ earlier, other ∈ known) ∧ slot ∉ known := by
  induction slots with
  | nil => simp at outside
  | cons slot rest ih =>
    by_cases here : slot ∈ known
    · have later : ¬∀ other ∈ rest, other ∈ known :=
        fun all => outside (List.forall_mem_cons.mpr ⟨here, all⟩)
      obtain ⟨earlier, first, others, split, before, unknown⟩ := ih later
      refine ⟨slot :: earlier, first, others, ?_, ?_, unknown⟩
      · rw [split, List.cons_append]
      · exact List.forall_mem_cons.mpr ⟨here, before⟩
    · exact ⟨[], slot, rest, rfl, by simp, here⟩

theorem grounded_or_firstUnknown (assignments : List Assignment) (known : Set Slot) :
    Grounded assignments known ∨ ∃ slot, FirstUnknown slot assignments known := by
  induction assignments generalizing known with
  | nil => exact Or.inl trivial
  | cons assignment rest ih =>
    by_cases readable : ∀ slot ∈ assignment.sources, slot ∈ known
    · rcases ih (insert assignment.destination known) with grounded | ⟨slot, first⟩
      · exact Or.inl ⟨readable, grounded⟩
      · exact Or.inr ⟨slot, Or.inr ⟨readable, first⟩⟩
    · obtain ⟨earlier, slot, later, split, before, unknown⟩ := exists_first_outside readable
      exact Or.inr ⟨slot, Or.inl ⟨earlier, later, split, before, unknown⟩⟩

namespace Plan

section Dependency

variable (plan : Plan)

theorem dependency_extends (entries : List (Assignment × Nat)) (state : Slots × Array Defect) :
    ∃ more, (entries.foldl plan.dependencyStep state).2.toList = state.2.toList ++ more := by
  induction entries generalizing state with
  | nil => exact ⟨[], (List.append_nil _).symm⟩
  | cons entry rest ih =>
    obtain ⟨more, found⟩ := ih (plan.dependencyStep state entry)
    rw [List.foldl_cons, found, dependencyStep, Array.toList_append, List.append_assoc]
    exact ⟨_, rfl⟩

theorem readable_iff {known : Set Slot} {slots : Slots}
    (same : ∀ slot, plan.isInput slot ∨ slot ∈ slots ↔ slot ∈ known) (slot : Slot) :
    (plan.isInput slot || slots.contains slot) = true ↔ slot ∈ known := by
  rw [Bool.or_eq_true, Std.TreeSet.contains_iff_mem, same]

theorem unreadable_eq_nil {known : Set Slot} {slots : Slots}
    (same : ∀ slot, plan.isInput slot ∨ slot ∈ slots ↔ slot ∈ known) {reads : List Slot}
    (readable : ∀ slot ∈ reads, slot ∈ known) :
    (reads.filter fun slot => !(plan.isInput slot || slots.contains slot)) = [] := by
  rw [List.filter_eq_nil_iff]
  intro slot member
  rw [(plan.readable_iff same slot).mpr (readable slot member)]
  decide

theorem dependency_firstUnknown {assignments : List Assignment} {known : Set Slot} {slots : Slots}
    (same : ∀ slot, plan.isInput slot ∨ slot ∈ slots ↔ slot ∈ known) (found : Array Defect)
    (start : Nat) {slot : Slot} (first : FirstUnknown slot assignments known) :
    ∃ position more,
      ((assignments.zipIdx start).foldl plan.dependencyStep (slots, found)).2.toList =
        found.toList ++ .unwrittenSource position slot :: more := by
  induction assignments generalizing known slots found start with
  | nil => exact first.elim
  | cons assignment rest ih =>
    rw [List.zipIdx_cons, List.foldl_cons]
    rcases first with ⟨earlier, later, split, before, unknown⟩ | ⟨readable, first⟩
    · have reported : (!(plan.isInput slot || slots.contains slot)) = true := by
        rw [Bool.not_eq_true', Bool.eq_false_iff]
        exact fun readable => unknown ((plan.readable_iff same slot).mp readable)
      have unreadable : (assignment.sources.filter
          fun other => !(plan.isInput other || slots.contains other)) =
            slot :: later.filter fun other => !(plan.isInput other || slots.contains other) := by
        rw [split, List.filter_append, plan.unreadable_eq_nil same before, List.nil_append,
          List.filter_cons, if_pos reported]
      obtain ⟨more, extended⟩ := plan.dependency_extends (rest.zipIdx (start + 1))
        (plan.dependencyStep (slots, found) (assignment, start))
      rw [extended, dependencyStep, unreadable, List.map_cons, Array.toList_append,
        List.append_assoc]
      exact ⟨start, _, rfl⟩
    · have next : ∀ other, plan.isInput other ∨ other ∈ slots.insert assignment.destination ↔
          other ∈ insert assignment.destination known := by
        intro other
        rw [Slots.mem_insert, Set.mem_insert_iff, ← same, or_left_comm]
      rw [dependencyStep, plan.unreadable_eq_nil same readable, List.map_nil, Array.append_empty]
      exact ih next found (start + 1) first

end Dependency

end Plan

namespace Buffers

variable {α : Type} [Add α] [Sub α] [Mul α] (table : ScaleTable α)

/-- Of the slots in question those that are not known hold no value. -/
def Lacks (buffers : Buffers α) (slots known : Set Slot) : Prop :=
  ∀ slot ∈ slots, slot ∉ known → buffers.read slot = .error (.unwrittenSlot slot)

omit [Add α] [Sub α] [Mul α] in
theorem Put.lacks {buffers after : Buffers α} {slots known : Set Slot} {slot : Slot} {value : α}
    (lacks : buffers.Lacks slots known) (written : buffers.Put slot value after)
    (room : buffers.Has slot) : after.Lacks slots (insert slot known) := by
  intro other member unknown
  rw [Set.mem_insert_iff, not_or] at unknown
  rw [written.read room, if_neg unknown.1]
  exact lacks other member unknown.2

theorem value_of_unknown {buffers : Buffers α} {memory : Memory α} {known : Set Slot}
    (holds : buffers.Holds memory known) {expression : Expression} {earlier later : List Slot}
    {slot : Slot} (split : expression.sources = earlier ++ slot :: later)
    (before : ∀ other ∈ earlier, other ∈ known)
    (stops : buffers.read slot = .error (.unwrittenSlot slot)) :
    buffers.value table expression = .error (.unwrittenSlot slot) := by
  cases expression with
  | copy source =>
    obtain ⟨rfl, same⟩ := List.append_eq_singleton_iff.mp split.symm |>.resolve_right (by simp)
    cases same
    exact stops
  | combine sign left right scale =>
    rcases earlier with _ | ⟨first, _ | ⟨second, rest⟩⟩
    · cases split
      rw [value, stops]
      rfl
    · cases split
      rw [value, holds left (before left (List.mem_cons_self ..)), stops]
      rfl
    · have lengths := congrArg List.length split
      simp [Expression.sources] at lengths

theorem steps_of_firstUnknown {buffers : Buffers α} {memory : Memory α} {known slots : Set Slot}
    (holds : buffers.Holds memory known) (lacks : buffers.Lacks slots known)
    {assignments : List Assignment}
    (reads : ∀ assignment ∈ assignments, ∀ slot ∈ assignment.sources, slot ∈ slots)
    (room : ∀ assignment ∈ assignments, buffers.Has assignment.destination) {slot : Slot}
    (first : FirstUnknown slot assignments known) :
    buffers.steps table assignments = .error (.unwrittenSlot slot) := by
  induction assignments generalizing buffers memory known with
  | nil => exact first.elim
  | cons assignment rest ih =>
    obtain ⟨readsHere, readsLater⟩ := List.forall_mem_cons.mp reads
    obtain ⟨roomHere, roomLater⟩ := List.forall_mem_cons.mp room
    rw [steps, List.foldlM_cons]
    rcases first with ⟨earlier, later, split, before, unknown⟩ | ⟨readable, first⟩
    · have member : slot ∈ assignment.sources := by
        rw [split]
        exact List.mem_append_right _ (List.mem_cons_self ..)
      rw [step, value_of_unknown table holds split before
        (lacks slot (readsHere slot member) unknown)]
      rfl
    · obtain ⟨after, stepped, holdsAfter, same⟩ := step_of_holds table holds readable roomHere
      obtain ⟨value, _, written⟩ := ok_of_bind stepped
      have lacksAfter := (put_of_write written).2.lacks lacks roomHere
      rw [stepped]
      exact ih holdsAfter lacksAfter readsLater
        (fun other inside => (same _).mpr (roomLater other inside)) first

end Buffers

namespace Plan

/-- The slots that hold a value at the start for the check and for the run alike, if they are
inputs at all: the check leaves out those before the base. -/
def fairSlots (plan : Plan) : Set Slot :=
  {slot | slot.index < plan.bufferLength ∧ (slot.buffer = .input → plan.base ≤ slot.index)}

theorem isInput_subset_filled (plan : Plan) {slot : Slot} (given : plan.isInput slot) :
    slot ∈ filled plan.bufferLength := by
  obtain ⟨buffer, _, most⟩ := (isInput_iff plan slot).mp given
  exact ⟨buffer, most⟩

theorem ofInput_lacks {α : Type} (plan : Plan) {input : List α}
    (length : input.length = plan.bufferLength) :
    (Buffers.ofInput input).Lacks plan.fairSlots {slot | plan.isInput slot} := by
  intro slot fair unknown
  rcases slot with ⟨_ | _, index⟩
  · exact absurd ((isInput_iff plan _).mpr ⟨rfl, fair.2 rfl, fair.1⟩) unknown
  · have inside : index < input.length := length ▸ fair.1
    simp [Buffers.read, Buffers.contents, Buffers.ofInput, inside]

end Plan

/-- Where the slots lie inside the buffers and no input before the base is read, the run stops at
a slot that holds no value exactly if the dependency check finds something, and then at the slot
that is found first; if the check finds nothing, the run goes to its end. -/
theorem runUnscaled_stops_at_first_defect {α : Type} [Add α] [Sub α] [Mul α] {plan : Plan}
    {table : ScaleTable α} (matching : table.order = plan.order) {input : List α}
    (length : input.length = plan.bufferLength)
    (inside : ∀ assignment ∈ plan.assignments,
      assignment.destination.index < plan.bufferLength ∧
        ∀ slot ∈ assignment.sources, slot.index < plan.bufferLength)
    (based : ∀ assignment ∈ plan.assignments, ∀ slot ∈ assignment.sources,
      ¬(slot.buffer = .input ∧ slot.index < plan.base)) :
    plan.matchTable table = .ok () ∧
      ((∃ slot, plan.runUnscaled table input = .error (.unwrittenSlot slot)) ↔
        plan.dependencyDefects ≠ []) ∧
      (∀ slot, plan.runUnscaled table input = .error (.unwrittenSlot slot) →
        ∃ position, plan.dependencyDefects.head? = some (.unwrittenSource position slot)) ∧
      (plan.dependencyDefects = [] → ∃ work, plan.runUnscaled table input = .ok work) := by
  have size : input.length = plan.base + blockSize plan.order := length
  obtain ⟨memory, starts⟩ := Memory.exists_starts size
  have holds : (Buffers.ofInput input).Holds memory {slot | plan.isInput slot} := by
    intro slot given
    apply Buffers.ofInput_holds starts
    rw [length]
    exact plan.isInput_subset_filled given
  have room : ∀ assignment ∈ plan.assignments,
      (Buffers.ofInput input).Has assignment.destination := by
    intro assignment member
    rw [Buffers.ofInput_has, length]
    exact (inside assignment member).1
  have reads : ∀ assignment ∈ plan.assignments, ∀ slot ∈ assignment.sources,
      slot ∈ plan.fairSlots := by
    intro assignment member slot read
    refine ⟨(inside assignment member).2 slot read, fun buffer => Nat.le_of_not_lt fun low => ?_⟩
    exact based assignment member slot read ⟨buffer, low⟩
  refine ⟨if_pos matching, ?_⟩
  rcases grounded_or_firstUnknown plan.assignments {slot | plan.isInput slot} with
    grounded | ⟨slot, first⟩
  · have clean := plan.dependencyDefects_eq_nil grounded
    obtain ⟨final, finished, _⟩ := Buffers.steps_of_grounded table holds grounded room
    have ran : plan.runUnscaled table input = .ok final.work := by
      rw [Plan.runUnscaled, Plan.execute, if_pos length, finished]
      rfl
    rw [ran, clean]
    simp
  · have start : ∀ slot, plan.isInput slot ∨ slot ∈ (.empty : Slots) ↔
        slot ∈ {slot | plan.isInput slot} :=
      fun slot => or_iff_left Std.TreeSet.not_mem_emptyc
    obtain ⟨position, more, found⟩ := plan.dependency_firstUnknown start #[] 0 first
    have reported : plan.dependencyDefects = .unwrittenSource position slot :: more := found
    have stopped : plan.runUnscaled table input = .error (.unwrittenSlot slot) := by
      rw [Plan.runUnscaled, Plan.execute, if_pos length,
        Buffers.steps_of_firstUnknown table holds (plan.ofInput_lacks length) reads room first]
      rfl
    rw [stopped, reported]
    simp

def hastyPlan : Plan where
  order := 1
  base := 1
  truncation := some 1
  live := .ofList [1, 2]
  assignments :=
    [{ destination := ⟨.work, 1⟩,
       expression := .combine .plus ⟨.input, 1⟩ ⟨.input, 2⟩ none,
       order := 1,
       stage := .butterfly },
     { destination := ⟨.work, 2⟩,
       expression := .combine .minus ⟨.work, 1⟩ ⟨.work, 0⟩ (some ⟨0⟩),
       order := 1,
       stage := .butterfly },
     { destination := ⟨.work, 0⟩,
       expression := .copy ⟨.work, 0⟩,
       order := 1,
       stage := .interleave }]

theorem runUnscaled_stops_at_first_defect_hasty :
    (ScaleTable.ofOrder 1 : ScaleTable Float).order = hastyPlan.order ∧
      ([7, 3, 4] : List Float).length = hastyPlan.bufferLength ∧
      (∀ assignment ∈ hastyPlan.assignments,
        assignment.destination.index < hastyPlan.bufferLength ∧
          ∀ slot ∈ assignment.sources, slot.index < hastyPlan.bufferLength) ∧
      (∀ assignment ∈ hastyPlan.assignments, ∀ slot ∈ assignment.sources,
        ¬(slot.buffer = .input ∧ slot.index < hastyPlan.base)) ∧
      hastyPlan.dependencyDefects =
        [.unwrittenSource 1 ⟨.work, 0⟩, .unwrittenSource 2 ⟨.work, 0⟩] ∧
      hastyPlan.runUnscaled (.ofOrder 1) ([7, 3, 4] : List Float) =
        .error (.unwrittenSlot ⟨.work, 0⟩) := by
  have inside : ∀ assignment ∈ hastyPlan.assignments,
      assignment.destination.index < hastyPlan.bufferLength ∧
        ∀ slot ∈ assignment.sources, slot.index < hastyPlan.bufferLength := by
    decide
  have based : ∀ assignment ∈ hastyPlan.assignments, ∀ slot ∈ assignment.sources,
      ¬(slot.buffer = .input ∧ slot.index < hastyPlan.base) := by
    decide
  have found : hastyPlan.dependencyDefects =
      [.unwrittenSource 1 ⟨.work, 0⟩, .unwrittenSource 2 ⟨.work, 0⟩] := by
    decide +kernel
  obtain ⟨_, stops, first, _⟩ := @runUnscaled_stops_at_first_defect Float _ _ _ hastyPlan
    (.ofOrder 1) rfl [7, 3, 4] rfl inside based
  obtain ⟨slot, stopped⟩ := stops.mpr (by rw [found]; exact List.cons_ne_nil _ _)
  obtain ⟨position, head⟩ := first slot stopped
  rw [found] at head
  cases head
  exact ⟨rfl, rfl, inside, based, found, stopped⟩

end PrunedCosine
