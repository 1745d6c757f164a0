import PrunedCosine.Proofs.Soundness

/-! What the structural checks promise of a plan that they did not see planned. A plan without
defects reads nothing before it holds a value, whatever its assignments are. The checks do not
look at the ends of the buffers: such a plan runs to its end if it writes inside the buffers,
and otherwise stops at a write outside. -/

namespace PrunedCosine

theorem mem_knownAfter {assignments : List Assignment} {known : Set Slot} {slot : Slot} :
    slot ∈ knownAfter assignments known ↔
      slot ∈ known ∨ ∃ assignment ∈ assignments, assignment.destination = slot := by
  induction assignments generalizing known with
  | nil => simp [knownAfter]
  | cons assignment rest ih =>
    rw [knownAfter, List.foldl_cons, ← knownAfter, ih, Set.mem_insert_iff, List.exists_mem_cons_iff,
      eq_comm, or_comm (a := assignment.destination = slot), or_assoc]

theorem Buffers.steps_of_missing {α : Type} [Add α] [Sub α] [Mul α] (table : ScaleTable α)
    {buffers : Buffers α} {memory : Memory α} {known : Set Slot}
    (holds : buffers.Holds memory known) {assignments : List Assignment}
    (grounded : Grounded assignments known)
    (missing : ∃ assignment ∈ assignments, ¬buffers.Has assignment.destination) :
    ∃ stray ∈ assignments, ¬buffers.Has stray.destination ∧
      buffers.steps table assignments = .error (.missingSlot stray.destination) := by
  induction assignments generalizing buffers memory known with
  | nil => simp at missing
  | cons assignment rest ih =>
    by_cases room : buffers.Has assignment.destination
    · obtain ⟨after, stepped, holdsAfter, same⟩ := step_of_holds table holds grounded.1 room
      have later : ∃ other ∈ rest, ¬after.Has other.destination := by
        obtain ⟨other, member, outside⟩ := missing
        rcases List.mem_cons.mp member with rfl | tail
        · exact absurd room outside
        · exact ⟨other, tail, fun inside => outside ((same _).mp inside)⟩
      obtain ⟨stray, member, outside, stopped⟩ := ih holdsAfter grounded.2 later
      refine ⟨stray, List.mem_cons_of_mem _ member, fun inside => outside ((same _).mpr inside), ?_⟩
      rw [steps, List.foldlM_cons, stepped]
      exact stopped
    · refine ⟨assignment, List.mem_cons_self .., room, ?_⟩
      have value := value_of_holds table holds grounded.1
      rw [steps, List.foldlM_cons, step, value]
      show (buffers.write assignment.destination _ >>= _) = _
      rw [write_of_missing _ room]
      rfl

namespace Plan

variable {plan : Plan}

/-- The liveness check alone sees to it that every read is grounded in the input and that the
coefficients are known at the end. -/
theorem grounded_of_livenessDefects (clean : plan.livenessDefects = []) :
    Grounded plan.assignments (filled plan.bufferLength) ∧
      ∀ k < plan.outputCount,
        plan.output k ∈ knownAfter plan.assignments (filled plan.bufferLength) := by
  obtain ⟨all, needed⟩ := walk_of_livenessDefects clean
  have provided : ∀ slot ∈ Liveness.needed plan.assignments
      (span .work plan.base plan.outputCount), slot ∈ filled plan.bufferLength := by
    intro slot used
    obtain ⟨buffer, _, most⟩ := (isInput_iff plan slot).mp (needed slot used)
    exact ⟨buffer, most⟩
  obtain ⟨grounded, known⟩ := grounded_of_kept all provided
  refine ⟨grounded, fun k inside => known _ (mem_span_mk.mpr ?_)⟩
  exact ⟨Nat.le_add_right _ _, Nat.add_lt_add_left inside _⟩

/-- A coefficient beyond the transform would have to be written beyond the buffers. -/
theorem outputCount_le_size (clean : plan.livenessDefects = [])
    (inside : ∀ assignment ∈ plan.assignments,
      assignment.destination.index < plan.bufferLength) : plan.outputCount ≤ plan.size := by
  by_contra beyond
  have wanted : plan.size < plan.outputCount := Nat.lt_of_not_le beyond
  have known := (grounded_of_livenessDefects clean).2 plan.size wanted
  rcases mem_knownAfter.mp known with given | ⟨assignment, member, written⟩
  · exact nomatch (given.1 : Buffer.work = .input)
  · have room := inside assignment member
    rw [written] at room
    exact absurd room (Nat.lt_irrefl _)

end Plan

theorem inspect_fst (plan : Plan) (session : Session) :
    (inspect plan session).1 = plan.defects := by
  cases found : plan.defects with
  | nil => rw [inspect_eq_nil found]
  | cons defect rest =>
    simp only [inspect, found]
    rfl

/-- A plan in which the checks find nothing never reads a slot that holds no value. If its
assignments write inside the buffers it runs on every input of its length and gives as many
values as it has coefficients; otherwise it stops at an assignment that writes outside. -/
theorem run_of_no_defects {α : Type} [Add α] [Sub α] [Mul α] {plan : Plan} {table : ScaleTable α}
    (matching : table.order = plan.order) {session : Session}
    (clean : (inspect plan session).1 = []) {input : List α}
    (length : input.length = plan.bufferLength) :
    plan.matchTable table = .ok () ∧
      ((∀ assignment ∈ plan.assignments, assignment.destination.index < plan.bufferLength) →
        ∃ values, plan.run table input = .ok values ∧ values.length = plan.outputCount) ∧
      ((∃ assignment ∈ plan.assignments, plan.bufferLength ≤ assignment.destination.index) →
        ∃ stray ∈ plan.assignments, plan.bufferLength ≤ stray.destination.index ∧
          plan.run table input = .error (.missingSlot stray.destination)) := by
  rw [inspect_fst] at clean
  have liveness : plan.livenessDefects = [] :=
    (List.append_eq_nil_iff.mp (List.append_eq_nil_iff.mp clean).1).2
  obtain ⟨grounded, known⟩ := Plan.grounded_of_livenessDefects liveness
  have size : input.length = plan.base + blockSize plan.order := length
  obtain ⟨memory, starts⟩ := Memory.exists_starts size
  refine ⟨if_pos matching, fun inside => ?_, fun outside => ?_⟩
  · have bounded := Plan.outputCount_le_size liveness inside
    refine ⟨_, Plan.run_of_grounded table length starts grounded inside known bounded, ?_⟩
    rw [List.length_map, List.length_range]
  · have has (slot : Slot) : ¬(Buffers.ofInput input).Has slot ↔ plan.bufferLength ≤ slot.index := by
      rw [Buffers.ofInput_has, length, not_lt]
    rw [← length] at grounded
    have missing : ∃ assignment ∈ plan.assignments,
        ¬(Buffers.ofInput input).Has assignment.destination := by
      obtain ⟨assignment, member, beyond⟩ := outside
      exact ⟨assignment, member, (has _).mpr beyond⟩
    obtain ⟨stray, member, beyond, stopped⟩ :=
      Buffers.steps_of_missing table (Buffers.ofInput_holds starts) grounded missing
    refine ⟨stray, member, (has _).mp beyond, ?_⟩
    rw [Plan.run, Plan.execute, if_pos length, stopped]
    rfl

/-- The sum of two values takes a detour: it is made in a work slot of its own and copied to
where it is wanted. -/
def detourPlan (place : Nat) : Plan where
  order := 1
  base := 0
  truncation := some 0
  live := .ofList [0, 1]
  assignments :=
    [{ destination := ⟨.work, place⟩,
       expression := .combine .plus ⟨.input, 0⟩ ⟨.input, 1⟩ none,
       order := 2,
       stage := .butterfly },
     { destination := ⟨.work, 0⟩,
       expression := .copy ⟨.work, place⟩,
       order := 1,
       stage := .interleave }]

theorem run_of_no_defects_pair :
    (ScaleTable.ofOrder 1 : ScaleTable Float).order = (detourPlan 1).order ∧
      (inspect (detourPlan 1) .fresh).1 = [] ∧
      ([3, 4] : List Float).length = (detourPlan 1).bufferLength ∧
      ∃ values, (detourPlan 1).run (.ofOrder 1) ([3, 4] : List Float) = .ok values ∧
        values.length = 1 := by
  have clean : (inspect (detourPlan 1) .fresh).1 = [] := by decide +kernel
  exact ⟨rfl, clean, rfl, (run_of_no_defects rfl clean rfl).2.1 (by decide)⟩

/-- With the detour beyond the buffers the checks find nothing either, and the plan does not
run. -/
theorem detour_beyond_buffers :
    1 ≤ (detourPlan 5).order ∧ (detourPlan 5).order ≤ maxOrder ∧
      (detourPlan 5).bufferLength < wordCount ∧
      (inspect (detourPlan 5) .fresh).1 = [] ∧
      ([1, 1] : List Float).length = (detourPlan 5).bufferLength ∧
      (detourPlan 5).run (.ofOrder 1) ([1, 1] : List Float) =
        .error (.missingSlot ⟨.work, 5⟩) :=
  ⟨by decide, by decide, by decide, by decide +kernel, rfl, rfl⟩

end PrunedCosine
