import PrunedCosine.Proofs.Execution

/-! What a run leaves alone. A step looks at its sources and changes its destination, so a run
keeps what it does not write, and assignments that have nothing to do with each other may be
carried out in any order. -/

namespace PrunedCosine

structure Assignment.Apart (first second : Assignment) : Prop where
  written : first.destination ≠ second.destination
  firstReads : second.destination ∉ first.sources
  secondReads : first.destination ∉ second.sources

theorem Assignment.Apart.symm {first second : Assignment} (apart : first.Apart second) :
    second.Apart first :=
  ⟨apart.written.symm, apart.secondReads, apart.firstReads⟩

theorem Assignment.Within.apart {first second : Assignment} {base count otherBase otherCount : Nat}
    (left : first.Within base count) (right : second.Within otherBase otherCount)
    (disjoint : base + count ≤ otherBase) : first.Apart second := by
  have different {slot other : Slot} (low : slot.Within base count)
      (high : other.Within otherBase otherCount) : slot ≠ other := by
    intro same
    have below := low.2
    have above := high.1
    rw [same] at below
    omega
  exact ⟨different left.1 right.1, fun read => different (left.2 _ read) right.1 rfl,
    fun read => different left.1 (right.2 _ read) rfl⟩

namespace Buffers

variable {α : Type}

theorem has_iff {buffers : Buffers α} {slot : Slot} :
    buffers.Has slot ↔ (buffers.cell slot).isSome := by
  rw [Has, cell, isSome_getElem?]

theorem eq_of_cell {first second : Buffers α} (same : ∀ slot, first.cell slot = second.cell slot) :
    first = second := by
  have input : first.input = second.input := Array.ext_getElem? fun index => same ⟨.input, index⟩
  have work : first.work = second.work := Array.ext_getElem? fun index => same ⟨.work, index⟩
  cases first
  cases second
  cases input
  cases work
  rfl

variable [Add α] [Sub α] [Mul α] (table : ScaleTable α)

theorem value_congr {first second : Buffers α} {expression : Expression}
    (same : ∀ slot ∈ expression.sources, first.cell slot = second.cell slot) :
    first.value table expression = second.value table expression := by
  cases expression with
  | combine sign left right scale =>
    have leftSame := read_congr (same left (List.mem_cons_self ..))
    have rightSame := read_congr (same right (List.mem_cons_of_mem _ (List.mem_cons_self ..)))
    rw [value, value, leftSame, rightSame]
  | copy source => exact read_congr (same source (List.mem_cons_self ..))

/-- A step succeeds exactly if its value can be worked out and its destination exists, and then
it puts the value there and changes nothing else. -/
theorem step_eq_ok {buffers after : Buffers α} {assignment : Assignment} :
    buffers.step table assignment = .ok after ↔
      ∃ value, buffers.value table assignment.expression = .ok value ∧
        buffers.Has assignment.destination ∧
        ∀ slot, after.cell slot =
          if slot = assignment.destination then some (some value) else buffers.cell slot := by
  constructor
  · intro stepped
    obtain ⟨value, found, written⟩ := ok_of_bind stepped
    obtain ⟨room, put⟩ := put_of_write written
    exact ⟨value, found, room, put.cell room⟩
  · intro made
    obtain ⟨value, found, room, cells⟩ := made
    obtain ⟨other, written, put⟩ := write_eq_ok value room
    have same : other = after := eq_of_cell fun slot => by rw [put.cell room, cells]
    rw [step, found, ← same]
    exact written

theorem steps_cons_eq_ok {buffers final : Buffers α} {assignment : Assignment}
    {rest : List Assignment} :
    buffers.steps table (assignment :: rest) = .ok final ↔
      ∃ after, buffers.step table assignment = .ok after ∧ after.steps table rest = .ok final := by
  rw [steps, List.foldlM_cons]
  constructor
  · exact ok_of_bind
  · intro made
    obtain ⟨after, stepped, finished⟩ := made
    rw [stepped]
    exact finished

theorem cell_of_steps {buffers final : Buffers α} {assignments : List Assignment}
    (ran : buffers.steps table assignments = .ok final) {slot : Slot}
    (untouched : ∀ assignment ∈ assignments, assignment.destination ≠ slot) :
    final.cell slot = buffers.cell slot := by
  induction assignments generalizing buffers with
  | nil =>
    cases ran
    rfl
  | cons assignment rest ih =>
    obtain ⟨different, others⟩ := List.forall_mem_cons.mp untouched
    obtain ⟨after, stepped, finished⟩ := (steps_cons_eq_ok table).mp ran
    obtain ⟨_, _, _, cells⟩ := (step_eq_ok table).mp stepped
    rw [ih finished others, cells, if_neg different.symm]

theorem step_swap {buffers between final : Buffers α} {first second : Assignment}
    (apart : first.Apart second) (earlier : buffers.step table first = .ok between)
    (later : between.step table second = .ok final) :
    ∃ other, buffers.step table second = .ok other ∧ other.step table first = .ok final := by
  obtain ⟨value, found, room, cells⟩ := (step_eq_ok table).mp earlier
  obtain ⟨next, nextFound, nextRoom, nextCells⟩ := (step_eq_ok table).mp later
  -- neither step changes what the other one looks at
  have nextSame : buffers.value table second.expression = .ok next := by
    rw [← nextFound]
    apply value_congr
    intro slot read
    rw [cells, if_neg fun same : slot = first.destination => apart.secondReads (same ▸ read)]
  have nextThere : buffers.Has second.destination := by
    rwa [has_iff, cells, if_neg apart.written.symm, ← has_iff] at nextRoom
  obtain ⟨other, written, put⟩ := write_eq_ok next nextThere
  have otherCells := put.cell nextThere
  refine ⟨other, ?_, (step_eq_ok table).mpr ⟨value, ?_, ?_, fun slot => ?_⟩⟩
  · rw [step, nextSame]
    exact written
  · rw [← found]
    apply value_congr
    intro slot read
    rw [otherCells, if_neg fun same : slot = second.destination => apart.firstReads (same ▸ read)]
  · rwa [has_iff, otherCells, if_neg apart.written, ← has_iff]
  · rw [nextCells, cells, otherCells]
    by_cases inFirst : slot = first.destination
    · rw [if_pos inFirst, if_pos inFirst, if_neg (inFirst ▸ apart.written)]
    · rw [if_neg inFirst, if_neg inFirst]

theorem steps_postpone {buffers final : Buffers α} {assignment : Assignment}
    {passed : List Assignment} (apart : ∀ other ∈ passed, assignment.Apart other)
    (rest : List Assignment) :
    buffers.steps table (assignment :: (passed ++ rest)) = .ok final ↔
      buffers.steps table (passed ++ assignment :: rest) = .ok final := by
  induction passed generalizing buffers with
  | nil => exact Iff.rfl
  | cons other passed ih =>
    obtain ⟨here, others⟩ := List.forall_mem_cons.mp apart
    rw [List.cons_append, List.cons_append, steps_cons_eq_ok]
    constructor
    · intro made
      obtain ⟨between, earlier, ran⟩ := made
      obtain ⟨after, later, finished⟩ := (steps_cons_eq_ok table).mp ran
      obtain ⟨turned, first, second⟩ := step_swap table here earlier later
      have moved := (ih others).mp ((steps_cons_eq_ok table).mpr ⟨after, second, finished⟩)
      exact (steps_cons_eq_ok table).mpr ⟨turned, first, moved⟩
    · intro made
      obtain ⟨between, earlier, ran⟩ := (steps_cons_eq_ok table).mp made
      obtain ⟨after, later, finished⟩ := (steps_cons_eq_ok table).mp ((ih others).mpr ran)
      obtain ⟨turned, first, second⟩ := step_swap table here.symm earlier later
      exact ⟨turned, first, (steps_cons_eq_ok table).mpr ⟨after, second, finished⟩⟩

end Buffers

end PrunedCosine
