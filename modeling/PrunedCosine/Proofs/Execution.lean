import PrunedCosine.Proofs.Memory
import Mathlib.Data.Set.Insert

/-! Runs that succeed. If every slot that is read was provided or written before, and every
slot that is written exists, then the run on buffers does what the run on a memory does. -/

namespace PrunedCosine

/-- Every slot read is known: known from the start, or written by an earlier assignment. -/
def Grounded : List Assignment → Set Slot → Prop
  | [], _ => True
  | assignment :: rest, known =>
      (∀ slot ∈ assignment.sources, slot ∈ known) ∧
        Grounded rest (insert assignment.destination known)

def knownAfter (assignments : List Assignment) (known : Set Slot) : Set Slot :=
  assignments.foldl (fun sofar assignment => insert assignment.destination sofar) known

/-- Where the walk keeps everything, what it needs at the start grounds the list, and what is
needed at the end is known there. -/
theorem grounded_of_kept {assignments : List Assignment} {live : Finset Slot} {known : Set Slot}
    (all : Liveness.kept assignments live = assignments)
    (provided : ∀ slot ∈ Liveness.needed assignments live, slot ∈ known) :
    Grounded assignments known ∧ ∀ slot ∈ live, slot ∈ knownAfter assignments known := by
  induction assignments generalizing known with
  | nil => exact ⟨trivial, provided⟩
  | cons assignment rest ih =>
    by_cases alive : assignment.destination ∈ Liveness.needed rest live
    · rw [Liveness.kept_cons_live alive] at all
      rw [Liveness.needed_cons_live alive] at provided
      have later : ∀ slot ∈ Liveness.needed rest live,
          slot ∈ insert assignment.destination known := by
        intro slot used
        by_cases written : slot = assignment.destination
        · exact Or.inl written
        · exact Or.inr (provided slot
            (Finset.mem_union_left _ (Finset.mem_erase.mpr ⟨written, used⟩)))
      obtain ⟨grounded, known⟩ := ih (List.cons.inj all).2 later
      refine ⟨⟨fun slot read => ?_, grounded⟩, known⟩
      exact provided slot (Finset.mem_union_right _ (List.mem_toFinset.mpr read))
    · -- a list that lost its head is too short to be all of it
      rw [Liveness.kept_cons_dead alive] at all
      have shorter := (Liveness.kept_sublist rest live).length_le
      rw [all, List.length_cons] at shorter
      omega

theorem ok_of_bind {α β : Type} {action : Except Error α} {next : α → Except Error β} {result : β}
    (ran : (action >>= next) = .ok result) :
    ∃ value, action = .ok value ∧ next value = .ok result := by
  cases action with
  | error cause => cases ran
  | ok value => exact ⟨value, rfl, ran⟩

namespace Buffers

variable {α : Type}

def Has (buffers : Buffers α) (slot : Slot) : Prop :=
  slot.index < (buffers.contents slot.buffer).size

theorem read_eq_ok {buffers : Buffers α} {slot : Slot} {value : α} :
    buffers.read slot = .ok value ↔
      (buffers.contents slot.buffer)[slot.index]? = some (some value) := by
  rw [read]
  rcases (buffers.contents slot.buffer)[slot.index]? with _ | _ | stored <;> simp

def cell (buffers : Buffers α) (slot : Slot) : Option (Option α) :=
  (buffers.contents slot.buffer)[slot.index]?

theorem read_congr {first second : Buffers α} {slot : Slot}
    (same : first.cell slot = second.cell slot) : first.read slot = second.read slot := by
  rw [cell, cell] at same
  rw [read, read, same]

def Put (buffers : Buffers α) (slot : Slot) (value : α) (after : Buffers α) : Prop :=
  ∀ buffer, after.contents buffer =
    if buffer = slot.buffer then (buffers.contents buffer).setIfInBounds slot.index (some value)
    else buffers.contents buffer

theorem write_eq_ok {buffers : Buffers α} {slot : Slot} (value : α) (room : buffers.Has slot) :
    ∃ after, buffers.write slot value = .ok after ∧
      buffers.Put slot value after := by
  rcases slot with ⟨_ | _, index⟩
  · refine ⟨{ buffers with input := buffers.input.setIfInBounds index (some value) }, ?_, ?_⟩
    · exact if_pos room
    · intro buffer
      cases buffer <;> rfl
  · refine ⟨{ buffers with work := buffers.work.setIfInBounds index (some value) }, ?_, ?_⟩
    · exact if_pos room
    · intro buffer
      cases buffer <;> rfl

theorem write_of_missing {buffers : Buffers α} {slot : Slot} (value : α)
    (missing : ¬buffers.Has slot) : buffers.write slot value = .error (.missingSlot slot) := by
  rcases slot with ⟨_ | _, index⟩
  · exact if_neg missing
  · exact if_neg missing

theorem put_of_write {buffers after : Buffers α} {slot : Slot} {value : α}
    (written : buffers.write slot value = .ok after) :
    buffers.Has slot ∧ buffers.Put slot value after := by
  by_cases room : buffers.Has slot
  · obtain ⟨other, same, put⟩ := write_eq_ok value room
    cases Except.ok.inj (written.symm.trans same)
    exact ⟨room, put⟩
  · rw [write_of_missing value room] at written
    cases written

theorem has_of_read {buffers : Buffers α} {slot : Slot} {value : α}
    (found : buffers.read slot = .ok value) : buffers.Has slot :=
  (Array.getElem?_eq_some_iff.mp (read_eq_ok.mp found)).1

theorem Put.has_iff {buffers after : Buffers α} {slot : Slot} {value : α}
    (written : buffers.Put slot value after) (other : Slot) :
    after.Has other ↔ buffers.Has other := by
  rw [Has, Has, written]
  split
  · rw [Array.size_setIfInBounds]
  · rfl

theorem Put.cell {buffers after : Buffers α} {slot : Slot} {value : α}
    (written : buffers.Put slot value after) (room : buffers.Has slot) (other : Slot) :
    after.cell other = if other = slot then some (some value) else buffers.cell other := by
  by_cases same : other = slot
  · rw [if_pos same, same, Buffers.cell, written, if_pos rfl]
    exact Array.getElem?_setIfInBounds_self_of_lt room
  · rw [if_neg same, Buffers.cell, Buffers.cell, written]
    by_cases buffer : other.buffer = slot.buffer
    · have apart : slot.index ≠ other.index := by
        intro index
        apply same
        rcases other with ⟨otherBuffer, otherIndex⟩
        rcases slot with ⟨slotBuffer, slotIndex⟩
        cases buffer
        cases index
        rfl
      rw [if_pos buffer, Array.getElem?_setIfInBounds_ne apart]
    · rw [if_neg buffer]

theorem Put.read {buffers after : Buffers α} {slot : Slot} {value : α}
    (written : buffers.Put slot value after) (room : buffers.Has slot) (other : Slot) :
    after.read other = if other = slot then .ok value else buffers.read other := by
  by_cases same : other = slot
  · rw [if_pos same, read_eq_ok, ← Buffers.cell, written.cell room, if_pos same]
  · rw [if_neg same, read_congr]
    rw [written.cell room, if_neg same]

def Holds (buffers : Buffers α) (memory : Memory α) (known : Set Slot) : Prop :=
  ∀ slot ∈ known, buffers.read slot = .ok (memory slot)

variable [Add α] [Sub α] [Mul α] (table : ScaleTable α)

theorem value_of_holds {buffers : Buffers α} {memory : Memory α} {known : Set Slot}
    (holds : buffers.Holds memory known) {expression : Expression}
    (readable : ∀ slot ∈ expression.sources, slot ∈ known) :
    buffers.value table expression = .ok (memory.value table expression) := by
  cases expression with
  | combine sign left right scale =>
    have first := holds left (readable left (List.mem_cons_self ..))
    have second := holds right (readable right (List.mem_cons_of_mem _ (List.mem_cons_self ..)))
    simp only [value, first, second]
    cases scale <;> rfl
  | copy source => exact holds source (readable source (List.mem_cons_self ..))

theorem step_of_holds {buffers : Buffers α} {memory : Memory α} {known : Set Slot}
    (holds : buffers.Holds memory known) {assignment : Assignment}
    (readable : ∀ slot ∈ assignment.sources, slot ∈ known)
    (room : buffers.Has assignment.destination) :
    ∃ after, buffers.step table assignment = .ok after ∧
      after.Holds (memory.step table assignment) (insert assignment.destination known) ∧
      ∀ slot, after.Has slot ↔ buffers.Has slot := by
  obtain ⟨after, stored, written⟩ :=
    write_eq_ok (memory.value table assignment.expression) room
  refine ⟨after, ?_, ?_, written.has_iff⟩
  · rw [step, value_of_holds table holds readable]
    exact stored
  · intro slot member
    rw [written.read room]
    by_cases same : slot = assignment.destination
    · rw [if_pos same, same, Memory.step_self]
    · rw [if_neg same, Memory.step_of_ne table memory fun equal => same equal.symm]
      exact holds slot (member.resolve_left same)

/-- A grounded list of assignments to slots that exist runs to its end, and the buffers then
hold what the memory holds after the same assignments. -/
theorem steps_of_grounded {buffers : Buffers α} {memory : Memory α} {known : Set Slot}
    (holds : buffers.Holds memory known) {assignments : List Assignment}
    (grounded : Grounded assignments known)
    (room : ∀ assignment ∈ assignments, buffers.Has assignment.destination) :
    ∃ final, buffers.steps table assignments = .ok final ∧
      final.Holds (memory.run table assignments) (knownAfter assignments known) := by
  induction assignments generalizing buffers memory known with
  | nil => exact ⟨buffers, rfl, holds⟩
  | cons assignment rest ih =>
    obtain ⟨first, others⟩ := List.forall_mem_cons.mp room
    obtain ⟨after, stepped, holdsAfter, same⟩ := step_of_holds table holds grounded.1 first
    obtain ⟨final, finished, holdsFinal⟩ := ih holdsAfter grounded.2
      fun other member => (same _).mpr (others other member)
    refine ⟨final, ?_, holdsFinal⟩
    rw [steps, List.foldlM_cons, stepped]
    exact finished

theorem has_of_steps {buffers final : Buffers α} {assignments : List Assignment}
    (ran : buffers.steps table assignments = .ok final) (slot : Slot) :
    final.Has slot ↔ buffers.Has slot := by
  induction assignments generalizing buffers with
  | nil =>
    cases ran
    exact Iff.rfl
  | cons assignment rest ih =>
    rw [steps, List.foldlM_cons] at ran
    obtain ⟨after, stepped, finished⟩ := ok_of_bind ran
    obtain ⟨value, _, written⟩ := ok_of_bind stepped
    exact (ih finished).trans ((put_of_write written).2.has_iff slot)

end Buffers

def filled (count : Nat) : Set Slot := {slot | slot.buffer = .input ∧ slot.index < count}

/-- The memory holds the values in its input buffer. Its work buffer may hold anything. -/
def Memory.Starts {α : Type} (memory : Memory α) (values : List α) : Prop :=
  ∀ index value, values[index]? = some value → memory ⟨.input, index⟩ = value

/-- There is such a memory, because a plan has inputs and so there is a number. -/
theorem Memory.exists_starts {α : Type} {values : List α} {order base : Nat}
    (length : values.length = base + blockSize order) :
    ∃ memory : Memory α, memory.Starts values := by
  have room := blockSize_pos order
  have nonempty : values ≠ [] := List.ne_nil_of_length_pos (by omega)
  refine ⟨fun slot => values.getD slot.index (values.head nonempty), fun index value found => ?_⟩
  show values.getD index _ = value
  rw [List.getD_eq_getElem?_getD, found, Option.getD_some]

theorem Buffers.ofInput_holds {α : Type} {memory : Memory α} {values : List α}
    (starts : memory.Starts values) :
    (Buffers.ofInput values).Holds memory (filled values.length) := by
  intro slot member
  obtain ⟨buffer, index⟩ := slot
  obtain ⟨rfl, inside⟩ := member
  rw [Buffers.read_eq_ok]
  have found : values[index]? = some values[index] := List.getElem?_eq_getElem inside
  rw [starts index _ found]
  simp [Buffers.contents, Buffers.ofInput, inside]

theorem Buffers.ofInput_has {α : Type} (values : List α) (slot : Slot) :
    (Buffers.ofInput values).Has slot ↔ slot.index < values.length := by
  rcases slot with ⟨_ | _, index⟩ <;> simp [Buffers.Has, Buffers.contents, Buffers.ofInput]

theorem mapM_eq_pure {m : Type → Type} [Monad m] [LawfulMonad m] {ι α : Type} {list : List ι}
    {step : ι → m α} {value : ι → α} (steps : ∀ item ∈ list, step item = pure (value item)) :
    list.mapM step = pure (list.map value) := by
  induction list with
  | nil => rw [List.mapM_nil, List.map_nil]
  | cons first rest ih =>
    obtain ⟨here, later⟩ := List.forall_mem_cons.mp steps
    rw [List.mapM_cons, here, ih later, pure_bind, pure_bind, List.map_cons]

theorem forall₂_of_mapM {ι α : Type} {list : List ι} {step : ι → Except Error α}
    {values : List α} (ran : list.mapM step = .ok values) :
    List.Forall₂ (fun item value => step item = .ok value) list values := by
  induction list generalizing values with
  | nil =>
    cases ran
    exact .nil
  | cons first rest ih =>
    rw [List.mapM_cons] at ran
    obtain ⟨value, here, later⟩ := ok_of_bind ran
    obtain ⟨others, there, same⟩ := ok_of_bind later
    cases same
    exact .cons here (ih there)

/-- The coefficient after the last lies beyond the buffers, so it cannot be read. -/
theorem Plan.outputCount_le_of_reads {α : Type} [Add α] [Sub α] [Mul α] {table : ScaleTable α}
    {plan : Plan} {input : List α} {final : Buffers α} (length : input.length = plan.bufferLength)
    (executed : (Buffers.ofInput input).steps table plan.assignments = .ok final)
    (read : ∀ k < min plan.outputCount (plan.size + 1), ∃ raw,
      final.read (plan.output k) = .ok raw) : plan.outputCount ≤ plan.size := by
  by_contra beyond
  obtain ⟨_, there⟩ := read plan.size (by omega)
  have room := (Buffers.ofInput_has input _).mp
    ((Buffers.has_of_steps table executed _).mp (Buffers.has_of_read there))
  rw [length] at room
  exact absurd room (Nat.lt_irrefl _)

/-- What a run that succeeds has done: it has carried out all assignments, found a value in the
slot of every coefficient, and given those values scaled. -/
theorem Plan.exists_final {α : Type} [Add α] [Sub α] [Mul α] {table : ScaleTable α} {plan : Plan}
    {input values : List α} (ran : plan.run table input = .ok values) :
    input.length = plan.bufferLength ∧ values.length = plan.outputCount ∧
      ∃ final, (Buffers.ofInput input).steps table plan.assignments = .ok final ∧
        ∀ k < plan.outputCount, ∃ raw, final.read (plan.output k) = .ok raw ∧
          values[k]? = some (raw * table.value (if k = 0 then table.dc else table.ac)) := by
  obtain ⟨final, executed, scaled⟩ := ok_of_bind ran
  rw [execute] at executed
  split at executed
  · rename_i length
    have each := forall₂_of_mapM scaled
    have found : ∀ k < min plan.outputCount (plan.size + 1),
        ∃ raw, final.read (plan.output k) = .ok raw ∧
          values[k]? = some (raw * table.value (if k = 0 then table.dc else table.ac)) := by
      intro k inside
      have wanted : k < values.length := by
        rwa [← each.length_eq, List.length_range]
      have got := each.get (by rwa [List.length_range]) wanted
      obtain ⟨raw, read, same⟩ := ok_of_bind got
      rw [List.get_eq_getElem, List.getElem_range] at read
      refine ⟨raw, read, ?_⟩
      rw [List.getElem?_eq_getElem wanted]
      simpa using (Except.ok.inj same).symm
    have bounded := outputCount_le_of_reads length executed fun k inside =>
      (found k inside).imp fun _ => And.left
    rw [Nat.min_eq_left (by omega)] at each found
    refine ⟨length, ?_, final, executed, found⟩
    rw [← each.length_eq, List.length_range]
  · cases executed

/-- A plan that is grounded in the input, stays in the buffers and comes to know the slots of
its coefficients gives those coefficients, as any memory that starts with the input has them. -/
theorem Plan.run_of_grounded {α : Type} [Add α] [Sub α] [Mul α] (table : ScaleTable α)
    {plan : Plan} {input : List α} {memory : Memory α} (length : input.length = plan.bufferLength)
    (starts : memory.Starts input)
    (grounded : Grounded plan.assignments (filled plan.bufferLength))
    (room : ∀ assignment ∈ plan.assignments, assignment.destination.index < plan.bufferLength)
    (known : ∀ k < plan.outputCount,
      plan.output k ∈ knownAfter plan.assignments (filled plan.bufferLength))
    (bounded : plan.outputCount ≤ plan.size) :
    plan.run table input = .ok ((List.range plan.outputCount).map fun k =>
      memory.run table plan.assignments (plan.output k) *
        table.value (if k = 0 then table.dc else table.ac)) := by
  rw [← length] at grounded room known
  obtain ⟨final, finished, holds⟩ :=
    Buffers.steps_of_grounded table (Buffers.ofInput_holds starts) grounded
      fun assignment member => (Buffers.ofInput_has input _).mpr (room assignment member)
  have coefficients : ∀ k ∈ List.range plan.outputCount,
      plan.coefficient table final k = .ok (memory.run table plan.assignments (plan.output k) *
        table.value (if k = 0 then table.dc else table.ac)) := by
    intro k inside
    rw [coefficient, holds _ (known k (List.mem_range.mp inside))]
    rfl
  rw [run, execute, if_pos length, finished, Nat.min_eq_left (by omega)]
  exact mapM_eq_pure coefficients

end PrunedCosine
