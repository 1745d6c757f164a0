import PrunedCosine.Proofs.Soundness
import PrunedCosine.Proofs.Table
import PrunedCosine.Routine.Target

/-! What a routine does when it runs. Its statements are carried out on three arrays, and a scale
is whatever the declared constant of its name stands for. The work array may hold anything at
the start, or nothing: where a plan gives coefficients, its routine stores them, since it reads
no slot that the plan has not filled. -/

namespace PrunedCosine

/-- The arrays that a routine works on. A place of the first two may hold no value, such as those
of a work array that was never set. -/
structure Arrays (α : Type) where
  buffers : Buffers α
  output : Array α

namespace Routine

variable {α : Type} (routine : Routine α)

def constant? (name : String) : Option α :=
  (routine.scales.find? fun scale => scale.name == name).map Scale.value

variable [Add α] [Sub α] [Mul α]

/-- The value of an expression, in which a scale is whatever its name stands for. -/
def value? (buffers : Buffers α) : Expression → Option α
  | .combine sign left right scale => do
      let first ← (buffers.read left).toOption
      let second ← (buffers.read right).toOption
      match scale with
      | some id =>
          let factor ← routine.constant? (routine.scaleText id)
          pure (sign.apply first second * factor)
      | none => pure (sign.apply first second)
  | .copy source => (buffers.read source).toOption

/-- Carries out a statement. There is no result if it reads what holds no value, names a constant
that was not declared, or goes beyond the end of an array. -/
def carryOut (arrays : Arrays α) : Statement → Option (Arrays α)
  | .assign destination expression => do
      let value ← routine.value? arrays.buffers expression
      let buffers ← (arrays.buffers.write destination value).toOption
      pure { arrays with buffers }
  | .output coefficient index scale => do
      let value ← (arrays.buffers.read ⟨.work, index⟩).toOption
      let factor ← routine.constant? (routine.scaleText scale)
      if coefficient < arrays.output.size then
        pure { arrays with output := arrays.output.setIfInBounds coefficient (value * factor) }
      else none

def execute (statements : List Statement) (arrays : Arrays α) : Option (Arrays α) :=
  statements.foldlM routine.carryOut arrays

end Routine

namespace Plan

section Declared

variable {α : Type} (plan : Plan) (table : ScaleTable α) (options : RoutineOptions)

def Uses (id : ScaleId) : Prop :=
  plan.usedScales.contains id.index ∨ (id = table.dc ∧ 1 ≤ plan.outputCount) ∨
    (id = table.ac ∧ 2 ≤ plan.outputCount)

theorem contains_usedScales {index : Nat} : plan.usedScales.contains index ↔
    ∃ assignment ∈ plan.assignments, assignment.scale = some ⟨index⟩ := by
  rw [usedScales, Std.TreeSet.contains_ofList, List.contains_iff_mem, List.mem_map]
  simp only [List.mem_filterMap]
  constructor
  · intro listed
    obtain ⟨id, ⟨assignment, member, scaled⟩, rfl⟩ := listed
    exact ⟨assignment, member, scaled⟩
  · intro made
    obtain ⟨assignment, member, scaled⟩ := made
    exact ⟨⟨index⟩, ⟨assignment, member, scaled⟩, rfl⟩

theorem uses_of_assignment {assignment : Assignment} (member : assignment ∈ plan.assignments)
    {id : ScaleId} (scaled : assignment.scale = some id) : plan.Uses table id :=
  Or.inl (plan.contains_usedScales.mpr ⟨assignment, member, scaled⟩)

theorem uses_of_output {k : Nat} (wanted : k < plan.outputCount) :
    plan.Uses table (if k = 0 then table.dc else table.ac) := by
  split
  · exact Or.inr (Or.inl ⟨rfl, by omega⟩)
  · exact Or.inr (Or.inr ⟨rfl, by omega⟩)

theorem declared_sublist : (plan.declaredScales table options).Sublist table.entries.toList := by
  rw [declaredScales]
  split
  · exact List.Sublist.refl _
  · exact List.filter_sublist

theorem mem_declaredScales {scale : Scale α} :
    scale ∈ plan.declaredScales table options ↔
      scale ∈ table.entries.toList ∧ (options.allScales ∨ plan.Uses table scale.id) := by
  rw [declaredScales]
  split
  · simp [*]
  · simp [*, Uses, or_assoc]

end Declared

section Named

open ScaleTable

variable {α : Type} [Scalar α] (plan : Plan) (options : RoutineOptions)

/-- The constant declared for a scale is found by its name, because no other has that name. -/
theorem constant?_of_uses {id : ScaleId}
    (inside : id.index < (ofOrder plan.order : ScaleTable α).size)
    (used : plan.Uses (ofOrder plan.order : ScaleTable α) id) :
    (plan.routine (ofOrder plan.order) options).constant?
        ((ofOrder plan.order : ScaleTable α).nameOf id) =
      some ((ofOrder plan.order : ScaleTable α).value id) := by
  obtain ⟨scale, found, rfl⟩ := exists_stored inside
  have stored := mem_of_get? found
  have declared := (plan.mem_declaredScales _ options).mpr ⟨stored, Or.inr used⟩
  have sublist := plan.declared_sublist (ofOrder plan.order : ScaleTable α) options
  rw [nameOf, value, found, Routine.constant?]
  show Option.map Scale.value ((plan.declaredScales _ options).find? _) = _
  cases search : (plan.declaredScales (ofOrder plan.order : ScaleTable α) options).find?
      fun other => other.name == scale.name with
  | none =>
    have absent := List.find?_eq_none.mp search scale declared
    simp at absent
  | some other =>
    -- the first scale declared under this name need not be this one, but it has its name
    have named : other.name = scale.name := by simpa using List.find?_some search
    rw [name_injective (sublist.subset (List.mem_of_find?_eq_some search)) stored named]
    rfl

theorem constant?_of_output {k : Nat} (wanted : k < plan.outputCount) :
    (plan.routine (ofOrder plan.order : ScaleTable α) options).constant?
        ((ofOrder plan.order : ScaleTable α).nameOf
          (if k = 0 then (ofOrder plan.order : ScaleTable α).dc
            else (ofOrder plan.order : ScaleTable α).ac)) =
      some ((ofOrder plan.order : ScaleTable α).value
        (if k = 0 then (ofOrder plan.order : ScaleTable α).dc
          else (ofOrder plan.order : ScaleTable α).ac)) := by
  have large := two_le_size (α := α) plan.order
  apply constant?_of_uses plan options _ (plan.uses_of_output _ wanted)
  split <;> simp only [dc, ac] <;> omega

end Named

end Plan

namespace Buffers

variable {α : Type}

/-- The wider buffers have the same slots and hold whatever the narrower ones hold. Where those
hold nothing, they may hold anything. -/
structure Covers (wider narrower : Buffers α) : Prop where
  slots : ∀ slot, wider.Has slot ↔ narrower.Has slot
  values : ∀ slot value, narrower.read slot = .ok value → wider.read slot = .ok value

theorem Covers.write {wider narrower after : Buffers α} (covers : wider.Covers narrower)
    {slot : Slot} {value : α} (written : narrower.write slot value = .ok after) :
    ∃ wide, wider.write slot value = .ok wide ∧ wide.Covers after := by
  obtain ⟨room, put⟩ := put_of_write written
  have wideRoom := (covers.slots slot).mpr room
  obtain ⟨wide, wideWritten, widePut⟩ := write_eq_ok value wideRoom
  refine ⟨wide, wideWritten, fun other => ?_, fun other stored found => ?_⟩
  · rw [widePut.has_iff, put.has_iff, covers.slots]
  · rw [put.read room] at found
    rw [widePut.read wideRoom]
    by_cases same : other = slot
    · rwa [if_pos same] at found ⊢
    · rw [if_neg same] at found ⊢
      exact covers.values other stored found

theorem covers_ofInput {buffers : Buffers α} {input : List α}
    (loaded : buffers.input = (input.map some).toArray)
    (length : buffers.work.size = input.length) : buffers.Covers (ofInput input) where
  slots slot := by
    rw [ofInput_has]
    rcases slot with ⟨_ | _, index⟩ <;> simp [Has, contents, loaded, length]
  values slot value found := by
    rcases slot with ⟨_ | _, index⟩
    · rw [read_eq_ok] at found ⊢
      simpa [contents, loaded, ofInput] using found
    · rw [read_eq_ok] at found
      simp [contents, ofInput, Array.getElem?_replicate] at found

end Buffers

namespace Routine

variable {α : Type} [Add α] [Sub α] [Mul α] (routine : Routine α) (table : ScaleTable α)

theorem value?_of_covers {wider narrower : Buffers α} (covers : wider.Covers narrower)
    {expression : Expression} {value : α}
    (constants : ∀ id ∈ expression.scale,
      routine.constant? (routine.scaleText id) = some (table.value id))
    (found : narrower.value table expression = .ok value) :
    routine.value? wider expression = some value := by
  cases expression with
  | combine sign left right scale =>
    obtain ⟨first, readLeft, later⟩ := ok_of_bind found
    obtain ⟨second, readRight, last⟩ := ok_of_bind later
    simp only [value?, covers.values left first readLeft, covers.values right second readRight]
    cases scale with
    | none => exact congrArg some (Except.ok.inj last)
    | some id =>
      simp only [constants id rfl]
      exact congrArg some (Except.ok.inj last)
  | copy source =>
    simp only [value?, covers.values source value found]
    rfl

theorem carryOut_assign {wider narrower after : Buffers α} (covers : wider.Covers narrower)
    {assignment : Assignment}
    (constants : ∀ id ∈ assignment.scale,
      routine.constant? (routine.scaleText id) = some (table.value id))
    (stepped : narrower.step table assignment = .ok after) (output : Array α) :
    ∃ wide, routine.carryOut ⟨wider, output⟩
        (.assign assignment.destination assignment.expression) = some ⟨wide, output⟩ ∧
      wide.Covers after := by
  obtain ⟨value, found, written⟩ := ok_of_bind stepped
  obtain ⟨wide, wideWritten, wideCovers⟩ := covers.write written
  refine ⟨wide, ?_, wideCovers⟩
  simp only [carryOut, routine.value?_of_covers table covers constants found,
    Option.bind_eq_bind, Option.bind_some, wideWritten]
  rfl

/-- Where a plan can carry out its assignments, its routine can, and keeps up with it. -/
theorem execute_assignments {wider narrower final : Buffers α} (covers : wider.Covers narrower)
    {assignments : List Assignment}
    (constants : ∀ assignment ∈ assignments, ∀ id ∈ assignment.scale,
      routine.constant? (routine.scaleText id) = some (table.value id))
    (ran : narrower.steps table assignments = .ok final) (output : Array α) :
    ∃ wide, routine.execute
        (assignments.map fun assignment => .assign assignment.destination assignment.expression)
        ⟨wider, output⟩ = some ⟨wide, output⟩ ∧
      wide.Covers final := by
  induction assignments generalizing wider narrower with
  | nil =>
    cases ran
    exact ⟨wider, rfl, covers⟩
  | cons assignment rest ih =>
    obtain ⟨here, later⟩ := List.forall_mem_cons.mp constants
    rw [Buffers.steps, List.foldlM_cons] at ran
    obtain ⟨after, stepped, finished⟩ := ok_of_bind ran
    obtain ⟨next, carried, nextCovers⟩ :=
      routine.carryOut_assign table covers here stepped output
    obtain ⟨wide, executed, wideCovers⟩ := ih nextCovers later finished
    refine ⟨wide, ?_, wideCovers⟩
    rw [List.map_cons, execute, List.foldlM_cons, carried]
    exact executed

theorem execute_outputs {buffers : Buffers α} {plan : Plan} {scale : Nat → ScaleId}
    {values : List α} (start count : Nat) (output : Array α) (room : start + count ≤ output.size)
    (stored : ∀ k < start + count, ∃ raw, buffers.read (plan.output k) = .ok raw ∧
      values[k]? = some (raw * table.value (scale k)))
    (constants : ∀ k < start + count,
      routine.constant? (routine.scaleText (scale k)) = some (table.value (scale k))) :
    ∃ final, routine.execute
        ((List.range' start count).map fun k => .output k (plan.output k).index (scale k))
        ⟨buffers, output⟩ = some ⟨buffers, final⟩ ∧
      final.size = output.size ∧
      ∀ k, final[k]? = if start ≤ k ∧ k < start + count then values[k]? else output[k]? := by
  induction count generalizing start output with
  | zero =>
    refine ⟨output, rfl, rfl, fun k => ?_⟩
    rw [if_neg (by omega)]
  | succ count ih =>
    obtain ⟨raw, read, here⟩ := stored start (by omega)
    have carried : routine.carryOut ⟨buffers, output⟩
        (.output start (plan.output start).index (scale start)) =
          some ⟨buffers, output.setIfInBounds start (raw * table.value (scale start))⟩ := by
      have same : (⟨.work, (plan.output start).index⟩ : Slot) = plan.output start := rfl
      simp only [carryOut, same, read, constants start (by omega)]
      exact if_pos (by omega)
    obtain ⟨final, executed, size, entries⟩ := ih (start + 1)
      (output.setIfInBounds start (raw * table.value (scale start)))
      (by rw [Array.size_setIfInBounds]; omega)
      (fun k inside => stored k (by omega)) (fun k inside => constants k (by omega))
    refine ⟨final, ?_, by rw [size, Array.size_setIfInBounds], fun k => ?_⟩
    · rw [List.range'_succ, List.map_cons, execute, List.foldlM_cons, carried]
      exact executed
    · rw [entries]
      by_cases first : k = start
      · rw [if_neg (by omega), if_pos (by omega), first, here,
          Array.getElem?_setIfInBounds_self_of_lt (by omega)]
      · rw [Array.getElem?_setIfInBounds_ne (fun same => first same.symm)]
        congr 1
        rw [eq_iff_iff]
        omega

theorem execute_all_outputs {buffers : Buffers α} {plan : Plan} {scale : Nat → ScaleId}
    {values : List α} (length : values.length = plan.outputCount) {output : Array α}
    (room : plan.outputCount ≤ output.size)
    (stored : ∀ k < plan.outputCount, ∃ raw, buffers.read (plan.output k) = .ok raw ∧
      values[k]? = some (raw * table.value (scale k)))
    (constants : ∀ k < plan.outputCount,
      routine.constant? (routine.scaleText (scale k)) = some (table.value (scale k))) :
    ∃ final, routine.execute
        ((List.range plan.outputCount).map fun k => .output k (plan.output k).index (scale k))
        ⟨buffers, output⟩ = some ⟨buffers, final⟩ ∧
      final.size = output.size ∧
      final.toList = values ++ output.toList.drop values.length := by
  obtain ⟨final, executed, size, entries⟩ :=
    routine.execute_outputs table 0 plan.outputCount output (by omega)
      (fun k inside => stored k (by omega)) (fun k inside => constants k (by omega))
  rw [← List.range_eq_range'] at executed
  refine ⟨final, executed, size, List.ext_getElem? fun k => ?_⟩
  rw [Array.getElem?_toList, entries]
  by_cases early : k < values.length
  · rw [if_pos (by omega), List.getElem?_append_left early]
  · rw [if_neg (by omega), List.getElem?_append_right (by omega), List.getElem?_drop,
      Array.getElem?_toList, Nat.add_sub_cancel' (by omega)]

end Routine

namespace Arrays

variable {α : Type}

def load (arrays : Arrays α) (input : List α) : Arrays α :=
  { arrays with buffers := { arrays.buffers with input := (input.map some).toArray } }

structure Fit (plan : Plan) (arrays : Arrays α) : Prop where
  work : arrays.buffers.work.size = plan.bufferLength
  output : plan.outputCount ≤ arrays.output.size

end Arrays

namespace Routine

variable {α : Type} [Add α] [Sub α] [Mul α] (routine : Routine α) (target : Target)

def call (arrays : Arrays α) (input : List α) : Option (Arrays α) :=
  routine.execute (target.statements routine) (arrays.load input)

/-- Calls the routine on one input after another. Each call finds the work array and the output
array as the call before has left them. -/
def callAll (arrays : Arrays α) (inputs : List (List α)) : Option (Arrays α) :=
  inputs.foldlM (routine.call target) arrays

end Routine

namespace Plan

section Call

variable {α : Type} [Add α] [Sub α] [Mul α] (plan : Plan) (table : ScaleTable α)

/-- The routine of the plan, in every target, puts the values at the start of the output array
and leaves the rest of it as it was, whatever the arrays hold. -/
def RoutineStores (input values : List α) : Prop :=
  values.length = plan.outputCount ∧
    ∀ (target : Target) (options : RoutineOptions) (arrays : Arrays α), arrays.Fit plan →
      ∃ final, (plan.routine table options).call target arrays input = some final ∧
        final.Fit plan ∧ final.output.toList = values ++ arrays.output.toList.drop values.length

variable {plan table}

theorem outputCount_of_idle {input values : List α} (ran : plan.run table input = .ok values)
    (idle : plan.assignments = []) : plan.outputCount = 0 := by
  obtain ⟨_, _, final, finished, found⟩ := exists_final ran
  rw [idle] at finished
  cases finished
  by_contra wanted
  obtain ⟨raw, read, _⟩ := found 0 (Nat.pos_of_ne_zero wanted)
  rw [Buffers.read_eq_ok] at read
  simp [output, Buffers.contents, Buffers.ofInput, Array.getElem?_replicate] at read

theorem statements_of_run {input values : List α} (ran : plan.run table input = .ok values)
    (target : Target) (options : RoutineOptions) :
    target.statements (plan.routine table options) =
      plan.assignStatements ++ plan.outputStatements table := by
  have active : (plan.routine table options).activeStatements =
      plan.assignStatements ++ plan.outputStatements table := by
    rw [Routine.activeStatements]
    split
    · rename_i idle
      have none : plan.assignments = [] :=
        List.map_eq_nil_iff.mp (List.isEmpty_iff.mp idle)
      rw [assignStatements, outputStatements, none, outputCount_of_idle ran none]
      rfl
    · rfl
  cases target with
  | javaScript => rfl
  | rust => exact active
  | c => exact active

theorem callAll_of_stores {inputs : List (List α)}
    (stores : ∀ input ∈ inputs, ∃ values, plan.RoutineStores table input values)
    (target : Target) (options : RoutineOptions) {arrays : Arrays α} (fit : arrays.Fit plan) :
    ∃ left, (plan.routine table options).callAll target arrays inputs = some left ∧
      left.Fit plan := by
  induction inputs generalizing arrays with
  | nil => exact ⟨arrays, rfl, fit⟩
  | cons input rest ih =>
    obtain ⟨⟨_, _, here⟩, later⟩ := List.forall_mem_cons.mp stores
    obtain ⟨next, called, nextFit, _⟩ := here target options arrays fit
    obtain ⟨left, finished, leftFit⟩ := ih later nextFit
    refine ⟨left, ?_, leftFit⟩
    rw [Routine.callAll, List.foldlM_cons, called]
    exact finished

end Call

section Stores

variable {α : Type} [Scalar α] {plan : Plan}

theorem routineStores_of_run {input values : List α}
    (inside : ∀ assignment ∈ plan.assignments, ∀ id ∈ assignment.scale,
      id.index < (ScaleTable.ofOrder plan.order : ScaleTable α).size)
    (ran : plan.run (.ofOrder plan.order) input = .ok values) :
    plan.RoutineStores (.ofOrder plan.order) input values := by
  obtain ⟨length, count, last, finished, found⟩ := exists_final ran
  refine ⟨count, fun target options arrays fit => ?_⟩
  have loaded : (arrays.load input).buffers.Covers (.ofInput input) :=
    Buffers.covers_ofInput rfl (fit.work.trans length.symm)
  obtain ⟨filled, assigned, covers⟩ :=
    (plan.routine (.ofOrder plan.order) options).execute_assignments _ loaded
      (fun assignment member id scaled => plan.constant?_of_uses options
        (inside assignment member id scaled) (plan.uses_of_assignment _ member scaled))
      finished arrays.output
  obtain ⟨output, stored, size, entries⟩ :=
    (plan.routine (.ofOrder plan.order) options).execute_all_outputs _ count fit.output
      (fun k wanted => (found k wanted).imp fun raw both => ⟨covers.values _ raw both.1, both.2⟩)
      fun k wanted => plan.constant?_of_output options wanted
  refine ⟨⟨filled, output⟩, ?_, ⟨?_, size ▸ fit.output⟩, entries⟩
  · rw [Routine.call, statements_of_run ran, Routine.execute, List.foldlM_append]
    exact (congrArg (· >>= _) assigned).trans stored
  · -- the routine has made no slots and taken none away, because the plan has not
    have same (slot : Slot) : filled.Has slot ↔ slot.index < plan.bufferLength := by
      rw [covers.slots, Buffers.has_of_steps _ finished, Buffers.ofInput_has, length]
    exact eq_of_forall_lt_iff fun index => same ⟨.work, index⟩

end Stores

end Plan

namespace Block

theorem scale_of_mem_pair {base truncation : Nat} {source : Buffer} {assignment : Assignment}
    (member : assignment ∈ pair base truncation source) {id : ScaleId}
    (scaled : assignment.scale = some id) : id = .quarterCosine := by
  rw [pair] at member
  split at member
  · cases List.mem_singleton.mp member
    cases scaled
  · rcases List.mem_pair.mp member with rfl | rfl
    · cases scaled
    · exact (Option.some.inj scaled).symm

theorem exists_openingDifference {half base : Nat} {odd : Option Nat} {source : Buffer}
    {assignment : Assignment} (member : assignment ∈ opening half base odd source)
    (scaled : assignment.scale ≠ none) :
    ∃ place < blockSize half, assignment = openingDifference (half + 1) base source place := by
  obtain ⟨place, inside, rfl | ⟨_, rfl⟩⟩ := mem_opening.mp member
  · rw [openingSum_eq inside] at scaled
    exact absurd rfl scaled
  · exact ⟨place, inside, rfl⟩

theorem scale_of_mem_opening {half base : Nat} {odd : Option Nat} {source : Buffer}
    {assignment : Assignment} (member : assignment ∈ opening half base odd source) {id : ScaleId}
    (scaled : assignment.scale = some id) :
    ∃ place < blockSize half, id = ⟨blockSize half - 1 + place⟩ := by
  obtain ⟨place, inside, rfl⟩ := exists_openingDifference member (by simp [scaled])
  rw [openingDifference_eq inside] at scaled
  exact ⟨place, inside, (Option.some.inj scaled).symm⟩

theorem scale_of_mem_interleave {order base truncation : Nat} {source : Buffer}
    {assignment : Assignment} (member : assignment ∈ interleave order base truncation source) :
    assignment.scale = none := by
  obtain ⟨index, _, _, rfl⟩ := mem_interleave.mp member
  rw [Assignment.scale, merge]
  dsimp only
  split
  · rfl
  · split <;> rfl

theorem scale_lt_of_mem_listing (order base truncation : Nat) (source : Buffer) :
    ∀ assignment ∈ listing order base truncation source, ∀ id ∈ assignment.scale,
      id.index + 1 < blockSize order := by
  have double (half : Nat) : blockSize (half + 2) = 2 * blockSize (half + 1) := rfl
  have inherit (half : Nat) (assignment : Assignment)
      (smaller : ∀ id ∈ assignment.scale, id.index + 1 < blockSize (half + 1)) :
      ∀ id ∈ assignment.scale, id.index + 1 < blockSize (half + 2) := by
    intro id scaled
    have below := smaller id scaled
    rw [double]
    omega
  refine forall_mem_listing (motive := fun order _ assignment =>
      ∀ id ∈ assignment.scale, id.index + 1 < blockSize order) ?_ ?_ ?_
    (fun half _ => inherit half) (fun half _ => inherit half) order base truncation source
  · intro base truncation source assignment member id scaled
    rw [scale_of_mem_pair member scaled]
    decide
  · intro half base odd source assignment member id scaled
    obtain ⟨place, inside, rfl⟩ := scale_of_mem_opening member scaled
    rw [double]
    dsimp only
    omega
  · intro half base truncation source assignment member id scaled
    rw [scale_of_mem_interleave member] at scaled
    cases scaled

end Block

theorem Plan.canonical_scales {α : Type} [Scalar α] {order : Nat} (base : Nat)
    (truncation : Option Nat) (positive : 1 ≤ order) :
    ∀ assignment ∈ (canonical order base truncation).assignments, ∀ id ∈ assignment.scale,
      id.index < (ScaleTable.ofOrder order : ScaleTable α).size := by
  obtain ⟨half, rfl⟩ := Nat.exists_eq_add_of_le' positive
  intro assignment member id scaled
  rw [ScaleTable.size_ofOrder]
  cases truncation with
  | none => simp [canonical, Block.listingOf] at member
  | some last =>
    have small := Block.scale_lt_of_mem_listing _ _ _ _ assignment member id scaled
    omega

/-- Whatever the work array holds at the start, the routine of a plan stores the values that a
run of the plan gives, where a run gives any. The plans that planning gives run on every input,
so their routines may be called again and again on the same arrays. -/
theorem routine_stores {α : Type} [Scalar α] :
    (∀ (plan : Plan) (input values : List α),
      (∀ assignment ∈ plan.assignments, ∀ id ∈ assignment.scale,
        id.index < (ScaleTable.ofOrder plan.order : ScaleTable α).size) →
      plan.run (.ofOrder plan.order) input = .ok values →
        plan.RoutineStores (.ofOrder plan.order) input values) ∧
    ∀ (session : Session) (order base : Nat) (truncation : Int) (wanted : Option Nat),
      session.Planned → Plan.validate order base truncation = .ok wanted →
        ∃ result after, (plan order base truncation).run session = (.ok result, after) ∧
          ∀ input : List α, input.length = base + blockSize order →
            ∃ values, result.run (.ofOrder order) input = .ok values ∧
              ∀ (earlier : List (List α)) (target : Target) (options : RoutineOptions)
                (arrays : Arrays α),
                (∀ other ∈ earlier, other.length = base + blockSize order) →
                arrays.Fit result →
                  ∃ left final,
                    (result.routine (.ofOrder order) options).callAll target arrays earlier =
                      some left ∧
                    (result.routine (.ofOrder order) options).call target left input =
                      some final ∧
                    final.output.toList = values ++ left.output.toList.drop values.length := by
  refine ⟨fun plan input values => Plan.routineStores_of_run, ?_⟩
  intro session order base truncation wanted planned accepted
  have positive := (Plan.validate_order accepted).1
  have stores : ∀ input : List α, input.length = base + blockSize order →
      ∃ values, (Plan.canonical order base wanted).run (.ofOrder order) input = .ok values ∧
        (Plan.canonical order base wanted).RoutineStores (.ofOrder order) input values := by
    intro input length
    obtain ⟨values, ran, _⟩ :=
      ((Plan.canonical_sound positive (Plan.validate_bounds accepted)).runs (.ofOrder order)
        rfl).2 input length
    exact ⟨values, ran,
      Plan.routineStores_of_run (Plan.canonical_scales base wanted positive) ran⟩
  refine ⟨Plan.canonical order base wanted, (Plan.build order base wanted session).2, ?_, ?_⟩
  · rw [Session.plan_of_accepted accepted, planned.build_eq positive]
  · intro input length
    obtain ⟨values, ran, _, stored⟩ := stores input length
    refine ⟨values, ran, fun earlier target options arrays lengths fit => ?_⟩
    obtain ⟨left, called, leftFit⟩ := Plan.callAll_of_stores
      (fun other member => (stores other (lengths other member)).imp fun _ both => both.2)
      target options fit
    obtain ⟨final, again, _, output⟩ := stored target options left leftFit
    exact ⟨left, final, called, again, output⟩

/-- A plan that was edited by hand: it gives a difference, scaled by the factor that is meant for
the coefficients other than the first. -/
def editedPlan : Plan where
  order := 1
  base := 0
  truncation := some 0
  live := .ofList [0, 1]
  assignments :=
    [{ destination := ⟨.work, 0⟩,
       expression := .combine .minus ⟨.input, 0⟩ ⟨.input, 1⟩ (some ⟨2⟩),
       order := 1,
       stage := .butterfly }]

theorem routine_stores_pair :
    (∃ values, editedPlan.run (.ofOrder 1) ([3, 4] : List Float) = .ok values ∧
      editedPlan.RoutineStores (.ofOrder 1) [3, 4] values) ∧
    Session.Planned ((plan 4 0 9).run .fresh).2 ∧ Plan.validate 1 0 1 = .ok (some 1) ∧
    ∃ result after, (plan 1 0 1).run ((plan 4 0 9).run .fresh).2 = (.ok result, after) ∧
      ∃ values, result.run (.ofOrder 1) ([5, 6] : List Float) = .ok values ∧
        ∀ arrays : Arrays Float, arrays.Fit result →
          ∃ left final,
            (result.routine (.ofOrder 1) {}).callAll .javaScript arrays [[1, 2], [3, 4]] =
              some left ∧
            (result.routine (.ofOrder 1) {}).call .javaScript left [5, 6] = some final ∧
            final.output.toList = values ++ left.output.toList.drop values.length := by
  have planned : Session.Planned ((plan 4 0 9).run .fresh).2 := .plan 4 0 9 .fresh
  obtain ⟨edited, given⟩ := routine_stores (α := Float)
  have inside : ∀ assignment ∈ editedPlan.assignments, ∀ id ∈ assignment.scale,
      id.index < (ScaleTable.ofOrder editedPlan.order : ScaleTable Float).size := by
    intro assignment member id scaled
    cases List.mem_singleton.mp member
    cases scaled
    decide
  refine ⟨⟨_, rfl, edited editedPlan [3, 4] _ inside rfl⟩, planned, rfl, ?_⟩
  obtain ⟨result, after, made, calls⟩ := given _ 1 0 1 (some 1) planned rfl
  obtain ⟨values, ran, again⟩ := calls [5, 6] rfl
  exact ⟨result, after, made, values, ran, fun arrays fit =>
    again [[1, 2], [3, 4]] .javaScript {} arrays (by simp [blockSize]) fit⟩

end PrunedCosine
