import PrunedCosine.Proofs.Defect

/-! Removing dead assignments. The assignments that the liveness check reports as dead are those
that the walk back leaves out. Without them a plan has no dead assignments any more, needs the
same slots at the start, and gives what it gave with them. -/

namespace PrunedCosine

namespace Liveness

/-- What the walk leaves out is not needed by what it keeps. -/
theorem needed_kept (assignments : List Assignment) (live : Finset Slot) :
    needed (kept assignments live) live = needed assignments live := by
  induction assignments with
  | nil => rfl
  | cons assignment rest ih =>
    by_cases alive : assignment.destination ∈ needed rest live
    · rw [kept_cons_live alive, needed_cons_live alive, needed_cons_live (by rwa [ih]), ih]
    · rw [kept_cons_dead alive, needed_cons_dead alive, ih]

/-- The assignments that the walk leaves out, the last one first, with their positions from
`start` on. -/
def dropped : List Assignment → Finset Slot → (start : Nat) → List (Assignment × Nat)
  | [], _, _ => []
  | assignment :: rest, live, start =>
      if assignment.destination ∈ needed rest live then dropped rest live (start + 1)
      else dropped rest live (start + 1) ++ [(assignment, start)]

section Dropped

variable {assignment : Assignment} {rest : List Assignment} {live : Finset Slot}

theorem dropped_cons_live (alive : assignment.destination ∈ needed rest live) (start : Nat) :
    dropped (assignment :: rest) live start = dropped rest live (start + 1) := by
  rw [dropped, if_pos alive]

theorem dropped_cons_dead (dead : assignment.destination ∉ needed rest live) (start : Nat) :
    dropped (assignment :: rest) live start =
      dropped rest live (start + 1) ++ [(assignment, start)] := by
  rw [dropped, if_neg dead]

theorem start_le_of_mem_dropped {assignments : List Assignment} {start : Nat}
    {entry : Assignment × Nat} (member : entry ∈ dropped assignments live start) :
    start ≤ entry.2 := by
  induction assignments generalizing start with
  | nil => simp [dropped] at member
  | cons assignment rest ih =>
    by_cases alive : assignment.destination ∈ needed rest live
    · rw [dropped_cons_live alive] at member
      exact (Nat.le_succ start).trans (ih member)
    · rw [dropped_cons_dead alive, List.mem_append, List.mem_singleton] at member
      rcases member with later | rfl
      · exact (Nat.le_succ start).trans (ih later)
      · exact le_rfl

theorem filter_dropped (assignments : List Assignment) (live : Finset Slot) (start : Nat) :
    ((assignments.zipIdx start).filter fun entry =>
        !((dropped assignments live start).map Prod.snd).contains entry.2).map Prod.fst =
      kept assignments live := by
  induction assignments generalizing start with
  | nil => rfl
  | cons assignment rest ih =>
    rw [List.zipIdx_cons]
    by_cases alive : assignment.destination ∈ needed rest live
    · have absent : start ∉ (dropped rest live (start + 1)).map Prod.snd := by
        intro member
        obtain ⟨entry, inside, same⟩ := List.mem_map.mp member
        have later := start_le_of_mem_dropped inside
        omega
      rw [dropped_cons_live alive, kept_cons_live alive,
        List.filter_cons_of_pos (by simpa using absent), List.map_cons, ih]
    · have present : start ∈ (dropped (assignment :: rest) live start).map Prod.snd := by
        simp [dropped_cons_dead alive]
      have others : ∀ entry ∈ rest.zipIdx (start + 1),
          (!((dropped (assignment :: rest) live start).map Prod.snd).contains entry.2) =
            !((dropped rest live (start + 1)).map Prod.snd).contains entry.2 := by
        intro entry member
        have later := List.le_snd_of_mem_zipIdx member
        have different : entry.2 ≠ start := by omega
        simp [dropped_cons_dead alive, different]
      rw [kept_cons_dead alive, List.filter_cons_of_neg (by simpa using present),
        List.filter_congr others, ih]

theorem dropped_kept (assignments : List Assignment) (live : Finset Slot) (start : Nat) :
    dropped (kept assignments live) live start = [] := by
  induction assignments generalizing start with
  | nil => rfl
  | cons assignment rest ih =>
    by_cases alive : assignment.destination ∈ needed rest live
    · rw [kept_cons_live alive, dropped_cons_live (by rwa [needed_kept]), ih]
    · rw [kept_cons_dead alive, ih]

end Dropped

end Liveness

namespace Defect

def deadPosition? : Defect → Option Nat
  | deadAssignment position _ => some position
  | unwrittenSource _ _ | missingInput _ | outputCoverage _ _ | extraOutput _ => none

def missingSlot? : Defect → Option Slot
  | missingInput slot => some slot
  | unwrittenSource _ _ | deadAssignment _ _ | outputCoverage _ _ | extraOutput _ => none

end Defect

namespace Plan

variable (plan : Plan)

def deadPositions : List Nat := plan.livenessDefects.filterMap Defect.deadPosition?

def missingInputs : List Slot := plan.livenessDefects.filterMap Defect.missingSlot?

def withoutDead : Plan :=
  { plan with assignments := (plan.assignments.zipIdx.filter fun entry =>
      !plan.deadPositions.contains entry.2).map Prod.fst }

def neededAtStart : Slots :=
  (plan.assignments.zipIdx.foldr livenessStep (plan.outputSlots, #[])).1

theorem mem_neededAtStart (slot : Slot) :
    slot ∈ plan.neededAtStart ↔
      slot ∈ Liveness.needed plan.assignments (span .work plan.base plan.outputCount) :=
  (liveness_walk (mem_outputSlots plan) #[] 0).1 slot

theorem liveness_found {assignments : List Assignment} {live : Finset Slot} {slots : Slots}
    (same : ∀ slot, slot ∈ slots ↔ slot ∈ live) (found : Array Defect) (start : Nat) :
    ((assignments.zipIdx start).foldr livenessStep (slots, found)).2.toList =
      found.toList ++ (Liveness.dropped assignments live start).map
        fun entry => .deadAssignment entry.2 entry.1.destination := by
  induction assignments generalizing start with
  | nil => exact (List.append_nil _).symm
  | cons assignment rest ih =>
    obtain ⟨later, _⟩ := @liveness_walk rest live slots same found (start + 1)
    rw [List.zipIdx_cons, List.foldr_cons, livenessStep]
    by_cases alive : assignment.destination ∈ Liveness.needed rest live
    · rw [if_pos (Std.TreeSet.contains_iff_mem.mpr ((later _).mpr alive)),
        Liveness.dropped_cons_live alive, ih]
    · rw [if_neg fun reached => alive ((later _).mp (Std.TreeSet.contains_iff_mem.mp reached)),
        Liveness.dropped_cons_dead alive, Array.toList_push, ih, List.map_append, List.append_assoc]
      rfl

theorem livenessDefects_eq :
    plan.livenessDefects =
      ((Liveness.dropped plan.assignments (span .work plan.base plan.outputCount) 0).map
        fun entry => .deadAssignment entry.2 entry.1.destination) ++
      (plan.neededAtStart.toList.filter (!plan.isInput ·)).map .missingInput := by
  rw [livenessDefects, liveness_found (mem_outputSlots plan) #[] 0]
  rfl

theorem deadPositions_eq :
    plan.deadPositions =
      (Liveness.dropped plan.assignments (span .work plan.base plan.outputCount) 0).map
        Prod.snd := by
  rw [deadPositions, livenessDefects_eq, List.filterMap_append, List.filterMap_map,
    List.filterMap_map]
  simp [Function.comp_def, Defect.deadPosition?]

theorem missingInputs_eq :
    plan.missingInputs = plan.neededAtStart.toList.filter (!plan.isInput ·) := by
  rw [missingInputs, livenessDefects_eq, List.filterMap_append, List.filterMap_map,
    List.filterMap_map]
  simp [Function.comp_def, Defect.missingSlot?]

theorem withoutDead_assignments :
    plan.withoutDead.assignments =
      Liveness.kept plan.assignments (span .work plan.base plan.outputCount) := by
  rw [withoutDead, deadPositions_eq, Liveness.filter_dropped]

theorem neededAtStart_withoutDead :
    plan.withoutDead.neededAtStart.toList = plan.neededAtStart.toList := by
  apply Std.TreeSet.Equiv.toList_eq
  apply Std.TreeSet.Equiv.of_forall_mem_iff
  intro slot
  rw [mem_neededAtStart, mem_neededAtStart, withoutDead_assignments]
  exact Iff.of_eq (congrArg (slot ∈ ·) (Liveness.needed_kept plan.assignments _))

/-- Without its dead assignments a plan has the same missing inputs and no other defects that the
liveness check finds. -/
theorem livenessDefects_withoutDead :
    plan.withoutDead.livenessDefects = plan.missingInputs.map .missingInput := by
  have silent : Liveness.dropped plan.withoutDead.assignments
      (span .work plan.withoutDead.base plan.withoutDead.outputCount) 0 = [] := by
    rw [withoutDead_assignments]
    exact Liveness.dropped_kept _ _ 0
  rw [livenessDefects_eq, silent, neededAtStart_withoutDead, missingInputs_eq]
  rfl

end Plan

namespace Buffers

variable {α : Type}

/-- The second buffers have the same slots and hold, in the live slots, whatever the first hold. -/
structure Agree (whole part : Buffers α) (live : Finset Slot) : Prop where
  slots : ∀ slot, part.Has slot ↔ whole.Has slot
  values : ∀ slot ∈ live, ∀ value, whole.read slot = .ok value → part.read slot = .ok value

variable {whole part after : Buffers α} {live : Finset Slot}

theorem Agree.write_dead (agree : whole.Agree part live) {slot : Slot} {value : α}
    (written : whole.write slot value = .ok after) (dead : slot ∉ live) :
    after.Agree part live := by
  obtain ⟨room, put⟩ := put_of_write written
  refine ⟨fun other => ?_, fun other used stored found => ?_⟩
  · rw [agree.slots, put.has_iff]
  · have different : other ≠ slot := fun same => dead (same ▸ used)
    rw [put.read room, if_neg different] at found
    exact agree.values other used stored found

theorem Agree.write_live {slot : Slot} {value : α} (agree : whole.Agree part (live.erase slot))
    (written : whole.write slot value = .ok after) :
    ∃ rest, part.write slot value = .ok rest ∧ after.Agree rest live := by
  obtain ⟨room, put⟩ := put_of_write written
  have partRoom := (agree.slots slot).mpr room
  obtain ⟨rest, partWritten, partPut⟩ := write_eq_ok value partRoom
  refine ⟨rest, partWritten, fun other => ?_, fun other used stored found => ?_⟩
  · rw [partPut.has_iff, put.has_iff, agree.slots]
  · rw [put.read room] at found
    rw [partPut.read partRoom]
    by_cases same : other = slot
    · rwa [if_pos same] at found ⊢
    · rw [if_neg same] at found ⊢
      exact agree.values other (Finset.mem_erase.mpr ⟨same, used⟩) stored found

variable [Add α] [Sub α] [Mul α] (table : ScaleTable α)

theorem Agree.value (agree : whole.Agree part live) {expression : Expression}
    (used : ∀ slot ∈ expression.sources, slot ∈ live) {value : α}
    (found : whole.value table expression = .ok value) :
    part.value table expression = .ok value := by
  cases expression with
  | copy source => exact agree.values source (used source (List.mem_cons_self ..)) value found
  | combine sign left right scale =>
    obtain ⟨first, readLeft, later⟩ := ok_of_bind found
    obtain ⟨second, readRight, last⟩ := ok_of_bind later
    have partLeft := agree.values left (used left (by simp [Expression.sources])) first readLeft
    have partRight :=
      agree.values right (used right (by simp [Expression.sources])) second readRight
    rw [Buffers.value, partLeft, partRight]
    exact last

/-- What the walk keeps carries out all that the live slots depend on. -/
theorem Agree.steps_kept {assignments : List Assignment} {final : Buffers α}
    (agree : whole.Agree part (Liveness.needed assignments live))
    (ran : whole.steps table assignments = .ok final) :
    ∃ rest, part.steps table (Liveness.kept assignments live) = .ok rest ∧
      final.Agree rest live := by
  induction assignments generalizing whole part with
  | nil =>
    cases ran
    exact ⟨part, rfl, agree⟩
  | cons assignment others ih =>
    rw [steps, List.foldlM_cons] at ran
    obtain ⟨after, stepped, finished⟩ := ok_of_bind ran
    obtain ⟨value, found, written⟩ := ok_of_bind stepped
    by_cases alive : assignment.destination ∈ Liveness.needed others live
    · rw [Liveness.needed_cons_live alive] at agree
      rw [Liveness.kept_cons_live alive]
      have partFound := agree.value table (fun slot read =>
        Finset.mem_union_right _ (List.mem_toFinset.mpr read)) found
      have before : whole.Agree part
          ((Liveness.needed others live).erase assignment.destination) :=
        ⟨agree.slots, fun slot used => agree.values slot (Finset.mem_union_left _ used)⟩
      obtain ⟨next, partWritten, agreeNext⟩ := before.write_live written
      obtain ⟨rest, partRan, agreeRest⟩ := ih agreeNext finished
      refine ⟨rest, ?_, agreeRest⟩
      rw [steps, List.foldlM_cons, step, partFound]
      show (part.write assignment.destination value >>= _) = _
      rw [partWritten]
      exact partRan
    · rw [Liveness.needed_cons_dead alive] at agree
      rw [Liveness.kept_cons_dead alive]
      exact ih (agree.write_dead written alive) finished

end Buffers

theorem mapM_of_imp {ι α : Type} {list : List ι} {step other : ι → Except Error α}
    {values : List α} (each : ∀ item ∈ list, ∀ value, step item = .ok value →
      other item = .ok value) (ran : list.mapM step = .ok values) :
    list.mapM other = .ok values := by
  induction list generalizing values with
  | nil => exact ran
  | cons first rest ih =>
    obtain ⟨here, others⟩ := List.forall_mem_cons.mp each
    rw [List.mapM_cons] at ran ⊢
    obtain ⟨value, found, later⟩ := ok_of_bind ran
    obtain ⟨more, there, same⟩ := ok_of_bind later
    rw [here value found, ih others there]
    exact same

theorem Plan.run_withoutDead {α : Type} [Add α] [Sub α] [Mul α] {plan : Plan}
    {table : ScaleTable α} {input values : List α} (ran : plan.run table input = .ok values) :
    plan.withoutDead.run table input = .ok values := by
  obtain ⟨final, executed, scaled⟩ := ok_of_bind ran
  rw [execute] at executed
  split at executed
  · rename_i length
    have start : (Buffers.ofInput input).Agree (Buffers.ofInput input)
        (Liveness.needed plan.assignments (span .work plan.base plan.outputCount)) :=
      ⟨fun _ => Iff.rfl, fun _ _ _ found => found⟩
    obtain ⟨rest, finished, agree⟩ := start.steps_kept table executed
    have same : plan.withoutDead.execute table input = .ok rest := by
      rw [execute, withoutDead_assignments]
      exact (if_pos length).trans finished
    have coefficients : ∀ k ∈ List.range (min plan.outputCount (plan.size + 1)), ∀ value,
        plan.coefficient table final k = .ok value → plan.coefficient table rest k = .ok value := by
      intro k wanted value found
      obtain ⟨raw, read, last⟩ := ok_of_bind found
      have inside := (Nat.lt_min.mp (List.mem_range.mp wanted)).1
      have used : plan.output k ∈ span .work plan.base plan.outputCount :=
        mem_span_mk.mpr ⟨Nat.le_add_right _ _, Nat.add_lt_add_left inside _⟩
      rw [coefficient, agree.values _ used raw read]
      exact last
    rw [run, same]
    exact mapM_of_imp coefficients scaled
  · cases executed

/-- What the liveness check reports as dead can be removed, and nothing else has to be: the plan
without it has no dead assignments and the same missing inputs, and wherever the plan gives
values, it gives the same. -/
theorem withoutDead_sound (plan : Plan) :
    plan.withoutDead.deadPositions = [] ∧
      plan.withoutDead.livenessDefects = plan.missingInputs.map .missingInput ∧
      ∀ {α : Type} [Add α] [Sub α] [Mul α] (table : ScaleTable α) (input values : List α),
        plan.run table input = .ok values → plan.withoutDead.run table input = .ok values := by
  refine ⟨?_, plan.livenessDefects_withoutDead, fun table input values => Plan.run_withoutDead⟩
  rw [Plan.deadPositions, plan.livenessDefects_withoutDead, List.filterMap_map]
  simp [Function.comp_def, Defect.deadPosition?]

/-- A plan with a chain of assignments that only feed a dead one, and a read of its own
destination. -/
def cumbersomePlan : Plan where
  order := 1
  base := 0
  truncation := some 0
  live := .ofList [0, 1]
  assignments :=
    [{ destination := ⟨.work, 1⟩,
       expression := .combine .minus ⟨.input, 0⟩ ⟨.input, 1⟩ (some ⟨0⟩),
       order := 1,
       stage := .butterfly },
     { destination := ⟨.work, 0⟩,
       expression := .combine .plus ⟨.input, 0⟩ ⟨.input, 1⟩ none,
       order := 1,
       stage := .butterfly },
     { destination := ⟨.work, 1⟩,
       expression := .combine .plus ⟨.work, 1⟩ ⟨.work, 0⟩ none,
       order := 1,
       stage := .butterfly },
     { destination := ⟨.work, 0⟩,
       expression := .combine .plus ⟨.work, 0⟩ ⟨.work, 0⟩ none,
       order := 1,
       stage := .butterfly },
     { destination := ⟨.input, 1⟩,
       expression := .copy ⟨.work, 1⟩,
       order := 1,
       stage := .interleave }]

theorem withoutDead_sound_cumbersome :
    cumbersomePlan.deadPositions = [4, 2, 0] ∧
      ∃ values, cumbersomePlan.run (.ofOrder 1) ([3, 4] : List Float) = .ok values ∧
        cumbersomePlan.withoutDead.run (.ofOrder 1) [3, 4] = .ok values := by
  have dead : cumbersomePlan.deadPositions = [4, 2, 0] := by decide +kernel
  have ran : ∃ values, cumbersomePlan.run (.ofOrder 1) ([3, 4] : List Float) = .ok values :=
    ⟨_, rfl⟩
  obtain ⟨values, found⟩ := ran
  exact ⟨dead, values, found, (withoutDead_sound cumbersomePlan).2.2 _ _ _ found⟩

end PrunedCosine
