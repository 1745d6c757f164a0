import PrunedCosine.Defect
import PrunedCosine.Proofs.Execution
import PrunedCosine.Proofs.Pruning

/-! When the structural checks find nothing: the dependency check, if every read is grounded in
the input; the liveness check, exactly if the walk keeps everything and needs only inputs; the
coverage check, if the final stage writes the coefficients one after the other. -/

namespace PrunedCosine

theorem Slots.mem_insert {slots : Slots} {added slot : Slot} :
    slot ∈ slots.insert added ↔ slot = added ∨ slot ∈ slots := by
  rw [Std.TreeSet.mem_insert, Std.LawfulEqCmp.compare_eq_iff_eq, eq_comm]

theorem Slots.mem_erase {slots : Slots} {removed slot : Slot} :
    slot ∈ slots.erase removed ↔ slot ≠ removed ∧ slot ∈ slots := by
  rw [Std.TreeSet.mem_erase, ne_eq, ne_eq, Std.LawfulEqCmp.compare_eq_iff_eq, eq_comm]

namespace Plan

section Dependency

variable (plan : Plan)

theorem isInput_iff (slot : Slot) :
    plan.isInput slot ↔
      slot.buffer = .input ∧ plan.base ≤ slot.index ∧ slot.index < plan.bufferLength := by
  rw [isInput, Bool.and_eq_true, beq_iff_eq, decide_eq_true_eq]

theorem dependency_grounded {assignments : List Assignment} {known : Set Slot} {slots : Slots}
    (same : ∀ slot, plan.isInput slot ∨ slot ∈ slots ↔ slot ∈ known) (found : Array Defect)
    (start : Nat) (grounded : Grounded assignments known) :
    ((assignments.zipIdx start).foldl plan.dependencyStep (slots, found)).2 = found := by
  induction assignments generalizing known slots start with
  | nil => rfl
  | cons assignment rest ih =>
    have unwritten : (assignment.sources.filter
        fun slot => !(plan.isInput slot || slots.contains slot)) = [] := by
      rw [List.filter_eq_nil_iff]
      intro slot read
      have readable := (same slot).mpr (grounded.1 slot read)
      rw [← Std.TreeSet.contains_iff_mem, ← Bool.or_eq_true] at readable
      rw [readable]
      decide
    have next : ∀ slot, plan.isInput slot ∨ slot ∈ slots.insert assignment.destination ↔
        slot ∈ insert assignment.destination known := by
      intro slot
      rw [Slots.mem_insert, Set.mem_insert_iff, ← same, or_left_comm]
    rw [List.zipIdx_cons, List.foldl_cons, dependencyStep, unwritten, List.map_nil,
      Array.append_empty]
    exact ih next (start + 1) grounded.2

theorem dependencyDefects_eq_nil (grounded : Grounded plan.assignments {slot | plan.isInput slot}) :
    plan.dependencyDefects = [] := by
  have start : ∀ slot, plan.isInput slot ∨ slot ∈ (.empty : Slots) ↔
      slot ∈ {slot | plan.isInput slot} :=
    fun slot => or_iff_left Std.TreeSet.not_mem_emptyc
  rw [dependencyDefects, dependency_grounded plan start #[] 0 grounded]

end Dependency

section Liveness

/-- The walk of the check and the walk back agree on what is needed; the check reports nothing
where the walk keeps everything. -/
theorem liveness_walk {assignments : List Assignment} {live : Finset Slot} {slots : Slots}
    (same : ∀ slot, slot ∈ slots ↔ slot ∈ live) (found : Array Defect) (start : Nat) :
    (∀ slot, slot ∈ ((assignments.zipIdx start).foldr livenessStep (slots, found)).1 ↔
        slot ∈ Liveness.needed assignments live) ∧
      (Liveness.kept assignments live = assignments →
        ((assignments.zipIdx start).foldr livenessStep (slots, found)).2 = found) := by
  induction assignments generalizing start with
  | nil => exact ⟨same, fun _ => rfl⟩
  | cons assignment rest ih =>
    obtain ⟨later, silent⟩ := ih (start + 1)
    rw [List.zipIdx_cons, List.foldr_cons, livenessStep]
    by_cases alive : assignment.destination ∈ Liveness.needed rest live
    · rw [if_pos (Std.TreeSet.contains_iff_mem.mpr ((later _).mpr alive)),
        Liveness.needed_cons_live alive, Liveness.kept_cons_live alive]
      refine ⟨fun slot => ?_, fun all => silent (List.cons.inj all).2⟩
      rw [Std.TreeSet.mem_insertMany_list, Slots.mem_erase, later, Finset.mem_union,
        Finset.mem_erase, List.mem_toFinset, List.contains_iff_mem]
    · rw [if_neg fun reached => alive ((later _).mp (Std.TreeSet.contains_iff_mem.mp reached)),
        Liveness.needed_cons_dead alive, Liveness.kept_cons_dead alive]
      refine ⟨later, fun all => ?_⟩
      have shorter := (Liveness.kept_sublist rest live).length_le
      rw [all, List.length_cons] at shorter
      omega

theorem mem_outputSlots (plan : Plan) (slot : Slot) :
    slot ∈ plan.outputSlots ↔ slot ∈ span .work plan.base plan.outputCount := by
  rw [outputSlots, Std.TreeSet.mem_ofList, List.contains_iff_mem, span, Finset.mem_image]
  simp [output]

theorem livenessDefects_eq_nil (plan : Plan)
    (all : Liveness.kept plan.assignments (span .work plan.base plan.outputCount) =
      plan.assignments)
    (provided : ∀ slot ∈ Liveness.needed plan.assignments
      (span .work plan.base plan.outputCount), plan.isInput slot) :
    plan.livenessDefects = [] := by
  obtain ⟨needed, silent⟩ := liveness_walk (mem_outputSlots plan) #[] 0
  have missing : (plan.assignments.zipIdx.foldr livenessStep (plan.outputSlots, #[])).1.toList.filter
      (!plan.isInput ·) = [] := by
    rw [List.filter_eq_nil_iff]
    intro slot member
    rw [Std.TreeSet.mem_toList, needed] at member
    rw [provided slot member]
    decide
  rw [livenessDefects, silent all, missing]
  rfl

theorem size_liveness_walk (assignments : List Assignment) (slots : Slots) (found : Array Defect)
    (start : Nat) :
    found.size ≤ ((assignments.zipIdx start).foldr livenessStep (slots, found)).2.size := by
  induction assignments generalizing start with
  | nil => exact le_rfl
  | cons assignment rest ih =>
    have later := ih (start + 1)
    rw [List.zipIdx_cons, List.foldr_cons, livenessStep]
    split
    · exact later
    · rw [Array.size_push]
      omega

theorem kept_of_silent {assignments : List Assignment} {live : Finset Slot} {slots : Slots}
    (same : ∀ slot, slot ∈ slots ↔ slot ∈ live) {found : Array Defect} {start : Nat}
    (silent : ((assignments.zipIdx start).foldr livenessStep (slots, found)).2 = found) :
    Liveness.kept assignments live = assignments := by
  induction assignments generalizing start with
  | nil => rfl
  | cons assignment rest ih =>
    obtain ⟨later, _⟩ := @liveness_walk rest live slots same found (start + 1)
    rw [List.zipIdx_cons, List.foldr_cons, livenessStep] at silent
    split at silent
    · rename_i reached
      have alive := (later _).mp (Std.TreeSet.contains_iff_mem.mp reached)
      rw [Liveness.kept_cons_live alive, ih silent]
    · have more := size_liveness_walk rest slots found (start + 1)
      have sizes := congrArg Array.size silent
      rw [Array.size_push] at sizes
      omega

/-- A plan in which the check finds nothing is kept whole and needs only inputs. -/
theorem walk_of_livenessDefects {plan : Plan} (clean : plan.livenessDefects = []) :
    Liveness.kept plan.assignments (span .work plan.base plan.outputCount) = plan.assignments ∧
      ∀ slot ∈ Liveness.needed plan.assignments (span .work plan.base plan.outputCount),
        plan.isInput slot := by
  obtain ⟨dead, missing⟩ := List.append_eq_nil_iff.mp clean
  have silent : (plan.assignments.zipIdx.foldr livenessStep (plan.outputSlots, #[])).2 = #[] :=
    Array.toList_eq_nil_iff.mp dead
  obtain ⟨needed, _⟩ := @liveness_walk plan.assignments _ _ (mem_outputSlots plan) #[] 0
  refine ⟨kept_of_silent (mem_outputSlots plan) silent, fun slot used => ?_⟩
  have listed := Std.TreeSet.mem_toList.mpr ((needed slot).mpr used)
  have rejected := List.filter_eq_nil_iff.mp (List.map_eq_nil_iff.mp missing) slot listed
  simpa using rejected

end Liveness

section Coverage

variable (plan : Plan)

theorem getElem?_countWrite (writes : Array Nat) (slot : Slot) (k : Nat) :
    (plan.countWrite writes slot)[k]? =
      writes[k]?.map (· + if slot = plan.output k then 1 else 0) := by
  rw [countWrite]
  split
  · rename_i counted
    rw [Array.getElem?_modify]
    have same : slot.index - plan.base = k ↔ slot = plan.output k := by
      rcases slot with ⟨buffer, index⟩
      obtain ⟨rfl, least⟩ := counted
      rw [output, Slot.mk.injEq, and_iff_right rfl]
      dsimp only at least ⊢
      omega
    by_cases hit : slot = plan.output k
    · rw [if_pos (same.mpr hit), if_pos hit]
    · rw [if_neg fun equal => hit (same.mp equal), if_neg hit]
      simp
  · rename_i uncounted
    have different : slot ≠ plan.output k := by
      intro same
      apply uncounted
      rw [same]
      exact ⟨rfl, Nat.le_add_right _ _⟩
    rw [if_neg different]
    simp

theorem getElem?_foldl_countWrite (writes : Array Nat) (slots : List Slot) (k : Nat) :
    (slots.foldl plan.countWrite writes)[k]? = writes[k]?.map (· + slots.count (plan.output k)) := by
  induction slots generalizing writes with
  | nil => simp
  | cons slot rest ih =>
    rw [List.foldl_cons, ih, getElem?_countWrite, Option.map_map, List.count_cons]
    congr 1
    funext count
    rw [Function.comp_apply, beq_eq_decide]
    simp only [decide_eq_true_eq]
    omega

theorem extraOutput?_eq_none_iff (slot : Slot) :
    plan.extraOutput? slot = none ↔
      plan.base ≤ slot.index ∧ slot.index < plan.base + plan.outputCount := by
  rw [extraOutput?]
  split
  · simp only [reduceCtorEq, false_iff]
    omega
  · split
    · simp only [reduceCtorEq, false_iff]
      omega
    · simp only [true_iff]
      omega

/-- The check finds nothing exactly if the final stage stays at the indices of the wanted
coefficients and writes the slot of each once. -/
theorem coverageDefects_eq_nil_iff :
    plan.coverageDefects = [] ↔
      (∀ slot ∈ plan.finalStage.map Assignment.destination,
        plan.base ≤ slot.index ∧ slot.index < plan.base + plan.outputCount) ∧
      ∀ k < min plan.size plan.outputCount,
        (plan.finalStage.map Assignment.destination).count (plan.output k) = 1 := by
  have written (k : Nat) : plan.outputWrites.toList[k]? =
      if k < min plan.size plan.outputCount then
        some ((plan.finalStage.map Assignment.destination).count (plan.output k))
      else none := by
    rw [Array.getElem?_toList, outputWrites, getElem?_foldl_countWrite, Array.getElem?_replicate]
    split <;> simp
  rw [coverageDefects, List.append_eq_nil_iff, List.filterMap_eq_nil_iff,
    List.filterMap_eq_nil_iff, List.forall_mem_map]
  refine and_congr ?_ ⟨fun counted k inside => ?_, fun once ⟨writes, k⟩ member => ?_⟩
  · exact forall₂_congr fun assignment _ => plan.extraOutput?_eq_none_iff assignment.destination
  · have found := written k
    rw [if_pos inside] at found
    by_contra other
    have silent := counted (_, k) (List.mem_zipIdx_iff_getElem?.mpr found)
    cases (if_neg other).symm.trans silent
  · rw [List.mem_zipIdx_iff_getElem?, written] at member
    split at member
    · rename_i inside
      rw [once k inside] at member
      exact if_pos (Option.some.inj member).symm
    · cases member

theorem mem_outputs (slot : Slot) :
    slot ∈ (List.range plan.outputCount).map plan.output ↔
      slot.buffer = .work ∧ plan.base ≤ slot.index ∧
        slot.index < plan.base + plan.outputCount := by
  rw [List.mem_map]
  constructor
  · rintro ⟨k, inside, rfl⟩
    exact ⟨rfl, Nat.le_add_right _ _, Nat.add_lt_add_left (List.mem_range.mp inside) _⟩
  · rintro ⟨buffer, least, most⟩
    refine ⟨slot.index - plan.base, List.mem_range.mpr (by omega), ?_⟩
    rw [output, Nat.add_sub_cancel' least, ← buffer]

theorem nodup_outputs : ((List.range plan.outputCount).map plan.output).Nodup := by
  apply List.nodup_range.map
  intro first second same
  simpa [output] using same

theorem coverageDefects_eq_nil
    (destinations : plan.finalStage.map Assignment.destination =
      (List.range plan.outputCount).map plan.output) : plan.coverageDefects = [] := by
  rw [coverageDefects_eq_nil_iff, destinations]
  refine ⟨fun slot member => ((mem_outputs plan slot).mp member).2, fun k inside => ?_⟩
  apply List.count_eq_one_of_mem (nodup_outputs plan)
  exact List.mem_map_of_mem (List.mem_range.mpr (by omega))

end Coverage

end Plan

end PrunedCosine
