import PrunedCosine.Proofs.Defect

/-! What the coverage check accepts. Among the writes of the final stage to the work buffer it
accepts just the rearrangements of the wanted slots. A write to the input buffer is only checked
for its index: at the index of a wanted coefficient it goes unnoticed. -/

namespace PrunedCosine

namespace Plan

variable (plan : Plan)

def finalWrites : List Slot := plan.finalStage.map Assignment.destination

def wantedSlots : List Slot := (List.range plan.outputCount).map plan.output

def Wants (index : Nat) : Prop := plan.base ≤ index ∧ index < plan.base + plan.outputCount

variable {plan}

theorem mem_wantedSlots {slot : Slot} :
    slot ∈ plan.wantedSlots ↔ slot.buffer = .work ∧ plan.Wants slot.index :=
  mem_outputs plan slot

theorem outputCount_le (bound : ∀ last ∈ plan.truncation, last < blockSize plan.order) :
    plan.outputCount ≤ plan.size := by
  rw [outputCount]
  cases wanted : plan.truncation with
  | none => exact Nat.zero_le _
  | some last =>
    have inside : last < plan.size := bound last wanted
    dsimp only
    rw [if_pos inside]
    exact inside

/-- The check looks at the indices of all writes, and counts those to the work buffer. -/
theorem coverageDefects_eq_nil_iff_count
    (bound : ∀ last ∈ plan.truncation, last < blockSize plan.order) :
    plan.coverageDefects = [] ↔
      (∀ slot ∈ plan.finalWrites, plan.Wants slot.index) ∧
        ∀ slot ∈ plan.wantedSlots, plan.finalWrites.count slot = 1 := by
  have all : min plan.size plan.outputCount = plan.outputCount :=
    Nat.min_eq_right (outputCount_le bound)
  have each : (∀ slot ∈ plan.wantedSlots, plan.finalWrites.count slot = 1) ↔
      ∀ k < plan.outputCount, plan.finalWrites.count (plan.output k) = 1 := by
    rw [wantedSlots, List.forall_mem_map]
    simp only [List.mem_range]
  rw [coverageDefects_eq_nil_iff, all, each]
  rfl

theorem count_filter_work {slots : List Slot} {slot : Slot} (work : slot.buffer = .work) :
    (slots.filter fun other => other.buffer = .work).count slot = slots.count slot :=
  List.count_filter (by simpa using work)

theorem work_perm_iff :
    (plan.finalWrites.filter fun slot => slot.buffer = .work).Perm plan.wantedSlots ↔
      (∀ slot ∈ plan.finalWrites, slot.buffer = .work → plan.Wants slot.index) ∧
        ∀ slot ∈ plan.wantedSlots, plan.finalWrites.count slot = 1 := by
  have once : plan.wantedSlots.Nodup := nodup_outputs plan
  constructor
  · intro perm
    refine ⟨fun slot member work => ?_, fun slot wanted => ?_⟩
    · have kept : slot ∈ plan.finalWrites.filter fun slot => slot.buffer = .work :=
        List.mem_filter.mpr ⟨member, by simpa using work⟩
      exact (mem_wantedSlots.mp (perm.mem_iff.mp kept)).2
    · rw [← count_filter_work (mem_wantedSlots.mp wanted).1, perm.count_eq]
      exact List.count_eq_one_of_mem once wanted
  · rintro ⟨inside, each⟩
    rw [List.perm_iff_count]
    intro slot
    by_cases wanted : slot ∈ plan.wantedSlots
    · rw [List.count_eq_one_of_mem once wanted, count_filter_work (mem_wantedSlots.mp wanted).1,
        each slot wanted]
    · rw [List.count_eq_zero_of_not_mem wanted, List.count_eq_zero]
      intro kept
      obtain ⟨member, work⟩ := List.mem_filter.mp kept
      have work : slot.buffer = .work := by simpa using work
      exact wanted (mem_wantedSlots.mpr ⟨work, inside slot member work⟩)

theorem filter_work_eq_self (work : ∀ slot ∈ plan.finalWrites, slot.buffer = .work) :
    (plan.finalWrites.filter fun slot => slot.buffer = .work) = plan.finalWrites :=
  List.filter_eq_self.mpr fun slot member => decide_eq_true (work slot member)

end Plan

open Plan

/-- The coverage check finds nothing exactly if the writes of the final stage to the work buffer
are a rearrangement of the wanted slots and its writes to the input buffer, if there are any,
stay at the indices of wanted coefficients. So where the final stage leaves the input buffer
alone, the check finds nothing exactly if the writes are a rearrangement of the wanted slots. -/
theorem coverage_accepts_iff (plan : Plan)
    (bound : ∀ last ∈ plan.truncation, last < blockSize plan.order) :
    (plan.coverageDefects = [] ↔
      (plan.finalWrites.filter fun slot => slot.buffer = .work).Perm plan.wantedSlots ∧
        ∀ slot ∈ plan.finalWrites, slot.buffer = .input → plan.Wants slot.index) ∧
    (plan.finalWrites.Perm plan.wantedSlots ↔
      plan.coverageDefects = [] ∧ ∀ slot ∈ plan.finalWrites, slot.buffer = .work) := by
  have accepted : plan.coverageDefects = [] ↔
      (plan.finalWrites.filter fun slot => slot.buffer = .work).Perm plan.wantedSlots ∧
        ∀ slot ∈ plan.finalWrites, slot.buffer = .input → plan.Wants slot.index := by
    rw [coverageDefects_eq_nil_iff_count bound, work_perm_iff]
    constructor
    · rintro ⟨inside, each⟩
      exact ⟨⟨fun slot member _ => inside slot member, each⟩, fun slot member _ => inside slot member⟩
    · rintro ⟨⟨work, each⟩, input⟩
      refine ⟨fun slot member => ?_, each⟩
      cases buffer : slot.buffer with
      | input => exact input slot member buffer
      | work => exact work slot member buffer
  refine ⟨accepted, fun perm => ?_, fun ⟨clean, work⟩ => ?_⟩
  · have work : ∀ slot ∈ plan.finalWrites, slot.buffer = .work := fun slot member =>
      (mem_wantedSlots.mp (perm.mem_iff.mp member)).1
    refine ⟨accepted.mpr ⟨?_, fun slot member input => ?_⟩, work⟩
    · rwa [filter_work_eq_self work]
    · exact nomatch input.symm.trans (work slot member)
  · rw [← filter_work_eq_self work]
    exact (accepted.mp clean).1

/-- The sum of two values is made in place and then copied to where it is wanted. Both
assignments belong to the final stage. -/
def inPlacePlan : Plan where
  order := 1
  base := 0
  truncation := some 0
  live := .ofList [0, 1]
  assignments :=
    [{ destination := ⟨.input, 0⟩,
       expression := .combine .plus ⟨.input, 0⟩ ⟨.input, 1⟩ none,
       order := 1,
       stage := .butterfly },
     { destination := ⟨.work, 0⟩,
       expression := .copy ⟨.input, 0⟩,
       order := 1,
       stage := .interleave }]

theorem coverage_accepts_iff_inPlace :
    (∀ last ∈ inPlacePlan.truncation, last < blockSize inPlacePlan.order) ∧
      inPlacePlan.coverageDefects = [] ∧
      (inPlacePlan.finalWrites.filter fun slot => slot.buffer = .work).Perm
        inPlacePlan.wantedSlots := by
  have bound : ∀ last ∈ inPlacePlan.truncation, last < blockSize inPlacePlan.order := by decide
  have clean : inPlacePlan.coverageDefects = [] := by decide
  exact ⟨bound, clean, ((coverage_accepts_iff inPlacePlan bound).1.mp clean).1⟩

/-- The check does not notice the write to the input buffer. -/
theorem coverage_misses_input_write :
    inPlacePlan.coverageDefects = [] ∧ ¬inPlacePlan.finalWrites.Perm inPlacePlan.wantedSlots := by
  decide

end PrunedCosine
