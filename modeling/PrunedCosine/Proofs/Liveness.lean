import PrunedCosine.Proofs.Layer
import Mathlib.Data.Finset.Image

/-! Backward liveness. A list of assignments is walked from the last to the first with the
slots that are still needed: an assignment whose destination is not needed is left out, any
other is kept, its destination stops being needed and its sources become needed. -/

namespace PrunedCosine.Liveness

/-- The slots needed before the assignments, from those needed after them. -/
def needed : List Assignment → Finset Slot → Finset Slot
  | [], live => live
  | assignment :: rest, live =>
      let later := needed rest live
      if assignment.destination ∈ later then
        later.erase assignment.destination ∪ assignment.sources.toFinset
      else later

/-- The assignments whose destinations are needed when they are reached. -/
def kept : List Assignment → Finset Slot → List Assignment
  | [], _ => []
  | assignment :: rest, live =>
      if assignment.destination ∈ needed rest live then assignment :: kept rest live
      else kept rest live

section Walk

variable {assignment : Assignment} {rest : List Assignment} {live : Finset Slot}

theorem needed_cons_live (alive : assignment.destination ∈ needed rest live) :
    needed (assignment :: rest) live =
      (needed rest live).erase assignment.destination ∪ assignment.sources.toFinset := by
  rw [needed, if_pos alive]

theorem needed_cons_dead (dead : assignment.destination ∉ needed rest live) :
    needed (assignment :: rest) live = needed rest live := by
  rw [needed, if_neg dead]

theorem kept_cons_live (alive : assignment.destination ∈ needed rest live) :
    kept (assignment :: rest) live = assignment :: kept rest live := by
  rw [kept, if_pos alive]

theorem kept_cons_dead (dead : assignment.destination ∉ needed rest live) :
    kept (assignment :: rest) live = kept rest live := by
  rw [kept, if_neg dead]

theorem needed_append (first second : List Assignment) (live : Finset Slot) :
    needed (first ++ second) live = needed first (needed second live) := by
  induction first with
  | nil => rfl
  | cons assignment rest ih => rw [List.cons_append, needed, needed, ih]

theorem kept_append (first second : List Assignment) (live : Finset Slot) :
    kept (first ++ second) live = kept first (needed second live) ++ kept second live := by
  induction first with
  | nil => rfl
  | cons assignment rest ih =>
    rw [List.cons_append, kept, kept, needed_append, ih]
    split <;> rfl

theorem kept_sublist (assignments : List Assignment) (live : Finset Slot) :
    (kept assignments live).Sublist assignments := by
  induction assignments with
  | nil => exact List.Sublist.slnil
  | cons assignment rest ih =>
    by_cases alive : assignment.destination ∈ needed rest live
    · rw [kept_cons_live alive]
      exact ih.cons_cons assignment
    · rw [kept_cons_dead alive]
      exact ih.cons assignment

theorem dead_walk {assignments : List Assignment}
    (dead : ∀ assignment ∈ assignments, assignment.destination ∉ live) :
    needed assignments live = live ∧ kept assignments live = [] := by
  induction assignments with
  | nil => exact ⟨rfl, rfl⟩
  | cons assignment rest ih =>
    obtain ⟨later, none⟩ := ih fun other member => dead other (List.mem_cons_of_mem _ member)
    have unused : assignment.destination ∉ needed rest live := by
      rw [later]
      exact dead assignment (List.mem_cons_self ..)
    rw [needed_cons_dead unused, kept_cons_dead unused]
    exact ⟨later, none⟩

theorem mem_needed_frame {assignments : List Assignment} {slot : Slot}
    (written : ∀ assignment ∈ assignments, assignment.destination ≠ slot)
    (read : ∀ assignment ∈ assignments, slot ∉ assignment.sources) :
    slot ∈ needed assignments live ↔ slot ∈ live := by
  induction assignments with
  | nil => exact Iff.rfl
  | cons assignment rest ih =>
    obtain ⟨different, written⟩ := List.forall_mem_cons.mp written
    obtain ⟨unread, read⟩ := List.forall_mem_cons.mp read
    by_cases alive : assignment.destination ∈ needed rest live
    · rw [needed_cons_live alive, ← ih written read]
      simp [different.symm, unread]
    · rw [needed_cons_dead alive]
      exact ih written read

end Walk

section Parallel

variable {assignments : List Assignment} {live : Finset Slot}

theorem head_needed {first : Assignment} {rest : List Assignment}
    (parallel : Parallel (first :: rest)) (live : Finset Slot) :
    first.destination ∈ needed rest live ↔ first.destination ∈ live :=
  mem_needed_frame parallel.head_fresh fun other member =>
    parallel.apart other (List.mem_cons_of_mem _ member) first (List.mem_cons_self ..)

/-- Among parallel assignments the walk looks at each one as if it were the last. -/
theorem mem_needed_parallel (parallel : Parallel assignments) (slot : Slot) :
    slot ∈ needed assignments live ↔
      (slot ∈ live ∧ ∀ assignment ∈ assignments, assignment.destination ≠ slot) ∨
        ∃ assignment ∈ assignments, assignment.destination ∈ live ∧ slot ∈ assignment.sources := by
  induction assignments generalizing slot with
  | nil => simp [needed]
  | cons first rest ih =>
    have reached := head_needed parallel live
    by_cases alive : first.destination ∈ live
    · rw [needed_cons_live (reached.mpr alive), Finset.mem_union, Finset.mem_erase,
        List.mem_toFinset, ih parallel.tail]
      constructor
      · intro before
        rcases before with ⟨different, ⟨later, untouched⟩ | ⟨other, member, used, read⟩⟩ | read
        · exact Or.inl ⟨later, List.forall_mem_cons.mpr ⟨different.symm, untouched⟩⟩
        · exact Or.inr ⟨other, List.mem_cons_of_mem _ member, used, read⟩
        · exact Or.inr ⟨first, List.mem_cons_self .., alive, read⟩
      · intro before
        rcases before with ⟨later, untouched⟩ | ⟨other, member, used, read⟩
        · obtain ⟨different, untouched⟩ := List.forall_mem_cons.mp untouched
          exact Or.inl ⟨different.symm, Or.inl ⟨later, untouched⟩⟩
        · rcases List.mem_cons.mp member with rfl | tail
          · exact Or.inr read
          · have different : slot ≠ first.destination := fun same =>
              parallel.apart other member first (List.mem_cons_self ..) (same ▸ read)
            exact Or.inl ⟨different, Or.inr ⟨other, tail, used, read⟩⟩
    · rw [needed_cons_dead (fun inside => alive (reached.mp inside)), ih parallel.tail]
      constructor
      · intro before
        rcases before with ⟨later, untouched⟩ | ⟨other, member, used, read⟩
        · have different : first.destination ≠ slot := fun same => alive (same ▸ later)
          exact Or.inl ⟨later, List.forall_mem_cons.mpr ⟨different, untouched⟩⟩
        · exact Or.inr ⟨other, List.mem_cons_of_mem _ member, used, read⟩
      · intro before
        rcases before with ⟨later, untouched⟩ | ⟨other, member, used, read⟩
        · exact Or.inl ⟨later, (List.forall_mem_cons.mp untouched).2⟩
        · rcases List.mem_cons.mp member with rfl | tail
          · exact absurd used alive
          · exact Or.inr ⟨other, tail, used, read⟩

theorem kept_parallel (parallel : Parallel assignments) :
    kept assignments live =
      assignments.filter fun assignment => assignment.destination ∈ live := by
  induction assignments with
  | nil => rfl
  | cons first rest ih =>
    rw [kept, List.filter_cons, ih parallel.tail]
    simp only [head_needed parallel live, decide_eq_true_eq]

end Parallel

end PrunedCosine.Liveness
