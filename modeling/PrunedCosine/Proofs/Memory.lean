import PrunedCosine.Evaluate
import PrunedCosine.Proofs.Liveness
import Mathlib.Logic.Function.Basic

/-! Running assignments on a memory in which every slot holds a value. No run on such a memory
can fail, so what a list of assignments computes can be said by equations. -/

namespace PrunedCosine

abbrev Memory (α : Type) := Slot → α

namespace Memory

variable {α : Type} [Add α] [Sub α] [Mul α]

def value (table : ScaleTable α) (memory : Memory α) : Expression → α
  | .combine sign left right (some id) => sign.apply (memory left) (memory right) * table.value id
  | .combine sign left right none => sign.apply (memory left) (memory right)
  | .copy source => memory source

def step (table : ScaleTable α) (memory : Memory α) (assignment : Assignment) : Memory α :=
  Function.update memory assignment.destination (memory.value table assignment.expression)

def run (table : ScaleTable α) (memory : Memory α) (assignments : List Assignment) : Memory α :=
  assignments.foldl (step table) memory

variable (table : ScaleTable α)

theorem run_cons (memory : Memory α) (assignment : Assignment) (rest : List Assignment) :
    memory.run table (assignment :: rest) = (memory.step table assignment).run table rest := rfl

theorem run_append (memory : Memory α) (first second : List Assignment) :
    memory.run table (first ++ second) = (memory.run table first).run table second :=
  List.foldl_append

theorem value_congr {first second : Memory α} {expression : Expression}
    (agree : ∀ slot ∈ expression.sources, first slot = second slot) :
    first.value table expression = second.value table expression := by
  cases expression with
  | combine sign left right scale =>
    have leftSame := agree left (List.mem_cons_self ..)
    have rightSame := agree right (List.mem_cons_of_mem _ (List.mem_cons_self ..))
    cases scale <;> simp only [value, leftSame, rightSame]
  | copy source => exact agree source (List.mem_cons_self ..)

theorem step_self (memory : Memory α) (assignment : Assignment) :
    memory.step table assignment assignment.destination =
      memory.value table assignment.expression :=
  Function.update_self ..

theorem step_of_ne (memory : Memory α) {assignment : Assignment} {slot : Slot}
    (different : assignment.destination ≠ slot) : memory.step table assignment slot = memory slot :=
  Function.update_of_ne different.symm ..

theorem run_frame (memory : Memory α) {assignments : List Assignment} {slot : Slot}
    (untouched : ∀ assignment ∈ assignments, assignment.destination ≠ slot) :
    memory.run table assignments slot = memory slot := by
  induction assignments generalizing memory with
  | nil => rfl
  | cons first rest ih =>
    obtain ⟨different, others⟩ := List.forall_mem_cons.mp untouched
    rw [run_cons, ih _ others, step_of_ne table memory different]

/-- Each of several parallel assignments sees the memory as it was at the start. -/
theorem run_parallel (memory : Memory α) {assignments : List Assignment}
    (parallel : Parallel assignments) {assignment : Assignment}
    (member : assignment ∈ assignments) :
    memory.run table assignments assignment.destination =
      memory.value table assignment.expression := by
  induction assignments generalizing memory with
  | nil => simp at member
  | cons first rest ih =>
    rw [run_cons]
    rcases List.mem_cons.mp member with same | later
    · rw [same, run_frame table _ parallel.head_fresh, step_self]
    · rw [ih _ parallel.tail later]
      apply value_congr
      intro slot read
      apply step_of_ne
      intro written
      exact parallel.apart assignment member first (List.mem_cons_self ..) (written ▸ read)

/-- What the walk keeps computes the needed slots just as the whole list does, from any memory
that holds the same in the slots needed at the start. -/
theorem run_kept {assignments : List Assignment} {live : Finset Slot} {whole part : Memory α}
    (agree : ∀ slot ∈ Liveness.needed assignments live, whole slot = part slot) :
    ∀ slot ∈ live,
      whole.run table assignments slot =
        part.run table (Liveness.kept assignments live) slot := by
  induction assignments generalizing whole part with
  | nil => exact agree
  | cons assignment rest ih =>
    by_cases alive : assignment.destination ∈ Liveness.needed rest live
    · rw [Liveness.kept_cons_live alive]
      rw [Liveness.needed_cons_live alive] at agree
      apply ih
      intro slot used
      have same : whole.value table assignment.expression =
          part.value table assignment.expression := by
        apply value_congr
        intro source read
        exact agree source (Finset.mem_union_right _ (List.mem_toFinset.mpr read))
      by_cases written : assignment.destination = slot
      · rw [← written, step_self, step_self, same]
      · rw [step_of_ne table whole written, step_of_ne table part written]
        exact agree slot (Finset.mem_union_left _
          (Finset.mem_erase.mpr ⟨fun equal => written equal.symm, used⟩))
    · rw [Liveness.kept_cons_dead alive]
      rw [Liveness.needed_cons_dead alive] at agree
      apply ih
      intro slot used
      have different : assignment.destination ≠ slot := fun same => alive (same ▸ used)
      rw [step_of_ne table whole different]
      exact agree slot used

end Memory

end PrunedCosine
