import PrunedCosine.Proofs.Execution

/-! Runs on two kinds of numbers. A map that keeps sums, differences and products, and that takes
the scales of one table to those of another, takes every run to a run: it gives the images of the
same values, or stops for the same cause. -/

namespace PrunedCosine

section Maps

variable {α β : Type}

structure KeepsArithmetic [Add α] [Sub α] [Mul α] [Add β] [Sub β] [Mul β] (image : α → β) :
    Prop where
  add : ∀ left right, image (left + right) = image left + image right
  sub : ∀ left right, image (left - right) = image left - image right
  mul : ∀ left right, image (left * right) = image left * image right

theorem KeepsArithmetic.apply [Add α] [Sub α] [Mul α] [Add β] [Sub β] [Mul β] {image : α → β}
    (keeps : KeepsArithmetic image) (sign : Sign) (left right : α) :
    sign.apply (image left) (image right) = image (sign.apply left right) := by
  cases sign with
  | plus => exact (keeps.add left right).symm
  | minus => exact (keeps.sub left right).symm

theorem foldlM_map {σ τ ι : Type} {image : σ → τ} {step : σ → ι → Except Error σ}
    {other : τ → ι → Except Error τ} {items : List ι}
    (commutes : ∀ item ∈ items, ∀ state, other (image state) item = (step state item).map image)
    (state : σ) : items.foldlM other (image state) = (items.foldlM step state).map image := by
  induction items generalizing state with
  | nil => rfl
  | cons first rest ih =>
    obtain ⟨here, later⟩ := List.forall_mem_cons.mp commutes
    rw [List.foldlM_cons, List.foldlM_cons, here]
    cases step state first with
    | error cause => rfl
    | ok after => exact ih later after

theorem mapM_map {ι : Type} {image : α → β} {step : ι → Except Error α}
    {other : ι → Except Error β} (commutes : ∀ item, other item = (step item).map image)
    (items : List ι) : items.mapM other = (items.mapM step).map (List.map image) := by
  induction items with
  | nil => rfl
  | cons first rest ih =>
    rw [List.mapM_cons, List.mapM_cons, commutes, ih]
    cases step first with
    | error cause => rfl
    | ok value => cases rest.mapM step <;> rfl

namespace Buffers

def map (image : α → β) (buffers : Buffers α) : Buffers β where
  input := buffers.input.map (Option.map image)
  work := buffers.work.map (Option.map image)

theorem map_ofInput (image : α → β) (values : List α) :
    ofInput (values.map image) = (ofInput values).map image := by
  simp [ofInput, map]

theorem contents_map (image : α → β) (buffers : Buffers α) (buffer : Buffer) :
    (buffers.map image).contents buffer = (buffers.contents buffer).map (Option.map image) := by
  cases buffer <;> rfl

theorem read_map (image : α → β) (buffers : Buffers α) (slot : Slot) :
    (buffers.map image).read slot = (buffers.read slot).map image := by
  rw [read, read, contents_map, Array.getElem?_map]
  rcases (buffers.contents slot.buffer)[slot.index]? with _ | _ | value <;> rfl

theorem write_map (image : α → β) (buffers : Buffers α) (slot : Slot) (value : α) :
    (buffers.map image).write slot (image value) =
      (buffers.write slot value).map (map image) := by
  rcases slot with ⟨_ | _, index⟩ <;>
  · simp only [write, map, Array.size_map]
    split
    · simp [Except.map, map]
    · rfl

variable [Add α] [Sub α] [Mul α] [Add β] [Sub β] [Mul β] {image : α → β}
  (keeps : KeepsArithmetic image) {table : ScaleTable α} {other : ScaleTable β}

include keeps

theorem value_map (buffers : Buffers α) {expression : Expression}
    (scales : ∀ id ∈ expression.scale, other.value id = image (table.value id)) :
    (buffers.map image).value other expression = (buffers.value table expression).map image := by
  cases expression with
  | copy source => exact read_map image buffers source
  | combine sign left right scale =>
    simp only [value, read_map]
    rcases buffers.read left with cause | first
    · rfl
    rcases buffers.read right with cause | second
    · rfl
    cases scale with
    | none => exact congrArg Except.ok (keeps.apply sign first second)
    | some id =>
      change Except.ok (sign.apply (image first) (image second) * other.value id) = Except.ok _
      rw [keeps.apply, scales id rfl, ← keeps.mul]

theorem step_map (buffers : Buffers α) {assignment : Assignment}
    (scales : ∀ id ∈ assignment.scale, other.value id = image (table.value id)) :
    (buffers.map image).step other assignment =
      (buffers.step table assignment).map (map image) := by
  rw [step, step, value_map keeps buffers scales]
  rcases buffers.value table assignment.expression with cause | value
  · rfl
  · exact write_map image buffers assignment.destination value

theorem steps_map (buffers : Buffers α) {assignments : List Assignment}
    (scales : ∀ assignment ∈ assignments, ∀ id ∈ assignment.scale,
      other.value id = image (table.value id)) :
    (buffers.map image).steps other assignments =
      (buffers.steps table assignments).map (map image) :=
  foldlM_map (fun assignment member buffers => step_map keeps buffers (scales assignment member))
    buffers

end Buffers

namespace Plan

variable [Add α] [Sub α] [Mul α] [Add β] [Sub β] [Mul β] {image : α → β}
  (keeps : KeepsArithmetic image) {table : ScaleTable α} {other : ScaleTable β} {plan : Plan}

include keeps

theorem coefficient_map (dc : other.value other.dc = image (table.value table.dc))
    (ac : other.value other.ac = image (table.value table.ac)) (final : Buffers α) (k : Nat) :
    plan.coefficient other (final.map image) k = (plan.coefficient table final k).map image := by
  have scale : other.value (if k = 0 then other.dc else other.ac) =
      image (table.value (if k = 0 then table.dc else table.ac)) := by
    split
    · exact dc
    · exact ac
  rw [coefficient, coefficient, Buffers.read_map, scale]
  rcases final.read (plan.output k) with cause | value
  · rfl
  · exact congrArg Except.ok (keeps.mul value _).symm

theorem run_map (dc : other.value other.dc = image (table.value table.dc))
    (ac : other.value other.ac = image (table.value table.ac))
    (scales : ∀ assignment ∈ plan.assignments, ∀ id ∈ assignment.scale,
      other.value id = image (table.value id)) (input : List α) :
    plan.run other (input.map image) = (plan.run table input).map (List.map image) := by
  have executed : plan.execute other (input.map image) =
      (plan.execute table input).map (Buffers.map image) := by
    rw [execute, execute, List.length_map]
    split
    · rw [Buffers.map_ofInput]
      exact Buffers.steps_map keeps _ scales
    · rfl
  rw [run, run, executed]
  rcases plan.execute table input with cause | final
  · rfl
  · exact mapM_map (coefficient_map keeps dc ac final) _

end Plan

end Maps

end PrunedCosine
