import PrunedCosine.Proofs.Defect

/-! Every plan that planning gives passes the structural checks and runs: its reads are grounded
in the input, its walk keeps everything, and its final stage writes the coefficients in order. -/

namespace PrunedCosine

namespace Block

theorem order_of_mem_opening {half base : Nat} {odd : Option Nat} {source : Buffer}
    {assignment : Assignment} (member : assignment ∈ opening half base odd source) :
    assignment.order = half + 1 ∧ assignment.stage = .butterfly := by
  obtain ⟨place, _, rfl | ⟨_, rfl⟩⟩ := mem_opening.mp member <;> exact ⟨rfl, rfl⟩

theorem order_of_mem_interleave {order base truncation : Nat} {source : Buffer}
    {assignment : Assignment} (member : assignment ∈ interleave order base truncation source) :
    assignment.order = order ∧ assignment.stage = .interleave := by
  obtain ⟨index, _, _, rfl⟩ := mem_interleave.mp member
  exact ⟨rfl, rfl⟩

theorem order_of_mem_pair {base truncation : Nat} {source : Buffer} {assignment : Assignment}
    (member : assignment ∈ pair base truncation source) : assignment.order = 1 := by
  rw [pair] at member
  split at member
  · rw [List.mem_singleton.mp member]
  · rcases List.mem_pair.mp member with rfl | rfl <;> rfl

theorem order_le_of_mem_listing (order base truncation : Nat) (source : Buffer) :
    ∀ assignment ∈ listing order base truncation source, assignment.order ≤ order :=
  forall_mem_listing (motive := fun order _ assignment => assignment.order ≤ order)
    (fun _ _ _ _ member => (order_of_mem_pair member).le)
    (fun _ _ _ _ _ member => (order_of_mem_opening member).1.le)
    (fun _ _ _ _ _ member => (order_of_mem_interleave member).1.le)
    (fun _ _ _ smaller => smaller.trans (Nat.le_succ _))
    (fun _ _ _ smaller => smaller.trans (Nat.le_succ _)) order base truncation source

theorem order_le_of_mem_listingOf (order base : Nat) (truncation : Option Nat) (source : Buffer) :
    ∀ assignment ∈ listingOf order base truncation source, assignment.order ≤ order := by
  cases truncation with
  | none => simp [listingOf]
  | some last => exact order_le_of_mem_listing order base last source

/-- Only the closing layer of a block is of its order and interleaves. -/
theorem filter_interleave (half base truncation : Nat) (source : Buffer) :
    ((listing (half + 2) base truncation source).filter fun assignment =>
        assignment.order == half + 2 && assignment.stage == .interleave) =
      interleave (half + 2) base truncation source := by
  have opened (odd : Option Nat) : ((opening (half + 1) base odd source).filter
      fun assignment => assignment.order == half + 2 && assignment.stage == .interleave) = [] := by
    rw [List.filter_eq_nil_iff]
    intro assignment member
    rw [(order_of_mem_opening member).2]
    simp
  have inner (start : Nat) (wanted : Option Nat) :
      ((listingOf (half + 1) start wanted source.other).filter
        fun assignment => assignment.order == half + 2 && assignment.stage == .interleave) = [] := by
    rw [List.filter_eq_nil_iff]
    intro assignment member
    have lower := order_le_of_mem_listingOf _ _ _ _ assignment member
    simp [show assignment.order ≠ half + 2 by omega]
  have closed : ((interleave (half + 2) base truncation source).filter
      fun assignment => assignment.order == half + 2 && assignment.stage == .interleave) =
        interleave (half + 2) base truncation source := by
    rw [List.filter_eq_self]
    intro assignment member
    rw [(order_of_mem_interleave member).1, (order_of_mem_interleave member).2]
    simp
  rw [listing_succ, List.filter_append, List.filter_append, List.filter_append, opened, closed,
    inner]
  have even := inner base (some (childTruncations (blockSize (half + 2)) truncation).1)
  rw [listingOf] at even
  rw [even]
  rfl

end Block

namespace Plan

section Canonical

variable {order : Nat} (base : Nat) {truncation : Option Nat}

theorem outputCount_canonical (bound : ∀ last ∈ truncation, last < blockSize order) :
    (canonical order base truncation).outputCount = wantedCount truncation := by
  cases truncation with
  | none => rfl
  | some last => exact if_pos (bound last rfl)

theorem wantedCount_le (bound : ∀ last ∈ truncation, last < blockSize order) :
    wantedCount truncation ≤ blockSize order := by
  cases truncation with
  | none => exact Nat.zero_le _
  | some last => exact bound last rfl

theorem walk_canonical (positive : 1 ≤ order)
    (bound : ∀ last ∈ truncation, last < blockSize order) :
    Liveness.kept (canonical order base truncation).assignments
        (span .work base (wantedCount truncation)) = (canonical order base truncation).assignments ∧
      ∀ slot ∈ Liveness.needed (canonical order base truncation).assignments
        (span .work base (wantedCount truncation)), slot ∈ span .input base (blockSize order) := by
  cases truncation with
  | none => exact ⟨rfl, fun slot member => absurd member (Finset.notMem_empty slot)⟩
  | some last =>
    obtain ⟨needed, kept⟩ := Block.walk_plan base positive le_rfl (bound last rfl)
    exact ⟨kept, fun slot member => needed ▸ member⟩

theorem finalStage_canonical (positive : 1 ≤ order)
    (bound : ∀ last ∈ truncation, last < blockSize order) :
    (canonical order base truncation).finalStage.map Assignment.destination =
      (List.range (wantedCount truncation)).map (canonical order base truncation).output := by
  cases truncation with
  | none => rfl
  | some last =>
    obtain _ | _ | half := order
    · omega
    · have two : blockSize (0 + 1) = 2 := rfl
      have small := bound last rfl
      have every : (canonical 1 base (some last)).finalStage = Block.pair base last .input := by
        apply List.filter_eq_self.mpr
        intro assignment member
        rw [Block.order_of_mem_pair member]
        rfl
      have room : min (last + 1) 2 = last + 1 := by omega
      rw [every, (Block.pair_layer base last .input).destinations, room]
      rfl
    · have small : last < blockSize (half + 2) := bound last rfl
      have closing : (canonical (half + 2) base (some last)).finalStage =
          Block.interleave (half + 2) base last .input := by
        rw [← Block.filter_interleave, finalStage]
        apply List.filter_congr
        intro assignment _
        simp [canonical]
      have layer : Layer .input base (min (last + 1) (blockSize (half + 2)))
          (Block.interleave (half + 2) base last .input) :=
        Block.interleave_layer (half + 1) base last .input
      have room : min (last + 1) (blockSize (half + 2)) = last + 1 := by omega
      rw [closing, layer.destinations, room]
      rfl

theorem mem_span_input {slot : Slot}
    (member : slot ∈ span .input base (blockSize order)) :
    (canonical order base truncation).isInput slot := by
  obtain ⟨buffer, least, most⟩ := mem_span.mp member
  exact (isInput_iff _ slot).mpr ⟨buffer, least, most⟩

theorem grounded_canonical (positive : 1 ≤ order)
    (bound : ∀ last ∈ truncation, last < blockSize order) {known : Set Slot}
    (provided : ∀ slot ∈ span .input base (blockSize order), slot ∈ known) :
    Grounded (canonical order base truncation).assignments known ∧
      ∀ slot ∈ span .work base (wantedCount truncation),
        slot ∈ knownAfter (canonical order base truncation).assignments known := by
  obtain ⟨all, needed⟩ := walk_canonical base positive bound
  exact grounded_of_kept all fun slot used => provided slot (needed slot used)

theorem defects_canonical (positive : 1 ≤ order)
    (bound : ∀ last ∈ truncation, last < blockSize order) :
    (canonical order base truncation).defects = [] := by
  have count := outputCount_canonical base bound
  obtain ⟨all, needed⟩ := walk_canonical base positive bound
  obtain ⟨grounded, _⟩ := grounded_canonical base positive bound
    (show ∀ slot ∈ span .input base (blockSize order),
        slot ∈ {slot | (canonical order base truncation).isInput slot} from
      fun slot member => mem_span_input base member)
  have dependency := dependencyDefects_eq_nil _ grounded
  have liveness : (canonical order base truncation).livenessDefects = [] := by
    apply livenessDefects_eq_nil
    · rw [count]
      exact all
    · rw [count]
      exact fun slot used => mem_span_input base (needed slot used)
  have coverage : (canonical order base truncation).coverageDefects = [] := by
    apply coverageDefects_eq_nil
    rw [count]
    exact finalStage_canonical base positive bound
  rw [defects, dependency, liveness, coverage]
  rfl

theorem run_canonical {α : Type} [Add α] [Sub α] [Mul α] (table : ScaleTable α)
    (positive : 1 ≤ order) (bound : ∀ last ∈ truncation, last < blockSize order)
    {input : List α} {memory : Memory α} (length : input.length = base + blockSize order)
    (starts : memory.Starts input) :
    (canonical order base truncation).run table input =
      .ok ((List.range (wantedCount truncation)).map fun k =>
        memory.run table (Block.listingOf order base truncation .input) ⟨.work, base + k⟩ *
          table.value (if k = 0 then table.dc else table.ac)) := by
  have count := outputCount_canonical base bound
  have provided : ∀ slot ∈ span .input base (blockSize order),
      slot ∈ filled (canonical order base truncation).bufferLength := by
    intro slot member
    obtain ⟨buffer, _, most⟩ := mem_span.mp member
    exact ⟨buffer, most⟩
  obtain ⟨grounded, known⟩ := grounded_canonical base positive bound provided
  have room : ∀ assignment ∈ (canonical order base truncation).assignments,
      assignment.destination.index < (canonical order base truncation).bufferLength :=
    fun assignment member =>
      (Block.listingOf_within order base truncation .input assignment member).1.2
  have reached : ∀ k < (canonical order base truncation).outputCount,
      (canonical order base truncation).output k ∈
        knownAfter (canonical order base truncation).assignments
          (filled (canonical order base truncation).bufferLength) := by
    intro k inside
    rw [count] at inside
    exact known _ (mem_span_mk.mpr ⟨Nat.le_add_right _ _, Nat.add_lt_add_left inside _⟩)
  have bounded : (canonical order base truncation).outputCount ≤
      (canonical order base truncation).size := by
    rw [count]
    exact wantedCount_le bound
  rw [run_of_grounded table length starts grounded room reached bounded, count]
  rfl

end Canonical

end Plan

theorem inspect_eq_nil {result : Plan} (sound : result.defects = []) (session : Session) :
    inspect result session = ([], session) := by
  simp only [inspect, sound]
  rfl

/-- The checks find nothing in the plan, and with the table of its order it runs on every input
of its length and gives as many values as it has coefficients. -/
structure Plan.Sound (plan : Plan) : Prop where
  checked : ∀ session, (inspect plan session).1 = []
  runs : ∀ {α : Type} [Add α] [Sub α] [Mul α] (table : ScaleTable α), table.order = plan.order →
    plan.matchTable table = .ok () ∧
      ∀ input : List α, input.length = plan.base + blockSize plan.order →
        ∃ values, plan.run table input = .ok values ∧ values.length = plan.outputCount

theorem Plan.canonical_sound {order base : Nat} {truncation : Option Nat} (positive : 1 ≤ order)
    (bound : ∀ last ∈ truncation, last < blockSize order) :
    (canonical order base truncation).Sound where
  checked session := by rw [inspect_eq_nil (defects_canonical base positive bound)]
  runs table same := by
    refine ⟨if_pos same, fun input length => ?_⟩
    change input.length = base + blockSize order at length
    obtain ⟨memory, starts⟩ := Memory.exists_starts length
    refine ⟨_, run_canonical base table positive bound length starts, ?_⟩
    rw [List.length_map, List.length_range, outputCount_canonical base bound]

/-- Parameters that are accepted give a sound plan in every session whose memo was filled by
planning. -/
theorem plan_sound {session : Session} (planned : session.Planned) {order base : Nat}
    {truncation : Int} {wanted : Option Nat}
    (accepted : Plan.validate order base truncation = .ok wanted) :
    ∃ result after, (plan order base truncation).run session = (.ok result, after) ∧
      result.order = order ∧ result.base = base ∧ result.truncation = wanted ∧ result.Sound := by
  have positive := (Plan.validate_order accepted).1
  have bound : ∀ last ∈ wanted, last < blockSize order := by
    intro last same
    rw [Option.mem_def.mp same] at accepted
    exact Plan.validate_bound accepted
  refine ⟨Plan.canonical order base wanted, (Plan.build order base wanted session).2, ?_, rfl, rfl,
    rfl, Plan.canonical_sound positive bound⟩
  rw [Session.plan_of_accepted accepted, planned.build_eq positive]

theorem plan_sound_eight :
    Session.Planned ((plan 5 2 7).run .fresh).2 ∧ Plan.validate 3 4 5 = .ok (some 5) ∧
      ∃ result after, (plan 3 4 5).run ((plan 5 2 7).run .fresh).2 = (.ok result, after) ∧
        result.order = 3 ∧ result.base = 4 ∧ result.truncation = some 5 ∧ result.Sound :=
  ⟨.plan 5 2 7 .fresh, rfl, plan_sound (.plan 5 2 7 .fresh) rfl⟩

end PrunedCosine
