import PrunedCosine.Proofs.Word

/-! Planning in words. Here a step that works out an index, a size or an id has no result where
a word would overflow or fall below zero. What the parameters are checked for is enough: planning
in words never stops, and gives what planning gives. -/

namespace PrunedCosine

open Session

namespace Plan

structure Acceptable (order base : Nat) (truncation : Int) : Prop where
  positive : 1 ≤ order
  short : order ≤ 20
  fits : base + 2 ^ order ≤ 2 ^ 64 - 1
  least : -1 ≤ truncation
  inside : truncation < 2 ^ order

/-- Why other parameters are refused: because of the first that is wrong of the order, the base
and the truncation. The base is given as a signed word. -/
inductive Refused (order base : Nat) (truncation : Int) : Error → Prop where
  | orderSmall (small : order < 1) :
      Refused order base truncation (.invalidParameter "order" order (.atLeast 1))
  | orderLarge (large : 20 < order) :
      Refused order base truncation (.invalidParameter "order" order (.atMost 20))
  | overflow (positive : 1 ≤ order) (short : order ≤ 20) (beyond : 2 ^ 64 - 1 < base + 2 ^ order) :
      Refused order base truncation
        (.invalidParameter "base_offset" (min base (2 ^ 63 - 1) : Nat) .lengthOverflow)
  | truncationSmall (positive : 1 ≤ order) (short : order ≤ 20)
      (fits : base + 2 ^ order ≤ 2 ^ 64 - 1) (small : truncation < -1) :
      Refused order base truncation (.invalidParameter "truncation" truncation (.atLeast (-1)))
  | truncationLarge (positive : 1 ≤ order) (short : order ≤ 20)
      (fits : base + 2 ^ order ≤ 2 ^ 64 - 1) (large : 2 ^ order ≤ truncation) :
      Refused order base truncation
        (.invalidParameter "truncation" truncation (.belowSize (2 ^ order)))

theorem validate_cases (order base : Nat) (truncation : Int) :
    (Acceptable order base truncation ∧ ∃ wanted, validate order base truncation = .ok wanted) ∨
      (¬Acceptable order base truncation ∧
        ∃ cause, Refused order base truncation cause ∧
          validate order base truncation = .error cause) := by
  have size := blockSize_eq_pow order
  unfold validate checkOrder maxOrder
  by_cases small : order < 1
  · refine Or.inr ⟨fun acceptable => ?_, _, .orderSmall small, ?_⟩
    · exact absurd acceptable.positive (Nat.not_le.mpr small)
    · rw [if_pos small]
  by_cases large : 20 < order
  · refine Or.inr ⟨fun acceptable => ?_, _, .orderLarge large, ?_⟩
    · exact absurd acceptable.short (Nat.not_le.mpr large)
    · rw [if_neg small, if_pos large]
  have positive : 1 ≤ order := Nat.not_lt.mp small
  have short : order ≤ 20 := Nat.not_lt.mp large
  rw [if_neg small, if_neg large, size]
  dsimp only
  by_cases beyond : 2 ^ 64 - 1 < base + 2 ^ order
  · refine Or.inr ⟨fun acceptable => ?_, _, .overflow positive short beyond, ?_⟩
    · exact absurd acceptable.fits (Nat.not_le.mpr beyond)
    · rw [if_pos (show base + 2 ^ order ≥ wordCount from Nat.le_of_pred_lt beyond)]
      rfl
  have fits : base + 2 ^ order ≤ 2 ^ 64 - 1 := Nat.not_lt.mp beyond
  rw [if_neg (show ¬base + 2 ^ order ≥ wordCount by unfold wordCount; omega)]
  by_cases least : truncation < -1
  · refine Or.inr ⟨fun acceptable => ?_, _, .truncationSmall positive short fits least, ?_⟩
    · exact absurd acceptable.least (Int.not_le.mpr least)
    · rw [if_neg least.ne, if_pos least]
  by_cases beyondSize : 2 ^ order ≤ truncation
  · refine Or.inr ⟨fun acceptable => ?_, _, .truncationLarge positive short fits beyondSize, ?_⟩
    · exact absurd acceptable.inside (Int.not_lt.mpr beyondSize)
    · have none : truncation ≠ -1 := by
        have positive : (0 : Int) < 2 ^ order := Int.pow_pos (by decide)
        omega
      have large : truncation ≥ ((2 ^ order : Nat) : Int) := by exact_mod_cast beyondSize
      rw [if_neg none, if_neg least, if_pos large]
  refine Or.inl ⟨⟨positive, short, fits, Int.not_lt.mp least, Int.not_le.mp beyondSize⟩, ?_⟩
  by_cases none : truncation = -1
  · exact ⟨_, if_pos none⟩
  · have inside : ¬truncation ≥ ((2 ^ order : Nat) : Int) := by exact_mod_cast beyondSize
    rw [if_neg none, if_neg least, if_neg inside]
    exact ⟨_, rfl⟩

theorem validate_fits {order base : Nat} {truncation : Int} {wanted : Option Nat}
    (accepted : validate order base truncation = .ok wanted) :
    base + blockSize order < wordCount :=
  (validate_ok accepted).2.1

end Plan

namespace Guarded

abbrev Action := StateT Session Option

def act {α : Type} (action : StateM Session α) : Action α := fun session => some (action session)

def requiredInputs : (order : Nat) → (truncation : Option Nat) → Action (List Nat)
  | _, none => pure []
  | 0, some truncation => do
      let stored ← act (lookUp 0 truncation)
      liftM stored
  | 1, some _ => pure [0, 1]
  | half + 2, some truncation => do
      match ← act (lookUp (half + 2) truncation) with
      | some places => pure places
      | none =>
          let size ← Word.shift (half + 2)
          let truncations ← childTruncations size truncation
          let even ← requiredInputs (half + 1) (some truncations.1)
          let first ← mirrored size even
          let odd ← requiredInputs (half + 1) truncations.2
          let second ← mirrored size odd
          let places ← toList (first.union second)
          act (note (.inputsRequired (half + 2) truncation places.length size))
          act (store (half + 2) truncation places)
          pure places

def assignments : (order base truncation : Nat) → (source : Buffer) → Action (List Assignment)
  | 0, _, _, _ => fun _ => none
  | 1, base, truncation, source => do
      act (note (.blockOpened 1 base truncation source))
      pair base truncation source
  | half + 2, base, truncation, source => do
      act (note (.blockOpened (half + 2) base truncation source))
      let size ← Word.shift (half + 2)
      let truncations ← childTruncations size truncation
      let evenPlaces ← requiredInputs (half + 1) (some truncations.1)
      let sums : List Assignment ←
        (evenPlaces.mapM (openingSum (half + 2) base size source) : Option _)
      let oddPlaces ← requiredInputs (half + 1) truncations.2
      let differences : List Assignment ←
        (oddPlaces.mapM (openingDifference (half + 2) base size source) : Option _)
      let even ← assignments (half + 1) base truncations.1 source.other
      let odd ← match truncations.2 with
        | some last => do
            let middle ← Word.add base (size / 2)
            assignments (half + 1) middle last source.other
        | none => pure []
      let merged ← interleave (half + 2) base truncation source
      pure (sums ++ (differences ++ (even ++ (odd ++ merged))))

def validate (order base : Nat) (truncation : Int) : Option (Except Error (Option Nat)) :=
  match checkOrder order with
  | .error cause => pure (.error cause)
  | .ok () => do
      let size ← Word.shift order
      match Word.add base size with
      | none =>
          pure (.error (.invalidParameter "base_offset" (Nat.min base largestSigned)
            .lengthOverflow))
      | some _ =>
          pure (if truncation = -1 then .ok none
            else if truncation < -1 then
              .error (.invalidParameter "truncation" truncation (.atLeast (-1)))
            else if truncation ≥ size then
              .error (.invalidParameter "truncation" truncation (.belowSize size))
            else .ok (some truncation.toNat))

def planName (order : Nat) (truncation : Option Nat) : Option String := do
  let size ← Word.shift order
  let outputs ← match truncation with
    | some last => Word.add last 1
    | none => pure 0
  pure s!"fdct{size}_{outputs}"

/-- Records a plan. Its name has to be in words even if no smaller plan was the largest. -/
def recordPlan (order : Nat) (truncation : Option Nat) (assignments : List Assignment) :
    Action Unit := do
  let _ ← planName order truncation
  act (Session.recordPlan order truncation assignments)

def build (order base : Nat) (truncation : Option Nat) : Action Plan := do
  let places ← requiredInputs order truncation
  let relative ← ofList places
  let live ← shifted relative base
  let assignments ← match truncation with
    | some last => assignments order base last .input
    | none => pure []
  recordPlan order truncation assignments
  act (note (.planned order base truncation assignments.length live.size))
  pure { order, base, truncation, live, assignments }

def plan (order base : Nat) (truncation : Int) : Action (Except Error Plan) := do
  match ← validate order base truncation with
  | .error cause => pure (.error cause)
  | .ok wanted => do
      let result ← build order base wanted
      pure (.ok result)

/-- In every session with a complete memo the guarded work does not stop, and does what the work
without guards does. -/
def Agrees {α : Type} (guarded : Action α) (plain : StateM Session α) : Prop :=
  ∀ session : Session, session.memo.Complete → guarded session = some (plain session)

theorem agrees_pure {α : Type} (value : α) : Agrees (pure value) (pure value) := fun _ _ => rfl

theorem agrees_act {α : Type} (action : StateM Session α) : Agrees (act action) action :=
  fun _ _ => rfl

theorem agrees_lift {α : Type} {guarded : Option α} {value : α} (same : guarded = some value) :
    Agrees (liftM guarded) (pure value) := by
  rw [same]
  exact agrees_pure value

theorem Agrees.bind {α β : Type} {guarded : Action α} {plain : StateM Session α} {value : α}
    {guardedNext : α → Action β} {next : α → StateM Session β} (first : Agrees guarded plain)
    (gives : Gives plain value) (second : Agrees (guardedNext value) (next value)) :
    Agrees (guarded >>= guardedNext) (plain >>= next) := by
  intro session complete
  obtain ⟨same, kept⟩ := gives session complete
  have later := second (plain session).2 kept
  rw [← same] at later
  show (guarded session).bind (fun reached => guardedNext reached.1 reached.2) = _
  rw [first session complete]
  exact later

theorem Agrees.act_bind {α : Type} {action : StateM Session Unit} {guardedNext : Action α}
    {next : StateM Session α} (gives : Gives action ()) (second : Agrees guardedNext next) :
    Agrees (act action >>= fun _ => guardedNext) (action >>= fun _ => next) :=
  (agrees_act action).bind gives second

theorem Agrees.lift_bind {α β : Type} {guarded : Option α} {value : α}
    {guardedNext : α → Action β} {next : StateM Session β} (same : guarded = some value)
    (second : Agrees (guardedNext value) next) :
    Agrees (liftM guarded >>= guardedNext) next := by
  rw [same]
  exact second

theorem mirrored_inputPlaces_eq {half : Nat} (small : blockSize (half + 1) < wordCount)
    (truncation : Option Nat) :
    mirrored (blockSize (half + 1)) (inputPlaces half truncation) =
      some (PrunedCosine.mirrored (blockSize (half + 1)) (inputPlaces half truncation)) := by
  apply mirrored_eq small
  intro place member
  have inside := (Block.mem_inputPlaces.mp member).2
  rw [blockSize_succ]
  omega

theorem agrees_requiredInputs {order : Nat} (small : blockSize (order + 1) < wordCount)
    {truncation : Option Nat} (bound : ∀ last ∈ truncation, last < blockSize (order + 1)) :
    Agrees (requiredInputs (order + 1) truncation)
      (PrunedCosine.requiredInputs (order + 1) truncation) := by
  induction order generalizing truncation with
  | zero => cases truncation <;> exact agrees_pure _
  | succ half ih =>
    cases truncation with
    | none => exact agrees_pure []
    | some last =>
      have inside := bound last rfl
      have halfSmall : blockSize (half + 1) < wordCount := by
        rw [blockSize_succ] at small
        omega
      obtain ⟨evenBound, oddBound⟩ := childTruncations_bounds inside
      have computed : Agrees (do
          let size ← Word.shift (half + 2)
          let truncations ← childTruncations size last
          let even ← requiredInputs (half + 1) (some truncations.1)
          let first ← mirrored size even
          let odd ← requiredInputs (half + 1) truncations.2
          let second ← mirrored size odd
          let places ← toList (first.union second)
          act (note (.inputsRequired (half + 2) last places.length size))
          act (store (half + 2) last places)
          pure places) (do
          let size := blockSize (half + 2)
          let truncations := PrunedCosine.childTruncations size last
          let even ← PrunedCosine.requiredInputs (half + 1) (some truncations.1)
          let odd ← PrunedCosine.requiredInputs (half + 1) truncations.2
          let live := (PrunedCosine.mirrored size even).union (PrunedCosine.mirrored size odd)
          let places := live.toList
          note (.inputsRequired (half + 2) last places.length size)
          store (half + 2) last places
          pure places) := by
        refine Agrees.lift_bind (Word.shift_size small) ?_
        refine Agrees.lift_bind (childTruncations_eq small inside) ?_
        refine (ih halfSmall (fun _ same => ?_)).bind (gives_requiredInputs half _) ?_
        · cases same
          exact evenBound
        refine Agrees.lift_bind (mirrored_inputPlaces_eq small _) ?_
        refine (ih halfSmall oddBound).bind (gives_requiredInputs half _) ?_
        refine Agrees.lift_bind (mirrored_inputPlaces_eq small _) ?_
        have all := mirrored_union_toList (half + 1)
          (PrunedCosine.childTruncations (blockSize (half + 2)) last).1
          (PrunedCosine.childTruncations (blockSize (half + 2)) last).2
        refine Agrees.lift_bind (toList_eq ?_) ?_
        · intro index member
          rw [all, List.mem_range] at member
          exact member.trans small
        · dsimp only
          rw [all]
          exact Agrees.act_bind (gives_note _)
            (Agrees.act_bind (gives_store _ _) (agrees_pure _))
      intro session complete
      cases found : session.memo.find? (half + 2) last with
      | some places =>
        rw [requiredInputs, PrunedCosine.requiredInputs]
        simp only [bind, StateT.bind, act, lookUp, found]
        rfl
      | none =>
        rw [requiredInputs, PrunedCosine.requiredInputs]
        simp only [bind, StateT.bind, act, lookUp, found]
        exact computed _ complete

theorem agrees_assignments {order base : Nat} (short : order + 1 ≤ maxOrder)
    (fits : base + blockSize (order + 1) < wordCount) {truncation : Nat}
    (bound : truncation < blockSize (order + 1)) (source : Buffer) :
    Agrees (assignments (order + 1) base truncation source)
      (Block.assignments (order + 1) base truncation source) := by
  induction order generalizing base truncation source with
  | zero =>
    exact Agrees.act_bind (gives_note _) (agrees_lift (pair_eq fits truncation source))
  | succ half ih =>
    have small : blockSize (half + 2) < wordCount := (Nat.le_add_left _ base).trans_lt fits
    have fitsHalves := fits
    rw [blockSize_succ] at fitsHalves
    obtain ⟨evenBound, oddBound⟩ := childTruncations_bounds bound
    have shortHalf : blockSize (half + 1) ≤ shortWordCount / 2 := by
      have places : half + 1 ≤ 31 := (Nat.le_succ _).trans (short.trans (by decide))
      rw [blockSize_eq_pow]
      exact Nat.pow_le_pow_right (by decide) places
    have sums : ((List.range (blockSize (half + 1))).mapM
        (openingSum (half + 2) base (blockSize (half + 2)) source)) =
          some ((List.range (blockSize (half + 1))).map
            (Block.openingSum (half + 2) base source)) :=
      mapM_eq_pure fun place member => openingSum_eq fits (List.mem_range.mp member) source
    have differences (odd : Option Nat) : ((inputPlaces (half + 1) odd).mapM
        (openingDifference (half + 2) base (blockSize (half + 2)) source)) =
          some ((inputPlaces (half + 1) odd).map
            (Block.openingDifference (half + 2) base source)) :=
      mapM_eq_pure fun place member =>
        openingDifference_eq fits (Block.mem_inputPlaces.mp member).2 shortHalf source
    refine Agrees.act_bind (gives_note _) ?_
    refine Agrees.lift_bind (Word.shift_size small) ?_
    refine Agrees.lift_bind (childTruncations_eq small bound) ?_
    refine (agrees_requiredInputs (by omega) ?_).bind (gives_requiredInputs half _) ?_
    · intro _ same
      cases same
      exact evenBound
    refine Agrees.lift_bind sums ?_
    refine (agrees_requiredInputs (by omega) oddBound).bind (gives_requiredInputs half _) ?_
    refine Agrees.lift_bind (differences _) ?_
    refine (ih (by omega) (by omega) evenBound _).bind (Block.gives_assignments half _ _ _) ?_
    cases wanted : (PrunedCosine.childTruncations (blockSize (half + 2)) truncation).2 with
    | some last =>
      have middle : Word.add base (blockSize (half + 2) / 2) =
          some (base + blockSize (half + 1)) := by
        have inside : base + blockSize (half + 1) < wordCount := by omega
        rw [blockSize_half, Word.add_eq inside]
      have fitsOdd : base + blockSize (half + 1) + blockSize (half + 1) < wordCount := by omega
      refine Agrees.lift_bind middle ?_
      refine (ih (by omega) fitsOdd (oddBound last wanted) source.other).bind
        (Block.gives_assignments half _ _ _) ?_
      exact Agrees.lift_bind (interleave_eq fits truncation source) (agrees_pure _)
    | none =>
      refine (agrees_pure []).bind (gives_pure []) ?_
      exact Agrees.lift_bind (interleave_eq fits truncation source) (agrees_pure _)

theorem planName_eq {order : Nat} {truncation : Option Nat} (fits : blockSize order < wordCount)
    (bound : ∀ last ∈ truncation, last < blockSize order) :
    planName order truncation = some (Statistics.planName order truncation) := by
  have same : order % 64 = order := Nat.mod_eq_of_lt (Word.places_lt fits)
  rw [planName, Word.shift_size fits, Option.bind_eq_bind, Option.bind_some]
  cases truncation with
  | none =>
    simp only [Statistics.planName, same]
    rfl
  | some last =>
    have word : last + 1 < wordCount := (Nat.succ_le_of_lt (bound last rfl)).trans_lt fits
    simp only [Statistics.planName, same, Word.add_eq word, Nat.mod_eq_of_lt word]
    rfl

theorem agrees_recordPlan {order : Nat} {truncation : Option Nat}
    (fits : blockSize order < wordCount) (bound : ∀ last ∈ truncation, last < blockSize order)
    (assignments : List Assignment) :
    Agrees (recordPlan order truncation assignments)
      (Session.recordPlan order truncation assignments) :=
  Agrees.lift_bind (planName_eq fits bound) (agrees_act _)

theorem agrees_build {order base : Nat} (short : order + 1 ≤ maxOrder)
    (fits : base + blockSize (order + 1) < wordCount) {truncation : Option Nat}
    (bound : ∀ last ∈ truncation, last < blockSize (order + 1)) :
    Agrees (build (order + 1) base truncation) (Plan.build (order + 1) base truncation) := by
  have small : blockSize (order + 1) < wordCount := (Nat.le_add_left _ base).trans_lt fits
  have inside : ∀ place ∈ inputPlaces (order + 1) truncation, base + place < wordCount := by
    intro place member
    have below := (Block.mem_inputPlaces.mp member).2
    omega
  refine (agrees_requiredInputs small bound).bind (gives_requiredInputs order _) ?_
  refine Agrees.lift_bind (ofList_eq fun place member => ?_) ?_
  · have word := inside place member
    omega
  refine Agrees.lift_bind (shifted_eq fun place member => ?_) ?_
  · rw [SlotSet.mem_toList, SlotSet.contains_ofList, decide_eq_true_eq] at member
    rw [Nat.add_comm]
    exact inside place member
  cases truncation with
  | none =>
    refine (agrees_pure []).bind (gives_pure []) ?_
    refine (agrees_recordPlan small bound []).bind (gives_recordPlan _ _ _) ?_
    exact Agrees.act_bind (gives_note _) (agrees_pure _)
  | some last =>
    refine (agrees_assignments short fits (bound last rfl) .input).bind
      (Block.gives_assignments order base last .input) ?_
    refine (agrees_recordPlan small bound _).bind (gives_recordPlan _ _ _) ?_
    exact Agrees.act_bind (gives_note _) (agrees_pure _)

theorem validate_eq (order base : Nat) (truncation : Int) :
    validate order base truncation = some (Plan.validate order base truncation) := by
  rw [validate, Plan.validate]
  cases checked : checkOrder order with
  | error cause => rfl
  | ok _ =>
    have places : order < 64 := by
      have short := (Plan.checkOrder_ok checked).2
      unfold maxOrder at short
      omega
    dsimp only
    rw [Word.shift_eq places, Option.bind_eq_bind, Option.bind_some]
    by_cases fits : base + blockSize order < wordCount
    · rw [Word.add_eq fits, if_neg (Nat.not_le.mpr fits)]
      rfl
    · rw [Word.add, if_neg fits, if_pos (Nat.not_lt.mp fits)]
      rfl

theorem agrees_plan (order base : Nat) (truncation : Int) :
    Agrees (plan order base truncation) (PrunedCosine.plan order base truncation).run := by
  refine Agrees.lift_bind (validate_eq order base truncation) ?_
  rw [PrunedCosine.plan]
  cases accepted : Plan.validate order base truncation with
  | error cause => exact agrees_pure _
  | ok wanted =>
    obtain ⟨positive, short⟩ := Plan.validate_order accepted
    obtain ⟨half, rfl⟩ := Nat.exists_eq_add_of_le' positive
    have bounds := Plan.validate_bounds accepted
    show Agrees (build (half + 1) base wanted >>= fun result => pure (Except.ok result))
      (Plan.build (half + 1) base wanted >>= fun result => pure (Except.ok result))
    exact (agrees_build short (Plan.validate_fits accepted) bounds).bind
      (Plan.gives_build half base wanted) (agrees_pure _)

end Guarded

/-- In sessions whose memo was filled by planning, planning refuses just the parameters that are
not acceptable, for the first that is wrong, and leaves the session as it was. Others give a plan
that reads and writes the indices of its block only. Either way no index, size or id is worked
out that is no word. -/
theorem plan_within_words {session : Session} (planned : session.Planned) (order base : Nat)
    (truncation : Int) :
    (¬Plan.Acceptable order base truncation →
      ∃ cause, Plan.Refused order base truncation cause ∧
        (plan order base truncation).run session = (.error cause, session)) ∧
    (Plan.Acceptable order base truncation →
      ∃ result after, (plan order base truncation).run session = (.ok result, after) ∧
        ∀ assignment ∈ result.assignments, assignment.Within base (2 ^ order)) ∧
    Guarded.plan order base truncation session =
      some ((plan order base truncation).run session) := by
  have cases := Plan.validate_cases order base truncation
  refine ⟨fun wrong => ?_, fun acceptable => ?_,
    Guarded.agrees_plan order base truncation session planned.complete⟩
  · rcases cases with ⟨acceptable, _⟩ | ⟨_, cause, why, refused⟩
    · exact absurd acceptable wrong
    · exact ⟨cause, why, plan_of_refused refused session⟩
  · rcases cases with ⟨_, wanted, accepted⟩ | ⟨wrong, _⟩
    · refine ⟨_, _, plan_of_accepted accepted session, ?_⟩
      rw [planned.build_eq acceptable.positive, ← blockSize_eq_pow]
      exact Block.listingOf_within order base wanted .input
    · exact absurd acceptable wrong

theorem plan_within_words_edge :
    Session.Planned ((plan 4 0 9).run .fresh).2 ∧
      ¬Plan.Acceptable 3 (2 ^ 64 - 8) 7 ∧
      (∃ cause, Plan.Refused 3 (2 ^ 64 - 8) 7 cause ∧
        (plan 3 (2 ^ 64 - 8) 7).run ((plan 4 0 9).run .fresh).2 =
          (.error cause, ((plan 4 0 9).run .fresh).2)) ∧
      Plan.Acceptable 3 (2 ^ 64 - 9) 7 ∧
      (∃ result after,
        (plan 3 (2 ^ 64 - 9) 7).run ((plan 4 0 9).run .fresh).2 = (.ok result, after) ∧
          ∀ assignment ∈ result.assignments, assignment.Within (2 ^ 64 - 9) (2 ^ 3)) ∧
      Guarded.plan 3 (2 ^ 64 - 9) 7 ((plan 4 0 9).run .fresh).2 =
        some ((plan 3 (2 ^ 64 - 9) 7).run ((plan 4 0 9).run .fresh).2) := by
  have planned : Session.Planned ((plan 4 0 9).run .fresh).2 := .plan 4 0 9 .fresh
  have beyond : ¬Plan.Acceptable 3 (2 ^ 64 - 8) 7 := fun acceptable =>
    absurd acceptable.fits (by decide)
  have inside : Plan.Acceptable 3 (2 ^ 64 - 9) 7 :=
    ⟨by decide, by decide, by decide, by decide, by decide⟩
  have refused := (plan_within_words planned 3 (2 ^ 64 - 8) 7).1 beyond
  obtain ⟨_, given, guarded⟩ := plan_within_words planned 3 (2 ^ 64 - 9) 7
  exact ⟨planned, beyond, refused, inside, given inside, guarded⟩

end PrunedCosine
