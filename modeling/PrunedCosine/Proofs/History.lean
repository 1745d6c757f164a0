import PrunedCosine.Proofs.Listing

/-! What a session answers after any history of calls. Only planning and the search for required
inputs fill the memo of a session that nobody stores lists in, so its memo shows in no answer:
each is the answer of a fresh session. -/

namespace PrunedCosine

namespace Session

section Keeps

variable {α β : Type} {keeps : Session → Prop}

def Preserves (keeps : Session → Prop) (action : StateM Session α) : Prop :=
  ∀ session, keeps session → keeps (action session).2

theorem preserves_pure (value : α) : Preserves keeps (pure value) := fun _ holds => holds

theorem Preserves.bind {action : StateM Session α} {next : α → StateM Session β}
    (first : Preserves keeps action) (second : ∀ value, Preserves keeps (next value)) :
    Preserves keeps (action >>= next) :=
  fun session holds => second _ _ (first session holds)

/-- A property of sessions that the single steps of a search leave as it is. Lists are stored for
blocks of four or more values. -/
structure Steady (keeps : Session → Prop) : Prop where
  note : ∀ event, Preserves keeps (note event)
  lookUp : ∀ order truncation, Preserves keeps (lookUp order truncation)
  store : ∀ order truncation places, 2 ≤ order → Preserves keeps (store order truncation places)

structure Stable (keeps : Session → Prop) : Prop extends Steady keeps where
  recordPlan : ∀ order truncation assignments,
    Preserves keeps (recordPlan order truncation assignments)

section Steps

variable (steady : Steady keeps)

include steady

theorem Steady.requiredInputs (order : Nat) (truncation : Option Nat) :
    Preserves keeps (requiredInputs order truncation) := by
  induction order using Nat.twoStepInduction generalizing truncation with
  | zero =>
    cases truncation with
    | none => exact preserves_pure []
    | some last => exact (steady.lookUp 0 last).bind fun _ => preserves_pure _
  | one => cases truncation <;> exact preserves_pure _
  | more half _ ih =>
    cases truncation with
    | none => exact preserves_pure []
    | some last =>
      refine (steady.lookUp (half + 2) last).bind fun found => ?_
      cases found with
      | some places => exact preserves_pure places
      | none =>
        exact (ih _).bind fun _ => (ih _).bind fun _ => (steady.note _).bind fun _ =>
          (steady.store (half + 2) last _ (by omega)).bind fun _ => preserves_pure _

theorem Steady.assignments (order base truncation : Nat) (source : Buffer) :
    Preserves keeps (Block.assignments order base truncation source) := by
  induction order using Nat.twoStepInduction generalizing base truncation source with
  | zero => exact preserves_pure []
  | one => exact (steady.note _).bind fun _ => preserves_pure _
  | more half _ ih =>
    rw [Block.assignments]
    refine (steady.note _).bind fun _ => (steady.requiredInputs _ _).bind fun _ =>
      (steady.requiredInputs _ _).bind fun _ => (ih _ _ _).bind fun _ => ?_
    cases (childTruncations (blockSize (half + 2)) truncation).2 with
    | some last => exact (ih _ _ _).bind fun _ => preserves_pure _
    | none => exact (preserves_pure []).bind fun _ => preserves_pure _

end Steps

variable (stable : Stable keeps)

include stable

theorem Stable.build (order base : Nat) (truncation : Option Nat) :
    Preserves keeps (Plan.build order base truncation) := by
  refine (stable.requiredInputs order truncation).bind fun _ => ?_
  cases truncation with
  | some last =>
    exact (stable.assignments order base last .input).bind fun _ =>
      (stable.recordPlan _ _ _).bind fun _ => (stable.note _).bind fun _ => preserves_pure _
  | none =>
    exact (preserves_pure []).bind fun _ =>
      (stable.recordPlan _ _ _).bind fun _ => (stable.note _).bind fun _ => preserves_pure _

theorem Stable.plan (order base : Nat) (truncation : Int) :
    Preserves keeps (PrunedCosine.plan order base truncation).run := by
  intro session holds
  cases accepted : Plan.validate order base truncation with
  | error cause =>
    rw [plan_of_refused accepted]
    exact holds
  | ok wanted =>
    rw [plan_of_accepted accepted]
    exact stable.build order base wanted session holds

end Keeps

def NoUnitEntry (session : Session) : Prop :=
  ∀ truncation, session.memo.find? 0 truncation = none

theorem noUnitEntry_stable : Stable NoUnitEntry where
  note _ _ holds := holds
  lookUp _ _ _ holds := holds
  recordPlan _ _ _ _ holds := holds
  store order truncation places large session holds other := by
    have different : ¬(0 = order ∧ other = truncation) := fun same => by omega
    rw [store, Memo.find?_insert, if_neg different]
    exact holds other

theorem Planned.noUnitEntry {session : Session} (planned : Planned session) :
    session.NoUnitEntry := by
  induction planned with
  | fresh => exact fun _ => rfl
  | plan order base truncation _ ih => exact noUnitEntry_stable.plan order base truncation _ ih
  | requiredInputs order truncation _ _ ih =>
    exact noUnitEntry_stable.requiredInputs order truncation _ ih
  | other _ same ih => exact fun truncation => same ▸ ih truncation

theorem Planned.requiredInputs_eq {session : Session} (planned : Planned session) {order : Nat}
    (positive : 1 ≤ order) (truncation : Option Nat) :
    (PrunedCosine.requiredInputs order truncation session).1 =
      (PrunedCosine.requiredInputs order truncation .fresh).1 := by
  obtain ⟨half, rfl⟩ := Nat.exists_eq_add_of_le' positive
  have gives := gives_requiredInputs half truncation
  rw [(gives session planned.complete).1, (gives .fresh Memo.complete_empty).1]

theorem Planned.stored_eq {session : Session} (planned : Planned session) {order truncation : Nat}
    {places : List Nat} (found : session.memo.find? order truncation = some places) :
    places = (PrunedCosine.requiredInputs order (some truncation) .fresh).1 := by
  obtain _ | half := order
  · rw [planned.noUnitEntry truncation] at found
    cases found
  · have whole := planned.complete _ _ _ found
    rw [whole, (gives_requiredInputs half (some truncation) .fresh Memo.complete_empty).1]
    rfl

theorem Planned.plan_eq {session : Session} (planned : Planned session) (order base : Nat)
    (truncation : Int) :
    ((PrunedCosine.plan order base truncation).run session).1 =
      ((PrunedCosine.plan order base truncation).run .fresh).1 := by
  cases accepted : Plan.validate order base truncation with
  | error cause => rw [plan_of_refused accepted, plan_of_refused accepted]
  | ok wanted =>
    have positive := (Plan.validate_order accepted).1
    rw [plan_of_accepted accepted, plan_of_accepted accepted, planned.build_eq positive,
      Planned.fresh.build_eq positive]

end Session

inductive Call where
  | plan (order base : Nat) (truncation : Int)
  | requiredInputs (order : Nat) (truncation : Option Nat)
  | lookUp (order truncation : Nat)
  | store (order truncation : Nat) (places : List Nat)
  | recordPlan (order : Nat) (truncation : Option Nat) (assignments : List Assignment)
  | statistics

inductive Answer where
  | plan (result : Except Error Plan)
  | places (places : List Nat)
  | stored (places : Option (List Nat))
  | done
  | statistics (statistics : Statistics)

namespace Call

def perform : Call → StateM Session Answer
  | plan order base truncation => do
      pure (.plan (← (PrunedCosine.plan order base truncation).run))
  | requiredInputs order truncation => do
      pure (.places (← PrunedCosine.requiredInputs order truncation))
  | lookUp order truncation => do
      pure (.stored (← Session.lookUp order truncation))
  | store order truncation places => do
      Session.store order truncation places
      pure .done
  | recordPlan order truncation assignments => do
      Session.recordPlan order truncation assignments
      pure .done
  | statistics => do
      let session ← get
      pure (.statistics session.statistics)

theorem perform_of_refused {order base : Nat} {given : Int} {cause : Error}
    (refused : Plan.validate order base given = .error cause) (session : Session) :
    (plan order base given).perform session = (.plan (.error cause), session) := by
  simp only [perform, bind, StateT.bind, Session.plan_of_refused refused]
  rfl

theorem perform_of_accepted {order base : Nat} {given : Int} {wanted : Option Nat}
    (accepted : Plan.validate order base given = .ok wanted) (session : Session) :
    (plan order base given).perform session =
      (.plan (.ok (Plan.build order base wanted session).1),
        (Plan.build order base wanted session).2) := by
  simp only [perform, bind, StateT.bind, Session.plan_of_accepted accepted]
  rfl

/-- The calls that store no list of their own, and search in no block of one value. -/
def Admissible : Call → Prop
  | requiredInputs order _ => 1 ≤ order
  | store _ _ _ => False
  | plan _ _ _ | lookUp _ _ | recordPlan _ _ _ | statistics => True

/-- The answer does not depend on what the memo holds: a plan, a refusal and a list of required
inputs are those of a fresh session, and a list found in the memo is what a fresh session would
compute in its place. -/
def Transparent : Call → Answer → Prop
  | plan order base truncation, answer =>
      answer = .plan ((PrunedCosine.plan order base truncation).run .fresh).1
  | requiredInputs order truncation, answer =>
      answer = .places (PrunedCosine.requiredInputs order truncation .fresh).1
  | lookUp order truncation, answer =>
      ∃ found : Option (List Nat), answer = .stored found ∧ ∀ places ∈ found,
        places = (PrunedCosine.requiredInputs order (some truncation) .fresh).1
  | store _ _ _, _ | recordPlan _ _ _, _ | statistics, _ => True

theorem perform_planned {session : Session} (planned : session.Planned) {call : Call}
    (admissible : call.Admissible) : (call.perform session).2.Planned := by
  cases call with
  | plan order base truncation => exact .plan order base truncation planned
  | requiredInputs order truncation => exact .requiredInputs order truncation admissible planned
  | lookUp order truncation => exact .other planned rfl
  | store order truncation places => exact admissible.elim
  | recordPlan order truncation assignments => exact .other planned rfl
  | statistics => exact planned

theorem perform_transparent {session : Session} (planned : session.Planned) {call : Call}
    (admissible : call.Admissible) : call.Transparent (call.perform session).1 := by
  cases call with
  | plan order base truncation => exact congrArg Answer.plan (planned.plan_eq order base truncation)
  | requiredInputs order truncation =>
    exact congrArg Answer.places (planned.requiredInputs_eq admissible truncation)
  | lookUp order truncation => exact ⟨_, rfl, fun places found => planned.stored_eq found⟩
  | store order truncation places => exact admissible.elim
  | recordPlan order truncation assignments => trivial
  | statistics => trivial

def performAll (calls : List Call) : StateM Session (List Answer) := calls.mapM perform

theorem performAll_cons (call : Call) (rest : List Call) (session : Session) :
    (performAll (call :: rest) session).1 =
      (call.perform session).1 :: (performAll rest (call.perform session).2).1 := by
  rw [performAll, List.mapM_cons]
  rfl

theorem performAll_cons_snd (call : Call) (rest : List Call) (session : Session) :
    (performAll (call :: rest) session).2 = (performAll rest (call.perform session).2).2 := by
  rw [performAll, List.mapM_cons]
  rfl

theorem performAll_transparent {session : Session} (planned : session.Planned) {calls : List Call}
    (admissible : ∀ call ∈ calls, call.Admissible) :
    List.Forall₂ Transparent calls (performAll calls session).1 := by
  induction calls generalizing session with
  | nil => exact .nil
  | cons call rest ih =>
    obtain ⟨first, others⟩ := List.forall_mem_cons.mp admissible
    rw [performAll_cons]
    exact .cons (perform_transparent planned first) (ih (perform_planned planned first) others)

end Call

/-- Whatever calls a session has answered, the memo that they filled shows in no answer. -/
theorem answers_transparent (calls : List Call) (admissible : ∀ call ∈ calls, call.Admissible) :
    List.Forall₂ Call.Transparent calls (Call.performAll calls .fresh).1 :=
  Call.performAll_transparent .fresh admissible

/-- Calls of every admissible kind, one of which is refused. -/
def mixedCalls : List Call :=
  [.requiredInputs 4 (some 40), .plan 5 3 9, .plan 0 0 0, .lookUp 4 4, .recordPlan 2 none [],
    .statistics, .plan 5 0 9]

theorem answers_transparent_mixed :
    (∀ call ∈ mixedCalls, call.Admissible) ∧
      List.Forall₂ Call.Transparent mixedCalls (Call.performAll mixedCalls .fresh).1 := by
  have admissible : ∀ call ∈ mixedCalls, call.Admissible := by
    simp [mixedCalls, Call.Admissible]
  exact ⟨admissible, answers_transparent mixedCalls admissible⟩

end PrunedCosine
