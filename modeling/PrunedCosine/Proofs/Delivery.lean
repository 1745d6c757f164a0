import PrunedCosine.CommandLine.Run
import PrunedCosine.Proofs.Guarded
import PrunedCosine.Proofs.ReadBack
import PrunedCosine.Proofs.Soundness

/-! What the command line delivers. A run that succeeds delivers the text that the library
generates, in one place; any other run delivers nothing. The way in which errors are measured and
the success of writing a file are arbitrary. -/

namespace PrunedCosine

section Jobs

variable {ε α β : Type} {first : ExceptT ε (StateM Session) α}
  {next : α → ExceptT ε (StateM Session) β} {session after : Session}

theorem run_bind_eq :
    (first >>= next).run session =
      match (first.run session).1 with
      | .ok value => (next value).run (first.run session).2
      | .error failure => (.error failure, (first.run session).2) := by
  rw [ExceptT.run_bind]
  change (match (first.run session).1 with
    | .ok value => (next value).run
    | .error failure => pure (.error failure)) (first.run session).2 = _
  cases (first.run session).1 <;> rfl

theorem run_bind_of_ok {value : α} (done : first.run session = (.ok value, after)) :
    (first >>= next).run session = (next value).run after := by
  rw [run_bind_eq, done]

theorem run_bind_of_error {failure : ε} (failed : first.run session = (.error failure, after)) :
    (first >>= next).run session = (.error failure, after) := by
  rw [run_bind_eq, failed]

end Jobs

theorem scaleTable_run {order : Nat} (positive : 1 ≤ order) (short : order ≤ maxOrder)
    (session : Session) :
    ∃ after, (scaleTable order).run session = (.ok (.ofOrder order), after) := by
  have checked : checkOrder order = .ok () := by
    rw [checkOrder, if_neg (Nat.not_lt.mpr positive), if_neg (Nat.not_lt.mpr short)]
  rw [scaleTable, checked]
  exact ⟨_, rfl⟩

namespace CommandLine

section Planning

variable {α : Type} {task : Planning α} {session after : Session}

theorem ofPlanning_run_eq : (Job.ofPlanning task).run session =
    ((task.run session).1.mapError Failure.ofError, (task.run session).2) := rfl

theorem ofPlanning_run_of_ok {value : α} (done : task.run session = (.ok value, after)) :
    (Job.ofPlanning task).run session = (.ok value, after) := by
  rw [ofPlanning_run_eq, done]
  rfl

theorem ofPlanning_run_of_error {cause : Error} (failed : task.run session = (.error cause, after)) :
    (Job.ofPlanning task).run session = (.error (.ofError cause), after) := by
  rw [ofPlanning_run_eq, failed]
  rfl

end Planning

theorem examine_run {plan : Plan} (sound : plan.defects = []) (measure : Measure)
    (table : ScaleTable Float) (session : Session) :
    (examine measure plan table).run session = (verdict plan (measure plan table), session) := by
  have inspected : (liftM (inspect plan : StateM Session (List Defect)) : Job (List Defect)).run
      session = (.ok [], session) := by
    change ((fun defects => Except.ok defects) <$> inspect plan) session = _
    change (Except.ok (inspect plan session).1, (inspect plan session).2) = _
    rw [inspect_eq_nil sound]
  rw [examine, run_bind_of_ok inspected]
  cases verdict plan (measure plan table) <;> rfl

namespace Settings

/-- What a run needs to succeed: an order that there is, and no more coefficients than values. -/
def Valid (settings : Settings) : Prop :=
  1 ≤ settings.transformOrder ∧ settings.transformOrder ≤ 20 ∧
    settings.count ≤ 2 ^ settings.transformOrder

def generated (settings : Settings) : Except Error String :=
  ((generate settings.transformOrder ((settings.count : Int) - 1) settings.language
    settings.options).run .fresh).1

def wanted (settings : Settings) : Option Nat :=
  if settings.count = 0 then none else some (settings.count - 1)

def plan (settings : Settings) : Plan := .canonical settings.transformOrder 0 settings.wanted

def text (settings : Settings) : String :=
  settings.language.text (settings.plan.routine
    (.ofOrder settings.transformOrder : ScaleTable Float) settings.options)

/-- What is said before the delivery. A check that is not asked for says nothing. -/
def notes (settings : Settings) (measure : Measure) : Except Failure (List String) :=
  if settings.check then
    (verdict settings.plan (measure settings.plan (.ofOrder settings.transformOrder))).map ([·])
  else .ok []

theorem writeRoutine_run (settings : Settings) (session : Session) :
    ∃ after, (writeRoutine settings.plan (.ofOrder settings.transformOrder) settings.language
      settings.options).run session = (.ok settings.text, after) :=
  settings.plan.writeRoutine_eq settings.language settings.options session

variable {settings : Settings}

theorem validate_of_valid (valid : settings.Valid) :
    Plan.validate settings.transformOrder 0 ((settings.count : Int) - 1) = .ok settings.wanted := by
  obtain ⟨positive, short, few⟩ := valid
  have size : 2 ^ settings.transformOrder ≤ 2 ^ 20 := Nat.pow_le_pow_right (by decide) short
  have acceptable : Plan.Acceptable settings.transformOrder 0 ((settings.count : Int) - 1) :=
    { positive, short, fits := by omega, least := by omega
      inside := by
        have : (settings.count : Int) ≤ 2 ^ settings.transformOrder := by exact_mod_cast few
        omega }
  rcases Plan.validate_cases settings.transformOrder 0 ((settings.count : Int) - 1) with
    ⟨_, wanted, accepted⟩ | ⟨refused, _⟩
  · rw [accepted, Settings.wanted]
    obtain ⟨_, _, ⟨none, rfl⟩ | ⟨last, some, rfl, _⟩⟩ := Plan.validate_ok accepted
    · rw [if_pos (by omega)]
    · rw [if_neg (by omega)]
      congr
      omega
  · exact absurd acceptable refused

end Settings

section Prepare

variable {settings : Settings} (measure : Measure)

theorem lastCoefficient_of_valid (valid : settings.Valid) :
    lastCoefficient settings.count = .ok ((settings.count : Int) - 1) := by
  have few : settings.count ≤ 2 ^ 20 :=
    valid.2.2.trans (Nat.pow_le_pow_right (by decide) valid.2.1)
  exact if_neg (by unfold largestSigned; omega)

theorem defects_of_valid (valid : settings.Valid) : settings.plan.defects = [] := by
  apply Plan.defects_canonical 0 valid.1
  intro last same
  have accepted := Settings.validate_of_valid valid
  rw [same] at accepted
  exact Plan.validate_bound accepted

theorem plan_run (valid : settings.Valid) :
    ∃ after, (plan settings.transformOrder 0 ((settings.count : Int) - 1)).run .fresh =
      (.ok settings.plan, after) := by
  rw [Session.plan_of_accepted (Settings.validate_of_valid valid),
    Session.Planned.fresh.build_eq valid.1]
  exact ⟨_, rfl⟩

theorem report_run (valid : settings.Valid) (session : Session) :
    (report measure settings settings.plan (.ofOrder settings.transformOrder)).run session =
      (settings.notes measure, session) := by
  rw [report, Settings.notes]
  split
  · rw [map_eq_pure_bind]
    have examined := examine_run (defects_of_valid valid) measure
      (.ofOrder settings.transformOrder) session
    cases found : verdict settings.plan
        (measure settings.plan (.ofOrder settings.transformOrder)) with
    | error failure =>
      rw [found] at examined
      exact run_bind_of_error examined
    | ok line =>
      rw [found] at examined
      rw [run_bind_of_ok examined]
      rfl
  · rfl

theorem generated_of_valid (valid : settings.Valid) : settings.generated = .ok settings.text := by
  obtain ⟨planned, built⟩ := plan_run valid
  obtain ⟨tabled, laidOut⟩ := scaleTable_run valid.1 valid.2.1 planned
  obtain ⟨_, wrote⟩ := settings.writeRoutine_run tabled
  rw [Settings.generated, generate, run_bind_of_ok built, run_bind_of_ok laidOut, wrote]

theorem prepare_of_valid (valid : settings.Valid) :
    ∃ closing, ((prepare measure settings).run .fresh).1 = (settings.notes measure).map
      fun notes => { notes, text := settings.text, output := settings.output, closing } := by
  obtain ⟨planned, built⟩ := plan_run valid
  obtain ⟨tabled, laidOut⟩ := scaleTable_run valid.1 valid.2.1 planned
  obtain ⟨written, wrote⟩ := settings.writeRoutine_run tabled
  have asked : (MonadExcept.ofExcept ((lastCoefficient settings.count).mapError
      Failure.ofError) : Job Int).run .fresh = (.ok ((settings.count : Int) - 1), .fresh) := by
    rw [lastCoefficient_of_valid valid]
    rfl
  have reported := report_run measure valid tabled
  refine ⟨if settings.stats then written.statistics.text else "", ?_⟩
  rw [prepare, run_bind_of_ok asked, run_bind_of_ok (ofPlanning_run_of_ok built),
    run_bind_of_ok (ofPlanning_run_of_ok laidOut)]
  -- a check that fails ends the work before the routine is written
  cases told : settings.notes measure with
  | error failure =>
    rw [told] at reported
    rw [run_bind_of_error reported]
    rfl
  | ok notes =>
    rw [told] at reported
    rw [run_bind_of_ok reported, run_bind_of_ok (ofPlanning_run_of_ok wrote)]
    rfl

theorem prepare_of_invalid (invalid : ¬settings.Valid) :
    ∃ failure, ((prepare measure settings).run .fresh).1 = .error failure := by
  rw [prepare]
  -- a count that is no signed word is refused before the planning, any other by the planning
  cases asked : lastCoefficient settings.count with
  | error cause => exact ⟨.ofError cause, rfl⟩
  | ok last =>
    have same : last = (settings.count : Int) - 1 := by
      rw [lastCoefficient] at asked
      split at asked
      · cases asked
      · exact (Except.ok.inj asked).symm
    rcases Plan.validate_cases settings.transformOrder 0 last with
      ⟨acceptable, _⟩ | ⟨_, cause, _, refused⟩
    · have few : settings.count ≤ 2 ^ settings.transformOrder := by
        have inside := acceptable.inside
        rw [same] at inside
        have bound : (settings.count : Int) ≤ 2 ^ settings.transformOrder := by omega
        exact_mod_cast bound
      exact absurd ⟨acceptable.positive, acceptable.short, few⟩ invalid
    · exact ⟨.ofError cause, congrArg Prod.fst (run_bind_of_error
        (ofPlanning_run_of_error (Session.plan_of_refused refused .fresh)))⟩

end Prepare

namespace Outcome

/-- The run succeeded, and the text is in the file if there is one and on standard output if not. -/
def Delivers (outcome : Outcome) (text : String) (output : Option String) : Prop :=
  outcome.exitCode = 0 ∧
    match output with
    | none => outcome.stdout = text ∧ outcome.file = none
    | some path => outcome.stdout = "" ∧ outcome.file = some (path, text)

def Silent (outcome : Outcome) : Prop :=
  outcome.exitCode = 1 ∧ outcome.stdout = "" ∧ outcome.file = none

def SameDelivery (first second : Outcome) : Prop :=
  first.exitCode = second.exitCode ∧ first.stdout = second.stdout ∧ first.file = second.file

theorem Delivers.same {first second : Outcome} {text : String} {output : Option String}
    (left : first.Delivers text output) (right : second.Delivers text output) :
    first.SameDelivery second := by
  obtain ⟨leftCode, left⟩ := left
  obtain ⟨rightCode, right⟩ := right
  refine ⟨leftCode.trans rightCode.symm, ?_⟩
  cases output with
  | none => exact ⟨left.1.trans right.1.symm, left.2.trans right.2.symm⟩
  | some path => exact ⟨left.1.trans right.1.symm, left.2.trans right.2.symm⟩

theorem Silent.same {first second : Outcome} (left : first.Silent) (right : second.Silent) :
    first.SameDelivery second :=
  ⟨left.1.trans right.1.symm, left.2.1.trans right.2.1.symm, left.2.2.trans right.2.2.symm⟩

end Outcome

theorem Failure.outcome_silent (failure : Failure) : failure.outcome.Silent := ⟨rfl, rfl, rfl⟩

theorem Delivery.finish_delivers (delivery : Delivery) :
    (delivery.finish none).Delivers delivery.text delivery.output := by
  obtain ⟨notes, text, output, closing⟩ := delivery
  cases output with
  | none => exact ⟨rfl, rfl, rfl⟩
  | some path => exact ⟨rfl, rfl, rfl⟩

theorem Delivery.finish_silent {delivery : Delivery} {path : String}
    (asked : delivery.output = some path) (cause : String) :
    (delivery.finish (some cause)).Silent := by
  obtain ⟨notes, text, output, closing⟩ := delivery
  cases asked
  exact Failure.outcome_silent _

section Run

variable (measure : Measure) (fault? : String → Option String) (settings : Settings)

/-- What a run comes to: the settings are valid, the check has nothing against the plan, and the
file can be written. -/
def Settings.Succeeds : Prop :=
  settings.Valid ∧ (∃ lines, settings.notes measure = .ok lines) ∧
    settings.output.bind fault? = none

theorem run_cases :
    (settings.Succeeds measure fault? ∧
        (run measure fault? settings).Delivers settings.text settings.output) ∨
      (¬settings.Succeeds measure fault? ∧ (run measure fault? settings).Silent) := by
  rw [run]
  by_cases valid : settings.Valid
  · obtain ⟨closing, prepared⟩ := prepare_of_valid measure valid
    rw [prepared]
    cases told : settings.notes measure with
    | error failure =>
      refine Or.inr ⟨fun succeeds => ?_, failure.outcome_silent⟩
      obtain ⟨lines, passed⟩ := succeeds.2.1
      exact nomatch told.symm.trans passed
    | ok notes =>
      change (_ ∧ (Delivery.finish _ (settings.output.bind fault?)).Delivers _ _) ∨
        (_ ∧ (Delivery.finish _ (settings.output.bind fault?)).Silent)
      cases fault : settings.output.bind fault? with
      | none => exact Or.inl ⟨⟨valid, ⟨notes, told⟩, fault⟩, Delivery.finish_delivers _⟩
      | some cause =>
        obtain ⟨path, asked, _⟩ := Option.bind_eq_some_iff.mp fault
        refine Or.inr ⟨fun succeeds => ?_, Delivery.finish_silent asked cause⟩
        exact nomatch fault.symm.trans succeeds.2.2
  · obtain ⟨failure, prepared⟩ := prepare_of_invalid measure valid
    rw [prepared]
    exact Or.inr ⟨fun succeeds => valid succeeds.1, failure.outcome_silent⟩

variable {measure fault? settings}

theorem run_of_succeeds (succeeds : settings.Succeeds measure fault?) :
    (run measure fault? settings).Delivers settings.text settings.output := by
  rcases run_cases measure fault? settings with ⟨_, delivers⟩ | ⟨failed, _⟩
  · exact delivers
  · exact absurd succeeds failed

theorem run_of_fails (fails : ¬settings.Succeeds measure fault?) :
    (run measure fault? settings).Silent := by
  rcases run_cases measure fault? settings with ⟨succeeds, _⟩ | ⟨_, silent⟩
  · exact absurd succeeds fails
  · exact silent

theorem exitCode_eq_zero_iff :
    (run measure fault? settings).exitCode = 0 ↔ settings.Succeeds measure fault? := by
  constructor
  · intro success
    by_contra fails
    exact nomatch success.symm.trans (run_of_fails fails).1
  · intro succeeds
    exact (run_of_succeeds succeeds).1

end Run

/-- A run delivers the text that the library generates, to the file if there is one and otherwise
to standard output, or it fails and delivers nothing. Without a check and where the file can be
written it succeeds for every order and every number of coefficients that there are. Statistics
change nothing, and a check that lets the plan pass changes nothing. -/
theorem run_delivers_or_fails (measure : Measure) (fault? : String → Option String)
    (settings : Settings) :
    ((∃ text, settings.generated = .ok text ∧
        (run measure fault? settings).Delivers text settings.output) ∨
      (run measure fault? settings).Silent) ∧
    (settings.check = false → settings.output.bind fault? = none →
      ((run measure fault? settings).exitCode = 0 ↔
        1 ≤ settings.transformOrder ∧ settings.transformOrder ≤ 20 ∧
          settings.count ≤ 2 ^ settings.transformOrder)) ∧
    (∀ stats, (run measure fault? { settings with stats }).SameDelivery
      (run measure fault? settings)) ∧
    ((run measure fault? { settings with check := true }).exitCode = 0 →
      (run measure fault? { settings with check := true }).SameDelivery
        (run measure fault? { settings with check := false })) := by
  refine ⟨?_, fun unchecked writable => ?_, fun stats => ?_, fun success => ?_⟩
  · rcases run_cases measure fault? settings with ⟨succeeds, delivers⟩ | ⟨_, silent⟩
    · exact Or.inl ⟨settings.text, generated_of_valid succeeds.1, delivers⟩
    · exact Or.inr silent
  · have quiet : settings.notes measure = .ok [] := if_neg (by simp [unchecked])
    rw [exitCode_eq_zero_iff]
    exact ⟨fun succeeds => succeeds.1, fun valid => ⟨valid, ⟨[], quiet⟩, writable⟩⟩
  · by_cases succeeds : settings.Succeeds measure fault?
    · have other : Settings.Succeeds measure fault? { settings with stats } := succeeds
      exact (run_of_succeeds other).same (run_of_succeeds succeeds)
    · have other : ¬Settings.Succeeds measure fault? { settings with stats } := succeeds
      exact (run_of_fails other).same (run_of_fails succeeds)
  · obtain ⟨valid, passed, writable⟩ := exitCode_eq_zero_iff.mp success
    have other : Settings.Succeeds measure fault? { settings with check := false } :=
      ⟨valid, ⟨[], rfl⟩, writable⟩
    exact (run_of_succeeds (exitCode_eq_zero_iff.mp success)).same (run_of_succeeds other)

theorem run_delivers_or_fails_eight :
    let settings : Settings := { order := some 3, coefficients := some 8, output := some "dct.js" }
    settings.check = false ∧ settings.output.bind (fun _ => none) = (none : Option String) ∧
      (run probeError (fun _ => none) settings).exitCode = 0 :=
  ⟨rfl, rfl, ((run_delivers_or_fails probeError (fun _ => none) _).2.1 rfl rfl).mpr (by decide)⟩

end CommandLine

end PrunedCosine
