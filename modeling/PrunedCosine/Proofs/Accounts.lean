import PrunedCosine.Proofs.Cosine
import PrunedCosine.Proofs.History

/-! What the statistics of a session say of its plans. They are told of each plan once, when it is
recorded; refused plans, searches and lists stored by hand leave no trace in them. The largest plan
is the first of its size. -/

namespace PrunedCosine

inductive Kind where
  /-- A sum or difference that is not scaled. -/
  | plain
  | scaled
  | copied
deriving DecidableEq

def Expression.kind : Expression → Kind
  | combine _ _ _ none => .plain
  | combine _ _ _ (some _) => .scaled
  | copy _ => .copied

/-- What a session is told of a plan. -/
structure Report where
  order : Nat
  truncation : Option Nat
  assignments : List Assignment

namespace Report

def size (report : Report) : Nat := report.assignments.length

def name (report : Report) : String :=
  let outputs := match report.truncation with
    | some last => last + 1
    | none => 0
  s!"fdct{2 ^ report.order}_{outputs}"

def Nameable (report : Report) : Prop :=
  report.order < 64 ∧ ∀ last ∈ report.truncation, last + 1 < 2 ^ 64

theorem planName_eq {report : Report} (nameable : report.Nameable) :
    Statistics.planName report.order report.truncation = report.name := by
  obtain ⟨small, word⟩ := nameable
  unfold Statistics.planName name
  rw [Nat.mod_eq_of_lt small, blockSize_eq_pow]
  cases wanted : report.truncation with
  | none => rfl
  | some last =>
    have fits : last + 1 < wordCount := word last wanted
    simp only [Nat.mod_eq_of_lt fits]

end Report

def countOf (kind : Kind) (reports : List Report) : Nat :=
  (reports.flatMap Report.assignments).countP fun assignment => assignment.expression.kind = kind

namespace Statistics

structure Counts (statistics : Statistics) (reports : List Report) : Prop where
  plans : statistics.plans = reports.length
  assignments : statistics.assignments = (reports.map Report.size).sum
  plain : statistics.plainCombines = countOf .plain reports
  scaled : statistics.scaledCombines = countOf .scaled reports
  copied : statistics.copies = countOf .copied reports

/-- The plan named is the first of these plans that is as large as any, if that is not empty. -/
structure NamesLargest (statistics : Statistics) (reports : List Report) : Prop where
  bounded : ∀ report ∈ reports, report.size ≤ statistics.largest
  unnamed : statistics.largest = 0 → statistics.largestName = ""
  named : statistics.largest ≠ 0 → ∃ earlier first later,
    reports = earlier ++ first :: later ∧ first.size = statistics.largest ∧
      (∀ other ∈ earlier, other.size < statistics.largest) ∧ statistics.largestName = first.name

/-- The statistics are those of a session that was told of these plans, in this order. -/
structure Accounts (statistics : Statistics) (reports : List Report) : Prop
  extends Counts statistics reports, NamesLargest statistics reports

end Statistics

theorem countOf_append (kind : Kind) (first second : List Report) :
    countOf kind (first ++ second) = countOf kind first + countOf kind second := by
  simp only [countOf, List.flatMap_append, List.countP_append]

theorem countOf_singleton (kind : Kind) (report : Report) :
    countOf kind [report] =
      report.assignments.countP fun assignment => assignment.expression.kind = kind := by
  simp only [countOf, List.flatMap_singleton]

theorem classes_eq :
    (Statistics.isPlainCombine = fun assignment => decide (assignment.expression.kind = .plain)) ∧
      (Statistics.isScaledCombine =
        fun assignment => decide (assignment.expression.kind = .scaled)) ∧
      Statistics.isCopy = fun assignment => decide (assignment.expression.kind = .copied) := by
  refine ⟨?_, ?_, ?_⟩ <;>
  · funext ⟨_, expression, _, _⟩
    cases expression with
    | combine sign left right scale => cases scale <;> rfl
    | copy source => rfl

theorem countP_kinds (assignments : List Assignment) :
    assignments.length =
      (assignments.countP fun assignment => assignment.expression.kind = .plain) +
        (assignments.countP fun assignment => assignment.expression.kind = .scaled) +
        assignments.countP fun assignment => assignment.expression.kind = .copied := by
  induction assignments with
  | nil => rfl
  | cons assignment rest ih =>
    simp only [List.length_cons, List.countP_cons, ih]
    cases assignment.expression.kind <;> simp <;> omega

theorem sum_size_eq (reports : List Report) :
    (reports.map Report.size).sum =
      countOf .plain reports + countOf .scaled reports + countOf .copied reports := by
  unfold countOf
  rw [← countP_kinds, List.length_flatMap]
  rfl

namespace Statistics

section Record

variable (statistics : Statistics) (order : Nat) (truncation : Option Nat)
  (assignments : List Assignment)

@[simp] theorem recordPlan_plans :
    (statistics.recordPlan order truncation assignments).plans = statistics.plans + 1 := by
  unfold recordPlan
  split <;> rfl

@[simp] theorem recordPlan_assignments :
    (statistics.recordPlan order truncation assignments).assignments =
      statistics.assignments + assignments.length := by
  unfold recordPlan
  split <;> rfl

@[simp] theorem recordPlan_plainCombines :
    (statistics.recordPlan order truncation assignments).plainCombines =
      statistics.plainCombines + assignments.countP isPlainCombine := by
  unfold recordPlan
  split <;> rfl

@[simp] theorem recordPlan_scaledCombines :
    (statistics.recordPlan order truncation assignments).scaledCombines =
      statistics.scaledCombines + assignments.countP isScaledCombine := by
  unfold recordPlan
  split <;> rfl

@[simp] theorem recordPlan_copies :
    (statistics.recordPlan order truncation assignments).copies =
      statistics.copies + assignments.countP isCopy := by
  unfold recordPlan
  split <;> rfl

theorem recordPlan_of_larger (larger : statistics.largest < assignments.length) :
    (statistics.recordPlan order truncation assignments).largest = assignments.length ∧
      (statistics.recordPlan order truncation assignments).largestName =
        planName order truncation := by
  unfold recordPlan
  rw [if_pos larger]
  exact ⟨rfl, rfl⟩

theorem recordPlan_of_not_larger (small : ¬statistics.largest < assignments.length) :
    (statistics.recordPlan order truncation assignments).largest = statistics.largest ∧
      (statistics.recordPlan order truncation assignments).largestName =
        statistics.largestName := by
  unfold recordPlan
  rw [if_neg small]
  exact ⟨rfl, rfl⟩

end Record

variable {statistics : Statistics} {reports : List Report}

theorem Counts.record (counts : statistics.Counts reports) (report : Report) :
    (statistics.recordPlan report.order report.truncation report.assignments).Counts
      (reports ++ [report]) where
  plans := by rw [recordPlan_plans, counts.plans, List.length_append, List.length_singleton]
  assignments := by
    rw [recordPlan_assignments, counts.assignments, List.map_append, List.sum_append]
    rfl
  plain := by
    rw [recordPlan_plainCombines, counts.plain, countOf_append, countOf_singleton, classes_eq.1]
  scaled := by
    rw [recordPlan_scaledCombines, counts.scaled, countOf_append, countOf_singleton,
      classes_eq.2.1]
  copied := by
    rw [recordPlan_copies, counts.copied, countOf_append, countOf_singleton, classes_eq.2.2]

/-- A further plan is named if it is larger than all before it. -/
theorem NamesLargest.record (names : statistics.NamesLargest reports) {report : Report}
    (nameable : report.Nameable) :
    (statistics.recordPlan report.order report.truncation report.assignments).NamesLargest
      (reports ++ [report]) := by
  have bounded (most : Nat) (before : statistics.largest ≤ most) (last : report.size ≤ most) :
      ∀ other ∈ reports ++ [report], other.size ≤ most := by
    simp only [List.forall_mem_append, List.forall_mem_singleton]
    exact ⟨fun other member => (names.bounded other member).trans before, last⟩
  by_cases larger : statistics.largest < report.size
  · obtain ⟨largest, name⟩ := recordPlan_of_larger statistics report.order report.truncation
      report.assignments larger
    constructor
    · rw [largest]
      exact bounded _ larger.le le_rfl
    · intro empty
      have size : report.size = 0 := largest.symm.trans empty
      omega
    · intro _
      refine ⟨reports, report, [], rfl, largest.symm, ?_, ?_⟩
      · intro other member
        rw [largest]
        exact (names.bounded other member).trans_lt larger
      · rw [name, Report.planName_eq nameable]
  · obtain ⟨largest, name⟩ := recordPlan_of_not_larger statistics report.order report.truncation
      report.assignments larger
    constructor
    · rw [largest]
      exact bounded _ le_rfl (Nat.not_lt.mp larger)
    · rw [largest, name]
      exact names.unnamed
    · intro positive
      rw [largest] at positive
      -- also on a tie, what comes before the plan that is named is as it was
      obtain ⟨earlier, first, later, split, size, smaller, same⟩ := names.named positive
      refine ⟨earlier, first, later ++ [report], ?_, ?_⟩
      · rw [split, List.append_assoc, List.cons_append]
      · rw [largest, name]
        exact ⟨size, smaller, same⟩

theorem NamesLargest.largest_eq (names : statistics.NamesLargest reports) :
    statistics.largest = (reports.map Report.size).max?.getD 0 := by
  apply Nat.le_antisymm
  · by_cases empty : statistics.largest = 0
    · rw [empty]
      exact Nat.zero_le _
    · obtain ⟨earlier, first, later, rfl, size, _, _⟩ := names.named empty
      have member : first ∈ earlier ++ first :: later := by simp
      rw [← size]
      exact List.le_max?_getD_of_mem (List.mem_map_of_mem member)
  · cases found : (reports.map Report.size).max? with
    | none => exact Nat.zero_le _
    | some most =>
      obtain ⟨report, member, rfl⟩ := List.mem_map.mp (List.max?_mem found)
      exact names.bounded report member

theorem accounts_none : Accounts {} [] where
  plans := rfl
  assignments := rfl
  plain := rfl
  scaled := rfl
  copied := rfl
  bounded := List.forall_mem_nil _
  unnamed _ := rfl
  named positive := absurd rfl positive

theorem Accounts.recordLookup (accounts : statistics.Accounts reports) (found : Bool) :
    (statistics.recordLookup found).Accounts reports := by
  cases found <;> exact { accounts with }

theorem Accounts.recordPlan (accounts : statistics.Accounts reports) {report : Report}
    (nameable : report.Nameable) :
    (statistics.recordPlan report.order report.truncation report.assignments).Accounts
      (reports ++ [report]) where
  toCounts := accounts.toCounts.record report
  toNamesLargest := accounts.toNamesLargest.record nameable

theorem Accounts.untold (accounts : statistics.Accounts reports) :
    statistics.Accounts (reports ++ (none : Option Report).toList) := by
  rw [Option.toList_none, List.append_nil]
  exact accounts

end Statistics

namespace Session

open Statistics

variable {session : Session} {reports : List Report}

theorem accounts_steady (reports : List Report) :
    Steady fun session => session.statistics.Accounts reports where
  note _ _ accounts := accounts
  lookUp _ _ _ accounts := accounts.recordLookup _
  store _ _ _ _ _ accounts := accounts

theorem accounts_build (accounts : session.statistics.Accounts reports) {order : Nat} (base : Nat)
    {truncation : Option Nat}
    (nameable : ∀ assignments, Report.Nameable ⟨order, truncation, assignments⟩) :
    let made := Plan.build order base truncation session
    made.2.statistics.Accounts
      (reports ++ [⟨made.1.order, made.1.truncation, made.1.assignments⟩]) := by
  have steady := accounts_steady reports
  have searched := steady.requiredInputs order truncation session accounts
  cases truncation with
  -- nothing is wanted, and the empty plan is told to the session all the same
  | none => exact searched.recordPlan (nameable [])
  | some last =>
    have listed := steady.assignments order base last .input _ searched
    exact listed.recordPlan (nameable _)

end Session

namespace Answer

def isPlan : Answer → Bool
  | plan (.ok _) => true
  | plan (.error _) | places _ | stored _ | done | statistics _ => false

end Answer

namespace Call

def isRecordPlan : Call → Bool
  | recordPlan _ _ _ => true
  | plan _ _ _ | requiredInputs _ _ | lookUp _ _ | store _ _ _ | statistics => false

/-- What the session is told of in the course of a call. -/
def report : Call → Answer → Option Report
  | plan _ _ _, .plan (.ok result) => some ⟨result.order, result.truncation, result.assignments⟩
  | recordPlan order truncation assignments, _ => some ⟨order, truncation, assignments⟩
  | _, _ => none

def reports (calls : List Call) (answers : List Answer) : List Report :=
  (calls.zip answers).filterMap fun asked => asked.1.report asked.2

def Nameable : Call → Prop
  | recordPlan order truncation assignments => Report.Nameable ⟨order, truncation, assignments⟩
  | plan _ _ _ | requiredInputs _ _ | lookUp _ _ | store _ _ _ | statistics => True

theorem nameable_of_accepted {order base : Nat} {given : Int} {wanted : Option Nat}
    (accepted : Plan.validate order base given = .ok wanted) (assignments : List Assignment) :
    Report.Nameable ⟨order, wanted, assignments⟩ := by
  obtain ⟨⟨_, small⟩, fits, _⟩ := Plan.validate_ok accepted
  constructor
  · exact small.trans_lt (by decide)
  · intro last member
    have inside := Plan.validate_bounds accepted last member
    change last + 1 < wordCount
    omega

/-- A call adds to the account what the session is told of in its course. -/
theorem accounts_perform {session : Session} {reports : List Report}
    (accounts : session.statistics.Accounts reports) {call : Call} (nameable : call.Nameable) :
    (call.perform session).2.statistics.Accounts
      (reports ++ (call.report (call.perform session).1).toList) := by
  cases call with
  | plan order base given =>
    cases accepted : Plan.validate order base given with
    | error cause =>
      rw [perform_of_refused accepted]
      exact accounts.untold
    | ok wanted =>
      rw [perform_of_accepted accepted]
      exact Session.accounts_build accounts base (nameable_of_accepted accepted)
  | recordPlan order truncation assignments => exact accounts.recordPlan nameable
  | requiredInputs order truncation =>
    have searched := (Session.accounts_steady reports).requiredInputs order truncation
    exact (searched session accounts).untold
  | lookUp order truncation => exact (accounts.recordLookup _).untold
  | store | statistics => exact accounts.untold

theorem reports_cons (call : Call) (rest : List Call) (answer : Answer) (others : List Answer) :
    reports (call :: rest) (answer :: others) =
      (call.report answer).toList ++ reports rest others := by
  unfold reports
  rw [List.zip_cons_cons, List.filterMap_cons]
  cases call.report answer <;> rfl

theorem accounts_performAll {session : Session} {told : List Report}
    (accounts : session.statistics.Accounts told) {calls : List Call}
    (nameable : ∀ call ∈ calls, call.Nameable) :
    (performAll calls session).2.statistics.Accounts
      (told ++ reports calls (performAll calls session).1) := by
  induction calls generalizing session told with
  | nil =>
    have nothing : reports [] (performAll [] session).1 = [] := rfl
    rw [nothing, List.append_nil]
    exact accounts
  | cons call rest ih =>
    obtain ⟨first, others⟩ := List.forall_mem_cons.mp nameable
    have later := ih (accounts_perform accounts first) others
    rw [performAll_cons, performAll_cons_snd, reports_cons, ← List.append_assoc]
    exact later

theorem length_report (call : Call) (session : Session) :
    (call.report (call.perform session).1).toList.length =
      (if call.isRecordPlan then 1 else 0) +
        if (call.perform session).1.isPlan then 1 else 0 := by
  cases call with
  | plan order base given =>
    have answered : ((Call.plan order base given).perform session).1 =
        .plan ((PrunedCosine.plan order base given).run session).1 := rfl
    rw [answered]
    cases ((PrunedCosine.plan order base given).run session).1 <;> rfl
  | requiredInputs | lookUp | store | recordPlan | statistics => rfl

theorem length_reports (calls : List Call) (session : Session) :
    (reports calls (performAll calls session).1).length =
      calls.countP isRecordPlan + (performAll calls session).1.countP Answer.isPlan := by
  induction calls generalizing session with
  | nil => rfl
  | cons call rest ih =>
    rw [performAll_cons, reports_cons, List.length_append, length_report, ih, List.countP_cons,
      List.countP_cons]
    omega

end Call

open Call in
/-- Whatever calls a session has answered, right or wrong lists stored by hand among them, its
statistics account for the plans recorded and planned, and for nothing else. -/
theorem statistics_account_for_plans {calls : List Call}
    (nameable : ∀ call ∈ calls, call.Nameable) :
    let answers := (performAll calls .fresh).1
    let statistics := (performAll calls .fresh).2.statistics
    let told := reports calls answers
    statistics.plans = calls.countP isRecordPlan + answers.countP Answer.isPlan ∧
      statistics.assignments =
        statistics.plainCombines + statistics.scaledCombines + statistics.copies ∧
      statistics.largest = (told.map Report.size).max?.getD 0 ∧ statistics.Accounts told := by
  intro answers statistics told
  have start : Session.fresh.statistics.Accounts [] := Statistics.accounts_none
  have accounts := accounts_performAll start nameable
  rw [List.nil_append] at accounts
  refine ⟨?_, ?_, accounts.largest_eq, accounts⟩
  · rw [accounts.plans]
    exact length_reports calls .fresh
  · rw [accounts.assignments, sum_size_eq, accounts.plain, accounts.scaled, accounts.copied]

/-- A wrong list, a plan made with it, a refused plan, empty plans and a tie. -/
def accountedCalls : List Call :=
  [.store 2 1 [3, 0], .recordPlan 63 (some 6) [], .plan 3 4 2, .plan 3 4 8, .lookUp 2 1,
    .recordPlan 2 none (List.replicate 25 (Block.merge 2 0 .input 0)), .plan 1 0 (-1),
    .requiredInputs 5 (some 40), .statistics]

theorem statistics_account_for_plans_tie :
    (∀ call ∈ accountedCalls, call.Nameable) ∧
      (Call.performAll accountedCalls .fresh).2.statistics.plans = 4 ∧
      (Call.performAll accountedCalls .fresh).2.statistics.largest = 25 := by
  have nameable : ∀ call ∈ accountedCalls, call.Nameable := by
    simp [accountedCalls, Call.Nameable, Report.Nameable]
  obtain ⟨plans, _, largest, _⟩ := statistics_account_for_plans nameable
  exact ⟨nameable, plans.trans (by decide +kernel), largest.trans (by decide +kernel)⟩

/-- The first of the two largest plans is named. -/
example : (Call.performAll accountedCalls .fresh).2.statistics.largestName = "fdct8_3" := by
  decide +kernel

end PrunedCosine
