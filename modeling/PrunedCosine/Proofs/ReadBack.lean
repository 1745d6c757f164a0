import Mathlib.Data.List.Induction
import PrunedCosine.Generate
import PrunedCosine.Proofs.Reader

/-! The text of a routine determines what the routine does. Its statements stand in its last lines,
right before those that close it, and the line before them is no statement; so they are found and
read without a look at what comes earlier. -/

namespace PrunedCosine

namespace Target

variable {α : Type} (target : Target) (table : ScaleTable α)

def readLine (line : List Char) : Option Statement :=
  match (do
    Reader.expect target.indent
    Reader.statement target.arrayNames table) line with
  | some (statement, []) => some statement
  | _ => none

/-- The statements at the end of some lines, which are given last first. -/
def readLines : List (List Char) → List Statement
  | [] => []
  | line :: earlier =>
      match target.readLine table line with
      | some statement => readLines earlier ++ [statement]
      | none => []

/-- The statements of a routine, from its text. Nothing comes after the newline that ends the last
of the closing lines. -/
def read (text : String) : List Statement :=
  target.readLines table
    ((text.toList.splitOn '\n').reverse.drop (target.closing.length + 1))

end Target

section OneLine

def OneLine (text : String) : Prop := '\n' ∉ text.toList

instance (text : String) : Decidable (OneLine text) := inferInstanceAs (Decidable (¬_))

@[simp] theorem oneLine_append {first second : String} :
    OneLine (first ++ second) ↔ OneLine first ∧ OneLine second := by
  rw [OneLine, String.toList_append, List.mem_append, not_or]
  rfl

@[simp] theorem oneLine_toString (text : String) : OneLine (toString text) ↔ OneLine text := Iff.rfl

@[simp] theorem oneLine_repr (number : Nat) : OneLine (Nat.repr number) := by
  rw [OneLine, Nat.toList_repr]
  exact Reader.not_mem_toDigits rfl number

@[simp] theorem oneLine_slot (target : Target) (slot : Slot) :
    OneLine (target.arrayNames.slot slot) := by
  obtain ⟨buffer, place⟩ := slot
  cases buffer <;> cases target <;> simp +decide [ArrayNames.slot]

@[simp] theorem oneLine_scale (order : Nat) (id : ScaleId) :
    OneLine ((ScaleTable.ofOrder order : ScaleTable Float).nameOf id) := by
  rcases @ScaleTable.nameOf_cases Float _ order id with text | ⟨_, text⟩ | ⟨_, text⟩ <;>
    rw [text] <;> simp +decide [ScaleId.text]

theorem oneLine_expression (target : Target) (order : Nat) (expression : Expression) :
    OneLine (expression.render target.arrayNames.slot (Reader.table order).nameOf) := by
  cases expression with
  | copy source => exact oneLine_slot target source
  | combine sign left right scale =>
    have symbol : OneLine sign.symbol := by cases sign <;> decide
    cases scale <;> simp +decide [Expression.render, symbol]

theorem oneLine_statement (target : Target) (order : Nat) (statement : Statement) :
    OneLine (statement.render target.arrayNames (Reader.table order).nameOf) := by
  cases statement with
  | assign destination expression =>
    have value := oneLine_expression target order expression
    simp +decide [Statement.render, value]
  | output coefficient index id => cases target <;> simp +decide [Statement.render]

end OneLine

section Lines

theorem toList_textOfLines (lines : List String) :
    (textOfLines lines).toList = lines.flatMap fun line => line.toList ++ ['\n'] := by
  rw [textOfLines, String.toList_join, List.flatMap_map]
  simp only [String.toList_append]
  rfl

theorem splitOn_textOfLines {lines : List String} (whole : ∀ line ∈ lines, OneLine line)
    (rest : List Char) :
    ((textOfLines lines).toList ++ rest).splitOn '\n' =
      lines.map String.toList ++ rest.splitOn '\n' := by
  rw [toList_textOfLines]
  induction lines with
  | nil => rfl
  | cons line lines ih =>
    obtain ⟨here, later⟩ := List.forall_mem_cons.mp whole
    rw [List.flatMap_cons, List.append_assoc, List.append_assoc, List.singleton_append,
      List.splitOn_append_cons_self, List.splitOn_eq_singleton here, ih later]
    rfl

theorem exists_splitOn_textOfLines (lines : List String) (rest : List Char) :
    ∃ before, ((textOfLines lines).toList ++ rest).splitOn '\n' =
      before ++ rest.splitOn '\n' := by
  rw [toList_textOfLines]
  induction lines with
  | nil => exact ⟨[], rfl⟩
  | cons line lines ih =>
    obtain ⟨before, same⟩ := ih
    refine ⟨line.toList.splitOn '\n' ++ before, ?_⟩
    rw [List.flatMap_cons, List.append_assoc, List.append_assoc, List.singleton_append,
      List.splitOn_append_cons_self, same, List.append_assoc]

theorem textOfLines_append (first second : List String) :
    (textOfLines (first ++ second)).toList =
      (textOfLines first).toList ++ (textOfLines second).toList := by
  rw [toList_textOfLines, toList_textOfLines, toList_textOfLines, List.flatMap_append]

end Lines

namespace Target

variable (target : Target)

theorem readLine_line (order : Nat) {routine : Routine Float}
    (named : routine.scaleText = (ScaleTable.ofOrder order : ScaleTable Float).nameOf)
    (statement : Statement) :
    target.readLine (Reader.table order)
      (routine.line target.indent target.arrayNames statement).toList = some statement := by
  have read : Reader.Reads (do
      Reader.expect target.indent
      Reader.statement target.arrayNames (Reader.table order))
      (routine.line target.indent target.arrayNames statement).toList statement := by
    simp only [Routine.line, named, String.toList_append, List.append_assoc]
    exact (Reader.reads_expect target.indent).bind (Reader.reads_statement target order statement)
  have whole := read []
  rw [List.append_nil] at whole
  rw [readLine, whole]

theorem readLine_of_fails {α : Type} {table : ScaleTable α} {start rest : List Char}
    (fails : Reader.Fails (do
      Reader.expect target.indent
      Reader.statement target.arrayNames table) start) :
    target.readLine table (start ++ rest) = none := by
  rw [readLine, fails]

theorem readLine_of_apart {α : Type} {table : ScaleTable α} {start : List Char}
    (input : Reader.apart target.arrayNames.input.toList start)
    (work : Reader.apart target.arrayNames.work.toList start)
    (output : Reader.apart target.arrayNames.output.toList start) (rest : List Char) :
    target.readLine table (target.indent.toList ++ start ++ rest) = none :=
  target.readLine_of_fails ((Reader.reads_expect target.indent).fails
    (Reader.fails_statement input work output))

theorem opening_ends (plan : Plan) (allScales : Bool) :
    ∃ first last, target.opening (plan.routine (.ofOrder plan.order) { allScales }) =
        first ++ [last] ∧ OneLine last ∧
      target.readLine (Reader.table plan.order) last.toList = none := by
  cases target with
  | javaScript =>
    refine ⟨_, _, (List.append_assoc _ ["", _, ""] [_]).symm, ?_, ?_⟩
    · simp +decide [Plan.routine, Plan.routineName]
    · simp only [String.toList_append, List.append_assoc]
      exact readLine_of_fails .javaScript (Reader.fails_expect rfl).bind
  | rust =>
    have ends (rest : List Char) : rust.readLine (Reader.table plan.order)
        ("    ".toList ++ "let ".toList ++ rest) = none := rust.readLine_of_apart rfl rfl rfl rest
    simp only [opening, Rust.opening]
    cases (plan.routine (.ofOrder plan.order : ScaleTable Float) { allScales }).isIdle with
    | true => exact ⟨_, _, rfl, by decide, ends _⟩
    | false =>
      refine ⟨_, _, rfl, by simp +decide, ?_⟩
      simp only [String.toList_append, List.append_assoc]
      exact ends _
  | c =>
    have idle : c.readLine (Reader.table plan.order)
        ("    ".toList ++ "(void)Z;".toList ++ []) = none := c.readLine_of_apart rfl rfl rfl []
    have ends (rest : List Char) : c.readLine (Reader.table plan.order)
        ("    ".toList ++ "double ".toList ++ rest) = none := c.readLine_of_apart rfl rfl rfl rest
    simp only [opening, C.opening]
    cases (plan.routine (.ofOrder plan.order : ScaleTable Float) { allScales }).isIdle with
    | true => exact ⟨_, _, (List.append_assoc _ [_] [_]).symm, by decide, idle⟩
    | false =>
      refine ⟨_, _, rfl, by simp +decide, ?_⟩
      simp only [String.toList_append, List.append_assoc]
      exact ends _

theorem readLines_statements {α : Type} {table : ScaleTable α} {spell : Statement → List Char}
    (reads : ∀ statement, target.readLine table (spell statement) = some statement)
    {other : List Char} (stops : target.readLine table other = none) (before : List (List Char))
    (statements : List Statement) :
    target.readLines table ((statements.map spell).reverse ++ other :: before) = statements := by
  induction statements using List.reverseRecOn with
  | nil =>
    simp only [List.map_nil, List.reverse_nil, List.nil_append, readLines, stops]
  | append_singleton statements last ih =>
    rw [List.map_append, List.reverse_append, List.map_singleton, List.reverse_singleton,
      List.append_assoc, List.singleton_append, readLines, reads, ih]

theorem oneLine_line (order : Nat) {routine : Routine Float}
    (named : routine.scaleText = (ScaleTable.ofOrder order : ScaleTable Float).nameOf)
    (statement : Statement) :
    OneLine (routine.line target.indent target.arrayNames statement) := by
  have indent : OneLine target.indent := by cases target <;> decide
  have value := oneLine_statement target order statement
  simp +decide [Routine.line, named, indent, value]

theorem read_text (plan : Plan) (allScales : Bool) :
    target.read (.ofOrder plan.order : ScaleTable Float)
        (target.text (plan.routine (.ofOrder plan.order) { allScales })) =
      target.statements (plan.routine (.ofOrder plan.order : ScaleTable Float) { allScales }) := by
  obtain ⟨first, last, opened, whole, stops⟩ := target.opening_ends plan allScales
  have closed : ∀ line ∈ target.closing, OneLine line := by cases target <;> decide
  have named : (plan.routine (.ofOrder plan.order) { allScales }).scaleText =
      (ScaleTable.ofOrder plan.order : ScaleTable Float).nameOf := rfl
  have spelled := target.readLine_line plan.order named
  have oneLine := target.oneLine_line plan.order named
  rw [text, opened]
  generalize plan.routine (.ofOrder plan.order : ScaleTable Float) { allScales } = routine at *
  -- all but the first lines are cut as they were put together
  have tail : ∀ line ∈ last :: ((target.statements routine).map
      (routine.line target.indent target.arrayNames) ++ target.closing), OneLine line := by
    simp only [List.forall_mem_cons, List.forall_mem_append, List.forall_mem_map]
    exact ⟨whole, fun statement _ => oneLine statement, closed⟩
  have parts := splitOn_textOfLines tail []
  obtain ⟨before, cut⟩ := exists_splitOn_textOfLines first (textOfLines
    (last :: ((target.statements routine).map
      (routine.line target.indent target.arrayNames) ++ target.closing))).toList
  rw [List.append_nil, List.map_cons, List.map_append, List.map_map] at parts
  rw [read, List.append_assoc, List.append_assoc, textOfLines_append, List.singleton_append, cut,
    parts]
  have reversed (statements closing : List (List Char)) :
      (before ++ (last.toList :: (statements ++ closing) ++ [[]])).reverse =
        ([] :: closing.reverse) ++ (statements.reverse ++ last.toList :: before.reverse) := by
    simp
  have length : ([] :: (target.closing.map String.toList).reverse).length =
      target.closing.length + 1 := by
    simp
  rw [List.splitOn_nil, reversed, List.drop_left' length]
  exact target.readLines_statements spelled stops before.reverse _

end Target

namespace Plan

/-- What a plan has a routine do: its assignments, one after the other, and then one scaled output
for each coefficient. -/
def program (plan : Plan) : List Statement :=
  (plan.assignments.map fun assignment =>
    .assign assignment.destination assignment.expression) ++
  (List.range plan.outputCount).map fun k =>
    .output k (plan.base + k)
      (if k = 0 then (ScaleTable.ofOrder plan.order : ScaleTable Float).dc
        else (ScaleTable.ofOrder plan.order : ScaleTable Float).ac)

theorem statements_eq_program {plan : Plan} (busy : plan.assignments ≠ []) (target : Target)
    (options : RoutineOptions) :
    target.statements (plan.routine (.ofOrder plan.order : ScaleTable Float) options) =
      plan.program := by
  have active : (plan.routine (.ofOrder plan.order : ScaleTable Float) options).isIdle = false := by
    simpa [Routine.isIdle, routine, assignStatements] using busy
  cases target with
  | javaScript => rfl
  | rust | c => exact if_neg (by simp [active])

/-- Where a target spells what a plan with assignments does, it spells all that the other plan
does: of a plan without assignments some targets spell nothing. -/
theorem program_of_statements {plan other : Plan} (busy : plan.assignments ≠ []) (target : Target)
    {options : RoutineOptions}
    (same : target.statements (other.routine (.ofOrder other.order : ScaleTable Float) options) =
      plan.program) : other.program = plan.program := by
  by_cases idle : other.assignments = []
  · have resting : (other.routine (.ofOrder other.order : ScaleTable Float) options).isIdle =
        true := by
      simp [Routine.isIdle, routine, assignStatements, idle]
    have spelled : plan.program ≠ [] := by
      simp [program, busy]
    cases target with
    | javaScript => exact same
    | rust | c => exact absurd (same.symm.trans (if_pos resting)) spelled
  · rw [← same, statements_eq_program idle]

theorem writeRoutine_eq (plan : Plan) (target : Target) (options : RoutineOptions)
    (session : Session) :
    ∃ after, (writeRoutine plan (.ofOrder plan.order) target options).run session =
      (.ok (target.text (plan.routine (.ofOrder plan.order) options)), after) := by
  have matched : plan.matchTable (ScaleTable.ofOrder plan.order : ScaleTable Float) = .ok () :=
    if_pos rfl
  rw [writeRoutine, matched]
  exact ⟨_, rfl⟩

theorem writeRoutine_run (plan : Plan) (target : Target) (allScales : Bool) (session : Session) :
    ∃ after, (writeRoutine plan (.ofOrder plan.order) target { allScales }).run session =
      (.ok (target.text (plan.routine (.ofOrder plan.order) { allScales })), after) :=
  plan.writeRoutine_eq target { allScales } session

end Plan

/-- The text of a routine, in any language, determines what it does: the assignments of its plan
in their order and then the scaled outputs can be read from it. So no other plan of the same
order has the same text unless it has the same assignments and outputs. -/
theorem writeRoutine_reads_back {plan : Plan} (busy : plan.assignments ≠ []) (target : Target)
    (allScales : Bool) (session : Session) :
    (∃ text after,
      (writeRoutine plan (.ofOrder plan.order) target { allScales }).run session =
        (.ok text, after) ∧
      target.read (.ofOrder plan.order : ScaleTable Float) text = plan.program) ∧
    ∀ (other : Plan) (otherScales : Bool) (otherSession : Session) (text : String),
      other.order = plan.order →
      ((writeRoutine plan (.ofOrder plan.order) target { allScales }).run session).1 = .ok text →
      ((writeRoutine other (.ofOrder other.order) target { allScales := otherScales }).run
        otherSession).1 = .ok text →
      other.program = plan.program := by
  have reads : target.read (.ofOrder plan.order : ScaleTable Float)
      (target.text (plan.routine (.ofOrder plan.order) { allScales })) = plan.program := by
    rw [target.read_text, Plan.statements_eq_program busy]
  obtain ⟨after, written⟩ := plan.writeRoutine_run target allScales session
  refine ⟨⟨_, after, written, reads⟩, ?_⟩
  intro other otherScales otherSession text sameOrder given otherGiven
  obtain ⟨otherAfter, otherWritten⟩ := other.writeRoutine_run target otherScales otherSession
  rw [written] at given
  rw [otherWritten] at otherGiven
  cases given
  have own := target.read_text other otherScales
  rw [Except.ok.inj otherGiven, sameOrder, reads, ← sameOrder] at own
  exact Plan.program_of_statements busy target own.symm

/-- A plan that was edited by hand. It copies far slots, and its scales are the two that are meant
for the outputs and one that no table has. -/
def wildPlan : Plan where
  order := 1
  base := 12
  truncation := some 1
  live := .ofList [12, 13]
  assignments :=
    [{ destination := ⟨.work, 12⟩,
       expression := .combine .minus ⟨.input, 100⟩ ⟨.work, 7⟩ (some ⟨1⟩),
       order := 1,
       stage := .butterfly },
     { destination := ⟨.input, 0⟩,
       expression := .combine .plus ⟨.input, 9⟩ ⟨.input, 9⟩ (some ⟨2⟩),
       order := 3,
       stage := .interleave },
     { destination := ⟨.work, 1000⟩,
       expression := .combine .plus ⟨.work, 10⟩ ⟨.input, 1⟩ (some ⟨345⟩),
       order := 0,
       stage := .butterfly },
     { destination := ⟨.work, 13⟩,
       expression := .copy ⟨.input, 4711⟩,
       order := 1,
       stage := .interleave }]

theorem writeRoutine_reads_back_wild :
    wildPlan.assignments ≠ [] ∧
      (∃ text after, (writeRoutine wildPlan (.ofOrder 1) .rust {}).run .fresh = (.ok text, after) ∧
        Target.rust.read (.ofOrder 1 : ScaleTable Float) text = wildPlan.program) ∧
      { wildPlan with live := .empty }.program = wildPlan.program := by
  have busy : wildPlan.assignments ≠ [] := List.cons_ne_nil _ _
  obtain ⟨read, unique⟩ := writeRoutine_reads_back busy .rust false .fresh
  exact ⟨busy, read, unique { wildPlan with live := .empty } false .fresh _ rfl rfl rfl⟩

end PrunedCosine
