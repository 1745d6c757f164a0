import PrunedCosine.Proofs.Constants

/-! A routine declares the constants that it uses. Apart from the declarations and the statements no
line of its text names a constant. So what is declared are the scales of the routine, and what its
lines multiply by are the scales of its statements, which are the same for a plan that takes its
scales from the table. -/

namespace PrunedCosine

section OneLine

theorem oneLine_ofList {letters : List Char} :
    OneLine (String.ofList letters) ↔ '\n' ∉ letters := by
  rw [OneLine, String.toList_ofList]

theorem oneLine_positional (decimal : Decimal) : OneLine decimal.positional := by
  have digits : '\n' ∉ decimal.digitList := Reader.not_mem_toDigits rfl decimal.digits
  have taken (count : Nat) : '\n' ∉ decimal.digitList.take count :=
    fun member => digits (List.mem_of_mem_take member)
  have dropped (count : Nat) : '\n' ∉ decimal.digitList.drop count :=
    fun member => digits (List.mem_of_mem_drop member)
  rw [Decimal.positional, oneLine_ofList]
  split
  · simp [Decimal.zeros, digits]
  · split
    · simp [taken, dropped]
    · simp [Decimal.zeros, digits]

theorem oneLine_int (number : Int) : OneLine (toString number) := by
  cases number with
  | ofNat number => exact oneLine_repr number
  | negSucc number =>
    show OneLine ("-" ++ Nat.repr (number + 1))
    simp +decide

theorem oneLine_scientific (decimal : Decimal) : OneLine decimal.scientific := by
  have digits : '\n' ∉ decimal.digitList := Reader.not_mem_toDigits rfl decimal.digits
  have exponent := oneLine_int (decimal.point - 1)
  unfold Decimal.scientific
  generalize decimal.digitList = letters at digits ⊢
  rw [oneLine_append, oneLine_append]
  refine ⟨⟨?_, by decide⟩, exponent⟩
  rw [oneLine_toString, oneLine_ofList]
  rcases letters with _ | ⟨digit, _ | ⟨second, rest⟩⟩
  · exact digits
  · exact digits
  · rw [List.mem_cons, not_or] at digits
    simpa [digits.1] using digits.2

theorem oneLine_plainText (value : Float) : OneLine (Decimal.plainText value) := by
  unfold Decimal.plainText Decimal.floatText
  split
  · decide
  · rw [oneLine_append]
    refine ⟨by split <;> decide, ?_⟩
    split
    · decide
    · split
      · decide
      · dsimp only
        split
        · exact oneLine_positional _
        · exact oneLine_scientific _

theorem oneLine_halfText {whole : String} (ends : OneLine whole) (twice : Int) :
    OneLine (ScaleKind.halfText whole twice) := by
  rw [ScaleKind.halfText]
  split <;> split <;> simp +decide [ends]

theorem oneLine_formula (kind : ScaleKind) : OneLine kind.formula := by
  have half := fun twice => oneLine_halfText (show OneLine "" by decide) twice
  unfold ScaleKind.formula
  cases kind <;> simp +decide [half]

theorem oneLine_valueText (kind : ScaleKind) : OneLine (JavaScript.valueText kind) := by
  have half := fun twice => oneLine_halfText (show OneLine ".0" by decide) twice
  unfold JavaScript.valueText
  cases kind <;> simp +decide [half]

end OneLine

namespace Target

variable (target : Target)

/-- The work array is declared like a constant, but its name has no number. -/
theorem isSilent_workArray (length : Nat) :
    javaScript.IsSilent s!"    const Y = new Float64Array({length});" := by
  have begins : (s!"    const Y = new Float64Array({length});").toList =
      ("    const ".toList ++ "Y ".toList) ++
        ("= new Float64Array(".toList ++ ((Nat.repr length).toList ++ ");".toList)) := by
    simp only [toString, String.toList_append, List.append_assoc]
    rfl
  have noNumber : Reader.Fails (Reader.constantUpTo " = ") "Y ".toList := fun _ => rfl
  exact ⟨((Reader.reads_expect "    const ").fails noNumber).front begins,
    (javaScript.fails_multiplied (by decide)).front begins⟩

/-- The opening has these lines before and after the declarations. They are silent, and only the
name of the routine can break one. -/
structure Opens (routine : Routine Float) (before after : List String) : Prop where
  spelled : target.opening routine = before ++ (routine.scales.map target.declaration ++ after)
  silent : ∀ line ∈ before ++ after, target.IsSilent line
  oneLine : OneLine routine.name → ∀ line ∈ before ++ after, OneLine line

section Opening

theorem isSilent_blank : target.IsSilent "" := by
  cases target <;> exact ⟨rfl, rfl⟩

theorem oneLine_summary (routine : Routine Float) : OneLine routine.summary := by
  unfold Routine.summary
  simp +decide

variable (routine : Routine Float)

theorem opens_javaScript : ∃ before after, javaScript.Opens routine before after := by
  have blank := javaScript.isSilent_blank
  have silent {line : String} : javaScript.isForeign line → javaScript.IsSilent line :=
    javaScript.isSilent_of_foreign
  have more {start : String} : javaScript.isForeign start →
      ∀ rest, javaScript.isForeign (start ++ rest) := javaScript.isForeign_append
  have summary := oneLine_summary routine
  refine ⟨_, _, List.append_assoc _ _ _, ?_, fun name => ?_⟩
  · simp only [List.forall_mem_append, List.forall_mem_cons]
    exact ⟨⟨silent (by decide), blank, silent (more (more (by decide) _) _),
      silent (more (more (more (by decide) _) _) _), List.forall_mem_nil _⟩, blank,
      isSilent_workArray _, blank, silent (more (more (more (by decide) _) _) _),
      List.forall_mem_nil _⟩
  · simp +decide [summary, name]

theorem opens_rust : ∃ before after, rust.Opens routine before after := by
  have blank := rust.isSilent_blank
  have silent {line : String} : rust.isForeign line → rust.IsSilent line :=
    rust.isSilent_of_foreign
  have more {start : String} : rust.isForeign start →
      ∀ rest, rust.isForeign (start ++ rest) := rust.isForeign_append
  have summary := oneLine_summary routine
  have last : ∀ line ∈ if routine.isIdle then ["    let _ = (x, z);"]
      else [s!"    let mut y = [0.0f64; {routine.bufferLength}];"],
      rust.IsSilent line ∧ OneLine line := by
    split <;> rw [List.forall_mem_singleton]
    · exact ⟨silent (by decide), by decide⟩
    · exact ⟨silent (more (more (by decide) _) _), by simp +decide⟩
  refine ⟨_, _, List.append_assoc _ _ _, ?_, fun name => ?_⟩
  · simp only [List.forall_mem_append, List.forall_mem_cons]
    exact ⟨⟨silent (by decide), blank, silent (more (by decide) _), silent (by decide),
      silent (by decide), silent (by decide),
      silent (more (more (more (more (more (by decide) _) _) _) _) _), List.forall_mem_nil _⟩,
      fun line member => (last line member).1⟩
  · rw [List.forall_mem_append]
    exact ⟨by simp +decide [summary, name], fun line member => (last line member).2⟩

theorem opens_c : ∃ before after, c.Opens routine before after := by
  have blank := c.isSilent_blank
  have silent {line : String} : c.isForeign line → c.IsSilent line := c.isSilent_of_foreign
  have more {start : String} : c.isForeign start →
      ∀ rest, c.isForeign (start ++ rest) := c.isForeign_append
  have summary := oneLine_summary routine
  have last : ∀ line ∈ if routine.isIdle then ["    (void)X;", "    (void)Z;"]
      else [s!"    double Y[{routine.bufferLength}];"], c.IsSilent line ∧ OneLine line := by
    split
    · simp only [List.forall_mem_cons]
      exact ⟨⟨silent (by decide), by decide⟩, ⟨silent (by decide), by decide⟩,
        List.forall_mem_nil _⟩
    · rw [List.forall_mem_singleton]
      exact ⟨silent (more (more (by decide) _) _), by simp +decide⟩
  refine ⟨_, _, (List.append_assoc _ _ _).trans (List.append_assoc _ _ _), ?_, fun name => ?_⟩
  · simp only [List.forall_mem_append, List.forall_mem_cons]
    exact ⟨⟨silent (more (more (by decide) _) _), List.forall_mem_nil _⟩,
      ⟨blank, silent (more (more (by decide) _) _), silent (by decide), List.forall_mem_nil _⟩,
      fun line member => (last line member).1⟩
  · rw [List.forall_mem_append, List.forall_mem_append]
    exact ⟨by simp +decide [summary], by simp +decide [name],
      fun line member => (last line member).2⟩

theorem exists_opens : ∃ before after, target.Opens routine before after := by
  cases target with
  | javaScript => exact opens_javaScript routine
  | rust => exact opens_rust routine
  | c => exact opens_c routine

end Opening

theorem closing_silent : ∀ line ∈ target.closing, target.IsSilent line := by
  intro line member
  have foreign : ∀ line ∈ target.closing, target.isForeign line := by cases target <;> decide
  exact target.isSilent_of_foreign (foreign line member)

theorem oneLine_declaration (scale : Scale Float) : OneLine (target.declaration scale) := by
  have name : OneLine scale.name := by
    obtain ⟨letter, number, letters, alphabetic⟩ := scale.isConstantName
    rw [OneLine, letters, List.mem_cons, not_or]
    exact ⟨fun same => absurd (same ▸ alphabetic) (by decide), oneLine_repr number⟩
  have value := oneLine_plainText scale.value
  have formula := oneLine_formula scale.kind
  have valueText := oneLine_valueText scale.kind
  unfold declaration JavaScript.declaration Rust.declaration C.declaration
  cases target <;> simp +decide [name, value, formula, valueText]

def lines (routine : Routine Float) : List String :=
  target.opening routine ++
    (target.statements routine).map (routine.line target.indent target.arrayNames) ++
    target.closing

/-- What is read from silent lines alone is nothing; so it is enough to read the declarations and
the statements. -/
theorem filterMap_lines {read : String → Option String}
    (silent : ∀ line, target.IsSilent line → read line = none) (routine : Routine Float) :
    (target.lines routine).filterMap read =
      (routine.scales.filterMap fun scale => read (target.declaration scale)) ++
        (target.statements routine).filterMap fun statement =>
          read (routine.line target.indent target.arrayNames statement) := by
  obtain ⟨before, after, opens⟩ := target.exists_opens routine
  obtain ⟨first, last⟩ := List.forall_mem_append.mp opens.silent
  have none {lines : List String} (quiet : ∀ line ∈ lines, target.IsSilent line) :
      lines.filterMap read = [] :=
    List.filterMap_eq_nil_iff.mpr fun line member => silent line (quiet line member)
  simp only [lines, opens.spelled, List.filterMap_append, none first, none last,
    none target.closing_silent, List.filterMap_map, List.append_nil, List.nil_append]
  rfl

theorem declaredNames_lines (routine : Routine Float) :
    target.declaredNames (target.lines routine) = routine.scales.map Scale.name := by
  rw [declaredNames, target.filterMap_lines fun _ silent => silent.1]
  simp only [declared_declaration, declared_line, List.filterMap_none, List.append_nil]
  exact congrFun List.filterMap_eq_map' _

theorem factorNames_lines {routine : Routine Float}
    (constants : ∀ id, IsConstantName (routine.scaleText id)) :
    target.factorNames (target.lines routine) =
      (target.statements routine).filterMap fun statement =>
        statement.scale.map routine.scaleText := by
  rw [factorNames, target.filterMap_lines fun _ silent => silent.2]
  simp only [multiplied_declaration, target.multiplied_line constants, List.filterMap_none,
    List.nil_append]

theorem splitOn_lines (order : Nat) {routine : Routine Float}
    (named : routine.scaleText = (ScaleTable.ofOrder order : ScaleTable Float).nameOf)
    (name : OneLine routine.name) :
    (textOfLines (target.lines routine)).toList.splitOn '\n' =
      (target.lines routine).map String.toList ++ [[]] := by
  obtain ⟨before, after, opens⟩ := target.exists_opens routine
  obtain ⟨first, last⟩ := List.forall_mem_append.mp (opens.oneLine name)
  have closed : ∀ line ∈ target.closing, OneLine line := by cases target <;> decide
  have all : ∀ line ∈ target.lines routine, OneLine line := by
    simp only [lines, opens.spelled, List.forall_mem_append, List.forall_mem_map]
    exact ⟨⟨⟨first, fun scale _ => target.oneLine_declaration scale, last⟩,
      fun statement _ => target.oneLine_line order named statement⟩, closed⟩
  have cut := splitOn_textOfLines all []
  rwa [List.append_nil, List.splitOn_nil] at cut

end Target

theorem ScaleTable.nameOf_of_mem {order : Nat} {scale : Scale Float}
    (stored : scale ∈ (ofOrder order : ScaleTable Float).entries.toList) :
    (ofOrder order : ScaleTable Float).nameOf scale.id = scale.name := by
  obtain ⟨index, kind, found, rfl⟩ := mem_entries.mp stored
  rw [nameOf, get?_ofOrder, found]
  rfl

namespace Plan

theorem uses_iff (plan : Plan) (id : ScaleId) :
    plan.Uses (.ofOrder plan.order : ScaleTable Float) id ↔
      ∃ statement ∈ plan.program, statement.scale = some id := by
  constructor
  · intro used
    rcases used with made | ⟨rfl, wanted⟩ | ⟨rfl, wanted⟩
    · obtain ⟨assignment, member, scaled⟩ := plan.contains_usedScales.mp made
      exact ⟨_, List.mem_append_left _ (List.mem_map.mpr ⟨assignment, member, rfl⟩), scaled⟩
    · exact ⟨_, List.mem_append_right _ (List.mem_map.mpr ⟨0, List.mem_range.mpr wanted, rfl⟩),
        rfl⟩
    · exact ⟨_, List.mem_append_right _ (List.mem_map.mpr ⟨1, List.mem_range.mpr wanted, rfl⟩),
        rfl⟩
  · intro named
    obtain ⟨statement, member, scaled⟩ := named
    rcases List.mem_append.mp member with assigned | output
    · obtain ⟨assignment, made, rfl⟩ := List.mem_map.mp assigned
      exact plan.uses_of_assignment _ made scaled
    · obtain ⟨k, inside, rfl⟩ := List.mem_map.mp output
      cases scaled
      exact plan.uses_of_output _ (List.mem_range.mp inside)

def lines (plan : Plan) (target : Target) (name : Option String) : List String :=
  target.lines (plan.routine (.ofOrder plan.order : ScaleTable Float) { name })

/-- In the routine of a plan, in any language and under any name, the constants are declared in
table order, each once, and are those by which some line multiplies. -/
def DeclaresUsed (plan : Plan) : Prop :=
  ∀ (target : Target) (name : Option String) (session : Session),
    ((writeRoutine plan (.ofOrder plan.order) target { name }).run session).1 =
      .ok (textOfLines (plan.lines target name)) ∧
    ((∀ given ∈ name, OneLine given) →
      (textOfLines (plan.lines target name)).toList.splitOn '\n' =
        (plan.lines target name).map String.toList ++ [[]]) ∧
    (target.declaredNames (plan.lines target name)).Sublist
      ((ScaleTable.ofOrder plan.order : ScaleTable Float).entries.toList.map Scale.name) ∧
    (target.declaredNames (plan.lines target name)).Nodup ∧
    ∀ constant, constant ∈ target.declaredNames (plan.lines target name) ↔
      constant ∈ target.factorNames (plan.lines target name)

theorem inside_of_uses {plan : Plan}
    (inside : ∀ assignment ∈ plan.assignments, ∀ id ∈ assignment.scale,
      id.index < (ScaleTable.ofOrder plan.order : ScaleTable Float).size)
    {id : ScaleId} (used : plan.Uses (.ofOrder plan.order : ScaleTable Float) id) :
    id.index < (ScaleTable.ofOrder plan.order : ScaleTable Float).size := by
  have large := ScaleTable.two_le_size (α := Float) plan.order
  rcases used with made | ⟨rfl, _⟩ | ⟨rfl, _⟩
  · obtain ⟨assignment, member, scaled⟩ := plan.contains_usedScales.mp made
    exact inside assignment member id scaled
  · exact Nat.sub_lt (by omega) (by decide)
  · exact Nat.sub_lt (by omega) (by decide)

theorem nodup_names (order : Nat) :
    ((ScaleTable.ofOrder order : ScaleTable Float).entries.toList.map Scale.name).Nodup := by
  have ids : ((ScaleTable.ofOrder order : ScaleTable Float).entries.toList.map
      fun scale => scale.id.index).Nodup := by
    simp only [ScaleTable.ofOrder, List.mapIdx_toArray, List.mapIdx_eq_zipIdx_map, List.map_map]
    exact (List.zipIdx_map_snd 0 _).symm ▸ List.nodup_range'
  refine (List.Nodup.of_map _ ids).map_on fun first stored second otherStored same => ?_
  exact ScaleTable.name_injective stored otherStored same

theorem declaresUsed {plan : Plan}
    (spelled : ∀ (target : Target) (options : RoutineOptions),
      target.statements (plan.routine (.ofOrder plan.order : ScaleTable Float) options) =
        plan.program)
    (inside : ∀ assignment ∈ plan.assignments, ∀ id ∈ assignment.scale,
      id.index < (ScaleTable.ofOrder plan.order : ScaleTable Float).size) :
    plan.DeclaresUsed := by
  intro target name session
  let table : ScaleTable Float := .ofOrder plan.order
  obtain ⟨_, written⟩ := plan.writeRoutine_eq target { name } session
  have sublist := (plan.declared_sublist table { name }).map Scale.name
  have declared : target.declaredNames (plan.lines target name) =
      (plan.declaredScales table { name }).map Scale.name := target.declaredNames_lines _
  have factors : target.factorNames (plan.lines target name) = _ :=
    target.factorNames_lines table.isConstantName
  rw [← declared] at sublist
  refine ⟨congrArg Prod.fst written, fun oneLine => ?_, sublist,
    (nodup_names plan.order).sublist sublist, fun constant => ?_⟩
  · apply target.splitOn_lines plan.order rfl
    show OneLine (plan.routineName { name })
    cases name with
    | none => simp +decide [routineName]
    | some given => exact oneLine given rfl
  · rw [declared, factors, spelled, List.mem_map, List.mem_filterMap]
    simp only [mem_declaredScales, Option.map_eq_some_iff]
    constructor
    · intro listed
      obtain ⟨scale, ⟨stored, used⟩, rfl⟩ := listed
      obtain ⟨statement, member, scaled⟩ :=
        (plan.uses_iff scale.id).mp (used.resolve_left Bool.false_ne_true)
      exact ⟨statement, member, scale.id, scaled, ScaleTable.nameOf_of_mem stored⟩
    · intro multiplied
      obtain ⟨statement, member, id, scaled, rfl⟩ := multiplied
      have used := (plan.uses_iff id).mpr ⟨statement, member, scaled⟩
      obtain ⟨scale, found, rfl⟩ := ScaleTable.exists_stored (inside_of_uses inside used)
      have stored := ScaleTable.mem_of_get? found
      exact ⟨scale, ⟨stored, Or.inr used⟩, (ScaleTable.nameOf_of_mem stored).symm⟩

theorem declaredNames_of_idle {plan : Plan} (idle : plan.program = []) (target : Target)
    (name : Option String) : target.declaredNames (plan.lines target name) = [] := by
  rw [lines, target.declaredNames_lines, List.map_eq_nil_iff, List.eq_nil_iff_forall_not_mem]
  intro scale declared
  obtain ⟨_, used⟩ := (plan.mem_declaredScales (.ofOrder plan.order) { name }).mp declared
  obtain ⟨statement, member, _⟩ := (plan.uses_iff _).mp (used.resolve_left Bool.false_ne_true)
  rw [idle] at member
  cases member

end Plan

/-- Routines declare the constants that they use and no others. This holds of the plans that
planning gives, which declare none where they assign nothing, and of every plan that assigns
something and takes its scales from the table of its order. -/
theorem declares_what_it_uses :
    (∀ (session : Session) (order base : Nat) (truncation : Int) (wanted : Option Nat),
      session.Planned → Plan.validate order base truncation = .ok wanted →
        ∃ result after, (plan order base truncation).run session = (.ok result, after) ∧
          (∀ assignment ∈ result.assignments, ∀ id ∈ assignment.scale,
            id.index < (ScaleTable.ofOrder order : ScaleTable Float).size) ∧
          result.DeclaresUsed ∧
          (result.assignments = [] → ∀ (target : Target) (name : Option String),
            target.declaredNames (result.lines target name) = [])) ∧
    ∀ plan : Plan, plan.assignments ≠ [] →
      (∀ assignment ∈ plan.assignments, ∀ id ∈ assignment.scale,
        id.index < (ScaleTable.ofOrder plan.order : ScaleTable Float).size) →
      plan.DeclaresUsed := by
  refine ⟨?_, fun plan busy inside => Plan.declaresUsed (Plan.statements_eq_program busy) inside⟩
  intro session order base truncation wanted planned accepted
  have positive := (Plan.validate_order accepted).1
  have scales := Plan.canonical_scales (α := Float) base wanted positive
  let result := Plan.canonical order base wanted
  obtain ⟨values, ran, _⟩ := ((Plan.canonical_sound positive (Plan.validate_bounds accepted)).runs
    (.ofOrder order : ScaleTable Float) rfl).2 (List.replicate (base + blockSize order) 0)
      List.length_replicate
  refine ⟨result, (Plan.build order base wanted session).2, ?_, scales,
    Plan.declaresUsed (Plan.statements_of_run ran) scales, fun idle => ?_⟩
  · rw [Session.plan_of_accepted accepted, planned.build_eq positive]
  · apply Plan.declaredNames_of_idle
    rw [Plan.program, idle, Plan.outputCount_of_idle ran idle]
    rfl

theorem declares_what_it_uses_pair :
    Session.Planned ((plan 4 0 9).run .fresh).2 ∧ Plan.validate 3 4 5 = .ok (some 5) ∧
      Plan.validate 1 0 (-1) = .ok none ∧ editedPlan.assignments ≠ [] ∧
      (∀ assignment ∈ editedPlan.assignments, ∀ id ∈ assignment.scale,
        id.index < (ScaleTable.ofOrder 1 : ScaleTable Float).size) ∧
      (∃ result after, (plan 3 4 5).run ((plan 4 0 9).run .fresh).2 = (.ok result, after) ∧
        result.DeclaresUsed) ∧
      (∃ idle after, (plan 1 0 (-1)).run ((plan 4 0 9).run .fresh).2 = (.ok idle, after) ∧
        idle.assignments = [] ∧ Target.c.declaredNames (idle.lines .c "dct") = []) ∧
      editedPlan.DeclaresUsed := by
  have session : Session.Planned ((plan 4 0 9).run .fresh).2 := .plan 4 0 9 .fresh
  have inside : ∀ assignment ∈ editedPlan.assignments, ∀ id ∈ assignment.scale,
      id.index < (ScaleTable.ofOrder 1 : ScaleTable Float).size := by
    intro assignment member id scaled
    cases List.mem_singleton.mp member
    cases scaled
    decide
  obtain ⟨given, edited⟩ := declares_what_it_uses
  obtain ⟨result, after, planned, _, declares, _⟩ := given _ 3 4 5 (some 5) session rfl
  obtain ⟨idle, later, rested, _, _, none⟩ := given _ 1 0 (-1) none session rfl
  have empty : idle.assignments = [] := by
    rw [Session.plan_of_accepted rfl, session.build_eq (by decide)] at rested
    cases rested
    rfl
  exact ⟨session, rfl, rfl, List.cons_ne_nil _ _, inside, ⟨result, after, planned, declares⟩,
    ⟨idle, later, rested, empty, none empty .c "dct"⟩,
    edited editedPlan (List.cons_ne_nil _ _) inside⟩

end PrunedCosine
