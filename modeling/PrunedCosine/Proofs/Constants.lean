import Mathlib.Data.List.TakeWhile
import PrunedCosine.Proofs.UsedScales

/-! The constants in the lines of a routine. A line that declares a constant and one that assigns a
value are told by how they begin. The name is read from the one, and from the other the name of the
constant by which the value is multiplied, if it is by any. -/

namespace PrunedCosine

def ArrayNames.all (names : ArrayNames) : List String := [names.input, names.work, names.output]

namespace Reader

/-- The name of a constant, which is a letter and a number, up to the text that must follow it. -/
def constantUpTo (stop : String) : Reader String := fun input =>
  match input with
  | [] => none
  | letter :: rest =>
      let digits := rest.takeWhile Char.isDigit
      if letter.isAlpha && !digits.isEmpty then (do
        expect stop
        pure (String.ofList (letter :: digits))) (rest.dropWhile Char.isDigit)
      else none

def upTo (mark : Char) : Reader Unit := fun input =>
  match input.dropWhile (· != mark) with
  | [] => none
  | _ :: rest => some ((), rest)

def factor : Reader String := do
  upTo '*'
  expect " "
  constantUpTo ";"

def front? {α : Type} (reader : Reader α) (line : String) : Option α :=
  (reader line.toList).map Prod.fst

end Reader

namespace Target

variable (target : Target)

def constantStart : Target → String
  | javaScript | rust => "    const "
  | c => "static const double "

def constantEquals : Target → String
  | javaScript | c => " = "
  | rust => ": f64 = "

def declared : Reader String := do
  Reader.expect target.constantStart
  Reader.constantUpTo target.constantEquals

def assigned : Reader Unit := do
  let _ ← Reader.element (target.indent ++ target.arrayNames.input) <|>
    Reader.element (target.indent ++ target.arrayNames.work) <|>
    Reader.element (target.indent ++ target.arrayNames.output)
  Reader.expect " = "

def multiplied : Reader String := do
  target.assigned
  Reader.factor

def declaredNames (lines : List String) : List String := lines.filterMap (Reader.front? target.declared)

def factorNames (lines : List String) : List String := lines.filterMap (Reader.front? target.multiplied)

/-- A line that starts like this declares no constant and is no statement. -/
def isForeign (start : String) : Bool :=
  (target.constantStart :: target.arrayNames.all.map (target.indent ++ ·)).all fun other =>
    Reader.apart other.toList start.toList

end Target

section Names

def IsConstantName (name : String) : Prop :=
  ∃ letter number, name.toList = letter :: (Nat.repr number).toList ∧ letter.isAlpha

theorem Scale.isConstantName {α : Type} (scale : Scale α) : IsConstantName scale.name := by
  obtain ⟨id, kind, value⟩ := scale
  cases kind with
  | dc order => exact ⟨'D', 0, show "D0".toList = _ by decide, rfl⟩
  | ac order => exact ⟨'D', 1, show "D1".toList = _ by decide, rfl⟩
  | quarterCosine => exact ⟨'C', id.index, id.text_toList, rfl⟩
  | inverseCosine k period => exact ⟨'C', id.index, id.text_toList, rfl⟩

theorem ScaleTable.isConstantName {α : Type} (table : ScaleTable α) (id : ScaleId) :
    IsConstantName (table.nameOf id) := by
  rw [nameOf]
  cases table.get? id with
  | none => exact ⟨'C', id.index, id.text_toList, rfl⟩
  | some scale => exact scale.isConstantName

namespace Reader

theorem reads_constantUpTo {name stop : String} (constant : IsConstantName name) {first : Char}
    {rest : List Char} (spelled : stop.toList = first :: rest) (ends : first.isDigit = false) :
    Reads (constantUpTo stop) (name.toList ++ stop.toList) name := by
  intro input
  obtain ⟨letter, number, letters, alphabetic⟩ := constant
  obtain ⟨digits, after⟩ := digits_end spelled ends number input
  have whole : String.ofList (letter :: Nat.toDigits 10 number) = name := by
    rw [← Nat.toList_repr, ← letters, String.ofList_toList]
  rw [letters, Nat.toList_repr, List.append_assoc, List.cons_append, constantUpTo, digits, after]
  rw [if_pos (by simp [alphabetic, Nat.toDigits_ne_nil]), whole]
  exact (reads_expect stop).map input

section Front

variable {α : Type} {reader : Reader α} {line : String} {start rest : List Char}

theorem Reads.front {value : α} (reads : Reads reader start value)
    (begins : line.toList = start ++ rest) : front? reader line = some value := by
  rw [front?, begins, reads]
  rfl

theorem Fails.front (fails : Fails reader start) (begins : line.toList = start ++ rest) :
    front? reader line = none := by
  rw [front?, begins, fails]
  rfl

end Front

theorem apart_append {text start : List Char} (differ : apart text start) (rest : List Char) :
    apart text (start ++ rest) := by
  induction text generalizing start with
  | nil => cases differ
  | cons first text ih =>
    cases start with
    | nil => cases differ
    | cons other start =>
      rw [apart, Bool.or_eq_true] at differ
      rw [List.cons_append, apart, Bool.or_eq_true]
      exact differ.imp_right ih

theorem fails_element {array : String} {start : List Char} (differ : apart array.toList start) :
    Fails (element array) start :=
  (fails_expect differ).bind

theorem reads_upTo {mark : Char} {text : List Char} (absent : mark ∉ text) :
    Reads (upTo mark) (text ++ [mark]) () := by
  intro input
  have other : ∀ letter ∈ text, (letter != mark) = true :=
    fun letter member => bne_iff_ne.mpr fun same => absent (same ▸ member)
  rw [upTo, List.append_assoc, List.dropWhile_append_of_pos other]
  simp

theorem reads_factor {value : List Char} (plain : '*' ∉ value) {name : String}
    (constant : IsConstantName name) :
    Reads factor (value ++ ['*'] ++ (" ".toList ++ (name.toList ++ ";".toList))) name :=
  (reads_upTo plain).bind ((reads_expect " ").bind (reads_constantUpTo constant rfl rfl))

theorem factor_of_plain {value : List Char} (plain : '*' ∉ value) : factor value = none := by
  have all : value.dropWhile (· != '*') = [] := by
    rw [List.dropWhile_eq_nil_iff]
    exact fun letter member => bne_iff_ne.mpr fun same => plain (same ▸ member)
  show (upTo '*' value).bind _ = none
  rw [upTo, all]
  rfl

end Reader

end Names

namespace Statement

def scale : Statement → Option ScaleId
  | assign _ expression => expression.scale
  | output _ _ id => some id

def array (names : ArrayNames) : Statement → String
  | assign ⟨.input, _⟩ _ => names.input
  | assign ⟨.work, _⟩ _ => names.work
  | output _ _ _ => names.output

theorem array_mem (names : ArrayNames) (statement : Statement) :
    statement.array names ∈ names.all := by
  rcases statement with ⟨⟨_ | _, index⟩, expression⟩ | ⟨coefficient, index, id⟩ <;>
    simp [array, ArrayNames.all]

def place : Statement → Nat
  | assign destination _ => destination.index
  | output coefficient _ _ => coefficient

def valueText (names : ArrayNames) (scaleText : ScaleId → String) : Statement → String
  | assign _ expression => expression.render names.slot scaleText
  | output _ index id => s!"{names.work}[{index}] * {scaleText id}"

theorem toList_render (names : ArrayNames) (scaleText : ScaleId → String) (statement : Statement) :
    (statement.render names scaleText).toList =
      (statement.array names).toList ++
        ("[".toList ++ ((Nat.repr statement.place).toList ++ "]".toList)) ++
        (" = ".toList ++ (statement.valueText names scaleText).toList) := by
  have cut : "] = ".toList = "]".toList ++ " = ".toList := rfl
  rcases statement with ⟨⟨_ | _, index⟩, expression⟩ | ⟨coefficient, index, id⟩ <;>
    simp only [render, array, place, valueText, ArrayNames.slot, toString, String.toList_append,
      List.append_assoc, cut]

end Statement

namespace Target

variable (target : Target)

theorem star_not_mem_slot (slot : Slot) : '*' ∉ (target.arrayNames.slot slot).toList := by
  rw [Reader.slot_toList]
  have digits := Reader.not_mem_toDigits (show '*'.isDigit = false by decide) slot.index
  cases target <;> cases slot.buffer <;> simp +decide [Reader.letter, digits]

theorem factor_value {scaleText : ScaleId → String}
    (constants : ∀ id, IsConstantName (scaleText id)) (statement : Statement) :
    (Reader.factor ((statement.valueText target.arrayNames scaleText).toList ++ ";".toList)).map
      Prod.fst = statement.scale.map scaleText := by
  have slot := target.star_not_mem_slot
  -- a factor is read after a value without a star, and the rest of the line is left
  have read (value : List Char) (plain : '*' ∉ value) (id : ScaleId) {text : List Char}
      (spelled : text = value ++ ['*'] ++ (" ".toList ++ ((scaleText id).toList ++ ";".toList))) :
      (Reader.factor text).map Prod.fst = some (scaleText id) := by
    have whole := Reader.reads_factor plain (constants id) []
    rw [List.append_nil] at whole
    rw [spelled, whole]
    rfl
  rcases statement with ⟨destination, expression⟩ | ⟨coefficient, index, id⟩
  · cases expression with
    | copy source =>
      rw [Reader.factor_of_plain]
      · rfl
      · simpa +decide [Statement.valueText, Expression.render] using slot source
    | combine sign left right scale =>
      have symbol : '*' ∉ sign.symbol.toList := by cases sign <;> decide
      cases scale with
      | none =>
        rw [Reader.factor_of_plain]
        · rfl
        · simp +decide [Statement.valueText, Expression.render, toString, slot, symbol]
      | some id =>
        refine read ("(" ++ target.arrayNames.slot left ++ " " ++ sign.symbol ++ " " ++
          target.arrayNames.slot right ++ ") ").toList ?_ id ?_
        · simp +decide [slot, symbol]
        · simp only [Statement.valueText, Expression.render, toString, String.toList_append,
            List.append_assoc]
          rfl
  · refine read (target.arrayNames.slot ⟨.work, index⟩ ++ " ").toList ?_ id ?_
    · simp +decide [slot]
    · simp only [Statement.valueText, ArrayNames.slot, toString, String.toList_append,
        List.append_assoc]
      rfl

theorem reads_assigned (statement : Statement) :
    Reader.Reads target.assigned
      ((target.indent ++ statement.array target.arrayNames).toList ++
        ("[".toList ++ ((Nat.repr statement.place).toList ++ "]".toList)) ++ " = ".toList) () := by
  have element := Reader.reads_element (target.indent ++ statement.array target.arrayNames)
    statement.place
  suffices Reader.Reads _ _ statement.place from this.bind (Reader.reads_expect " = ")
  rcases statement with ⟨⟨_ | _, index⟩, expression⟩ | ⟨coefficient, index, id⟩
  · exact element.orElse
  · have noInput : Reader.Fails (Reader.expect (target.indent ++ target.arrayNames.input))
        (target.indent ++ target.arrayNames.work).toList := by
      cases target <;> exact Reader.fails_expect (by decide)
    exact (noInput.bind.append _).orElse element.orElse
  · have noInput : Reader.Fails (Reader.expect (target.indent ++ target.arrayNames.input))
        (target.indent ++ target.arrayNames.output).toList := by
      cases target <;> exact Reader.fails_expect (by decide)
    have noWork : Reader.Fails (Reader.expect (target.indent ++ target.arrayNames.work))
        (target.indent ++ target.arrayNames.output).toList := by
      cases target <;> exact Reader.fails_expect (by decide)
    exact (noInput.bind.append _).orElse ((noWork.bind.append _).orElse element)

theorem line_toList (routine : Routine Float) (statement : Statement) :
    (routine.line target.indent target.arrayNames statement).toList =
      (target.indent ++ statement.array target.arrayNames).toList ++
        ("[".toList ++ ((Nat.repr statement.place).toList ++ "]".toList)) ++ " = ".toList ++
        ((statement.valueText target.arrayNames routine.scaleText).toList ++ ";".toList) := by
  simp only [Routine.line, toString, String.toList_append, statement.toList_render,
    List.append_assoc]

/-- What is read from the line of a statement is the scale by which it multiplies. -/
theorem multiplied_line {routine : Routine Float}
    (constants : ∀ id, IsConstantName (routine.scaleText id)) (statement : Statement) :
    Reader.front? target.multiplied (routine.line target.indent target.arrayNames statement) =
      statement.scale.map routine.scaleText := by
  rw [Reader.front?, line_toList]
  show ((target.assigned _).bind fun next => Reader.factor next.2).map Prod.fst = _
  rw [target.reads_assigned]
  exact target.factor_value constants statement

theorem declared_line (routine : Routine Float) (statement : Statement) :
    Reader.front? target.declared (routine.line target.indent target.arrayNames statement) =
      none := by
  have whole := target.line_toList routine statement
  rw [List.append_assoc, List.append_assoc] at whole
  have differ : ∀ array ∈ target.arrayNames.all,
      Reader.apart target.constantStart.toList (target.indent ++ array).toList := by
    cases target <;> decide
  exact (Reader.fails_expect (differ _ (statement.array_mem target.arrayNames))).bind.front whole

def definition : Target → Scale Float → String
  | javaScript, scale => JavaScript.valueText scale.kind ++ ";"
  | rust, scale => Decimal.plainText scale.value ++ "; // " ++ scale.kind.formula
  | c, scale => Decimal.plainText scale.value ++ "; " ++ "/* " ++ scale.kind.formula ++ " */"

theorem declaration_toList (scale : Scale Float) :
    (target.declaration scale).toList = target.constantStart.toList ++
      (scale.name.toList ++ (target.constantEquals.toList ++
        (target.definition scale).toList)) := by
  unfold declaration definition JavaScript.declaration Rust.declaration C.declaration
  cases target <;> simp only [toString, String.toList_append, List.append_assoc] <;> rfl

theorem declared_declaration (scale : Scale Float) :
    Reader.front? target.declared (target.declaration scale) = some scale.name := by
  have constant : Reader.Reads (Reader.constantUpTo target.constantEquals)
      (scale.name.toList ++ target.constantEquals.toList) scale.name := by
    cases target <;> exact Reader.reads_constantUpTo scale.isConstantName rfl rfl
  have whole := target.declaration_toList scale
  rw [← List.append_assoc scale.name.toList, ← List.append_assoc] at whole
  exact ((Reader.reads_expect target.constantStart).bind constant).front whole

theorem fails_multiplied {start : List Char}
    (differ : ∀ array ∈ target.arrayNames.all,
      Reader.apart (target.indent ++ array).toList start) :
    Reader.Fails target.multiplied start := by
  simp only [ArrayNames.all, List.forall_mem_cons] at differ
  obtain ⟨input, work, output, _⟩ := differ
  have noElement := (Reader.fails_element input).both
    ((Reader.fails_element work).both (Reader.fails_element output))
  exact noElement.bind.bind

theorem multiplied_declaration (scale : Scale Float) :
    Reader.front? target.multiplied (target.declaration scale) = none := by
  have start : ∀ array ∈ target.arrayNames.all,
      Reader.apart (target.indent ++ array).toList target.constantStart.toList := by
    cases target <;> decide
  exact (target.fails_multiplied start).front (target.declaration_toList scale)

/-- The line neither declares a constant nor multiplies by one. -/
def IsSilent (line : String) : Prop :=
  Reader.front? target.declared line = none ∧ Reader.front? target.multiplied line = none

theorem isForeign_append {start : String} (foreign : target.isForeign start) (rest : String) :
    target.isForeign (start ++ rest) := by
  rw [isForeign, List.all_eq_true] at foreign ⊢
  intro other member
  rw [String.toList_append]
  exact Reader.apart_append (foreign other member) _

theorem isSilent_of_foreign {line : String} (foreign : target.isForeign line) :
    target.IsSilent line := by
  rw [isForeign, List.all_cons, Bool.and_eq_true, List.all_map, List.all_eq_true] at foreign
  have whole : line.toList = line.toList ++ [] := (List.append_nil _).symm
  exact ⟨(Reader.fails_expect foreign.1).bind.front whole,
    (target.fails_multiplied foreign.2).front whole⟩

end Target

end PrunedCosine
