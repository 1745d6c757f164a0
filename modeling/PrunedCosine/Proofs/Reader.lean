import Mathlib.Data.List.Basic
import PrunedCosine.Proofs.Table
import PrunedCosine.Routine.Target

/-! Reading statements back from their text. A reader takes what it reads from the front of a text
and leaves the rest. The statements of a routine are spelled so that each is read from its text
alone, whatever comes after it. -/

namespace PrunedCosine

abbrev Reader := StateT (List Char) Option

namespace Reader

def expect (text : String) : Reader Unit := fun input =>
  (input.dropPrefix? text.toList).map fun rest => ((), rest)

/-- A number in decimal, up to the text that must end it. -/
def numberUpTo (stop : String) : Reader Nat := fun input =>
  let digits := input.takeWhile Char.isDigit
  if digits.isEmpty then none
  else (do
    expect stop
    pure (Nat.ofDigitChars 10 digits 0)) (input.dropWhile Char.isDigit)

def element (array : String) : Reader Nat := do
  expect array
  expect "["
  numberUpTo "]"

def slot (names : ArrayNames) : Reader Slot :=
  (do
    let index ← element names.input
    pure ⟨.input, index⟩) <|>
  (do
    let index ← element names.work
    pure ⟨.work, index⟩)

def scale {α : Type} (table : ScaleTable α) : Reader ScaleId :=
  (do
    expect "C"
    let index ← numberUpTo ";"
    pure ⟨index⟩) <|>
  (do
    expect "D0;"
    pure table.dc) <|>
  (do
    expect "D1;"
    pure table.ac)

def sign : Reader Sign :=
  (do
    expect "+"
    pure .plus) <|>
  (do
    expect "-"
    pure .minus)

def expression {α : Type} (names : ArrayNames) (table : ScaleTable α) : Reader Expression :=
  (do
    expect "("
    let left ← slot names
    expect " "
    let sign ← sign
    expect " "
    let right ← slot names
    expect ") * "
    let id ← scale table
    pure (.combine sign left right (some id))) <|>
  (do
    let left ← slot names
    expect " "
    let sign ← sign
    expect " "
    let right ← slot names
    expect ";"
    pure (.combine sign left right none)) <|>
  (do
    let source ← slot names
    expect ";"
    pure (.copy source))

def statement {α : Type} (names : ArrayNames) (table : ScaleTable α) : Reader Statement :=
  (do
    let coefficient ← element names.output
    expect " = "
    let index ← element names.work
    expect " * "
    let id ← scale table
    pure (.output coefficient index id)) <|>
  (do
    let destination ← slot names
    expect " = "
    let value ← expression names table
    pure (.assign destination value))

/-- The value is read from the front of a text that starts like this, and what follows is left. -/
def Reads {α : Type} (reader : Reader α) (text : List Char) (value : α) : Prop :=
  ∀ rest, reader (text ++ rest) = some (value, rest)

def Fails {α : Type} (reader : Reader α) (text : List Char) : Prop :=
  ∀ rest, reader (text ++ rest) = none

section Combined

variable {α β : Type} {reader other : Reader α} {next : α → Reader β} {text more : List Char}
  {value : α} {result : β}

theorem reads_pure (value : α) : Reads (pure value) [] value := fun _ => rfl

theorem Reads.bind (first : Reads reader text value) (second : Reads (next value) more result) :
    Reads (reader >>= next) (text ++ more) result := by
  intro rest
  rw [List.append_assoc]
  show (reader _).bind _ = _
  rw [first]
  exact second rest

theorem Reads.map {make : α → β} (first : Reads reader text value) :
    Reads (do
      let value ← reader
      pure (make value)) text (make value) := by
  rw [← List.append_nil text]
  exact first.bind (reads_pure (make value))

theorem Reads.orElse (first : Reads reader text value) : Reads (reader <|> other) text value := by
  intro rest
  show (reader _).orElse _ = _
  rw [first]
  rfl

theorem Fails.orElse (first : Fails reader text) (second : Reads other text value) :
    Reads (reader <|> other) text value := by
  intro rest
  show (reader _).orElse _ = _
  rw [first]
  exact second rest

theorem Fails.bind (first : Fails reader text) : Fails (reader >>= next) text := by
  intro rest
  show (reader _).bind _ = _
  rw [first]
  rfl

theorem Fails.both (first : Fails reader text) (second : Fails other text) :
    Fails (reader <|> other) text := by
  intro rest
  show (reader _).orElse _ = _
  rw [first]
  exact second rest

theorem Reads.fails (first : Reads reader text value) (second : Fails (next value) more) :
    Fails (reader >>= next) (text ++ more) := by
  intro rest
  rw [List.append_assoc]
  show (reader _).bind _ = _
  rw [first]
  exact second rest

theorem Fails.append (first : Fails reader text) (more : List Char) :
    Fails reader (text ++ more) := by
  intro rest
  rw [List.append_assoc]
  exact first _

end Combined

theorem reads_expect (text : String) : Reads (expect text) text.toList () := by
  intro rest
  rw [expect, List.dropPrefix?_append_of_beq rest (BEq.refl _)]
  rfl

/-- The texts differ at a place that both have. -/
def apart : List Char → List Char → Bool
  | first :: rest, other :: more => first != other || apart rest more
  | _, _ => false

theorem dropPrefix?_of_apart {text start : List Char} (differ : apart text start)
    (rest : List Char) : (start ++ rest).dropPrefix? text = none := by
  induction text generalizing start with
  | nil => cases differ
  | cons first text ih =>
    cases start with
    | nil => cases differ
    | cons other start =>
      rw [apart, Bool.or_eq_true, bne_iff_ne] at differ
      rw [List.cons_append, List.dropPrefix?]
      by_cases same : other = first
      · rw [if_pos (beq_iff_eq.mpr same)]
        exact ih (differ.resolve_left fun apart => apart same.symm)
      · rw [if_neg (by simpa using same)]

theorem fails_expect {text : String} {start : List Char} (differ : apart text.toList start) :
    Fails (expect text) start := by
  intro rest
  rw [expect, dropPrefix?_of_apart differ]
  rfl

theorem not_mem_toDigits {letter : Char} (other : letter.isDigit = false) (number : Nat) :
    letter ∉ Nat.toDigits 10 number := by
  intro member
  rw [Nat.isDigit_of_mem_toDigits (by decide) (by decide) member] at other
  cases other

theorem digits_end {stop : String} {first : Char} {rest : List Char}
    (spelled : stop.toList = first :: rest) (ends : first.isDigit = false) (number : Nat)
    (input : List Char) :
    (Nat.toDigits 10 number ++ (stop.toList ++ input)).takeWhile Char.isDigit =
        Nat.toDigits 10 number ∧
      (Nat.toDigits 10 number ++ (stop.toList ++ input)).dropWhile Char.isDigit =
        stop.toList ++ input := by
  have digits : ∀ digit ∈ Nat.toDigits 10 number, digit.isDigit = true :=
    fun _ member => Nat.isDigit_of_mem_toDigits (by decide) (by decide) member
  rw [List.takeWhile_append_of_pos digits, List.dropWhile_append_of_pos digits, spelled,
    List.cons_append]
  simp [ends]

theorem reads_numberUpTo {stop : String} {first : Char} {rest : List Char}
    (spelled : stop.toList = first :: rest) (ends : first.isDigit = false) (number : Nat) :
    Reads (numberUpTo stop) ((Nat.repr number).toList ++ stop.toList) number := by
  intro input
  obtain ⟨digits, after⟩ := digits_end spelled ends number input
  rw [List.append_assoc, Nat.toList_repr, numberUpTo, digits, after]
  rw [if_neg (by simp [Nat.toDigits_ne_nil]), Nat.ofDigitChars_toDigits (by decide) (by decide)]
  exact (reads_expect stop).map input

theorem reads_element (array : String) (index : Nat) :
    Reads (element array)
      (array.toList ++ ("[".toList ++ ((Nat.repr index).toList ++ "]".toList))) index :=
  (reads_expect array).bind ((reads_expect "[").bind (reads_numberUpTo rfl rfl index))

theorem reads_sign (sign : Sign) : Reads Reader.sign sign.symbol.toList sign := by
  cases sign with
  | plus => exact (reads_expect "+").map.orElse
  | minus =>
    have noPlus : Fails (expect "+") "-".toList := fails_expect rfl
    exact noPlus.bind.orElse (reads_expect "-").map

section Spelled

variable (target : Target)

def letter : Target → Buffer → Char
  | .javaScript, .input | .c, .input => 'X'
  | .javaScript, .work | .c, .work => 'Y'
  | .rust, .input => 'x'
  | .rust, .work => 'y'

theorem slot_toList (slot : Slot) :
    (target.arrayNames.slot slot).toList =
      letter target slot.buffer ::
        ("[".toList ++ ((Nat.repr slot.index).toList ++ "]".toList)) := by
  obtain ⟨buffer, index⟩ := slot
  cases buffer <;> simp only [ArrayNames.slot, String.toList_append, List.append_assoc] <;>
    cases target <;> rfl

theorem reads_slot (slot : Slot) :
    Reads (Reader.slot target.arrayNames) (target.arrayNames.slot slot).toList slot := by
  obtain ⟨buffer, index⟩ := slot
  rw [slot_toList]
  cases buffer with
  | input =>
    have element := reads_element target.arrayNames.input index
    cases target <;> exact element.map.orElse
  | work =>
    have element := reads_element target.arrayNames.work index
    cases target <;> exact (fails_expect rfl).bind.bind.orElse element.map

variable (order : Nat)

abbrev table (order : Nat) : ScaleTable Float := .ofOrder order

theorem reads_scale (id : ScaleId) :
    Reads (Reader.scale (table order)) (((table order).nameOf id).toList ++ ";".toList) id := by
  have noLetter : Fails (expect "C") "D".toList := fails_expect rfl
  have noFirst : Fails (expect "D0;") "D1;".toList := fails_expect rfl
  rcases @ScaleTable.nameOf_cases Float _ order id with text | ⟨rfl, text⟩ | ⟨rfl, text⟩
  · rw [text, ScaleId.text_toList, List.cons_append]
    exact ((reads_expect "C").bind (reads_numberUpTo rfl rfl id.index).map).orElse
  · rw [text]
    exact (noLetter.bind.append ['0', ';']).orElse (reads_expect "D0;").map.orElse
  · rw [text]
    exact (noLetter.bind.append ['1', ';']).orElse (noFirst.bind.orElse (reads_expect "D1;").map)

theorem fails_parenthesis (slot : Slot) :
    Fails (expect "(") (target.arrayNames.slot slot).toList := by
  obtain ⟨buffer, index⟩ := slot
  rw [slot_toList]
  cases target <;> cases buffer <;> exact fails_expect rfl

theorem reads_expression (expression : Expression) :
    Reads (Reader.expression target.arrayNames (table order))
      ((expression.render target.arrayNames.slot (table order).nameOf).toList ++ ";".toList)
      expression := by
  cases expression with
  | copy source =>
    have left := reads_slot target source
    have noSign : Fails (expect " ") ";".toList := fails_expect rfl
    exact ((fails_parenthesis target source).bind.append _).orElse
      ((left.fails noSign.bind).orElse (left.bind (reads_expect ";").map))
  | combine sign left right scale =>
    have first := reads_slot target left
    have second := reads_slot target right
    cases scale with
    | none =>
      simp only [Expression.render, String.toList_append, List.append_assoc]
      refine ((fails_parenthesis target left).bind.append _).orElse (Reads.orElse ?_)
      exact first.bind ((reads_expect " ").bind ((reads_sign sign).bind
        ((reads_expect " ").bind (second.bind (reads_expect ";").map))))
    | some id =>
      simp only [Expression.render, String.toList_append, List.append_assoc]
      refine Reads.orElse ?_
      exact (reads_expect "(").bind (first.bind ((reads_expect " ").bind ((reads_sign sign).bind
        ((reads_expect " ").bind (second.bind ((reads_expect ") * ").bind
          (reads_scale order id).map))))))

theorem output_toList (names : ArrayNames) (scaleText : ScaleId → String) (coefficient index : Nat)
    (id : ScaleId) :
    ((Statement.output coefficient index id).render names scaleText).toList ++ ";".toList =
      names.output.toList ++ ("[".toList ++ ((Nat.repr coefficient).toList ++ "]".toList)) ++
        (" = ".toList ++
          (names.work.toList ++ ("[".toList ++ ((Nat.repr index).toList ++ "]".toList)) ++
            (" * ".toList ++ ((scaleText id).toList ++ ";".toList)))) := by
  simp only [Statement.render, String.toList_append, List.append_assoc]
  rfl

theorem reads_statement (statement : Statement) :
    Reads (Reader.statement target.arrayNames (table order))
      ((statement.render target.arrayNames (table order).nameOf).toList ++ ";".toList)
      statement := by
  cases statement with
  | output coefficient index id =>
    have first := reads_element target.arrayNames.output coefficient
    have second := reads_element target.arrayNames.work index
    rw [output_toList]
    refine Reads.orElse ?_
    exact first.bind ((reads_expect " = ").bind (second.bind ((reads_expect " * ").bind
      (reads_scale order id).map)))
  | assign destination expression =>
    have read := reads_slot target destination
    have noOutput : Fails (Reader.element target.arrayNames.output)
        (target.arrayNames.slot destination).toList := by
      obtain ⟨buffer, index⟩ := destination
      rw [slot_toList]
      cases target <;> cases buffer <;> exact (fails_expect rfl).bind
    simp only [Statement.render, String.toList_append, List.append_assoc]
    exact (noOutput.bind.append _).orElse
      (read.bind ((reads_expect " = ").bind (reads_expression target order expression).map))

end Spelled

theorem fails_statement {α : Type} {table : ScaleTable α} {names : ArrayNames} {start : List Char}
    (input : apart names.input.toList start) (work : apart names.work.toList start)
    (output : apart names.output.toList start) : Fails (Reader.statement names table) start := by
  have noSlot : Fails (Reader.slot names) start :=
    (fails_expect input).bind.bind.both (fails_expect work).bind.bind
  exact (fails_expect output).bind.bind.both noSlot.bind

end Reader

end PrunedCosine
