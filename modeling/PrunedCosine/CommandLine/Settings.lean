import PrunedCosine.Routine.Target

/-! The arguments of the command line. An option has a long name, and some have a letter;
values follow the name or are attached to it. Nothing may be given twice, and a value that
stands alone may not look like an option. -/

namespace PrunedCosine.CommandLine

inductive Valued where
  | order
  | coefficients
  | target
  | name
  | output
deriving DecidableEq

inductive Switch where
  | allScales
  | check
  | stats
deriving DecidableEq

inductive Flag where
  | valued (which : Valued)
  | switch (which : Switch)
  | help
  | version
deriving DecidableEq

def Flag.ofName? : String → Option Flag
  | "order" => some (.valued .order)
  | "coefficients" => some (.valued .coefficients)
  | "target" => some (.valued .target)
  | "name" => some (.valued .name)
  | "output" => some (.valued .output)
  | "all-constants" => some (.switch .allScales)
  | "check" => some (.switch .check)
  | "stats" => some (.switch .stats)
  | "help" => some .help
  | "version" => some .version
  | _ => none

def Flag.ofLetter? : Char → Option Flag
  | 'p' => some (.valued .order)
  | 'n' => some (.valued .coefficients)
  | 'o' => some (.valued .output)
  | 'h' => some .help
  | 'V' => some .version
  | _ => none

def digitsValue? : List Char → Option Nat
  | [] => none
  | digits =>
      if digits.all Char.isDigit then
        some (digits.foldl (fun value digit => 10 * value + (digit.toNat - '0'.toNat)) 0)
      else none

/-- An order is read as a signed number and must then fit 32 bits. -/
def order? (text : String) : Option Nat :=
  let value := match text.toList with
    | '+' :: digits => digitsValue? digits
    | '-' :: digits => (digitsValue? digits).filter (· == 0)
    | digits => digitsValue? digits
  value.filter fun order => decide (order < shortWordCount)

def count? (text : String) : Option Nat :=
  let value := match text.toList with
    | '+' :: digits => digitsValue? digits
    | digits => digitsValue? digits
  value.filter fun count => decide (count < wordCount)

/-- What the arguments say; an option that was not given is absent. -/
structure Settings where
  order : Option Nat := none
  coefficients : Option Nat := none
  target : Option Target := none
  name : Option String := none
  output : Option String := none
  allScales : Bool := false
  check : Bool := false
  stats : Bool := false
deriving DecidableEq

namespace Settings

/-- Gives an option its value, unless it has one or the text is no value for it. -/
def assign? (settings : Settings) (text : String) : Valued → Option Settings
  | .order =>
      if settings.order.isSome then none
      else (order? text).map fun value => { settings with order := some value }
  | .coefficients =>
      if settings.coefficients.isSome then none
      else (count? text).map fun value => { settings with coefficients := some value }
  | .target =>
      if settings.target.isSome then none
      else (Target.ofName? text).map fun value => { settings with target := some value }
  | .name => if settings.name.isSome then none else some { settings with name := some text }
  | .output =>
      if settings.output.isSome then none else some { settings with output := some text }

def turnOn? (settings : Settings) : Switch → Option Settings
  | .allScales => if settings.allScales then none else some { settings with allScales := true }
  | .check => if settings.check then none else some { settings with check := true }
  | .stats => if settings.stats then none else some { settings with stats := true }

def usualOrder : Nat := 5

def usualCoefficients : Nat := 11

def transformOrder (settings : Settings) : Nat := settings.order.getD usualOrder

def count (settings : Settings) : Nat := settings.coefficients.getD usualCoefficients

def language (settings : Settings) : Target := settings.target.getD .javaScript

def options (settings : Settings) : RoutineOptions where
  name := settings.name
  allScales := settings.allScales

end Settings

inductive Argument where
  /-- Two dashes: nothing after them is an option. -/
  | separator
  | long (name : String) (value : Option String)
  | letter (letter : Char) (value : Option String)
  | text (text : String)
deriving DecidableEq

namespace Argument

def ofLong (characters : List Char) : Argument :=
  let name := String.ofList (characters.takeWhile (· != '='))
  match characters.dropWhile (· != '=') with
  | [] => long name none
  | _ :: value => long name (some (String.ofList value))

def ofLetter (character : Char) : List Char → Argument
  | [] => letter character none
  | '=' :: value => letter character (some (String.ofList value))
  | value => letter character (some (String.ofList value))

def ofString (argument : String) : Argument :=
  match argument.toList with
  | ['-', '-'] => separator
  | '-' :: '-' :: characters => ofLong characters
  | '-' :: character :: characters => ofLetter character characters
  | _ => text argument

def flag? : Argument → Option Flag
  | long name _ => Flag.ofName? name
  | letter character _ => Flag.ofLetter? character
  | separator | text _ => none

def value? : Argument → Option String
  | long _ value | letter _ value => value
  | separator | text _ => none

/-- Whether a flag that takes no value may be written so. Letters may follow a letter, but
the only such letters end the reading at once. -/
def isBare : Argument → Bool
  | long _ (some _) => false
  | long _ none | letter _ _ | separator | text _ => true

end Argument

inductive Request where
  | run (settings : Settings)
  | help
  | version
  | misuse
deriving DecidableEq

namespace Request

/-- Reads the arguments from left to right; `pending` is an option that waits for its value. -/
def ofArguments (settings : Settings) (pending : Option Valued) : List Argument → Request
  | [] => if pending.isSome then misuse else run settings
  | .text text :: rest =>
      match pending.bind (settings.assign? text) with
      | some settings => ofArguments settings none rest
      | none => misuse
  | .separator :: rest => if pending.isSome || !rest.isEmpty then misuse else run settings
  | argument :: rest =>
      if pending.isSome then misuse
      else match argument.flag? with
        | some (.valued which) =>
            match argument.value? with
            | none => ofArguments settings (some which) rest
            | some value =>
                match settings.assign? value which with
                | some settings => ofArguments settings none rest
                | none => misuse
        | some (.switch which) =>
            match settings.turnOn? which with
            | some settings => if argument.isBare then ofArguments settings none rest else misuse
            | none => misuse
        | some .help => if argument.isBare then help else misuse
        | some .version => if argument.isBare then version else misuse
        | none => misuse

def ofStrings (arguments : List String) : Request :=
  ofArguments {} none (arguments.map Argument.ofString)

end Request

end PrunedCosine.CommandLine
