import PrunedCosine.Routine.C
import PrunedCosine.Routine.JavaScript
import PrunedCosine.Routine.Rust

/-! The languages that routines are written in. -/

namespace PrunedCosine

inductive Target where
  | javaScript
  | rust
  | c
deriving DecidableEq

namespace Target

def name : Target → String
  | javaScript => "javascript"
  | rust => "rust"
  | c => "c"

/-- The names a target goes by, the usual one first. -/
def names : Target → List String
  | javaScript => ["javascript", "js"]
  | rust => ["rust", "rs"]
  | c => ["c"]

def all : List Target := [javaScript, rust, c]

def ofName? (name : String) : Option Target :=
  all.find? fun target => target.names.contains name

def ofAnyCase? (name : String) : Option Target := ofName? name.toLower

def indent : Target → String
  | javaScript => "        "
  | rust | c => "    "

def arrayNames : Target → ArrayNames
  | javaScript | c => .upper
  | rust => .lower

def opening : Target → Routine Float → List String
  | javaScript => JavaScript.opening
  | rust => Rust.opening
  | c => C.opening

/-- The statements that are spelled; JavaScript spells those of an idle routine too. -/
def statements {α : Type} : Target → Routine α → List Statement
  | javaScript => Routine.statements
  | rust | c => Routine.activeStatements

def closing : Target → List String
  | javaScript => JavaScript.closing
  | rust => Rust.closing
  | c => C.closing

def text (target : Target) (routine : Routine Float) : String :=
  textOfLines (target.opening routine ++
    (target.statements routine).map (routine.line target.indent target.arrayNames) ++
    target.closing)

end Target

end PrunedCosine
