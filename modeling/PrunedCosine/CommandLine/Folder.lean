/-! Writing a file into an empty folder: which paths can be written, and what the system
says about the others. -/

namespace PrunedCosine.CommandLine

inductive FileFault where
  | notFound
  | denied
  | isFolder
  | nameTooLong
deriving DecidableEq

def FileFault.text : FileFault → String
  | notFound => "No such file or directory (os error 2)"
  | denied => "Permission denied (os error 13)"
  | isFolder => "Is a directory (os error 21)"
  | nameTooLong => "File name too long (os error 36)"

namespace EmptyFolder

def longestName : Nat := 255

/-- The steps of a path that lead anywhere: all but the empty ones and single dots. -/
def steps (path : String) : List String :=
  (path.splitOn "/").filter fun step => step != "" && step != "."

def endsInFolder (path : String) : Bool :=
  match (path.splitOn "/").getLast? with
  | some step => step == "" || step == "." || step == ".."
  | none => true

/-- What keeps a file from being written at the path, if anything does. The folder holds no
other folder, and nothing is known of what lies outside it. -/
def fault? (path : String) : Option FileFault :=
  if path = "" then some .notFound
  else match steps path with
    | [] => some .isFolder
    | [name] =>
        if longestName < name.utf8ByteSize then some .nameTooLong
        else if endsInFolder path then some .isFolder
        else if path.startsWith "/" then some .denied
        else none
    | name :: _ =>
        if longestName < name.utf8ByteSize then some .nameTooLong else some .notFound

def samePath (first second : String) : Bool := steps first == steps second

end EmptyFolder

end PrunedCosine.CommandLine
