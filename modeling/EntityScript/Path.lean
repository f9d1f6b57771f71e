/-!
# File paths

The parts of a path that a script takes its name and its kind from. Empty parts and parts that
stay in the same directory do not count, so a path may end in a slash. A name that only begins
with a point has no extension.
-/

namespace EntityScript.Path

/-- The pieces of a text between its slashes. -/
def pieces : List Char → List (List Char)
  | [] => [[]]
  | c :: rest =>
    if c = '/' then [] :: pieces rest
    else
      match pieces rest with
      | [] => [[c]]
      | piece :: others => (c :: piece) :: others

/-- All parts of a path, those between two slashes that follow each other among them. -/
def split (path : String) : List String := (pieces path.toList).map String.ofList

/-- The parts of a path that lead somewhere else. -/
def parts (path : String) : List String :=
  (split path).filter fun part => part ≠ "" && part ≠ "."

/-- The name of the file or directory that a path leads to. -/
def fileName? (path : String) : Option String :=
  match (parts path).getLast? with
  | none => none
  | some name => if name = ".." then none else some name

/-- A name up to its last point, and what follows the point, if there is a point behind the first
character. -/
def splitExtension (name : String) : String × Option String :=
  let reversed := name.toList.reverse
  match reversed.dropWhile (· ≠ '.') with
  | [] => (name, none)
  | [_] => (name, none)
  | _ :: stem =>
    (String.ofList stem.reverse, some (String.ofList (reversed.takeWhile (· ≠ '.')).reverse))

/-- The name that a path leads to, without its extension. -/
def stem? (path : String) : Option String :=
  (fileName? path).map fun name => (splitExtension name).1

/-- The extension of the name that a path leads to. -/
def extension? (path : String) : Option String :=
  (fileName? path).bind fun name => (splitExtension name).2

end EntityScript.Path
