import EntityScript.Path
import EntityScript.Table

/-!
# Files

The files that scripts are read from and baked scripts are written to, as a value: the contents
of files and the directories that are there, by place. A path is followed part by part, and every
directory that it passes has to be there, even if a later part leads out of it again. So several
paths lead to one place.

A file stays where it is put until it is removed; the directories around it stay for good.
-/

namespace EntityScript

/-- Why a file cannot be used. -/
inductive FileError where
  | notFound
  | notDirectory
  | isDirectory
  | notText
  deriving DecidableEq, Repr

/-- The wording of a file error. -/
def FileError.message : FileError → String
  | notFound => "No such file or directory (os error 2)"
  | notDirectory => "Not a directory (os error 20)"
  | isDirectory => "Is a directory (os error 21)"
  | notText => "stream did not contain valid UTF-8"

/-- The names from the directory where relative paths begin down to a file or directory. The root
of all files is an empty name in front, and `..` in front leads out of the beginning. -/
abbrev Place := List String

namespace Place

/-- The path that leads straight to a place. -/
def path (p : Place) : String := "/".intercalate p

/-- The directory that a directory is in. -/
def outer (p : Place) : Place :=
  match p.getLast? with
  | none => [".."]
  | some ".." => p ++ [".."]
  | some "" => p
  | some _ => p.dropLast

/-- Where a part of a path leads from a directory. -/
def follow (p : Place) (part : String) : Place :=
  if part = "" ∨ part = "." then p
  else if part = ".." then p.outer
  else p ++ [part]

end Place

/-- Where a path begins, and its parts from there on. An empty path leads nowhere. -/
def Path.route? (path : String) : Option (Place × List String) :=
  match Path.split path with
  | [""] => none
  | "" :: parts => some ([""], parts)
  | parts => some ([], parts)

/-- Files and directories by the paths that lead straight to them. -/
structure Files where
  /-- The content of each file. -/
  contents : Table String (List UInt8)
  /-- The directories that are known to be there. -/
  directories : Table String Unit
  deriving DecidableEq

namespace Files

/-- No files at all. -/
def empty : Files := ⟨.empty, .empty⟩

/-- Whether a directory is there. Where paths begin, and around it, there always is one. -/
def hasDirectory (files : Files) (p : Place) : Bool :=
  p.all (fun name => name == "" || name == "..") || files.directories.contains p.path

/-- Makes a directory. -/
def addDirectory (files : Files) (p : Place) : Files :=
  { files with directories := files.directories.insert p.path () }

/-- Sees that a path can be followed from a place on. -/
def enter (files : Files) (p : Place) : Except FileError Unit :=
  if files.hasDirectory p then .ok ()
  else if files.contents.contains p.path then .error .notDirectory
  else .error .notFound

/-- Follows the parts of a path. -/
def follow (files : Files) (p : Place) : List String → Except FileError Place
  | [] => .ok p
  | part :: rest => do
    files.enter p
    files.follow (p.follow part) rest

/-- The place that a path leads to, whether there is something or not. -/
def locate (files : Files) (path : String) : Except FileError Place :=
  match Path.route? path with
  | none => .error .notFound
  | some (p, parts) => files.follow p parts

/-- The place of a file that a path leads to or could lead to. -/
def locateFile (files : Files) (path : String) : Except FileError Place := do
  let p ← files.locate path
  if files.hasDirectory p then throw .isDirectory else pure p

/-- The content of a file. -/
def read (files : Files) (path : String) : Except FileError (List UInt8) := do
  let p ← files.locateFile path
  match files.contents.get? p.path with
  | none => throw .notFound
  | some content => pure content

/-- The content of a file that holds text. -/
def readText (files : Files) (path : String) : Except FileError String := do
  let content ← files.read path
  match String.fromUTF8? ⟨content.toArray⟩ with
  | some text => pure text
  | none => throw .notText

/-- Writes a file into a directory that is there. -/
def write (files : Files) (path : String) (content : List UInt8) : Except FileError Files := do
  let p ← files.locateFile path
  pure { files with contents := files.contents.insert p.path content }

/-- The places that a path passes, without the one that it leads to. -/
def passed (path : String) : List Place :=
  match Path.route? path with
  | none => []
  | some (p, parts) => (List.range parts.length).map fun n => (parts.take n).foldl Place.follow p

/-- Writes a file, and makes the directories that its path passes. -/
def put (files : Files) (path : String) (content : List UInt8) : Files :=
  let files := (passed path).foldl addDirectory files
  (files.write path content).toOption.getD files

/-- Removes a file. -/
def remove (files : Files) (path : String) : Files :=
  match files.locateFile path with
  | .error _ => files
  | .ok p => { files with contents := files.contents.erase p.path }

end Files

end EntityScript
