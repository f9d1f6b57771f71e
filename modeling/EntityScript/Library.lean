import EntityScript.Baked.Script
import EntityScript.Compile.Source
import EntityScript.Files
import EntityScript.Machine.Context

/-!
# Libraries of scripts

A library makes each script once and keeps it for all entities that run it. It remembers where
every script came from, whether it could be made or not, so that `reload` can make all of them
anew. Entities go on with the script they have until they are rebound.

Every path under which a script is kept is also tracked, and a kept script has that path as its
own.
-/

namespace EntityScript

/-- The extension of baked scripts. -/
def bakedExtension : String := "zbc"

/-- Why a script cannot be made. -/
inductive LoadError where
  | unreadable (path : String) (cause : FileError)
  | uncompilable (cause : CompileError)
  | undecodable (path : String) (cause : Baked.DecodeError)
  deriving DecidableEq, Repr

/-- The wording of a load error. -/
def LoadError.message : LoadError → String
  | unreadable path cause => "cannot read '" ++ path ++ "': " ++ cause.message
  | uncompilable cause => cause.message
  | undecodable path cause => "bad baked script '" ++ path ++ "': " ++ cause.message

/-- Where a script comes from. -/
inductive Origin where
  /-- The file at its path, as it is when the script is made. -/
  | file
  | source (text : String)
  | baked (bytes : List UInt8)
  deriving DecidableEq

namespace Origin

/-- Decodes a baked script. It takes the path it is kept under for its own. -/
def decode (path : String) (bytes : List UInt8) : Except LoadError Script :=
  match Script.unbake bytes with
  | .ok s => .ok { s with path }
  | .error e => .error (.undecodable path e)

/-- Compiles a source. -/
def compile (path source : String) : Except LoadError Script :=
  (EntityScript.compile path source).mapError .uncompilable

/-- Makes the script of a path. The extension of a file tells whether it is baked. -/
def build (files : Files) (path : String) : Origin → Except LoadError Script
  | file =>
    if Path.extension? path = some bakedExtension then do
      let bytes ← (files.read path).mapError (.unreadable path)
      decode path bytes
    else do
      let source ← (files.readText path).mapError (.unreadable path)
      compile path source
  | source text => compile path text
  | baked bytes => decode path bytes

end Origin

/-- The scripts of a host. -/
structure Library where
  /-- The scripts that could be made, by path. -/
  editions : Table String Edition
  /-- Where scripts come from, by path. -/
  tracked : Table String Origin
  /-- How many scripts were made so far. -/
  made : Nat

namespace Library

/-- The library without scripts. -/
def empty : Library := ⟨.empty, .empty, 0⟩

/-- Numbers a script that was made, without keeping it. -/
def number (l : Library) (s : Script) : Edition × Library :=
  (⟨l.made, s⟩, { l with made := l.made + 1 })

/-- Keeps a script that was made under its path. -/
def keep (l : Library) (path : String) (s : Script) : Edition × Library :=
  let (edition, l) := l.number s
  (edition, { l with editions := l.editions.insert path edition })

/-- Makes the script of a path anew and keeps it. A path that fails stays tracked. -/
def insert (l : Library) (files : Files) (path : String) (origin : Origin) :
    Except LoadError Edition × Library :=
  let l := { l with editions := l.editions.erase path, tracked := l.tracked.insert path origin }
  match origin.build files path with
  | .ok s =>
    let (edition, l) := l.keep path s
    (.ok edition, l)
  | .error e => (.error e, l)

/-- The script of a file. It is made only if there is none yet. -/
def load (l : Library) (files : Files) (path : String) : Except LoadError Edition × Library :=
  match l.editions.get? path with
  | some edition => (.ok edition, l)
  | none => l.insert files path .file

/-- The script kept under a path. -/
def get? (l : Library) (path : String) : Option Edition := l.editions.get? path

/-- How many scripts are kept. -/
def size (l : Library) : Nat := l.editions.size

/-- Forgets all scripts and where they come from. -/
def clear (l : Library) : Library := { l with editions := .empty, tracked := .empty }

/-- Makes one tracked script and adds it, or the error, to those made before. -/
def remake (files : Files) (state : Array LoadError × Library) (entry : String × Origin) :
    Array LoadError × Library :=
  match entry.2.build files entry.1 with
  | .ok s => (state.1, (state.2.keep entry.1 s).2)
  | .error e => (state.1.push e, state.2)

/-- Makes all tracked scripts anew, and answers the errors in the order of their paths. -/
def reload (l : Library) (files : Files) : List LoadError × Library :=
  let (errors, l) := l.tracked.entries.foldl (remake files) (#[], { l with editions := .empty })
  (errors.toList, l)

/-- Moves a context to the script that is kept under the path of its own, and tells whether there is
one. -/
def rebind (l : Library) (c : Context) : Bool × Context :=
  match l.editions.get? c.definition.script.path with
  | none => (false, c)
  | some edition =>
    if edition.serial = c.definition.serial then (true, c) else (true, (c.rebind edition).2)

end Library

end EntityScript
