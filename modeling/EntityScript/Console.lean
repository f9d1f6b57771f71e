import EntityScript.Bytecode.Listing
import EntityScript.Console.Host
import EntityScript.Console.Options
import EntityScript.Library
import EntityScript.Machine.Queue
import EntityScript.Token.Listing

/-!
# The command line

What the program prints and writes, and how it exits, as a function of its arguments and of the
files it finds. A run is a sequence of steps on a transcript; a step that fails ends it, and
what was printed and written until then stays.
-/

namespace EntityScript.Console

/-- What a run did so far. -/
structure Transcript where
  /-- What was printed as the answer. -/
  output : String
  /-- What was printed as complaints. -/
  errors : String
  /-- The files as they are now. -/
  files : Files

/-- A run that ended. -/
structure Exit extends Transcript where
  /-- How it ended: 0 if all went well. -/
  code : Nat

namespace Transcript

/-- The transcript of a run that did nothing yet. -/
def start (files : Files) : Transcript := ⟨"", "", files⟩

/-- Prints to the answer. -/
def print (t : Transcript) (text : String) : Transcript := { t with output := t.output ++ text }

/-- Prints a complaint on a line of its own. -/
def complain (t : Transcript) (text : String) : Transcript :=
  { t with errors := t.errors ++ text ++ "\n" }

/-- Ends the run. -/
def exit (t : Transcript) (code : Nat) : Exit := ⟨t, code⟩

end Transcript

/-- The lines that explain how to use the program. -/
def usageLines : List String := [
  "ZEPHYR - entity behavior scripting",
  "",
  "Usage:",
  "  zephyr <file.zephyr>                    Compile and summarize a script",
  "  zephyr --tokens <file> [--no-color] [--pretty]",
  "                                          Show tokens only",
  "  zephyr --bc <file>                      Disassemble every handler",
  "  zephyr <file> --bake <out.zbc>          Write a baked script",
  "  zephyr <file> [--state S] --dispatch E  Run events (repeatable, FIFO)",
  "  zephyr --help, -h                       Show this help",
  "",
  "Baked .zbc files are accepted wherever a source file is.",
  "Log verbosity follows RUST_LOG (default: warn)."]

/-- How to use the program. -/
def usage : String := String.join (usageLines.map (· ++ "\n"))

/-- The extension of source files. -/
def sourceExtension : String := "zephyr"

/-- Lists the tokens of a file. -/
def listTokens (t : Transcript) (o : Options) (file : String) : Exit :=
  match t.files.readText file with
  | .error e => (t.complain ("Failed to read '" ++ file ++ "': " ++ e.message)).exit 1
  | .ok source =>
    let style : Token.Style := ⟨!o.plain, !o.pretty⟩
    let lines := (Token.tokenize source).map fun token => style.line token ++ "\n"
    (t.print (String.join lines)).exit 0

/-- The name and states of a script, and the listings of all its handlers. -/
def scriptPages (s : Script) : String :=
  "=== " ++ s.name ++ " (" ++ ", ".intercalate s.states ++ ") ===\n"
    ++ String.join (s.handlerList.map fun (_, _, chunk) => chunk.page)

/-- What a script consists of, in one line. -/
def summary (s : Script) : String :=
  "compiled '" ++ s.name ++ "': " ++ toString s.states.length ++ " state(s), "
    ++ toString s.handlerCount ++ " handler(s)\n"

/-- Writes a baked script. -/
def bakeTo (t : Transcript) (s : Script) (path : String) : Except Exit Transcript :=
  let bytes := s.bake
  match t.files.write path bytes with
  | .error e => .error ((t.complain ("Failed to write '" ++ path ++ "': " ++ e.message)).exit 1)
  | .ok files =>
    .ok ({ t with files }.print ("baked " ++ toString bytes.length ++ " bytes to " ++ path ++ "\n"))

/-- The state and the variables of an entity. -/
def contextPage (c : Context) : String :=
  "state: " ++ c.state ++ "\n"
    ++ String.join (c.bindings.entries.map fun (name, v) => "  " ++ name ++ " = " ++ v.text ++ "\n")

/-- Has an entity handle events, beginning in a state of its script. -/
def handleEvents (t : Transcript) (edition : Edition) (o : Options) : Exit :=
  match Context.new edition (o.state.getD edition.script.initialState) with
  | .error fault => (t.complain ("Error: " ++ fault.message)).exit 1
  | .ok c =>
    let host : SoleHost := ⟨edition.script.name, some (c.withOwner entity), ""⟩
    let queue := o.events.foldl (fun q event => q.push entity event .empty) EventQueue.empty
    let drained := (queue.drain (Machine.new {}) host).1
    let t := t.print drained.host.printed
    let t := drained.faults.foldl (fun t report => t.complain report.message) t
    let t := match drained.host.context with
      | some c => t.print (contextPage c)
      | none => t
    t.exit (if drained.faults.isEmpty then 0 else 1)

/-- Does with a script what the options ask for. -/
def useScript (t : Transcript) (edition : Edition) (o : Options) : Except Exit Exit := do
  let s := edition.script
  let t := if o.code then t.print (scriptPages s) else t
  let t ← match o.bake with
    | some path => bakeTo t s path
    | none => pure t
  if !o.events.isEmpty then pure (handleEvents t edition o)
  else if o.code || o.bake.isSome then pure (t.exit 0)
  else pure ((t.print (summary s)).exit 0)

/-- Does with a file what the options ask for. -/
def useFile (t : Transcript) (o : Options) (file : String) : Exit :=
  let extension := Path.extension? file
  if extension ≠ some sourceExtension ∧ extension ≠ some bakedExtension then
    (t.complain ("Error: expected a ." ++ sourceExtension ++ " or ." ++ bakedExtension
      ++ " file, got " ++ file)).exit 1
  else if o.tokens then listTokens t o file
  else
    match (Library.empty.load t.files file).1 with
    | .error e => (t.complain e.message).exit 1
    | .ok edition =>
      match useScript t edition o with
      | .ok done => done
      | .error failed => failed

/-- Runs the program on arguments and files. -/
def run (files : Files) (args : List String) : Exit :=
  let t := Transcript.start files
  match ({} : Options).read args with
  | .error e => ((t.complain ("Error: " ++ e.message)).print usage).exit 2
  | .ok o =>
    match o.file with
    | some file => if o.help then (t.print usage).exit 0 else useFile t o file
    | none => (t.print usage).exit 0

end EntityScript.Console
