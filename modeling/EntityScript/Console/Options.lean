/-!
# Options of the command line

What the arguments of the command line ask for, and what can be wrong with them.
-/

namespace EntityScript.Console

/-- What the arguments ask for. -/
structure Options where
  /-- The script to work on. -/
  file : Option String := none
  /-- Whether to list its tokens and do nothing else. -/
  tokens : Bool := false
  /-- Whether to list tokens without colours. -/
  plain : Bool := false
  /-- Whether to list tokens without details. -/
  pretty : Bool := false
  /-- Whether to list the code of its handlers. -/
  code : Bool := false
  /-- Where to write the baked script. -/
  bake : Option String := none
  /-- The state to begin in. -/
  state : Option String := none
  /-- The events to handle, the first one first. -/
  events : Array String := #[]
  /-- Whether to explain the options. -/
  help : Bool := false
  deriving DecidableEq, Repr

/-- What is wrong with the arguments. -/
inductive UsageError where
  | unknownFlag (flag : String)
  | missingValue (flag : String)
  | unexpectedArgument (arg : String)
  deriving DecidableEq, Repr

/-- The wording of a usage error. -/
def UsageError.message : UsageError → String
  | unknownFlag flag => s!"unknown flag '{flag}'"
  | missingValue flag => s!"{flag} expects a value"
  | unexpectedArgument arg => s!"unexpected argument '{arg}'"

/-- Whether an argument is a flag, or at least meant as one. -/
def isFlag (arg : String) : Bool := arg.toList.head? == some '-'

/-- Adds the value of a flag that takes one. -/
def Options.withValue (o : Options) (flag value : String) : Options :=
  match flag with
  | "--bake" => { o with bake := some value }
  | "--state" => { o with state := some value }
  | _ => { o with events := o.events.push value }

/-- Whether a flag takes the next argument for its value. -/
def takesValue (flag : String) : Bool :=
  flag == "--bake" || flag == "--state" || flag == "--dispatch"

/-- Adds an argument that stands for itself. -/
def Options.withArgument (o : Options) (arg : String) : Except UsageError Options :=
  match arg with
  | "--tokens" => .ok { o with tokens := true }
  | "--no-color" => .ok { o with plain := true }
  | "--pretty" => .ok { o with pretty := true }
  | "--bc" | "--bytecode" => .ok { o with code := true }
  | "--help" | "-h" => .ok { o with help := true }
  | arg =>
    if isFlag arg then .error (.unknownFlag arg)
    else if o.file.isNone then .ok { o with file := some arg }
    else .error (.unexpectedArgument arg)

/-- Adds what the arguments ask for, from left to right. The value of a flag never looks like a flag
itself. -/
def Options.read (o : Options) : List String → Except UsageError Options
  | [] => .ok o
  | [arg] => if takesValue arg then .error (.missingValue arg) else o.withArgument arg
  | arg :: next :: rest =>
    if takesValue arg then
      if isFlag next then .error (.missingValue arg) else (o.withValue arg next).read rest
    else
      match o.withArgument arg with
      | .ok o => o.read (next :: rest)
      | .error e => .error e

end EntityScript.Console
