import EntityScript.Arguments
import EntityScript.Machine.Fault
import EntityScript.Script

/-!
# Contexts

What an entity carries from one event to the next: the script it runs, its state, and its
variables. A context begins in a state that its script declares and changes only to such states.

The arguments of an event are bound for the time its handler runs and then give way to what was
bound before, so a handler that is run by another on the same entity leaves no trace of its own
arguments.
-/

namespace EntityScript

/-- The number by which a host knows an entity. -/
abbrev EntityId := Nat

/-- A script together with a number that tells it from every other making of a script, even of an
equal one. -/
structure Edition where
  /-- When it was made, counted over all makings. -/
  serial : Nat
  /-- What was made. -/
  script : Script
  deriving DecidableEq, Inhabited

/-- The script, state and variables of an entity. -/
structure Context where
  /-- The script it runs. -/
  definition : Edition
  /-- The state it is in. -/
  state : String
  /-- The variables assigned so far. -/
  bindings : Table String Value
  /-- The entity it belongs to. Events that the entity fires at itself come back to this context. -/
  owner : Option EntityId
  deriving DecidableEq, Inhabited

namespace Context

/-- A context that runs a script from one of its states on. -/
def new (definition : Edition) (state : String) : Except Fault Context :=
  if definition.script.hasState state then .ok ⟨definition, state, .empty, none⟩
  else .error (.unknownState state)

/-- Says which entity a context belongs to. -/
def withOwner (c : Context) (owner : EntityId) : Context := { c with owner := some owner }

/-- Changes to another state of the script. -/
def changeState (c : Context) (state : String) : Except Fault Context :=
  if c.definition.script.hasState state then .ok { c with state }
  else .error (.unknownState state)

/-- The value assigned to a variable. -/
def get? (c : Context) (name : String) : Option Value := c.bindings.get? name

/-- What reading a variable yields: its value, or the unset value of its type. -/
def read (c : Context) (name : String) : Value :=
  (c.get? name).getD (c.definition.script.unset name)

/-- Assigns a value to a variable. -/
def set (c : Context) (name : String) (v : Value) : Context :=
  { c with bindings := c.bindings.insert name v }

/-- The arguments bound now, as variables. -/
def bound (c : Context) : Table String Value := c.bindings.filter Arguments.isReserved

/-- Replaces the variables with reserved names by others. -/
def rebindArguments (c : Context) (entries : List (String × Value)) : Context :=
  { c with
    bindings := (c.bindings.filter fun name => !Arguments.isReserved name).insertAll entries }

/-- Binds the arguments of an event in place of those bound now. -/
def bindArguments (c : Context) (args : Arguments) : Context :=
  c.rebindArguments args.bindings

/-- Binds again what was bound before. -/
def restoreArguments (c : Context) (before : Table String Value) : Context :=
  c.rebindArguments before.entries

/-- Moves to another making of the script, and tells whether the state is still one of its states.
If not, the entity begins anew; its variables stay. -/
def rebind (c : Context) (definition : Edition) : Bool × Context :=
  if definition.script.hasState c.state then (true, { c with definition })
  else (false, { c with definition, state := definition.script.initialState })

end Context

end EntityScript
