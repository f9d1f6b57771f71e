import EntityScript.Bytecode.Chunk
import EntityScript.Table

/-!
# Scripts

What a source file compiles to: the states it declares, a chunk for every event that a state
handles, and the types of the variables it annotates. A script does not change once it is made;
many entities run the same one.
-/

namespace EntityScript

/-- A compiled script. -/
structure Script where
  /-- How the script calls itself. -/
  name : String
  /-- Where it comes from. -/
  path : String
  /-- The declared states in source order. The first is where an entity begins. -/
  states : List String
  /-- The chunk for each event, by state. -/
  handlers : Table String (Table String Chunk)
  /-- The variables with a type annotation. -/
  declared : Table String ValueType
  deriving DecidableEq, Inhabited

namespace Script

/-- What reading a variable yields before anything is assigned to it. A variable without an
annotation reads as a number. -/
def unset (s : Script) (name : String) : Value :=
  ((s.declared.get? name).getD .number).unset

/-- Whether a state is declared. -/
def hasState (s : Script) (state : String) : Bool := s.states.contains state

/-- The state in which an entity begins. -/
def initialState (s : Script) : String := s.states.head?.getD ""

/-- The chunk that handles an event in a state. -/
def handler? (s : Script) (state event : String) : Option Chunk :=
  (s.handlers.get? state).bind (·.get? event)

/-- Every handler with its state and event, by state and then by event. -/
def handlerList (s : Script) : List (String × String × Chunk) :=
  s.handlers.entries.flatMap fun (state, events) =>
    events.entries.map fun (event, chunk) => (state, event, chunk)

/-- How many handlers there are. -/
def handlerCount (s : Script) : Nat := s.handlerList.length

end Script

end EntityScript
