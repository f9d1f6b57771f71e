import EntityScript.Table
import EntityScript.Value

/-!
# Arguments of events

An event carries named values. While a handler runs they are variables of its entity under
reserved names, which no other variable can have: the name of an argument behind `args.`.
-/

namespace EntityScript

/-- The named values that an event carries. -/
abbrev Arguments := Table String Value

namespace Arguments

/-- What the reserved names begin with. -/
def reserved : String := "args."

/-- The variable that an argument is read from. -/
def reservedName (name : String) : String := reserved ++ name

/-- Whether a variable has a reserved name. -/
def isReserved (name : String) : Bool := reserved.toList.isPrefixOf name.toList

/-- The variables that hold the arguments of an event. -/
def bindings (args : Arguments) : List (String × Value) :=
  args.entries.map fun (name, v) => (reservedName name, v)

/-- Every name that the machine makes up for an argument is reserved. -/
theorem isReserved_reservedName (name : String) : isReserved (reservedName name) = true := by
  simp [isReserved, reservedName, String.toList_append]

end Arguments

end EntityScript
