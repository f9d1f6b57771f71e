import EntityScript.Operator
import EntityScript.Value

/-!
# Faults

Why a handler is aborted. A fault ends only the handler that raised it, and a report of it says
where in the code of the handler it was raised.
-/

namespace EntityScript

/-- What a single value is wanted for. -/
inductive Use where
  | negation | complement | condition | argumentName | targetName
  deriving DecidableEq, Repr

/-- How a message names the use. -/
def Use.text : Use → String
  | negation => "-"
  | complement => "!"
  | condition => "condition"
  | argumentName => "argument name"
  | targetName => "target entity"

/-- The types that the use allows. -/
def Use.expected : Use → String
  | negation => "number or vec2"
  | complement | condition => "bool"
  | argumentName | targetName => "string"

/-- Why a handler is aborted. -/
inductive Fault where
  | typeMismatch (op : Operator) (left right : ValueType)
  | unaryTypeMismatch (use : Use) (got : ValueType)
  | divisionByZero
  | stackUnderflow
  | stackOverflow (limit : Nat)
  | unknownOpcode (byte : UInt8)
  | truncatedInstruction
  | badConstant (index : UInt8)
  | unknownState (state : String)
  | unresolvedTarget (name : String)
  | reentrantDispatch (name : String)
  | dispatchDepthExceeded (limit : Nat)
  | stepLimitExceeded (limit : Nat)
  | notAComponent (component : String) (got : ValueType)
  deriving DecidableEq, Repr

end EntityScript
