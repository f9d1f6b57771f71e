import EntityScript.Machine.Fault
import EntityScript.Text.Column

/-!
# Reporting faults

The wording of faults, and the report of a fault with the chunk, the offset and the source line
of the instruction that raised it.
-/

namespace EntityScript

/-- The wording of a fault. -/
def Fault.message : Fault → String
  | typeMismatch op left right =>
    s!"type mismatch: cannot apply '{op.symbol}' to {left.name} and {right.name}"
  | unaryTypeMismatch use got =>
    s!"type mismatch: '{use.text}' expects {use.expected}, got {got.name}"
  | divisionByZero => "division by zero"
  | stackUnderflow => "stack underflow"
  | stackOverflow limit => "stack overflow: more than " ++ toString limit ++ " values"
  | unknownOpcode byte => "unknown opcode 0x" ++ Text.hexByte byte
  | truncatedInstruction => "truncated instruction: missing operand bytes"
  | badConstant index => "bad constant index " ++ toString index.toNat
  | unknownState state => s!"unknown state '{state}'"
  | unresolvedTarget name => s!"unresolved target entity '{name}'"
  | reentrantDispatch name => s!"entity '{name}' is already handling an event"
  | dispatchDepthExceeded limit => "dispatch depth limit exceeded (" ++ toString limit ++ ")"
  | stepLimitExceeded limit => "execution step limit exceeded (" ++ toString limit ++ ")"
  | notAComponent component got => s!"'{component}' is not a component of {got.name}"

/-- A fault and the instruction that raised it. -/
structure FaultReport where
  /-- The name of the chunk. -/
  chunk : String
  /-- The offset of the instruction. -/
  offset : Nat
  /-- The source line of the instruction. -/
  line : Nat
  /-- What was wrong. -/
  fault : Fault
  deriving DecidableEq, Repr

/-- The wording of a report. -/
def FaultReport.message (r : FaultReport) : String :=
  "runtime fault in '" ++ r.chunk ++ "' at " ++ Text.zeroPadded 4 r.offset ++ " (line "
    ++ toString r.line ++ "): " ++ r.fault.message

end EntityScript
