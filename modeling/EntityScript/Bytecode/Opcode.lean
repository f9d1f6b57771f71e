import EntityScript.Operator

/-!
# Opcodes

The first byte of an instruction says what it does and how many operand bytes follow. Every byte
is read as some opcode: one that names no instruction is read as `unknown`.
-/

namespace EntityScript

/-- What an instruction does. -/
inductive Opcode where
  /-- Pushes a constant. -/
  | constant
  /-- Applies an operator to the two topmost values. -/
  | binary (op : Operator)
  | negate
  | not
  | getVariable
  /-- Assigns the topmost value and leaves it. -/
  | setVariable
  | getComponent
  | pop
  | fireEvent
  | changeState
  | jump
  /-- Jumps if the topmost value is false, and leaves it. -/
  | jumpIfFalse
  /-- Ends the handler. -/
  | ret
  /-- No instruction at all. -/
  | unknown
  deriving DecidableEq, Repr, Inhabited

namespace Opcode

/-- The opcode that a byte stands for. -/
def ofByte : UInt8 → Opcode
  | 0x01 => constant
  | 0x10 => binary .add
  | 0x11 => binary .subtract
  | 0x12 => binary .multiply
  | 0x13 => binary .divide
  | 0x14 => negate
  | 0x20 => binary .equal
  | 0x21 => binary .notEqual
  | 0x22 => binary .greater
  | 0x23 => binary .greaterEqual
  | 0x24 => binary .less
  | 0x25 => binary .lessEqual
  | 0x26 => not
  | 0x30 => getVariable
  | 0x31 => setVariable
  | 0x32 => getComponent
  | 0x33 => pop
  | 0x40 => fireEvent
  | 0x41 => changeState
  | 0x50 => jump
  | 0x51 => jumpIfFalse
  | 0x60 => ret
  | _ => unknown

/-- The byte of an opcode. -/
def toByte : Opcode → UInt8
  | constant => 0x01
  | binary .add => 0x10
  | binary .subtract => 0x11
  | binary .multiply => 0x12
  | binary .divide => 0x13
  | negate => 0x14
  | binary .equal => 0x20
  | binary .notEqual => 0x21
  | binary .greater => 0x22
  | binary .greaterEqual => 0x23
  | binary .less => 0x24
  | binary .lessEqual => 0x25
  | not => 0x26
  | getVariable => 0x30
  | setVariable => 0x31
  | getComponent => 0x32
  | pop => 0x33
  | fireEvent => 0x40
  | changeState => 0x41
  | jump => 0x50
  | jumpIfFalse => 0x51
  | ret => 0x60
  | unknown => 0xFF

/-- How many operand bytes follow the opcode. -/
def width : Opcode → Nat
  | constant | getVariable | setVariable | getComponent | changeState => 1
  | jump | jumpIfFalse => 2
  | fireEvent => 3
  | binary _ | negate | not | pop | ret | unknown => 0

/-- How a listing names the opcode. -/
def mnemonic : Opcode → String
  | constant => "CONSTANT"
  | binary .add => "ADD"
  | binary .subtract => "SUBTRACT"
  | binary .multiply => "MULTIPLY"
  | binary .divide => "DIVIDE"
  | negate => "NEGATE"
  | binary .equal => "EQUAL"
  | binary .notEqual => "NOT_EQUAL"
  | binary .greater => "GREATER"
  | binary .greaterEqual => "GREATER_EQUAL"
  | binary .less => "LESS"
  | binary .lessEqual => "LESS_EQUAL"
  | not => "NOT"
  | getVariable => "GET_VARIABLE"
  | setVariable => "SET_VARIABLE"
  | getComponent => "GET_COMPONENT"
  | pop => "POP"
  | fireEvent => "FIRE_EVENT"
  | changeState => "CHANGE_STATE"
  | jump => "JUMP"
  | jumpIfFalse => "JUMP_IF_FALSE"
  | ret => "RETURN"
  | unknown => "UNKNOWN"

/-- Different opcodes have different bytes. -/
@[simp] theorem ofByte_toByte (op : Opcode) : ofByte op.toByte = op := by
  rcases op with _ | op | _ | _ | _ | _ | _ | _ | _ | _ | _ | _ | _ | _ <;> (try cases op) <;> rfl

end Opcode

end EntityScript
