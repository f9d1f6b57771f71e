import EntityScript.Bytecode.Chunk
import Mathlib.Data.Nat.Notation

/-!
# Reading code by index

The reader of instructions looks up operands with a value for places where there is none. Here
every byte is asked for by its index, and there is no answer as soon as an index lies outside of
the code. `Chunk.fetch?_eq` says that reading at an offset inside of the code never comes to that,
whatever the bytes are and wherever the code ends, and that what is read is the same.
-/

namespace EntityScript

namespace Fetched

/-- The instruction of an opcode, whose operands are asked for one after another by position. -/
def assemble? (byte : UInt8) (operand : ℕ → Option UInt8) : Opcode → Option Fetched
  | .constant => do return instruction (.constant (← operand 0))
  | .binary op => some (instruction (.binary op))
  | .negate => some (instruction .negate)
  | .not => some (instruction .not)
  | .getVariable => do return instruction (.getVariable (← operand 0))
  | .setVariable => do return instruction (.setVariable (← operand 0))
  | .getComponent => do return instruction (.getComponent (← operand 0))
  | .pop => some (instruction .pop)
  | .fireEvent => do
    return instruction (.fireEvent (← operand 0) (← operand 1) (← operand 2))
  | .changeState => do return instruction (.changeState (← operand 0))
  | .jump => do return instruction (.jump (wordOfBytes (← operand 0) (← operand 1)))
  | .jumpIfFalse => do
    return instruction (.jumpIfFalse (wordOfBytes (← operand 0) (← operand 1)))
  | .ret => some (instruction .ret)
  | .unknown => some (unknown byte)

/-- No operand is asked for that the opcode does not have. -/
theorem assemble?_eq (byte : UInt8) (operand : ℕ → Option UInt8) (value : ℕ → UInt8)
    (op : Opcode) (h : ∀ k < op.width, operand k = some (value k)) :
    assemble? byte operand op = some (assemble byte value op) := by
  cases op with
  | constant | getVariable | setVariable | getComponent | changeState =>
    simp [assemble?, assemble, h 0 Nat.one_pos]
  | jump | jumpIfFalse =>
    simp [assemble?, assemble, h 0 (by decide), h 1 (by decide)]
  | fireEvent =>
    simp [assemble?, assemble, h 0 (by decide), h 1 (by decide), h 2 (by decide)]
  | binary | negate | not | pop | ret | unknown => rfl

end Fetched

namespace Chunk

/-- What stands at an offset, read by index. No answer means that a byte was asked for that lies
outside of the code. -/
def fetch? (c : Chunk) (offset : ℕ) : Option Fetched := do
  let byte ← c.code[offset]?
  let op := Opcode.ofByte byte
  if 0 < op.width ∧ c.size ≤ offset + op.width then return .truncated op
  Fetched.assemble? byte (fun k => c.code[offset + 1 + k]?) op

/-- Reading inside of the code asks only for bytes of the code. -/
theorem fetch?_eq (c : Chunk) {offset : ℕ} (h : offset < c.size) :
    c.fetch? offset = some (c.fetch offset h) := by
  have hbyte : c.code[offset]? = some c.code[offset] := Array.getElem?_eq_getElem h
  unfold fetch? fetch Fetched.read
  rw [hbyte]
  dsimp only [Option.bind_eq_bind, Option.bind_some]
  generalize c.code[offset] = byte
  have hsize : c.size = c.code.size := rfl
  by_cases hcut : 0 < (Opcode.ofByte byte).width ∧ c.size ≤ offset + (Opcode.ofByte byte).width
  · rw [if_pos hcut, if_neg (by omega)]
    rfl
  · rw [if_neg hcut, if_pos (by omega)]
    refine Fetched.assemble?_eq byte _ _ _ fun k hk => ?_
    have hin : offset + 1 + k < c.code.size := by omega
    rw [Array.getElem?_eq_getElem hin, Array.getD_eq_getD_getElem?, Array.getElem?_eq_getElem hin,
      Option.getD_some]

end Chunk

end EntityScript
