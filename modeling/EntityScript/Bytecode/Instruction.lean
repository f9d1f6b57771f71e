import EntityScript.Bytecode.Opcode

/-!
# Instructions and their bytes

An instruction with its operands, the bytes that stand for it, and the one reader of bytes that
the machine and the listings share. Reading may find that the operands are cut off by the end of
the code, or that the first byte names no instruction; both are answers, not failures.
`Fetched.read_encode` says that reading gives back what was written, whatever follows.
-/

namespace EntityScript

/-- An instruction with its operands. An index counts constants of the chunk; a distance counts
bytes from the end of the jump. -/
inductive Instruction where
  | constant (index : UInt8)
  | binary (op : Operator)
  | negate
  | not
  | getVariable (name : UInt8)
  | setVariable (name : UInt8)
  | getComponent (name : UInt8)
  | pop
  /-- Fires an event. The lowest flag says that the name of a target lies on the stack below the
  arguments. -/
  | fireEvent (name flags argc : UInt8)
  | changeState (name : UInt8)
  | jump (distance : UInt16)
  | jumpIfFalse (distance : UInt16)
  | ret
  deriving DecidableEq, Repr, Inhabited

/-- The two bytes of a word, the high one first. -/
def wordBytes (w : UInt16) : List UInt8 :=
  [UInt8.ofNat (w.toNat / 256), UInt8.ofNat w.toNat]

/-- The word that two bytes stand for, the high one first. -/
def wordOfBytes (high low : UInt8) : UInt16 := UInt16.ofNat (high.toNat * 256 + low.toNat)

/-- The two bytes of a word, high byte first, read back as that word. -/
@[simp] theorem wordOfBytes_wordBytes (w : UInt16) :
    wordOfBytes (UInt8.ofNat (w.toNat / 256)) (UInt8.ofNat w.toNat) = w := by
  have h := w.toNat_lt
  apply UInt16.toNat_inj.1
  simp only [wordOfBytes, UInt8.toNat_ofNat', UInt16.toNat_ofNat']
  omega

namespace Instruction

/-- The flag of a targeted event. -/
def targetFlag : UInt8 := 1

/-- Whether the flags of an event say that it has a target. -/
def isTargeted (flags : UInt8) : Bool := flags &&& targetFlag != 0

/-- The opcode of an instruction. -/
def opcode : Instruction → Opcode
  | constant _ => .constant
  | binary op => .binary op
  | negate => .negate
  | not => .not
  | getVariable _ => .getVariable
  | setVariable _ => .setVariable
  | getComponent _ => .getComponent
  | pop => .pop
  | fireEvent _ _ _ => .fireEvent
  | changeState _ => .changeState
  | jump _ => .jump
  | jumpIfFalse _ => .jumpIfFalse
  | ret => .ret

/-- The operand bytes of an instruction. -/
def operands : Instruction → List UInt8
  | constant i | getVariable i | setVariable i | getComponent i | changeState i => [i]
  | fireEvent name flags argc => [name, flags, argc]
  | jump d | jumpIfFalse d => wordBytes d
  | binary _ | negate | not | pop | ret => []

/-- The bytes of an instruction. -/
def encode (i : Instruction) : List UInt8 := i.opcode.toByte :: i.operands

/-- How many bytes an instruction has. -/
def size (i : Instruction) : Nat := 1 + i.opcode.width

/-- No instruction is empty: each takes at least the byte of its opcode. -/
theorem size_pos (i : Instruction) : 0 < i.size :=
  Nat.lt_of_lt_of_le Nat.one_pos (Nat.le_add_right _ _)

/-- An instruction takes exactly as many bytes of code as its size says. -/
theorem length_encode (i : Instruction) : i.encode.length = i.size := by
  cases i <;> rfl

end Instruction

/-- What stands at a place in code. -/
inductive Fetched where
  /-- An instruction with all its operands. -/
  | instruction (i : Instruction)
  /-- An instruction whose operands run over the end of the code. -/
  | truncated (op : Opcode)
  /-- A byte that names no instruction. -/
  | unknown (byte : UInt8)
  deriving DecidableEq, Repr

namespace Fetched

/-- The instruction of an opcode, whose operands are looked up by position. -/
def assemble (byte : UInt8) (operand : Nat → UInt8) : Opcode → Fetched
  | .constant => instruction (.constant (operand 0))
  | .binary op => instruction (.binary op)
  | .negate => instruction .negate
  | .not => instruction .not
  | .getVariable => instruction (.getVariable (operand 0))
  | .setVariable => instruction (.setVariable (operand 0))
  | .getComponent => instruction (.getComponent (operand 0))
  | .pop => instruction .pop
  | .fireEvent => instruction (.fireEvent (operand 0) (operand 1) (operand 2))
  | .changeState => instruction (.changeState (operand 0))
  | .jump => instruction (.jump (wordOfBytes (operand 0) (operand 1)))
  | .jumpIfFalse => instruction (.jumpIfFalse (wordOfBytes (operand 0) (operand 1)))
  | .ret => instruction .ret
  | .unknown => unknown byte

/-- Reads what stands at `offset`, whose byte is `byte`. -/
def read (code : Array UInt8) (offset : Nat) (byte : UInt8) : Fetched :=
  let op := Opcode.ofByte byte
  if offset + op.width < code.size then
    assemble byte (fun k => code.getD (offset + 1 + k) 0) op
  else truncated op

/-- Where reading goes on behind what was read at `offset`: nowhere, if operands are missing. -/
def next (size offset : Nat) : Fetched → Nat
  | instruction i => offset + i.size
  | truncated _ => size
  | unknown _ => offset + 1

/-- The operands in their order give back the instruction. -/
theorem assemble_operands (i : Instruction) (operand : Nat → UInt8)
    (h : ∀ k (hk : k < i.operands.length), operand k = i.operands[k]) (byte : UInt8) :
    assemble byte operand i.opcode = instruction i := by
  cases i with
  | constant | getVariable | setVariable | getComponent | changeState =>
    have h0 := h 0 (by simp [Instruction.operands])
    simp_all [Instruction.opcode, assemble, Instruction.operands]
  | fireEvent =>
    have h0 := h 0 (by simp [Instruction.operands])
    have h1 := h 1 (by simp [Instruction.operands])
    have h2 := h 2 (by simp [Instruction.operands])
    simp_all [Instruction.opcode, assemble, Instruction.operands]
  | jump | jumpIfFalse =>
    have h0 : operand 0 = UInt8.ofNat (_ / 256) := h 0 (by simp [Instruction.operands, wordBytes])
    have h1 : operand 1 = UInt8.ofNat _ := h 1 (by simp [Instruction.operands, wordBytes])
    simp only [Instruction.opcode, assemble, h0, h1, wordOfBytes_wordBytes]
  | binary | negate | not | pop | ret => rfl

/-- Reading gives back the instruction that was written, whatever stands before and behind it. -/
theorem read_encode (i : Instruction) (before after : List UInt8) :
    read (before ++ i.encode ++ after).toArray before.length i.opcode.toByte = instruction i := by
  have hin : before.length + i.opcode.width < (before ++ i.encode ++ after).toArray.size := by
    simp [i.length_encode, Instruction.size]
    omega
  simp only [read, Opcode.ofByte_toByte, if_pos hin]
  refine assemble_operands i _ (fun k hk => ?_) _
  simp [Instruction.encode, Array.getD_eq_getD_getElem?, List.getElem?_append_right,
    Nat.add_assoc, Nat.add_comm 1 k, List.getElem?_append_left, hk]

end Fetched

end EntityScript
