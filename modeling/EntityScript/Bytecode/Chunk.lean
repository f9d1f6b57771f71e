import EntityScript.Bytecode.Instruction
import EntityScript.Value

/-!
# Chunks

A chunk is the code of one event handler with the constants it names and the source line of each
of its bytes. Constants are interned: a value that is already in the pool is not added again, so
an index handed out once stays good, and an operand of one byte can name every constant of a
pool.
-/

namespace EntityScript

/-- The code of an event handler. -/
structure Chunk where
  /-- State and event of the handler, for listings and fault reports. -/
  name : String
  /-- The bytes of the instructions. -/
  code : Array UInt8
  /-- The values that instructions name by index. -/
  constants : Array Value
  /-- The source line of each byte. -/
  lines : Array Nat
  deriving DecidableEq, Repr, Inhabited

namespace Chunk

/-- How many constants an operand of one byte can name. -/
def maxConstants : Nat := 256

/-- A chunk without code. -/
def empty (name : String) : Chunk := ⟨name, #[], #[], #[]⟩

/-- How many bytes of code there are. -/
def size (c : Chunk) : Nat := c.code.size

/-- Adds a byte of code for a source line. -/
def push (c : Chunk) (byte : UInt8) (line : Nat) : Chunk :=
  { c with code := c.code.push byte, lines := c.lines.push line }

/-- Adds the bytes of an instruction for a source line. -/
def emit (c : Chunk) (i : Instruction) (line : Nat) : Chunk :=
  i.encode.foldl (fun c byte => c.push byte line) c

/-- The index of a constant in one byte, if it has one. -/
def byteIndex? (index : Nat) : Option UInt8 :=
  if index < maxConstants then some (UInt8.ofNat index) else none

/-- Interns a value and answers its index. A pool that has no room left stays as it is, and answers
the index only of a value that it holds. -/
def intern (c : Chunk) (v : Value) : Option UInt8 × Chunk :=
  match c.constants.findIdx? (· == v) with
  | some index => (byteIndex? index, c)
  | none =>
    if c.constants.size < maxConstants then
      (byteIndex? c.constants.size, { c with constants := c.constants.push v })
    else (none, c)

/-- The constant under an index. -/
def constant? (c : Chunk) (index : UInt8) : Option Value := c.constants[index.toNat]?

/-- The source line of a byte, or 0 if none is known. -/
def lineAt (c : Chunk) (offset : Nat) : Nat := c.lines.getD offset 0

/-- The word at an offset, if both its bytes are there. -/
def word? (c : Chunk) (offset : Nat) : Option UInt16 :=
  match c.code[offset]?, c.code[offset + 1]? with
  | some high, some low => some (wordOfBytes high low)
  | _, _ => none

/-- Overwrites the two bytes at an offset by a word. -/
def setWord (c : Chunk) (offset : Nat) (w : UInt16) : Chunk :=
  let high := UInt8.ofNat (w.toNat / 256)
  let low := UInt8.ofNat w.toNat
  { c with code := (c.code.setIfInBounds offset high).setIfInBounds (offset + 1) low }

/-- What stands at an offset inside the code. -/
def fetch (c : Chunk) (offset : Nat) (h : offset < c.size) : Fetched :=
  .read c.code offset c.code[offset]

/-- The opcodes from an offset on, added to those before it. -/
def opcodesFrom (c : Chunk) (offset : Nat) (ops : Array Opcode) : Array Opcode :=
  if h : offset < c.size then
    let op := Opcode.ofByte c.code[offset]
    c.opcodesFrom (offset + 1 + op.width) (ops.push op)
  else ops
termination_by c.size - offset

/-- The opcodes of a chunk without their operands. -/
def opcodes (c : Chunk) : List Opcode := (c.opcodesFrom 0 #[]).toList

end Chunk

end EntityScript
