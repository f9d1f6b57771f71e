import EntityScript.Bytecode.Chunk
import EntityScript.Text.Column

/-!
# Listing the code of a chunk

One line per instruction: its offset, its source line where that differs from the line of the
byte before, its name, and its operands with the constants they name. Bytes that name no
instruction and operands that are cut off are listed too, so every chunk has a listing.
-/

namespace EntityScript

/-- The name of an opcode in its column. -/
def Opcode.column (op : Opcode) : String := Text.padRight 14 op.mnemonic

namespace Chunk

/-- The constant that an operand names, as a listing shows it. -/
def constantText (c : Chunk) (index : UInt8) : String :=
  match c.constant? index with
  | some v => "'" ++ v.text ++ "'"
  | none => "<bad constant>"

/-- An operand and the constant it names. -/
def operandText (c : Chunk) (index : UInt8) : String :=
  Text.padLeft ' ' 4 (toString index.toNat) ++ " " ++ c.constantText index

/-- The distance of a jump that stands at an offset, and where it leads. -/
def jumpText (offset : Nat) (i : Instruction) (distance : UInt16) : String :=
  Text.padLeft ' ' 4 ("+" ++ toString distance.toNat)
    ++ " (→ " ++ Text.zeroPadded 4 (offset + i.size + distance.toNat) ++ ")"

/-- How a listing shows an instruction that stands at an offset. -/
def instructionText (c : Chunk) (offset : Nat) (i : Instruction) : String :=
  match i with
  | .constant k | .getVariable k | .setVariable k | .getComponent k | .changeState k =>
    i.opcode.column ++ " " ++ c.operandText k
  | .jump distance | .jumpIfFalse distance =>
    i.opcode.column ++ " " ++ jumpText offset i distance
  | .fireEvent name flags argc =>
    i.opcode.column ++ " " ++ c.operandText name ++ " args=" ++ toString argc.toNat
      ++ (if Instruction.isTargeted flags then " targeted" else "")
  | .binary _ | .negate | .not | .pop | .ret => i.opcode.mnemonic

/-- How a listing shows what stands at an offset. -/
def fetchedText (c : Chunk) (offset : Nat) : Fetched → String
  | .instruction i => c.instructionText offset i
  | .truncated op => op.column ++ " <truncated>"
  | .unknown byte => Opcode.unknown.column ++ " 0x" ++ Text.hexByte byte

/-- The offset at the beginning of a line, with the source line or a bar where that is the same as
for the byte before. -/
def placeText (c : Chunk) (offset : Nat) : String :=
  let line := c.lineAt offset
  if 0 < offset ∧ c.lineAt (offset - 1) = line then Text.zeroPadded 4 offset ++ "    | "
  else Text.zeroPadded 4 offset ++ " " ++ Text.padLeft ' ' 4 (toString line) ++ " "

/-- The line for what stands at an offset inside the code, and the offset behind it. -/
def lineFor (c : Chunk) (offset : Nat) (h : offset < c.size) : String × Nat :=
  let fetched := c.fetch offset h
  (c.placeText offset ++ c.fetchedText offset fetched, fetched.next c.size offset)

/-- The listing goes on behind the line that it has just written. -/
theorem lt_lineFor (c : Chunk) (offset : Nat) (h : offset < c.size) :
    offset < (c.lineFor offset h).2 := by
  simp only [lineFor]
  cases c.fetch offset h with
  | instruction i => exact Nat.lt_add_of_pos_right i.size_pos
  | truncated _ => exact h
  | unknown _ => simp [Fetched.next]

/-- The listing from an offset on, behind what is written already. -/
def listingFrom (c : Chunk) (offset : Nat) (out : String) : String :=
  if h : offset < c.size then
    have := c.lt_lineFor offset h
    c.listingFrom (c.lineFor offset h).2 (out ++ (c.lineFor offset h).1 ++ "\n")
  else out
termination_by c.size - offset

/-- The listing of a chunk, every line with its line end. -/
def listing (c : Chunk) : String := c.listingFrom 0 ""

/-- The line that sets off the title of a chunk. -/
def ruler : String := String.ofList (List.replicate 40 '═')

/-- A chunk with a title and its listing, set off by an empty line. -/
def page (c : Chunk) : String :=
  ruler ++ "\n " ++ c.name ++ "\n " ++ toString c.size ++ " bytes, "
    ++ toString c.constants.size ++ " constants\n" ++ ruler ++ "\n" ++ c.listing ++ "\n"

end Chunk

end EntityScript
