import EntityScript.Bytecode.Chunk
import Mathlib.Data.Nat.Notation

/-!
# Well-formed code

What a chunk keeps to if its bytes are to be run without a look at what they are: they are whole
instructions, jumps lead to instructions, indices lead to constants of the right kind, and every
instruction finds its operands. Everything here is about bytes and the one reader of bytes; where
the bytes come from is not said.

Operands are counted, not looked at. `Chunk.Reaches` follows both ways of a decision, so that a
height is the same on every path if it is the same on every path that it allows.
-/

namespace EntityScript

namespace Instruction

/-- How many operands have to be there. -/
def takes : Instruction → ℕ
  | constant _ | getVariable _ | changeState _ | jump _ | ret => 0
  | negate | not | setVariable _ | getComponent _ | pop | jumpIfFalse _ => 1
  | binary _ => 2
  | fireEvent _ flags argc => 2 * argc.toNat + if isTargeted flags then 1 else 0

/-- How many operands are there in place of those that have to be there. -/
def leaves : Instruction → ℕ
  | constant _ | getVariable _ | negate | not | setVariable _ | getComponent _ | jumpIfFalse _
  | binary _ => 1
  | changeState _ | jump _ | ret | pop | fireEvent _ _ _ => 0

/-- The offset that a jump at an offset leads to. -/
def target? (offset : ℕ) : Instruction → Option ℕ
  | jump distance => some (offset + 3 + distance.toNat)
  | jumpIfFalse distance => some (offset + 3 + distance.toNat)
  | _ => none

/-- The offsets at which execution may go on behind an instruction at an offset. -/
def successors (offset : ℕ) : Instruction → List ℕ
  | jump distance => [offset + 3 + distance.toNat]
  | jumpIfFalse distance => [offset + 3, offset + 3 + distance.toNat]
  | ret => []
  | i => [offset + i.size]

/-- The index of the constant that an instruction names. -/
def index? : Instruction → Option UInt8
  | constant index | getVariable index | setVariable index | getComponent index
  | changeState index | fireEvent index _ _ => some index
  | binary _ | negate | not | pop | jump _ | jumpIfFalse _ | ret => none

/-- The index of the constant that an instruction names as a name. -/
def name? : Instruction → Option UInt8
  | constant _ => none
  | i => i.index?

end Instruction

namespace Chunk

/-- The instructions from an offset on with their offsets, if the bytes are whole instructions. -/
def decodeFrom (c : Chunk) (offset : ℕ) : Option (List (ℕ × Instruction)) :=
  if h : offset < c.size then
    match c.fetch offset h with
    | .instruction i =>
      have := i.size_pos
      (c.decodeFrom (offset + i.size)).map ((offset, i) :: ·)
    | .truncated _ | .unknown _ => none
  else some []
termination_by c.size - offset

/-- Execution may come to an offset with so many operands, whatever the operands are. -/
inductive Reaches (c : Chunk) : ℕ → ℕ → Prop
  | start : Reaches c 0 0
  | step {offset height next : ℕ} {i : Instruction} (reached : Reaches c offset height)
      (h : offset < c.size) (fetched : c.fetch offset h = .instruction i)
      (goes : next ∈ i.successors offset) : Reaches c next (height - i.takes + i.leaves)

/-- The bytes of a chunk are these instructions, and each has a height of the operand stack at which
it finds what it takes. -/
structure WellFormed (c : Chunk) (states : List String) (is : List (ℕ × Instruction))
    (height : ℕ → ℕ) : Prop where
  /-- The bytes are whole instructions. -/
  decoded : c.decodeFrom 0 = some is
  /-- The last one ends the handler. -/
  ends : ∃ before offset, is = before ++ [(offset, .ret)]
  /-- Jumps lead to instructions. -/
  jumps : ∀ x ∈ is, ∀ target, x.2.target? x.1 = some target → ∃ i, (target, i) ∈ is
  /-- Indices lead to constants. -/
  constants : ∀ x ∈ is, ∀ index, x.2.index? = some index → ∃ v, c.constant? index = some v
  /-- Indices of names lead to texts. -/
  names : ∀ x ∈ is, ∀ index, x.2.name? = some index → ∃ s, c.constant? index = some (.string s)
  /-- Vectors have the components that are asked for. -/
  components : ∀ offset index, (offset, .getComponent index) ∈ is →
    c.constant? index = some (.string "x") ∨ c.constant? index = some (.string "y")
  /-- The states that are changed to are there. -/
  states : ∀ offset index, (offset, .changeState index) ∈ is →
    ∃ s ∈ states, c.constant? index = some (.string s)
  /-- An instruction finds its operands. -/
  enough : ∀ x ∈ is, x.2.takes ≤ height x.1
  /-- A handler begins without operands. -/
  initial : height 0 = 0
  /-- Heights agree wherever execution may go on. -/
  steps : ∀ x ∈ is, ∀ next ∈ x.2.successors x.1,
    height next = height x.1 - x.2.takes + x.2.leaves
  /-- Every path to an instruction comes to it with its height. -/
  heights : ∀ offset n, c.Reaches offset n → n = height offset
  /-- A handler ends without operands. -/
  returns : ∀ offset, (offset, .ret) ∈ is → height offset = 0
  /-- An event that is fired leaves no operands. -/
  fires : ∀ offset name flags argc, (offset, .fireEvent name flags argc) ∈ is →
    height (offset + 4) = 0
  /-- A value that is dropped at the end of a statement, which is not behind a jump, leaves no
  operands. -/
  drops : ∀ before x offset after, is = before ++ x :: (offset, .pop) :: after →
    x.2.target? x.1 = none → height (offset + 1) = 0

end Chunk

end EntityScript
