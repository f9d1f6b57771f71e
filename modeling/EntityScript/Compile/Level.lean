import EntityScript.Operator
import EntityScript.Token

/-!
# How tightly operators bind

The levels of the expression grammar, from the loosest to the tightest, and the level of each
operator that may follow an operand. The right operand of an operator on two values begins one
level tighter, so such operators group to the left; the logical operators begin it at their own
level and group to the right.
-/

namespace EntityScript.Compile

/-- A level of the expression grammar. -/
inductive Level where
  | assignment | or | and | equality | comparison | term | factor | unary | call
  deriving DecidableEq, Repr

/-- The place of a level in the order of tightness. -/
def Level.rank : Level → Nat
  | assignment => 0
  | or => 1
  | and => 2
  | equality => 3
  | comparison => 4
  | term => 5
  | factor => 6
  | unary => 7
  | call => 8

/-- Levels are ordered from the loosest to the tightest. -/
instance : LE Level := ⟨fun a b => a.rank ≤ b.rank⟩
instance : DecidableRel (α := Level) (· ≤ ·) := fun a b =>
  inferInstanceAs (Decidable (a.rank ≤ b.rank))

/-- The level of an operator on two values. -/
def operatorLevel : Operator → Level
  | .add | .subtract => .term
  | .multiply | .divide => .factor
  | .equal | .notEqual => .equality
  | .greater | .greaterEqual | .less | .lessEqual => .comparison

/-- The level at which the right operand of an operator on two values begins. -/
def rightLevel : Operator → Level
  | .add | .subtract => .factor
  | .multiply | .divide => .unary
  | .equal | .notEqual => .comparison
  | .greater | .greaterEqual | .less | .lessEqual => .term

/-- What may follow an operand. -/
inductive Continuation where
  | or | and
  | binary (op : Operator)
  | component
  deriving DecidableEq, Repr

/-- The continuation that a token begins. -/
def Continuation.ofKind? : Token.Kind → Option Continuation
  | .orOr => some .or
  | .andAnd => some .and
  | .plus => some (.binary .add)
  | .minus => some (.binary .subtract)
  | .star => some (.binary .multiply)
  | .slash => some (.binary .divide)
  | .equalEqual => some (.binary .equal)
  | .bangEqual => some (.binary .notEqual)
  | .greater => some (.binary .greater)
  | .greaterEqual => some (.binary .greaterEqual)
  | .less => some (.binary .less)
  | .lessEqual => some (.binary .lessEqual)
  | .dot => some .component
  | _ => none

/-- The level of a continuation. -/
def Continuation.level : Continuation → Level
  | or => .or
  | and => .and
  | binary op => operatorLevel op
  | component => .call

/-- What an operand can be, by its first token. -/
inductive Operand where
  | group | minus | bang | number | vector | text | truth (b : Bool) | name
  deriving DecidableEq, Repr

/-- The operand that a token begins. -/
def Operand.ofKind? : Token.Kind → Option Operand
  | .leftParen => some .group
  | .minus => some .minus
  | .bang => some .bang
  | .number => some .number
  | .vec2 => some .vector
  | .string => some .text
  | .trueWord => some (.truth true)
  | .falseWord => some (.truth false)
  | .identifier => some .name
  | _ => none

/-- The end of a source continues no expression. -/
@[simp] theorem Continuation.ofKind?_eof : Continuation.ofKind? .eof = none := rfl

/-- The end of a source is no operand. -/
@[simp] theorem Operand.ofKind?_eof : Operand.ofKind? .eof = none := rfl

end EntityScript.Compile
