/-!
# Operators on two values

The arithmetic and comparison operators of the script language. The logical operators are not
among them: they decide by jumps whether their right operand is evaluated at all.
-/

namespace EntityScript

/-- An operator that takes the values of both its operands. -/
inductive Operator where
  | add | subtract | multiply | divide
  | equal | notEqual | greater | greaterEqual | less | lessEqual
  deriving DecidableEq, Repr, Inhabited

/-- How a script writes the operator. -/
def Operator.symbol : Operator → String
  | add => "+"
  | subtract => "-"
  | multiply => "*"
  | divide => "/"
  | equal => "=="
  | notEqual => "!="
  | greater => ">"
  | greaterEqual => ">="
  | less => "<"
  | lessEqual => "<="

end EntityScript
